import Infos.User.Calls

/-!
# `cat`

What `infos-user/src/cat/main.cpp` prints of a file of the disk.
-/

open Infos.Prog Infos.Bytes Infos.Fs Infos.Kernel Infos.Kernel.FileCalls

namespace Infos.User

variable {T P : Type} [DecidableEq P] (W : World T P)

/-- One argument, which points to a text. -/
def text_arg (t : List UInt8) : Util.Printf.Args := ⟨fun _ => 0, fun _ => t⟩

namespace Cat

def unable : List UInt8 :=
  "error: unable to open file '%s' for reading\n".toList.map Util.Printf.chr

/-- The `do` loop over `buffer`, which has 64 characters. -/
def print_loop (file : UInt64) : (fuel : ℕ) → Memory → UserOp T P Unit
  | 0, _ => throw .fuel
  | fuel + 1, buffer => do
    let (bytes_read, buffer) ← read W file buffer (64 - 1)
    if ¬ (0 ≤ bytes_read ∧ bytes_read < 64) then throw .outside
    let buffer := Function.update buffer bytes_read.toInt.toNat 0
    discard (printf W [37, 115] (text_arg ((List.range 64).map buffer)))
    if 0 < bytes_read then print_loop file fuel buffer

def main (fuel : ℕ) (cmdline : Option (List UInt8)) : UserOp T P Int32 := do
  match cmdline with
  | none | some [] => return 1
  | some cmdline =>
    let file ← open_ W cmdline
    if is_error file then
      discard (printf W unable (text_arg cmdline))
      return 1
    print_loop W file fuel W.garbage
    close W file
    return 0

end Cat

/-! ## What is printed -/

namespace Cat

variable {dev : BlockDevice} {b : ℕ × ℕ} {k n : ℕ}

/-- What is printed after the `k`th read. -/
def piece (dev : BlockDevice) (b : ℕ × ℕ) (k : ℕ) : List UInt8 :=
  ((List.range 63).map fun i => data dev (b.1 + 1) (63 * k + i)).takeWhile (· ≠ 0)

/-- The number of reads in front of the end. -/
def reads (b : ℕ × ℕ) : ℕ := (b.2 + 62) / 63

def shown (dev : BlockDevice) (b : ℕ × ℕ) : List UInt8 := (List.range (reads b)).flatMap (piece dev b)

def text (dev : BlockDevice) (b : ℕ × ℕ) : List UInt8 := (List.range b.2).map (data dev (b.1 + 1))

theorem printed_text {t : List UInt8} (h : t.length ≤ 0xffe) :
    Util.Printf.clip 0xffe (Util.Printf.fields (text_arg t) [37, 115] none 0) = t.takeWhile (· ≠ 0) := by
  have hfields : Util.Printf.fields (text_arg t) [37, 115] none 0 =
      [.text (Util.Printf.padded_text ⟨0, 32, 4⟩ t)] := rfl
  have hpad : Util.Printf.padded_text ⟨0, 32, 4⟩ t = t.takeWhile (· ≠ 0) := by
    unfold Util.Printf.padded_text
    simp
  have hlen : (t.takeWhile (· ≠ 0)).length ≤ 0xffe := (List.takeWhile_sublist _).length_le.trans h
  rw [hfields, hpad, Util.Printf.clip_singleton]
  exact List.take_of_length_le hlen

/-- The text in the buffer ends where the zero was put. -/
theorem takeWhile_update {m : Memory} (h : n < 64) :
    ((List.range 64).map (Function.update m n 0)).takeWhile (· ≠ 0) =
      ((List.range n).map m).takeWhile (· ≠ 0) := by
  obtain ⟨d, hd⟩ : ∃ d, 64 = n + (d + 1) := ⟨63 - n, by omega⟩
  have hzero : (List.range (d + 1)).map (fun i => Function.update m n (0 : UInt8) (n + i)) =
      0 :: (List.range d).map fun i => Function.update m n 0 (n + (i + 1)) := by
    rw [List.range_succ_eq_map]
    simp [Function.comp_def]
  have hbefore : (List.range n).map (Function.update m n 0) = (List.range n).map m :=
    List.map_congr_left fun i hi => Function.update_of_ne (List.mem_range.mp hi).ne _ _
  rw [hd, List.range_add, List.map_append, List.map_map, Function.comp_def, hzero, hbefore,
    List.takeWhile_append]
  split_ifs with hall
  · rw [List.takeWhile_cons_of_neg (by simp), List.append_nil]
    exact ((List.takeWhile_prefix _).eq_of_length hall).symm
  · rfl

/-! ## The loop -/

variable {W} {C : List (List UInt8)} {es : List Entry} {r : Running T P} {h : UInt64}
  {addr con d vc fuel : ℕ} {o oc : Opened} {path : List UInt8}

/-- What the program has open. -/
structure Ready (W : World T P) (C : List (List UInt8)) (es : List Entry) (d vc : ℕ) (b : ℕ × ℕ)
    (h : UInt64) (k : ℕ) (r : Running T P) : Prop where
  inv : Inv W.setting C es r.kernel
  console : ∃ con oc, Holds W.setting (W.setting.process W.current) r.kernel r.__console_handle con oc ∧
    oc.file = .device d
  screen : W.setting.device_file d = .terminal (some vc)
  file : ∃ addr o, Holds W.setting (W.setting.process W.current) r.kernel h addr o ∧
    file_at es o.path = some b ∧ o.given.length = 63 * k

omit [DecidableEq P] in
/-- A file of the disk is not one of a device. -/
theorem file_ne (hi : Inv W.setting C es r.kernel) {h' : UInt64}
    (hh : Holds W.setting (W.setting.process W.current) r.kernel h addr o)
    (hh' : Holds W.setting (W.setting.process W.current) r.kernel h' con oc)
    (hb : file_at es o.path = some b) (hd : oc.file = .device d) : con ≠ addr := by
  rintro rfl
  obtain rfl := Option.some.inj (hh.file.symm.trans hh'.file)
  obtain ⟨file, hfile, -, hfollows⟩ := hi.follows o (List.mem_of_getElem? hh.file)
  obtain ⟨hopened, -⟩ := opened_path_of W.setting.around W.setting.disk
    W.setting.devices hb
  obtain rfl := Option.some.inj (hfile.symm.trans hopened)
  obtain ⟨f, hof, -⟩ := hfollows
  rw [hof] at hd
  cases hd

/-- What the program wrote to the console. -/
def Wrote (W : World T P) (C : List (List UInt8)) (es : List Entry) (d : ℕ) (r r' : Running T P)
    (t : List UInt8) : Prop :=
  ∃ pieces : List (List UInt8), Goes W C es r r' (pieces.map fun x => ⟨W.current, d, x⟩) ∧
    pieces.flatten = t

theorem Wrote.trans {r' r'' : Running T P} {t t' : List UInt8} (hw : Wrote W C es d r r' t)
    (hw' : Wrote W C es d r' r'' t') : Wrote W C es d r r'' (t ++ t') := by
  obtain ⟨pieces, hgo, rfl⟩ := hw
  obtain ⟨pieces', hgo', rfl⟩ := hw'
  refine ⟨pieces ++ pieces', ?_, List.flatten_append⟩
  rw [List.map_append]
  exact hgo.trans hgo'

/-- A turn of the loop reads on and prints what it got. -/
theorem print_loop_spec (hE : W.setting.Sound C es) (hW : W.Apart C)
    (hr : Ready W C es d vc b h k r) (hfuel : reads b - k < fuel) (buffer : Memory) :
    Ends (print_loop W h fuel buffer) r (fun _ r' => Ready W C es d vc b h (max k (reads b)) r' ∧
      Wrote W C es d r r' ((List.range' k (reads b - k)).flatMap (piece W.setting.disk b)))
      Excused := by
  induction fuel generalizing k r buffer with
  | zero => omega
  | succ fuel ih =>
    obtain ⟨addr, o, hh, hb, hgiven⟩ := hr.file
    obtain ⟨con, oc, hcon, hdev⟩ := hr.console
    have hne := file_ne hr.inv hh hcon hb hdev
    unfold print_loop
    rw [ends_bind]
    apply ends_mono (read_spec hE hW hr.inv hh hb (n := 64 - 1) (by decide))
    rintro ⟨rc, buffer'⟩ r₁ ⟨hgo, hkeeps, hrc, hin, o', hh', hpath, hgiven'⟩
    have hn : (64 - 1 : UInt64).toNat = 63 := rfl
    rw [hn] at hrc hin hgiven'
    dsimp only at hrc hin ⊢
    have hle : rest b.2 o.given.length 63 ≤ 63 := by
      unfold rest
      split_ifs <;> omega
    have hbounds : 0 ≤ rc ∧ rc < 64 := by
      rw [Int32.le_iff_toInt_le, Int32.lt_iff_toInt_lt, hrc]
      have hzero : (0 : Int32).toInt = 0 := rfl
      have hsize : (64 : Int32).toInt = 64 := rfl
      omega
    have hcon₁ := hkeeps _ con oc hne hcon
    rw [← hgo.console] at hcon₁
    rw [if_neg (not_not.mpr hbounds), hrc, Int.toNat_natCast, ends_bind, ends_discard]
    apply ends_mono (printf_spec hE hW hgo.inv hcon₁ hdev hr.screen)
    rintro _ r₂ ⟨hgo₂, hkeeps₂⟩
    have hlen : ((List.range 64).map (Function.update buffer' (rest b.2 o.given.length 63) 0)).length ≤
        0xffe := by
      rw [List.length_map, List.length_range]
      decide
    rw [printed_text hlen, takeWhile_update (by omega)] at hgo₂
    have hpos : 0 < rc ↔ k < reads b := by
      rw [Int32.lt_iff_toInt_lt, hrc]
      have hzero : (0 : Int32).toInt = 0 := rfl
      unfold rest reads
      split_ifs <;> omega
    have hcon₂ := hkeeps₂ _ con oc hcon₁
    rw [← hgo₂.console] at hcon₂
    by_cases hk : k < reads b
    · have hrest : rest b.2 o.given.length 63 = 63 := by
        unfold rest reads at *
        rw [if_neg (by omega)]
      rw [hrest] at hgo₂ hin hgiven'
      rw [if_pos (hpos.mpr hk)]
      have hpiece : ((List.range 63).map buffer').takeWhile (· ≠ 0) = piece W.setting.disk b k := by
        unfold piece
        congr 1
        apply List.map_congr_left
        intro i hi
        rw [hin i (List.mem_range.mp hi), hgiven]
      rw [hpiece] at hgo₂
      have hready : Ready W C es d vc b h (k + 1) r₂ :=
        ⟨hgo₂.inv, ⟨con, oc, hcon₂, hdev⟩, hr.screen,
          ⟨addr, o', hkeeps₂ _ _ _ hh', hpath ▸ hb, by rw [hgiven', hgiven]; ring⟩⟩
      apply ends_mono (ih hready (by omega) _)
      rintro _ r₃ ⟨hready₃, hwrote⟩
      rw [show max (k + 1) (reads b) = max k (reads b) by omega] at hready₃
      refine ⟨hready₃, ?_⟩
      obtain ⟨j, hj⟩ : ∃ j, reads b - k = j + 1 := ⟨reads b - k - 1, by omega⟩
      rw [hj, List.range'_succ, List.flatMap_cons]
      rw [show reads b - (k + 1) = j by omega] at hwrote
      have hfirst : Wrote W C es d r r₂ (piece W.setting.disk b k) :=
        ⟨[piece W.setting.disk b k], hgo.trans hgo₂, by simp⟩
      exact hfirst.trans hwrote
    · have hrest : rest b.2 o.given.length 63 = 0 := by
        unfold rest reads at *
        rw [if_pos (by omega)]
      rw [hrest] at hgo₂ hgiven'
      rw [if_neg (mt hpos.mp hk)]
      have hready : Ready W C es d vc b h (max k (reads b)) r₂ :=
        ⟨hgo₂.inv, ⟨con, oc, hcon₂, hdev⟩, hr.screen,
          ⟨addr, o', hkeeps₂ _ _ _ hh', hpath ▸ hb, by rw [hgiven', hgiven]; omega⟩⟩
      refine ⟨hready, [[]], hgo.trans hgo₂, ?_⟩
      rw [show reads b - k = 0 by omega]
      rfl

/-- What is behind the end of the file, up to the end of the last read. -/
def spill (dev : BlockDevice) (b : ℕ × ℕ) : List UInt8 :=
  ((List.range (63 * reads b - b.2)).map fun i => data dev (b.1 + 1) (b.2 + i)).takeWhile (· ≠ 0)

theorem takeWhile_append_of_all {α : Type} {p : α → Bool} {l l' : List α} (h : ∀ a ∈ l, p a) :
    (l ++ l').takeWhile p = l ++ l'.takeWhile p := by
  rw [List.takeWhile_append, if_pos]
  exact congrArg List.length (List.takeWhile_eq_self_iff.mpr h)

theorem range_mul_flatMap {α : Type} (g : ℕ → α) (n m : ℕ) :
    (List.range m).flatMap (fun k => (List.range n).map fun i => g (n * k + i)) = (List.range (n * m)).map g := by
  induction m with
  | zero => simp
  | succ m ih =>
    rw [List.range_succ, List.flatMap_append, ih, List.flatMap_singleton, Nat.mul_succ, List.range_add,
      List.map_append, List.map_map]
    rfl

/-- A text without a zero is printed whole, with what comes behind it. -/
theorem shown_eq (h : ∀ c ∈ text dev b, c ≠ 0) : shown dev b = text dev b ++ spill dev b := by
  obtain hzero | hpos := Nat.eq_zero_or_pos b.2
  · have hreads : reads b = 0 := by
      unfold reads
      omega
    unfold shown text spill
    rw [hreads, hzero]
    rfl
  obtain ⟨m, hm⟩ : ∃ m, reads b = m + 1 := ⟨reads b - 1, by unfold reads; omega⟩
  have hsize : 63 * m ≤ b.2 ∧ b.2 ≤ 63 * (m + 1) := by
    unfold reads at hm
    omega
  have hno : ∀ i < b.2, data dev (b.1 + 1) i ≠ 0 := fun i hi =>
    h _ (List.mem_map_of_mem (List.mem_range.mpr hi))
  have hwhole : ∀ k < m, piece dev b k = (List.range 63).map fun i => data dev (b.1 + 1) (63 * k + i) := by
    intro k hk
    apply List.takeWhile_eq_self_iff.mpr
    intro c hc
    obtain ⟨i, hi, rfl⟩ := List.mem_map.mp hc
    exact decide_eq_true (hno _ (by have := List.mem_range.mp hi; omega))
  have hsplit : (List.range 63).map (fun i => data dev (b.1 + 1) (63 * m + i)) =
      (List.range (b.2 - 63 * m)).map (fun i => data dev (b.1 + 1) (63 * m + i)) ++
        (List.range (63 * reads b - b.2)).map fun i => data dev (b.1 + 1) (b.2 + i) := by
    have hsum : List.range 63 = List.range ((b.2 - 63 * m) + (63 * reads b - b.2)) := by
      congr 1
      omega
    rw [hsum, List.range_add, List.map_append, List.map_map]
    congr 1
    apply List.map_congr_left
    intro i _
    show data dev (b.1 + 1) (63 * m + (b.2 - 63 * m + i)) = _
    congr 1
    omega
  have hlast : piece dev b m =
      (List.range (b.2 - 63 * m)).map (fun i => data dev (b.1 + 1) (63 * m + i)) ++ spill dev b := by
    unfold piece
    rw [hsplit]
    apply takeWhile_append_of_all
    intro c hc
    obtain ⟨i, hi, rfl⟩ := List.mem_map.mp hc
    exact decide_eq_true (hno _ (by have := List.mem_range.mp hi; omega))
  have hbefore : (List.range m).flatMap (piece dev b) = (List.range (63 * m)).map (data dev (b.1 + 1)) := by
    rw [← range_mul_flatMap]
    apply List.flatMap_congr
    exact fun k hk => hwhole k (List.mem_range.mp hk)
  have htext : text dev b = (List.range (63 * m)).map (data dev (b.1 + 1)) ++
      (List.range (b.2 - 63 * m)).map fun i => data dev (b.1 + 1) (63 * m + i) := by
    unfold text
    rw [show b.2 = 63 * m + (b.2 - 63 * m) by omega, List.range_add, List.map_append, List.map_map]
    rw [Nat.add_sub_cancel_left]
    rfl
  unfold shown
  rw [hm, List.range_succ, List.flatMap_append, List.flatMap_singleton, hlast, hbefore, htext,
    List.append_assoc]

/-- The text alone is printed if the last read ends with it, or there is a zero behind it. -/
theorem shown_text_iff (h : ∀ c ∈ text dev b, c ≠ 0) :
    shown dev b = text dev b ↔ 63 ∣ b.2 ∨ data dev (b.1 + 1) b.2 = 0 := by
  rw [shown_eq h, List.append_right_eq_self]
  unfold spill
  by_cases hdvd : 63 ∣ b.2
  · have hnone : 63 * reads b - b.2 = 0 := by
      unfold reads
      omega
    rw [hnone]
    simp [hdvd]
  · obtain ⟨j, hj⟩ : ∃ j, 63 * reads b - b.2 = j + 1 := ⟨63 * reads b - b.2 - 1, by unfold reads; omega⟩
    rw [hj, List.range_succ_eq_map, List.map_cons, Nat.add_zero, List.takeWhile_cons]
    simp [hdvd]

/-- Whatever the other processes do in the meantime, `cat` prints what is in the file. -/
theorem prints (hE : W.setting.Sound C es) (hW : W.Apart C)
    (hr : (system W.setting C).Reachable r.kernel) (hpath : PathNamed C path)
    (hb : file_at es path = some b) (hnamed : PathNamed C console_path)
    (hconsole : opened_path W.setting.around W.setting.disk (files 0 es) W.setting.devices console_path =
      some (.device d)) (hd : W.setting.device_file d = .terminal (some vc)) (hfuel : reads b < fuel) :
    Ends (_start W (main W fuel) (some path)) r (fun rc r' => rc = 0 ∧
      ∃ pieces : List (List UInt8), wrote W.setting (W.setting.process W.current) r'.kernel =
          wrote W.setting (W.setting.process W.current) r.kernel ++
            pieces.map (fun x => ⟨W.current, d, x⟩) ∧
        pieces.flatten = shown W.setting.disk b ∧
        ((∀ c ∈ text W.setting.disk b, c ≠ 0) → (pieces.flatten = text W.setting.disk b ↔
          63 ∣ b.2 ∨ data W.setting.disk (b.1 + 1) b.2 = 0))) Excused := by
  have hi := Inv.reachable hE hr
  unfold _start
  rw [ends_bind]
  apply ends_mono (open_spec hE hW hi hnamed hconsole)
  rintro console r₁ ⟨hgo₁, hok, ⟨con, hcon⟩, -⟩
  rw [ends_bind, ends_modify, if_neg (by rw [hok]; decide), ends_bind]
  obtain ⟨c, cs, rfl⟩ : ∃ c cs, path = c :: cs := by
    cases path with
    | nil => cases hb
    | cons c cs => exact ⟨c, cs, rfl⟩
  unfold main
  dsimp only
  obtain ⟨hopened, -⟩ := opened_path_of W.setting.around W.setting.disk
    W.setting.devices hb
  rw [ends_bind]
  apply ends_mono (open_spec hE hW (r := { r₁ with __console_handle := console }) hgo₁.inv hpath hopened)
  rintro file r₂ ⟨hgo₂, hok₂, ⟨addr, hfile⟩, hkeeps₂⟩
  rw [if_neg (by rw [hok₂]; decide), ends_bind]
  have hconsole₂ : r₂.__console_handle = console := hgo₂.console
  have hcon₂ := hkeeps₂ _ _ _ hcon
  rw [← hconsole₂] at hcon₂
  have hready : Ready W C es d vc b file 0 r₂ :=
    ⟨hgo₂.inv, ⟨con, _, hcon₂, rfl⟩, hd, ⟨addr, _, hfile, hb, rfl⟩⟩
  apply ends_mono (print_loop_spec hE hW hready (by omega) W.garbage)
  rintro _ r₃ ⟨hready₃, pieces, hgo₃, hpieces⟩
  obtain ⟨addr, o, hfile₃, -⟩ := hready₃.file
  rw [ends_bind]
  apply ends_mono (close_spec hE hW hgo₃.inv hfile₃)
  rintro _ r₄ ⟨hgo₄, hkeeps₄⟩
  rw [ends_pure, ends_bind]
  obtain ⟨con, oc, hcon₃, -⟩ := hready₃.console
  have hconsole₃ : r₃.__console_handle = console := hgo₃.console.trans hconsole₂
  rw [hconsole₃] at hcon₃
  apply ends_mono (close_spec hE hW hgo₄.inv (hkeeps₄ _ _ _ hcon₃))
  rintro _ r₅ ⟨hgo₅, -⟩
  refine ⟨rfl, pieces, ?_, ?_, ?_⟩
  · rw [hgo₅.wrote, hgo₄.wrote, hgo₃.wrote, hgo₂.wrote]
    show wrote W.setting _ r₁.kernel ++ [] ++ _ ++ [] ++ [] = _
    rw [hgo₁.wrote]
    simp only [List.append_nil]
  · rw [hpieces, Nat.sub_zero, ← List.range_eq_range']
    rfl
  · intro htext
    rw [hpieces, Nat.sub_zero, ← List.range_eq_range']
    exact shown_text_iff htext

/-- Thread 0 prints the file, which thread 1 opens and reads in the meantime. -/
def hi_world : World ℕ ℕ where
  setting := hi_setting
  current := 0
  between
    | 2 => [.call 1 (.sys_open 4096 hi_path), .call 1 (.sys_read 2 ⟨fun _ => 0, fun _ => 0⟩ 1 fun _ => 0)]
    | _ => []
  addr i := 64 * i
  clock _ := 0
  garbage _ := 9

theorem hi_world_apart : hi_world.Apart hi_names := by
  intro i e he
  obtain rfl | hne := Decidable.em (i = 2)
  · have hcases : e = .call 1 (.sys_open 4096 hi_path) ∨
        e = .call 1 (.sys_read 2 ⟨fun _ => 0, fun _ => 0⟩ 1 fun _ => 0) := by
      simpa [hi_world] using he
    rcases hcases with rfl | rfl
    · refine ⟨?_, by decide⟩
      show 47 = 47 → Vfs.PathIn hi_names [117, 115, 114, 47, 97]
      unfold Vfs.PathIn
      decide +kernel
    · exact ⟨show (1 : UInt64).toNat < 2 ^ 31 by decide, by decide⟩
  · have hnone : hi_world.between i = [] := by
      unfold hi_world
      dsimp only
      split
      · exact absurd rfl hne
      · rfl
    rw [hnone] at he
    cases he

theorem prints_hi : ∃ s, hi_start = some s ∧ ∃ r',
    _start hi_world (main hi_world 2) (some hi_path) ⟨s, 0, 0⟩ = .ok (0, r') ∧
    ∃ pieces : List (List UInt8), wrote hi_setting 0 r'.kernel = pieces.map (fun x => ⟨0, 7, x⟩) ∧
      pieces.flatten = [104, 105] := by
  obtain ⟨s, hs, hstart, hwritten⟩ := exists_hi_start
  have hrun : (hi_start.bind fun s => (_start hi_world (main hi_world 2) (some hi_path)
      ⟨s, 0, 0⟩).toOption).isSome = true := by decide +kernel
  rw [hs, Option.bind_some] at hrun
  obtain ⟨⟨rc, r'⟩, hrun⟩ := Option.isSome_iff_exists.mp hrun
  have hrun := eq_ok_of_toOption hrun
  have hnamed : PathNamed hi_names console_path := by
    show 47 = 47 → Vfs.PathIn hi_names _
    unfold Vfs.PathIn
    decide +kernel
  have hpath : PathNamed hi_names hi_path := by
    show 47 = 47 → Vfs.PathIn hi_names _
    unfold Vfs.PathIn
    decide +kernel
  have hprints : Ends (_start hi_world (main hi_world 2) (some hi_path)) ⟨s, 0, 0⟩ _ _ :=
    prints (b := (0, 2)) (d := 7) hi_sound hi_world_apart (.of_start hstart) hpath (by decide +kernel)
      hnamed (by decide +kernel) rfl (by decide)
  obtain ⟨rfl, pieces, hwrote, hpieces, -⟩ := ends_ok hprints hrun
  have hnothing : wrote hi_setting 0 s = [] := by
    unfold wrote
    rw [hwritten]
    rfl
  refine ⟨s, hs, r', hrun, pieces, ?_, ?_⟩
  · have hwrote : wrote hi_setting 0 r'.kernel = wrote hi_setting 0 s ++ pieces.map fun x => ⟨0, 7, x⟩ :=
      hwrote
    rwa [hnothing, List.nil_append] at hwrote
  · rw [hpieces]
    decide +kernel

end Cat

end Infos.User
