import Infos.Fs.Files

/-!
# The position in a file of an archive

`_cur_pos` counts with 32 bits. A read takes no notice of where the file ends, and a seek takes
the size less one for the end of a file that may be empty.
-/

open Infos.Bytes

namespace Infos.Fs.TarFSFile

def read (dev : BlockDevice) (f : TarFSFile) (turns : ℕ) (m : Buffers) (size : UInt64) :
    Option (Int32 × Memory × TarFSFile) :=
  (f.pread dev turns m size f._cur_pos.toUInt64).map fun r =>
    (r.1, r.2, { f with _cur_pos := f._cur_pos + r.1.toUInt32 })

inductive SeekType where
  | SeekAbsolute
  | SeekRelative
  deriving DecidableEq, Repr

def seek (f : TarFSFile) (offset : UInt64) (type : SeekType) : TarFSFile :=
  let f := match type with
    | .SeekAbsolute => { f with _cur_pos := offset.toUInt32 }
    | .SeekRelative => { f with _cur_pos := f._cur_pos + offset.toUInt32 }
  if f.size ≤ f._cur_pos then { f with _cur_pos := f.size - 1 } else f

/-- The turns are those that the loop of `pread` is given. -/
inductive Call where
  | read (turns : ℕ) (m : Buffers) (size : UInt64)
  | seek (offset : UInt64) (type : SeekType)

/-- `none` if a read has not come back. -/
def step (dev : BlockDevice) (f : TarFSFile) : Call → Option TarFSFile
  | .read turns m size => (f.read dev turns m size).map fun r => r.2.2
  | .seek offset type => some (f.seek offset type)

/-- What is wanted of a call that leaves `f`. -/
def Placed (c : Call) (f : TarFSFile) : Prop :=
  f._cur_pos.toNat ≤ f.size.toNat ∧ ∀ offset, c = .seek offset .SeekAbsolute →
    0 < f.size.toNat → f._cur_pos.toNat = min offset.toNat (f.size.toNat - 1)

/-- A read begins at the end, or ends in the file, or before that comes to a block that cannot be
read. A file that a seek is made in is not empty, and where the low half of an absolute offset is
not the offset, both lie behind the file. -/
def Kept (dev : BlockDevice) (f : TarFSFile) : Call → Prop
  | .read _ _ size => f.size.toNat ≤ f._cur_pos.toNat ∨
      f._cur_pos.toNat + size.toNat ≤ f.size.toNat ∨
      ∃ k, f._cur_pos.toNat / 512 ≤ k ∧ 512 * k ≤ f.size.toNat ∧
        dev.read_block ((f._file_start_block.toNat + k) % 2 ^ 32) = none
  | .seek offset .SeekAbsolute => 0 < f.size.toNat ∧
      (offset.toNat < 2 ^ 32 ∨ f.size.toNat - 1 ≤ offset.toNat % 2 ^ 32)
  | .seek _ .SeekRelative => 0 < f.size.toNat

/-- The position does not wrap around. -/
def InRange (f : TarFSFile) : Call → Prop
  | .read _ _ size => f._cur_pos.toNat + size.toNat < 2 ^ 32
  | .seek _ _ => True

/-- The calls on a file, of which each meets the condition. -/
def calls (dev : BlockDevice) : System TarFSFile Call Unit where
  start f := ∃ hdr h, f = TarFSFile.new dev hdr h
  allowed := Kept dev
  step f c := match step dev f c with
    | none => .error ()
    | some f' => .ok f'

variable {dev : BlockDevice} {f f' : TarFSFile} {into : Block → Buffers → Buffers}
  {start readNum r : UInt32} {size off offset : UInt64} {m m' : Buffers} {turns : ℕ} {c : Call}

/-! ## What a read reads -/

/-- A read that begins at `off` comes to all blocks from there on that hold the `i` bytes. -/
structure Took (dev : BlockDevice) (start size readNum off i : ℕ) (r : UInt32) : Prop where
  count : r.toNat = (readNum + i) % 2 ^ 32
  stops : size ≤ r.toNat ∨ dev.read_block ((start + (off + i) / 512) % 2 ^ 32) = none
  reads : 0 < i → ∀ k, off / 512 ≤ k → 512 * k < off + i →
    dev.read_block ((start + k) % 2 ^ 32) ≠ none
  bounded : size < 2 ^ 32 → readNum + i ≤ size

theorem read_loop_took (h : readNum.toNat ≤ size.toNat ∨ 2 ^ 32 ≤ size.toNat)
    (hr : read_loop into dev start size turns readNum off m = some (r, m')) :
    ∃ i, Took dev start.toNat size.toNat readNum.toNat off.toNat i r := by
  induction turns generalizing readNum off m with
  | zero => cases hr
  | succ turns ih =>
    have hlt32 := readNum.toNat_lt
    by_cases hlt : readNum.toNat < size.toNat
    · cases hblock : dev.read_block ((start.toNat + off.toNat / 512) % 2 ^ 32) with
      | none =>
        rw [read_loop_stuck into m turns hblock hlt] at hr
        cases hr
        exact ⟨0, by rw [Nat.add_zero, Nat.mod_eq_of_lt hlt32], .inr hblock, by simp,
          fun _ => hlt.le⟩
      | some block =>
        obtain ⟨r', o', hr', ho', hloop⟩ := read_loop_block into m hblock hlt
        rw [hloop] at hr
        have hc := chunk_le (o := off.toNat) hlt
        generalize chunk size.toNat readNum.toNat off.toNat = n at hc hr' ho' hr
        obtain ⟨i, hcount, hstops, hreads, hbounded⟩ := ih (by omega) hr
        -- The offset counts with 64 bits, of which the blocks show 32.
        have hwrap : ∀ j, (start.toNat + (o'.toNat + j) / 512) % 2 ^ 32 =
            (start.toNat + (off.toNat + (n + j)) / 512) % 2 ^ 32 := by
          intro j
          omega
        refine ⟨n + i, by omega, ?_, fun _ k hk hend => ?_, fun hsize => by omega⟩
        · rwa [hwrap i] at hstops
        · by_cases hfirst : k = off.toNat / 512
          · rw [hfirst, hblock]
            simp
          · have hoff := off.toNat_lt
            have hagain : (start.toNat + (k - 2 ^ 55)) % 2 ^ 32 = (start.toNat + k) % 2 ^ 32 ∨
                off.toNat + n < 2 ^ 64 := by omega
            obtain hagain | hsmall := hagain
            · by_cases hsmall : off.toNat + n < 2 ^ 64
              · exact hreads (by omega) k (by omega) (by omega)
              · rw [← hagain]
                exact hreads (by omega) (k - 2 ^ 55) (by omega) (by omega)
            · exact hreads (by omega) k (by omega) (by omega)
    · rw [read_loop_done (Nat.not_lt.mp hlt)] at hr
      cases hr
      exact ⟨0, by rw [Nat.add_zero, Nat.mod_eq_of_lt hlt32], .inl (Nat.not_lt.mp hlt), by simp,
        fun _ => by omega⟩

/-! ## What a call does -/

theorem size_with (f : TarFSFile) (p : UInt32) : { f with _cur_pos := p }.size = f.size := rfl

theorem read_eq_some {rc : Int32} {after : Memory}
    (hr : f.read dev turns m size = some (rc, after, f')) :
    f' = { f with _cur_pos := f._cur_pos + rc.toUInt32 } ∧
      f.pread dev turns m size f._cur_pos.toUInt64 = some (rc, after) := by
  unfold read at hr
  obtain ⟨⟨rc', after'⟩, hp, heq⟩ := Option.map_eq_some_iff.mp hr
  cases heq
  exact ⟨rfl, hp⟩

/-- A read that begins in the file goes as far as the loop does. -/
theorem step_read (hr : step dev f (.read turns m size) = some f')
    (hlt : f._cur_pos.toNat < f.size.toNat) : ∃ i r, f' = { f with _cur_pos := f._cur_pos + r } ∧
      Took dev f._file_start_block.toNat size.toNat 0 f._cur_pos.toNat i r := by
  obtain ⟨⟨rc, after, f₁⟩, hread, rfl⟩ := Option.map_eq_some_iff.mp hr
  obtain ⟨hf, hp⟩ := read_eq_some hread
  rw [pread_inside (by rwa [UInt32.toNat_toUInt64])] at hp
  obtain ⟨⟨r, m'⟩, hloop, heq⟩ := Option.map_eq_some_iff.mp hp
  cases heq
  obtain ⟨i, htook⟩ := read_loop_took (.inl (Nat.zero_le _)) hloop
  rw [UInt32.toNat_toUInt64] at htook
  exact ⟨i, r, hf, htook⟩

theorem step_read_behind (hr : step dev f (.read turns m size) = some f')
    (hle : f.size.toNat ≤ f._cur_pos.toNat) : f' = f := by
  obtain ⟨⟨rc, after, f₁⟩, hread, rfl⟩ := Option.map_eq_some_iff.mp hr
  obtain ⟨rfl, hp⟩ := read_eq_some hread
  rw [pread_behind (by rwa [UInt32.toNat_toUInt64])] at hp
  cases hp
  show { f with _cur_pos := f._cur_pos + 0 } = f
  rw [UInt32.add_zero]

/-- Where the position is put that `p` asks for. -/
theorem toNat_clamp (S p : UInt32) : (if S ≤ p then S - 1 else p).toNat =
    if S.toNat = 0 then 2 ^ 32 - 1 else min p.toNat (S.toNat - 1) := by
  have hone : (1 : UInt32).toNat = 1 := rfl
  have hS := S.toNat_lt
  have hp := p.toNat_lt
  split
  next h =>
    rw [UInt32.le_iff_toNat_le] at h
    rw [UInt32.toNat_sub, hone]
    split <;> omega
  next h =>
    rw [UInt32.le_iff_toNat_le] at h
    split <;> omega

theorem seek_spec (f : TarFSFile) (offset : UInt64) (type : SeekType) :
    (f.seek offset type).size = f.size ∧ ∃ p : UInt32,
      (f.seek offset type)._cur_pos = (if f.size ≤ p then f.size - 1 else p) ∧
      (type = .SeekAbsolute → p = offset.toUInt32) := by
  have hclamp : ∀ p : UInt32, ∀ g : TarFSFile,
      g = (if f.size ≤ p then { f with _cur_pos := f.size - 1 } else { f with _cur_pos := p }) →
      g.size = f.size ∧ g._cur_pos = if f.size ≤ p then f.size - 1 else p := by
    rintro p g rfl
    split <;> exact ⟨rfl, rfl⟩
  cases type with
  | SeekAbsolute =>
    obtain ⟨hsize, hpos⟩ := hclamp offset.toUInt32 (f.seek offset .SeekAbsolute) rfl
    exact ⟨hsize, _, hpos, fun _ => rfl⟩
  | SeekRelative =>
    obtain ⟨hsize, hpos⟩ := hclamp (f._cur_pos + offset.toUInt32) (f.seek offset .SeekRelative) rfl
    exact ⟨hsize, _, hpos, by simp⟩

theorem seek_placed (dev : BlockDevice) (f : TarFSFile) (offset : UInt64) (type : SeekType) :
    Placed (.seek offset type) (f.seek offset type) ↔ Kept dev f (.seek offset type) := by
  obtain ⟨hsize, p, hpos, habs⟩ := seek_spec f offset type
  have hclamp := toNat_clamp f.size p
  rw [← hpos] at hclamp
  have hlow : offset.toUInt32.toNat = offset.toNat % 2 ^ 32 := UInt64.toNat_toUInt32 ..
  have hS := f.size.toNat_lt
  unfold Placed Kept
  rw [hsize, hclamp]
  cases type with
  | SeekAbsolute =>
    rw [habs rfl, hlow]
    simp only [Call.seek.injEq, and_true, forall_eq']
    constructor
    · rintro ⟨hle, hmin⟩
      split at hle
      · omega
      · rw [if_neg ‹_›] at hmin
        have := hmin (by omega)
        omega
    · rintro ⟨hpos, hlow⟩
      rw [if_neg hpos.ne']
      omega
  | SeekRelative =>
    simp only [Call.seek.injEq, reduceCtorEq, and_false, IsEmpty.forall_iff, implies_true, and_true]
    split <;> omega

theorem read_kept (hk : Kept dev f (.read turns m size))
    (hr : step dev f (.read turns m size) = some f') (hpos : f._cur_pos.toNat ≤ f.size.toNat) :
    f'.size = f.size ∧ f'._cur_pos.toNat ≤ f.size.toNat := by
  by_cases hlt : f._cur_pos.toNat < f.size.toNat
  · obtain ⟨i, r, rfl, htook⟩ := step_read hr hlt
    have hS := f.size.toNat_lt
    have hle : f._cur_pos.toNat + i ≤ f.size.toNat := by
      obtain hbehind | hfits | ⟨k, hk, hend, hnone⟩ := hk
      · omega
      · have := htook.bounded (by omega)
        omega
      · by_contra hgt
        exact htook.reads (by omega) k hk (by omega) hnone
    refine ⟨rfl, ?_⟩
    dsimp only
    rw [UInt32.toNat_add, htook.count]
    omega
  · obtain rfl := step_read_behind hr (Nat.not_lt.mp hlt)
    exact ⟨rfl, hpos⟩

theorem read_past (hin : InRange f (.read turns m size))
    (hr : step dev f (.read turns m size) = some f') (hpos : f'._cur_pos.toNat ≤ f'.size.toNat) :
    Kept dev f (.read turns m size) := by
  by_cases hlt : f._cur_pos.toNat < f.size.toNat
  · obtain ⟨i, r, rfl, htook⟩ := step_read hr hlt
    have hin : f._cur_pos.toNat + size.toNat < 2 ^ 32 := hin
    have hcount := htook.count
    have hbound := htook.bounded (by omega)
    rw [size_with] at hpos
    dsimp only at hpos
    rw [UInt32.toNat_add] at hpos
    obtain hall | hnone := htook.stops
    · exact .inr (.inl (by omega))
    · exact .inr (.inr ⟨_, by omega, by omega, hnone⟩)
  · exact .inl (Nat.not_lt.mp hlt)

/-! ## Main results -/

theorem calls_step {f' : TarFSFile} (hs : (calls dev).step f c = .ok f') : step dev f c = some f' := by
  unfold calls at hs
  dsimp only at hs
  split at hs
  · cases hs
  · cases hs
    assumption

theorem step_placed (hpos : f._cur_pos.toNat ≤ f.size.toNat) (hk : Kept dev f c)
    (hs : step dev f c = some f') : Placed c f' := by
  cases c with
  | read turns m size =>
    obtain ⟨hsize, hle⟩ := read_kept hk hs hpos
    exact ⟨hsize ▸ hle, fun _ h => by cases h⟩
  | seek offset type =>
    cases hs
    exact (seek_placed dev f offset type).mpr hk

theorem step_kept (hin : InRange f c) (hs : step dev f c = some f') (hp : Placed c f') :
    Kept dev f c := by
  cases c with
  | read turns m size => exact read_past hin hs hp.1
  | seek offset type =>
    cases hs
    exact (seek_placed dev f offset type).mp hp

/-- After calls that all meet the condition the position is in the file, and the next call that
comes back does what is wanted if it meets the condition, and, where nothing wraps around, only
then. -/
theorem positions_inside (h : (calls dev).Reachable f) :
    f._cur_pos.toNat ≤ f.size.toNat ∧ ∀ c f', step dev f c = some f' →
      (Kept dev f c → Placed c f') ∧ (InRange f c → Placed c f' → Kept dev f c) := by
  have hpos : f._cur_pos.toNat ≤ f.size.toNat := by
    refine h.preserves (I := fun f => f._cur_pos.toNat ≤ f.size.toNat) ?_ ?_
    · rintro f ⟨hdr, h, rfl⟩
      exact Nat.zero_le _
    · intro f c f' hpos hk hs
      exact (step_placed hpos hk (calls_step hs)).1
  exact ⟨hpos, fun c f' hs => ⟨fun hk => step_placed hpos hk hs, fun hin => step_kept hin hs⟩⟩

theorem positions_inside_start :
    (TarFSFile.new one_byte (fun _ => 0) 0)._cur_pos.toNat ≤
      (TarFSFile.new one_byte (fun _ => 0) 0).size.toNat ∧
    ∀ c f', step one_byte (TarFSFile.new one_byte (fun _ => 0) 0) c = some f' →
      (Kept one_byte (TarFSFile.new one_byte (fun _ => 0) 0) c → Placed c f') ∧
      (InRange (TarFSFile.new one_byte (fun _ => 0) 0) c → Placed c f' →
        Kept one_byte (TarFSFile.new one_byte (fun _ => 0) 0) c) :=
  positions_inside (.of_start ⟨fun _ => 0, 0, rfl⟩)

/-- Each block is a header with the name `a` and the size `00000000000`. -/
def no_bytes : BlockDevice where
  block_count := 3
  count_lt := by decide
  read_block _ := some fun i =>
    if i.val = 0 then 97 else if 124 ≤ i.val ∧ i.val < 135 then 48 else 0

/-- Two bytes are read of a file of one, and a seek is made in a file that is empty. -/
theorem positions_outside :
    (∃ f, step one_byte (TarFSFile.new one_byte (fun _ => 0) 0)
      (.read 2 ⟨fun _ => 7, fun _ => 9⟩ 2) = some f ∧ f.size.toNat < f._cur_pos.toNat) ∧
    ∃ f, step no_bytes (TarFSFile.new no_bytes (fun _ => 0) 0) (.seek 0 .SeekAbsolute) = some f ∧
      f.size.toNat < f._cur_pos.toNat := by
  have hread : ((step one_byte (TarFSFile.new one_byte (fun _ => 0) 0)
      (.read 2 ⟨fun _ => 7, fun _ => 9⟩ 2)).any fun f => decide (f.size.toNat < f._cur_pos.toNat)) =
      true := by decide +kernel
  have hseek : ((step no_bytes (TarFSFile.new no_bytes (fun _ => 0) 0)
      (.seek 0 .SeekAbsolute)).any fun f => decide (f.size.toNat < f._cur_pos.toNat)) = true := by
    decide +kernel
  simpa only [Option.any_eq_true, decide_eq_true_eq] using And.intro hread hseek

end Infos.Fs.TarFSFile
