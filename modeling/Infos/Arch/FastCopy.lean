import Infos.Arch.FastString
import Infos.Arch.EarlyScreen

/-!
# The routine of `fast-string.S` that copies memory

`memcpy` copies eight bytes at a time, and then the bytes that are left over, always forwards.
-/

namespace Infos.Arch.FastString

namespace Machine

/-- A load of `width` bytes at `rsi`, and a store of them at `rdi`. -/
def movs (width : UInt64) (s : Machine) : Machine :=
  { s with
    memory := fun a =>
      if a - s.rdi < width then s.memory (s.rsi + (a - s.rdi)) else s.memory a
    rsi := if s.direction then s.rsi - width else s.rsi + width
    rdi := if s.direction then s.rdi - width else s.rdi + width }

def movsb : Machine → Machine := movs 1

def movsq : Machine → Machine := movs 8

def memcpy (s : Machine) : Machine :=
  let s := { s with rax := s.rdi }
  let s := s.cld
  let s := { s with rcx := s.rdx }
  let s := { s with rcx := s.rcx >>> 3 }
  let s := s.rep movsq
  let s := { s with rcx := s.rdx }
  let s := { s with rcx := s.rcx &&& 7 }
  s.rep movsb

end Machine

open Machine Addresses

/-- The bytes from `dest` on are those that were there from `src` on, and all others are as before. -/
def Copied (before after : UInt64 → UInt8) (dest src : UInt64) (n : ℕ) : Prop :=
  ∀ a, after a = if (a - dest).toNat < n then before (src + (a - dest)) else before a

/-- No byte of the source is overwritten before it is copied. -/
def Forwards (dest src : UInt64) (n : ℕ) : Prop := dest = src ∨ n ≤ (dest - src).toNat

variable {s t u : Machine} {dest src n : UInt64} {before between after : UInt64 → UInt8} {j k : ℕ}

/-! ## What a repeated move copies -/

theorem Copied.append (h : Copied before between dest src j)
    (h' : Copied between after (dest + UInt64.ofNat j) (src + UInt64.ofNat j) k)
    (hforwards : Forwards dest src (j + k)) (hlt : j + k < 2 ^ 64) :
    Copied before after dest src (j + k) := by
  intro a
  have hlow := (a - dest).toNat_lt
  have hfrom : src + UInt64.ofNat j + (a - (dest + UInt64.ofNat j)) = src + (a - dest) := by grind
  rw [h' a, toNat_sub_add_ofNat a dest (by omega), hfrom]
  split
  next hin =>
    have hback : src + (a - dest) - dest = a - dest - (dest - src) := by grind
    have hfirst : ¬(src + (a - dest) - dest).toNat < j := by
      rw [hback, UInt64.toNat_sub]
      rcases hforwards with rfl | hfar
      · rw [UInt64.sub_self, UInt64.toNat_zero]
        omega
      · omega
    rw [h, if_neg hfirst, if_pos (by omega)]
  next hout =>
    rw [h a]
    split
    next hin => rw [if_pos (by omega)]
    next hfar => rw [if_neg (by omega)]

/-- How a run of moves leaves the machine. -/
structure Moved (s t : Machine) (n : ℕ) : Prop where
  copied : Copied s.memory t.memory s.rdi s.rsi n
  rdi : t.rdi = s.rdi + UInt64.ofNat n
  rsi : t.rsi = s.rsi + UInt64.ofNat n
  rdx : t.rdx = s.rdx
  rax : t.rax = s.rax
  direction : t.direction = s.direction

theorem movs_moved (width : UInt64) (hdir : s.direction = false) :
    Moved s (movs width s) width.toNat := by
  refine ⟨fun a => ?_, ?_, ?_, rfl, rfl, rfl⟩
  · unfold movs
    simp only [UInt64.lt_iff_toNat_lt]
  all_goals
    unfold movs
    dsimp only
    rw [hdir, if_neg (by decide), UInt64.ofNat_toNat]

theorem Moved.append {c : UInt64} (h : Moved s t j) (h' : Moved { t with rcx := c } u k)
    (hforwards : Forwards s.rdi s.rsi (j + k)) (hlt : j + k < 2 ^ 64) : Moved s u (j + k) := by
  have hcopied := h'.copied
  have hrdi := h'.rdi
  have hrsi := h'.rsi
  dsimp only at hcopied hrdi hrsi
  rw [h.rdi, h.rsi] at hcopied
  rw [h.rdi] at hrdi
  rw [h.rsi] at hrsi
  refine ⟨h.copied.append hcopied hforwards hlt, ?_, ?_, h'.rdx.trans h.rdx, h'.rax.trans h.rax,
    h'.direction.trans h.direction⟩
  · rw [hrdi, UInt64.ofNat_add, UInt64.add_assoc]
  · rw [hrsi, UInt64.ofNat_add, UInt64.add_assoc]

theorem Forwards.rest (h : Forwards dest src (j + k)) :
    Forwards (dest + UInt64.ofNat j) (src + UInt64.ofNat j) k := by
  rcases h with rfl | h
  · exact .inl rfl
  · refine .inr ?_
    rw [show dest + UInt64.ofNat j - (src + UInt64.ofNat j) = dest - src by grind]
    omega

theorem Forwards.first (h : Forwards dest src (j + k)) : Forwards dest src j :=
  h.imp_right fun hfar => by omega

theorem rep_loop_moved (width : UInt64) (n : ℕ) (hdir : s.direction = false)
    (hforwards : Forwards s.rdi s.rsi (n * width.toNat)) (hlt : n * width.toNat < 2 ^ 64) :
    Moved s (rep_loop (movs width) n s) (n * width.toNat) := by
  induction n generalizing s with
  | zero =>
    rw [Nat.zero_mul]
    exact ⟨fun a => by rw [if_neg (Nat.not_lt_zero _)]; rfl, (UInt64.add_zero _).symm,
      (UInt64.add_zero _).symm, rfl, rfl, rfl⟩
  | succ n ih =>
    have hsum : (n + 1) * width.toNat = width.toNat + n * width.toNat := by
      rw [Nat.succ_mul, Nat.add_comm]
    rw [hsum] at hlt hforwards ⊢
    have hone := movs_moved width hdir
    have hrest : Forwards (movs width s).rdi (movs width s).rsi (n * width.toNat) := by
      rw [hone.rdi, hone.rsi]
      exact hforwards.rest
    exact hone.append (ih (hone.direction.trans hdir) hrest (by omega)) hforwards hlt

theorem rep_moved (width : UInt64) (hdir : s.direction = false)
    (hforwards : Forwards s.rdi s.rsi (s.rcx.toNat * width.toNat))
    (hlt : s.rcx.toNat * width.toNat < 2 ^ 64) :
    Moved s (s.rep (movs width)) (s.rcx.toNat * width.toNat) :=
  rep_loop_moved width _ hdir hforwards hlt

/-! ## The routine -/

theorem memcpy_moved (s : Machine) (hforwards : Forwards s.rdi s.rsi s.rdx.toNat) :
    Copied s.memory s.memcpy.memory s.rdi s.rsi s.rdx.toNat ∧ s.memcpy.rax = s.rdi := by
  have hlt := s.rdx.toNat_lt
  have hone : (1 : UInt64).toNat = 1 := rfl
  have height : (8 : UInt64).toNat = 8 := rfl
  have hdiv : (s.rdx >>> 3).toNat = s.rdx.toNat / 8 := by
    rw [UInt64.toNat_shiftRight, Nat.shiftRight_eq_div_pow]
    rfl
  have hmod : (s.rdx &&& 7).toNat = s.rdx.toNat % 8 := by
    rw [UInt64.toNat_and]
    exact Nat.and_two_pow_sub_one_eq_mod _ 3
  have hsum : s.rdx.toNat = s.rdx.toNat / 8 * 8 + s.rdx.toNat % 8 := by omega
  rw [hsum] at hforwards
  have hquads := rep_moved (s := { s.cld with rax := s.rdi, rcx := s.rdx >>> 3 }) 8 rfl
    (by dsimp only; rw [hdiv, height]; exact hforwards.first)
    (by dsimp only; rw [hdiv, height]; omega)
  dsimp only at hquads
  rw [hdiv, height] at hquads
  generalize ht : rep (movs 8) { s.cld with rax := s.rdi, rcx := s.rdx >>> 3 } = t at hquads
  have hmemcpy : s.memcpy = rep (movs 1) { t with rcx := t.rdx &&& 7 } := ht ▸ rfl
  have hcount : (t.rdx &&& 7).toNat = s.rdx.toNat % 8 := by
    rw [show t.rdx = s.rdx from hquads.rdx, hmod]
  have hbytes := rep_moved (s := { t with rcx := t.rdx &&& 7 }) 1 hquads.direction
    (by
      dsimp only
      rw [hcount, hone, Nat.mul_one, hquads.rdi, hquads.rsi]
      exact hforwards.rest)
    (by dsimp only; rw [hcount, hone]; omega)
  dsimp only at hbytes
  rw [hcount, hone, Nat.mul_one, ← hmemcpy] at hbytes
  have hall := hquads.append hbytes hforwards (by omega)
  rw [← hsum] at hall
  exact ⟨hall.copied, hall.rax⟩

/-- The memory is moved down, or the two ranges have no byte in common. -/
def DownOrApart (dest src n : UInt64) : Prop :=
  (dest ≤ src ∧ src.toNat + n.toNat ≤ 2 ^ 64) ∨ ∀ i < n, ∀ j < n, dest + i ≠ src + j

theorem DownOrApart.forwards (h : DownOrApart dest src n) : Forwards dest src n.toNat := by
  rcases h with ⟨hle, hend⟩ | hapart
  · by_cases heq : dest = src
    · exact .inl heq
    · have hne : dest.toNat ≠ src.toNat := fun h => heq (UInt64.toNat_inj.mp h)
      rw [UInt64.le_iff_toNat_le] at hle
      refine .inr ?_
      have hdest := dest.toNat_lt
      rw [UInt64.toNat_sub]
      omega
  · refine .inr (Nat.le_of_not_lt fun hin => ?_)
    have hpos : 0 < n.toNat := by omega
    have hover := hapart 0 (UInt64.lt_iff_toNat_lt.mpr hpos) (dest - src)
      (UInt64.lt_iff_toNat_lt.mpr hin)
    exact hover (by grind)

/-- Copying is right wherever the memory goes down, by any distance, and wherever nothing overlaps. -/
theorem memcpy_copies (s : Machine) (dest src n : UInt64) (h : DownOrApart dest src n) :
    let t := Machine.memcpy { s with rdi := dest, rsi := src, rdx := n }
    (∀ i < n, t.memory (dest + i) = s.memory (src + i)) ∧
      (∀ a, (∀ i < n, a ≠ dest + i) → t.memory a = s.memory a) ∧ t.rax = dest := by
  obtain ⟨hcopied, hrax⟩ := memcpy_moved { s with rdi := dest, rsi := src, rdx := n } h.forwards
  refine ⟨fun i hi => ?_, fun a ha => ?_, hrax⟩
  · rw [hcopied (dest + i)]
    dsimp only
    rw [show dest + i - dest = i by grind, if_pos (UInt64.lt_iff_toNat_lt.mp hi)]
  · rw [hcopied a, if_neg]
    intro hin
    exact ha (a - dest) (UInt64.lt_iff_toNat_lt.mpr hin) (by grind)

/-- Eleven bytes, moved down by three. -/
theorem memcpy_copies_overlapping :
    let s : Machine := ⟨0, 0, 11, 0x1003, 0x1000, true, UInt64.toUInt8⟩
    s.memcpy.memory (0x1000 + 10) = 0x0d :=
  ((memcpy_copies ⟨0, 0, 11, 0x1003, 0x1000, true, UInt64.toUInt8⟩ 0x1000 0x1003 11
    (.inl ⟨by decide, by decide⟩)).1 10 (by decide)).trans (by decide)

/-! ## The rows of a screen -/

/-- The cells of a screen, two bytes each, from `base` on. -/
def Cells (memory : UInt64 → UInt8) (base : UInt64) (len : ℕ) (m : ℕ → UInt16) : Prop :=
  ∀ j < len, memory (base + UInt64.ofNat (2 * j)) = (m j).toUInt8 ∧
    memory (base + UInt64.ofNat (2 * j + 1)) = (m j >>> 8).toUInt8

theorem Copied.apply {base : UInt64} {dst start x : ℕ} (hle : dst ≤ start) (hx : x < 2 ^ 64)
    (hend : dst + k ≤ 2 ^ 64)
    (h : Copied before after (base + UInt64.ofNat dst) (base + UInt64.ofNat start) k) :
    after (base + UInt64.ofNat x) =
      if dst ≤ x ∧ x < dst + k then before (base + UInt64.ofNat (x + (start - dst)))
      else before (base + UInt64.ofNat x) := by
  have hsub : base + UInt64.ofNat x - (base + UInt64.ofNat dst) =
      UInt64.ofNat x - UInt64.ofNat dst := by grind
  rw [h, hsub]
  by_cases hin : dst ≤ x ∧ x < dst + k
  · have hdist : UInt64.ofNat x - UInt64.ofNat dst = UInt64.ofNat (x - dst) :=
      (UInt64.ofNat_sub hin.1).symm
    rw [hdist, UInt64.toNat_ofNat', Nat.mod_eq_of_lt (show x - dst < 2 ^ 64 by omega),
      if_pos (by omega), if_pos hin, UInt64.add_assoc, ← UInt64.ofNat_add,
      show start + (x - dst) = x + (start - dst) by omega]
  · rw [UInt64.toNat_sub, UInt64.toNat_ofNat', UInt64.toNat_ofNat', if_neg (by omega), if_neg hin]

/-- On the cells of a screen the routine is the copy of cells that the screens are modelled with. -/
theorem memcpy_cells {base : UInt64} {len dst start count : ℕ} {m : ℕ → UInt16}
    (hcells : Cells s.memory base len m) (hle : dst ≤ start) (hend : start + 4 * count ≤ len)
    (hlen : base.toNat + 2 * len < 2 ^ 64) (hrdi : s.rdi = base + UInt64.ofNat (2 * dst))
    (hrsi : s.rsi = base + UInt64.ofNat (2 * start)) (hrdx : s.rdx = UInt64.ofNat (8 * count)) :
    Cells s.memcpy.memory base len (Arch.memcpy dst start (8 * count) m) := by
  have hsize : s.rdx.toNat = 8 * count := by
    rw [hrdx, UInt64.toNat_ofNat', Nat.mod_eq_of_lt (by omega)]
  have hplace : ∀ i ≤ len, (base + UInt64.ofNat (2 * i)).toNat = base.toNat + 2 * i := by
    intro i hi
    rw [UInt64.toNat_add, UInt64.toNat_ofNat']
    omega
  have hdown : DownOrApart s.rdi s.rsi s.rdx := by
    rw [hrdi, hrsi]
    refine .inl ⟨UInt64.le_iff_toNat_le.mpr ?_, ?_⟩
    · rw [hplace dst (by omega), hplace start (by omega)]
      omega
    · rw [hplace start (by omega), hsize]
      omega
  have hcopied := (memcpy_moved s hdown.forwards).1
  rw [hrdi, hrsi, hsize] at hcopied
  have hbyte : ∀ e < 2, ∀ j < len, s.memcpy.memory (base + UInt64.ofNat (2 * j + e)) =
      s.memory (base + UInt64.ofNat
        (2 * (if dst ≤ j ∧ j < dst + 4 * count then j + (start - dst) else j) + e)) := by
    intro e he j hj
    rw [hcopied.apply (by omega) (by omega) (by omega)]
    split
    next hin =>
      rw [if_pos (by omega)]
      congr 3
      omega
    next hout => rw [if_neg (by omega)]
  intro j hj
  have hcell : Arch.memcpy dst start (8 * count) m j =
      m (if dst ≤ j ∧ j < dst + 4 * count then j + (start - dst) else j) := by
    unfold Arch.memcpy
    rw [Nat.mul_div_cancel_left _ (by decide), movsq_apply count hle]
    split <;> rfl
  have hfrom : (if dst ≤ j ∧ j < dst + 4 * count then j + (start - dst) else j) < len := by
    split <;> omega
  rw [hbyte 1 (by decide) j hj, hcell]
  exact ⟨(hbyte 0 (by decide) j hj).trans (hcells _ hfrom).1, (hcells _ hfrom).2⟩

end Infos.Arch.FastString
