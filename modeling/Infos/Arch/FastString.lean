import Infos.Lib.Addresses

/-!
# The routines of `fast-string.S` that clear memory

`bzero` clears eight bytes at a time, and then as many bytes as the two lowest bits of the size say.
-/

namespace Infos.Arch.FastString

/-- Addresses wrap around. -/
structure Machine where
  rax : UInt64
  rcx : UInt64
  rdx : UInt64
  rsi : UInt64
  rdi : UInt64
  direction : Bool
  memory : UInt64 → UInt8

namespace Machine

def cld (s : Machine) : Machine := { s with direction := false }

/-- A store of the lowest `width` bytes of `rax`. -/
def stos (width : UInt64) (s : Machine) : Machine :=
  { s with
    memory := fun a =>
      if a - s.rdi < width then (s.rax >>> (8 * (a - s.rdi))).toUInt8 else s.memory a
    rdi := if s.direction then s.rdi - width else s.rdi + width }

def stosb : Machine → Machine := stos 1

def stosq : Machine → Machine := stos 8

def rep_loop (instruction : Machine → Machine) : ℕ → Machine → Machine
  | 0, s => s
  | n + 1, s =>
    let s := instruction s
    rep_loop instruction n { s with rcx := s.rcx - 1 }

def rep (instruction : Machine → Machine) (s : Machine) : Machine :=
  rep_loop instruction s.rcx.toNat s

/-- From the label `2` on. -/
def store_rest (s : Machine) : Machine :=
  let s := s.rep stosb
  { s with rax := s.rdi }

def bzero (s : Machine) : Machine :=
  let s := s.cld
  let s := { s with rcx := s.rsi }
  let s := { s with rcx := s.rcx >>> 3 }
  let s := { s with rax := 0 }
  let s := s.rep stosq
  let s := { s with rcx := s.rsi }
  let s := { s with rcx := s.rcx &&& 3 }
  s.store_rest

/-- Only the lower half of `rsi` is the character. -/
def memset (s : Machine) : Machine :=
  if s.rsi = 0 then bzero { s with rsi := s.rdx }
  else
    let s := s.cld
    let s := { s with rax := s.rsi.toUInt32.toUInt64 }
    let s := { s with rcx := s.rdx }
    s.store_rest

end Machine

open Machine Addresses

/-- The bytes from `dest` on are 0, and all others are as before. -/
def Cleared (before after : UInt64 → UInt8) (dest : UInt64) (n : ℕ) : Prop :=
  ∀ a, after a = if (a - dest).toNat < n then 0 else before a

variable {s : Machine} {dest n : UInt64} {before between after : UInt64 → UInt8} {j k : ℕ}

/-! ## What a repeated store clears -/

theorem Cleared.append (h : Cleared before between dest j)
    (h' : Cleared between after (dest + UInt64.ofNat j) k) (hlt : j + k < 2 ^ 64) :
    Cleared before after dest (j + k) := Overlaid.append (f := fun _ => 0) h h' hlt

/-- How a run of stores of 0 leaves the machine. -/
structure Stored (s t : Machine) (n : ℕ) : Prop where
  cleared : Cleared s.memory t.memory s.rdi n
  rdi : t.rdi = s.rdi + UInt64.ofNat n
  rsi : t.rsi = s.rsi
  rax : t.rax = s.rax
  direction : t.direction = s.direction

theorem stos_stored (width : UInt64) (hrax : s.rax = 0) (hdir : s.direction = false) :
    Stored s (stos width s) width.toNat := by
  refine ⟨fun a => ?_, ?_, rfl, rfl, rfl⟩
  · unfold stos
    dsimp only
    rw [hrax]
    split
    next h => rw [if_pos (UInt64.lt_iff_toNat_lt.mp h), UInt64.zero_shiftRight]; rfl
    next h => rw [if_neg fun hlt => h (UInt64.lt_iff_toNat_lt.mpr hlt)]
  · unfold stos
    dsimp only
    rw [hdir, if_neg (by decide), UInt64.ofNat_toNat]

theorem Stored.append {t u : Machine} {c : UInt64} (h : Stored s t j)
    (h' : Stored { t with rcx := c } u k) (hlt : j + k < 2 ^ 64) : Stored s u (j + k) := by
  have hcleared := h'.cleared
  have hrdi := h'.rdi
  dsimp only at hcleared hrdi
  rw [h.rdi] at hcleared hrdi
  refine ⟨h.cleared.append hcleared hlt, ?_, h'.rsi.trans h.rsi, h'.rax.trans h.rax,
    h'.direction.trans h.direction⟩
  rw [hrdi, UInt64.ofNat_add, UInt64.add_assoc]

theorem rep_loop_stored (width : UInt64) (n : ℕ) (hrax : s.rax = 0) (hdir : s.direction = false)
    (hlt : n * width.toNat < 2 ^ 64) :
    Stored s (rep_loop (stos width) n s) (n * width.toNat) := by
  induction n generalizing s with
  | zero =>
    rw [Nat.zero_mul]
    exact ⟨fun a => by rw [if_neg (Nat.not_lt_zero _)]; rfl, (UInt64.add_zero _).symm, rfl, rfl, rfl⟩
  | succ n ih =>
    have hsum : (n + 1) * width.toNat = width.toNat + n * width.toNat := by
      rw [Nat.succ_mul, Nat.add_comm]
    rw [hsum] at hlt ⊢
    have hone := stos_stored width hrax hdir
    exact hone.append (ih (hone.rax.trans hrax) (hone.direction.trans hdir) (by omega)) hlt

theorem rep_stored (width : UInt64) (hrax : s.rax = 0) (hdir : s.direction = false)
    (hlt : s.rcx.toNat * width.toNat < 2 ^ 64) :
    Stored s (s.rep (stos width)) (s.rcx.toNat * width.toNat) := rep_loop_stored width _ hrax hdir hlt

/-! ## The two routines -/

/-- What `bzero` clears of `n` bytes. -/
def cleared (n : ℕ) : ℕ := n / 8 * 8 + n % 4

theorem store_rest_stored (hrax : s.rax = 0) (hdir : s.direction = false) :
    Cleared s.memory s.store_rest.memory s.rdi s.rcx.toNat := by
  have hone : (1 : UInt64).toNat = 1 := rfl
  have hlt := s.rcx.toNat_lt
  have h := (rep_stored (s := s) 1 hrax hdir (by rw [hone]; omega)).cleared
  rwa [hone, Nat.mul_one] at h

theorem bzero_cleared (s : Machine) :
    Cleared s.memory s.bzero.memory s.rdi (cleared s.rsi.toNat) := by
  have hlt := s.rsi.toNat_lt
  have height : (8 : UInt64).toNat = 8 := rfl
  have hdiv : (s.rsi >>> 3).toNat = s.rsi.toNat / 8 := by
    rw [UInt64.toNat_shiftRight, Nat.shiftRight_eq_div_pow]
    rfl
  have hmod : (s.rsi &&& 3).toNat = s.rsi.toNat % 4 := by
    rw [UInt64.toNat_and]
    exact Nat.and_two_pow_sub_one_eq_mod _ 2
  have hquads := rep_stored (s := { s.cld with rcx := s.rsi >>> 3, rax := 0 }) 8 rfl rfl
    (by dsimp only; rw [hdiv, height]; omega)
  dsimp only at hquads
  rw [hdiv, height] at hquads
  generalize ht : rep (stos 8) { s.cld with rcx := s.rsi >>> 3, rax := 0 } = t at hquads
  have hbzero : s.bzero = store_rest { t with rcx := t.rsi &&& 3 } := ht ▸ rfl
  have hcount : (t.rsi &&& 3).toNat = s.rsi.toNat % 4 := by
    rw [show t.rsi = s.rsi from hquads.rsi, hmod]
  have hbytes : Cleared t.memory s.bzero.memory t.rdi (t.rsi &&& 3).toNat :=
    hbzero ▸ store_rest_stored hquads.rax hquads.direction
  rw [hcount, hquads.rdi] at hbytes
  exact hquads.cleared.append hbytes (by omega)

theorem memset_cleared (hc : s.rsi.toUInt32 = 0) : Cleared s.memory s.memset.memory s.rdi
    (if s.rsi = 0 then cleared s.rdx.toNat else s.rdx.toNat) := by
  have hrax : s.rsi.toUInt32.toUInt64 = 0 := by
    rw [hc]
    rfl
  unfold memset
  split
  · exact bzero_cleared _
  · exact store_rest_stored hrax rfl

/-- Where less is cleared than wanted, the rest must be 0 already. -/
theorem cleared_iff (hle : j ≤ k) (hlt : k < 2 ^ 64) (h : Cleared before after dest j) :
    Cleared before after dest k ↔ ∀ i, j ≤ i → i < k → before (dest + UInt64.ofNat i) = 0 := by
  have hdist : ∀ i < k, (dest + UInt64.ofNat i - dest).toNat = i := by
    intro i hi
    have hsub : dest + UInt64.ofNat i - dest = UInt64.ofNat i := by grind
    rw [hsub, UInt64.toNat_ofNat', Nat.mod_eq_of_lt (by omega)]
  constructor
  · intro h' i hj hi
    have hkept := h (dest + UInt64.ofNat i)
    rw [h', hdist i hi, if_pos hi, if_neg (by omega)] at hkept
    exact hkept.symm
  · intro hzero a
    rw [h a]
    split
    next hin => rw [if_pos (by omega)]
    next hout =>
      split
      next hin =>
        have ha : dest + UInt64.ofNat (a - dest).toNat = a := by
          rw [UInt64.ofNat_toNat]
          grind
        rw [← ha]
        exact hzero _ (by omega) hin
      next => rfl

/-- Both routines clear what they are asked to, whatever the upper half of `rsi` holds. -/
def Clears (s : Machine) (dest n : UInt64) : Prop :=
  Cleared s.memory (bzero { s with rdi := dest, rsi := n }).memory dest n.toNat ∧
    ∀ rsi : UInt64, rsi.toUInt32 = 0 →
      Cleared s.memory (memset { s with rdi := dest, rsi, rdx := n }).memory dest n.toNat

/-- The memory is cleared if and only if at most three bytes are left over by the groups of eight, or
the last four bytes are 0 already. -/
theorem clears_iff (s : Machine) (dest n : UInt64) : Clears s dest n ↔ n.toNat % 8 < 4 ∨
    ∀ i < 4, s.memory (dest + UInt64.ofNat (n.toNat - 4 + i)) = 0 := by
  have hlt := n.toNat_lt
  have hle : cleared n.toNat ≤ n.toNat := by
    unfold cleared
    omega
  have hiff := cleared_iff hle hlt (bzero_cleared { s with rdi := dest, rsi := n })
  have hlast : (∀ i, cleared n.toNat ≤ i → i < n.toNat → s.memory (dest + UInt64.ofNat i) = 0) ↔
      n.toNat % 8 < 4 ∨ ∀ i < 4, s.memory (dest + UInt64.ofNat (n.toNat - 4 + i)) = 0 := by
    unfold cleared
    constructor
    · intro h
      by_cases hfew : n.toNat % 8 < 4
      · exact .inl hfew
      · exact .inr fun i hi => h _ (by omega) (by omega)
    · rintro (h | h) i hi hin
      · omega
      · have hlast := h (i - (n.toNat - 4)) (by omega)
        rwa [show n.toNat - 4 + (i - (n.toNat - 4)) = i by omega] at hlast
  unfold Clears
  rw [hiff, hlast, and_iff_left_iff_imp]
  intro h rsi hc
  have hmemset := memset_cleared (s := { s with rdi := dest, rsi, rdx := n }) hc
  dsimp only at hmemset
  split at hmemset
  · exact (cleared_iff hle hlt hmemset).mpr (hlast.mpr h)
  · exact hmemset

/-- Four bytes that are not 0. -/
theorem four_bytes_left : ¬Clears ⟨0, 0, 0, 0, 0, false, fun _ => 1⟩ 4096 4 := by
  rintro ⟨h, -⟩
  have hfirst := h 4096
  revert hfirst
  decide

end Infos.Arch.FastString
