import Infos.Fs.TarTree

/-!
# The octal numbers of a header

Both drivers for archives leave the first digit out.
-/

namespace Infos.Fs

/-- The copy of `octal2ui` in `infos/fs/internal-driver.cpp`. -/
def zmfj (pza : List UInt8) : UInt32 := octal2ui_loop pza.tail.reverse 1 0

def Digits (ds : List UInt8) : Prop := ∀ d ∈ ds, 48 ≤ d.toNat ∧ d.toNat ≤ 55

variable {d : UInt8} {ds : List UInt8}

theorem zmfj_eq (ds : List UInt8) : zmfj ds = octal2ui ds := rfl

theorem octal2ui_cons (hd : Digits ds) : octal2ui (d :: ds) = UInt32.ofNat (octal ds) := by
  unfold octal2ui
  rw [octal2ui_loop_eq, List.tail_cons, List.reverse_reverse]
  · simp
  · intro x hx
    exact hd x (by simpa using hx)

/-- The value is lost that the first digit stands for. -/
theorem octal2ui_first (hd : Digits (d :: ds)) (hlt : octal (d :: ds) < 2 ^ 32) :
    (octal2ui (d :: ds)).toNat + (d.toNat - 48) * 8 ^ ds.length = octal (d :: ds) := by
  rw [octal_cons] at hlt ⊢
  have hmod : octal ds % 2 ^ 32 = octal ds := Nat.mod_eq_of_lt (by omega)
  rw [octal2ui_cons fun x hx => hd x (List.mem_cons_of_mem _ hx), UInt32.toNat_ofNat', hmod]
  omega

/-- The number is read if and only if its first digit is 0. -/
theorem octal2ui_iff (hlen : 1 ≤ ds.length ∧ ds.length ≤ 11) (hd : Digits ds)
    (hlt : octal ds < 2 ^ 32) :
    ((octal2ui ds).toNat = octal ds ∧ (zmfj ds).toNat = octal ds) ↔ ds.head? = some 48 := by
  rw [zmfj_eq, and_self]
  cases ds with
  | nil => simp at hlen
  | cons d ds =>
    have hfirst := octal2ui_first hd hlt
    have hpos : 0 < 8 ^ ds.length := Nat.pow_pos (by decide)
    have hdigit := (hd d List.mem_cons_self).1
    have hzero : (d.toNat - 48) * 8 ^ ds.length = 0 ↔ d = 48 := by
      rw [Nat.mul_eq_zero, or_iff_left hpos.ne', ← UInt8.toNat_inj]
      show d.toNat - 48 = 0 ↔ d.toNat = 48
      omega
    rw [List.head?_cons, Option.some.injEq, ← hzero]
    omega

theorem octal2ui_iff_eight : (octal2ui [48, 49, 48]).toNat = octal [48, 49, 48] ∧
    (zmfj [48, 49, 48]).toNat = octal [48, 49, 48] :=
  (octal2ui_iff (by decide) (by simp [Digits]) (by decide)).mpr rfl

/-- Seven bytes. -/
theorem seven_lost : ¬∀ ds : List UInt8, 1 ≤ ds.length ∧ ds.length ≤ 11 → Digits ds →
    octal ds < 2 ^ 32 → (octal2ui ds).toNat = octal ds ∧ (zmfj ds).toNat = octal ds := by
  intro h
  have := (h [55] (by decide) (by simp [Digits]) (by decide)).1
  revert this
  decide

end Infos.Fs
