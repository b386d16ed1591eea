import Mathlib.Algebra.Order.Ring.Nat
import Mathlib.Tactic.Common

/-!
# Memory with addresses of 64 bits

Addresses wrap around, so a range is given by the distance from its first address.
-/

namespace Infos.Addresses

variable {β : Type} {before between after : UInt64 → β} {a dest : UInt64} {f : ℕ → β} {j k n : ℕ}

/-- What is so far from `dest`, from `j` further on. -/
theorem toNat_sub_add_ofNat (a dest : UInt64) (hj : j < 2 ^ 64) :
    (a - (dest + UInt64.ofNat j)).toNat = ((a - dest).toNat + (2 ^ 64 - j)) % 2 ^ 64 := by
  have hsub : a - (dest + UInt64.ofNat j) = a - dest - UInt64.ofNat j := by grind
  rw [hsub, UInt64.toNat_sub, UInt64.toNat_ofNat', Nat.mod_eq_of_lt hj, Nat.add_comm]

/-- The `n` cells from `dest` on are those of `f`, and all others are as before. -/
def Overlaid (before after : UInt64 → β) (dest : UInt64) (n : ℕ) (f : ℕ → β) : Prop :=
  ∀ a, after a = if (a - dest).toNat < n then f (a - dest).toNat else before a

theorem Overlaid.append (h : Overlaid before between dest j f)
    (h' : Overlaid between after (dest + UInt64.ofNat j) k fun i => f (j + i))
    (hlt : j + k < 2 ^ 64) : Overlaid before after dest (j + k) f := by
  intro a
  have hlow := (a - dest).toNat_lt
  rw [h' a, toNat_sub_add_ofNat a dest (by omega)]
  split
  next hin =>
    rw [if_pos (by omega)]
    exact congrArg f (by omega)
  next hout =>
    rw [h a]
    split
    next hin => rw [if_pos (by omega)]
    next hfar => rw [if_neg (by omega)]

end Infos.Addresses
