import Mathlib.Algebra.Order.Ring.Nat
import Mathlib.Tactic.Common

/-!
# Packed bit-fields

A packed structure is the bits of its members, one behind the other. A bit-field begins at the next bit
and any other member at the next byte, so a width decides where all later members are.
-/

namespace Infos.BitFields

/-- The number in `width` bits from `pos` on. -/
def read (pos width : ℕ) (bits : ℕ → Bool) : ℕ := Nat.ofBits fun i : Fin width => bits (pos + i)

def write (pos width value : ℕ) (bits : ℕ → Bool) : ℕ → Bool := fun i =>
  if pos ≤ i ∧ i < pos + width then value.testBit (i - pos) else bits i

/-- A member of a packed structure, with the value that it is constructed with, if any. -/
structure Member where
  width : ℕ
  bitField : Bool
  value : Option ℕ

def field (width value : ℕ) : Member := ⟨width, true, some value⟩

def object (width value : ℕ) : Member := ⟨width, false, some value⟩

def uninitialised (width : ℕ) : Member := ⟨width, false, none⟩

def place (pos : ℕ) (m : Member) : ℕ := if m.bitField then pos else (pos + 7) / 8 * 8

/-- Bits that no member with a value has are as they were in the memory. -/
def construct : ℕ → List Member → (ℕ → Bool) → (ℕ → Bool)
  | _, [], bits => bits
  | pos, m :: members, bits =>
    construct (place pos m + m.width) members <| match m.value with
      | none => bits
      | some value => write (place pos m) m.width value bits

variable {bits bits' : ℕ → Bool} {pos width value q w : ℕ}

theorem testBit_read (i : ℕ) :
    (read pos width bits).testBit i = (decide (i < width) && bits (pos + i)) := by
  unfold read
  rw [Nat.testBit_ofBits]
  by_cases hi : i < width
  · rw [dif_pos hi, decide_eq_true hi, Bool.true_and]
  · rw [dif_neg hi, decide_eq_false hi, Bool.false_and]

theorem read_congr (h : ∀ i < width, bits (pos + i) = bits' (pos + i)) :
    read pos width bits = read pos width bits' := by
  refine Nat.eq_of_testBit_eq fun i => ?_
  rw [testBit_read, testBit_read]
  by_cases hi : i < width
  · rw [h i hi]
  · rw [decide_eq_false hi, Bool.false_and, Bool.false_and]

theorem read_lt : read pos width bits < 2 ^ width := Nat.ofBits_lt_two_pow _

theorem read_one : read pos 1 bits = (bits pos).toNat := by
  unfold read
  rw [Nat.ofBits_succ, Nat.ofBits_zero, Nat.mul_zero, Nat.zero_add]
  rfl

theorem read_add (w' : ℕ) : read q (w + w') bits = read q w bits + 2 ^ w * read (q + w) w' bits := by
  refine Nat.eq_of_testBit_eq fun i => ?_
  rw [Nat.add_comm (read q w bits), Nat.testBit_two_pow_mul_add _ read_lt, testBit_read,
    testBit_read, testBit_read]
  by_cases hi : i < w
  · rw [if_pos hi, decide_eq_true hi, decide_eq_true (by omega : i < w + w')]
  · rw [if_neg hi, show q + w + (i - w) = q + i by omega]
    congr 1
    rw [decide_eq_decide]
    omega

/-- Of a member that is read in part, or as a whole. -/
theorem read_write (hlow : pos ≤ q) (hhigh : q + w ≤ pos + width) :
    read q w (write pos width value bits) = value / 2 ^ (q - pos) % 2 ^ w := by
  refine Nat.eq_of_testBit_eq fun i => ?_
  rw [testBit_read, Nat.testBit_mod_two_pow, Nat.testBit_div_two_pow]
  by_cases hi : i < w
  · unfold write
    rw [if_pos (by omega), show q + i - pos = i + (q - pos) by omega]
  · rw [decide_eq_false hi, Bool.false_and, Bool.false_and]

theorem read_write_apart (h : q + w ≤ pos ∨ pos + width ≤ q) :
    read q w (write pos width value bits) = read q w bits :=
  read_congr fun i hi => if_neg (by omega)

end Infos.BitFields
