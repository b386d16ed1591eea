import Mathlib.Data.List.Basic
import Mathlib.Tactic.Common

/-!
# Strings that end with a zero

A string is the list of the characters in front of its zero.
-/

namespace Infos.Util

def strlen : List UInt8 → ℕ
  | [] => 0
  | _ :: str => strlen str + 1

/-- The loop of `strncmp`. -/
def strncmp_loop : List UInt8 → List UInt8 → ℕ → Int32
  | c :: str1, d :: str2, n + 1 => if c ≠ d then -1 else strncmp_loop str1 str2 n
  | _, _, _ => 0

def strncmp (str1 str2 : List UInt8) (n : ℕ) : Int32 :=
  if strlen str1 ≠ strlen str2 then -1 else strncmp_loop str1 str2 n

/-- What `strncpy` writes, with the zero. `n` wraps around. -/
def strncpy_loop : List UInt8 → UInt64 → List UInt8
  | [], _ => [0]
  | c :: src, n => if n - 1 ≠ 0 then c :: strncpy_loop src (n - 1) else [0]

/-- `dest` has the buffer that is written to. -/
def strncpy (dest src : List UInt8) (n : UInt64) : List UInt8 :=
  strncpy_loop src n ++ dest.drop (strncpy_loop src n).length

/-- The string at the start of a buffer. -/
def text (buffer : List UInt8) : List UInt8 := buffer.takeWhile (· ≠ 0)

variable {a b src dest : List UInt8} {n : ℕ}

@[simp] theorem strlen_eq (str : List UInt8) : strlen str = str.length := by
  induction str with
  | nil => rfl
  | cons c str ih => rw [strlen, ih, List.length_cons]

/-! ## Comparing -/

theorem strncmp_loop_eq_zero (h : a.length = b.length) :
    strncmp_loop a b n = 0 ↔ a.take n = b.take n := by
  induction a generalizing b n with
  | nil =>
    obtain rfl := List.length_eq_zero_iff.mp h.symm
    simp [strncmp_loop]
  | cons c a ih =>
    cases b with
    | nil => cases h
    | cons d b =>
      cases n with
      | zero => simp [strncmp_loop]
      | succ n =>
        rw [strncmp_loop, List.take_succ_cons, List.take_succ_cons, List.cons.injEq]
        split
        next hne => simp [hne]
        next heq => rw [ih (by simpa using h), not_not.mp heq, and_iff_right rfl]

/-- The whole lengths are compared, and then so many characters. -/
theorem strncmp_eq_zero : strncmp a b n = 0 ↔ a.length = b.length ∧ a.take n = b.take n := by
  unfold strncmp
  rw [strlen_eq, strlen_eq]
  split
  next hne => simp [hne]
  next heq => rw [strncmp_loop_eq_zero (not_not.mp heq), and_iff_right (not_not.mp heq)]

theorem strncmp_eq_zero_of_le (h : b.length ≤ n) : strncmp a b n = 0 ↔ a = b := by
  rw [strncmp_eq_zero]
  constructor
  · rintro ⟨hlen, htake⟩
    rwa [List.take_of_length_le (by omega), List.take_of_length_le h] at htake
  · rintro rfl
    exact ⟨rfl, rfl⟩

/-! ## Copying -/

theorem toNat_pred {k : UInt64} (h : k ≠ 0) : k.toNat = (k - 1).toNat + 1 := by
  have hpos : k.toNat ≠ 0 := fun h0 => h (UInt64.toNat_inj.mp h0)
  have hone : (1 : UInt64).toNat = 1 := rfl
  have hlt := k.toNat_lt
  rw [UInt64.toNat_sub, hone]
  omega

theorem strncpy_loop_eq (src : List UInt8) {k : UInt64} (hk : k ≠ 0) :
    strncpy_loop src k = src.take (k.toNat - 1) ++ [0] := by
  induction src generalizing k with
  | nil => simp [strncpy_loop]
  | cons c src ih =>
    rw [strncpy_loop, toNat_pred hk, Nat.add_sub_cancel]
    split
    next hne =>
      rw [ih hne, toNat_pred hne, List.take_succ_cons, Nat.add_sub_cancel, List.cons_append]
    next heq =>
      rw [not_not] at heq
      rw [heq]
      rfl

theorem text_append_zero (h : 0 ∉ src) (rest : List UInt8) : text (src ++ 0 :: rest) = src := by
  unfold text
  rw [List.takeWhile_append_of_pos]
  · simp
  · intro c hc
    simpa using fun h0 : c = 0 => h (h0 ▸ hc)

/-- One place is kept for the zero. -/
theorem text_strncpy (h : 0 ∉ src) {k : UInt64} (hk : k ≠ 0) :
    text (strncpy dest src k) = src.take (k.toNat - 1) := by
  unfold strncpy
  rw [strncpy_loop_eq src hk, List.append_assoc]
  exact text_append_zero (fun hmem => h (List.mem_of_mem_take hmem)) _

/-- Nothing is written behind the buffer. -/
theorem length_strncpy {k : UInt64} (hk : k ≠ 0) (hle : k.toNat ≤ dest.length) :
    (strncpy dest src k).length = dest.length := by
  have hpos : k.toNat ≠ 0 := fun h => hk (UInt64.toNat_inj.mp h)
  unfold strncpy
  rw [strncpy_loop_eq src hk, List.length_append, List.length_drop, List.length_append,
    List.length_take, List.length_singleton]
  omega

end Infos.Util
