import Infos.Util.CString

/-!
# Comparing strings in the user library

`strcmp` of `infos-user/lib/string.cpp`. Each string lies in an array, with its zero behind it.
-/

open Infos.Util

namespace Infos.User

def strcmp : List UInt8 → List UInt8 → Int32
  | c :: l, d :: r => if c ≠ 0 ∧ d ≠ 0 then if c ≠ d then -1 else strcmp l r else 0
  | _, _ => 0

variable {l r x y : List UInt8} {c d : UInt8}

theorem strcmp_cons (hc : c ≠ 0) (hd : d ≠ 0) :
    strcmp (c :: l) (d :: r) = if c ≠ d then -1 else strcmp l r := by
  rw [strcmp, if_pos ⟨hc, hd⟩]

theorem strcmp_zero : strcmp (0 :: x) r = 0 := by
  cases r <;> simp [strcmp]

theorem strcmp_of_zero : strcmp l (0 :: y) = 0 := by
  cases l <;> simp [strcmp]

/-- The loop ends with the shorter string. -/
theorem strcmp_eq_zero (hl : 0 ∉ l) (hr : 0 ∉ r) :
    strcmp (l ++ 0 :: x) (r ++ 0 :: y) = 0 ↔ l <+: r ∨ r <+: l := by
  induction l generalizing r with
  | nil => simp [strcmp_zero]
  | cons c l ih =>
    cases r with
    | nil => simp [strcmp_of_zero]
    | cons d r =>
      rw [List.mem_cons, not_or] at hl hr
      rw [List.cons_append, List.cons_append, strcmp_cons (Ne.symm hl.1) (Ne.symm hr.1)]
      split
      next hne => simp [hne, Ne.symm hne]
      next heq =>
        obtain rfl := not_not.mp heq
        simp [ih hl.2 hr.2]

/-- Equality is what `strcmp` finds, but for a string and a longer one that begins with it. -/
theorem strcmp_exact_iff (hl : 0 ∉ l) (hr : 0 ∉ r) (x y : List UInt8) :
    (strcmp (l ++ 0 :: x) (r ++ 0 :: y) = 0 ↔ l = r) ↔ l = r ∨ ¬(l <+: r ∨ r <+: l) := by
  rw [strcmp_eq_zero hl hr]
  constructor
  · intro h
    by_cases hprefix : l <+: r ∨ r <+: l
    · exact .inl (h.mp hprefix)
    · exact .inr hprefix
  · rintro (rfl | hno)
    · simp
    · refine iff_of_false hno ?_
      rintro rfl
      exact hno (.inl (List.prefix_refl l))

/-- `exit` and `ls`. -/
theorem strcmp_exact_iff_exit : strcmp ([101, 120, 105, 116] ++ [0]) ([108, 115] ++ [0]) = 0 ↔
    [101, 120, 105, 116] = ([108, 115] : List UInt8) :=
  (strcmp_exact_iff (by decide) (by decide) [] []).mpr (by decide)

/-- `ex` is taken for `exit`. -/
theorem prefix_found_equal : ¬(strcmp ([101, 120, 105, 116] ++ [0]) ([101, 120] ++ [0]) = 0 ↔
    [101, 120, 105, 116] = ([101, 120] : List UInt8)) := by
  decide

end Infos.User
