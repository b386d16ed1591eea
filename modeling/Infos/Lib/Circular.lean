import Mathlib.Data.List.Basic
import Mathlib.Data.Nat.ModEq
import Mathlib.Logic.Function.Basic
import Mathlib.Tactic.Common

/-!
# Circular buffers

`span n cells head len` has the `len` cells of a buffer of `n` cells from `head` on, going on at
its start behind the last one.
-/

namespace Infos.Circular

variable {α : Type}

def span (n : ℕ) (cells : ℕ → α) (head len : ℕ) : List α :=
  (List.range len).map fun i => cells ((head + i) % n)

variable {n head len : ℕ} {cells : ℕ → α} {c : α}

@[simp]
theorem length_span : (span n cells head len).length = len := by
  simp [span]

@[simp]
theorem span_zero : span n cells head 0 = [] := rfl

theorem span_first (h : head < n) :
    span n cells head (len + 1) = cells head :: span n cells ((head + 1) % n) len := by
  unfold span
  rw [List.range_succ_eq_map, List.map_cons, List.map_map, Nat.add_zero, Nat.mod_eq_of_lt h]
  refine congrArg _ (List.map_congr_left fun i _ => congrArg cells ?_)
  rw [Nat.mod_add_mod]
  congr 1
  omega

/-- Two cells of a span that is no longer than the buffer are different. -/
theorem cell_ne {i j : ℕ} (hi : i < j) (hj : j < n) : (head + i) % n ≠ (head + j) % n := by
  intro h
  have hmod : i % n = j % n := Nat.ModEq.add_left_cancel' head h
  rw [Nat.mod_eq_of_lt (Nat.lt_trans hi hj), Nat.mod_eq_of_lt hj] at hmod
  omega

/-- Writing the cell behind a span makes it longer. -/
theorem span_push (h : len < n) :
    span n (Function.update cells ((head + len) % n) c) head (len + 1) =
      span n cells head len ++ [c] := by
  unfold span
  rw [List.range_succ, List.map_append, List.map_singleton, Function.update_self]
  refine congrArg (· ++ [c]) (List.map_congr_left fun i hi => ?_)
  exact Function.update_of_ne (cell_ne (List.mem_range.mp hi) h) _ _

/-- The length of the span between two indices. -/
def distance (n head tail : ℕ) : ℕ := (tail + n - head) % n

theorem distance_lt (h : 0 < n) {tail : ℕ} : distance n head tail < n := Nat.mod_lt _ h

theorem distance_eq_zero {tail : ℕ} (hh : head < n) (ht : tail < n) :
    distance n head tail = 0 ↔ head = tail := by
  unfold distance
  rcases Nat.lt_or_ge tail head with hlt | hge
  · rw [Nat.mod_eq_of_lt (by omega)]
    omega
  · rw [show tail + n - head = tail - head + n by omega, Nat.add_mod_right,
      Nat.mod_eq_of_lt (by omega)]
    omega

theorem add_distance {tail : ℕ} (hh : head < n) (ht : tail < n) :
    (head + distance n head tail) % n = tail := by
  unfold distance
  rw [Nat.add_mod_mod, show head + (tail + n - head) = tail + n by omega, Nat.add_mod_right,
    Nat.mod_eq_of_lt ht]

theorem distance_succ {tail : ℕ} (hh : head < n) :
    distance n head ((tail + 1) % n) = (distance n head tail + 1) % n := by
  unfold distance
  rw [Nat.mod_add_mod, show (tail + 1) % n + n - head = (tail + 1) % n + (n - head) by omega,
    Nat.mod_add_mod]
  congr 1
  omega

theorem distance_push {tail : ℕ} (hh : head < n) (h : distance n head tail + 1 < n) :
    distance n head ((tail + 1) % n) = distance n head tail + 1 := by
  rw [distance_succ hh, Nat.mod_eq_of_lt h]

/-- Behind the last free cell, the tail is where the head is. -/
theorem distance_full {tail : ℕ} (hh : head < n) (h : distance n head tail + 1 = n) :
    distance n head ((tail + 1) % n) = 0 := by
  rw [distance_succ hh, h, Nat.mod_self]

theorem distance_pop {tail : ℕ} (hh : head < n) (ht : tail < n)
    (h : distance n head tail ≠ 0) :
    distance n head tail = distance n ((head + 1) % n) tail + 1 := by
  have hn : 0 < n := by omega
  have hne := (distance_eq_zero hh ht).not.mp h
  unfold distance
  rcases Nat.lt_or_ge (head + 1) n with hlt | hge
  · rw [Nat.mod_eq_of_lt hlt]
    rcases Nat.lt_or_ge tail head with hth | hth
    · rw [Nat.mod_eq_of_lt (by omega), Nat.mod_eq_of_lt (by omega)]
      omega
    · rw [show tail + n - head = tail - head + n by omega,
        show tail + n - (head + 1) = tail - (head + 1) + n by omega, Nat.add_mod_right,
        Nat.add_mod_right, Nat.mod_eq_of_lt (by omega), Nat.mod_eq_of_lt (by omega)]
      omega
  · rw [show head + 1 = n by omega, Nat.mod_self, Nat.sub_zero, Nat.add_mod_right,
      Nat.mod_eq_of_lt ht, Nat.mod_eq_of_lt (by omega)]
    omega

end Infos.Circular
