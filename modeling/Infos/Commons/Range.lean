import Infos.Commons.LinkedList
import Infos.Lib.Loop

/-!
# Counting with a range

`Range` of `Core/IntRange.h` and `ForEach` of `Core/Collection.h`, with which `Get` counts its
steps.
-/

open Infos.Prog

namespace Infos.Commons

structure Range where
  _start : ℤ
  _end : ℤ
  deriving DecidableEq, Repr

def To (start stop : ℤ) : Range := ⟨start, stop⟩

structure Range_Enumerator where
  _start : ℤ
  _end : ℤ
  _current : ℤ
  deriving DecidableEq, Repr

namespace Range_Enumerator

/-- Whether there is another number, and the enumerator that stands on it. -/
def MoveNext (e : Range_Enumerator) : Bool × Range_Enumerator :=
  if e._start < e._end then
    (e._current + 1 < e._end, { e with _current := e._current + 1 })
  else (e._current - 1 > e._end, { e with _current := e._current - 1 })

def Current (e : Range_Enumerator) : ℤ := e._current

end Range_Enumerator

namespace Range

def GetEnumerator (r : Range) : Range_Enumerator where
  _start := r._start
  _end := r._end
  _current := if r._start > r._end then r._start + 1 else r._start - 1

variable {σ ε : Type}

/-- `func` changes what it has captured, or throws. -/
def ForEach (func : ℤ → σ → Except ε σ) : Loop (Range_Enumerator × σ) (Except ε σ)
  | (iterator, s) =>
    match iterator.MoveNext with
    | (false, _) => .inr (.ok s)
    | (true, iterator) =>
      match func iterator.Current s with
      | .ok s => .inl (iterator, s)
      | .error e => .inr (.error e)

/-- From `k` on, with `j` numbers to come. -/
theorem ForEach_from (func : ℤ → σ → Except ε σ) {k j : ℕ} (h : 0 < k + j) (s : σ) :
    (ForEach func).Ends (⟨0, (k + j : ℕ), k - 1⟩, s)
      ((List.range' k j).foldlM (fun s (i : ℕ) => func i s) s) := by
  induction j generalizing k s with
  | zero =>
    have hmove : Range_Enumerator.MoveNext ⟨0, (k + 0 : ℕ), k - 1⟩ = (false, ⟨0, (k + 0 : ℕ), k⟩) := by
      unfold Range_Enumerator.MoveNext
      dsimp only
      rw [if_pos (by omega), Int.sub_add_cancel, Nat.add_zero, decide_eq_false (Int.lt_irrefl _)]
    refine .leave ?_
    simp only [ForEach, hmove]
    rfl
  | succ j ih =>
    have hmove : Range_Enumerator.MoveNext ⟨0, (k + (j + 1) : ℕ), k - 1⟩ =
        (true, ⟨0, (k + (j + 1) : ℕ), k⟩) := by
      have hlt : (k : ℤ) < (k + (j + 1) : ℕ) := by omega
      unfold Range_Enumerator.MoveNext
      dsimp only
      rw [if_pos (by omega), Int.sub_add_cancel, decide_eq_true hlt]
    rw [List.range'_succ, List.foldlM_cons]
    cases hf : func k s with
    | error err =>
      refine .leave ?_
      simp only [ForEach, hmove, Range_Enumerator.Current, hf]
      rfl
    | ok s' =>
      have hrest := ih (k := k + 1) (by omega) s'
      rw [show k + 1 + j = k + (j + 1) by omega, show ((k + 1 : ℕ) : ℤ) - 1 = k by omega] at hrest
      refine .turn ?_ hrest
      simp only [ForEach, hmove, Range_Enumerator.Current, hf]

/-- The numbers up to `n` come one after the other. -/
theorem ForEach_To (func : ℤ → σ → Except ε σ) (s : σ) (n : ℕ) :
    (ForEach func).Ends ((To 0 n).GetEnumerator, s)
      ((List.range n).foldlM (fun s (i : ℕ) => func i s) s) := by
  rw [List.range_eq_range']
  unfold To GetEnumerator
  rcases Nat.eq_zero_or_pos n with rfl | hn
  · exact .leave rfl
  · have hends := ForEach_from func (k := 0) (j := n) (by omega) s
    have hlt : ¬(0 : ℤ) > n := by omega
    simpa [hlt] using hends

end Range

namespace LinkedList

variable {T : Type}

theorem look_eq_foldlM (step : ListNode T → Option ℕ) (n k : ℕ) (node : Option ℕ)
    (m : LinkedList T) : look step n node m = (List.range' k n).foldlM
      (fun s (_ : ℕ) => (step <$> load s.1 : Op T (Option ℕ)) s.2) (node, m) := by
  induction n generalizing node m k with
  | zero => rfl
  | succ n ih =>
    unfold look
    rw [List.range'_succ, List.foldlM_cons, bind_eq, ← bind_pure_comp, bind_eq]
    cases load node m with
    | error e => rfl
    | ok r => exact ih (k + 1) (step r.1) r.2

/-- The closure that is called with every number takes one step. -/
theorem look_ends (step : ListNode T → Option ℕ) (n : ℕ) (node : Option ℕ) (m : LinkedList T) :
    (Range.ForEach fun _ s => (step <$> load s.1 : Op T (Option ℕ)) s.2).Ends
      ((To 0 n).GetEnumerator, node, m) (look step n node m) := by
  rw [look_eq_foldlM step n 0, ← List.range_eq_range']
  exact Range.ForEach_To _ _ n

end LinkedList

end Infos.Commons
