import Mathlib.Data.List.Basic
import Mathlib.Data.List.Induction
import Mathlib.Tactic.Common

/-!
# Trees of tables

A table holds, at each index, a pointer to another table or none. A path of indexes leads from the
root to at most one table. As long as no two paths lead to the same table, linking a fresh table
adds one path and changes no other.
-/

namespace Infos.Radix

variable {T : Type}

/-- The table that a path leads to. -/
def walk (next : T → ℕ → Option T) (t : T) : List ℕ → Option T
  | [] => some t
  | i :: p => (next t i).bind fun u => walk next u p

theorem walk_append (next : T → ℕ → Option T) (t : T) (p q : List ℕ) :
    walk next t (p ++ q) = (walk next t p).bind fun u => walk next u q := by
  induction p generalizing t with
  | nil => rfl
  | cons i p ih =>
    rw [List.cons_append, walk, walk, Option.bind_assoc]
    exact congrArg _ (funext fun u => ih u)

theorem walk_concat (next : T → ℕ → Option T) (t : T) (p : List ℕ) (i : ℕ) :
    walk next t (p ++ [i]) = (walk next t p).bind fun u => next u i := by
  rw [walk_append]
  refine congrArg _ (funext fun u => ?_)
  cases h : next u i <;> simp [walk, h]

/-- No two paths of at most `n` indexes lead to the same table. -/
def Unshared (next : T → ℕ → Option T) (root : T) (n : ℕ) : Prop :=
  ∀ p q t, p.length ≤ n → q.length ≤ n → walk next root p = some t → walk next root q = some t →
    p = q

variable {next next' : T → ℕ → Option T} {root t u : T} {n i : ℕ} {p : List ℕ}

/-- Paths of at most `n` indexes read only the tables that shorter paths lead to. -/
theorem walk_same (hsame : ∀ q x, q.length < n → walk next root q = some x → ∀ j, next' x j = next x j)
    (q : List ℕ) (hq : q.length ≤ n) : walk next' root q = walk next root q := by
  induction q using List.reverseRecOn with
  | nil => rfl
  | append_singleton q j ih =>
    rw [List.length_append, List.length_singleton] at hq
    rw [walk_concat, walk_concat, ih (by omega)]
    cases hx : walk next root q with
    | none => rfl
    | some x => exact hsame q x (by omega) hx j

theorem unshared_congr (hu : Unshared next root n)
    (hwalk : ∀ q, q.length ≤ n → walk next' root q = walk next root q) :
    Unshared next' root n := by
  intro p q t hp hq ht ht'
  rw [hwalk p hp] at ht
  rw [hwalk q hq] at ht'
  exact hu p q t hp hq ht ht'

/-- Linking the fresh table `u` at the index `i` of the table `t`. -/
structure Link (next next' : T → ℕ → Option T) (t : T) (i : ℕ) (u : T) : Prop where
  here : next' t i = some u
  beside : ∀ j ≠ i, next' t j = next t j
  fresh : ∀ j, next' u j = none
  others : ∀ x, x ≠ t → x ≠ u → ∀ j, next' x j = next x j

/-- One more path leads somewhere, the others lead where they did. -/
theorem walk_link (hu : Unshared next root n) (hp : p.length < n) (ht : walk next root p = some t)
    (hnone : next t i = none) (hnew : ∀ q, q.length ≤ n → walk next root q ≠ some u)
    (hl : Link next next' t i u) (q : List ℕ) (hq : q.length ≤ n) :
    walk next' root q = if q = p ++ [i] then some u else walk next root q := by
  induction q using List.reverseRecOn with
  | nil =>
    rw [if_neg (by simp)]
    rfl
  | append_singleton q j ih =>
    rw [List.length_append, List.length_singleton] at hq
    rw [walk_concat, walk_concat, ih (by omega)]
    by_cases hqi : q = p ++ [i]
    · -- Behind the fresh table there is nothing, and there was nothing before.
      subst hqi
      rw [if_pos rfl, walk_concat, ht, if_neg (by simp)]
      simp [hl.fresh, hnone]
    · rw [if_neg hqi]
      cases hx : walk next root q with
      | none =>
        rw [if_neg]
        · rfl
        · intro he
          obtain ⟨rfl, -⟩ := List.append_inj' he rfl
          rw [ht] at hx
          cases hx
      | some x =>
        have hxu : x ≠ u := by
          rintro rfl
          exact hnew q (by omega) hx
        simp only [Option.bind_some]
        by_cases hxt : x = t
        · subst hxt
          obtain rfl : q = p := hu q p x (by omega) (by omega) hx ht
          by_cases hj : j = i
          · subst hj
            rw [if_pos rfl, hl.here]
          · rw [if_neg (by simpa using hj), hl.beside j hj]
        · rw [if_neg, hl.others x hxt hxu]
          intro he
          obtain ⟨rfl, -⟩ := List.append_inj' he rfl
          rw [ht] at hx
          exact hxt (Option.some.inj hx).symm

theorem unshared_link (hu : Unshared next root n) (hp : p.length < n)
    (ht : walk next root p = some t) (hnone : next t i = none)
    (hnew : ∀ q, q.length ≤ n → walk next root q ≠ some u) (hl : Link next next' t i u) :
    Unshared next' root n := by
  intro q r x hq hr hx hx'
  rw [walk_link hu hp ht hnone hnew hl q hq] at hx
  rw [walk_link hu hp ht hnone hnew hl r hr] at hx'
  split_ifs at hx hx' with h1 h2 h2
  · rw [h1, h2]
  · exact absurd (hx'.trans hx.symm) (hnew r hr)
  · exact absurd (hx.trans hx'.symm) (hnew q hq)
  · exact hu q r x hq hr hx hx'

end Infos.Radix
