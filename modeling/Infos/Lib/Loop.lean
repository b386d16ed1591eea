import Mathlib.Tactic.Common

/-!
# Loops

A turn of a loop leaves a state for the next turn, or it leaves the loop with a result.
-/

namespace Infos

/-- The state after the turn on the left, the result of the loop on the right. -/
abbrev Loop (σ α : Type) := σ → σ ⊕ α

namespace Loop

variable {σ α : Type} {L : Loop σ α} {s t : σ} {a b : α}

/-- Started in `s`, the loop is left with `a`. -/
inductive Ends (L : Loop σ α) : σ → α → Prop
  | leave {s : σ} {a : α} (h : L s = .inr a) : Ends L s a
  | turn {s t : σ} {a : α} (h : L s = .inl t) (ht : Ends L t a) : Ends L s a

/-- The loop comes by the state `t` after some turns. -/
inductive Reaches (L : Loop σ α) : σ → σ → Prop
  | here (s : σ) : Reaches L s s
  | turn {s t u : σ} (h : L s = .inl t) (hr : Reaches L t u) : Reaches L s u

theorem ends_turn (h : L s = .inl t) : L.Ends s a ↔ L.Ends t a := by
  constructor
  · intro ha
    cases ha with
    | leave h' => cases h.symm.trans h'
    | turn h' ht =>
      cases h.symm.trans h'
      exact ht
  · exact .turn h

theorem ends_leave (h : L s = .inr a) : L.Ends s b ↔ a = b := by
  constructor
  · intro hb
    cases hb with
    | leave h' =>
      cases h.symm.trans h'
      rfl
    | turn h' => cases h.symm.trans h'
  · rintro rfl
    exact .leave h

theorem Ends.unique (h : L.Ends s a) (h' : L.Ends s b) : a = b := by
  induction h with
  | leave h => exact (ends_leave h).mp h'
  | turn h _ ih => exact ih ((ends_turn h).mp h')

/-- A loop that can always take another turn does not end. -/
theorem not_ends {I : σ → Prop} (hs : I s) (hturn : ∀ s, I s → ∃ t, L s = .inl t ∧ I t) :
    ¬L.Ends s a := by
  intro h
  induction h with
  | leave h =>
    obtain ⟨t, ht, -⟩ := hturn _ hs
    cases h.symm.trans ht
  | turn h _ ih =>
    obtain ⟨t, ht, hi⟩ := hturn _ hs
    cases h.symm.trans ht
    exact ih hi

theorem Reaches.concat {u : σ} (h : L.Reaches s t) (ht : L t = .inl u) : L.Reaches s u := by
  induction h with
  | here => exact .turn ht (.here _)
  | turn h _ ih => exact .turn h (ih ht)

/-- A rank cannot fall in every turn. -/
theorem ends_of_rank (rank : σ → ℕ)
    (h : ∀ t u, L.Reaches s t → L t = .inl u → rank u < rank t) : ∃ a, L.Ends s a := by
  induction hr : rank s using Nat.strongRecOn generalizing s with
  | ind n ih =>
    cases hs : L s with
    | inr a => exact ⟨a, .leave hs⟩
    | inl t =>
      have hlt := h s t (.here s) hs
      obtain ⟨a, ha⟩ := ih _ (hr ▸ hlt) (fun u v hu => h u v (.turn hs hu)) rfl
      exact ⟨a, .turn hs ha⟩

/-- What every turn preserves holds in every state that the loop comes by. -/
theorem Reaches.preserves {I : σ → Prop} (h : L.Reaches s t) (hs : I s)
    (hturn : ∀ s t, I s → L s = .inl t → I t) : I t := by
  induction h with
  | here => exact hs
  | turn h _ ih => exact ih (hturn _ _ hs h)

end Loop

end Infos
