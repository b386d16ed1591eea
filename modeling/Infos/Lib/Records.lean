import Mathlib.Logic.Relation
import Mathlib.Tactic.Common

/-!
# Programs as activation records

A program in progress is a list of records, the topmost first. A step replaces the topmost record
by those of the calls it makes and of the rest of it.
-/

namespace Infos.Records

variable {F σ ε : Type} {step : F → σ → Except ε (List F × σ)}

inductive Next (step : F → σ → Except ε (List F × σ)) : List F × σ → List F × σ → Prop
  | next {f : F} {fs gs : List F} {s t : σ} (h : step f s = .ok (gs, t)) :
      Next step (f :: fs, s) (gs ++ fs, t)

def Steps (step : F → σ → Except ε (List F × σ)) : List F × σ → List F × σ → Prop :=
  Relation.ReflTransGen (Next step)

/-- The call of `f` returns. -/
def Calls (step : F → σ → Except ε (List F × σ)) (f : F) (s t : σ) : Prop :=
  Steps step ([f], s) ([], t)

variable {c d : List F × σ} {f : F} {fs gs hs : List F} {s t u : σ} {e : ε}

theorem Steps.refl (c : List F × σ) : Steps step c c := Relation.ReflTransGen.refl

theorem Steps.trans {b : List F × σ} (h : Steps step c d) (h' : Steps step d b) : Steps step c b :=
  Relation.ReflTransGen.trans h h'

theorem Steps.head (h : step f s = .ok (gs, t)) (h' : Steps step (gs ++ fs, t) d) :
    Steps step (f :: fs, s) d :=
  Relation.ReflTransGen.head (.next h) h'

/-- What the records do does not depend on those below them. -/
theorem Steps.below (h : Steps step c d) (hs : List F) :
    Steps step (c.1 ++ hs, c.2) (d.1 ++ hs, d.2) := by
  induction h with
  | refl => exact .refl _
  | tail _ hn ih =>
    cases hn with
    | next h =>
      refine Relation.ReflTransGen.tail ih ?_
      rw [List.append_assoc]
      exact .next h

theorem Calls.steps (h : Calls step f s t) (fs : List F) : Steps step (f :: fs, s) (fs, t) :=
  Steps.below h fs

theorem Calls.head (h : step f s = .ok (gs, t)) (h' : Steps step (gs, t) ([], u)) :
    Calls step f s u :=
  Steps.head h (by simpa using h')

/-- A program that has ended, or whose next step fails. -/
def Stuck (step : F → σ → Except ε (List F × σ)) (c : List F × σ) : Prop :=
  ∀ d, ¬Next step c d

theorem stuck_nil (s : σ) : Stuck step ([], s) := by
  rintro _ ⟨⟩

theorem stuck_error (h : step f s = .error e) : Stuck step (f :: fs, s) := by
  rintro _ ⟨h'⟩
  rw [h] at h'
  cases h'

theorem Next.unique {d' : List F × σ} (h : Next step c d) (h' : Next step c d') : d = d' := by
  cases h with
  | next h =>
    cases h' with
    | next h' =>
      rw [h] at h'
      cases h'
      rfl

/-- A program ends in one way only. -/
theorem Steps.to_stuck {d' : List F × σ} (h : Steps step c d) (hd : Stuck step d)
    (h' : Steps step c d') : Steps step d' d := by
  induction h' with
  | refl => exact h
  | tail _ hn ih =>
    cases Relation.ReflTransGen.cases_head ih with
    | inl he => exact absurd hn (he ▸ hd _)
    | inr hx =>
      obtain ⟨b, hb, hr⟩ := hx
      rwa [hn.unique hb]

theorem Steps.stuck_unique {d' : List F × σ} (h : Steps step c d) (hd : Stuck step d)
    (h' : Steps step c d') (hd' : Stuck step d') : d = d' := by
  cases Relation.ReflTransGen.cases_head (h.to_stuck hd h') with
  | inl he => exact he.symm
  | inr hx =>
    obtain ⟨b, hb, -⟩ := hx
    exact absurd hb (hd' b)

/-- So many steps, or fewer if the program ends. -/
def exec (step : F → σ → Except ε (List F × σ)) : ℕ → List F × σ → Except ε (List F × σ)
  | n + 1, (f :: fs, s) =>
    match step f s with
    | .ok (gs, t) => exec step n (gs ++ fs, t)
    | .error e => .error e
  | _, c => .ok c

theorem steps_of_exec (n : ℕ) (h : exec step n c = .ok d) : Steps step c d := by
  induction n generalizing c with
  | zero =>
    cases h
    exact .refl _
  | succ n ih =>
    obtain ⟨fs, s⟩ := c
    cases fs with
    | nil =>
      cases h
      exact .refl _
    | cons f fs =>
      unfold exec at h
      split at h
      next hs => exact .head hs (ih h)
      next => cases h

end Infos.Records
