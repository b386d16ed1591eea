import Infos.Kernel.Threads
import Infos.Lib.System

/-!
# The run queue mirrors the states

An entity is in the run queue when its state says so, except while `set_entity_state` is midway with
it. What holds midway says how the change goes on.
-/

namespace Infos.Kernel

open SchedulingEntityState

variable {T P : Type} [DecidableEq T] [DecidableEq P] {A : SchedulingAlgorithm T}

/-- How often the entity is in the run queue. -/
def Sys.queued (k : Sys A P) (e : T) : ℕ := (A.entities k.runqueue).count e

/-- How the number of times an entity is in the run queue relates to the number its state says:
`=`, or only `≤`, which holds of the idle thread too. -/
structure Relates (R : ℕ → ℕ → Prop) : Prop where
  le : ∀ {m n}, R m n → m ≤ n
  refl : ∀ n, R n n

theorem relates_eq : Relates (· = ·) := ⟨Eq.le, fun _ => rfl⟩

theorem relates_le : Relates (· ≤ ·) := ⟨id, le_refl⟩

/-- The entity is in the run queue if its state says so, and only once. -/
def Mirrors (R : ℕ → ℕ → Prop) (k : Sys A P) (e : T) : Prop :=
  R (k.queued e) (if (k._state e).queued then 1 else 0)

variable {R : ℕ → ℕ → Prop}

namespace Frame

/-- The entity that a `set_entity_state` has begun to change. -/
def midway : Frame T P → Option T
  | compare e _ _ => some e
  | add_to_runqueue e _ => some e
  | remove_from_runqueue e _ => some e
  | store e _ => some e
  | _ => none

/-- What holds there of the entity. -/
def Midway (R : ℕ → ℕ → Prop) (k : Sys A P) : Frame T P → Prop
  | compare e state rest => Mirrors R k e ∧ k._state e ≠ state ∧
      ∃ done, olds state = done ++ rest ∧ k._state e ∉ done
  | add_to_runqueue e state => k.queued e = 0 ∧ state = RUNNABLE
  | remove_from_runqueue e state => R (k.queued e) 1 ∧ (k._state e).queued = true ∧
      (state = STOPPED ∨ state = SLEEPING)
  | store e state => R (k.queued e) (if state.queued then 1 else 0)
  | _ => True

variable {f : Frame T P} {fs : List (Frame T P)} {k k' : Sys A P} {e : T}

omit [DecidableEq P] in
theorem midway_none (h : f.midway = none) : Midway R k f := by
  cases f with
  | compare | add_to_runqueue | remove_from_runqueue | store => cases h
  | _ => trivial

omit [DecidableEq P] in
theorem schedule_queued (h : k.schedule = .ok k') (e : T) :
    k'.queued e = k.queued e ∧ k'._state e = k._state e := by
  obtain ⟨-, rfl⟩ | ⟨-, rfl, -⟩ := Sys.schedule_ok h
  · exact ⟨rfl, rfl⟩
  · exact ⟨A.count_pick _ _ _, rfl⟩

/-- No step touches an entity that it is not midway with. -/
theorem step_other (h : f.step k = .ok (fs, k')) (he : f.midway ≠ some e)
    (hcount : ∀ x s, f = .remove_from_runqueue x s → k.queued x ≤ 1) :
    k'.queued e = k.queued e ∧ k'._state e = k._state e := by
  cases does h with
  | schedules hs => exact schedule_queued hs e
  | add_to_runqueue =>
    refine ⟨?_, rfl⟩
    unfold Sys.queued
    rw [A.count_add, if_neg (by simpa [midway] using he), Nat.add_zero]
  | remove_from_runqueue =>
    refine ⟨?_, rfl⟩
    unfold Sys.queued
    rw [A.count_remove _ _ _ (hcount _ _ rfl), if_neg (by simpa [midway] using he)]
  | store =>
    have hx : e ≠ _ := fun hx => he (congrArg some hx.symm)
    exact ⟨rfl, Function.update_of_ne hx _ _⟩
  | _ => exact ⟨rfl, rfl⟩

/-- A change goes on step by step, and leaves the mirror in order. -/
theorem step_midway (hR : Relates R) (h : f.step k = .ok (fs, k')) (he : f.midway = some e)
    (hm : Midway R k f) :
    (∃ g, fs = [g] ∧ g.midway = some e ∧ Midway R k' g) ∨
      (∃ state, f = .store e state ∧ fs = [.trigger (.thread e)] ∧ k' = k.set_state e state ∧
        Mirrors R k' e) := by
  cases does h with
  | compared hs =>
    cases he
    obtain ⟨hmir, hne, done, hdone, hnot⟩ := hm
    refine .inl ⟨_, rfl, rfl, ?_⟩
    rw [List.append_nil] at hdone
    subst hdone
    -- the old state is of the same side as the new one
    simp only [Midway]
    unfold Mirrors at hmir
    rename_i state
    cases state <;> cases hs : k._state e <;> simp_all [olds, SchedulingEntityState.queued]
  | differs hold =>
    cases he
    obtain ⟨hmir, hne, done, hdone, hnot⟩ := hm
    refine .inl ⟨_, rfl, rfl, hmir, hne, done ++ [_], by simpa using hdone, ?_⟩
    simp only [List.mem_append, List.mem_singleton, not_or]
    exact ⟨hnot, hold⟩
  | adds hold =>
    cases he
    obtain ⟨hmir, -, done, hdone, -⟩ := hm
    have hle := hR.le hmir
    have hmem : k._state e ∈ olds RUNNABLE := by simp [hdone, hold]
    refine .inl ⟨_, rfl, rfl, ?_, rfl⟩
    simp only [olds, List.mem_cons, List.not_mem_nil, or_false] at hmem
    rcases hmem with hs | hs <;> rw [hs] at hle <;> exact Nat.le_zero.mp hle
  | removes hold hs =>
    cases he
    obtain ⟨hmir, -, done, hdone, -⟩ := hm
    have hq : (k._state e).queued = true := by
      rename_i state old rest
      have hmem : k._state e ∈ olds state := by simp [hdone, hold]
      have hmem : k._state e = RUNNABLE ∨ k._state e = RUNNING := by
        rcases hs with rfl | rfl <;> simpa [olds] using hmem
      rcases hmem with hs | hs <;> rw [hs] <;> rfl
    unfold Mirrors at hmir
    rw [if_pos hq] at hmir
    exact .inl ⟨_, rfl, rfl, hmir, hq, hs⟩
  | runs hold =>
    cases he
    obtain ⟨hmir, -, done, hdone, -⟩ := hm
    have hmem : k._state e ∈ olds RUNNING := by simp [hdone, hold]
    refine .inl ⟨_, rfl, rfl, ?_⟩
    obtain hs : k._state e = RUNNABLE := by simpa [olds] using hmem
    unfold Mirrors at hmir
    rw [hs] at hmir
    exact hmir
  | add_to_runqueue =>
    cases he
    obtain ⟨hq, rfl⟩ := hm
    refine .inl ⟨_, rfl, rfl, ?_⟩
    simp only [Midway, Sys.queued] at *
    rw [A.count_add, hq, if_pos rfl]
    exact hR.refl 1
  | remove_from_runqueue =>
    cases he
    obtain ⟨hq, -, hs⟩ := hm
    refine .inl ⟨_, rfl, rfl, ?_⟩
    simp only [Midway, Sys.queued] at *
    rw [A.count_remove _ _ _ (hR.le hq), if_pos rfl]
    rcases hs with rfl | rfl <;> exact hR.refl 0
  | store =>
    cases he
    refine .inr ⟨_, rfl, rfl, rfl, ?_⟩
    have hs : ∀ state, (k.set_state e state)._state e = state := fun _ => Function.update_self _ _ _
    unfold Mirrors
    rw [hs]
    exact hm
  | _ => cases he

/-- Only `set_entity_state` begins a change. -/
theorem step_begins (h : f.step k = .ok (fs, k')) (he : f.midway = none)
    (hm : ∀ e s, f = .set_entity_state e s → k._state e ≠ s → Mirrors R k e) :
    (∀ g ∈ fs, g.midway = none) ∨ ∃ e s g, f = .set_entity_state e s ∧ fs = [g] ∧
      g.midway = some e ∧ k' = k ∧ Midway R k' g := by
  cases does h with
  | begins hne => exact .inr ⟨_, _, _, rfl, rfl, rfl, rfl, hm _ _ rfl hne, hne, [], rfl, by simp⟩
  | compared | differs | adds | removes | runs => cases he
  | add_to_runqueue | remove_from_runqueue | store => cases he
  | _ => exact .inl (by simp [midway])

end Frame

/-! ## Sequences of transitions -/

namespace Mirror

open Infos.Kernel.Frame

inductive Call (T : Type) where
  | set_entity_state (entity : T) (state : SchedulingEntityState)
  | pick_next_entity
  | step

/-- One transition after another. A step belongs to the transition that was begun last, or to the
wake-ups inside it. -/
def system (A : SchedulingAlgorithm T) (P : Type) [DecidableEq P] :
    System (List (Frame T P) × Sys A P) (Call T) Fault where
  start c := c.1 = [] ∧ (∀ e, c.2._state e = STOPPED) ∧ c.2.runqueue = A.empty
  allowed
    | c, .step => c.1 ≠ []
    | c, _ => c.1 = []
  step
    | (fs, k), .set_entity_state entity state => .ok (.set_entity_state entity state :: fs, k)
    | (fs, k), .pick_next_entity =>
      .ok (fs, { k with runqueue := (A.pick_next_entity k._cpu_runtime k.runqueue).2 })
    | ([], k), .step => .ok ([], k)
    | (f :: fs, k), .step => (f.step k).map fun c => (c.1 ++ fs, c.2)

/-- Where a change goes on, it is the first thing to go on. -/
structure Inv (R : ℕ → ℕ → Prop) (fs : List (Frame T P)) (k : Sys A P) : Prop where
  below : ∀ f ∈ fs.tail, f.midway = none
  first : ∀ f ∈ fs.head?, Midway R k f
  mirrors : ∀ e, (∀ f ∈ fs.head?, f.midway ≠ some e) → Mirrors R k e

variable {fs : List (Frame T P)} {k k' : Sys A P}

omit [DecidableEq P] in
/-- The entity of a change that is midway is not in the run queue twice. -/
theorem midway_le {f : Frame T P} {e : T} {s : SchedulingEntityState} (hR : Relates R)
    (h : Midway R k f) (he : f = .remove_from_runqueue e s) : k.queued e ≤ 1 := by
  subst he
  exact hR.le h.1

theorem inv_step {f : Frame T P} {gs : List (Frame T P)} (hR : Relates R) (h : Inv R (f :: fs) k)
    (hs : f.step k = .ok (gs, k')) : Inv R (gs ++ fs) k' := by
  have hfirst := h.first f rfl
  have hbelow : ∀ g ∈ fs, g.midway = none := h.below
  have hother : ∀ e, f.midway ≠ some e → Mirrors R k' e := by
    intro e he
    obtain ⟨hq, hst⟩ := step_other hs he fun x s hf => midway_le hR hfirst hf
    unfold Mirrors
    rw [hq, hst]
    exact h.mirrors e (by simpa using he)
  -- all that is pushed has begun nothing yet
  have hquiet : (∀ g ∈ gs, g.midway = none) → (∀ e, Mirrors R k' e) → Inv R (gs ++ fs) k' := by
    intro hgs hmir
    have hall : ∀ g ∈ gs ++ fs, g.midway = none := by
      intro g hg
      exact (List.mem_append.mp hg).elim (hgs g) (hbelow g)
    refine ⟨fun g hg => hall g (List.mem_of_mem_tail hg), fun g hg => ?_, fun e _ => hmir e⟩
    exact midway_none (hall g (List.mem_of_head? hg))
  cases he : f.midway with
  | none =>
    have hmir : ∀ e, Mirrors R k' e := fun e => hother e (by simp [he])
    rcases step_begins hs he fun e _ _ _ => h.mirrors e (by simp [he]) with
      hgs | ⟨e, s, g, rfl, rfl, hg, rfl, hmid⟩
    · exact hquiet hgs hmir
    · exact ⟨hbelow, by simpa using hmid, fun x _ => hmir x⟩
  | some e =>
    rcases step_midway hR hs he hfirst with ⟨g, rfl, hg, hmid⟩ | ⟨s, rfl, rfl, rfl, hmir⟩
    · refine ⟨hbelow, by simpa using hmid, fun x hx => hother x ?_⟩
      rw [he, ← hg]
      exact hx g rfl
    · refine hquiet (by simp [midway]) fun x => ?_
      by_cases hx : e = x
      · exact hx ▸ hmir
      · exact hother x (by simpa [midway] using hx)

theorem inv_reachable (h : (system A P).Reachable (fs, k)) : Inv (· = ·) fs k := by
  refine h.preserves (I := fun c => Inv (· = ·) c.1 c.2) ?_ ?_
  · rintro ⟨fs, k⟩ ⟨rfl, hst, hq⟩
    refine ⟨by simp, by simp, fun e _ => ?_⟩
    have hq : k.runqueue = A.empty := hq
    unfold Mirrors Sys.queued
    rw [show k._state e = STOPPED from hst e, hq, A.entities_empty]
    rfl
  · rintro ⟨fs, k⟩ c ⟨fs', k'⟩ hi hc hs
    cases c with
    | set_entity_state e s =>
      obtain rfl : fs = [] := hc
      cases hs
      exact ⟨by simp, by simp [Midway], fun e _ => hi.mirrors e (by simp)⟩
    | pick_next_entity =>
      obtain rfl : fs = [] := hc
      cases hs
      refine ⟨by simp, by simp, fun e _ => ?_⟩
      have := hi.mirrors e (by simp)
      unfold Mirrors Sys.queued at *
      dsimp only
      rw [A.count_pick, this]
    | step =>
      cases fs with
      | nil => exact absurd rfl hc
      | cons f fs =>
        have hs : (f.step k).map (fun c => (c.1 ++ fs, c.2)) = .ok (fs', k') := hs
        cases hstep : f.step k with
        | error e => simp [hstep, Except.map] at hs
        | ok c =>
          rw [hstep] at hs
          cases hs
          exact inv_step relates_eq hi hstep

/-- Between two transitions, and between those inside one, an entity is in the run queue once if it
is runnable or running, and not at all otherwise. What is picked is runnable or running. -/
theorem mirrored (h : (system A P).Reachable (fs, k)) (between : ∀ f ∈ fs.head?, f.midway = none) :
    (∀ e, (A.entities k.runqueue).count e =
      if k._state e = RUNNABLE ∨ k._state e = RUNNING then 1 else 0) ∧
      ∀ e ∈ (A.pick_next_entity k._cpu_runtime k.runqueue).1,
        k._state e = RUNNABLE ∨ k._state e = RUNNING := by
  have hmir : ∀ e, (A.entities k.runqueue).count e =
      if k._state e = RUNNABLE ∨ k._state e = RUNNING then 1 else 0 := by
    intro e
    have := (inv_reachable h).mirrors e fun f hf => by simp [between f hf]
    unfold Mirrors Sys.queued at this
    rw [this]
    cases k._state e <;> simp [SchedulingEntityState.queued]
  refine ⟨hmir, fun e he => ?_⟩
  have hmem := List.count_pos_iff.mpr (A.pick_mem _ _ e he)
  rw [hmir] at hmem
  by_contra hn
  simp [hn] at hmem

theorem mirrored_once_started : ∃ k : Sys (RoundRobinScheduler ℕ).algorithm Empty,
    (system _ Empty).Reachable ([.trigger (.thread 1)], k) ∧
      ((RoundRobinScheduler ℕ).algorithm.entities k.runqueue).count 1 =
        if k._state 1 = RUNNABLE ∨ k._state 1 = RUNNING then 1 else 0 := by
  have h : (system (RoundRobinScheduler ℕ).algorithm Empty).Reachable ([.trigger (.thread 1)], _) :=
    ⟨([], { Sys.boot _ 0 [] Empty.elim with _state := fun _ => STOPPED }),
      [.set_entity_state 1 RUNNABLE, .step, .step, .step, .step], ⟨rfl, fun _ => rfl, rfl⟩,
      .cons rfl rfl <| .cons (List.cons_ne_nil _ _) rfl <| .cons (List.cons_ne_nil _ _) rfl <|
      .cons (List.cons_ne_nil _ _) rfl <| .cons (List.cons_ne_nil _ _) rfl <| .nil _⟩
  exact ⟨_, h, (mirrored h (by simp [midway])).1 1⟩

end Mirror

end Infos.Kernel
