import Infos.Kernel.Machine

/-!
# Changes of state that do not overlap

Threads may be interrupted while they change the state of an entity. If nobody else begins to change
the same entity meanwhile, the run queue mirrors the states of all entities that no change is midway
with.
-/

namespace Infos.Kernel

open SchedulingEntityState Infos.Kernel.Frame

variable {T P : Type} [DecidableEq T] [DecidableEq P] {A : SchedulingAlgorithm T}

namespace Frame

/-- The frame is part of waking. -/
def Waking (f : Frame T P) : Prop :=
  (∃ event, f = .trigger event ∨ (∃ node, f = .wake_at event node) ∨
    (∃ node, f = .wake_next event node) ∨ f = .clear event) ∨ ∃ e, f.goal = some (e, RUNNABLE)

variable {f g : Frame T P} {fs : List (Frame T P)} {k k' : Sys A P} {e : T}

theorem waking_step (h : f.step k = .ok (fs, k')) (hf : f.Waking) : ∀ g ∈ fs, g.Waking := by
  have hgoal : ∀ {x s}, f.goal = some (x, s) → s = RUNNABLE := by
    intro x s hg
    rcases hf with ⟨event, rfl | ⟨node, rfl⟩ | ⟨node, rfl⟩ | rfl⟩ | ⟨e, he⟩
    · cases hg
    · cases hg
    · cases hg
    · cases hg
    · rw [hg] at he
      exact congrArg Prod.snd (Option.some.inj he)
  have hplain : f.goal = none → ∃ event, f = .trigger event ∨ (∃ node, f = .wake_at event node) ∨
      (∃ node, f = .wake_next event node) ∨ f = .clear event := by
    intro hg
    rcases hf with h | ⟨e, he⟩
    · exact h
    · rw [hg] at he
      cases he
  cases does h with
  | begins | compared | differs | removes => simpa [Waking, goal] using hgoal rfl
  | adds | start | wake_up => simp [Waking, goal]
  | runs => cases hgoal rfl
  | add_to_runqueue | remove_from_runqueue => simpa [Waking, goal] using hgoal rfl
  | stop | sleep => cases hgoal rfl
  | store | trigger | wake_end | wake | wake_next => simp [Waking, goal]
  | already | clear | stays | schedules | all_stopped | ended | enable_interrupts => simp
  | wait | yields | terminate | stop_next | sys_wait_proc | sys_join_thread | not_ended =>
    simpa using hplain rfl

omit [DecidableEq P] in
/-- What holds midway is about one entity only. -/
theorem Midway.congr {R : ℕ → ℕ → Prop} (h : Midway R k f)
    (hk : ∀ e, f.midway = some e → k'.queued e = k.queued e ∧ k'._state e = k._state e) :
    Midway R k' f := by
  cases f <;> simp only [Midway, midway, Mirrors, Option.some.injEq, forall_eq'] at * <;>
    first | trivial | rwa [hk.1, hk.2] | rwa [hk.1]

omit [DecidableEq T] [DecidableEq P] in
/-- A frame has its entity in common with what it is midway with. -/
theorem goal_of_midway (h : f.midway = some e) : ∃ s, f.goal = some (e, s) := by
  cases f <;> simp_all [midway, goal]

end Frame

namespace Machine

/-- No change of an entity is begun while another one is midway with it. -/
def NoOverlap (m : Machine A P) (a : Action T P) : Prop :=
  a = .run → ∀ e s fs, m.stack m.running = .set_entity_state e s :: fs → m.sys._state e ≠ s →
    ∀ c, ∀ f ∈ (m.stack c).head?, f.midway ≠ some e

omit [DecidableEq P] in
theorem NoOverlap.of_single {m : Machine A P} (h : ∀ c, c ≠ m.running → m.stack c = []) :
    m.NoOverlap .run := by
  intro _ e s fs hs _ c f hf
  by_cases hc : c = m.running
  · rw [hc, hs] at hf
    cases hf
    simp [midway]
  · simp [h c hc] at hf

/-- The frames and what they have to do with the idle thread. -/
structure Sound (m : Machine A P) : Prop where
  goals : ∀ c, ∀ f ∈ m.stack c, ∀ g ∈ f.goal, g.1 ≠ m.sys._idle_entity ∧ g.2 ≠ RUNNING
  handler : ∀ f ∈ m.stack none, f.Waking
  idle_stack : m.stack (some m.sys._idle_entity) = []
  idle_waiters : ∀ event, m.sys._idle_entity ∉ (m.sys._waiters event).waiters
  idle_threads : ∀ p, m.sys._idle_entity ∉ m.sys._threads p

/-- The changes that are midway, and the run queue. -/
structure Base (m : Machine A P) : Prop extends Sound m where
  below : ∀ c, ∀ f ∈ (m.stack c).tail, f.midway = none
  first : ∀ c, ∀ f ∈ (m.stack c).head?, Midway (· = ·) m.sys f
  alone : ∀ c c' f f' e, f ∈ (m.stack c).head? → f' ∈ (m.stack c').head? →
    f.midway = some e → f'.midway = some e → c = c'
  mirrors : ∀ e, e ≠ m.sys._idle_entity → (∀ c, ∀ f ∈ (m.stack c).head?, f.midway ≠ some e) →
    Mirrors (· = ·) m.sys e
  idle_state : m.sys._state m.sys._idle_entity = RUNNABLE
  idle_queued : m.sys.queued m.sys._idle_entity = 0
  states : ∀ e, m.sys._state e ≠ RUNNING

variable {m m' : Machine A P} {f : Frame T P} {fs gs : List (Frame T P)} {k : Sys A P}
  {c : Option T} {a : Action T P}

omit [DecidableEq P] in
/-- A thread that is in the run queue and is not runnable is being changed. -/
theorem Base.runnable_of_queued (h : Base m) {e : T} (he : m.sys.queued e ≠ 0)
    (hmid : ∀ c, ∀ f ∈ (m.stack c).head?, f.midway ≠ some e) : m.sys._state e = RUNNABLE := by
  have hidle : e ≠ m.sys._idle_entity := by
    rintro rfl
    exact he h.idle_queued
  have hmir := h.mirrors e hidle hmid
  have hst := h.states e
  unfold Mirrors at hmir
  cases hs : m.sys._state e <;> simp_all [SchedulingEntityState.queued]

/-! ## The frames -/

omit [DecidableEq P] in
theorem Sound.running_ne (h : Sound m) (hs : m.stack m.running = f :: fs) :
    m.running ≠ some m.sys._idle_entity := by
  intro he
  rw [he, h.idle_stack] at hs
  cases hs

omit [DecidableEq P] in
/-- Where the current thread is named, it is not the idle one. -/
theorem Sound.current_ne (h : Sound m) (hs : m.stack m.running = f :: fs) (hf : ¬f.Waking) :
    m.running = some m.sys.current_thread ∧ m.sys.current_thread ≠ m.sys._idle_entity := by
  have hr : m.running = some m.sys.current_thread := by
    unfold running at hs ⊢
    split at hs
    next hn => exact if_pos hn
    next hn => exact absurd (h.handler f (hs ▸ List.mem_cons_self)) hf
  refine ⟨hr, fun he => h.running_ne hs ?_⟩
  rw [hr, he]

theorem goals_step (h : Sound m) (hs : m.stack m.running = f :: fs)
    (hstep : f.step m.sys = .ok (gs, k)) :
    ∀ g ∈ gs, ∀ x ∈ g.goal, x.1 ≠ m.sys._idle_entity ∧ x.2 ≠ RUNNING := by
  have hf := h.goals m.running f (hs ▸ List.mem_cons_self)
  cases does hstep with
  | begins | compared | differs | adds | removes | runs | start | wake_up =>
    simpa [goal] using hf _ rfl
  | add_to_runqueue | remove_from_runqueue | stop | sleep => simpa [goal] using hf _ rfl
  | wake hn =>
    rename_i event node n rest
    have hw : n.2 ∈ (m.sys._waiters event).waiters := WakeQueue.mem_waiters (by rw [hn]; simp)
    have hne : n.2 ≠ m.sys._idle_entity := fun he => h.idle_waiters event (he ▸ hw)
    simpa [goal] using hne
  | wait => simpa [goal] using (h.current_ne hs (by simp [Waking, goal])).2
  | stop_next ht =>
    simpa [goal] using fun he => h.idle_threads _ (he ▸ List.mem_of_getElem? ht)
  | _ => simp [goal]

theorem idle_waiters_step (h : Sound m) (hs : m.stack m.running = f :: fs)
    (hstep : f.step m.sys = .ok (gs, k)) (event : Event T P) :
    m.sys._idle_entity ∉ (k._waiters event).waiters := by
  cases does hstep with
  | schedules hk =>
    obtain ⟨-, rfl⟩ | ⟨-, rfl, -⟩ := Sys.schedule_ok hk <;> exact h.idle_waiters event
  | clear =>
    rename_i other
    by_cases ho : event = other
    · subst ho
      simp [Sys.set_waiters]
    · simpa [Sys.set_waiters, ho] using h.idle_waiters event
  | wait =>
    rename_i other
    by_cases ho : event = other
    · subst ho
      have hc := (h.current_ne hs (by simp [Waking, goal])).2
      simpa [Sys.set_waiters] using ⟨h.idle_waiters event, hc.symm⟩
    · simpa [Sys.set_waiters, ho] using h.idle_waiters event
  | _ => exact h.idle_waiters event

theorem sound_run (h : Sound m) (hs : m.stack m.running = f :: fs)
    (hstep : f.step m.sys = .ok (gs, k)) :
    Sound (A := A) ⟨k, Function.update m.stack m.running (gs ++ fs)⟩ := by
  obtain ⟨hthreads, hidle, -⟩ := step_fixed hstep
  have hmem : ∀ g ∈ fs, g ∈ m.stack m.running := fun g hg => hs ▸ List.mem_cons_of_mem _ hg
  refine ⟨fun c g hg => ?_, fun g hg => ?_, ?_, fun event => ?_, fun p => ?_⟩
  · dsimp only at hg ⊢
    rw [hidle]
    by_cases hc : c = m.running
    · subst hc
      rw [Function.update_self] at hg
      rcases List.mem_append.mp hg with hg | hg
      · exact goals_step h hs hstep g hg
      · exact h.goals _ g (hmem g hg)
    · rw [Function.update_of_ne hc] at hg
      exact h.goals c g hg
  · dsimp only at hg
    by_cases hc : none = m.running
    · rw [← hc, Function.update_self] at hg
      rw [← hc] at hs hmem
      rcases List.mem_append.mp hg with hg | hg
      · exact waking_step hstep (h.handler f (hs ▸ List.mem_cons_self)) g hg
      · exact h.handler g (hmem g hg)
    · rw [Function.update_of_ne hc] at hg
      exact h.handler g hg
  · dsimp only
    rw [hidle, Function.update_of_ne (h.running_ne hs).symm]
    exact h.idle_stack
  · dsimp only
    rw [hidle]
    exact idle_waiters_step h hs hstep event
  · dsimp only
    rw [hidle, hthreads]
    exact h.idle_threads p

/-! ## One step -/

theorem states_step (h : Sound m) (hst : ∀ e, m.sys._state e ≠ RUNNING)
    (hs : m.stack m.running = f :: fs) (hstep : f.step m.sys = .ok (gs, k)) (e : T) :
    k._state e ≠ RUNNING := by
  cases does hstep with
  | schedules hk =>
    rw [(schedule_queued hk e).2]
    exact hst e
  | store =>
    rename_i x s
    have hne : s ≠ RUNNING := (h.goals m.running _ (hs ▸ List.mem_cons_self) _ rfl).2
    show Function.update m.sys._state x s e ≠ RUNNING
    by_cases hx : e = x
    · rwa [hx, Function.update_self]
    · rw [Function.update_of_ne hx]
      exact hst e
  | _ => exact hst e

theorem Base.other (h : Base m) (hs : m.stack m.running = f :: fs)
    (hstep : f.step m.sys = .ok (gs, k)) {e : T} (he : f.midway ≠ some e) :
    k.queued e = m.sys.queued e ∧ k._state e = m.sys._state e := by
  have hfirst := h.first m.running f (by rw [hs]; rfl)
  exact step_other hstep he fun x s hf => Mirror.midway_le relates_eq hfirst hf

omit [DecidableEq P] in
theorem Base.midway_ne_idle (h : Base m) (hs : m.stack m.running = f :: fs) :
    f.midway ≠ some m.sys._idle_entity := by
  intro he
  obtain ⟨s, hg⟩ := goal_of_midway he
  exact (h.goals _ f (hs ▸ List.mem_cons_self) _ hg).1 rfl

omit [DecidableEq P] in
/-- What is midway elsewhere is midway with something else. -/
theorem Base.elsewhere (h : Base m) (hs : m.stack m.running = f :: fs) (hc : c ≠ m.running)
    (hg : g ∈ (m.stack c).head?) {e : T} (he : g.midway = some e) : f.midway ≠ some e :=
  fun hf => hc (h.alone c _ g f e hg (by rw [hs]; rfl) he hf)

/-- What lies on the stack after a step decides. -/
theorem base_of_head (h : Base m) (hs : m.stack m.running = f :: fs)
    (hstep : f.step m.sys = .ok (gs, k)) (htail : ∀ g ∈ (gs ++ fs).tail, g.midway = none)
    (hnew : ∀ g ∈ (gs ++ fs).head?, Midway (· = ·) k g ∧ ∀ e, g.midway = some e →
      ∀ c, c ≠ m.running → ∀ g' ∈ (m.stack c).head?, g'.midway ≠ some e)
    (hmid : ∀ e, f.midway = some e → (∀ g ∈ (gs ++ fs).head?, g.midway ≠ some e) →
      Mirrors (· = ·) k e) :
    Base (A := A) ⟨k, Function.update m.stack m.running (gs ++ fs)⟩ := by
  have hidle := (step_fixed hstep).2.1
  have hmidle := h.other hs hstep (h.midway_ne_idle hs)
  refine { sound_run h.toSound hs hstep with
    below := fun c g hg => ?_, first := fun c g hg => ?_, alone := fun c c' g g' e hg hg' he he' => ?_,
    mirrors := fun e hei hc => ?_, idle_state := ?_, idle_queued := ?_,
    states := states_step h.toSound h.states hs hstep }
  · dsimp only at hg
    by_cases hc : c = m.running
    · rw [hc, Function.update_self] at hg
      exact htail g hg
    · rw [Function.update_of_ne hc] at hg
      exact h.below c g hg
  · dsimp only at hg
    by_cases hc : c = m.running
    · rw [hc, Function.update_self] at hg
      exact (hnew g hg).1
    · rw [Function.update_of_ne hc] at hg
      exact (h.first c g hg).congr fun e he => h.other hs hstep (h.elsewhere hs hc hg he)
  · dsimp only at hg hg'
    by_cases hc : c = m.running
    · rw [hc, Function.update_self] at hg
      by_contra hcc
      have hc' : c' ≠ m.running := fun h' => hcc (hc.trans h'.symm)
      rw [Function.update_of_ne hc'] at hg'
      exact (hnew g hg).2 e he c' hc' g' hg' he'
    · rw [Function.update_of_ne hc] at hg
      by_cases hc' : c' = m.running
      · rw [hc', Function.update_self] at hg'
        exact absurd he ((hnew g' hg').2 e he' c hc g hg)
      · rw [Function.update_of_ne hc'] at hg'
        exact h.alone c c' g g' e hg hg' he he'
  · dsimp only at hei hc ⊢
    rw [hidle] at hei
    by_cases hfe : f.midway = some e
    · refine hmid e hfe fun g hg => hc m.running g ?_
      rwa [Function.update_self]
    · obtain ⟨hq, hst⟩ := h.other hs hstep hfe
      unfold Mirrors
      rw [hq, hst]
      refine h.mirrors e hei fun c g hg => ?_
      by_cases hcr : c = m.running
      · rw [hcr, hs] at hg
        cases hg
        exact hfe
      · exact hc c g (by rwa [Function.update_of_ne hcr])
  · dsimp only
    rw [hidle, hmidle.2]
    exact h.idle_state
  · dsimp only
    rw [hidle, hmidle.1]
    exact h.idle_queued

theorem base_run (h : Base m) (hno : m.NoOverlap .run) (hs : m.stack m.running = f :: fs)
    (hstep : f.step m.sys = .ok (gs, k)) :
    Base (A := A) ⟨k, Function.update m.stack m.running (gs ++ fs)⟩ := by
  have hfirst := h.first m.running f (by rw [hs]; rfl)
  have hbelow : ∀ g ∈ fs, g.midway = none := by
    have := h.below m.running
    rwa [hs] at this
  have hquiet : (∀ g ∈ gs, g.midway = none) → (∀ e, f.midway = some e → Mirrors (· = ·) k e) →
      Base (A := A) ⟨k, Function.update m.stack m.running (gs ++ fs)⟩ := by
    intro hgs hmid
    have hnone : ∀ g ∈ gs ++ fs, g.midway = none :=
      fun g hg => (List.mem_append.mp hg).elim (hgs g) (hbelow g)
    refine base_of_head h hs hstep (fun g hg => hnone g (List.mem_of_mem_tail hg)) (fun g hg => ?_)
      fun e he _ => hmid e he
    have hg := hnone g (List.mem_of_head? hg)
    exact ⟨midway_none hg, fun e he => by simp [hg] at he⟩
  cases he : f.midway with
  | none =>
    have hmir : ∀ e s, f = .set_entity_state e s → m.sys._state e ≠ s →
        Mirrors (· = ·) m.sys e := by
      rintro e s rfl hes
      exact h.mirrors e (h.goals _ _ (hs ▸ List.mem_cons_self) _ rfl).1 (hno rfl e s fs hs hes)
    rcases step_begins hstep he hmir with hgs | ⟨e, s, g, rfl, rfl, hg, rfl, hmid⟩
    · exact hquiet hgs (by simp [he])
    · have hes : m.sys._state e ≠ s := by
        intro hes
        simp [Frame.step, hes] at hstep
      refine base_of_head h hs hstep hbelow ?_ (by simp [he])
      rintro _ ⟨⟩
      refine ⟨hmid, fun e' he' c _ g' hg' => ?_⟩
      obtain rfl : e = e' := Option.some.inj (hg.symm.trans he')
      exact hno rfl e s fs hs hes c g' hg'
  | some e =>
    rcases step_midway relates_eq hstep he hfirst with ⟨g, rfl, hg, hmid⟩ | ⟨s, rfl, rfl, rfl, hmir⟩
    · refine base_of_head h hs hstep hbelow ?_ fun e' he' hg' => ?_
      · rintro _ ⟨⟩
        refine ⟨hmid, fun e' he' c hc g' hg' hge' => ?_⟩
        obtain rfl : e = e' := Option.some.inj (hg.symm.trans he')
        exact h.elsewhere hs hc hg' hge' he
      · exact absurd (hg.trans (he.symm.trans he')) (hg' g rfl)
    · refine hquiet (by simp [midway]) fun e' he' => ?_
      obtain rfl : e = e' := Option.some.inj he'
      exact hmir

/-! ## The other actions -/

omit [DecidableEq T] [DecidableEq P] in
theorem entry_midway (h : f.Entry) : f.midway = none := by
  cases f <;> first | rfl | cases h

omit [DecidableEq T] [DecidableEq P] in
theorem entry_goal (h : f.Entry) : ∀ g ∈ f.goal, g.2 ≠ RUNNING := by
  cases f <;> simp_all [Frame.Entry, goal]

/-- What the frames look at is the same, and so are the stacks, but for a frame that has been put on
an empty one. -/
structure Same (m m' : Machine A P) : Prop where
  idle_entity : m'.sys._idle_entity = m.sys._idle_entity
  state : m'.sys._state = m.sys._state
  waiters : m'.sys._waiters = m.sys._waiters
  terminated : m'.sys._terminated = m.sys._terminated
  queued : ∀ e, m'.sys.queued e = m.sys.queued e
  stack : ∀ c, m'.stack c = m.stack c ∨ m.stack c = [] ∧ ∃ f, m'.stack c = [f] ∧
    (f.Entry ∨ ∃ n, f = .trigger (.driver n))

omit [DecidableEq P] in
theorem Same.head (h : Same m m') (hf : f ∈ (m'.stack c).head?) :
    f ∈ (m.stack c).head? ∨ f.midway = none := by
  rcases h.stack c with hc | ⟨-, g, hc, hg⟩
  · exact .inl (hc ▸ hf)
  · rw [hc] at hf
    cases hf
    rcases hg with hg | ⟨n, rfl⟩
    · exact .inr (entry_midway hg)
    · exact .inr rfl

omit [DecidableEq P] in
theorem Base.same (h : Base m) (hm : Same m m') (hsound : Sound m') : Base m' := by
  refine { hsound with
    below := fun c f hf => ?_, first := fun c f hf => ?_,
    alone := fun c c' f f' e hf hf' he he' => ?_, mirrors := fun e hei hc => ?_,
    idle_state := ?_, idle_queued := ?_, states := fun e => ?_ }
  · rcases hm.stack c with hc | ⟨-, g, hc, -⟩
    · exact h.below c f (hc ▸ hf)
    · simp [hc] at hf
  · rcases hm.head hf with hf | hf
    · exact (h.first c f hf).congr fun e _ => ⟨hm.queued e, by rw [hm.state]⟩
    · exact midway_none hf
  · rcases hm.head hf with hf | hf
    · rcases hm.head hf' with hf' | hf'
      · exact h.alone c c' f f' e hf hf' he he'
      · simp [hf'] at he'
    · simp [hf] at he
  · rw [hm.idle_entity] at hei
    unfold Mirrors
    rw [hm.queued, hm.state]
    refine h.mirrors e hei fun c f hf => hc c f ?_
    rcases hm.stack c with hc | ⟨hc, -⟩
    · rwa [hc]
    · simp [hc] at hf
  · rw [hm.idle_entity, hm.state]
    exact h.idle_state
  · rw [hm.idle_entity, hm.queued]
    exact h.idle_queued
  · rw [hm.state]
    exact h.states e

omit [DecidableEq P] in
/-- Frames are put on the stack of a thread that is not the idle one, or on the handler's. -/
theorem Sound.push (h : Sound m) (fs : List (Frame T P)) (hc : c ≠ some m.sys._idle_entity)
    (hgoals : ∀ f ∈ fs, ∀ g ∈ f.goal, g.1 ≠ m.sys._idle_entity ∧ g.2 ≠ RUNNING)
    (hwaking : c = none → ∀ f ∈ fs, f.Waking) (hk : k._idle_entity = m.sys._idle_entity)
    (hw : k._waiters = m.sys._waiters) (ht : k._threads = m.sys._threads) :
    Sound (A := A) ⟨k, Function.update m.stack c fs⟩ := by
  refine ⟨fun c' f hf => ?_, fun f hf => ?_, ?_, fun event => ?_, fun p => ?_⟩
  all_goals dsimp only at *
  · rw [hk]
    by_cases hcc : c' = c
    · rw [hcc, Function.update_self] at hf
      exact hgoals f hf
    · rw [Function.update_of_ne hcc] at hf
      exact h.goals c' f hf
  · by_cases hcc : none = c
    · rw [← hcc, Function.update_self] at hf
      exact hwaking hcc.symm f hf
    · rw [Function.update_of_ne hcc] at hf
      exact h.handler f hf
  · rw [hk, Function.update_of_ne hc.symm]
    exact h.idle_stack
  · rw [hk, hw]
    exact h.idle_waiters event
  · rw [hk, ht]
    exact h.idle_threads p

/-- Only the steps of the frames change states or the run queue. -/
theorem same_step (ha : m.allowed a) (hs : m.step a = .ok m') (hne : a ≠ .run) : Same m m' := by
  cases a with
  | run => exact absurd rfl hne
  | call f i =>
    cases hs
    obtain ⟨⟨-, hempty⟩, -, hentry, -⟩ := ha
    refine ⟨rfl, rfl, rfl, rfl, fun _ => rfl, fun c => ?_⟩
    by_cases hc : c = some m.sys.current_thread
    · subst hc
      exact .inr ⟨hempty, f, Function.update_self _ _ _, .inl hentry⟩
    · exact .inl (Function.update_of_ne hc _ _)
  | lapic_timer =>
    obtain ⟨k, hk, rfl⟩ := step_lapic_timer hs
    have hsw := switched_timer hk
    exact ⟨hsw.idle_entity, hsw.state, hsw.waiters, hsw.terminated, hsw.queued, fun _ => .inl rfl⟩
  | driver_irq n =>
    cases hs
    refine ⟨rfl, rfl, rfl, rfl, fun _ => rfl, fun c => ?_⟩
    by_cases hc : c = none
    · subst hc
      exact .inr ⟨ha.1, .trigger (.driver n), by simp, .inr ⟨n, rfl⟩⟩
    · exact .inl (Function.update_of_ne hc _ _)
  | create_thread p t =>
    cases hs
    have hst := ha.2.state
    refine ⟨rfl, ?_, rfl, rfl, fun _ => rfl, fun _ => .inl rfl⟩
    show Function.update m.sys._state t STOPPED = m.sys._state
    rw [← hst, Function.update_eq_self]

theorem sound_create_thread (h : Sound m) {p : P} {t : T} (hun : m.Unused t) :
    Sound (A := A) ⟨m.sys.create_thread p t, m.stack⟩ := by
  refine ⟨h.goals, h.handler, h.idle_stack, h.idle_waiters, fun q => ?_⟩
  show m.sys._idle_entity ∉ Function.update m.sys._threads p (m.sys._threads p ++ [t]) q
  by_cases hq : q = p
  · subst hq
    simpa using ⟨h.idle_threads q, hun.idle⟩
  · rw [Function.update_of_ne hq]
    exact h.idle_threads q

theorem sound_step (h : Sound m) (ha : m.allowed a) (hs : m.step a = .ok m') : Sound m' := by
  cases a with
  | run =>
    obtain ⟨f, fs, gs, k, hstack, hstep, rfl⟩ := step_run hs ha
    exact sound_run h hstack hstep
  | call f i =>
    cases hs
    obtain ⟨-, hidle, hentry, hgoal⟩ := ha
    refine h.push [f] (by simpa using hidle) ?_ (fun hc => by cases hc) rfl rfl rfl
    intro f hf g hg
    obtain rfl := List.mem_singleton.mp hf
    exact ⟨hgoal g hg, entry_goal hentry g hg⟩
  | lapic_timer =>
    obtain ⟨k, hk, rfl⟩ := step_lapic_timer hs
    have hsw := switched_timer hk
    refine ⟨?_, h.handler, ?_, ?_, ?_⟩ <;> dsimp only
    · rw [hsw.idle_entity]
      exact h.goals
    · rw [hsw.idle_entity]
      exact h.idle_stack
    · rw [hsw.idle_entity, hsw.waiters]
      exact h.idle_waiters
    · rw [hsw.idle_entity, hsw.threads]
      exact h.idle_threads
  | driver_irq n =>
    cases hs
    exact h.push _ (by simp) (by simp [goal]) (by simp [Waking]) rfl rfl rfl
  | create_thread p t =>
    cases hs
    exact sound_create_thread h ha.2

/-! ## Every run -/

omit [DecidableEq P] in
theorem base_booted (h : Booted m) : Base m := by
  have hstack : ∀ c, ∀ f, f ∉ m.stack c := fun c f => by simp [h.stack c]
  exact {
    goals := fun c f hf => absurd hf (hstack c f)
    handler := fun f hf => absurd hf (hstack _ f)
    idle_stack := h.stack _
    idle_waiters := fun event => by simp [WakeQueue.waiters, h.waiters event]
    idle_threads := h.idle_threads
    below := fun c f hf => absurd (List.mem_of_mem_tail hf) (hstack c f)
    first := fun c f hf => absurd (List.mem_of_head? hf) (hstack c f)
    alone := fun c _ f _ _ hf => absurd (List.mem_of_head? hf) (hstack c f)
    mirrors := fun e he _ => h.mirrors e he
    idle_state := h.idle_state
    idle_queued := h.idle_queued
    states := fun e => by rcases h.states e with he | he <;> simp [he] }

theorem base_step (h : Base m) (ha : m.allowed a) (hno : m.NoOverlap a)
    (hs : m.step a = .ok m') : Base m' := by
  by_cases hrun : a = .run
  · subst hrun
    obtain ⟨f, fs, gs, k, hstack, hstep, rfl⟩ := step_run hs ha
    exact base_run h hno hstack hstep
  · exact h.same (same_step ha hs hrun) (sound_step h.toSound ha hs)

end Machine

end Infos.Kernel
