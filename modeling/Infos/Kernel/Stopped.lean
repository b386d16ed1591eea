import Infos.Kernel.Mirror
import Infos.Kernel.Wake

/-!
# A stopped thread stays stopped

It does unless a trigger reaches it. `Thread::wake_up` makes a thread runnable that has been stopped
since it went to sleep, for the thread is a waiter of its event still.
-/

namespace Infos.Kernel.Stopped

open SchedulingEntityState Infos.Kernel.Frame

variable {T P : Type} [DecidableEq T] [DecidableEq P] {A : SchedulingAlgorithm T}

inductive Op (T P : Type) where
  | wait (event : Event T P)
  | sleep (thread : T)
  | stop (thread : T)
  | trigger (event : Event T P)
  | start (thread : T)
  deriving DecidableEq

def Op.frame : Op T P → Frame T P
  | wait event => .wait event
  | sleep thread => .sleep thread
  | stop thread => .stop thread
  | trigger event => .trigger event
  | start thread => .start thread

/-- An operation in progress. The threads that are `held` have been stopped, and not started since. -/
structure Config (A : SchedulingAlgorithm T) (P : Type) where
  frames : List (Frame T P)
  sys : Sys A P
  held : T → Bool

/-- The threads that are held from the operation on. -/
def Op.holds (held : T → Bool) : Op T P → T → Bool
  | stop thread => Function.update held thread true
  | start thread => Function.update held thread false
  | _ => held

/-- The event of an entity that changes its state, with the state it is triggered in. -/
def changed (k : Sys A P) (thread : T) (state : SchedulingEntityState) :
    Option (Event T P × Sys A P) :=
  if k._state thread = state then none else some (.thread thread, k.set_state thread state)

/-- What the operation triggers. -/
def Op.triggers (k : Sys A P) : Op T P → Option (Event T P × Sys A P)
  | wait event => changed (k.set_waiters event ((k._waiters event).append k.current_thread))
      k.current_thread SLEEPING
  | sleep thread => changed k thread SLEEPING
  | stop thread => changed k thread STOPPED
  | trigger event => some (event, k)
  | start thread => changed k thread RUNNABLE

/-- The operation triggers an event that reaches a thread which is held. -/
def WakesHeld (c : Config A P) (o : Op T P) : Prop :=
  ∃ p ∈ o.triggers c.sys, ∃ x, o.holds c.held x = true ∧ Wakes p.2 p.1 x

inductive Call (T P : Type) where
  | op (o : Op T P)
  | step
  deriving DecidableEq

/-- One operation after another, of those that are allowed. -/
def system (allowed : Config A P → Op T P → Prop) : System (Config A P) (Call T P) Fault where
  start c := c.frames = [] ∧ (∀ x, c.held x = false) ∧ ∀ x, Mirrors (· ≤ ·) c.sys x
  allowed
    | c, .op o => c.frames = [] ∧ allowed c o
    | c, .step => c.frames ≠ []
  step
    | c, .op o => .ok ⟨[o.frame], c.sys, o.holds c.held⟩
    | ⟨[], k, held⟩, .step => .ok ⟨[], k, held⟩
    | ⟨f :: fs, k, held⟩, .step => (f.step k).map fun d => ⟨d.1 ++ fs, d.2, held⟩

/-! ## What is still to be woken -/

/-- The event reaches no thread that is held. -/
def Spares (held : T → Bool) (k : Sys A P) (event : Event T P) : Prop :=
  ∀ x, held x = true → ¬Wakes k event x

/-- The entity may change to the state. -/
structure Changes (held : T → Bool) (k : Sys A P) (c : T × SchedulingEntityState) : Prop where
  released : c.2.queued = true → held c.1 = false
  spares : Spares held (k.set_state c.1 c.2) (.thread c.1)

/-- The frame belongs to one of the operations. -/
def Part : Frame T P → Prop
  | .terminate _ => False
  | .stop_threads _ _ => False
  | .sys_wait_proc _ => False
  | .sys_join_thread _ => False
  | .while_not _ => False
  | .enable_interrupts => False
  | _ => True

/-- What the topmost frame does reaches no thread that is held. -/
structure Harmless (held : T → Bool) (k : Sys A P) (f : Frame T P) : Prop where
  part : Part f
  changes : ∀ c ∈ f.goal, f.midway.isSome ∨ k._state c.1 ≠ c.2 → Changes held k c
  triggers : ∀ event, f = .trigger event ∨ (∃ node, f = .wake_at event node) ∨
    (∃ node, f = .wake_next event node) → Spares held k event
  waits : ∀ event, f = .wait event → ∀ w, k._state k.current_thread ≠ SLEEPING →
    w = (k._waiters event).append k.current_thread →
    Changes held (k.set_waiters event w) (k.current_thread, SLEEPING)

/-- The frame takes an entity out of the run queue, and is the first of its operation. -/
def Sinks (f : Frame T P) : Prop :=
  (∃ c ∈ f.goal, c.2 ≠ RUNNABLE) ∨ ∃ event, f = .wait event

/-- The state before has all that is left to be woken. -/
structure Shrinks (k k' : Sys A P) : Prop where
  waiters : ∀ event x, x ∈ (k'._waiters event).waiters → x ∈ (k._waiters event).waiters
  state : ∀ x, k'._state x ≠ RUNNABLE → k._state x ≠ RUNNABLE

variable {held : T → Bool} {k k' : Sys A P} {f : Frame T P} {gs fs : List (Frame T P)}
  {event : Event T P} {e x : T}

omit [DecidableEq P] in
theorem Spares.mono (h : Spares held k event) (hs : Shrinks k k') : Spares held k' event :=
  fun x hx hx' => h x hx (hx'.mono hs.waiters hs.state)

theorem step_shrinks (h : f.step k = .ok (gs, k')) (hf : ¬Sinks f) : Shrinks k k' := by
  cases does h with
  | schedules hs =>
    obtain ⟨-, rfl⟩ | ⟨-, rfl, -⟩ := Sys.schedule_ok hs
    · exact ⟨fun _ _ h => h, fun _ h => h⟩
    · exact ⟨fun _ _ h => h, fun _ h => h⟩
  | store =>
    rename_i entity state
    have hstate : state = RUNNABLE := by
      by_contra hne
      exact hf (.inl ⟨_, rfl, hne⟩)
    subst hstate
    refine ⟨fun _ _ h => h, fun x hx hr => hx ?_⟩
    show Function.update k._state entity RUNNABLE x = RUNNABLE
    by_cases hxe : x = entity
    · rw [hxe, Function.update_self]
    · rw [Function.update_of_ne hxe, hr]
  | clear =>
    rename_i event
    refine ⟨fun other x hx => ?_, fun _ h => h⟩
    by_cases ho : other = event
    · subst ho
      simp [Sys.set_waiters, WakeQueue.clear, WakeQueue.waiters] at hx
    · simpa [Sys.set_waiters, ho] using hx
  | wait => exact absurd (.inr ⟨_, rfl⟩) hf
  | _ => exact ⟨fun _ _ h => h, fun _ h => h⟩

/-- What may lie below the topmost frame. -/
def Below (held : T → Bool) (k : Sys A P) (f : Frame T P) : Prop :=
  (∃ event node, f = .wake_next event node ∧ Spares held k event) ∨ ∃ thread, f = .yield_from thread

/-- A frame with nothing to change and nothing to wake. -/
theorem harmless_of (hp : Part f) (hg : f.goal = none) (ht : ∀ event, f ≠ .trigger event)
    (ha : ∀ event node, f ≠ .wake_at event node) (hn : ∀ event node, f ≠ .wake_next event node)
    (hw : ∀ event, f ≠ .wait event) : Harmless held k f where
  part := hp
  changes c hc := by
    rw [hg] at hc
    cases hc
  triggers event h := by
    rcases h with h | ⟨node, h⟩ | ⟨node, h⟩
    · exact absurd h (ht event)
    · exact absurd h (ha event node)
    · exact absurd h (hn event node)
  waits event h := absurd h (hw event)

/-- A frame with a change to make. -/
theorem harmless_goal {c : T × SchedulingEntityState} (hg : f.goal = some c)
    (hc : f.midway.isSome ∨ k._state c.1 ≠ c.2 → Changes held k c) : Harmless held k f where
  part := by cases f <;> simp_all [goal, Part]
  changes c' hc' := by
    rw [hg] at hc'
    obtain rfl := Option.some.inj hc'
    exact hc
  triggers event h := by
    rcases h with rfl | ⟨node, rfl⟩ | ⟨node, rfl⟩ <;> cases hg
  waits event h := by
    subst h
    cases hg

/-- A frame that is about to wake. -/
theorem harmless_wakes (hf : f = .trigger event ∨ (∃ node, f = .wake_at event node) ∨
    (∃ node, f = .wake_next event node)) (h : Spares held k event) : Harmless held k f where
  part := by rcases hf with rfl | ⟨node, rfl⟩ | ⟨node, rfl⟩ <;> trivial
  changes c hc := by rcases hf with rfl | ⟨node, rfl⟩ | ⟨node, rfl⟩ <;> cases hc
  triggers other ho := by
    have he : event = other := by
      rcases hf with rfl | ⟨node, rfl⟩ | ⟨node, rfl⟩ <;> simpa using ho
    exact he ▸ h
  waits other ho := by rcases hf with rfl | ⟨node, rfl⟩ | ⟨node, rfl⟩ <;> cases ho

theorem Below.harmless (h : Below held k f) : Harmless held k f := by
  rcases h with ⟨event, node, rfl, hs⟩ | ⟨thread, rfl⟩
  · exact harmless_wakes (.inr (.inr ⟨node, rfl⟩)) hs
  · exact harmless_of trivial rfl (by simp) (by simp) (by simp) (by simp)

omit [DecidableEq P] in
theorem Below.not_sinks (h : Below held k f) : ¬Sinks f := by
  rcases h with ⟨event, node, rfl, hs⟩ | ⟨thread, rfl⟩ <;> simp [Sinks, goal]

/-- What one step of a harmless frame pushes. -/
structure Pushes (held : T → Bool) (k' : Sys A P) (f : Frame T P) (gs : List (Frame T P)) :
    Prop where
  first : ∀ g ∈ gs.head?, Harmless held k' g
  rest : ∀ g ∈ gs.tail, Below held k' g
  sinks : ∀ g ∈ gs.head?, Sinks g → Sinks f ∧ ∀ h ∈ gs.tail, ∃ thread, h = .yield_from thread

theorem pushes_nil : Pushes held k' f [] := ⟨by simp, by simp, by simp⟩

theorem pushes_one {g : Frame T P} (h : Harmless held k' g) (hs : Sinks g → Sinks f) :
    Pushes held k' f [g] :=
  ⟨by simpa using h, by simp, by simpa using hs⟩

theorem harmless_step (h : f.step k = .ok (gs, k')) (hf : Harmless held k f) :
    Pushes held k' f gs := by
  cases does h with
  | already | stays | schedules | clear => exact pushes_nil
  | begins hne =>
    exact pushes_one (harmless_goal rfl fun _ => hf.changes _ rfl (.inr hne))
      fun hs => .inl (by simpa [Sinks, goal] using hs)
  | adds =>
    exact pushes_one (harmless_goal rfl fun _ => hf.changes _ rfl (.inl rfl)) (by simp [Sinks, goal])
  | runs =>
    exact pushes_one (harmless_goal rfl fun _ => hf.changes _ rfl (.inl rfl))
      fun _ => .inl (by simp [goal])
  | compared | differs | removes =>
    exact pushes_one (harmless_goal rfl fun _ => hf.changes _ rfl (.inl rfl))
      fun hs => .inl (by simpa [Sinks, goal] using hs)
  | add_to_runqueue | remove_from_runqueue =>
    have hc := hf.changes _ rfl (.inl rfl)
    exact pushes_one (harmless_goal rfl fun _ =>
      ⟨hc.released, hc.spares.mono ⟨fun _ _ h => h, fun _ h => h⟩⟩)
      fun hs => .inl (by simpa [Sinks, goal] using hs)
  | store =>
    refine pushes_one (harmless_wakes (.inl rfl) (hf.changes _ rfl (.inl rfl)).spares) ?_
    simp [Sinks, goal]
  | trigger =>
    refine pushes_one (harmless_wakes (.inr (.inl ⟨_, rfl⟩)) (hf.triggers _ (.inl rfl))) ?_
    simp [Sinks, goal]
  | wake_end =>
    refine pushes_one (harmless_of trivial rfl (by simp) (by simp) (by simp) (by simp)) ?_
    simp [Sinks, goal]
  | wake hn =>
    rename_i event node n rest
    have hs := hf.triggers event (.inr (.inl ⟨node, rfl⟩))
    have hw : n.2 ∈ (k._waiters event).waiters := WakeQueue.mem_waiters (by rw [hn]; simp)
    refine ⟨?_, ?_, ?_⟩
    · rintro g ⟨⟩
      refine harmless_goal rfl fun hne => ⟨fun _ => ?_, fun x hx hx' => ?_⟩
      · by_contra hheld
        exact hs n.2 (by simpa using hheld) (.waiter hw)
      · have hne : k._state n.2 ≠ RUNNABLE := by simpa [midway] using hne
        refine hs x hx (.through hw hne (hx'.mono (fun _ _ h => h) fun y hy hr => hy ?_))
        show Function.update k._state n.2 RUNNABLE y = RUNNABLE
        by_cases hyn : y = n.2
        · rw [hyn, Function.update_self]
        · rw [Function.update_of_ne hyn, hr]
    · simpa [Below] using hs
    · simp [Sinks, goal]
  | wake_next hn =>
    refine pushes_one (harmless_wakes (.inr (.inl ⟨_, rfl⟩))
      (hf.triggers _ (.inr (.inr ⟨_, rfl⟩)))) ?_
    simp [Sinks, goal]
  | wait =>
    refine pushes_one (harmless_goal rfl fun hne => ?_) fun _ => .inr ⟨_, rfl⟩
    refine hf.waits _ rfl _ (hne.resolve_left ?_) rfl
    simp [midway]
  | start | wake_up =>
    refine pushes_one (harmless_goal rfl fun hne => hf.changes _ rfl (.inr ?_)) (by simp [Sinks, goal])
    simpa [midway] using hne
  | stop | sleep =>
    refine ⟨?_, by simp [Below], by simp [Sinks, goal]⟩
    rintro g ⟨⟩
    refine harmless_goal rfl fun hne => hf.changes _ rfl (.inr ?_)
    simpa [midway] using hne
  | yields =>
    refine pushes_one (harmless_of trivial rfl (by simp) (by simp) (by simp) (by simp)) ?_
    simp [Sinks, goal]
  | _ => exact hf.part.elim

/-! ## The invariant -/

structure Inv (c : Config A P) : Prop where
  mirror : Mirror.Inv (· ≤ ·) c.frames c.sys
  first : ∀ f ∈ c.frames.head?, Harmless c.held c.sys f
  rest : ∀ f ∈ c.frames.tail, Below c.held c.sys f
  /-- Only then is the rest not yet to be woken. -/
  sinks : ∀ f ∈ c.frames.head?, Sinks f → ∀ g ∈ c.frames.tail, ∃ thread, g = .yield_from thread
  settled : ∀ x, c.held x = true → (∀ f ∈ c.frames.head?, f.goal ≠ some (x, STOPPED)) →
    (c.sys._state x).queued = false

/-- A thread that is held stays out of the run queue, once it has left it. -/
theorem settled_step (h : f.step k = .ok (gs, k')) (hf : Harmless held k f)
    (hset : held x = true → f.goal ≠ some (x, STOPPED) → (k._state x).queued = false)
    (hx : held x = true) (hfs : ∀ g ∈ fs, g.goal = none)
    (hg : ∀ g ∈ (gs ++ fs).head?, g.goal ≠ some (x, STOPPED)) : (k'._state x).queued = false := by
  have hnone : gs = [] → ∀ g ∈ fs.head?, g.goal = none := fun _ g hg => hfs g (List.mem_of_head? hg)
  cases does h with
  | already hs =>
    rename_i entity state
    by_cases hxe : (entity, state) = (x, STOPPED)
    · cases hxe
      rw [hs]
      rfl
    · exact hset hx (by simpa [goal] using hxe)
  | store =>
    rename_i entity state
    show (Function.update k._state entity state x).queued = false
    by_cases hxe : x = entity
    · subst hxe
      rw [Function.update_self]
      by_contra hq
      have := (hf.changes _ rfl (.inl rfl)).released (by simpa using hq)
      rw [hx] at this
      cases this
    · rw [Function.update_of_ne hxe]
      refine hset hx ?_
      simp only [goal, ne_eq, Option.some.injEq, Prod.mk.injEq, not_and]
      exact fun he => absurd he.symm hxe
  | schedules hs =>
    rw [(schedule_queued hs x).2]
    exact hset hx (by simp [goal])
  | begins | compared | differs | removes | add_to_runqueue | remove_from_runqueue =>
    exact hset hx (by simpa [goal] using hg)
  | stop => exact hset hx (by simpa [goal] using hg)
  | _ => exact hset hx (by simp [goal])

theorem inv_step (h : Inv ⟨f :: fs, k, held⟩) (hs : f.step k = .ok (gs, k')) :
    Inv ⟨gs ++ fs, k', held⟩ := by
  have hf := h.first f rfl
  have hp := harmless_step hs hf
  have hbelow : ∀ g ∈ fs, Below held k' g := by
    intro g hg
    rcases h.rest g hg with ⟨event, node, rfl, hsp⟩ | hy
    · by_cases hsink : Sinks f
      · obtain ⟨thread, hg⟩ := h.sinks f rfl hsink _ hg
        cases hg
      · exact .inl ⟨event, node, rfl, hsp.mono (step_shrinks hs hsink)⟩
    · exact .inr hy
  have hgoal : ∀ g ∈ fs, g.goal = none := by
    intro g hg
    rcases hbelow g hg with ⟨event, node, rfl, -⟩ | ⟨thread, rfl⟩ <;> rfl
  refine ⟨Mirror.inv_step relates_le h.mirror hs, ?_, ?_, ?_, fun x hx hg => ?_⟩
  · intro g hg
    cases gs with
    | nil => exact (hbelow g (List.mem_of_head? hg)).harmless
    | cons g' gs => exact hp.first g hg
  · intro g hg
    cases gs with
    | nil => exact hbelow g (List.mem_of_mem_tail hg)
    | cons g' gs => exact (List.mem_append.mp hg).elim (hp.rest g) (hbelow g)
  · intro g hg hsink
    cases gs with
    | nil => exact absurd hsink (hbelow g (List.mem_of_head? hg)).not_sinks
    | cons g' gs =>
      obtain ⟨hsf, hrest⟩ := hp.sinks g hg hsink
      intro g'' hg''
      exact (List.mem_append.mp hg'').elim (hrest g'') (h.sinks f rfl hsf g'')
  · exact settled_step hs hf (fun hx hne => h.settled x hx (by simpa using hne)) hx hgoal hg

/-- The operations that reach no thread which is held. -/
abbrev careful (A : SchedulingAlgorithm T) (P : Type) [DecidableEq P] :
    System (Config A P) (Call T P) Fault := system fun c o => ¬WakesHeld c o

theorem harmless_op {c : Config A P} {o : Op T P} (h : ¬WakesHeld c o) :
    Harmless (o.holds c.held) c.sys o.frame := by
  have hspares : ∀ p ∈ o.triggers c.sys, Spares (o.holds c.held) p.2 p.1 :=
    fun p hp x hx hw => h ⟨p, hp, x, hx, hw⟩
  cases o with
  | wait event =>
    refine ⟨trivial, by simp [Op.frame, goal], by simp [Op.frame], ?_⟩
    rintro event' ⟨⟩ w hne rfl
    exact ⟨by simp [SchedulingEntityState.queued], hspares _ (if_neg hne)⟩
  | sleep thread =>
    refine harmless_goal rfl fun hne => ⟨by simp [SchedulingEntityState.queued], hspares _ (if_neg ?_)⟩
    simpa [Op.frame, midway] using hne
  | stop thread =>
    refine harmless_goal rfl fun hne => ⟨by simp [SchedulingEntityState.queued], hspares _ (if_neg ?_)⟩
    simpa [Op.frame, midway] using hne
  | trigger event => exact harmless_wakes (.inl rfl) (hspares _ rfl)
  | start thread =>
    refine harmless_goal rfl fun hne => ⟨fun _ => Function.update_self _ _ _, hspares _ (if_neg ?_)⟩
    simpa [Op.frame, midway] using hne

theorem inv_reachable {c : Config A P} (h : (careful A P).Reachable c) : Inv c := by
  refine h.preserves ?_ ?_
  · rintro ⟨fs, k, held⟩ ⟨rfl, hheld, hmir⟩
    refine ⟨⟨by simp, by simp, fun e _ => hmir e⟩, by simp, by simp, by simp, fun x hx => ?_⟩
    have hx' : held x = false := hheld x
    rw [show held x = true from hx] at hx'
    cases hx'
  · rintro ⟨fs, k, held⟩ call ⟨fs', k', held'⟩ hi hc hs
    cases call with
    | op o =>
      obtain ⟨rfl, hallowed⟩ : fs = [] ∧ ¬WakesHeld ⟨fs, k, held⟩ o := hc
      cases hs
      have hf := harmless_op hallowed
      refine ⟨⟨by simp, ?_, fun e _ => hi.mirror.mirrors e (by simp)⟩, by simpa using hf, by simp,
        by simp, fun x hx hg => hi.settled x ?_ (by simp)⟩
      · cases o <;> simp [Op.frame, Midway]
      · -- the operation itself does not stop the thread
        cases o with
        | stop thread =>
          have hne : x ≠ thread := by
            rintro rfl
            exact hg _ rfl rfl
          have hx : Function.update held thread true x = true := hx
          rwa [Function.update_of_ne hne] at hx
        | start thread =>
          have hx : Function.update held thread false x = true := hx
          by_cases hne : x = thread
          · rw [hne, Function.update_self] at hx
            cases hx
          · rwa [Function.update_of_ne hne] at hx
        | _ => exact hx
    | step =>
      cases fs with
      | nil => exact absurd rfl hc
      | cons f fs =>
        have hs : (f.step k).map (fun d => (⟨d.1 ++ fs, d.2, held⟩ : Config A P)) =
          .ok ⟨fs', k', held'⟩ := hs
        cases hstep : f.step k with
        | error e => simp [hstep, Except.map] at hs
        | ok d =>
          rw [hstep] at hs
          cases hs
          exact inv_step hi hstep

/-- While no operation is midway with it, a thread that has been stopped is neither runnable nor in
the run queue, until it is started. -/
theorem stays_stopped {c : Config A P} {x : T} (h : (careful A P).Reachable c)
    (stopped : c.held x = true)
    (between : ∀ f ∈ c.frames.head?, f.midway ≠ some x ∧ f.goal ≠ some (x, STOPPED)) :
    c.sys._state x ≠ RUNNABLE ∧ x ∉ A.entities c.sys.runqueue := by
  have hi := inv_reachable h
  have hst := hi.settled x stopped fun f hf => (between f hf).2
  constructor
  · intro hr
    rw [hr] at hst
    cases hst
  · have hmir := hi.mirror.mirrors x fun f hf => (between f hf).1
    unfold Mirrors Sys.queued at hmir
    rw [hst] at hmir
    intro hmem
    have := List.count_pos_iff.mpr hmem
    simp at hmir
    omega

/-! ## Runs -/

variable {allowed : Config A P → Op T P → Prop}

theorem reachable_steps {d : List (Frame T P) × Sys A P}
    (h : (system allowed).Reachable ⟨fs, k, held⟩) (hs : Records.Steps (steps A P) (fs, k) d) :
    (system allowed).Reachable ⟨d.1, d.2, held⟩ := by
  induction hs with
  | refl => exact h
  | tail _ hn ih =>
    cases hn with
    | next hstep =>
      refine ih.step (c := .step) (List.cons_ne_nil _ _) ?_
      have hstep : Frame.step _ _ = .ok _ := hstep
      simp only [system]
      rw [hstep]
      rfl

/-- An operation that comes to its end. -/
theorem reachable_op (o : Op T P) (h : (system allowed).Reachable ⟨[], k, held⟩)
    (ha : allowed ⟨[], k, held⟩ o) (hc : Records.Calls (steps A P) o.frame k k') :
    (system allowed).Reachable ⟨[], k', o.holds held⟩ :=
  reachable_steps (h.step (c := .op o) ⟨rfl, ha⟩ rfl) hc

/-- The first thread runs, and the idle one is runnable. -/
def one_running : Config (CompletelyFairScheduler (Fin 2)) Empty where
  frames := []
  sys := { Sys.boot _ 0 [1] Empty.elim with _current := some 1, current_thread := 1 }
  held _ := false

theorem one_running_start {allowed : Config (CompletelyFairScheduler (Fin 2)) Empty → _ → Prop} :
    (system allowed).start one_running := by
  refine ⟨rfl, fun _ => rfl, fun x => ?_⟩
  match x with
  | 0 => exact Nat.zero_le _
  | 1 => exact Nat.le_refl 1

theorem stays_stopped_at_once : ∃ c : Config (CompletelyFairScheduler (Fin 2)) Empty,
    (careful _ _).Reachable c ∧ c.held 1 = true ∧
      c.sys._state 1 ≠ RUNNABLE ∧ 1 ∉ (CompletelyFairScheduler (Fin 2)).entities c.sys.runqueue := by
  have hsafe : ¬WakesHeld one_running (.stop 1) := by
    rintro ⟨p, ⟨⟩, x, -, hw⟩
    cases hw with
    | waiter hw => cases hw
    | through hw => cases hw
  have h : (careful _ _).Reachable _ := reachable_op (.stop 1)
    (.of_start one_running_start) hsafe
    (Records.steps_of_exec 10 rfl)
  exact ⟨_, h, rfl, stays_stopped (x := 1) h rfl (by simp)⟩

/-- A thread waits for a key to be pressed and is stopped, and then a key is pressed. -/
theorem woken_by_trigger : ∃ c : Config (CompletelyFairScheduler (Fin 2)) Empty,
    (system fun _ _ => True).Reachable c ∧ c.frames = [] ∧ c.held 1 = true ∧
      c.sys._state 1 = RUNNABLE ∧ 1 ∈ (CompletelyFairScheduler (Fin 2)).entities c.sys.runqueue := by
  have h : (system fun _ _ => True).Reachable _ := reachable_op (.wait (.driver 0))
    (.of_start one_running_start) trivial
    (Records.steps_of_exec 11 rfl)
  have h := reachable_op (.stop 1) h trivial
    (Records.steps_of_exec 10 rfl)
  have h := reachable_op (.trigger (.driver 0)) h trivial
    (Records.steps_of_exec 13 rfl)
  exact ⟨_, h, rfl, rfl, rfl, List.mem_singleton_self 1⟩

end Infos.Kernel.Stopped
