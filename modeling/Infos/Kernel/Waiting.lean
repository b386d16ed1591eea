import Infos.Kernel.Stacks
import Infos.Kernel.Wake
import Mathlib.Data.Fintype.Option

/-!
# Waiting for the end of a process or a thread

`sys_wait_proc` and `sys_join_thread` test whether the target has ended, and sleep on its event if it
has not. A thread that has made the test and is not asleep yet misses a trigger of the event. If no
trigger comes in between, and no test is made while the event is being triggered, no thread sleeps on
once the target has ended and its trigger is over.
-/

namespace Infos.Kernel

open SchedulingEntityState Infos.Kernel.Frame

variable {T P : Type}

namespace Frame

/-- The event whose waiters the frame wakes. -/
def wakes : Frame T P → Option (Event T P)
  | trigger event => some event
  | wake_at event _ => some event
  | wake_next event _ => some event
  | clear event => some event
  | _ => none

/-- The event that the frame begins to trigger. -/
def triggers : Frame T P → Option (Event T P)
  | store entity _ => some (.thread entity)
  | terminate process => some (.process process)
  | _ => none

variable [DecidableEq T] [DecidableEq P] {A : SchedulingAlgorithm T} {k k' : Sys A P}
  {f g : Frame T P} {fs gs : List (Frame T P)} {event : Event T P}

theorem wakes_step (h : f.step k = .ok (gs, k')) (hg : g ∈ gs) (he : g.wakes = some event) :
    f.wakes = some event ∨ f.triggers = some event := by
  have hnone : (∀ g ∈ gs, g.wakes = none) → f.wakes = some event ∨ f.triggers = some event :=
    fun hn => by simp [hn g hg] at he
  cases does h with
  | store =>
    obtain rfl := List.mem_singleton.mp hg
    exact .inr he
  | terminate =>
    rcases List.mem_pair.mp hg with rfl | rfl
    · exact .inr he
    · cases he
  | trigger | wake_end | wake_next =>
    obtain rfl := List.mem_singleton.mp hg
    exact .inl he
  | wake =>
    rcases List.mem_pair.mp hg with rfl | rfl
    · cases he
    · exact .inl he
  | _ => exact hnone (by simp [wakes])

omit [DecidableEq T] [DecidableEq P] in
theorem waking_of_wakes (h : g.wakes = some event) : g.Waking := by
  cases g with
  | trigger | wake_at | wake_next | clear => simp [Waking]
  | _ => cases h

theorem triggers_step (h : f.step k = .ok (gs, k')) (he : f.triggers = some event) :
    ∃ g ∈ gs, g.wakes = some event := by
  cases does h with
  | store | terminate => exact ⟨_, List.mem_cons_self, he⟩
  | _ => cases he

theorem wakes_on (h : f.step k = .ok (gs, k')) (he : f.wakes = some event)
    (hf : f ≠ .clear event) : ∃ g ∈ gs, g.wakes = some event := by
  cases does h with
  | trigger | wake_end | wake_next => exact ⟨_, List.mem_cons_self, he⟩
  | wake => exact ⟨_, List.mem_cons_of_mem _ List.mem_cons_self, he⟩
  | clear =>
    cases he
    exact absurd rfl hf
  | _ => cases he

theorem step_waiters (h : f.step k = .ok (gs, k')) (event : Event T P) :
    k'._waiters event = k._waiters event ∨
      (f = .clear event ∧ k'._waiters event = (k._waiters event).clear) ∨
      (f = .wait event ∧ k'._waiters event = (k._waiters event).append k.current_thread) := by
  cases does h with
  | schedules hs => exact .inl (congrFun (Machine.switched_schedule hs).waiters event)
  | @clear other =>
    by_cases he : event = other
    · subst he
      exact .inr (.inl ⟨rfl, Function.update_self _ _ _⟩)
    · exact .inl (Function.update_of_ne he _ _)
  | @wait other =>
    by_cases he : event = other
    · subst he
      exact .inr (.inr ⟨rfl, Function.update_self _ _ _⟩)
    · exact .inl (Function.update_of_ne he _ _)
  | _ => exact .inl rfl

/-- A target ends when its event is about to be triggered. -/
theorem step_ended (h : f.step k = .ok (gs, k')) (event : Event T P) :
    k'.ended event = k.ended event ∨ f.triggers = some event := by
  cases event with
  | thread t =>
    rcases step_state h t with heq | ⟨s, rfl, -⟩
    · refine .inl ?_
      simp only [Sys.ended, heq]
    · exact .inr rfl
  | process p =>
    cases does h with
    | schedules hs =>
      exact .inl (congrFun (Machine.switched_schedule hs).terminated p)
    | @terminate other =>
      by_cases hp : p = other
      · subst hp
        exact .inr rfl
      · exact .inl (Function.update_of_ne hp _ _)
    | _ => exact .inl rfl
  | driver n => exact .inl rfl

end Frame

/-! ## What a wake has still to do -/

section

variable [DecidableEq T] [DecidableEq P]

/-- Where the frame wakes the waiters of the event, it is still to come to `t`. The frame above it
may be the one that wakes `t`. -/
def Reaches (w : WakeQueue T) (t : T) (event : Event T P) (above : Option (Frame T P)) :
    Frame T P → Prop
  | wake_at e none => e ≠ event
  | wake_at e (some node) => e = event → t ∈ (w.from_node node).map Prod.snd
  | wake_next e node => e = event → t ∈ (w.from_node node).tail.map Prod.snd ∨
      ∃ g ∈ above, g.goal = some (t, RUNNABLE)
  | clear e => e ≠ event
  | _ => True

def Ahead (w : WakeQueue T) (t : T) (event : Event T P) :
    (above : Option (Frame T P)) → List (Frame T P) → Prop
  | _, [] => True
  | above, f :: fs => Reaches w t event above f ∧ Ahead w t event (some f) fs

variable {A : SchedulingAlgorithm T} {k k' : Sys A P} {w : WakeQueue T} {t : T} {event : Event T P}
  {a b : Option (Frame T P)} {f g : Frame T P} {fs gs : List (Frame T P)}

omit [DecidableEq T] [DecidableEq P] in
theorem reaches_other (h : f.wakes = some event → f = .trigger event) :
    Reaches w t event a f := by
  cases f with
  | wake_at e node =>
    cases node <;>
    · rintro rfl
      cases h rfl
  | wake_next | clear =>
    rintro rfl
    cases h rfl
  | _ => trivial

omit [DecidableEq T] [DecidableEq P] in
theorem Ahead.above (h : Ahead w t event a fs)
    (hab : ∀ f ∈ a, f.goal = some (t, RUNNABLE) → ∃ g ∈ b, g.goal = some (t, RUNNABLE)) :
    Ahead w t event b fs := by
  cases fs with
  | nil => trivial
  | cons f fs =>
    refine ⟨?_, h.2⟩
    cases f with
    | wake_next e node =>
      intro he
      refine (h.1 he).imp_right ?_
      rintro ⟨g, hg, hgoal⟩
      exact hab g hg hgoal
    | wake_at e node => cases node <;> exact h.1
    | _ => exact h.1

omit [DecidableEq T] [DecidableEq P] in
/-- Frames that wake no waiters of the event are put above. -/
theorem Ahead.append (hgs : ∀ g ∈ gs, g.wakes = some event → g = .trigger event)
    (h : ∀ b, Ahead w t event b fs) : Ahead w t event a (gs ++ fs) := by
  induction gs generalizing a with
  | nil => exact h a
  | cons g gs ih =>
    exact ⟨reaches_other (hgs g List.mem_cons_self),
      ih fun g hg => hgs g (List.mem_cons_of_mem _ hg)⟩

omit [DecidableEq T] [DecidableEq P] in
theorem ahead_of_none (h : ∀ f ∈ fs, f.wakes ≠ some event) : Ahead w t event a fs := by
  rw [← List.append_nil fs]
  exact .append (fun f hf he => absurd he (h f hf)) fun _ => trivial

omit [DecidableEq T] [DecidableEq P] in
theorem from_node_head {e : Event T P} (ht : t ∈ w.waiters) :
    Reaches w t event a (.wake_at e (w.nodes.head?.map Prod.fst)) := by
  unfold WakeQueue.waiters at ht
  cases hn : w.nodes with
  | nil => simp [hn] at ht
  | cons n rest =>
    intro _
    rw [WakeQueue.from_node_eq (show w.nodes = [] ++ n :: rest from hn), ← hn]
    exact ht

omit [DecidableEq T] [DecidableEq P] in
theorem from_node_next {e : Event T P} {node : ℕ} {n : ℕ × T} {rest : List (ℕ × T)}
    (hnode : w.from_node node = n :: rest) (ht : e = event → t ∈ rest.map Prod.snd) :
    Reaches w t event a (.wake_at e (rest.head?.map Prod.fst)) := by
  cases rest with
  | nil =>
    intro he
    cases ht he
  | cons n' rest =>
    intro he
    have hn : w.nodes = (w.nodes.takeWhile (fun m => m.1 ≠ node) ++ [n]) ++ n' :: rest := by
      rw [List.append_assoc, List.singleton_append, ← hnode]
      exact List.takeWhile_append_dropWhile.symm
    rw [WakeQueue.from_node_eq hn]
    exact ht he

omit [DecidableEq T] [DecidableEq P] in
/-- Another waiter comes last. -/
theorem Ahead.waiter (h : Ahead w t event a fs) (u : T) : Ahead (w.append u) t event a fs := by
  induction fs generalizing a with
  | nil => trivial
  | cons f fs ih =>
    refine ⟨?_, ih h.2⟩
    have hf := h.1
    cases f with
    | wake_at e node =>
      cases node with
      | none => exact hf
      | some node =>
        intro he
        have hmem := hf he
        cases hn : w.from_node node with
        | nil => simp [hn] at hmem
        | cons n rest =>
          rw [hn] at hmem
          rw [WakeQueue.from_node_append hn]
          simp only [List.map_cons, List.map_append, List.mem_cons, List.mem_append] at hmem ⊢
          tauto
    | wake_next e node =>
      intro he
      refine (hf he).imp_left fun hmem => ?_
      cases hn : w.from_node node with
      | nil => simp [hn] at hmem
      | cons n rest =>
        rw [hn] at hmem
        rw [WakeQueue.from_node_append hn, List.tail_cons, List.map_append]
        exact List.mem_append_left _ hmem
    | _ => exact hf

/-- A step of a wake leaves `t` ahead of it, as long as `t` sleeps. -/
theorem ahead_step (h : Ahead (k._waiters event) t event none (f :: fs))
    (hstep : f.step k = .ok (gs, k')) (ht : t ∈ (k._waiters event).waiters)
    (hs : k._state t = SLEEPING) (hs' : k'._state t = SLEEPING) :
    Ahead (k._waiters event) t event none (gs ++ fs) := by
  obtain ⟨hf, hfs⟩ := h
  by_cases hgoal : f.goal = some (t, RUNNABLE)
  · -- it goes on to wake `t`
    obtain ⟨g, rfl, hg, hw⟩ : ∃ g, gs = [g] ∧ g.goal = some (t, RUNNABLE) ∧ g.wakes = none := by
      cases does hstep with
      | already h =>
        cases hgoal
        rw [hs] at h
        cases h
      | store =>
        cases hgoal
        simp [Sys.set_state] at hs'
      | begins | compared | differs | adds | add_to_runqueue | remove_from_runqueue | start |
        wake_up =>
        cases hgoal
        exact ⟨_, rfl, rfl, rfl⟩
      | removes _ hor =>
        cases hgoal
        simp at hor
      | _ => cases hgoal
    refine ⟨reaches_other (by simp [hw]), hfs.above fun _ _ _ => ⟨g, rfl, hg⟩⟩
  · have hrest : ∀ b, Ahead (k._waiters event) t event b fs := by
      intro b
      refine hfs.above ?_
      rintro _ ⟨⟩ hg
      exact absurd hg hgoal
    have hother : (∀ g ∈ gs, g.wakes = some event → g = .trigger event) →
        Ahead (k._waiters event) t event none (gs ++ fs) := fun hgs => .append hgs hrest
    cases does hstep with
    | @trigger e =>
      by_cases he : e = event
      · subst he
        exact ⟨from_node_head ht, hrest _⟩
      · exact ⟨reaches_other fun hw => absurd (Option.some.inj hw) he, hrest _⟩
    | wake_end => exact ⟨hf, hrest _⟩
    | wake hnode =>
      refine ⟨trivial, fun he => ?_, hrest _⟩
      have hmem := hf he
      subst he
      rw [hnode, List.map_cons, List.mem_cons] at hmem
      rw [hnode]
      exact hmem.symm.imp_right fun ht => ⟨_, rfl, by simp [goal, ht]⟩
    | @wake_next e _ _ _ hnode =>
      refine ⟨?_, hrest _⟩
      by_cases he : e = event
      · subst he
        refine from_node_next hnode fun _ => ?_
        have hmem := (hf rfl).resolve_right (by simp)
        rwa [hnode] at hmem
      · exact reaches_other fun hw => absurd (Option.some.inj hw) he
    | _ => exact hother (by simp [wakes])

end

/-! ## Between the test and sleep -/

/-- The thread has found that the target has not ended, and is not a waiter yet. -/
def Opening (event : Event T P) (fs : List (Frame T P)) : Prop :=
  fs = [.enable_interrupts, .wait event, .while_not event] ∨
    fs = [.wait event, .while_not event]

/-- The thread is a waiter, and is not asleep yet. -/
def Falling (t : T) (event : Event T P) (fs : List (Frame T P)) : Prop :=
  fs = [.sleep t, .while_not event] ∨
    ∃ f, f.changing = some (t, SLEEPING) ∧ fs = [f, .yield_from t, .while_not event]

def Between (t : T) (event : Event T P) (fs : List (Frame T P)) : Prop :=
  Opening event fs ∨ Falling t event fs

section

variable [DecidableEq T] [DecidableEq P] {A : SchedulingAlgorithm T} {k k' : Sys A P} {t u : T}
  {event : Event T P} {f g : Frame T P} {fs gs : List (Frame T P)}

omit [DecidableEq T] [DecidableEq P] in
theorem wakes_of_changing {x : T × SchedulingEntityState} (h : f.changing = some x) :
    f.wakes = none := by
  cases f <;> first | rfl | cases h

omit [DecidableEq T] [DecidableEq P] in
theorem Between.not_waking (h : Between t event fs) : ∀ f ∈ fs, ¬f.Waking := by
  rcases h with (rfl | rfl) | rfl | ⟨f, hf, rfl⟩
  · simp [Waking, goal]
  · simp [Waking, goal]
  · simp [Waking, goal]
  · have hw := not_waking_of_changing hf (by simp)
    simpa [Waking, goal] using hw

omit [DecidableEq T] [DecidableEq P] in
theorem Between.not_resumes (h : Between t event fs) : ¬Resumes u fs := by
  intro hr
  cases hr with
  | nothing => simp [Between, Opening, Falling] at h
  | stop_threads => simp [Between, Opening, Falling] at h
  | yields =>
    simp only [Between, Opening, Falling] at h
    rcases h with (h | h) | h | ⟨f, hf, h⟩
    · cases h
    · cases h
    · cases h
    · cases h
      cases hf

/-- How a thread gets between the test and sleep. -/
theorem between_step (hform : Form u (f :: fs)) (hstep : f.step k = .ok (gs, k'))
    (hu : k.current_thread = u) (h : Between u event (gs ++ fs)) :
    (f = .while_not event ∧ k.ended event = false ∧ Opening event (gs ++ fs)) ∨
      Between u event (f :: fs) := by
  cases form_topped hform with
  | entry hentry =>
    cases f with
    | start | stop | terminate | sys_wait_proc | sys_join_thread | wait =>
      cases hstep
      simp [Between, Opening, Falling] at h
    | _ => cases hentry
  | waking hw hr => exact absurd (resumes_of_not_waking hstep hw hr h.not_waking) h.not_resumes
  | stop_threads p i => cases does hstep <;> simp [Between, Opening, Falling] at h
  | yields hunder =>
    cases does hstep <;> cases hunder <;> simp [Between, Opening, Falling] at h
  | stops hunder =>
    cases hstep
    cases hunder <;> simp [Between, Opening, Falling, changing] at h
  | sleeps hunder =>
    cases hstep
    cases hunder with
    | sleep => simp [Between, Opening, Falling] at h
    | sleep_while e =>
      obtain rfl : e = event := by simpa [Between, Opening, Falling, changing] using h
      exact .inr (.inr (.inl rfl))
  | @changes f x s rest hf hunder =>
    rcases changing_step hstep hf with ⟨-, rfl, -⟩ | ⟨g, rfl, hg, -⟩ | ⟨-, rfl, -⟩
    · exact absurd (Resumes.yields hunder) h.not_resumes
    · rcases h with (h | h) | h | ⟨g', hg', h⟩
      · cases h
      · cases h
      · cases h
      · cases h
        obtain rfl : s = SLEEPING := congrArg Prod.snd (Option.some.inj (hg.symm.trans hg'))
        exact .inr (.inr (.inr ⟨f, hf, rfl⟩))
    · exact absurd (by simp [Waking]) (h.not_waking _ List.mem_cons_self)
  | invokes hunder =>
    cases does hstep
    cases hunder <;> simp [Between, Opening, Falling] at h
  | while_not e =>
    cases does hstep with
    | ended => simp [Between, Opening, Falling] at h
    | not_ended he =>
      obtain rfl : e = event := by simpa [Between, Opening, Falling] using h
      exact .inl ⟨rfl, he, .inl rfl⟩
  | enables e =>
    cases hstep
    obtain rfl : e = event := by simpa [Between, Opening, Falling] using h
    exact .inr (.inl (.inl rfl))
  | waits e =>
    cases hstep
    obtain rfl : e = event := by simpa [Between, Opening, Falling, hu] using h
    exact .inr (.inl (.inr rfl))

/-- It leaves only by what makes it sleep. -/
theorem falls_asleep (h : Between u event (f :: fs)) (hstep : f.step k = .ok (gs, k'))
    (hu : k.current_thread = u) (hn : ¬Between u event (gs ++ fs)) :
    f.changing = some (u, SLEEPING) ∧ fs = [.yield_from u, .while_not event] := by
  rcases h with (h | h) | h | ⟨g, hg, h⟩
  · cases h
    cases hstep
    exact absurd (.inl (.inr rfl)) hn
  · cases h
    cases hstep
    subst hu
    exact absurd (.inr (.inl rfl)) hn
  · cases h
    cases hstep
    exact absurd (.inr (.inr ⟨_, rfl, rfl⟩)) hn
  · cases h
    exact ⟨hg, rfl⟩

theorem falling_step (hform : Form u (f :: fs)) (hstep : f.step k = .ok (gs, k'))
    (hu : k.current_thread = u) (h : Falling u event (gs ++ fs)) :
    f = .wait event ∨ Falling u event (f :: fs) := by
  rcases between_step hform hstep hu (.inr h) with ⟨-, -, ho⟩ | (ho | ho) | ho
  · rcases h with h | ⟨g, hg, h⟩ <;> rw [h] at ho <;> simp [Opening] at ho
  · cases ho
    cases hstep
    rcases h with h | ⟨g, hg, h⟩ <;> cases h
  · cases ho
    exact .inl rfl
  · exact .inr ho

/-- Only the two system calls begin to wait in a loop. -/
theorem enters_loop (hstep : f.step k = .ok (gs, k'))
    (h : (gs ++ fs).getLast? = some (.while_not event))
    (hn : (f :: fs).getLast? ≠ some (.while_not event)) :
    fs = [] ∧ f.goal = none ∧ f.Entry := by
  cases fs with
  | cons g fs =>
    rw [List.getLast?_append_of_ne_nil _ (by simp)] at h
    exact absurd (by simpa using h) hn
  | nil =>
    rw [List.append_nil] at h
    cases does hstep <;> simp_all [goal, Frame.Entry]

end

/-! ## The invariant -/

namespace Waiting

open Machine

variable [DecidableEq T] [DecidableEq P] {A : SchedulingAlgorithm T}

/-- The event is being triggered. -/
def Underway (m : Machine A P) (event : Event T P) : Prop :=
  ∃ c, ∃ f ∈ m.stack c, f.wakes = some event

/-- No thread tests whether the target has ended while its event is being triggered, and none is
between the test and sleep when somebody else begins to trigger the event. -/
def Apart (m : Machine A P) (a : Action T P) : Prop :=
  a = .run → ∀ f fs, m.stack m.running = f :: fs → ∀ event,
    (f = .while_not event → m.sys.ended event = false → ¬Underway m event) ∧
      (f.triggers = some event → ∀ t, some t ≠ m.running → ¬Between t event (m.stack (some t)))

def guard (m : Machine A P) (a : Action T P) : Prop := m.NoOverlap a ∧ Apart m a

/-- The thread sleeps in the loop of one of the two system calls. -/
structure Asleep (m : Machine A P) (t : T) (event : Event T P) : Prop where
  state : m.sys._state t = SLEEPING
  loop : (m.stack (some t)).getLast? = some (.while_not event)
  past : ¬Between t event (m.stack (some t))

structure Inv (m : Machine A P) : Prop extends Orderly m where
  apart : ∀ t event, Between t event (m.stack (some t)) →
    m.sys.ended event = false ∧ ¬Underway m event
  waits : ∀ t event, Falling t event (m.stack (some t)) → t ∈ (m.sys._waiters event).waiters
  ahead : ∀ t event, Asleep m t event → t ∈ (m.sys._waiters event).waiters ∧
    ∀ c, Ahead (m.sys._waiters event) t event none (m.stack c)
  woken : ∀ t event, Asleep m t event → m.sys.ended event = true → Underway m event

variable {m m' : Machine A P} {f : Frame T P} {fs gs : List (Frame T P)} {k : Sys A P}
  {c : Option T} {a : Action T P} {t : T} {event : Event T P}

theorem underway_run (hs : m.stack m.running = f :: fs) (hstep : f.step m.sys = .ok (gs, k))
    (h : Underway (A := A) ⟨k, Function.update m.stack m.running (gs ++ fs)⟩ event) :
    Underway m event ∨ f.triggers = some event := by
  obtain ⟨c, g, hg, hw⟩ := h
  dsimp only at hg
  by_cases hc : c = m.running
  · rw [hc, Function.update_self] at hg
    rcases List.mem_append.mp hg with hg | hg
    · exact (wakes_step hstep hg hw).imp_left fun hf => ⟨_, f, hs ▸ List.mem_cons_self, hf⟩
    · exact .inl ⟨_, g, hs ▸ List.mem_cons_of_mem _ hg, hw⟩
  · rw [Function.update_of_ne hc] at hg
    exact .inl ⟨c, g, hg, hw⟩

theorem underway_on (hs : m.stack m.running = f :: fs) (hstep : f.step m.sys = .ok (gs, k))
    (h : Underway m event ∧ f ≠ .clear event ∨ f.triggers = some event) :
    Underway (A := A) ⟨k, Function.update m.stack m.running (gs ++ fs)⟩ event := by
  have hnew : (∃ g ∈ gs, g.wakes = some event) →
      Underway (A := A) ⟨k, Function.update m.stack m.running (gs ++ fs)⟩ event := by
    rintro ⟨g, hg, hw⟩
    refine ⟨m.running, g, ?_, hw⟩
    dsimp only
    rw [Function.update_self]
    exact List.mem_append_left _ hg
  rcases h with ⟨⟨c, g, hg, hw⟩, hf⟩ | ht
  · by_cases hc : c = m.running
    · rw [hc, hs] at hg
      rcases List.mem_cons.mp hg with rfl | hg
      · exact hnew (wakes_on hstep hw hf)
      · refine ⟨m.running, g, ?_, hw⟩
        dsimp only
        rw [Function.update_self]
        exact List.mem_append_right _ hg
    · refine ⟨c, g, ?_, hw⟩
      dsimp only
      rwa [Function.update_of_ne hc]
  · exact hnew (triggers_step hstep ht)

omit [DecidableEq P] in
theorem current_of_running (hr : some t = m.running) : m.sys.current_thread = t := by
  rcases running_eq m with ⟨hn, -⟩ | ⟨hn, -⟩
  · rw [hn] at hr
    cases hr
  · exact (Option.some.inj (hr.trans hn)).symm

theorem apart_run (h : Inv m) (hap : Apart m .run) (hs : m.stack m.running = f :: fs)
    (hstep : f.step m.sys = .ok (gs, k))
    (hb : Between t event (Function.update m.stack m.running (gs ++ fs) (some t))) :
    k.ended event = false ∧
      ¬Underway (A := A) ⟨k, Function.update m.stack m.running (gs ++ fs)⟩ event := by
  have key : m.sys.ended event = false → ¬Underway m event → f.triggers ≠ some event →
      k.ended event = false ∧
        ¬Underway (A := A) ⟨k, Function.update m.stack m.running (gs ++ fs)⟩ event := by
    intro he hu ht
    refine ⟨((step_ended hstep event).resolve_right ht).trans he, fun hn => ?_⟩
    exact (underway_run hs hstep hn).elim hu ht
  by_cases hr : some t = m.running
  · rw [hr, Function.update_self] at hb
    have hquiet : f.triggers ≠ some event := by
      intro ht
      obtain ⟨g, hg, hw⟩ := triggers_step hstep ht
      exact hb.not_waking g (List.mem_append_left _ hg) (waking_of_wakes hw)
    have hform := h.form t
    rw [hr, hs] at hform
    rcases between_step hform hstep (current_of_running hr) hb with ⟨rfl, he, -⟩ | hold
    · exact key he ((hap rfl _ fs hs event).1 rfl he) hquiet
    · obtain ⟨he, hu⟩ := h.apart t event (by rwa [hr, hs])
      exact key he hu hquiet
  · rw [Function.update_of_ne hr] at hb
    obtain ⟨he, hu⟩ := h.apart t event hb
    exact key he hu fun ht => (hap rfl f fs hs event).2 ht t hr hb

/-- The list is cleared only while the event is being triggered. -/
theorem waits_run (h : Inv m) (hs : m.stack m.running = f :: fs)
    (hstep : f.step m.sys = .ok (gs, k))
    (hb : Falling t event (Function.update m.stack m.running (gs ++ fs) (some t))) :
    t ∈ (k._waiters event).waiters := by
  have key : Falling t event (m.stack (some t)) → t ∈ (k._waiters event).waiters := by
    intro hf
    have hmem := h.waits t event hf
    rcases step_waiters hstep event with heq | ⟨rfl, -⟩ | ⟨-, heq⟩
    · rwa [heq]
    · exact absurd ⟨_, _, hs ▸ List.mem_cons_self, rfl⟩ (h.apart t event (.inr hf)).2
    · rw [heq, WakeQueue.waiters_append]
      exact List.mem_append_left _ hmem
  by_cases hr : some t = m.running
  · rw [hr, Function.update_self] at hb
    have hform := h.form t
    rw [hr, hs] at hform
    rcases falling_step hform hstep (current_of_running hr) hb with rfl | hold
    · cases hstep
      simp [Sys.set_waiters, current_of_running hr]
    · exact key (by rwa [hr, hs])
  · rw [Function.update_of_ne hr] at hb
    exact key hb

/-- A thread that sleeps has slept before the step, or has gone to sleep in it. -/
theorem asleep_run (h : Inv m) (hs : m.stack m.running = f :: fs)
    (hstep : f.step m.sys = .ok (gs, k))
    (ha : Asleep (A := A) ⟨k, Function.update m.stack m.running (gs ++ fs)⟩ t event) :
    Asleep m t event ∨
      some t = m.running ∧ Between t event (m.stack (some t)) ∧
        f.changing = some (t, SLEEPING) := by
  obtain ⟨hst, hloop, hpast⟩ := ha
  dsimp only at hst hloop hpast
  by_cases hr : some t = m.running
  · rw [hr, Function.update_self] at hloop hpast
    have hcur := current_of_running hr
    have hform := h.form t
    rw [hr, hs] at hform
    by_cases hb : Between t event (f :: fs)
    · exact .inr ⟨hr, by rwa [hr, hs], (falls_asleep hb hstep hcur hpast).1⟩
    refine .inl ⟨?_, ?_, by rwa [hr, hs]⟩
    · rcases step_state hstep t with heq | ⟨s, rfl, rfl, heq⟩
      · rwa [← heq]
      · -- it would have been between the test and sleep
        obtain rfl : s = SLEEPING := heq.symm.trans hst
        obtain ⟨rest, rfl, hunder⟩ := form_changing hform rfl (by simp)
        cases hunder with
        | sleep => simp at hloop
        | sleep_while e =>
          obtain rfl : e = event := by simpa using hloop
          exact absurd (.inr (.inr ⟨_, rfl, rfl⟩)) hb
    · rw [hr, hs]
      by_contra hn
      obtain ⟨rfl, hgoal, hentry⟩ := enters_loop hstep hloop hn
      have hst : m.sys._state t = SLEEPING := by
        rcases step_state hstep t with heq | ⟨s, rfl, -⟩
        · rwa [← heq]
        · cases hgoal
      -- the current thread is runnable when it makes a system call
      have hw : ¬f.Waking := by
        rintro (⟨e, rfl | ⟨n, rfl⟩ | ⟨n, rfl⟩ | rfl⟩ | ⟨e, he⟩) <;> simp_all [Frame.Entry]
      have hrun := h.runnable_running hs hw (by rintro u rfl; cases hentry) (by rintro rfl; cases hentry)
      rw [hcur, hst] at hrun
      cases hrun
  · rw [Function.update_of_ne hr] at hloop hpast
    refine .inl ⟨?_, hloop, hpast⟩
    rcases step_state hstep t with heq | ⟨s, rfl, -, heq⟩
    · rwa [← heq]
    -- only the thread itself makes it sleep
    obtain rfl : s = SLEEPING := heq.symm.trans hst
    have hcur := (h.current_ne hs (by simp [Waking, goal])).1
    have hform := h.form m.sys.current_thread
    rw [← hcur, hs] at hform
    obtain ⟨rest, rfl, hunder⟩ := form_changing hform rfl (by simp)
    cases hunder <;> exact absurd hcur.symm hr

omit [DecidableEq P] in
/-- What clears the list of the event leaves nobody asleep on it. -/
theorem not_clear (h : Inv m) (hs : m.stack m.running = f :: fs) (ha : Asleep m t event) :
    f ≠ .clear event := by
  rintro rfl
  have := (h.ahead t event ha).2 m.running
  rw [hs] at this
  exact this.1 rfl

theorem ahead_run_old (h : Inv m) (hs : m.stack m.running = f :: fs)
    (hstep : f.step m.sys = .ok (gs, k)) (ha : Asleep m t event) (hst : k._state t = SLEEPING) :
    t ∈ (k._waiters event).waiters ∧
      ∀ c, Ahead (k._waiters event) t event none
        (Function.update m.stack m.running (gs ++ fs) c) := by
  obtain ⟨hmem, hahead⟩ := h.ahead t event ha
  have hnew : ∀ c, Ahead (m.sys._waiters event) t event none
      (Function.update m.stack m.running (gs ++ fs) c) := by
    intro c
    by_cases hc : c = m.running
    · rw [hc, Function.update_self]
      have := hahead m.running
      rw [hs] at this
      exact ahead_step this hstep hmem ha.state hst
    · rw [Function.update_of_ne hc]
      exact hahead c
  rcases step_waiters hstep event with heq | ⟨hf, -⟩ | ⟨-, heq⟩
  · rw [heq]
    exact ⟨hmem, hnew⟩
  · exact absurd hf (not_clear h hs ha)
  · rw [heq, WakeQueue.waiters_append]
    exact ⟨List.mem_append_left _ hmem, fun c => (hnew c).waiter _⟩

/-- A thread goes to sleep as a waiter, while nobody triggers the event. -/
theorem ahead_run_new (h : Inv m) (hs : m.stack m.running = f :: fs)
    (hstep : f.step m.sys = .ok (gs, k)) (hr : some t = m.running)
    (hb : Between t event (m.stack (some t))) (hf : f.changing = some (t, SLEEPING)) :
    t ∈ (k._waiters event).waiters ∧
      ∀ c, Ahead (k._waiters event) t event none
        (Function.update m.stack m.running (gs ++ fs) c) := by
  have hfall : Falling t event (m.stack (some t)) := by
    rcases hb with (hb | hb) | hb
    · rw [hr, hs] at hb
      cases hb
      cases hf
    · rw [hr, hs] at hb
      cases hb
      cases hf
    · exact hb
  have hquiet := (h.apart t event hb).2
  have hold : ∀ c, ∀ g ∈ m.stack c, g.wakes ≠ some event := fun c g hg hw => hquiet ⟨c, g, hg, hw⟩
  have heq : k._waiters event = m.sys._waiters event := by
    rcases step_waiters hstep event with heq | ⟨rfl, -⟩ | ⟨rfl, -⟩
    · exact heq
    · cases hf
    · cases hf
  rw [heq]
  refine ⟨h.waits t event hfall, fun c => ?_⟩
  by_cases hc : c = m.running
  · rw [hc, Function.update_self]
    refine .append (fun g hg hw => ?_) fun b =>
      ahead_of_none fun g hg => hold m.running g (hs ▸ List.mem_cons_of_mem _ hg)
    rcases changing_step hstep hf with ⟨-, rfl, -⟩ | ⟨g', rfl, hg', -⟩ | ⟨-, rfl, -⟩
    · cases hg
    · obtain rfl := List.mem_singleton.mp hg
      rw [wakes_of_changing hg'] at hw
      cases hw
    · obtain rfl := List.mem_singleton.mp hg
      cases hw
      rfl
  · rw [Function.update_of_ne hc]
    exact ahead_of_none (hold c)

theorem inv_run (h : Inv m) (hno : m.NoOverlap .run) (hap : Apart m .run)
    (hs : m.stack m.running = f :: fs) (hstep : f.step m.sys = .ok (gs, k)) :
    Inv (A := A) ⟨k, Function.update m.stack m.running (gs ++ fs)⟩ := by
  refine ⟨orderly_run h.toOrderly hno hs hstep, fun t event hb => apart_run h hap hs hstep hb,
    fun t event hb => waits_run h hs hstep hb, fun t event ha => ?_, fun t event ha he => ?_⟩
  · rcases asleep_run h hs hstep ha with hold | ⟨hr, hb, hf⟩
    · exact ahead_run_old h hs hstep hold ha.state
    · exact ahead_run_new h hs hstep hr hb hf
  · apply underway_on hs hstep
    rcases asleep_run h hs hstep ha with hold | ⟨hr, hb, hf⟩
    · rcases step_ended hstep event with heq | ht
      · exact .inl ⟨h.woken t event hold (heq ▸ he), not_clear h hs hold⟩
      · exact .inr ht
    · rcases step_ended hstep event with heq | ht
      · dsimp only at he
        rw [heq, (h.apart t event hb).1] at he
        cases he
      · exact .inr ht

/-! ## Every run -/

omit [DecidableEq T] [DecidableEq P] in
theorem entry_wakes (h : f.Entry) : f.wakes = none := by
  cases f <;> first | rfl | cases h

omit [DecidableEq P] in
theorem same_ended (h : Same m m') (event : Event T P) :
    m'.sys.ended event = m.sys.ended event := by
  cases event <;> simp only [Sys.ended, h.state, h.terminated]

omit [DecidableEq P] in
theorem same_between (h : Same m m') (hb : Between t event (m'.stack (some t))) :
    m'.stack (some t) = m.stack (some t) := by
  refine (h.stack (some t)).resolve_right ?_
  rintro ⟨-, f, hf, -⟩
  rw [hf] at hb
  simp [Between, Opening, Falling] at hb

omit [DecidableEq P] in
theorem same_asleep (h : Same m m') (ha : Asleep m' t event) : Asleep m t event := by
  have heq : m'.stack (some t) = m.stack (some t) := by
    refine (h.stack (some t)).resolve_right ?_
    rintro ⟨-, f, hf, hor⟩
    have := ha.loop
    rw [hf] at this
    obtain rfl : f = .while_not event := by simpa using this
    rcases hor with he | ⟨n, hn⟩
    · exact he
    · cases hn
  exact ⟨h.state ▸ ha.state, heq ▸ ha.loop, heq ▸ ha.past⟩

omit [DecidableEq P] in
theorem same_underway (h : Same m m') (hu : Underway m' event) :
    Underway m event ∨ ∃ n, event = .driver n := by
  obtain ⟨c, f, hf, hw⟩ := hu
  rcases h.stack c with heq | ⟨-, g, hg, hor⟩
  · exact .inl ⟨c, f, heq ▸ hf, hw⟩
  · rw [hg] at hf
    obtain rfl := List.mem_singleton.mp hf
    rcases hor with he | ⟨n, rfl⟩
    · rw [entry_wakes he] at hw
      cases hw
    · exact .inr ⟨n, (Option.some.inj hw).symm⟩

omit [DecidableEq P] in
theorem Inv.same (h : Inv m) (hm : Same m m') (ho : Orderly m') : Inv m' := by
  refine ⟨ho, fun t event hb => ?_, fun t event hb => ?_, fun t event ha => ?_,
    fun t event ha he => ?_⟩
  · rw [same_between hm hb] at hb
    obtain ⟨he, hu⟩ := h.apart t event hb
    refine ⟨(same_ended hm event).trans he, fun hn => ?_⟩
    rcases same_underway hm hn with hn | ⟨n, rfl⟩
    · exact hu hn
    · cases he
  · rw [same_between hm (.inr hb)] at hb
    rw [hm.waiters]
    exact h.waits t event hb
  · obtain ⟨hmem, hahead⟩ := h.ahead t event (same_asleep hm ha)
    rw [hm.waiters]
    refine ⟨hmem, fun c => ?_⟩
    rcases hm.stack c with heq | ⟨-, g, hg, hor⟩
    · exact heq ▸ hahead c
    · rw [hg]
      refine ⟨reaches_other fun hw => ?_, trivial⟩
      rcases hor with he | ⟨n, rfl⟩
      · rw [entry_wakes he] at hw
        cases hw
      · cases hw
        rfl
  · rw [same_ended hm] at he
    obtain ⟨c, f, hf, hw⟩ := h.woken t event (same_asleep hm ha) he
    refine ⟨c, f, ?_, hw⟩
    rcases hm.stack c with heq | ⟨hnil, -⟩
    · exact heq ▸ hf
    · rw [hnil] at hf
      cases hf

theorem inv_step (h : Inv m) (ha : m.allowed a) (hg : guard m a) (hs : m.step a = .ok m') :
    Inv m' := by
  by_cases hrun : a = .run
  · subst hrun
    obtain ⟨f, fs, gs, k, hstack, hstep, rfl⟩ := step_run hs ha
    exact inv_run h hg.1 hg.2 hstack hstep
  · exact h.same (same_step ha hs hrun) (orderly_step h.toOrderly ha hg.1 hs)

theorem inv_reachable (h : (system (A := A) (P := P) guard).Reachable m) : Inv m := by
  refine h.preserves (I := Inv) (fun m hm => ?_) ?_
  · have hnil : ∀ {t : T} {event : Event T P}, ¬Between t event (m.stack (some t)) := by
      intro t event hb
      rw [hm.stack] at hb
      simp [Between, Opening, Falling] at hb
    have hawake : ∀ {t : T} {event : Event T P}, ¬Asleep m t event := by
      intro t event ha
      have := ha.loop
      rw [hm.stack] at this
      cases this
    exact ⟨orderly_booted hm, fun t event hb => absurd hb hnil,
      fun t event hb => absurd (.inr hb) hnil, fun t event ha => absurd ha hawake,
      fun t event ha => absurd ha hawake⟩
  · intro m a m' hm ha hs
    exact inv_step hm ha.1 ha.2 hs

end Waiting

end Infos.Kernel
