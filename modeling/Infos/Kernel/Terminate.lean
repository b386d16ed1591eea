import Infos.Kernel.Stacks
import Mathlib.Data.Fintype.Option
import Mathlib.Data.Set.Card

/-!
# Termination of a process

`Process::terminate` stops the threads of the process one after another. A thread that comes to
itself in the loop gives up the processor there, and does not come back. If every thread after it in
the list is stopped by then, and nobody makes a stopped thread of a terminated process runnable
again, all of its threads are stopped once the loop is over.
-/

namespace Infos.Kernel.Terminate

open SchedulingEntityState Infos.Kernel.Frame Machine

variable {T P : Type} [DecidableEq T] [DecidableEq P] {A : SchedulingAlgorithm T}

/-- The thread is stopped, and nobody is about to change that. -/
structure Settled (m : Machine A P) (t : T) : Prop where
  state : m.sys._state t = STOPPED
  alone : ∀ c, ∀ f ∈ (m.stack c).head?, f.midway ≠ some t

/-- The thread is in the loop of `terminate`, and goes on with the thread at an index. -/
def Caller (m : Machine A P) (u : T) (p : P) (i : ℕ) : Prop :=
  (m.stack (some u)).getLast? = some (.stop_threads p i)

structure Undisturbed (m : Machine A P) (a : Action T P) : Prop where
  no_overlap : m.NoOverlap a
  /-- A thread that comes to itself in the loop is the last one to be stopped. -/
  last : a = .run → ∀ u p i fs, m.running = some u →
    m.stack m.running = .stop_threads p i :: fs → (m.sys._threads p)[i]? = some u →
    ∀ t ∈ (m.sys._threads p).drop (i + 1), Settled m t
  /-- Nobody makes a stopped thread of a terminated process runnable. -/
  not_woken : a = .run → ∀ t fs, m.stack m.running = .set_entity_state t RUNNABLE :: fs →
    m.sys._state t = STOPPED → ∀ p, t ∈ m.sys._threads p → m.sys._terminated p = false
  /-- Nobody is midway with a thread that the loop comes to. -/
  not_midway : a = .run → ∀ t fs p i, m.stack m.running = .set_entity_state t STOPPED :: fs →
    fs.getLast? = some (.stop_threads p i) → ∀ c, ∀ f ∈ (m.stack c).head?, f.midway ≠ some t
  /-- A thread in the loop is stopped only by itself, or by another one in such a loop. -/
  not_stopped : a = .run → ∀ u v f fs p i, m.running = some v → m.stack m.running = f :: fs →
    f.changing = some (u, STOPPED) → u ≠ v → Caller m u p i → ∃ j, Caller m v p j
  /-- The timer does not come when a thread that stops itself in the loop has been taken out of the
  run queue, and its state has not been stored. -/
  not_between : a = .lapic_timer → ∀ p i, Caller m m.sys.current_thread p i →
    (m.stack (some m.sys.current_thread)).head? ≠ some (.store m.sys.current_thread STOPPED)

variable {m m' : Machine A P} {f g : Frame T P} {fs gs : List (Frame T P)} {k k' : Sys A P}
  {c : Option T} {a : Action T P} {t u : T} {p : P} {i : ℕ}

/-! ## Threads that have been stopped -/

omit [DecidableEq P] in
theorem head_update {stack : Option T → List (Frame T P)} {Q : Frame T P → Prop}
    (hhead : ∀ g ∈ fs.head?, Q g) (hother : ∀ c', c' ≠ c → ∀ g ∈ (stack c').head?, Q g)
    (c' : Option T) : ∀ g ∈ (Function.update stack c fs c').head?, Q g := by
  by_cases hc : c' = c
  · rw [hc, Function.update_self]
    exact hhead
  · rw [Function.update_of_ne hc]
    exact hother c' hc

theorem midway_step (hstep : f.step m.sys = .ok (gs, k)) (hg : g ∈ gs) (h : g.midway = some t) :
    f.midway = some t ∨ ∃ s, f = .set_entity_state t s ∧ m.sys._state t ≠ s := by
  have hnone : (∀ g ∈ gs, g.midway = none) →
      f.midway = some t ∨ ∃ s, f = .set_entity_state t s ∧ m.sys._state t ≠ s :=
    fun hn => by simp [hn g hg] at h
  cases does hstep with
  | begins hne =>
    obtain rfl := List.mem_singleton.mp hg
    cases h
    exact .inr ⟨_, rfl, hne⟩
  | compared | differs | adds | removes | runs | add_to_runqueue | remove_from_runqueue =>
    obtain rfl := List.mem_singleton.mp hg
    exact .inl h
  | _ => exact hnone (by simp [midway])

theorem settled_run (h : Orderly m) (hg : Undisturbed m .run) (hs : m.stack m.running = f :: fs)
    (hstep : f.step m.sys = .ok (gs, k)) (hp : m.sys._terminated p = true)
    (ht : t ∈ m.sys._threads p) (hset : Settled m t) :
    Settled (A := A) ⟨k, Function.update m.stack m.running (gs ++ fs)⟩ t := by
  have hf : f.midway ≠ some t := hset.alone m.running f (by rw [hs]; rfl)
  have hnew : ∀ g ∈ gs, g.midway ≠ some t := by
    intro g hmem hgt
    rcases midway_step hstep hmem hgt with hft | ⟨s, rfl, hne⟩
    · exact hf hft
    -- what a change of a stopped thread would have to be
    rw [hset.state] at hne
    cases s with
    | STOPPED => exact hne rfl
    | RUNNABLE =>
      have := hg.not_woken rfl t fs hs hset.state p ht
      rw [hp] at this
      cases this
    | RUNNING => exact (h.goals _ _ (hs ▸ List.mem_cons_self) _ rfl).2 rfl
    | SLEEPING =>
      have hw := not_waking_of_changing (f := .set_entity_state t SLEEPING) (P := P) rfl (by simp)
      obtain ⟨hr, -⟩ := h.current_ne hs hw
      have hform := h.form m.sys.current_thread
      rw [← hr, hs] at hform
      obtain ⟨rest, -, hunder⟩ := form_changing hform rfl (by simp)
      have hrun := h.runnable_running hs hw nofun nofun
      cases hunder <;> simp [hset.state] at hrun
  refine ⟨?_, fun c g hmem => ?_⟩
  · rcases step_state hstep t with heq | ⟨s, rfl, -⟩
    · exact heq.trans hset.state
    · exact absurd rfl hf
  · refine head_update (fun g hmem => ?_) (fun c _ => hset.alone c) c g hmem
    cases gs with
    | nil =>
      have := h.below m.running
      rw [hs] at this
      simp [this g (List.mem_of_head? hmem)]
    | cons g' gs =>
      cases hmem
      exact hnew _ List.mem_cons_self

omit [DecidableEq P] in
theorem Settled.same (h : Settled m t) (hm : Same m m') : Settled m' t := by
  refine ⟨by rw [hm.state]; exact h.state, fun c f hf => ?_⟩
  rcases hm.head hf with hf | hf
  · exact h.alone c f hf
  · simp [hf]

theorem settled_step (h : Orderly m) (ha : m.allowed a) (hg : Undisturbed m a)
    (hs : m.step a = .ok m') (hp : m.sys._terminated p = true) (ht : t ∈ m.sys._threads p)
    (hset : Settled m t) : Settled m' t := by
  by_cases hrun : a = .run
  · subst hrun
    obtain ⟨f, fs, gs, k, hstack, hstep, rfl⟩ := step_run hs ha
    exact settled_run h hg hstack hstep hp ht hset
  · exact hset.same (same_step ha hs hrun)

theorem terminated_run (hstep : f.step m.sys = .ok (gs, k)) (p : P) :
    k._terminated p = m.sys._terminated p ∨ f = .terminate p ∧ k._terminated p = true := by
  cases does hstep with
  | schedules hs => exact .inl (congrFun (switched_schedule hs).terminated p)
  | @terminate q =>
    by_cases hq : p = q
    · subst hq
      exact .inr ⟨rfl, Function.update_self _ _ _⟩
    · exact .inl (Function.update_of_ne hq _ _)
  | _ => exact .inl rfl

theorem terminated_other (ha : m.allowed a) (hs : m.step a = .ok m') (hne : a ≠ .run) :
    m'.sys._terminated = m.sys._terminated := by
  cases a with
  | run => exact absurd rfl hne
  | lapic_timer =>
    obtain ⟨k, hk, rfl⟩ := step_lapic_timer hs
    exact (switched_timer hk).terminated
  | _ =>
    cases hs
    rfl

theorem terminated_step (ha : m.allowed a) (hs : m.step a = .ok m')
    (hp : m.sys._terminated p = true) : m'.sys._terminated p = true := by
  by_cases hrun : a = .run
  · subst hrun
    obtain ⟨f, fs, gs, k, -, hstep, rfl⟩ := step_run hs ha
    rcases terminated_run hstep p with heq | ⟨-, heq⟩
    · exact heq.trans hp
    · exact heq
  · rw [terminated_other ha hs hrun]
    exact hp

/-- A new thread comes last, and is stopped. -/
theorem threads_step (ha : m.allowed a) (hs : m.step a = .ok m') (p : P) :
    m'.sys._threads p = m.sys._threads p ∨
      ∃ t, m'.sys._threads p = m.sys._threads p ++ [t] ∧ Settled m' t := by
  cases a with
  | run =>
    obtain ⟨f, fs, gs, k, -, hstep, rfl⟩ := step_run hs ha
    exact .inl (by rw [(step_fixed hstep).1])
  | lapic_timer =>
    obtain ⟨k, hk, rfl⟩ := step_lapic_timer hs
    exact .inl (by rw [(switched_timer hk).threads])
  | create_thread q t =>
    cases hs
    by_cases hq : p = q
    · subst hq
      refine .inr ⟨t, Function.update_self _ _ _, Function.update_self _ _ _, fun c f hf he => ?_⟩
      obtain ⟨s, hgoal⟩ := goal_of_midway he
      exact ha.2.goals c f (List.mem_of_head? hf) _ hgoal rfl
    · exact .inl (Function.update_of_ne hq _ _)
  | _ =>
    cases hs
    exact .inl rfl

/-- All threads of the process are stopped. -/
def AllSettled (m : Machine A P) (p : P) : Prop := ∀ t ∈ m.sys._threads p, Settled m t

theorem all_settled_step (h : Orderly m) (ha : m.allowed a) (hg : Undisturbed m a)
    (hs : m.step a = .ok m') (hp : m.sys._terminated p = true) (hall : AllSettled m p) :
    AllSettled m' p := by
  intro t ht
  rcases threads_step ha hs p with heq | ⟨t', heq, hnew⟩
  · rw [heq] at ht
    exact settled_step h ha hg hs hp ht (hall t ht)
  · rw [heq] at ht
    rcases List.mem_append.mp ht with ht | ht
    · exact settled_step h ha hg hs hp ht (hall t ht)
    · rw [List.mem_singleton] at ht
      exact ht ▸ hnew

/-! ## The loop -/

/-- What the loop has called to stop the thread before its index has not stored its state yet. -/
def Stopping (t : T) (p : P) (i : ℕ) (fs : List (Frame T P)) : Prop :=
  fs = [.stop t, .stop_threads p i] ∨
    ∃ f, f.changing = some (t, STOPPED) ∧ fs = [f, .yield_from t, .stop_threads p i]

/-- The thread runs, or can be picked. -/
def Able (m : Machine A P) (u : T) : Prop :=
  m.sys._state u = RUNNABLE ∧ (u = m.sys.current_thread ∨ m.sys.queued u ≠ 0)

/-- A thread that is in the loop can go on with it. -/
def Underway (m : Machine A P) (p : P) : Prop := ∃ u i, Caller m u p i ∧ Able m u

structure Inv (m : Machine A P) : Prop extends Orderly m where
  /-- The threads before the index of a loop. -/
  before : ∀ u p i, Caller m u p i → m.sys._terminated p = true ∧
    ∀ j t, j < i → (m.sys._threads p)[j]? = some t →
      Settled m t ∨ Stopping t p i (m.stack (some u))
  /-- Those after it, when it is the turn of the thread itself. -/
  after : ∀ u p i, Stopping u p i (m.stack (some u)) →
    ∀ t ∈ (m.sys._threads p).drop i, Settled m t
  member : ∀ u t p i, Stopping t p i (m.stack (some u)) → t ∈ m.sys._threads p
  /-- A change is still to be made. -/
  differs : ∀ c f e s, f ∈ (m.stack c).head? → f.midway = some e → f.changing = some (e, s) →
    m.sys._state e ≠ s
  /-- Who has been taken out of the run queue by another thread is not the current one. -/
  removed : ∀ v x s, (m.stack (some v)).head? = some (.store x s) → s ≠ RUNNABLE → x ≠ v →
    x ≠ m.sys.current_thread
  ends : ∀ p, m.sys._terminated p = true → Underway m p ∨ AllSettled m p

omit [DecidableEq T] [DecidableEq P] in
theorem Stopping.last (h : Stopping t p i fs) : fs.getLast? = some (.stop_threads p i) := by
  rcases h with rfl | ⟨f, -, rfl⟩ <;> rfl

/-- How the loop goes on. -/
theorem caller_step (hstep : f.step k = .ok (gs, k'))
    (h : (gs ++ fs).getLast? = some (.stop_threads p i)) :
    (f = .terminate p ∧ i = 0 ∧ fs = []) ∨
      (∃ j t, f = .stop_threads p j ∧ fs = [] ∧ i = j + 1 ∧ (k._threads p)[j]? = some t ∧
        gs = [.stop t, .stop_threads p i]) ∨
      (fs ≠ [] ∧ (f :: fs).getLast? = some (.stop_threads p i)) := by
  cases fs with
  | cons g fs =>
    rw [List.getLast?_append_of_ne_nil _ (by simp)] at h
    exact .inr (.inr ⟨by simp, by simpa using h⟩)
  | nil =>
    rw [List.append_nil] at h
    cases does hstep with
    | terminate =>
      cases h
      exact .inl ⟨rfl, rfl, rfl⟩
    | stop_next ht =>
      cases h
      exact .inr (.inl ⟨_, _, rfl, rfl, rfl, ht, rfl⟩)
    | _ => cases h

omit [DecidableEq T] [DecidableEq P] in
theorem Stopping.not_waking (h : Stopping t p i fs) : ∀ f ∈ fs, ¬f.Waking := by
  rcases h with rfl | ⟨f, hf, rfl⟩
  · simp [Waking, goal]
  · have := not_waking_of_changing hf (by simp)
    simpa [Waking, goal] using this

omit [DecidableEq T] [DecidableEq P] in
theorem Stopping.not_resumes (h : Stopping t p i fs) : ¬Resumes u fs := by
  intro hr
  cases hr with
  | nothing => simp [Stopping] at h
  | stop_threads => simp [Stopping] at h
  | yields =>
    rcases h with h | ⟨f, hf, h⟩
    · cases h
    · cases h
      cases hf

/-- How the loop comes to stop a thread. -/
theorem stopping_before (hform : Form u (f :: fs)) (hstep : f.step k = .ok (gs, k'))
    (h : Stopping t p i (gs ++ fs)) :
    (∃ j, i = j + 1 ∧ f = .stop_threads p j ∧ fs = [] ∧ (k._threads p)[j]? = some t) ∨
      Stopping t p i (f :: fs) := by
  cases form_topped hform with
  | entry hentry =>
    cases f with
    | start | stop | terminate | sys_wait_proc | sys_join_thread | wait =>
      cases hstep
      simp [Stopping] at h
    | _ => cases hentry
  | waking hw hr => exact absurd (resumes_of_not_waking hstep hw hr h.not_waking) h.not_resumes
  | stop_threads q j =>
    cases does hstep with
    | all_stopped => simp [Stopping] at h
    | stop_next ht =>
      obtain ⟨rfl, rfl, rfl⟩ : _ = t ∧ q = p ∧ j + 1 = i := by simpa [Stopping] using h
      exact .inl ⟨j, rfl, rfl, rfl, ht⟩
  | yields hunder => cases does hstep <;> cases hunder <;> simp [Stopping] at h
  | @stops x rest hunder =>
    cases hstep
    cases hunder with
    | stop => simp [Stopping] at h
    | stop_threads _ q j =>
      obtain ⟨rfl, -, rfl, rfl⟩ : x = t ∧ x = t ∧ q = p ∧ j = i := by
        simpa [Stopping, changing] using h
      exact .inr (.inl rfl)
  | sleeps hunder =>
    cases hstep
    cases hunder <;> simp [Stopping, changing] at h
  | @changes f x s rest hf hunder =>
    rcases changing_step hstep hf with ⟨-, rfl, -⟩ | ⟨g, rfl, hg, -⟩ | ⟨-, rfl, -⟩
    · exact absurd (Resumes.yields hunder) h.not_resumes
    · rcases h with h | ⟨g', hg', h⟩
      · cases h
      · cases h
        obtain rfl : s = STOPPED := congrArg Prod.snd (Option.some.inj (hg.symm.trans hg'))
        exact .inr (.inr ⟨f, hf, rfl⟩)
    · exact absurd (by simp [Waking]) (h.not_waking _ List.mem_cons_self)
  | invokes hunder =>
    cases does hstep
    cases hunder <;> simp [Stopping] at h
  | while_not e => cases does hstep <;> simp [Stopping] at h
  | enables | waits =>
    cases hstep
    simp [Stopping] at h

theorem settled_store (h : Base m) (hs : m.stack m.running = .store t STOPPED :: fs)
    (hstep : (Frame.store t STOPPED).step m.sys = .ok (gs, k)) :
    Settled (A := A) ⟨k, Function.update m.stack m.running (gs ++ fs)⟩ t := by
  cases hstep
  refine ⟨Function.update_self _ _ _, head_update (by simp [midway]) fun c hc g hmem he => ?_⟩
  exact h.elsewhere hs hc hmem he rfl

theorem stopping_step (h : Inv m) (hg : Undisturbed m .run) (hs : m.stack m.running = f :: fs)
    (hstep : f.step m.sys = .ok (gs, k)) (hstop : Stopping t p i (f :: fs)) :
    Stopping t p i (gs ++ fs) ∨
      Settled (A := A) ⟨k, Function.update m.stack m.running (gs ++ fs)⟩ t := by
  rcases hstop with hstack | ⟨f', hf, hstack⟩
  · cases hstack
    cases hstep
    exact .inl (.inr ⟨_, rfl, rfl⟩)
  · cases hstack
    rcases changing_step hstep hf with ⟨rfl, rfl, rfl, hst⟩ | ⟨g, rfl, hg', -⟩ | ⟨rfl, rfl, rfl⟩
    · refine .inr ⟨hst, head_update (by simp [midway]) fun c _ => ?_⟩
      exact hg.not_midway rfl t _ p i hs rfl c
    · exact .inl (.inr ⟨g, hg', rfl⟩)
    · exact .inr (settled_store h.toBase hs hstep)

theorem before_run (h : Inv m) (hg : Undisturbed m .run) (hs : m.stack m.running = f :: fs)
    (hstep : f.step m.sys = .ok (gs, k))
    (hc : Caller (A := A) ⟨k, Function.update m.stack m.running (gs ++ fs)⟩ u p i) :
    k._terminated p = true ∧ ∀ j t, j < i → (k._threads p)[j]? = some t →
      Settled (A := A) ⟨k, Function.update m.stack m.running (gs ++ fs)⟩ t ∨
        Stopping t p i (Function.update m.stack m.running (gs ++ fs) (some u)) := by
  have hold : ∀ {i' : ℕ}, Caller m u p i' → k._terminated p = true ∧
      ∀ j t, j < i' → (k._threads p)[j]? = some t →
        Settled (A := A) ⟨k, Function.update m.stack m.running (gs ++ fs)⟩ t ∨
          Stopping t p i' (m.stack (some u)) := by
    intro i' hcall
    obtain ⟨hp, hbefore⟩ := h.before u p i' hcall
    refine ⟨(terminated_run hstep p).elim (fun heq => heq.trans hp) And.right, fun j t hj ht => ?_⟩
    rw [(step_fixed hstep).1] at ht
    exact (hbefore j t hj ht).imp_left
      (settled_run h.toOrderly hg hs hstep hp (List.mem_of_getElem? ht))
  unfold Caller at hc
  dsimp only at hc
  by_cases hr : some u = m.running
  · rw [hr, Function.update_self] at hc ⊢
    have hcall : ∀ {i' : ℕ}, (f :: fs).getLast? = some (.stop_threads p i') → Caller m u p i' := by
      intro i' hlast
      unfold Caller
      rwa [hr, hs]
    rcases caller_step hstep hc with ⟨rfl, rfl, rfl⟩ | ⟨j, t, rfl, rfl, rfl, ht, rfl⟩ | ⟨-, hlast⟩
    · cases hstep
      exact ⟨Function.update_self _ _ _, fun j t hj => absurd hj (Nat.not_lt_zero j)⟩
    · obtain ⟨hp, hbefore⟩ := hold (hcall rfl)
      refine ⟨hp, fun j' t' hj' ht' => ?_⟩
      by_cases hlt : j' < j
      · refine (hbefore j' t' hlt ht').imp_right fun hstop => ?_
        rw [hr, hs] at hstop
        simp [Stopping] at hstop
      · obtain rfl : j' = j := by omega
        rw [(step_fixed hstep).1, ht] at ht'
        cases ht'
        exact .inr (.inl rfl)
    · obtain ⟨hp, hbefore⟩ := hold (hcall hlast)
      refine ⟨hp, fun j t hj ht => ?_⟩
      rcases hbefore j t hj ht with hset | hstop
      · exact .inl hset
      · rw [hr, hs] at hstop
        exact (stopping_step h hg hs hstep hstop).symm
  · rw [Function.update_of_ne hr] at hc ⊢
    exact hold hc

theorem after_run (h : Inv m) (hg : Undisturbed m .run) (hs : m.stack m.running = f :: fs)
    (hstep : f.step m.sys = .ok (gs, k))
    (hstop : Stopping u p i (Function.update m.stack m.running (gs ++ fs) (some u))) :
    ∀ t ∈ (k._threads p).drop i,
      Settled (A := A) ⟨k, Function.update m.stack m.running (gs ++ fs)⟩ t := by
  have key : m.sys._terminated p = true → (∀ t ∈ (m.sys._threads p).drop i, Settled m t) →
      ∀ t ∈ (k._threads p).drop i,
        Settled (A := A) ⟨k, Function.update m.stack m.running (gs ++ fs)⟩ t := by
    intro hp hall t ht
    rw [(step_fixed hstep).1] at ht
    exact settled_run h.toOrderly hg hs hstep hp (List.mem_of_mem_drop ht) (hall t ht)
  by_cases hr : some u = m.running
  · rw [hr, Function.update_self] at hstop
    have hform := h.form u
    rw [hr, hs] at hform
    rcases stopping_before hform hstep hstop with ⟨j, rfl, rfl, rfl, ht⟩ | hold
    · have hcall : Caller m u p j := by
        unfold Caller
        rw [hr, hs]
        rfl
      exact key (h.before u p j hcall).1 (hg.last rfl u p j [] hr.symm hs ht)
    · have hcall : Caller m u p i := by
        unfold Caller
        rw [hr, hs]
        exact hold.last
      exact key (h.before u p i hcall).1 (h.after u p i (by rwa [hr, hs]))
  · rw [Function.update_of_ne hr] at hstop
    exact key (h.before u p i hstop.last).1 (h.after u p i hstop)

/-! ## Changes that are midway -/

omit [DecidableEq T] [DecidableEq P] in
theorem changing_of_midway (h : f.midway = some t) : ∃ s, f.changing = some (t, s) := by
  cases f <;> first | exact ⟨_, congrArg (Option.map fun e => (e, _)) h⟩ | cases h

theorem differs_run (h : Inv m) (hs : m.stack m.running = f :: fs)
    (hstep : f.step m.sys = .ok (gs, k)) {e : T} {s : SchedulingEntityState} (c : Option T) :
    ∀ g ∈ (Function.update m.stack m.running (gs ++ fs) c).head?, g.midway = some e →
      g.changing = some (e, s) → k._state e ≠ s := by
  refine head_update (fun g hmem he hch => ?_) (fun c hc g hmem he hch => ?_) c
  · cases gs with
    | nil =>
      have := h.below m.running
      rw [hs] at this
      simp [this g (List.mem_of_head? hmem)] at he
    | cons g' gs =>
      cases hmem
      obtain ⟨s', hf, hne⟩ : ∃ s', f.changing = some (e, s') ∧ m.sys._state e ≠ s' := by
        rcases midway_step hstep List.mem_cons_self he with hfe | ⟨s', rfl, hne⟩
        · obtain ⟨s', hf⟩ := changing_of_midway hfe
          exact ⟨s', hf, h.differs m.running f e s' (by rw [hs]; rfl) hfe hf⟩
        · exact ⟨s', rfl, hne⟩
      rcases changing_step hstep hf with ⟨-, hnil, -⟩ | ⟨g', hgs, hg', hst⟩ | ⟨-, hgs, -⟩
      · cases hnil
      · cases hgs
        rw [hch] at hg'
        cases hg'
        rw [hst]
        exact hne
      · cases hgs
        cases he
  · have hne := h.elsewhere hs hc hmem he
    rcases step_state hstep e with heq | ⟨s', rfl, -⟩
    · rw [heq]
      exact h.differs c g e s hmem he hch
    · exact absurd rfl hne

omit [DecidableEq P] in
/-- Who has been taken out of the run queue is not picked. -/
theorem next_ne {k : Sys A P} {x : T} {s : SchedulingEntityState} (h : Base m)
    (hk : Switched m.sys k) (hx : (m.stack c).head? = some (.store x s)) (hs : s ≠ RUNNABLE) :
    x ≠ k.next_entity := by
  rintro rfl
  have hgoal := h.goals c _ (List.mem_of_head? hx) _ rfl
  have hq := Sys.next_queued (k := k) (by rw [hk.idle_entity]; exact hgoal.1)
  rw [hk.queued] at hq
  have hmid := h.first c _ hx
  cases s with
  | RUNNABLE => exact hs rfl
  | RUNNING => exact hgoal.2 rfl
  | STOPPED | SLEEPING => exact hq hmid

theorem removed_run (h : Inv m) (hs : m.stack m.running = f :: fs)
    (hstep : f.step m.sys = .ok (gs, k)) {v x : T} {s : SchedulingEntityState}
    (hx : (Function.update m.stack m.running (gs ++ fs) (some v)).head? = some (.store x s))
    (hsr : s ≠ RUNNABLE) (hxv : x ≠ v) : x ≠ k.current_thread := by
  by_cases hf : f = .invoke_kernel_syscall
  · subst hf
    obtain ⟨rfl, hk⟩ := step_syscall hstep
    obtain ⟨-, hthread, -⟩ := Sys.schedule_current h.active h.current hk
    rw [hthread]
    by_cases hr : some v = m.running
    · rw [hr, Function.update_self, List.nil_append] at hx
      have := h.below m.running
      rw [hs] at this
      simpa [midway] using this _ (List.mem_of_head? hx)
    · rw [Function.update_of_ne hr] at hx
      exact next_ne h.toBase ⟨rfl, rfl, rfl, rfl, rfl, rfl, rfl, fun _ => rfl⟩ hx hsr
  · rw [(step_quiet hstep hf).current_thread]
    by_cases hr : some v = m.running
    · rcases running_eq m with ⟨hn, -⟩ | ⟨hn, -⟩
      · rw [hn] at hr
        cases hr
      · rw [Option.some.inj (hn.symm.trans hr.symm)]
        exact hxv
    · rw [Function.update_of_ne hr] at hx
      exact h.removed v x s hx hsr hxv

/-! ## Who is in the loop -/

omit [DecidableEq P] in
theorem Caller.ne_idle (h : Sound m) (hc : Caller m u p i) : u ≠ m.sys._idle_entity := by
  rintro rfl
  unfold Caller at hc
  rw [h.idle_stack] at hc
  cases hc

omit [DecidableEq P] in
/-- A runnable thread that runs is in the run queue, unless it is taking itself out. -/
theorem queued_of_runnable (h : Inv m) (hi : m.sys.current_thread ≠ m.sys._idle_entity)
    (hst : m.sys._state m.sys.current_thread = RUNNABLE)
    (hown : ∀ s, s ≠ RUNNABLE → (m.stack (some m.sys.current_thread)).head? ≠
      some (.store m.sys.current_thread s)) : m.sys.queued m.sys.current_thread ≠ 0 := by
  have hmirrors : Mirrors (· = ·) m.sys m.sys.current_thread →
      m.sys.queued m.sys.current_thread ≠ 0 := by
    intro hm
    unfold Mirrors at hm
    rw [hm, hst]
    exact Nat.one_ne_zero
  by_cases hmid : ∀ c, ∀ f ∈ (m.stack c).head?, f.midway ≠ some m.sys.current_thread
  · exact hmirrors (h.mirrors _ hi hmid)
  -- somebody is midway with it
  obtain ⟨c, f, hf, hfe⟩ : ∃ c, ∃ f ∈ (m.stack c).head?, f.midway = some m.sys.current_thread := by
    by_contra hn
    exact hmid fun c f hf hfe => hn ⟨c, f, hf, hfe⟩
  have hfirst := h.first c f hf
  obtain ⟨s, hch⟩ := changing_of_midway hfe
  have hne : s ≠ RUNNABLE := by
    have := h.differs c f _ s hf hfe hch
    rw [hst] at this
    exact this.symm
  cases f with
  | compare x s' rest =>
    cases hfe
    exact hmirrors hfirst.1
  | add_to_runqueue x s' =>
    cases hch
    exact absurd hfirst.2 hne
  | remove_from_runqueue x s' =>
    cases hfe
    rw [hfirst.1]
    exact Nat.one_ne_zero
  | store x s' =>
    cases hch
    cases c with
    | none =>
      have hw := h.handler _ (List.mem_of_head? hf)
      exact absurd hw (not_waking_of_changing rfl hne)
    | some v =>
      by_cases hv : m.sys.current_thread = v
      · rw [← hv] at hf
        exact absurd hf (hown s hne)
      · exact absurd rfl (h.removed v _ s hf hne hv)
  | _ => cases hfe

theorem queued_run (h : Inv m) (hs : m.stack m.running = f :: fs)
    (hstep : f.step m.sys = .ok (gs, k)) (hq : m.sys.queued u ≠ 0)
    (hno : ∀ s, f ≠ .remove_from_runqueue u s) : k.queued u ≠ 0 := by
  by_cases hmid : f.midway = some u
  · cases does hstep with
    | add_to_runqueue =>
      unfold Sys.queued at hq ⊢
      rw [A.count_add]
      omega
    | remove_from_runqueue =>
      cases hmid
      exact absurd rfl (hno _)
    | already | begins | compared | differs | adds | removes | runs | store => exact hq
    | _ => cases hmid
  · rw [(h.other hs hstep hmid).1]
    exact hq

/-- The thread that is in the loop has come to itself in the list. -/
theorem settled_self {s : SchedulingEntityState} (h : Inv m) (hg : Undisturbed m .run)
    (hs : m.stack m.running = .store u s :: fs)
    (hstep : (Frame.store u s).step m.sys = .ok (gs, k)) (hr : some u = m.running)
    (hcall : Caller m u p i) (hsr : s ≠ RUNNABLE) :
    AllSettled (A := A) ⟨k, Function.update m.stack m.running (gs ++ fs)⟩ p := by
  obtain ⟨hp, hbefore⟩ := h.before u p i hcall
  have hform := h.form u
  unfold Caller at hcall
  rw [hr, hs] at hcall hform hbefore
  have hstop : Stopping u p i (.store u s :: fs) := by
    obtain ⟨rest, rfl, hunder⟩ := form_changing hform rfl hsr
    cases hunder with
    | stop_threads _ q j =>
      obtain ⟨rfl, rfl⟩ : q = p ∧ j = i := by simpa using hcall
      exact .inr ⟨_, rfl, rfl⟩
    | stop | sleep | sleep_while => simp at hcall
  have hself : Settled (A := A) ⟨k, Function.update m.stack m.running (gs ++ fs)⟩ u := by
    refine (stopping_step h hg hs hstep hstop).resolve_left ?_
    cases hstep
    rcases hstop with hstop | ⟨f', hf', hstop⟩ <;> cases hstop
    simp [Stopping, changing]
  intro t ht
  dsimp only at ht
  rw [(step_fixed hstep).1] at ht
  obtain ⟨j, hj, rfl⟩ := List.mem_iff_getElem.mp ht
  by_cases hlt : j < i
  · rcases hbefore j _ hlt (List.getElem?_eq_getElem hj) with hset | hstop'
    · exact settled_run h.toOrderly hg hs hstep hp ht hset
    · have heq : (m.sys._threads p)[j] = u := by
        rcases hstop' with h' | ⟨f', hf', h'⟩
        · cases h'
        · cases h'
          exact (congrArg Prod.fst (Option.some.inj hf')).symm
      exact heq ▸ hself
  · refine settled_run h.toOrderly hg hs hstep hp ht (h.after u p i (by rwa [hr, hs]) _ ?_)
    exact List.mem_drop_iff_getElem.mpr ⟨j - i, by omega, by congr 1; omega⟩

/-- The thread that is in the loop runs. -/
theorem caller_own (h : Inv m) (hg : Undisturbed m .run) (hs : m.stack m.running = f :: fs)
    (hstep : f.step m.sys = .ok (gs, k)) (hr : some u = m.running) (hcall : Caller m u p i)
    (hst : m.sys._state u = RUNNABLE) :
    (∃ j, i ≤ j ∧ Caller (A := A) ⟨k, Function.update m.stack m.running (gs ++ fs)⟩ u p j ∧
      Able (A := A) ⟨k, Function.update m.stack m.running (gs ++ fs)⟩ u) ∨
      AllSettled (A := A) ⟨k, Function.update m.stack m.running (gs ++ fs)⟩ p := by
  obtain ⟨hp, hbefore⟩ := h.before u p i hcall
  have hidle := hcall.ne_idle h.toSound
  have hcur : m.sys.current_thread = u := by
    rcases running_eq m with ⟨hn, -⟩ | ⟨hn, -⟩
    · rw [hn] at hr
      cases hr
    · exact (Option.some.inj (hr.trans hn)).symm
  have hlast : (f :: fs).getLast? = some (.stop_threads p i) := by
    unfold Caller at hcall
    rwa [hr, hs] at hcall
  rw [hr, hs] at hbefore
  cases fs with
  | nil =>
    obtain rfl : f = .stop_threads p i := by simpa using hlast
    cases does hstep with
    | all_stopped hnone =>
      refine .inr fun t ht => ?_
      change t ∈ m.sys._threads p at ht
      refine settled_run h.toOrderly hg hs hstep hp ht ?_
      obtain ⟨j, hj, rfl⟩ := List.mem_iff_getElem.mp ht
      have hlen := List.getElem?_eq_none_iff.mp hnone
      refine (hbefore j _ (by omega) (List.getElem?_eq_getElem hj)).resolve_right ?_
      simp [Stopping]
    | stop_next ht =>
      refine .inl ⟨i + 1, Nat.le_succ i, ?_, hst, .inl hcur.symm⟩
      unfold Caller
      dsimp only
      rw [hr, Function.update_self]
      rfl
  | cons g fs =>
    have hcall' : Caller (A := A) ⟨k, Function.update m.stack m.running (gs ++ g :: fs)⟩ u p i := by
      unfold Caller
      dsimp only
      rw [hr, Function.update_self, List.getLast?_append_of_ne_nil _ (by simp)]
      simpa using hlast
    rcases step_state hstep u with heq | ⟨s, rfl, rfl, heq⟩
    · refine .inl ⟨i, le_rfl, hcall', heq.trans hst, ?_⟩
      by_cases hf : f = .invoke_kernel_syscall
      · -- it stays in the run queue
        subst hf
        have hk := (step_syscall hstep).2
        have hq := queued_of_runnable h (by rwa [hcur]) (by rwa [hcur]) (by
          intro s _
          rw [hcur, hr, hs]
          simp)
        right
        rw [hcur, ← (schedule_queued hk u).1] at hq
        exact hq
      · left
        dsimp only
        rw [(step_quiet hstep hf).current_thread]
        exact hcur.symm
    by_cases hsr : s = RUNNABLE
    · refine .inl ⟨i, le_rfl, hcall', heq.trans hsr, .inl ?_⟩
      dsimp only
      rw [(step_quiet hstep (by simp)).current_thread]
      exact hcur.symm
    · exact .inr (settled_self h hg hs hstep hr hcall hsr)

omit [DecidableEq P] in
theorem caller_elsewhere (hr : some u ≠ c) (hcall : Caller m u p i) :
    Caller (A := A) ⟨k, Function.update m.stack c fs⟩ u p i := by
  unfold Caller
  dsimp only
  rw [Function.update_of_ne hr]
  exact hcall

/-- The thread has been stopped, or will be as soon as its state is stored. -/
def Taken (m : Machine A P) (t : T) : Prop :=
  Settled m t ∨ ∃ c, (m.stack c).head? = some (.store t STOPPED)

omit [DecidableEq P] in
theorem not_taken (h : Inv m) (hable : Able m u) (hcur : u ≠ m.sys.current_thread) :
    ¬Taken m u := by
  have hq := hable.2.resolve_left hcur
  rintro (hset | ⟨c, hc⟩)
  · have := hable.1
    rw [hset.state] at this
    cases this
  · exact hq (h.first c _ hc)

/-- Another thread takes the one in the loop out of the run queue, and is in a loop itself. -/
theorem caller_taken {s : SchedulingEntityState} (h : Inv m) (hg : Undisturbed m .run)
    (hs : m.stack m.running = .remove_from_runqueue u s :: fs)
    (hstep : (Frame.remove_from_runqueue u s).step m.sys = .ok (gs, k)) (hr : some u ≠ m.running)
    (hcall : Caller m u p i) (hable : Able m u) :
    Underway (A := A) ⟨k, Function.update m.stack m.running (gs ++ fs)⟩ p ∧
      u ∈ m.sys._threads p ∧ ¬Taken m u ∧
      Taken (A := A) ⟨k, Function.update m.stack m.running (gs ++ fs)⟩ u := by
  have hfirst := h.first m.running _ (by rw [hs]; rfl)
  have hsr : s ≠ RUNNABLE := by
    rintro rfl
    simpa using hfirst.2.2
  have hw : ¬(Frame.remove_from_runqueue u s : Frame T P).Waking := not_waking_of_changing rfl hsr
  obtain ⟨hrun, -⟩ := h.current_ne hs hw
  have hne : u ≠ m.sys.current_thread := fun he => hr (by rw [hrun, he])
  have hform := h.form m.sys.current_thread
  rw [← hrun, hs] at hform
  obtain ⟨rest, rfl, hunder⟩ := form_changing hform rfl hsr
  have hstopped : s = STOPPED := by
    cases hunder with
    | stop | stop_threads => rfl
    | sleep | sleep_while => exact absurd rfl hne
  subst hstopped
  obtain ⟨j, hj⟩ := hg.not_stopped rfl u _ _ _ p i hrun hs rfl hne hcall
  have hrunnable := h.runnable_running hs hw (by simp) (by simp)
  unfold Caller at hj
  rw [← hrun, hs] at hj
  have hstop : Stopping u p j (m.stack (some m.sys.current_thread)) := by
    rw [← hrun, hs]
    cases hunder with
    | stop => simp at hj
    | stop_threads _ q j' =>
      obtain ⟨rfl, rfl⟩ : q = p ∧ j' = j := by simpa using hj
      exact .inr ⟨_, rfl, rfl⟩
  refine ⟨⟨m.sys.current_thread, j, ?_, ?_, .inl ?_⟩, h.member _ _ _ _ hstop,
    not_taken h hable hne, .inr ⟨m.running, ?_⟩⟩
  · unfold Caller
    dsimp only
    rw [← hrun, Function.update_self, List.getLast?_append_of_ne_nil _ (by simp)]
    simpa using hj
  · cases hstep
    exact hrunnable
  · cases hstep
    rfl
  · cases hstep
    dsimp only
    rw [Function.update_self]
    rfl

/-- Another thread runs, or the handler, and does not take the one in the loop out of the run
queue. -/
theorem able_run (h : Inv m) (hs : m.stack m.running = f :: fs)
    (hstep : f.step m.sys = .ok (gs, k)) (hr : some u ≠ m.running)
    (hf : ∀ s, f ≠ .remove_from_runqueue u s) (hable : Able m u) :
    Able (A := A) ⟨k, Function.update m.stack m.running (gs ++ fs)⟩ u := by
  have hfirst := h.first m.running f (by rw [hs]; rfl)
  have hstate : k._state u = RUNNABLE := by
    rcases step_state hstep u with heq | ⟨s, rfl, -, heq⟩
    · exact heq.trans hable.1
    · refine heq.trans ?_
      by_contra hsr
      have hw : ¬(Frame.store u s : Frame T P).Waking := not_waking_of_changing rfl hsr
      have hne : u ≠ m.sys.current_thread := fun he => hr (by rw [(h.current_ne hs hw).1, he])
      have hgoal := (h.goals _ _ (hs ▸ List.mem_cons_self) _ rfl).2
      refine hable.2.resolve_left hne ?_
      cases s with
      | RUNNABLE => exact absurd rfl hsr
      | RUNNING => exact absurd rfl hgoal
      | STOPPED | SLEEPING => exact hfirst
  refine ⟨hstate, ?_⟩
  rcases hable.2 with hcur | hq
  · left
    have hn : m.running = none := by
      rcases running_eq m with ⟨hn, -⟩ | ⟨hn, -⟩
      · exact hn
      · exact absurd (by rw [hn, hcur]) hr
    have hf : f ≠ .invoke_kernel_syscall := by
      rintro rfl
      have := h.handler _ (by rw [← hn, hs]; exact List.mem_cons_self)
      simp [Waking, goal] at this
    exact hcur.trans (step_quiet hstep hf).current_thread.symm
  · exact .inr (queued_run h hs hstep hq hf)

/-- Another thread runs, or the handler. Unless it takes the one in the loop out of the run queue,
that one can go on; else it is in a loop itself. -/
theorem caller_other (h : Inv m) (hg : Undisturbed m .run) (hs : m.stack m.running = f :: fs)
    (hstep : f.step m.sys = .ok (gs, k)) (hr : some u ≠ m.running) (hcall : Caller m u p i)
    (hable : Able m u) :
    Able (A := A) ⟨k, Function.update m.stack m.running (gs ++ fs)⟩ u ∨
      Underway (A := A) ⟨k, Function.update m.stack m.running (gs ++ fs)⟩ p ∧
        u ∈ m.sys._threads p ∧ ¬Taken m u ∧
        Taken (A := A) ⟨k, Function.update m.stack m.running (gs ++ fs)⟩ u := by
  by_cases hf : ∃ s, f = .remove_from_runqueue u s
  · obtain ⟨s, rfl⟩ := hf
    exact .inr (caller_taken h hg hs hstep hr hcall hable)
  · push Not at hf
    exact .inl (able_run h hs hstep hr hf hable)

omit [DecidableEq T] [DecidableEq P] in
theorem form_terminate (h : Form u (.terminate p :: fs)) : fs = [] := by
  cases form_topped h with
  | entry => rfl
  | waking hw =>
    have := hw _ List.mem_cons_self
    simp [Waking, goal] at this
  | changes hf => cases hf

theorem ends_run (h : Inv m) (hg : Undisturbed m .run) (hs : m.stack m.running = f :: fs)
    (hstep : f.step m.sys = .ok (gs, k)) (hp : k._terminated p = true) :
    Underway (A := A) ⟨k, Function.update m.stack m.running (gs ++ fs)⟩ p ∨
      AllSettled (A := A) ⟨k, Function.update m.stack m.running (gs ++ fs)⟩ p := by
  by_cases hold : m.sys._terminated p = true
  · rcases h.ends p hold with ⟨u, i, hcall, hable⟩ | hall
    · by_cases hr : some u = m.running
      · refine (caller_own h hg hs hstep hr hcall hable.1).imp_left ?_
        rintro ⟨j, -, hcall, hable⟩
        exact ⟨u, j, hcall, hable⟩
      · refine .inl ?_
        rcases caller_other h hg hs hstep hr hcall hable with hable | ⟨hunder, -⟩
        · exact ⟨u, i, caller_elsewhere hr hcall, hable⟩
        · exact hunder
    · refine .inr fun t ht => ?_
      dsimp only at ht
      rw [(step_fixed hstep).1] at ht
      exact settled_run h.toOrderly hg hs hstep hold ht (hall t ht)
  · obtain ⟨rfl, -⟩ := (terminated_run hstep p).resolve_left fun heq => hold (heq ▸ hp)
    -- the current thread begins the loop
    have hw : ¬(Frame.terminate p : Frame T P).Waking := by simp [Waking, goal]
    obtain ⟨hr, -⟩ := h.current_ne hs hw
    have hrunnable := h.runnable_running hs hw (by simp) (by simp)
    have hform := h.form m.sys.current_thread
    rw [← hr, hs] at hform
    obtain rfl := form_terminate hform
    cases hstep
    refine .inl ⟨m.sys.current_thread, 0, ?_, hrunnable, .inl rfl⟩
    unfold Caller
    dsimp only
    rw [← hr, Function.update_self]
    rfl

theorem member_run (h : Inv m) (hs : m.stack m.running = f :: fs)
    (hstep : f.step m.sys = .ok (gs, k))
    (hstop : Stopping t p i (Function.update m.stack m.running (gs ++ fs) (some u))) :
    t ∈ k._threads p := by
  rw [(step_fixed hstep).1]
  by_cases hr : some u = m.running
  · rw [hr, Function.update_self] at hstop
    have hform := h.form u
    rw [hr, hs] at hform
    rcases stopping_before hform hstep hstop with ⟨j, -, -, -, ht⟩ | hold
    · exact List.mem_of_getElem? ht
    · exact h.member u t p i (by rwa [hr, hs])
  · rw [Function.update_of_ne hr] at hstop
    exact h.member u t p i hstop

theorem inv_run (h : Inv m) (hg : Undisturbed m .run) (hs : m.stack m.running = f :: fs)
    (hstep : f.step m.sys = .ok (gs, k)) :
    Inv (A := A) ⟨k, Function.update m.stack m.running (gs ++ fs)⟩ where
  toOrderly := orderly_run h.toOrderly hg.no_overlap hs hstep
  before _ _ _ hc := before_run h hg hs hstep hc
  after _ _ _ hstop := after_run h hg hs hstep hstop
  member _ _ _ _ hstop := member_run h hs hstep hstop
  differs c g _ _ hmem := differs_run h hs hstep c g hmem
  removed _ _ _ hx := removed_run h hs hstep hx
  ends _ hp := ends_run h hg hs hstep hp

/-! ## The other actions -/

omit [DecidableEq P] in
theorem caller_same (hm : Same m m') : Caller m' u p i ↔ Caller m u p i := by
  unfold Caller
  rcases hm.stack (some u) with heq | ⟨hnil, f, hf, hor⟩
  · rw [heq]
  · rw [hnil, hf]
    refine ⟨fun hc => ?_, fun hc => by cases hc⟩
    obtain rfl : f = .stop_threads p i := by simpa using hc
    rcases hor with he | ⟨n, hn⟩
    · cases he
    · cases hn

omit [DecidableEq P] in
theorem stopping_same (hm : Same m m') (h : Stopping t p i (m'.stack c)) :
    m'.stack c = m.stack c := by
  refine (hm.stack c).resolve_right ?_
  rintro ⟨-, f, hf, -⟩
  rw [hf] at h
  simp [Stopping] at h

omit [DecidableEq P] in
/-- The timer picks the current thread. -/
theorem current_timer (h : Orderly m) (hk : m.sys.lapic_timer_irq_handler = .ok k) :
    ∃ k₁, Switched m.sys k₁ ∧ k.current_thread = k₁.next_entity := by
  have hclock := (switched_update_runtime Sys.tick_length m.sys).trans (switched_update_accounting _)
  obtain ⟨hc, ht⟩ := Sys.update_accounting_current (m.sys.update_runtime Sys.tick_length)
  have hcur := hc.trans (Sys.update_runtime_current _ _)
  have hthread := ht.trans (Sys.update_runtime_current_thread _ _)
  exact ⟨_, hclock, (Sys.schedule_current (hclock.active.trans h.active)
    (fun c hmem => (h.current c (hcur ▸ hmem)).trans hthread.symm) hk).2.1⟩

/-- Only the timer changes the current thread. -/
theorem current_other (h : Orderly m) (ha : m.allowed a) (hs : m.step a = .ok m') (hne : a ≠ .run) :
    m'.sys.current_thread = m.sys.current_thread ∨
      a = .lapic_timer ∧ ∃ k₁, Switched m.sys k₁ ∧ m'.sys.current_thread = k₁.next_entity := by
  cases a with
  | run => exact absurd rfl hne
  | lapic_timer =>
    obtain ⟨k, hk, rfl⟩ := step_lapic_timer hs
    exact .inr ⟨rfl, current_timer h hk⟩
  | _ =>
    cases hs
    exact .inl rfl

omit [DecidableEq P] in
/-- A thread in the loop does not go to sleep. -/
theorem not_sleeping (h : Orderly m) (hc : Caller m u p i) {s : SchedulingEntityState}
    (hx : (m.stack (some u)).head? = some (.store u s)) (hs : s ≠ RUNNABLE) : s = STOPPED := by
  obtain ⟨fs, hstack⟩ := List.head?_eq_some_iff.mp hx
  have hform := h.form u
  rw [hstack] at hform
  obtain ⟨rest, rfl, hunder⟩ := form_changing hform rfl hs
  unfold Caller at hc
  rw [hstack] at hc
  cases hunder with
  | stop | stop_threads => rfl
  | sleep | sleep_while => simp at hc

/-- A thread in the loop can go on after the timer. -/
theorem able_other (h : Inv m) (ha : m.allowed a) (hg : Undisturbed m a) (hs : m.step a = .ok m')
    (hne : a ≠ .run) (hc : Caller m u p i) (hable : Able m u) : Able m' u := by
  have hm := same_step ha hs hne
  refine ⟨by rw [hm.state]; exact hable.1, ?_⟩
  rw [hm.queued]
  rcases hable.2 with rfl | hq
  · rcases current_other h.toOrderly ha hs hne with heq | ⟨rfl, -⟩
    · exact .inl heq.symm
    · refine .inr (queued_of_runnable h (hc.ne_idle h.toSound) hable.1 fun s hsr hx => ?_)
      obtain rfl := not_sleeping h.toOrderly hc hx hsr
      exact hg.not_between rfl p i hc hx
  · exact .inr hq

theorem inv_other (h : Inv m) (ha : m.allowed a) (hg : Undisturbed m a) (hs : m.step a = .ok m')
    (hne : a ≠ .run) : Inv m' := by
  have hm := same_step ha hs hne
  have horderly := orderly_step h.toOrderly ha hg.no_overlap hs
  have hterm := terminated_other ha hs hne
  refine { horderly with
    before := fun u p i hc => ?_, after := fun u p i hstop t ht => ?_,
    member := fun u t p i hstop => ?_, differs := fun c f e s hf he hch => ?_,
    removed := fun v x s hx hsr hxv => ?_, ends := fun p hp => ?_ }
  · rw [caller_same hm] at hc
    obtain ⟨hp, hbefore⟩ := h.before u p i hc
    refine ⟨hterm ▸ hp, fun j t hj ht => ?_⟩
    have hold : (m.sys._threads p)[j]? = some t →
        Settled m' t ∨ Stopping t p i (m'.stack (some u)) := by
      intro ht
      refine (hbefore j t hj ht).imp (fun hset => hset.same hm) fun hstop => ?_
      rcases hm.stack (some u) with heq | ⟨hnil, -⟩
      · rwa [heq]
      · rw [hnil] at hstop
        simp [Stopping] at hstop
    rcases threads_step ha hs p with heq | ⟨t', heq, hnew⟩
    · rw [heq] at ht
      exact hold ht
    · rw [heq, List.getElem?_append] at ht
      split at ht
      · exact hold ht
      · obtain rfl := List.mem_singleton.mp (List.mem_of_getElem? ht)
        exact .inl hnew
  · rw [stopping_same hm hstop] at hstop
    have hold := h.after u p i hstop
    rcases threads_step ha hs p with heq | ⟨t', heq, hnew⟩
    · rw [heq] at ht
      exact (hold t ht).same hm
    · rw [heq, List.drop_append] at ht
      rcases List.mem_append.mp ht with ht | ht
      · exact (hold t ht).same hm
      · obtain rfl := List.mem_singleton.mp (List.mem_of_mem_drop ht)
        exact hnew
  · rw [stopping_same hm hstop] at hstop
    have hold := h.member u t p i hstop
    rcases threads_step ha hs p with heq | ⟨t', heq, -⟩ <;> rw [heq]
    · exact hold
    · exact List.mem_append_left _ hold
  · rw [hm.state]
    rcases hm.head hf with hf | hf
    · exact h.differs c f e s hf he hch
    · rw [hf] at he
      cases he
  · have hold : (m.stack (some v)).head? = some (.store x s) := by
      rcases hm.stack (some v) with heq | ⟨-, g, hg, hor⟩
      · rwa [heq] at hx
      · rw [hg] at hx
        cases hx
        rcases hor with he | ⟨n, hn⟩
        · cases he
        · cases hn
    rcases current_other h.toOrderly ha hs hne with heq | ⟨-, k₁, hk, heq⟩ <;> rw [heq]
    · exact h.removed v x s hold hsr hxv
    · exact next_ne h.toBase hk hold hsr
  · rw [hterm] at hp
    rcases h.ends p hp with ⟨u, i, hc, hable⟩ | hall
    · exact .inl ⟨u, i, (caller_same hm).mpr hc, able_other h ha hg hs hne hc hable⟩
    · exact .inr (all_settled_step h.toOrderly ha hg hs hp hall)

theorem inv_step (h : Inv m) (ha : m.allowed a) (hg : Undisturbed m a) (hs : m.step a = .ok m') :
    Inv m' := by
  by_cases hrun : a = .run
  · subst hrun
    obtain ⟨f, fs, gs, k, hstack, hstep, rfl⟩ := step_run hs ha
    exact inv_run h hg hstack hstep
  · exact inv_other h ha hg hs hrun

omit [DecidableEq P] in
theorem inv_booted (h : Booted m) : Inv m := by
  have hnil : ∀ c, m.stack c = [] := h.stack
  have hstop : ∀ {t p i c}, ¬Stopping t p i (m.stack c) := by simp [Stopping, hnil]
  refine { orderly_booted h with
    before := fun u p i hc => ?_, after := fun u p i hs => absurd hs hstop,
    member := fun u t p i hs => absurd hs hstop, differs := fun c f e s hf => ?_,
    removed := fun v x s hx => ?_, ends := fun p hp => ?_ }
  · simp [Caller, hnil] at hc
  · simp [hnil] at hf
  · simp [hnil] at hx
  · rw [h.terminated] at hp
    cases hp

theorem inv_reachable (h : (system (A := A) (P := P) Undisturbed).Reachable m) : Inv m := by
  refine h.preserves (I := Inv) (fun _ => inv_booted) ?_
  intro m a m' hm ha hs
  exact inv_step hm ha.1 ha.2 hs

/-! ## The loop comes to its end -/

theorem taken_step (h : Inv m) (ha : m.allowed a) (hg : Undisturbed m a) (hs : m.step a = .ok m')
    (hp : m.sys._terminated p = true) (ht : t ∈ m.sys._threads p) (htaken : Taken m t) :
    Taken m' t := by
  rcases htaken with hset | ⟨c, hc⟩
  · exact .inl (settled_step h.toOrderly ha hg hs hp ht hset)
  by_cases hrun : a = .run
  · subst hrun
    obtain ⟨f, fs, gs, k, hstack, hstep, rfl⟩ := step_run hs ha
    by_cases hcr : c = m.running
    · rw [hcr, hstack] at hc
      cases hc
      exact .inl (settled_store h.toBase hstack hstep)
    · refine .inr ⟨c, ?_⟩
      dsimp only
      rwa [Function.update_of_ne hcr]
  · refine .inr ⟨c, ?_⟩
    rcases (same_step ha hs hrun).stack c with heq | ⟨hnil, -⟩
    · rwa [heq]
    · rw [hnil] at hc
      cases hc

/-- A thread in the loop can go on with it, or all threads are stopped, or it has been taken out of
the run queue by another one. -/
theorem caller_next (h : Inv m) (ha : m.allowed a) (hg : Undisturbed m a) (hs : m.step a = .ok m')
    (hc : Caller m u p i) (hable : Able m u) :
    (∃ j, i ≤ j ∧ Caller m' u p j ∧ Able m' u) ∨ AllSettled m' p ∨
      u ∈ m.sys._threads p ∧ ¬Taken m u ∧ Taken m' u := by
  by_cases hrun : a = .run
  · subst hrun
    obtain ⟨f, fs, gs, k, hstack, hstep, rfl⟩ := step_run hs ha
    by_cases hr : some u = m.running
    · rcases caller_own h hg hstack hstep hr hc hable.1 with hon | hall
      · exact .inl hon
      · exact .inr (.inl hall)
    · rcases caller_other h hg hstack hstep hr hc hable with hable | ⟨-, hlost⟩
      · exact .inl ⟨i, le_rfl, caller_elsewhere hr hc, hable⟩
      · exact .inr (.inr hlost)
  · have hm := same_step ha hs hrun
    exact .inl ⟨i, le_rfl, (caller_same hm).mpr hc, able_other h ha hg hs hrun hc hable⟩

/-- At its head, the loop goes on with the next thread. -/
theorem caller_head (h : Inv m) (hg : Undisturbed m .run) (ha : m.allowed .run)
    (hs : m.step .run = .ok m') (hr : m.running = some u)
    (hstack : m.stack (some u) = [.stop_threads p i]) (hst : m.sys._state u = RUNNABLE) :
    (i < (m.sys._threads p).length ∧ Caller m' u p (i + 1)) ∨ AllSettled m' p := by
  obtain ⟨f, fs, gs, k, hs', hstep, rfl⟩ := step_run hs ha
  rw [hr, hstack] at hs'
  cases hs'
  cases does hstep with
  | all_stopped hnone =>
    have hcall : Caller m u p i := by
      unfold Caller
      rw [hstack]
      rfl
    have hs' : m.stack m.running = [.stop_threads p i] := by rw [hr, hstack]
    refine (caller_own h hg hs' hstep hr.symm hcall hst).imp_left ?_
    rintro ⟨j, -, hj, -⟩
    unfold Caller at hj
    dsimp only at hj
    rw [hr, Function.update_self] at hj
    cases hj
  | stop_next ht =>
    refine .inl ⟨(List.getElem?_eq_some_iff.mp ht).1, ?_⟩
    unfold Caller
    dsimp only
    rw [hr, Function.update_self]
    rfl

variable {r : ℕ → Machine A P} {b : ℕ → Action T P}

/-- A thread in the loop that can go on with it comes back to its head. -/
def Returns (r : ℕ → Machine A P) (b : ℕ → Action T P) (p : P) : Prop :=
  ∀ n u i, Caller (r n) u p i → ∃ n', n ≤ n' ∧ (¬Able (r n') u ∨
    b n' = .run ∧ (r n').running = some u ∧ ∃ j, (r n').stack (some u) = [.stop_threads p j])

/-- The threads of the process that nobody has stopped. -/
def standing (m : Machine A P) (p : P) : Set T := {t | t ∈ m.sys._threads p ∧ ¬Taken m t}

omit [DecidableEq P] in
theorem standing_finite (m : Machine A P) (p : P) : (standing m p).Finite :=
  (List.finite_toSet (m.sys._threads p)).subset fun _ ht => ht.1

theorem standing_step (h : Inv m) (ha : m.allowed a) (hg : Undisturbed m a)
    (hs : m.step a = .ok m') (hp : m.sys._terminated p = true) :
    standing m' p ⊆ standing m p := by
  rintro t ⟨ht, hnot⟩
  have hmem : t ∈ m.sys._threads p := by
    rcases threads_step ha hs p with heq | ⟨t', heq, hnew⟩
    · rwa [heq] at ht
    · rw [heq] at ht
      refine (List.mem_append.mp ht).resolve_right fun hmem => ?_
      rw [List.mem_singleton] at hmem
      exact hnot (.inl (hmem ▸ hnew))
  exact ⟨hmem, fun htaken => hnot (taken_step h ha hg hs hp hmem htaken)⟩

/-- The invariant of a run in which the process has been terminated. -/
theorem endless_inv (he : (system (A := A) (P := P) Undisturbed).Endless r b) {n n' : ℕ}
    (hn : n ≤ n') (h : Inv (r n) ∧ (r n).sys._terminated p = true) :
    Inv (r n') ∧ (r n').sys._terminated p = true := by
  refine he.preserves (I := fun m => Inv m ∧ m.sys._terminated p = true) ?_ hn h
  rintro m a m' ⟨hinv, hp⟩ ha hs
  exact ⟨inv_step hinv ha.1 ha.2 hs, terminated_step ha.1 hs hp⟩

theorem standing_falls (he : (system (A := A) (P := P) Undisturbed).Endless r b) {n n' : ℕ}
    (hn : n ≤ n') (h : Inv (r n) ∧ (r n).sys._terminated p = true) :
    (standing (r n') p).ncard ≤ (standing (r n) p).ncard := by
  induction n', hn using Nat.le_induction with
  | base => exact le_rfl
  | succ n' hn ih =>
    obtain ⟨hinv, hp⟩ := endless_inv he hn h
    have ha := he.allowed n'
    exact (Set.ncard_le_ncard (standing_step hinv ha.1 ha.2 (he.step n') hp)
      (standing_finite _ _)).trans ih

/-- All threads are stopped, or another one is. -/
def Falls (r : ℕ → Machine A P) (p : P) (n : ℕ) : Prop :=
  ∃ n', n ≤ n' ∧ (AllSettled (r n') p ∨ (standing (r n') p).ncard < (standing (r n) p).ncard)

theorem Falls.from (he : (system (A := A) (P := P) Undisturbed).Endless r b) {n n' : ℕ}
    (hn : n ≤ n') (h : Inv (r n) ∧ (r n).sys._terminated p = true) (hf : Falls r p n') :
    Falls r p n := by
  obtain ⟨n₁, hn₁, hor⟩ := hf
  exact ⟨n₁, hn.trans hn₁, hor.imp_right fun hlt => hlt.trans_le (standing_falls he hn h)⟩

/-- A thread goes on in the loop until another one takes it out of the run queue. -/
theorem caller_until (he : (system (A := A) (P := P) Undisturbed).Endless r b) {n n' : ℕ}
    (hn : n ≤ n') (h : Inv (r n) ∧ (r n).sys._terminated p = true) (hc : Caller (r n) u p i)
    (hable : Able (r n) u) :
    (∃ j, i ≤ j ∧ Caller (r n') u p j ∧ Able (r n') u) ∨ Falls r p n := by
  induction n', hn using Nat.le_induction with
  | base => exact .inl ⟨i, le_rfl, hc, hable⟩
  | succ n' hn ih =>
    rcases ih with ⟨j, hj, hc, hable⟩ | hdone
    · obtain ⟨hinv, hp⟩ := endless_inv he hn h
      have ha := he.allowed n'
      rcases caller_next hinv ha.1 ha.2 (he.step n') hc hable with ⟨j', hj', hon⟩ | hall |
        ⟨hmem, hnot, htaken⟩
      · exact .inl ⟨j', hj.trans hj', hon⟩
      · exact .inr ⟨n' + 1, hn.trans (Nat.le_succ n'), .inl hall⟩
      · refine .inr (Falls.from he hn h ⟨n' + 1, Nat.le_succ n', .inr ?_⟩)
        refine Set.ncard_lt_ncard ⟨standing_step hinv ha.1 ha.2 (he.step n') hp, fun hsub => ?_⟩
          (standing_finite _ _)
        exact (hsub ⟨hmem, hnot⟩).2 htaken
    · exact .inr hdone

/-- It comes back to the head of the loop, and goes on with the next thread. -/
theorem caller_returns (he : (system (A := A) (P := P) Undisturbed).Endless r b)
    (hreturns : Returns r b p) {n : ℕ} (h : Inv (r n) ∧ (r n).sys._terminated p = true)
    (hc : Caller (r n) u p i) (hable : Able (r n) u) :
    (∃ n' j, n ≤ n' ∧ i ≤ j ∧ j < ((r n').sys._threads p).length ∧
      Caller (r (n' + 1)) u p (j + 1) ∧ Able (r (n' + 1)) u) ∨ Falls r p n := by
  obtain ⟨n', hn, hor⟩ := hreturns n u i hc
  rcases caller_until he hn h hc hable with ⟨j, hj, hcn, hablen⟩ | hdone
  swap
  · exact .inr hdone
  obtain ⟨hrun, hr, j', hstack⟩ := hor.resolve_left (not_not.mpr hablen)
  obtain rfl : j' = j := by
    unfold Caller at hcn
    rw [hstack] at hcn
    simpa using hcn
  obtain ⟨hinv, hp⟩ := endless_inv he hn h
  have ha := he.allowed n'
  have hs := he.step n'
  rw [hrun] at ha hs
  rcases caller_head hinv ha.2 ha.1 hs hr hstack hablen.1 with ⟨hlt, hcall⟩ | hall
  swap
  · exact .inr ⟨n' + 1, hn.trans (Nat.le_succ n'), .inl hall⟩
  rcases caller_until he (Nat.le_succ n') ⟨hinv, hp⟩ hcn hablen with ⟨-, -, -, hable'⟩ | hdone
  · exact .inl ⟨n', j', hn, hj, hlt, hcall, hable'⟩
  · exact .inr (Falls.from he hn h hdone)

/-- The index is bounded, so the loop comes to its end, or another thread stops the one in it. -/
theorem loop_falls (he : (system (A := A) (P := P) Undisturbed).Endless r b) {N : ℕ}
    (hreturns : Returns r b p) (hN : ∀ n, ((r n).sys._threads p).length ≤ N) {n : ℕ}
    (h : Inv (r n) ∧ (r n).sys._terminated p = true) (hc : Caller (r n) u p i)
    (hable : Able (r n) u) : Falls r p n := by
  induction hd : N + 1 - i using Nat.strongRecOn generalizing n i with
  | ind d ih =>
    rcases caller_returns he hreturns h hc hable with ⟨n', j, hn, hj, hlt, hcall, hable'⟩ | hdone
    · have hn' : n ≤ n' + 1 := hn.trans (Nat.le_succ n')
      have hlen := hN n'
      exact Falls.from he hn' h
        (ih (N + 1 - (j + 1)) (by omega) (endless_inv he hn' h) hcall hable' rfl)
    · exact hdone

/-- All threads of the process are stopped, and none is in the run queue. -/
def AllStopped (m : Machine A P) (p : P) : Prop :=
  ∀ t ∈ m.sys._threads p, m.sys._state t = STOPPED ∧ t ∉ A.entities m.sys.runqueue

omit [DecidableEq P] in
theorem all_stopped (h : Base m) (hall : AllSettled m p) : AllStopped m p := by
  intro t ht
  obtain ⟨hst, halone⟩ := hall t ht
  have hidle : t ≠ m.sys._idle_entity := by
    rintro rfl
    exact h.idle_threads p ht
  have hq := h.mirrors t hidle halone
  unfold Mirrors at hq
  rw [hst] at hq
  exact ⟨hst, List.count_eq_zero.mp hq⟩

/-- Once a process has been terminated, a thread that runs or can be picked is in the loop, or all
threads of the process are stopped from then on; and the loop comes to its end. -/
theorem stops_every_thread (h : (system (A := A) (P := P) Undisturbed).Reachable m)
    (hp : m.sys._terminated p = true) :
    (Underway m p ∨
      ∀ as m', (system Undisturbed).Run m as m' → AllStopped m' p) ∧
    ∀ (r : ℕ → Machine A P) b N, (system Undisturbed).Endless r b → r 0 = m → Returns r b p →
      (∀ n, ((r n).sys._threads p).length ≤ N) → ∃ n, ∀ n', n ≤ n' → AllStopped (r n') p := by
  have hinv := inv_reachable h
  have hkeeps : ∀ (m : Machine A P) a m', (Inv m ∧ m.sys._terminated p = true ∧ AllSettled m p) →
      (system Undisturbed).allowed m a → m.step a = .ok m' →
      Inv m' ∧ m'.sys._terminated p = true ∧ AllSettled m' p := by
    rintro m a m' ⟨hinv, hp, hall⟩ ha hs
    exact ⟨inv_step hinv ha.1 ha.2 hs, terminated_step ha.1 hs hp,
      all_settled_step hinv.toOrderly ha.1 ha.2 hs hp hall⟩
  refine ⟨(hinv.ends p hp).imp_right fun hall as m' hr => ?_, fun r b N he h0 hreturns hN => ?_⟩
  · obtain ⟨hinv', -, hall'⟩ := hr.preserves ⟨hinv, hp, hall⟩ hkeeps
    exact all_stopped hinv'.toBase hall'
  · have h0' : Inv (r 0) ∧ (r 0).sys._terminated p = true := by
      rw [h0]
      exact ⟨hinv, hp⟩
    obtain ⟨n, -, hinv', hp', hall⟩ : ∃ n, 0 ≤ n ∧ Inv (r n) ∧ (r n).sys._terminated p = true ∧
        AllSettled (r n) p := by
      refine System.eventually_of_rank (fun n => (standing (r n) p).ncard) (fun n => ?_) 0
      obtain ⟨hinv', hp'⟩ := endless_inv he (Nat.zero_le n) h0'
      rcases hinv'.ends p hp' with ⟨u, i, hc, hable⟩ | hall
      · obtain ⟨n', hn, hor⟩ := loop_falls he hreturns hN ⟨hinv', hp'⟩ hc hable
        obtain ⟨hinv'', hp''⟩ := endless_inv he hn ⟨hinv', hp'⟩
        exact ⟨n', hn, hor.imp_left fun hall => ⟨hinv'', hp'', hall⟩⟩
      · exact ⟨n, le_rfl, .inl ⟨hinv', hp', hall⟩⟩
    refine ⟨n, fun n' hn => ?_⟩
    obtain ⟨hinv'', -, hall'⟩ := he.preserves hkeeps hn ⟨hinv', hp', hall⟩
    exact all_stopped hinv''.toBase hall'

/-- A process has two threads, and both have been started. -/
def two_threads : Machine (CompletelyFairScheduler (Fin 3)) (Fin 1) :=
  boot _ 0 [1, 2] fun _ => [1, 2]

theorem two_threads_booted : two_threads.Booted :=
  boot_booted (by decide) (by decide) (by decide) (by decide)

theorem stops_every_thread_called : ∃ m : Machine (CompletelyFairScheduler (Fin 3)) (Fin 1),
    (system Undisturbed).Reachable m ∧ m.sys._terminated 0 = true ∧ (Underway m 0 ∨
      ∀ as m', (system Undisturbed).Run m as m' → AllStopped m' 0) := by
  have h : (system Undisturbed).Reachable _ :=
    ⟨two_threads, [.lapic_timer, .call (.terminate 0) true, .run], two_threads_booted,
    .cons ⟨⟨rfl, .inl rfl⟩, nofun, nofun, nofun, nofun, nofun, fun _ _ _ _ => nofun⟩ rfl <|
    .cons ⟨⟨⟨rfl, rfl⟩, by decide, trivial, by decide⟩, nofun, nofun, nofun, nofun, nofun, nofun⟩
      rfl <|
    .cons ⟨List.cons_ne_nil _ _, .of_single (by decide), by rintro - _ _ _ _ - ⟨⟩,
      by rintro - _ _ ⟨⟩, by rintro - _ _ _ _ ⟨⟩, by rintro - _ _ _ _ _ _ - ⟨⟩ ⟨⟩, nofun⟩ rfl <|
    .nil _⟩
  exact ⟨_, h, rfl, (stops_every_thread h rfl).1⟩

theorem timers_run {as : List (Action T P)} (h : (system fun _ _ => True).Run m as m')
    (has : ∀ a ∈ as, a = .lapic_timer) :
    m'.sys._state = m.sys._state ∧ m'.sys._threads = m.sys._threads ∧
      ∀ e, m'.sys.queued e = m.sys.queued e := by
  induction h with
  | nil => exact ⟨rfl, rfl, fun _ => rfl⟩
  | @cons m m₁ _ a as _ hs _ ih =>
    have hs : m.step a = .ok m₁ := hs
    rw [has a List.mem_cons_self] at hs
    obtain ⟨k, hk, rfl⟩ := step_lapic_timer hs
    have hsw := switched_timer hk
    obtain ⟨hst, hthreads, hq⟩ := ih fun a ha => has a (List.mem_cons_of_mem _ ha)
    exact ⟨hst.trans hsw.state, hthreads.trans hsw.threads, fun e => (hq e).trans (hsw.queued e)⟩

/-- The first of the two threads exits. It stops itself, and the second one goes on. -/
theorem goes_on : ∃ m : Machine (CompletelyFairScheduler (Fin 3)) (Fin 1),
    (system fun _ _ => True).Reachable m ∧ m.sys._terminated 0 = true ∧ ¬Underway m 0 ∧
      ∀ as m', (system fun _ _ => True).Run m as m' → (∀ a ∈ as, a = .lapic_timer) →
        2 ∈ m'.sys._threads 0 ∧ m'.sys._state 2 = RUNNABLE ∧ m'.sys.queued 2 ≠ 0 := by
  obtain ⟨m, hrun, hp⟩ := run_of_exec two_threads
    ([.lapic_timer, .call (.terminate 0) true] ++ List.replicate 15 .run)
    (fun m => m.sys._terminated 0 = true ∧ (∀ u, u ≠ 1 → m.stack (some u) = []) ∧
      m.sys._state 1 = STOPPED ∧ 2 ∈ m.sys._threads 0 ∧ m.sys._state 2 = RUNNABLE ∧
      m.sys.queued 2 ≠ 0) (by decide +kernel)
  obtain ⟨hterm, hstack, hstopped, hmem, hst, hq⟩ := hp
  refine ⟨m, ⟨_, _, two_threads_booted, hrun⟩, hterm, ?_, fun as m' hr has => ?_⟩
  · rintro ⟨u, i, hc, hable⟩
    obtain rfl : u = 1 := by
      by_contra hu
      unfold Caller at hc
      rw [hstack u hu] at hc
      cases hc
    cases hstopped.symm.trans hable.1
  · obtain ⟨hst', hthreads, hq'⟩ := timers_run hr has
    exact ⟨hthreads ▸ hmem, hst' ▸ hst, by rwa [hq']⟩

end Infos.Kernel.Terminate
