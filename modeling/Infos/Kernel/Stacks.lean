import Infos.Kernel.Changes

/-!
# The stacks of frames

What a thread can be in the midst of, and that the current thread is runnable unless it is about to
yield.
-/

namespace Infos.Kernel

open SchedulingEntityState Infos.Kernel.Frame

variable {T P : Type} [DecidableEq T] [DecidableEq P] {A : SchedulingAlgorithm T}

namespace Frame

/-- The change of state that `set_entity_state` has been called for. -/
def changing : Frame T P → Option (T × SchedulingEntityState)
  | set_entity_state entity state => some (entity, state)
  | compare entity state _ => some (entity, state)
  | add_to_runqueue entity state => some (entity, state)
  | remove_from_runqueue entity state => some (entity, state)
  | store entity state => some (entity, state)
  | _ => none

end Frame

/-! ## Forms -/

/-- What may lie below a change of `x` that the thread `u` makes when it stops `x` or goes to
sleep. -/
inductive Under (u : T) : T → SchedulingEntityState → List (Frame T P) → Prop
  | stop (x : T) : Under u x STOPPED []
  | stop_threads (x : T) (p : P) (i : ℕ) : Under u x STOPPED [.stop_threads p i]
  | sleep : Under u u SLEEPING []
  | sleep_while (event : Event T P) : Under u u SLEEPING [.while_not event]

/-- What may lie below frames that wake. -/
inductive Resumes (u : T) : List (Frame T P) → Prop
  | nothing : Resumes u []
  | stop_threads (p : P) (i : ℕ) : Resumes u [.stop_threads p i]
  | yields {x : T} {s : SchedulingEntityState} {rest : List (Frame T P)} (h : Under u x s rest) :
      Resumes u (.yield_from x :: rest)

inductive Form (u : T) : List (Frame T P) → Prop
  | entry {f : Frame T P} (h : f.Entry) : Form u [f]
  | waking {ws fs : List (Frame T P)} (hw : ∀ w ∈ ws, w.Waking) (h : Resumes u fs) :
      Form u (ws ++ fs)
  | stops {x : T} {rest : List (Frame T P)} (h : Under u x STOPPED rest) :
      Form u (.stop x :: rest)
  | sleeps {x : T} {rest : List (Frame T P)} (h : Under u x SLEEPING rest) :
      Form u (.sleep x :: rest)
  | changes {f : Frame T P} {x : T} {s : SchedulingEntityState} {rest : List (Frame T P)}
      (hf : f.changing = some (x, s)) (h : Under u x s rest) : Form u (f :: .yield_from x :: rest)
  | invokes {s : SchedulingEntityState} {rest : List (Frame T P)} (h : Under u u s rest) :
      Form u (.invoke_kernel_syscall :: rest)
  | while_not (event : Event T P) : Form u [.while_not event]
  | enables (event : Event T P) :
      Form u [.enable_interrupts, .wait event, .while_not event]
  | waits (event : Event T P) : Form u [.wait event, .while_not event]

variable {u x : T} {f : Frame T P} {fs gs rest : List (Frame T P)} {k k' : Sys A P}
  {s : SchedulingEntityState}

omit [DecidableEq T] [DecidableEq P] in
theorem form_resumes (h : Resumes u fs) : Form u fs :=
  @Form.waking T P u [] fs (by simp) h

/-- The forms of the stacks that have a frame on top. -/
inductive Topped (u : T) : Frame T P → List (Frame T P) → Prop
  | entry {f : Frame T P} (h : f.Entry) : Topped u f []
  | waking {f : Frame T P} {ws rest : List (Frame T P)} (hw : ∀ w ∈ f :: ws, w.Waking)
      (h : Resumes u rest) : Topped u f (ws ++ rest)
  | stop_threads (p : P) (i : ℕ) : Topped u (.stop_threads p i) []
  | yields {x : T} {s : SchedulingEntityState} {rest : List (Frame T P)} (h : Under u x s rest) :
      Topped u (.yield_from x) rest
  | stops {x : T} {rest : List (Frame T P)} (h : Under u x STOPPED rest) : Topped u (.stop x) rest
  | sleeps {x : T} {rest : List (Frame T P)} (h : Under u x SLEEPING rest) :
      Topped u (.sleep x) rest
  | changes {f : Frame T P} {x : T} {s : SchedulingEntityState} {rest : List (Frame T P)}
      (hf : f.changing = some (x, s)) (h : Under u x s rest) : Topped u f (.yield_from x :: rest)
  | invokes {s : SchedulingEntityState} {rest : List (Frame T P)} (h : Under u u s rest) :
      Topped u .invoke_kernel_syscall rest
  | while_not (event : Event T P) : Topped u (.while_not event) []
  | enables (event : Event T P) : Topped u .enable_interrupts [.wait event, .while_not event]
  | waits (event : Event T P) : Topped u (.wait event) [.while_not event]

omit [DecidableEq T] [DecidableEq P] in
theorem form_topped (h : Form u (f :: fs)) : Topped u f fs := by
  generalize hstack : f :: fs = stack at h
  cases h with
  | @waking ws rest hw h =>
    cases ws with
    | cons w ws =>
      obtain ⟨rfl, rfl⟩ := List.cons.inj hstack
      exact .waking hw h
    | nil =>
      cases h with
      | nothing => cases hstack
      | stop_threads p i =>
        cases hstack
        exact .stop_threads p i
      | yields h =>
        cases hstack
        exact .yields h
  | entry h =>
    cases hstack
    exact .entry h
  | stops h =>
    cases hstack
    exact .stops h
  | sleeps h =>
    cases hstack
    exact .sleeps h
  | changes hf h =>
    cases hstack
    exact .changes hf h
  | invokes h =>
    cases hstack
    exact .invokes h
  | while_not event =>
    cases hstack
    exact .while_not event
  | enables event =>
    cases hstack
    exact .enables event
  | waits event =>
    cases hstack
    exact .waits event

/-- A stack without a waking function does not come from one with a waking function on top, unless
that was the last one. -/
theorem resumes_of_not_waking {ws : List (Frame T P)} (hstep : f.step k = .ok (gs, k'))
    (hw : ∀ w ∈ f :: ws, w.Waking) (hr : Resumes u rest)
    (hnw : ∀ v ∈ gs ++ (ws ++ rest), ¬v.Waking) : Resumes u (gs ++ (ws ++ rest)) := by
  have hnone : ∀ v ∈ gs ++ ws, False := by
    intro v hv
    refine hnw v ?_ ?_
    · rcases List.mem_append.mp hv with hv | hv <;> simp [hv]
    · rcases List.mem_append.mp hv with hv | hv
      · exact waking_step hstep (hw f List.mem_cons_self) v hv
      · exact hw v (List.mem_cons_of_mem _ hv)
  obtain ⟨rfl, rfl⟩ := List.append_eq_nil_iff.mp (List.eq_nil_iff_forall_not_mem.mpr hnone)
  exact hr

omit [DecidableEq T] [DecidableEq P] in
theorem form_waking (hf : f.Waking) (h : Resumes u fs) : Form u (f :: fs) :=
  @Form.waking T P u [f] fs (by simpa using hf) h

omit [DecidableEq T] [DecidableEq P] in
theorem form_under (h : Under u x s rest) : Form u rest := by
  cases h with
  | stop | sleep => exact form_resumes .nothing
  | stop_threads _ p i => exact form_resumes (.stop_threads p i)
  | sleep_while event => exact .while_not event

/-- A change goes on, or the new state is stored. -/
theorem changing_step (hstep : f.step k = .ok (gs, k')) (hf : f.changing = some (x, s)) :
    (f = .set_entity_state x s ∧ gs = [] ∧ k' = k ∧ k._state x = s) ∨
      (∃ g, gs = [g] ∧ g.changing = some (x, s) ∧ k'._state = k._state) ∨
      (f = .store x s ∧ gs = [.trigger (.thread x)] ∧ k' = k.set_state x s) := by
  cases does hstep with
  | already h =>
    cases hf
    exact .inl ⟨rfl, rfl, rfl, h⟩
  | begins | compared | differs | adds | removes | runs | add_to_runqueue | remove_from_runqueue =>
    cases hf
    exact .inr (.inl ⟨_, rfl, rfl, rfl⟩)
  | store =>
    cases hf
    exact .inr (.inr ⟨rfl, rfl, rfl⟩)
  | _ => cases hf

theorem form_changes (hstep : f.step k = .ok (gs, k')) (hf : f.changing = some (x, s))
    (h : Under u x s rest) : Form u (gs ++ .yield_from x :: rest) := by
  rcases changing_step hstep hf with ⟨-, rfl, -⟩ | ⟨g, rfl, hg, -⟩ | ⟨-, rfl, -⟩
  · exact form_resumes (.yields h)
  · exact .changes hg h
  · exact form_waking (by simp [Waking]) (.yields h)

theorem form_entry (hstep : f.step k = .ok (gs, k')) (hf : f.Entry) (hu : k.current_thread = u) :
    Form u gs := by
  have hwaking : (∀ g ∈ gs, g.Waking) → Form u gs := by
    intro hw
    rw [← List.append_nil gs]
    exact .waking hw .nothing
  cases f with
  | start x =>
    cases hstep
    exact hwaking (by simp [Waking, goal])
  | stop x =>
    cases hstep
    exact .changes rfl (.stop x)
  | terminate p =>
    cases hstep
    exact form_waking (by simp [Waking]) (.stop_threads p 0)
  | sys_wait_proc p =>
    cases hstep
    exact .while_not _
  | sys_join_thread x =>
    cases hstep
    exact .while_not _
  | wait event =>
    cases hstep
    subst hu
    exact .sleeps .sleep
  | _ => cases hf

theorem form_step (h : Form u (f :: fs)) (hstep : f.step k = .ok (gs, k'))
    (hu : k.current_thread = u) : Form u (gs ++ fs) := by
  cases form_topped h with
  | entry hentry =>
    rw [List.append_nil]
    exact form_entry hstep hentry hu
  | @waking _ ws rest hw hr =>
    rw [← List.append_assoc]
    refine .waking (fun g hg => ?_) hr
    rcases List.mem_append.mp hg with hg | hg
    · exact waking_step hstep (hw f List.mem_cons_self) g hg
    · exact hw g (List.mem_cons_of_mem _ hg)
  | stop_threads p i =>
    cases does hstep with
    | all_stopped => exact form_resumes .nothing
    | stop_next => exact .stops (.stop_threads _ p (i + 1))
  | yields hunder =>
    cases does hstep with
    | yields hx =>
      rw [hu] at hx
      subst hx
      exact .invokes hunder
    | stays => exact form_under hunder
  | stops hunder =>
    cases hstep
    exact .changes rfl hunder
  | sleeps hunder =>
    cases hstep
    exact .changes rfl hunder
  | changes hf hunder => exact form_changes hstep hf hunder
  | invokes hunder =>
    cases does hstep with
    | schedules => exact form_under hunder
  | while_not event =>
    cases does hstep with
    | ended => exact form_resumes .nothing
    | not_ended => exact .enables event
  | enables event =>
    cases hstep
    exact .waits event
  | waits event =>
    cases hstep
    subst hu
    exact .sleeps (.sleep_while event)

/-! ## The current thread -/

theorem step_state (hstep : f.step k = .ok (gs, k')) (e : T) : k'._state e = k._state e ∨
    ∃ s, f = .store e s ∧ gs = [.trigger (.thread e)] ∧ k'._state e = s := by
  cases does hstep with
  | schedules hs => exact .inl (schedule_queued hs e).2
  | @store x s =>
    by_cases hx : e = x
    · subst hx
      exact .inr ⟨s, rfl, rfl, Function.update_self _ _ _⟩
    · exact .inl (Function.update_of_ne hx _ _)
  | _ => exact .inl rfl

/-- The thread is about to yield, once it has woken others. -/
def Yielding (u : T) (fs : List (Frame T P)) : Prop :=
  ∃ ws g rest, fs = ws ++ g :: rest ∧ (∀ w ∈ ws, w.Waking) ∧
    (g = .yield_from u ∨ g = .invoke_kernel_syscall)

theorem yielding_step (h : Yielding u (f :: fs)) (hstep : f.step k = .ok (gs, k'))
    (hf : f ≠ .invoke_kernel_syscall) (hu : k.current_thread = u) : Yielding u (gs ++ fs) := by
  obtain ⟨ws, g, rest, hstack, hw, hg⟩ := h
  cases ws with
  | nil =>
    obtain ⟨rfl, rfl⟩ := List.cons.inj hstack
    obtain rfl := hg.resolve_right hf
    cases does hstep with
    | yields => exact ⟨[], _, fs, rfl, by simp, .inr rfl⟩
    | stays hne => exact absurd hu hne
  | cons w ws =>
    obtain ⟨rfl, rfl⟩ := List.cons.inj hstack
    refine ⟨gs ++ ws, g, rest, by simp, fun w hmem => ?_, hg⟩
    rcases List.mem_append.mp hmem with hmem | hmem
    · exact waking_step hstep (hw f List.mem_cons_self) w hmem
    · exact hw w (List.mem_cons_of_mem _ hmem)

omit [DecidableEq T] [DecidableEq P] in
theorem goal_of_changing {g : T × SchedulingEntityState} (h : f.changing = some g) :
    f.goal = some g := by
  cases f <;> first | exact h | cases h

omit [DecidableEq T] [DecidableEq P] in
theorem changing_of_entry (h : f.Entry) : f.changing = none := by
  cases f <;> first | rfl | cases h

omit [DecidableEq T] [DecidableEq P] in
theorem not_waking_of_changing (h : f.changing = some (x, s)) (hs : s ≠ RUNNABLE) :
    ¬f.Waking := by
  rintro (⟨e, rfl | ⟨n, rfl⟩ | ⟨n, rfl⟩ | rfl⟩ | ⟨e, he⟩)
  · cases h
  · cases h
  · cases h
  · cases h
  · rw [goal_of_changing h] at he
    cases he
    exact hs rfl

omit [DecidableEq T] [DecidableEq P] in
/-- When it has stopped a thread or made it sleep, it yields if it is that thread. -/
theorem form_changing (h : Form u (f :: fs)) (hf : f.changing = some (x, s)) (hs : s ≠ RUNNABLE) :
    ∃ rest, fs = .yield_from x :: rest ∧ Under u x s rest := by
  cases form_topped h with
  | waking hw => exact absurd (hw _ List.mem_cons_self) (not_waking_of_changing hf hs)
  | changes hf' hunder =>
    rw [hf] at hf'
    cases hf'
    exact ⟨_, rfl, hunder⟩
  | entry hentry =>
    rw [changing_of_entry hentry] at hf
    cases hf
  | _ => cases hf

namespace Sys

omit [DecidableEq P] in
theorem next_queued (hn : k.next_entity ≠ k._idle_entity) : k.queued k.next_entity ≠ 0 := by
  unfold next_entity at hn ⊢
  cases hp : (A.pick_next_entity k._cpu_runtime k.runqueue).1 with
  | none => simp [hp] at hn
  | some e =>
    have hmem := List.count_pos_iff.mpr (A.pick_mem _ _ e (Option.mem_def.mpr hp))
    rw [Option.getD_some]
    unfold queued
    omega

omit [DecidableEq P] in
theorem update_accounting_current (k : Sys A P) :
    k.update_accounting._current = k._current ∧
      k.update_accounting.current_thread = k.current_thread := by
  unfold update_accounting
  split <;> exact ⟨rfl, rfl⟩

omit [DecidableEq P] in
theorem schedule_current (ha : k._active = true) (hc : ∀ c ∈ k._current, c = k.current_thread)
    (h : k.schedule = .ok k') : k'._current = some k.next_entity ∧
      k'.current_thread = k.next_entity ∧
      (k.next_entity = k.current_thread ∨ k._state k.next_entity = RUNNABLE) := by
  obtain ⟨hn, -⟩ | ⟨-, rfl, hnext⟩ := schedule_ok h
  · rw [ha] at hn
    cases hn
  · unfold switched
    refine ⟨rfl, ?_, hnext.imp_left fun hn => hc _ hn.symm⟩
    dsimp only
    split
    next hn => exact (hc _ hn.symm).symm
    next => rfl

end Sys

namespace Machine

/-- Every stack has a form, and the current thread is runnable unless it is about to yield. -/
structure Orderly (m : Machine A P) : Prop extends Base m where
  form : ∀ u, Form u (m.stack (some u))
  active : m.sys._active = true
  current : ∀ c ∈ m.sys._current, c = m.sys.current_thread
  awake : m.sys._state m.sys.current_thread = RUNNABLE ∨
    Yielding m.sys.current_thread (m.stack (some m.sys.current_thread)) ∧
      ∀ c, ∀ f ∈ (m.stack c).head?, f.midway = some m.sys.current_thread →
        c = none ∨ c = some m.sys.current_thread

variable {m m' : Machine A P} {c : Option T} {a : Action T P}

omit [DecidableEq P] in
theorem running_eq (m : Machine A P) :
    (m.running = none ∧ m.stack none ≠ []) ∨
      (m.running = some m.sys.current_thread ∧ m.stack none = []) := by
  unfold running
  split
  next hn => exact .inr ⟨rfl, hn⟩
  next hn => exact .inl ⟨rfl, hn⟩

omit [DecidableEq P] in
theorem orderly_schedule (h : Orderly m) (hs : m.stack m.running = .invoke_kernel_syscall :: fs)
    (hk : m.sys.schedule = .ok k) : k._state k.current_thread = RUNNABLE := by
  obtain ⟨hr, -⟩ := h.current_ne hs (by simp [Waking, goal])
  obtain ⟨-, hnext, hrun⟩ := Sys.schedule_current h.active h.current hk
  rw [(switched_schedule hk).state, hnext]
  rcases hrun with heq | hrun
  · rw [heq]
    rcases h.awake with hst | ⟨-, hmid⟩
    · exact hst
    by_cases hidle : m.sys.next_entity = m.sys._idle_entity
    · rw [← heq, hidle]
      exact h.idle_state
    · have hq := Sys.next_queued hidle
      rw [heq] at hq
      -- nobody is changing the current thread
      refine h.runnable_of_queued hq fun c f hf he => ?_
      rcases hmid c f hf he with rfl | rfl
      · rcases running_eq m with ⟨hn, -⟩ | ⟨-, hn⟩
        · rw [hr] at hn
          cases hn
        · simp [hn] at hf
      · rw [← hr, hs] at hf
        cases hf
        cases he
  · exact hrun

theorem awake_run (h : Orderly m) (hs : m.stack m.running = f :: fs)
    (hstep : f.step m.sys = .ok (gs, k)) (hf : f ≠ .invoke_kernel_syscall) :
    k._state m.sys.current_thread = RUNNABLE ∨
      Yielding m.sys.current_thread
          (Function.update m.stack m.running (gs ++ fs) (some m.sys.current_thread)) ∧
        ∀ c, ∀ g ∈ (Function.update m.stack m.running (gs ++ fs) c).head?,
          g.midway = some m.sys.current_thread → c = none ∨ c = some m.sys.current_thread := by
  have hrun : m.running = none ∨ m.running = some m.sys.current_thread :=
    (running_eq m).imp And.left And.left
  have hmidway : (∀ c, c ≠ m.running → ∀ g ∈ (m.stack c).head?,
      g.midway = some m.sys.current_thread → c = none ∨ c = some m.sys.current_thread) →
      ∀ c, ∀ g ∈ (Function.update m.stack m.running (gs ++ fs) c).head?,
        g.midway = some m.sys.current_thread → c = none ∨ c = some m.sys.current_thread := by
    intro hold c g hg he
    by_cases hc : c = m.running
    · exact hc ▸ hrun
    · rw [Function.update_of_ne hc] at hg
      exact hold c hc g hg he
  rcases h.awake with hst | ⟨hyield, hmid⟩
  · rcases step_state hstep m.sys.current_thread with heq | ⟨s, rfl, rfl, heq⟩
    · exact .inl (heq.trans hst)
    by_cases hrs : s = RUNNABLE
    · exact .inl (heq.trans hrs)
    · -- it has stored its own state
      have hr : m.running = some m.sys.current_thread :=
        (h.current_ne hs (by simp [Waking, goal, hrs])).1
      have hform := h.form m.sys.current_thread
      rw [← hr, hs] at hform
      obtain ⟨rest, rfl, -⟩ := form_changing hform rfl hrs
      refine .inr ⟨?_, hmidway fun c hc g hg he => ?_⟩
      · rw [← hr, Function.update_self]
        exact ⟨[_], _, rest, rfl, by simp [Waking], .inl rfl⟩
      · exact absurd rfl (h.elsewhere hs hc hg he)
  · refine .inr ⟨?_, hmidway fun c _ => hmid c⟩
    rcases hrun with hr | hr
    · rw [hr, Function.update_of_ne (by simp)]
      exact hyield
    · rw [← hr, hs] at hyield
      rw [← hr, Function.update_self]
      exact yielding_step hyield hstep hf rfl

theorem orderly_run (h : Orderly m) (hno : m.NoOverlap .run) (hs : m.stack m.running = f :: fs)
    (hstep : f.step m.sys = .ok (gs, k)) :
    Orderly (A := A) ⟨k, Function.update m.stack m.running (gs ++ fs)⟩ := by
  have hbase := base_run h.toBase hno hs hstep
  have hactive : k._active = true := by
    rw [(step_fixed hstep).2.2]
    exact h.active
  have hform : ∀ u, Form u (Function.update m.stack m.running (gs ++ fs) (some u)) := by
    intro u
    by_cases hu : some u = m.running
    · rw [hu, Function.update_self]
      have hcur : m.sys.current_thread = u := by
        rcases running_eq m with ⟨hr, -⟩ | ⟨hr, -⟩
        · rw [hr] at hu
          cases hu
        · exact (Option.some.inj (hu.trans hr)).symm
      have := h.form u
      rw [hu, hs] at this
      exact form_step this hstep hcur
    · rw [Function.update_of_ne hu]
      exact h.form u
  by_cases hf : f = .invoke_kernel_syscall
  · subst hf
    obtain ⟨rfl, hk⟩ := step_syscall hstep
    obtain ⟨hcur, hthread, -⟩ := Sys.schedule_current h.active h.current hk
    refine ⟨hbase, hform, hactive, fun c hc => ?_, .inl (orderly_schedule h hs hk)⟩
    dsimp only at hc ⊢
    rw [hcur] at hc
    rw [hthread]
    exact (Option.some.inj hc).symm
  · have hq := step_quiet hstep hf
    refine ⟨hbase, hform, hactive, fun c hc => ?_, ?_⟩
    · dsimp only at hc ⊢
      rw [hq.current] at hc
      rw [hq.current_thread]
      exact h.current c hc
    · dsimp only
      rw [hq.current_thread]
      exact awake_run h hs hstep hf

omit [DecidableEq P] in
/-- The processor may go to another thread. -/
theorem orderly_switch {k₁ : Sys A P} (h : Orderly m) (hbase : Base (A := A) ⟨k, m.stack⟩)
    (hclock : Switched m.sys k₁) (hc : k₁._current = m.sys._current)
    (ht : k₁.current_thread = m.sys.current_thread) (hk : k₁.schedule = .ok k) :
    Orderly (A := A) ⟨k, m.stack⟩ := by
  have hactive := hclock.active.trans h.active
  obtain ⟨hcur, hthread, hrun⟩ := Sys.schedule_current hactive
    (fun c hmem => (h.current c (hc ▸ hmem)).trans ht.symm) hk
  have hsw := switched_schedule hk
  refine ⟨hbase, h.form, hsw.active.trans hactive, fun c hmem => ?_, ?_⟩ <;> dsimp only at *
  · rw [hcur] at hmem
    exact (Option.some.inj hmem).symm.trans hthread.symm
  · rw [hsw.state, hthread]
    rcases hrun with heq | hrun
    · rw [heq, ht, hclock.state]
      exact h.awake
    · exact .inl hrun

omit [DecidableEq P] in
theorem orderly_timer (h : Orderly m) (hbase : Base (A := A) ⟨k, m.stack⟩)
    (hk : m.sys.lapic_timer_irq_handler = .ok k) : Orderly (A := A) ⟨k, m.stack⟩ := by
  obtain ⟨hc, ht⟩ := Sys.update_accounting_current (m.sys.update_runtime Sys.tick_length)
  exact orderly_switch h hbase
    ((switched_update_runtime _ m.sys).trans (switched_update_accounting _))
    (hc.trans (Sys.update_runtime_current _ _)) (ht.trans (Sys.update_runtime_current_thread _ _)) hk

theorem orderly_step (h : Orderly m) (ha : m.allowed a) (hno : m.NoOverlap a)
    (hs : m.step a = .ok m') : Orderly m' := by
  have hbase := base_step h.toBase ha hno hs
  cases a with
  | run =>
    obtain ⟨f, fs, gs, k, hstack, hstep, rfl⟩ := step_run hs ha
    exact orderly_run h hno hstack hstep
  | call f i =>
    cases hs
    obtain ⟨⟨-, hempty⟩, -, hentry, -⟩ := ha
    have hrun : m.sys._state m.sys.current_thread = RUNNABLE := by
      refine h.awake.resolve_right fun hn => ?_
      obtain ⟨⟨ws, g, rest, hstack, -⟩, -⟩ := hn
      simp [hempty] at hstack
    refine ⟨hbase, fun u => ?_, h.active, h.current, .inl hrun⟩
    dsimp only
    by_cases hu : some u = some m.sys.current_thread
    · rw [hu, Function.update_self]
      exact .entry hentry
    · rw [Function.update_of_ne hu]
      exact h.form u
  | lapic_timer =>
    obtain ⟨k, hk, rfl⟩ := step_lapic_timer hs
    exact orderly_timer h hbase hk
  | driver_irq n =>
    cases hs
    refine ⟨hbase, fun u => ?_, h.active, h.current, h.awake.imp_right fun hy => ⟨?_, ?_⟩⟩ <;>
      dsimp only
    · rw [Function.update_of_ne (by simp)]
      exact h.form u
    · rw [Function.update_of_ne (by simp)]
      exact hy.1
    · intro c f hf he
      by_cases hc : c = none
      · exact .inl hc
      · rw [Function.update_of_ne hc] at hf
        exact hy.2 c f hf he
  | create_thread p t =>
    cases hs
    refine ⟨hbase, h.form, h.active, h.current, ?_⟩
    have hne : m.sys.current_thread ≠ t := ha.2.current
    show Function.update m.sys._state t STOPPED m.sys.current_thread = RUNNABLE ∨ _
    rw [Function.update_of_ne hne]
    exact h.awake

omit [DecidableEq P] in
theorem orderly_booted (h : Booted m) : Orderly m where
  toBase := base_booted h
  form u := by
    rw [h.stack]
    exact form_resumes .nothing
  active := h.active
  current c hc := by
    rw [h.current] at hc
    cases hc
  awake := by
    rw [h.current_thread]
    exact .inl h.idle_state

omit [DecidableEq P] in
/-- Unless it wakes or yields, the thread that runs is runnable. -/
theorem Orderly.runnable_running (h : Orderly m) (hs : m.stack m.running = f :: fs)
    (hw : ¬f.Waking) (hy : ∀ u, f ≠ .yield_from u) (hi : f ≠ .invoke_kernel_syscall) :
    m.sys._state m.sys.current_thread = RUNNABLE := by
  refine h.awake.resolve_right ?_
  rintro ⟨⟨ws, g, rest, hstack, hws, hg⟩, -⟩
  rw [← (h.current_ne hs hw).1, hs] at hstack
  cases ws with
  | nil =>
    cases hstack
    exact hg.elim (hy _) hi
  | cons w ws =>
    obtain ⟨rfl, -⟩ := List.cons.inj hstack
    exact hw (hws f List.mem_cons_self)

end Machine

end Infos.Kernel
