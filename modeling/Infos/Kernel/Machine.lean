import Infos.Kernel.Mirror

/-!
# The machine

One processor runs the frames of the current thread, or those of a device's interrupt handler. Where
interrupts are on, the timer may interrupt it between two steps, and another thread may be the
current one then. The frames of a thread that has been interrupted wait for it to be resumed.
-/

namespace Infos.Kernel

open SchedulingEntityState Infos.Kernel.Frame

variable {T P : Type} [DecidableEq T] [DecidableEq P] {A : SchedulingAlgorithm T}

/-- `stack none` has the frames of the handler. -/
structure Machine (A : SchedulingAlgorithm T) (P : Type) where
  sys : Sys A P
  stack : Option T → List (Frame T P)

inductive Action (T P : Type) where
  /-- The next step of what runs. -/
  | run
  /-- The current thread calls into the kernel, or raises an exception. -/
  | call (frame : Frame T P) (interrupts : Bool)
  | lapic_timer
  /-- A device has input, and its driver triggers its event. -/
  | driver_irq (n : ℕ)
  | create_thread (process : P) (thread : T)
  deriving DecidableEq

/-- What the system calls, the exceptions and the kernel's own threads call. -/
def Frame.Entry : Frame T P → Prop
  | start _ => True
  | stop _ => True
  | terminate _ => True
  | sys_wait_proc _ => True
  | sys_join_thread _ => True
  | wait (.driver _) => True
  | _ => False

instance Frame.decidableEntry : (f : Frame T P) → Decidable f.Entry
  | start _ | stop _ | terminate _ | sys_wait_proc _ | sys_join_thread _ | wait (.driver _) =>
    .isTrue trivial
  | wait (.thread _) | wait (.process _) | set_entity_state .. | compare .. | add_to_runqueue .. |
    remove_from_runqueue .. | store .. | trigger _ | wake_at .. | wake_next .. | clear _ | sleep _ |
    wake_up _ | yield_from _ | invoke_kernel_syscall | stop_threads .. | while_not _ |
    enable_interrupts => .isFalse id

namespace Machine

def running (m : Machine A P) : Option T :=
  if m.stack none = [] then some m.sys.current_thread else none

/-- The current thread runs code that is not modelled. -/
def Outside (m : Machine A P) : Prop :=
  m.stack none = [] ∧ m.stack (some m.sys.current_thread) = []

def Interruptible (m : Machine A P) : Prop :=
  m.stack none = [] ∧
    (m.stack (some m.sys.current_thread) = [] ∨ m.sys.interrupts m.sys.current_thread = true)

/-- Nothing refers to the thread yet. -/
structure Unused (m : Machine A P) (t : T) : Prop where
  threads : ∀ p, t ∉ m.sys._threads p
  state : m.sys._state t = STOPPED
  queued : m.sys.queued t = 0
  waiters : ∀ event, t ∉ (m.sys._waiters event).waiters
  stack : m.stack (some t) = []
  goals : ∀ c, ∀ f ∈ m.stack c, ∀ g ∈ f.goal, g.1 ≠ t
  current : m.sys.current_thread ≠ t
  idle : m.sys._idle_entity ≠ t

def allowed (m : Machine A P) : Action T P → Prop
  | .run => m.stack m.running ≠ []
  | .call frame _ => m.Outside ∧ m.sys.current_thread ≠ m.sys._idle_entity ∧ frame.Entry ∧
      ∀ g ∈ frame.goal, g.1 ≠ m.sys._idle_entity
  | .lapic_timer => m.Interruptible
  | .driver_irq _ => m.Interruptible
  | .create_thread _ thread => m.Outside ∧ m.Unused thread

def step (m : Machine A P) : Action T P → Except Fault (Machine A P)
  | .run =>
    match m.stack m.running with
    | [] => .ok m
    | f :: fs => (f.step m.sys).map fun d =>
        ⟨d.2, Function.update m.stack m.running (d.1 ++ fs)⟩
  | .call frame interrupts => .ok ⟨m.sys.set_interrupts interrupts,
      Function.update m.stack (some m.sys.current_thread) [frame]⟩
  | .lapic_timer => m.sys.lapic_timer_irq_handler.map fun k => ⟨k, m.stack⟩
  | .driver_irq n => .ok ⟨m.sys, Function.update m.stack none [.trigger (.driver n)]⟩
  | .create_thread process thread => .ok ⟨m.sys.create_thread process thread, m.stack⟩

/-- The scheduler has been activated, and the idle thread is the one that runs. -/
structure Booted (m : Machine A P) : Prop where
  stack : ∀ c, m.stack c = []
  active : m.sys._active = true
  current : m.sys._current = none
  current_thread : m.sys.current_thread = m.sys._idle_entity
  idle_state : m.sys._state m.sys._idle_entity = RUNNABLE
  idle_queued : m.sys.queued m.sys._idle_entity = 0
  idle_threads : ∀ p, m.sys._idle_entity ∉ m.sys._threads p
  states : ∀ e, m.sys._state e = RUNNABLE ∨ m.sys._state e = STOPPED
  mirrors : ∀ e, e ≠ m.sys._idle_entity → Mirrors (· = ·) m.sys e
  waiters : ∀ event, (m.sys._waiters event).nodes = []
  terminated : ∀ p, m.sys._terminated p = false
  threads : ∀ p q, ∀ t ∈ m.sys._threads p, t ∈ m.sys._threads q → p = q
  nodup : ∀ p, (m.sys._threads p).Nodup

/-- The runs of which every action is guarded. -/
def system (guard : Machine A P → Action T P → Prop) : System (Machine A P) (Action T P) Fault where
  start := Booted
  allowed m a := m.allowed a ∧ guard m a
  step := step

variable {m m' : Machine A P} {f : Frame T P} {fs gs : List (Frame T P)} {k : Sys A P} {c : Option T}

theorem step_run (h : m.step .run = .ok m') (ha : m.allowed .run) :
    ∃ f fs gs k, m.stack m.running = f :: fs ∧ f.step m.sys = .ok (gs, k) ∧
      m' = ⟨k, Function.update m.stack m.running (gs ++ fs)⟩ := by
  unfold step at h
  cases hs : m.stack m.running with
  | nil => exact absurd hs ha
  | cons f fs =>
    simp only [hs] at h
    obtain ⟨d, hd, rfl⟩ := map_eq_ok h
    exact ⟨f, fs, d.1, d.2, rfl, hd, rfl⟩

theorem step_lapic_timer (h : m.step .lapic_timer = .ok m') :
    ∃ k, m.sys.lapic_timer_irq_handler = .ok k ∧ m' = ⟨k, m.stack⟩ := by
  unfold step at h
  exact map_eq_ok h

/-- What scheduling leaves as it was. -/
structure Switched (k k' : Sys A P) : Prop where
  state : k'._state = k._state
  waiters : k'._waiters = k._waiters
  threads : k'._threads = k._threads
  terminated : k'._terminated = k._terminated
  interrupts : k'.interrupts = k.interrupts
  idle_entity : k'._idle_entity = k._idle_entity
  active : k'._active = k._active
  queued : ∀ e, k'.queued e = k.queued e

omit [DecidableEq P] in
theorem switched_schedule {k k' : Sys A P} (h : k.schedule = .ok k') : Switched k k' := by
  have hq := fun e => (schedule_queued h e).1
  obtain ⟨-, rfl⟩ | ⟨-, rfl, -⟩ := Sys.schedule_ok h <;> exact ⟨rfl, rfl, rfl, rfl, rfl, rfl, rfl, hq⟩

omit [DecidableEq P] in
theorem Switched.trans {k₁ k₂ k₃ : Sys A P} (h₁ : Switched k₁ k₂) (h₂ : Switched k₂ k₃) :
    Switched k₁ k₃ :=
  ⟨h₂.state.trans h₁.state, h₂.waiters.trans h₁.waiters, h₂.threads.trans h₁.threads,
    h₂.terminated.trans h₁.terminated, h₂.interrupts.trans h₁.interrupts,
    h₂.idle_entity.trans h₁.idle_entity, h₂.active.trans h₁.active,
    fun e => (h₂.queued e).trans (h₁.queued e)⟩

omit [DecidableEq P] in
theorem switched_update_runtime (ticks : Nanoseconds) (k : Sys A P) :
    Switched k (k.update_runtime ticks) :=
  ⟨rfl, rfl, rfl, rfl, rfl, rfl, rfl, fun _ => rfl⟩

omit [DecidableEq P] in
theorem switched_update_accounting (k : Sys A P) : Switched k k.update_accounting := by
  unfold Sys.update_accounting
  split <;> exact ⟨rfl, rfl, rfl, rfl, rfl, rfl, rfl, fun _ => rfl⟩

omit [DecidableEq P] in
theorem switched_timer {k k' : Sys A P} (h : k.lapic_timer_irq_handler = .ok k') :
    Switched k k' :=
  ((switched_update_runtime _ k).trans (switched_update_accounting _)).trans (switched_schedule h)

/-! ## The start -/

/-- Some threads have been started, and nothing runs yet. -/
def boot (A : SchedulingAlgorithm T) (idle : T) (started : List T) (threads : P → List T) :
    Machine A P where
  sys := Sys.boot A idle started threads
  stack _ := []

omit [DecidableEq P] in
theorem boot_queued (idle : T) (started : List T) (threads : P → List T) (e : T) :
    (Sys.boot A idle started threads).queued e = started.count e := by
  have hfold : ∀ q, (A.entities (started.foldl (fun q t => A.add_to_runqueue t q) q)).count e =
      (A.entities q).count e + started.count e := by
    induction started with
    | nil => simp
    | cons t started ih =>
      intro q
      rw [List.foldl_cons, ih, A.count_add, List.count_cons]
      simp only [beq_iff_eq]
      omega
  unfold Sys.queued Sys.boot
  rw [hfold, A.entities_empty, List.count_nil, Nat.zero_add]

omit [DecidableEq P] in
theorem boot_booted {idle : T} {started : List T} {threads : P → List T}
    (hs : (idle :: started).Nodup) (hidle : ∀ p, idle ∉ threads p)
    (hone : ∀ p q, ∀ t ∈ threads p, t ∈ threads q → p = q) (hnodup : ∀ p, (threads p).Nodup) :
    (boot A idle started threads).Booted where
  stack _ := rfl
  active := rfl
  current := rfl
  current_thread := rfl
  idle_state := if_pos (.inl rfl)
  idle_queued := by
    unfold boot
    rw [boot_queued]
    exact List.count_eq_zero.mpr (List.nodup_cons.mp hs).1
  idle_threads := hidle
  states e := by
    unfold boot Sys.boot
    dsimp only
    split <;> simp
  mirrors e he := by
    unfold Mirrors boot
    rw [boot_queued]
    have he : e ≠ idle := he
    unfold Sys.boot
    by_cases hmem : e ∈ started
    · simp [he, hmem, List.count_eq_one_of_mem (List.nodup_cons.mp hs).2 hmem,
        SchedulingEntityState.queued]
    · simp [he, hmem, List.count_eq_zero.mpr hmem, SchedulingEntityState.queued]
  waiters _ := rfl
  terminated _ := rfl
  threads := hone
  nodup := hnodup

/-! ## Runs that are played back -/

/-- The action is allowed, and creates no thread. -/
def permits (m : Machine A P) : Action T P → Bool
  | .run => m.stack m.running ≠ []
  | .call frame _ => m.stack none = [] ∧ m.stack (some m.sys.current_thread) = [] ∧
      m.sys.current_thread ≠ m.sys._idle_entity ∧ frame.Entry ∧
      frame.goal.all fun g => g.1 ≠ m.sys._idle_entity
  | .create_thread _ _ => false
  | _ => m.stack none = [] ∧
      (m.stack (some m.sys.current_thread) = [] ∨ m.sys.interrupts m.sys.current_thread = true)

/-- The machine after the actions, if it permits each of them. -/
def exec (m : Machine A P) : List (Action T P) → Option (Machine A P)
  | [] => some m
  | a :: as => if m.permits a then (m.step a).toOption.bind fun m' => m'.exec as else none

omit [DecidableEq P] in
theorem permits_allowed {a : Action T P} (h : m.permits a = true) : m.allowed a := by
  cases a with
  | call f i =>
    simp only [permits, decide_eq_true_eq, Option.all_eq_true] at h
    obtain ⟨hnone, hempty, hidle, hentry, hgoal⟩ := h
    exact ⟨⟨hnone, hempty⟩, hidle, hentry, fun g hg => by simpa using hgoal g hg⟩
  | create_thread => cases h
  | _ => simpa [permits, allowed, Interruptible] using h

theorem exec_run {as : List (Action T P)} (h : m.exec as = some m') :
    (system fun _ _ => True).Run m as m' := by
  induction as generalizing m with
  | nil =>
    cases h
    exact .nil _
  | cons a as ih =>
    unfold exec at h
    split at h
    next ha =>
      obtain ⟨m₁, hm₁, hx⟩ := Option.bind_eq_some_iff.mp h
      refine .cons ⟨permits_allowed ha, trivial⟩ ?_ (ih hx)
      cases hs : m.step a with
      | error e => simp [hs, Except.toOption] at hm₁
      | ok m₂ =>
        rw [hs] at hm₁
        exact hs.trans (congrArg _ (Option.some.inj hm₁))
    next => cases h

theorem run_of_exec (m : Machine A P) (as : List (Action T P)) (p : Machine A P → Prop)
    [DecidablePred p] (h : (m.exec as).any (fun m' => p m') = true) :
    ∃ m', (system fun _ _ => True).Run m as m' ∧ p m' := by
  cases hm : m.exec as with
  | none => simp [hm] at h
  | some m' => exact ⟨m', exec_run hm, by simpa [hm] using h⟩

end Machine

end Infos.Kernel
