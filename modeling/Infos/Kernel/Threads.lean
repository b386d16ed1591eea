import Infos.Kernel.Scheduler

/-!
# Threads, processes, events and the system calls that wait

The functions are cut into the steps between which the timer may interrupt them. A function in
progress is a `Frame`, and a step turns it into the frames of what it calls and of the rest of it.
A section under a `UniqueIRQLock` is one step, and so is the software interrupt `int $0x80`, which
is handled with interrupts off.
-/

namespace Infos.Kernel

inductive Frame (T P : Type) where
  /-- `Scheduler::set_entity_state`, before its first test. -/
  | set_entity_state (entity : T) (state : SchedulingEntityState)
  /-- The old state is still to be compared with these. -/
  | compare (entity : T) (state : SchedulingEntityState) (olds : List SchedulingEntityState)
  | add_to_runqueue (entity : T) (state : SchedulingEntityState)
  | remove_from_runqueue (entity : T) (state : SchedulingEntityState)
  | store (entity : T) (state : SchedulingEntityState)
  /-- `Event::trigger` and `WakeQueue::wake`. -/
  | trigger (event : Event T P)
  /-- The loop of `wake`, with its iterator. -/
  | wake_at (event : Event T P) (node : Option ℕ)
  | wake_next (event : Event T P) (node : ℕ)
  | clear (event : Event T P)
  /-- `Event::wait` and `WakeQueue::sleep`. -/
  | wait (event : Event T P)
  | start (thread : T)
  | stop (thread : T)
  | sleep (thread : T)
  | wake_up (thread : T)
  /-- The last lines of `stop` and of `sleep`. -/
  | yield_from (thread : T)
  | invoke_kernel_syscall
  /-- `Process::terminate`, and its loop from an index on. -/
  | terminate (process : P)
  | stop_threads (process : P) (i : ℕ)
  | sys_wait_proc (process : P)
  | sys_join_thread (thread : T)
  /-- The loop of the two. -/
  | while_not (event : Event T P)
  | enable_interrupts
  deriving DecidableEq

variable {T P : Type} [DecidableEq T] [DecidableEq P] {A : SchedulingAlgorithm T}

namespace Sys

def set_interrupts (on : Bool) (k : Sys A P) : Sys A P :=
  { k with interrupts := Function.update k.interrupts k.current_thread on }

def set_waiters (event : Event T P) (w : WakeQueue T) (k : Sys A P) : Sys A P :=
  { k with _waiters := Function.update k._waiters event w }

def set_state (entity : T) (state : SchedulingEntityState) (k : Sys A P) : Sys A P :=
  { k with _state := Function.update k._state entity state }

def set_terminated (process : P) (k : Sys A P) : Sys A P :=
  { k with _terminated := Function.update k._terminated process true }

/-- `Process::create_thread`, with the fields as the constructors leave them. -/
def create_thread (process : P) (thread : T) (k : Sys A P) : Sys A P :=
  { k with
    _threads := Function.update k._threads process (k._threads process ++ [thread])
    _state := Function.update k._state thread .STOPPED
    _cpu_runtime := Function.update k._cpu_runtime thread ⟨0⟩
    _exec_start_time := Function.update k._exec_start_time thread ⟨⟨0⟩⟩
    interrupts := Function.update k.interrupts thread true }

/-- `Process::terminated` and `SchedulingEntity::stopped`: what the two loops wait for. -/
def ended (k : Sys A P) : Event T P → Bool
  | .thread t => k._state t = .STOPPED
  | .process p => k._terminated p
  | .driver _ => true

end Sys

namespace Frame

open SchedulingEntityState

/-- What the old state is compared with, on the way to another one. -/
def olds : SchedulingEntityState → List SchedulingEntityState
  | RUNNABLE => [STOPPED, SLEEPING]
  | STOPPED => [RUNNABLE, RUNNING]
  | SLEEPING => [RUNNABLE, RUNNING]
  | RUNNING => [RUNNABLE]

def step (k : Sys A P) : Frame T P → Except Fault (List (Frame T P) × Sys A P)
  | set_entity_state entity state =>
    if k._state entity = state then .ok ([], k) else .ok ([compare entity state (olds state)], k)
  | compare entity state [] =>
    if state = RUNNING then .error .set_entity_state else .ok ([store entity state], k)
  | compare entity state (old :: rest) =>
    if k._state entity ≠ old then .ok ([compare entity state rest], k)
    else match state with
      | RUNNABLE => .ok ([add_to_runqueue entity state], k)
      | STOPPED => .ok ([remove_from_runqueue entity state], k)
      | SLEEPING => .ok ([remove_from_runqueue entity state], k)
      | RUNNING => .ok ([store entity state], k)
  | add_to_runqueue entity state =>
    .ok ([store entity state], { k with runqueue := A.add_to_runqueue entity k.runqueue })
  | remove_from_runqueue entity state =>
    .ok ([store entity state], { k with runqueue := A.remove_from_runqueue entity k.runqueue })
  | store entity state => .ok ([trigger (.thread entity)], k.set_state entity state)
  | trigger event => .ok ([wake_at event ((k._waiters event).nodes.head?.map Prod.fst)], k)
  | wake_at event none => .ok ([clear event], k)
  | wake_at event (some node) =>
    match (k._waiters event).from_node node with
    | [] => .error .freed
    | n :: _ => .ok ([wake_up n.2, wake_next event node], k)
  | wake_next event node =>
    match (k._waiters event).from_node node with
    | [] => .error .freed
    | _ :: rest => .ok ([wake_at event (rest.head?.map Prod.fst)], k)
  | clear event => .ok ([], k.set_waiters event (k._waiters event).clear)
  | wait event =>
    .ok ([sleep k.current_thread],
      k.set_waiters event ((k._waiters event).append k.current_thread))
  | start thread => .ok ([set_entity_state thread RUNNABLE], k)
  | stop thread => .ok ([set_entity_state thread STOPPED, yield_from thread], k)
  | sleep thread => .ok ([set_entity_state thread SLEEPING, yield_from thread], k)
  | wake_up thread => .ok ([set_entity_state thread RUNNABLE], k)
  | yield_from thread =>
    if k.current_thread = thread then .ok ([invoke_kernel_syscall], k) else .ok ([], k)
  | invoke_kernel_syscall => do
    let k ← k.schedule
    return ([], k)
  | terminate process =>
    .ok ([trigger (.process process), stop_threads process 0], k.set_terminated process)
  | stop_threads process i =>
    match (k._threads process)[i]? with
    | none => .ok ([], k)
    | some thread => .ok ([stop thread, stop_threads process (i + 1)], k)
  | sys_wait_proc process => .ok ([while_not (.process process)], k.set_interrupts false)
  | sys_join_thread thread => .ok ([while_not (.thread thread)], k.set_interrupts false)
  | while_not event =>
    if k.ended event then .ok ([], k)
    else .ok ([enable_interrupts, wait event, while_not event], k)
  | enable_interrupts => .ok ([], k.set_interrupts true)

/-- The change of state that the frame is there to make. -/
def goal : Frame T P → Option (T × SchedulingEntityState)
  | set_entity_state entity state => some (entity, state)
  | compare entity state _ => some (entity, state)
  | add_to_runqueue entity state => some (entity, state)
  | remove_from_runqueue entity state => some (entity, state)
  | store entity state => some (entity, state)
  | start thread => some (thread, RUNNABLE)
  | stop thread => some (thread, STOPPED)
  | sleep thread => some (thread, SLEEPING)
  | wake_up thread => some (thread, RUNNABLE)
  | _ => none

/-- All that a step can do. -/
inductive Does (k : Sys A P) : Frame T P → List (Frame T P) → Sys A P → Prop
  | already {entity state} (h : k._state entity = state) :
      Does k (set_entity_state entity state) [] k
  | begins {entity state} (h : k._state entity ≠ state) :
      Does k (set_entity_state entity state) [compare entity state (olds state)] k
  | compared {entity state} (h : state ≠ RUNNING) :
      Does k (compare entity state []) [store entity state] k
  | differs {entity state old rest} (h : k._state entity ≠ old) :
      Does k (compare entity state (old :: rest)) [compare entity state rest] k
  | adds {entity old rest} (h : k._state entity = old) :
      Does k (compare entity RUNNABLE (old :: rest)) [add_to_runqueue entity RUNNABLE] k
  | removes {entity state old rest} (h : k._state entity = old)
      (hs : state = STOPPED ∨ state = SLEEPING) :
      Does k (compare entity state (old :: rest)) [remove_from_runqueue entity state] k
  | runs {entity old rest} (h : k._state entity = old) :
      Does k (compare entity RUNNING (old :: rest)) [store entity RUNNING] k
  | add_to_runqueue {entity state} : Does k (add_to_runqueue entity state) [store entity state]
      { k with runqueue := A.add_to_runqueue entity k.runqueue }
  | remove_from_runqueue {entity state} :
      Does k (remove_from_runqueue entity state) [store entity state]
        { k with runqueue := A.remove_from_runqueue entity k.runqueue }
  | store {entity state} :
      Does k (store entity state) [trigger (.thread entity)] (k.set_state entity state)
  | trigger {event} :
      Does k (trigger event) [wake_at event ((k._waiters event).nodes.head?.map Prod.fst)] k
  | wake_end {event} : Does k (wake_at event none) [clear event] k
  | wake {event node n rest} (h : (k._waiters event).from_node node = n :: rest) :
      Does k (wake_at event (some node)) [wake_up n.2, wake_next event node] k
  | wake_next {event node n rest} (h : (k._waiters event).from_node node = n :: rest) :
      Does k (wake_next event node) [wake_at event (rest.head?.map Prod.fst)] k
  | clear {event} : Does k (clear event) [] (k.set_waiters event (k._waiters event).clear)
  | wait {event} : Does k (wait event) [sleep k.current_thread]
      (k.set_waiters event ((k._waiters event).append k.current_thread))
  | start {thread} : Does k (start thread) [set_entity_state thread RUNNABLE] k
  | stop {thread} :
      Does k (stop thread) [set_entity_state thread STOPPED, yield_from thread] k
  | sleep {thread} :
      Does k (sleep thread) [set_entity_state thread SLEEPING, yield_from thread] k
  | wake_up {thread} : Does k (wake_up thread) [set_entity_state thread RUNNABLE] k
  | yields {thread} (h : k.current_thread = thread) :
      Does k (yield_from thread) [invoke_kernel_syscall] k
  | stays {thread} (h : k.current_thread ≠ thread) : Does k (yield_from thread) [] k
  | schedules {k'} (h : k.schedule = .ok k') : Does k invoke_kernel_syscall [] k'
  | terminate {process} : Does k (terminate process)
      [trigger (.process process), stop_threads process 0] (k.set_terminated process)
  | all_stopped {process i} (h : (k._threads process)[i]? = none) :
      Does k (stop_threads process i) [] k
  | stop_next {process i thread} (h : (k._threads process)[i]? = some thread) :
      Does k (stop_threads process i) [stop thread, stop_threads process (i + 1)] k
  | sys_wait_proc {process} :
      Does k (sys_wait_proc process) [while_not (.process process)] (k.set_interrupts false)
  | sys_join_thread {thread} :
      Does k (sys_join_thread thread) [while_not (.thread thread)] (k.set_interrupts false)
  | ended {event} (h : k.ended event = true) : Does k (while_not event) [] k
  | not_ended {event} (h : k.ended event = false) :
      Does k (while_not event) [enable_interrupts, wait event, while_not event] k
  | enable_interrupts : Does k enable_interrupts [] (k.set_interrupts true)

variable {f : Frame T P} {fs : List (Frame T P)} {k k' : Sys A P}

theorem does (h : f.step k = .ok (fs, k')) : Does k f fs k' := by
  cases f with
  | set_entity_state entity state =>
    simp only [step] at h
    split at h
    next hs =>
      cases h
      exact .already hs
    next hs =>
      cases h
      exact .begins hs
  | compare entity state rest =>
    cases rest with
    | nil =>
      simp only [step] at h
      split at h
      · cases h
      next hs =>
        cases h
        exact .compared hs
    | cons old rest =>
      simp only [step] at h
      split at h
      next hs =>
        cases h
        exact .differs hs
      next hs =>
        have hs : k._state entity = old := not_not.mp hs
        cases state <;> cases h
        · exact .removes hs (.inl rfl)
        · exact .removes hs (.inr rfl)
        · exact .adds hs
        · exact .runs hs
  | wake_at event node =>
    cases node with
    | none =>
      cases h
      exact .wake_end
    | some node =>
      simp only [step] at h
      split at h
      · cases h
      next hn =>
        cases h
        exact .wake hn
  | wake_next event node =>
    simp only [step] at h
    split at h
    · cases h
    next hn =>
      cases h
      exact .wake_next hn
  | yield_from thread =>
    simp only [step] at h
    split at h
    next ht =>
      cases h
      exact .yields ht
    next ht =>
      cases h
      exact .stays ht
  | invoke_kernel_syscall =>
    cases hs : k.schedule with
    | error e => simp [step, hs, bind, Except.bind] at h
    | ok k₁ =>
      simp only [step, hs] at h
      cases h
      exact .schedules hs
  | stop_threads process i =>
    simp only [step] at h
    split at h
    next ht =>
      cases h
      exact .all_stopped ht
    next ht =>
      cases h
      exact .stop_next ht
  | while_not event =>
    simp only [step] at h
    split at h
    next he =>
      cases h
      exact .ended he
    next he =>
      cases h
      exact .not_ended (by simpa using he)
  | _ =>
    cases h
    constructor

/-- What a step leaves as it was, unless it schedules. -/
structure Quiet (k k' : Sys A P) : Prop where
  cpu_runtime : k'._cpu_runtime = k._cpu_runtime
  exec_start_time : k'._exec_start_time = k._exec_start_time
  threads : k'._threads = k._threads
  active : k'._active = k._active
  current : k'._current = k._current
  current_thread : k'.current_thread = k.current_thread
  idle_entity : k'._idle_entity = k._idle_entity
  runtime : k'._runtime = k._runtime

theorem step_quiet (h : f.step k = .ok (fs, k')) (hf : f ≠ .invoke_kernel_syscall) :
    Quiet k k' := by
  cases does h with
  | schedules => exact absurd rfl hf
  | _ => exact ⟨rfl, rfl, rfl, rfl, rfl, rfl, rfl, rfl⟩

theorem step_syscall (h : (invoke_kernel_syscall : Frame T P).step k = .ok (fs, k')) :
    fs = [] ∧ k.schedule = .ok k' := by
  cases does h with
  | schedules hs => exact ⟨rfl, hs⟩

/-- What no step changes. -/
theorem step_fixed (h : f.step k = .ok (fs, k')) :
    k'._threads = k._threads ∧ k'._idle_entity = k._idle_entity ∧ k'._active = k._active := by
  cases does h with
  | schedules hs =>
    obtain ⟨-, rfl⟩ | ⟨-, rfl, -⟩ := Sys.schedule_ok hs <;> exact ⟨rfl, rfl, rfl⟩
  | _ => exact ⟨rfl, rfl, rfl⟩

end Frame

end Infos.Kernel
