import Infos.Kernel.Algorithms
import Mathlib.Data.List.Basic

/-!
# The scheduler and the clock

`Scheduler::schedule` and `Scheduler::update_accounting`, and the timer interrupt that calls them.
The state has the threads, the processes and the wait queues too, which `Threads.lean` is about.
-/

namespace Infos.Kernel

inductive SchedulingEntityState where
  | STOPPED
  | SLEEPING
  | RUNNABLE
  | RUNNING
  deriving DecidableEq, Repr

/-- Whether an entity in the state belongs in the run queue. -/
def SchedulingEntityState.queued : SchedulingEntityState → Bool
  | STOPPED => false
  | SLEEPING => false
  | RUNNABLE => true
  | RUNNING => true

/-- The `Event`s: the `_state_changed` of a thread or a process, and those of the drivers. -/
inductive Event (T P : Type) where
  | thread (t : T)
  | process (p : P)
  | driver (n : ℕ)
  deriving DecidableEq

/-- The `_waiters` of a `WakeQueue`, each in a node of its own. Nodes are told apart by their
addresses, and an address is not used again. -/
structure WakeQueue (T : Type) where
  nodes : List (ℕ × T)
  fresh : ℕ
  below : ∀ n ∈ nodes, n.1 < fresh
  nodup : (nodes.map Prod.fst).Nodup

namespace WakeQueue

variable {T : Type}

def empty : WakeQueue T := ⟨[], 0, by simp, by simp⟩

def append (w : WakeQueue T) (t : T) : WakeQueue T where
  nodes := w.nodes ++ [(w.fresh, t)]
  fresh := w.fresh + 1
  below n hn := by
    rcases List.mem_append.mp hn with hn | hn
    · have := w.below n hn
      omega
    · obtain rfl := List.mem_singleton.mp hn
      exact Nat.lt_succ_self _
  nodup := by
    rw [List.map_append, List.map_singleton, ← List.concat_eq_append, List.nodup_concat]
    refine ⟨fun h => ?_, w.nodup⟩
    obtain ⟨n, hn, he⟩ := List.mem_map.mp h
    have := w.below n hn
    omega

def clear (w : WakeQueue T) : WakeQueue T := ⟨[], w.fresh, by simp, by simp⟩

def waiters (w : WakeQueue T) : List T := w.nodes.map Prod.snd

/-- The nodes from the one at an address on. There are none if it has been freed. -/
def from_node (w : WakeQueue T) (node : ℕ) : List (ℕ × T) := w.nodes.dropWhile fun n => n.1 ≠ node

theorem mem_waiters {w : WakeQueue T} {node : ℕ} {n : ℕ × T} (h : n ∈ w.from_node node) :
    n.2 ∈ w.waiters :=
  List.mem_map_of_mem ((List.dropWhile_sublist _).subset h)

@[simp] theorem waiters_append (w : WakeQueue T) (t : T) : (w.append t).waiters = w.waiters ++ [t] := by
  simp [waiters, append]

@[simp] theorem waiters_clear (w : WakeQueue T) : w.clear.waiters = [] := rfl

end WakeQueue

/-- The assertions of `Thread::activate` and of `Scheduler::set_entity_state`, and a list node that
is read after it has been freed. -/
inductive Fault where
  | activate
  | set_entity_state
  | freed
  deriving DecidableEq, Repr

/-- The kernel, less what neither the scheduler nor the threads look at. A thread has its own
interrupt flag, which the processor holds while the thread runs. -/
structure Sys {T : Type} [DecidableEq T] (A : SchedulingAlgorithm T) (P : Type) where
  _state : T → SchedulingEntityState
  _cpu_runtime : T → Nanoseconds
  _exec_start_time : T → Timepoint
  interrupts : T → Bool
  _waiters : Event T P → WakeQueue T
  _terminated : P → Bool
  _threads : P → List T
  runqueue : A.Queue
  _active : Bool
  _current : Option T
  current_thread : T
  _idle_entity : T
  _runtime : Timepoint
  _ticks_since_last_tod_update : Nanoseconds
  _tod : TimeOfDay

namespace Sys

variable {T : Type} [DecidableEq T] {A : SchedulingAlgorithm T} {P : Type}

/-- The systems with two or three threads are run by evaluation. -/
instance neZero_two : NeZero 2 := ⟨by decide⟩

instance neZero_three : NeZero 3 := ⟨by decide⟩

/-- What `Scheduler::run` begins with: some threads have been started, and the idle one is runnable
without being in the run queue. -/
def boot (A : SchedulingAlgorithm T) (idle : T) (started : List T) (threads : P → List T) :
    Sys A P where
  _state t := if t = idle ∨ t ∈ started then .RUNNABLE else .STOPPED
  _cpu_runtime _ := ⟨0⟩
  _exec_start_time _ := ⟨⟨0⟩⟩
  interrupts _ := true
  _waiters _ := WakeQueue.empty
  _terminated _ := false
  _threads := threads
  runqueue := started.foldl (fun q t => A.add_to_runqueue t q) A.empty
  _active := true
  _current := none
  current_thread := idle
  _idle_entity := idle
  _runtime := ⟨⟨0⟩⟩
  _ticks_since_last_tod_update := ⟨0⟩
  _tod := ⟨0, 0, 0⟩

/-! ## Scheduling -/

def update_exec_start_time (entity : T) (k : Sys A P) : Sys A P :=
  { k with _exec_start_time := Function.update k._exec_start_time entity k._runtime }

/-- `Thread::activate` -/
def activate (thread : T) (prev : Option T) (k : Sys A P) : Except Fault (Bool × Sys A P) :=
  if k._state thread ≠ .RUNNABLE then .error .activate
  else if prev = some thread then .ok (true, k)
  else .ok (true, { k with current_thread := thread })

def schedule (k : Sys A P) : Except Fault (Sys A P) := do
  if ¬ k._active then return k
  let (next, runqueue) := A.pick_next_entity k._cpu_runtime k.runqueue
  let k := { k with runqueue := runqueue }
  let next := next.getD k._idle_entity
  if some next = k._current then return k.update_exec_start_time next
  let (activated, k) ← k.activate next k._current
  if activated then return { k with _current := some next }.update_exec_start_time next
  let (_, k) ← k.activate k._idle_entity k._current
  return { k with _current := some k._idle_entity }.update_exec_start_time k._idle_entity

def update_accounting (k : Sys A P) : Sys A P :=
  match k._current with
  | none => k
  | some current =>
    let now := k._runtime
    let delta := now - k._exec_start_time current
    { k with _cpu_runtime := increment_cpu_runtime current delta k._cpu_runtime }.update_exec_start_time
      current

/-- The entity that `schedule` wants to run. -/
def next_entity (k : Sys A P) : T :=
  (A.pick_next_entity k._cpu_runtime k.runqueue).1.getD k._idle_entity

/-- The state with the entity as the one that runs. -/
def switched (k : Sys A P) : Sys A P :=
  { k with
    runqueue := (A.pick_next_entity k._cpu_runtime k.runqueue).2
    current_thread := if some k.next_entity = k._current then k.current_thread else k.next_entity
    _current := some k.next_entity
    _exec_start_time := Function.update k._exec_start_time k.next_entity k._runtime }

/-- What `schedule` does: it runs the next entity, unless that one is neither running already nor
runnable. -/
theorem schedule_eq (k : Sys A P) : k.schedule =
    if k._active then
      if some k.next_entity ≠ k._current ∧ k._state k.next_entity ≠ .RUNNABLE then .error .activate
      else .ok k.switched
    else .ok k := by
  unfold schedule switched
  by_cases ha : k._active = true
  · have hnext : (A.pick_next_entity k._cpu_runtime k.runqueue).1.getD k._idle_entity =
        k.next_entity := rfl
    simp only [ha, hnext, not_true, if_false, if_true]
    by_cases hc : some k.next_entity = k._current
    · simp [hc, update_exec_start_time, pure, Except.pure]
    · by_cases hr : k._state k.next_entity = .RUNNABLE
      · simp [hc, Ne.symm hc, hr, activate, update_exec_start_time, pure, Except.pure, bind,
          Except.bind]
      · simp [hc, hr, activate, bind, Except.bind]
  · simp [ha, pure, Except.pure]

theorem schedule_ok {k k' : Sys A P} (h : k.schedule = .ok k') :
    (k._active = false ∧ k' = k) ∨ (k._active = true ∧ k' = k.switched ∧
      (some k.next_entity = k._current ∨ k._state k.next_entity = .RUNNABLE)) := by
  rw [schedule_eq] at h
  split at h
  next ha =>
    split at h
    next => cases h
    next hn =>
      cases h
      exact .inr ⟨ha, rfl, by tauto⟩
  next ha =>
    cases h
    exact .inl ⟨by simpa using ha, rfl⟩

/-! ## The clock -/

def increment_tod (tod : TimeOfDay) : TimeOfDay :=
  let tod := { tod with seconds := tod.seconds + 1 }
  if tod.seconds ≤ 59 then tod
  else
    let tod := { tod with seconds := 0, minutes := tod.minutes + 1 }
    if tod.minutes ≤ 59 then tod
    else
      let tod := { tod with minutes := 0, hours := tod.hours + 1 }
      if tod.hours ≤ 23 then tod else { tod with hours := 0 }

def one_second : Nanoseconds := ⟨1000000000⟩

/-- The loop of `update_runtime`. -/
def catch_up : (n : ℕ) → Nanoseconds → TimeOfDay → Nanoseconds × TimeOfDay
  | 0, ticks, tod => (ticks, tod)
  | n + 1, ticks, tod =>
    if one_second < ticks then catch_up n (ticks.reduce one_second) (increment_tod tod)
    else (ticks, tod)

def update_runtime (ticks : Nanoseconds) (k : Sys A P) : Sys A P :=
  let since := k._ticks_since_last_tod_update + ticks
  let (left, tod) := catch_up (since.count.toNat / 10 ^ 9 + 1) since k._tod
  { k with _runtime := k._runtime + ticks, _ticks_since_last_tod_update := left, _tod := tod }

@[simp] theorem update_runtime_runtime (ticks : Nanoseconds) (k : Sys A P) :
    (k.update_runtime ticks)._runtime = k._runtime + ticks := rfl

@[simp] theorem update_runtime_current (ticks : Nanoseconds) (k : Sys A P) :
    (k.update_runtime ticks)._current = k._current := rfl

@[simp] theorem update_runtime_current_thread (ticks : Nanoseconds) (k : Sys A P) :
    (k.update_runtime ticks).current_thread = k.current_thread := rfl

@[simp] theorem update_runtime_cpu_runtime (ticks : Nanoseconds) (k : Sys A P) :
    (k.update_runtime ticks)._cpu_runtime = k._cpu_runtime := rfl

@[simp] theorem update_runtime_exec_start_time (ticks : Nanoseconds) (k : Sys A P) :
    (k.update_runtime ticks)._exec_start_time = k._exec_start_time := rfl

/-- The loop comes to its end. -/
theorem catch_up_le (n : ℕ) (ticks : Nanoseconds) (tod : TimeOfDay)
    (h : ticks._val.toNat ≤ n * 10 ^ 9) : ¬ one_second < (catch_up n ticks tod).1 := by
  induction n generalizing ticks tod with
  | zero =>
    rw [Nanoseconds.lt_iff]
    unfold catch_up
    dsimp only
    omega
  | succ n ih =>
    unfold catch_up
    split
    next hlt =>
      rw [Nanoseconds.lt_iff] at hlt
      have hone : one_second._val.toNat = 10 ^ 9 := rfl
      refine ih _ _ ?_
      unfold Nanoseconds.reduce
      dsimp only
      rw [UInt64.toNat_sub_of_le _ _ (by rw [UInt64.le_iff_toNat_le]; omega)]
      omega
    next hge => exact hge

/-- Ten milliseconds. -/
def tick_length : Nanoseconds := ⟨10000000⟩

def lapic_timer_irq_handler (k : Sys A P) : Except Fault (Sys A P) :=
  ((k.update_runtime tick_length).update_accounting).schedule

end Sys

end Infos.Kernel
