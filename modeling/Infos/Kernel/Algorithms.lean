import Infos.Commons.Rings
import Infos.Kernel.Time
import Mathlib.Algebra.Order.Ring.Nat
import Mathlib.Data.List.Rotate

/-!
# Scheduling algorithms

What the scheduler relies on in an algorithm, and the three that the kernel has: `sched-cfs.cpp`,
`sched-rr.cpp` and `sched-fifo.cpp`. A function that holds a `UniqueIRQLock` is one step.
-/

open Infos.Prog Infos.Commons

namespace Infos.Kernel

variable {T : Type}

/-- The entity is charged. -/
def increment_cpu_runtime [DecidableEq T] (entity : T) (delta : Nanoseconds)
    (cpu_runtime : T → Nanoseconds) : T → Nanoseconds :=
  Function.update cpu_runtime entity (cpu_runtime entity + delta)

/-- `entities` are those in the run queue, in no order that the scheduler could rely on. -/
structure SchedulingAlgorithm (T : Type) [DecidableEq T] where
  Queue : Type
  empty : Queue
  add_to_runqueue : T → Queue → Queue
  remove_from_runqueue : T → Queue → Queue
  pick_next_entity : (T → Nanoseconds) → Queue → Option T × Queue
  entities : Queue → List T
  entities_empty : entities empty = []
  count_add : ∀ e x q, (entities (add_to_runqueue e q)).count x =
    (entities q).count x + if e = x then 1 else 0
  count_remove : ∀ e x q, (entities q).count e ≤ 1 →
    (entities (remove_from_runqueue e q)).count x = if e = x then 0 else (entities q).count x
  count_pick : ∀ r x q, (entities (pick_next_entity r q).2).count x = (entities q).count x
  pick_mem : ∀ r q, ∀ e ∈ (pick_next_entity r q).1, e ∈ entities q
  pick_none : ∀ r q, (pick_next_entity r q).1 = none → entities q = []

/-! ## The completely fair one -/

namespace CompletelyFairScheduler

def add_to_runqueue (entity : T) (runqueue : List T) : List T := runqueue ++ [entity]

def remove_from_runqueue [DecidableEq T] (entity : T) (runqueue : List T) : List T :=
  runqueue.erase entity

/-- The loop of `pick_next_entity`. -/
def minimum (cpu_runtime : T → Nanoseconds) :
    List T → (min_runtime : Nanoseconds) → (min_runtime_entity : Option T) → Option T
  | [], _, min_runtime_entity => min_runtime_entity
  | entity :: rest, min_runtime, min_runtime_entity =>
    if min_runtime_entity.isNone ∨ cpu_runtime entity < min_runtime then
      minimum cpu_runtime rest (cpu_runtime entity) (some entity)
    else minimum cpu_runtime rest min_runtime min_runtime_entity

def pick_next_entity (cpu_runtime : T → Nanoseconds) (runqueue : List T) : Option T :=
  if runqueue.length = 0 then none
  else if runqueue.length = 1 then runqueue.head?
  else minimum cpu_runtime runqueue ⟨0⟩ none

/-- Once an entity is found, the rest of the loop finds one that is no worse than it and all that
are still to come. -/
theorem minimum_spec (r : T → Nanoseconds) (l : List T) (e : T) :
    ∃ m ∈ minimum r l (r e) (some e), m ∈ e :: l ∧
      ∀ x ∈ e :: l, (r m)._val.toNat ≤ (r x)._val.toNat := by
  induction l generalizing e with
  | nil => exact ⟨e, rfl, by simp⟩
  | cons f l ih =>
    unfold minimum
    simp only [Option.isNone_some, Bool.false_eq_true, false_or, Nanoseconds.lt_iff]
    split
    next hlt =>
      obtain ⟨m, hm, hmem, hle⟩ := ih f
      refine ⟨m, hm, List.mem_cons_of_mem _ hmem, fun x hx => ?_⟩
      rcases List.mem_cons.mp hx with rfl | hx
      · have := hle f List.mem_cons_self
        omega
      · exact hle x hx
    next hge =>
      obtain ⟨m, hm, hmem, hle⟩ := ih e
      refine ⟨m, hm, ?_, fun x hx => ?_⟩
      · simp only [List.mem_cons] at hmem ⊢
        tauto
      · simp only [List.mem_cons] at hx
        rcases hx with rfl | rfl | hx
        · exact hle x List.mem_cons_self
        · have := hle e List.mem_cons_self
          omega
        · exact hle x (List.mem_cons_of_mem _ hx)

/-- It picks an entity that has run no longer than any other. -/
theorem pick_spec (r : T → Nanoseconds) {q : List T} (hq : q ≠ []) :
    ∃ m ∈ pick_next_entity r q, m ∈ q ∧ ∀ x ∈ q, (r m)._val.toNat ≤ (r x)._val.toNat := by
  unfold pick_next_entity
  rw [if_neg (by simpa using hq)]
  split
  next h1 =>
    obtain ⟨e, rfl⟩ := List.length_eq_one_iff.mp h1
    exact ⟨e, rfl, by simp⟩
  next h1 =>
    cases q with
    | nil => exact absurd rfl hq
    | cons e l =>
      unfold minimum
      rw [if_pos (.inl rfl)]
      exact minimum_spec r l e

end CompletelyFairScheduler

open CompletelyFairScheduler in
def CompletelyFairScheduler (T : Type) [DecidableEq T] : SchedulingAlgorithm T where
  Queue := List T
  empty := []
  add_to_runqueue := add_to_runqueue
  remove_from_runqueue := remove_from_runqueue
  pick_next_entity r q := (pick_next_entity r q, q)
  entities q := q
  entities_empty := rfl
  count_add e x q := by
    unfold add_to_runqueue
    simp [List.count_singleton]
  count_remove e x q h := by
    unfold remove_from_runqueue
    rw [List.count_erase]
    split_ifs <;> simp_all
  count_pick _ _ _ := rfl
  pick_mem r q e he := by
    rcases eq_or_ne q [] with rfl | hq
    · cases he
    · obtain ⟨m, hm, hmem, -⟩ := pick_spec r hq
      rwa [Option.mem_unique he hm]
  pick_none r q h := by
    have h : pick_next_entity r q = none := h
    by_contra hq
    obtain ⟨m, hm, -⟩ := pick_spec r hq
    rw [h] at hm
    cases hm

/-! ## The ones of the coursework -/

open LinkedList

variable [DecidableEq T]

/-- The entities that are left in the run queue. -/
def without (entity : T) (l : List T) : List T := l.filter fun x => x ≠ entity

theorem count_without (e x : T) (l : List T) :
    (without e l).count x = if e = x then 0 else l.count x := by
  unfold without
  split
  next he =>
    subst he
    exact List.count_eq_zero.mpr (by simp)
  next he => exact List.count_filter (by simpa using Ne.symm he)

theorem without_spec {m : LinkedList T} {cells : List (ℕ × T)} (entity : T) (h : Holds m cells) :
    Returns (Remove entity) m fun _ m' => ∃ cells', Holds m' cells' ∧
      cells'.map Prod.snd = without entity (cells.map Prod.snd) := by
  refine returns_mono (Remove_spec entity h) fun _ m' h' => ⟨_, h', ?_⟩
  unfold without
  rw [List.filter_map]
  rfl

/-- An algorithm with a ring as its run queue. It picks the first entity, and puts the ring into
some `order`. -/
structure RingScheduler (T : Type) [DecidableEq T] where
  add_to_runqueue : T → Op T Unit
  remove_from_runqueue : T → Op T Unit
  pick_next_entity : Op T (Option T)
  order : List T → List T
  add_spec : ∀ e m cells, Holds m cells → Returns (add_to_runqueue e) m fun _ m' => ∃ cells',
    Holds m' cells' ∧ cells'.map Prod.snd = cells.map Prod.snd ++ [e]
  remove_spec : ∀ e m cells, Holds m cells → Returns (remove_from_runqueue e) m fun _ m' =>
    ∃ cells', Holds m' cells' ∧ cells'.map Prod.snd = without e (cells.map Prod.snd)
  pick_spec : ∀ m cells, Holds m cells → Returns pick_next_entity m fun r m' => ∃ cells',
    Holds m' cells' ∧ r = (cells.map Prod.snd).head? ∧
      cells'.map Prod.snd = order (cells.map Prod.snd)
  order_perm : ∀ l, (order l).Perm l

namespace RingScheduler

variable (s : RingScheduler T) (e : T) (q : RingList T)

def add : RingList T :=
  (RingList.run (s.add_to_runqueue e) (fun _ _ h => returns_mono (s.add_spec e _ _ h)
    fun _ _ h => ⟨_, h.choose_spec.1⟩) q).2

def remove : RingList T :=
  (RingList.run (s.remove_from_runqueue e) (fun _ _ h => returns_mono (s.remove_spec e _ _ h)
    fun _ _ h => ⟨_, h.choose_spec.1⟩) q).2

def pick : Option T × RingList T :=
  RingList.run s.pick_next_entity (fun _ _ h => returns_mono (s.pick_spec _ _ h)
    fun _ _ h => ⟨_, h.choose_spec.1⟩) q

theorem add_toList : (s.add e q).toList = q.toList ++ [e] := by
  refine RingList.run_toList (P := fun _ l => l = _) fun cells h hq => ?_
  rw [← hq]
  exact s.add_spec e _ _ h

theorem remove_toList : (s.remove e q).toList = without e q.toList := by
  refine RingList.run_toList (P := fun _ l => l = _) fun cells h hq => ?_
  rw [← hq]
  exact s.remove_spec e _ _ h

theorem pick_toList : (s.pick q).1 = q.toList.head? ∧ (s.pick q).2.toList = s.order q.toList := by
  refine RingList.run_toList (P := fun r l => r = _ ∧ l = _) fun cells h hq => ?_
  rw [← hq]
  exact s.pick_spec _ _ h

def algorithm : SchedulingAlgorithm T where
  Queue := RingList T
  empty := RingList.empty
  add_to_runqueue := s.add
  remove_from_runqueue := s.remove
  pick_next_entity _ := s.pick
  entities := RingList.toList
  entities_empty := rfl
  count_add e x q := by
    rw [s.add_toList]
    simp [List.count_singleton]
  count_remove e x q _ := by rw [s.remove_toList, count_without]
  count_pick _ x q := by rw [(s.pick_toList q).2, (s.order_perm q.toList).count_eq]
  pick_mem _ q e he := by
    rw [(s.pick_toList q).1] at he
    exact List.mem_of_head? he
  pick_none _ q he := by
    rw [(s.pick_toList q).1] at he
    exact List.head?_eq_none_iff.mp he

end RingScheduler

namespace RoundRobinScheduler

def add_to_runqueue (entity : T) : Op T Unit := LinkedList.Enqueue entity

def remove_from_runqueue (entity : T) : Op T Unit := LinkedList.Remove entity

def pick_next_entity : Op T (Option T) := do
  if (← LinkedList.Count) = 0 then pure none else some <$> LinkedList.Skew

variable {m : LinkedList T} {cells : List (ℕ × T)}

omit [DecidableEq T] in
theorem add_spec (entity : T) (h : Holds m cells) :
    Returns (add_to_runqueue entity) m fun _ m' => ∃ cells', Holds m' cells' ∧
      cells'.map Prod.snd = cells.map Prod.snd ++ [entity] := by
  refine returns_mono (Enqueue_spec entity h) ?_
  rintro - m' ⟨w, h'⟩
  exact ⟨_, h', by simp⟩

omit [DecidableEq T] in
/-- The first entity is picked, and is the last one then. -/
theorem pick_spec (h : Holds m cells) :
    Returns (pick_next_entity : Op T (Option T)) m fun r m' => ∃ cells', Holds m' cells' ∧
      r = (cells.map Prod.snd).head? ∧ cells'.map Prod.snd = (cells.map Prod.snd).rotate 1 := by
  unfold pick_next_entity
  rw [returns_bind]
  refine returns_mono (Count_spec h) ?_
  rintro _ m ⟨rfl, rfl⟩
  cases cells with
  | nil =>
    rw [if_pos (by simp), returns_pure]
    exact ⟨[], h, rfl, rfl⟩
  | cons c cells =>
    rw [if_neg (by simp; omega), returns_map]
    refine returns_mono (Skew_spec h) ?_
    rintro r m' ⟨rfl, h'⟩
    refine ⟨_, h', rfl, ?_⟩
    rw [List.map_cons, List.rotate_cons_succ, List.rotate_zero, List.map_append]
    rfl

end RoundRobinScheduler

open RoundRobinScheduler in
def RoundRobinScheduler (T : Type) [DecidableEq T] : RingScheduler T where
  add_to_runqueue := add_to_runqueue
  remove_from_runqueue := remove_from_runqueue
  pick_next_entity := pick_next_entity
  order := (·.rotate 1)
  add_spec e _ _ := add_spec e
  remove_spec e _ _ := without_spec e
  pick_spec _ _ := pick_spec
  order_perm l := l.rotate_perm 1

namespace FIFOScheduler

def add_to_runqueue (entity : T) : Op T Unit := do
  let _ ← LinkedList.AddToTail entity

def remove_from_runqueue (entity : T) : Op T Unit := LinkedList.Remove entity

def pick_next_entity : Op T (Option T) := do
  if (← LinkedList.Count) = 0 then pure none else some <$> LinkedList.Get 0

variable {m : LinkedList T} {cells : List (ℕ × T)}

omit [DecidableEq T] in
theorem add_spec (entity : T) (h : Holds m cells) :
    Returns (add_to_runqueue entity) m fun _ m' => ∃ cells', Holds m' cells' ∧
      cells'.map Prod.snd = cells.map Prod.snd ++ [entity] := by
  unfold add_to_runqueue
  rw [returns_bind]
  refine returns_mono (AddToTail_spec entity h) ?_
  rintro - m' ⟨w, -, h'⟩
  rw [returns_pure]
  exact ⟨_, h', by simp⟩

omit [DecidableEq T] in
/-- The first entity is picked, and stays the first one. -/
theorem pick_spec (h : Holds m cells) :
    Returns (pick_next_entity : Op T (Option T)) m fun r m' => ∃ cells', Holds m' cells' ∧
      r = (cells.map Prod.snd).head? ∧ cells'.map Prod.snd = cells.map Prod.snd := by
  unfold pick_next_entity
  rw [returns_bind]
  refine returns_mono (Count_spec h) ?_
  rintro _ m ⟨rfl, rfl⟩
  cases cells with
  | nil =>
    rw [if_pos (by simp), returns_pure]
    exact ⟨_, h, rfl, rfl⟩
  | cons c cells =>
    rw [if_neg (by simp; omega), returns_map]
    refine returns_mono (Get_spec h (i := 0) (by simp)) ?_
    rintro r m' ⟨rfl, rfl⟩
    exact ⟨_, h, rfl, rfl⟩

end FIFOScheduler

open FIFOScheduler in
def FIFOScheduler (T : Type) [DecidableEq T] : RingScheduler T where
  add_to_runqueue := add_to_runqueue
  remove_from_runqueue := remove_from_runqueue
  pick_next_entity := pick_next_entity
  order := id
  add_spec e _ _ := add_spec e
  remove_spec e _ _ := without_spec e
  pick_spec _ _ := pick_spec
  order_perm l := List.Perm.refl l

end Infos.Kernel
