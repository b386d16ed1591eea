import Infos.Kernel.Threads
import Infos.Lib.System
import Mathlib.Algebra.BigOperators.Ring.Finset
import Mathlib.Data.UInt

/-!
# Processor time is conserved

Every tick of the clock is charged to the entity that was the current one. It rests on
`_exec_start_time`: that of the current entity is always the time on the clock.
-/

namespace Infos.Kernel

variable {T P : Type} [DecidableEq T] [DecidableEq P] {A : SchedulingAlgorithm T}

namespace Accounting

/-- The timer, a call of `schedule`, or a step of anything else in the kernel. -/
inductive Call (T P : Type) where
  | lapic_timer_irq_handler
  | schedule
  | step (frame : Frame T P)

def Call.on (k : Sys A P) : Call T P → Except Fault (Sys A P)
  | lapic_timer_irq_handler => k.lapic_timer_irq_handler
  | schedule => k.schedule
  | step frame => (frame.step k).map Prod.snd

/-- The calls in any order, from the first `schedule` of the active scheduler on. -/
def system (A : SchedulingAlgorithm T) (P : Type) [DecidableEq P] :
    System (Sys A P) (Call T P) Fault where
  start k := ∃ k₀ : Sys A P, k₀._active = true ∧ k₀.schedule = .ok k
  allowed _ _ := True
  step k c := c.on k

/-- By how many nanoseconds the clock goes on. -/
def Call.length : Call T P → ℕ
  | lapic_timer_irq_handler => Sys.tick_length._val.toNat
  | _ => 0

def elapsed (cs : List (Call T P)) : ℕ := (cs.map Call.length).sum

/-- The time on the clock over which the entity is the current one. -/
def time_of (entity : T) : Sys A P → List (Call T P) → ℕ
  | _, [] => 0
  | k, c :: cs =>
    (if k._current = some entity then c.length else 0) +
    match c.on k with
    | .ok k => time_of entity k cs
    | .error _ => 0

/-- The start time of the current entity is up to date. -/
def Clocked (k : Sys A P) : Prop :=
  k._active = true ∧ ∃ e, k._current = some e ∧ k._exec_start_time e = k._runtime

/-! ## One call -/

variable {k k' : Sys A P}

omit [DecidableEq P] in
theorem clocked_schedule (ha : k._active = true) (h : k.schedule = .ok k') :
    Clocked k' ∧ k'._cpu_runtime = k._cpu_runtime ∧ k'._runtime = k._runtime := by
  obtain ⟨hn, -⟩ | ⟨-, rfl, -⟩ := Sys.schedule_ok h
  · simp [ha] at hn
  · unfold Clocked Sys.switched
    simp [ha]

/-- What a call charges, and to which entity. -/
structure Charges (k : Sys A P) (length : ℕ) (k' : Sys A P) : Prop where
  clocked : Clocked k'
  runtime : k'._runtime._val._val = k._runtime._val._val + UInt64.ofNat length
  cpu_runtime : ∀ e, (k'._cpu_runtime e)._val = (k._cpu_runtime e)._val +
    UInt64.ofNat (if k._current = some e then length else 0)

omit [DecidableEq P] in
theorem charges_nothing (h : Clocked k') (hc : k'._cpu_runtime = k._cpu_runtime)
    (hr : k'._runtime = k._runtime) : Charges k 0 k' := by
  refine ⟨h, by simp [hr], fun e => ?_⟩
  rw [hc]
  simp

omit [DecidableEq P] in
theorem charges_ticks {ticks : Nanoseconds} (hk : Clocked k)
    (h : ((k.update_runtime ticks).update_accounting).schedule = .ok k') :
    Charges k ticks._val.toNat k' := by
  obtain ⟨ha, e, he, hs⟩ := hk
  have ha' : ((k.update_runtime ticks).update_accounting)._active = true := by
    unfold Sys.update_accounting
    split <;> exact ha
  obtain ⟨hk', hc, hr⟩ := clocked_schedule ha' h
  have hnow : (k.update_runtime ticks).update_accounting._runtime = k._runtime + ticks := by
    unfold Sys.update_accounting
    split <;> rfl
  -- the two subtractions of the clock, one the wrong way round of the other
  have hcpu : (k.update_runtime ticks).update_accounting._cpu_runtime =
      increment_cpu_runtime e ((k._runtime + ticks) - k._runtime) k._cpu_runtime := by
    unfold Sys.update_accounting
    rw [Sys.update_runtime_current, he]
    show increment_cpu_runtime e ((k._runtime + ticks) - k._exec_start_time e) _ = _
    rw [hs]
    rfl
  refine ⟨hk', ?_, fun x => ?_⟩
  · rw [hr, hnow, Timepoint.add_val, Nanoseconds.add_val, UInt64.ofNat_toNat]
  · rw [hc, hcpu]
    unfold increment_cpu_runtime
    rw [Function.update_apply, he]
    by_cases hx : x = e
    · subst hx
      rw [if_pos rfl, if_pos rfl, Nanoseconds.add_val, Timepoint.sub_val, Timepoint.add_val,
        Nanoseconds.add_val, UInt64.ofNat_toNat, add_sub_cancel_left]
    · rw [if_neg hx, if_neg (by simpa using Ne.symm hx)]
      simp

theorem charges_call {c : Call T P} (hk : Clocked k) (h : c.on k = .ok k') :
    Charges k c.length k' := by
  cases c with
  | lapic_timer_irq_handler => exact charges_ticks hk h
  | schedule =>
    obtain ⟨h', hc, hr⟩ := clocked_schedule hk.1 h
    exact charges_nothing h' hc hr
  | step frame =>
    obtain ⟨⟨fs, k₁⟩, hs, rfl⟩ : ∃ p, frame.step k = .ok p ∧ p.2 = k' := by
      have h : (frame.step k).map Prod.snd = .ok k' := h
      cases hs : frame.step k with
      | error e =>
        rw [hs] at h
        cases h
      | ok p =>
        rw [hs] at h
        exact ⟨p, rfl, Except.ok.inj h⟩
    by_cases hf : frame = .invoke_kernel_syscall
    · subst hf
      obtain ⟨-, hs⟩ := Frame.step_syscall hs
      obtain ⟨h', hc, hr⟩ := clocked_schedule hk.1 hs
      exact charges_nothing h' hc hr
    · have hq := Frame.step_quiet hs hf
      refine charges_nothing ?_ hq.cpu_runtime hq.runtime
      unfold Clocked
      rw [hq.active, hq.current, hq.exec_start_time, hq.runtime]
      exact hk

/-! ## Runs -/

variable {c : Call T P} {cs : List (Call T P)}

theorem time_of_cons (e : T) (h : c.on k = .ok k') :
    time_of e k (c :: cs) =
      (if k._current = some e then c.length else 0) + time_of e k' cs := by
  conv_lhs => unfold time_of
  rw [h]

theorem charges_run (hk : Clocked k) (h : (system A P).Run k cs k') :
    k'._runtime._val._val = k._runtime._val._val + UInt64.ofNat (elapsed cs) ∧
      ∀ e, (k'._cpu_runtime e)._val = (k._cpu_runtime e)._val + UInt64.ofNat (time_of e k cs) := by
  induction h with
  | nil => simp [elapsed, time_of]
  | cons hc hs hr ih =>
    have hcall := charges_call hk hs
    obtain ⟨hrun, hcpu⟩ := ih hcall.clocked
    constructor
    · rw [hrun, hcall.runtime]
      unfold elapsed
      rw [List.map_cons, List.sum_cons, UInt64.ofNat_add, add_assoc]
    · intro e
      rw [hcpu, hcall.cpu_runtime, add_assoc, ← UInt64.ofNat_add, time_of_cons e hs]

/-- The current entities have all of the time among them. -/
theorem sum_time_of [Fintype T] (hk : Clocked k) (h : (system A P).Run k cs k') :
    ∑ e, time_of e k cs = elapsed cs := by
  induction h with
  | nil => simp [elapsed, time_of]
  | cons hc hs hr ih =>
    have ih := ih (charges_call hk hs).clocked
    obtain ⟨-, e, he, -⟩ := hk
    unfold elapsed at ih ⊢
    rw [List.map_cons, List.sum_cons, ← ih]
    simp only [time_of_cons _ hs, Finset.sum_add_distrib, he]
    simp

/-- Every entity is charged for the time over which it was the current one, and together they are
charged for all of the time on the clock. -/
theorem cpu_time_conserved [Fintype T] {k₀ k₁ k : Sys A P} {cs : List (Call T P)}
    (active : k₀._active = true) (first : k₀.schedule = .ok k₁) (run : (system A P).Run k₁ cs k) :
    (∀ e, (k._cpu_runtime e)._val = (k₁._cpu_runtime e)._val + UInt64.ofNat (time_of e k₁ cs)) ∧
      ∑ e, time_of e k₁ cs = elapsed cs ∧
      k._runtime._val._val = k₁._runtime._val._val + UInt64.ofNat (elapsed cs) ∧
      ∑ e, ((k._cpu_runtime e)._val - (k₁._cpu_runtime e)._val) =
        k._runtime._val._val - k₁._runtime._val._val := by
  have hk := (clocked_schedule active first).1
  obtain ⟨hrun, hcpu⟩ := charges_run hk run
  have hsum := sum_time_of hk run
  refine ⟨hcpu, hsum, hrun, ?_⟩
  have hcast : ∀ s : Finset T, ∑ e ∈ s, UInt64.ofNat (time_of e k₁ cs) =
      UInt64.ofNat (∑ e ∈ s, time_of e k₁ cs) := by
    intro s
    induction s using Finset.induction_on with
    | empty => rfl
    | insert e s he ih => rw [Finset.sum_insert he, Finset.sum_insert he, ih, UInt64.ofNat_add]
  rw [hrun, ← hsum, ← hcast, add_sub_cancel_left]
  refine Finset.sum_congr rfl fun e _ => ?_
  rw [hcpu, add_sub_cancel_left]

theorem cpu_time_conserved_at_first_tick :
    ∃ k₁ k : Sys (CompletelyFairScheduler (Fin 2)) Empty,
      (Sys.boot _ 0 [1] Empty.elim : Sys (CompletelyFairScheduler (Fin 2)) Empty).schedule = .ok k₁ ∧
        (system _ _).Run k₁ [.lapic_timer_irq_handler] k ∧
        ∑ e, time_of e k₁ [.lapic_timer_irq_handler] = Sys.tick_length._val.toNat := by
  have hfirst : (Sys.boot _ 0 [1] Empty.elim :
      Sys (CompletelyFairScheduler (Fin 2)) Empty).schedule = .ok _ := rfl
  refine ⟨_, _, hfirst, .cons trivial rfl (.nil _), ?_⟩
  exact (cpu_time_conserved rfl hfirst (.cons trivial rfl (.nil _))).2.1

end Accounting

end Infos.Kernel
