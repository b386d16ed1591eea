import Infos.Kernel.Changes
import Mathlib.Data.Fintype.Option

/-!
# Half-woken entities

`set_entity_state` puts an entity into the run queue first and stores its new state then. If the
timer comes in between, `schedule` may pick an entity that it cannot activate. If it does not, and
changes of one entity do not overlap, every entity in the run queue is runnable whenever `schedule`
is called.
-/

namespace Infos.Kernel.HalfWoken

open SchedulingEntityState Infos.Kernel.Frame Machine

variable {T P : Type} [DecidableEq T] [DecidableEq P] {A : SchedulingAlgorithm T}

/-- The timer does not come between an entity's way into the run queue and the store of its state. -/
def NotBetween (m : Machine A P) (a : Action T P) : Prop :=
  a = .lapic_timer →
    ∀ e, (m.stack (some m.sys.current_thread)).head? ≠ some (.store e RUNNABLE)

def Whole (m : Machine A P) (a : Action T P) : Prop := m.NoOverlap a ∧ NotBetween m a

/-- An entity is in the run queue, or will be, and is about to become runnable. -/
def Half (m : Machine A P) (c : Option T) : Prop :=
  ∃ e, (m.stack c).head? = some (.store e RUNNABLE)

variable {m m' : Machine A P} {f : Frame T P} {fs gs : List (Frame T P)} {k : Sys A P}
  {c : Option T} {a : Action T P} {e : T}

/-! ## What is in the run queue -/

omit [DecidableEq P] in
theorem runnable (h : Base m) (hno : ∀ c, ¬Half m c) (he : m.sys.queued e ≠ 0) :
    m.sys._state e = RUNNABLE := by
  have hqueued : (m.sys._state e).queued = true → m.sys._state e = RUNNABLE := by
    intro hq
    have := h.states e
    cases hs : m.sys._state e <;> simp_all [SchedulingEntityState.queued]
  by_cases hmid : ∀ c, ∀ f ∈ (m.stack c).head?, f.midway ≠ some e
  · exact h.runnable_of_queued he hmid
  -- some thread is midway with it
  obtain ⟨c, f, hf, hfe⟩ : ∃ c, ∃ f ∈ (m.stack c).head?, f.midway = some e := by
    by_contra hn
    exact hmid fun c f hf hfe => hn ⟨c, f, hf, hfe⟩
  have hfirst := h.first c f hf
  cases f with
  | compare x s rest =>
    cases hfe
    apply hqueued
    by_contra hq
    exact he (hfirst.1.trans (if_neg hq))
  | add_to_runqueue x s =>
    cases hfe
    exact absurd hfirst.1 he
  | remove_from_runqueue x s =>
    cases hfe
    exact hqueued hfirst.2.1
  | store x s =>
    cases hfe
    have hs := (h.goals c _ (List.mem_of_head? hf) _ rfl).2
    cases s with
    | RUNNABLE => exact absurd ⟨_, hf⟩ (hno c)
    | RUNNING => exact absurd rfl hs
    | STOPPED | SLEEPING => exact absurd hfirst he
  | _ => cases hfe

omit [DecidableEq P] in
theorem schedules (h : Base m) (hno : ∀ c, ¬Half m c) (hk : Switched m.sys k) :
    k.schedule ≠ .error .activate := by
  have hnext : k._state k.next_entity = RUNNABLE := by
    rw [hk.state]
    unfold Sys.next_entity
    cases hp : (A.pick_next_entity k._cpu_runtime k.runqueue).1 with
    | none =>
      rw [Option.getD_none, hk.idle_entity]
      exact h.idle_state
    | some e =>
      rw [Option.getD_some]
      apply runnable h hno
      rw [← hk.queued]
      have hmem := A.pick_mem _ _ e (Option.mem_def.mpr hp)
      have := List.count_pos_iff.mpr hmem
      unfold Sys.queued
      omega
  rw [Sys.schedule_eq]
  split
  · simp [hnext]
  · simp

/-! ## Where an entity is half-woken -/

/-- Only the thread that runs is about to store that an entity is runnable, or the handler is. -/
structure Inv (m : Machine A P) : Prop extends Base m where
  half : ∀ c, Half m c → c = none ∨ c = some m.sys.current_thread

omit [DecidableEq P] in
/-- Where `schedule` is called by a thread, nobody is about to. -/
theorem Inv.not_half (h : Inv m) (hs : m.stack m.running = .invoke_kernel_syscall :: fs)
    (c : Option T) : ¬Half m c := by
  have hr := (h.current_ne hs (by simp [Waking, goal])).1
  have hnone : m.stack none = [] := by
    unfold running at hr
    split at hr
    next hn => exact hn
    next => cases hr
  rintro ⟨e, he⟩
  rcases h.half c ⟨e, he⟩ with rfl | rfl
  · simp [hnone] at he
  · rw [← hr, hs] at he
    cases he

omit [DecidableEq P] in
theorem Inv.not_half_timer (h : Inv m) (ha : m.allowed .lapic_timer)
    (hn : NotBetween m .lapic_timer) (c : Option T) : ¬Half m c := by
  rintro ⟨e, he⟩
  rcases h.half c ⟨e, he⟩ with rfl | rfl
  · rw [ha.1] at he
    cases he
  · exact hn rfl e he

theorem inv_run (h : Inv m) (ha : m.allowed .run) (hw : Whole m .run)
    (hs : m.step .run = .ok m') : Inv m' := by
  refine ⟨base_step h.toBase ha hw.1 hs, ?_⟩
  obtain ⟨f, fs, gs, k, hstack, hstep, rfl⟩ := step_run hs ha
  rintro c ⟨e, he⟩
  dsimp only at he ⊢
  by_cases hf : f = .invoke_kernel_syscall
  · subst hf
    obtain ⟨rfl, -⟩ := step_syscall hstep
    by_cases hc : c = m.running
    · -- what lies below a frame has not been begun
      rw [hc, Function.update_self, List.nil_append] at he
      have := h.below m.running
      rw [hstack] at this
      simpa [midway] using this _ (List.mem_of_head? he)
    · rw [Function.update_of_ne hc] at he
      exact absurd ⟨e, he⟩ (h.not_half hstack c)
  · rw [(step_quiet hstep hf).current_thread]
    by_cases hc : c = m.running
    · rw [hc]
      unfold running
      split <;> simp
    · rw [Function.update_of_ne hc] at he
      exact h.half c ⟨e, he⟩

theorem inv_step (h : Inv m) (ha : m.allowed a) (hw : Whole m a) (hs : m.step a = .ok m') :
    Inv m' := by
  have hbase := base_step h.toBase ha hw.1 hs
  cases a with
  | run => exact inv_run h ha hw hs
  | call f i =>
    cases hs
    refine ⟨hbase, ?_⟩
    rintro c ⟨e, he⟩
    by_cases hc : c = some m.sys.current_thread
    · exact .inr hc
    · exact h.half c ⟨e, by simpa [hc] using he⟩
  | lapic_timer =>
    obtain ⟨k, -, rfl⟩ := step_lapic_timer hs
    exact ⟨hbase, fun c hc => absurd hc (h.not_half_timer ha hw.2 c)⟩
  | driver_irq n =>
    cases hs
    refine ⟨hbase, ?_⟩
    rintro c ⟨e, he⟩
    by_cases hc : c = none
    · exact .inl hc
    · exact h.half c ⟨e, by simpa [hc] using he⟩
  | create_thread p t =>
    cases hs
    exact ⟨hbase, h.half⟩

theorem inv_reachable (h : (system (A := A) (P := P) Whole).Reachable m) : Inv m := by
  refine h.preserves (I := Inv) (fun m hm => ⟨base_booted hm, ?_⟩) ?_
  · rintro c ⟨e, he⟩
    rw [hm.stack] at he
    cases he
  · intro m a m' hm ha hs
    exact inv_step hm ha.1 ha.2 hs

/-! ## The assertion -/

theorem step_fault (h : f.step m.sys = .error .activate) :
    f = .invoke_kernel_syscall ∧ m.sys.schedule = .error .activate := by
  cases f with
  | invoke_kernel_syscall =>
    refine ⟨rfl, ?_⟩
    cases hs : m.sys.schedule <;> simp_all [Frame.step, bind, Except.bind, pure, Except.pure]
  | compare e s rest =>
    cases rest with
    | nil =>
      simp only [Frame.step] at h
      split at h <;> cases h
    | cons old rest =>
      simp only [Frame.step] at h
      split at h
      · cases h
      · cases s <;> cases h
  | wake_at event node =>
    cases node with
    | none => cases h
    | some node =>
      simp only [Frame.step] at h
      split at h <;> cases h
  | set_entity_state | wake_next | yield_from | stop_threads | while_not =>
    simp only [Frame.step] at h
    split at h <;> cases h
  | _ => cases h

/-- The assertion of `Thread::activate` holds, whatever is interrupted. -/
theorem activates_runnable (h : (system (A := A) (P := P) Whole).Reachable m)
    (ha : (system Whole).allowed m a) : m.step a ≠ .error .activate := by
  obtain ⟨ha, hw⟩ := ha
  have hinv := inv_reachable h
  intro hs
  cases a with
  | run =>
    unfold Machine.step at hs
    cases hstack : m.stack m.running with
    | nil => exact absurd hstack ha
    | cons f fs =>
      simp only [hstack] at hs
      obtain ⟨rfl, hsched⟩ := step_fault (map_eq_error hs)
      exact schedules hinv.toBase (hinv.not_half hstack)
        ⟨rfl, rfl, rfl, rfl, rfl, rfl, rfl, fun _ => rfl⟩ hsched
  | lapic_timer =>
    unfold Machine.step at hs
    have hk := map_eq_error hs
    unfold Sys.lapic_timer_irq_handler at hk
    exact schedules hinv.toBase (hinv.not_half_timer ha hw.2)
      ((switched_update_runtime _ m.sys).trans (switched_update_accounting _)) hk
  | call | driver_irq | create_thread => cases hs

/-- One process has two threads, and the first of them has been started. -/
def two_threads : Machine (CompletelyFairScheduler (Fin 3)) Unit := boot _ 0 [1] fun _ => [1, 2]

theorem two_threads_booted : two_threads.Booted :=
  boot_booted (by decide) (fun _ => by decide) (fun _ _ _ _ _ => rfl) fun _ => by decide

theorem activates_runnable_midway : ∃ m : Machine (CompletelyFairScheduler (Fin 3)) Unit,
    (system Whole).Reachable m ∧ m.stack (some 1) = [.add_to_runqueue 2 RUNNABLE] ∧
      m.step .lapic_timer ≠ .error .activate := by
  have h : (system Whole).Reachable _ := ⟨_, [.lapic_timer, .call (.start 2) true, .run, .run, .run],
    two_threads_booted,
    .cons ⟨⟨rfl, .inl rfl⟩, nofun, fun _ _ => nofun⟩ rfl <|
    .cons ⟨⟨⟨rfl, rfl⟩, by decide, trivial, by decide⟩, nofun, nofun⟩ rfl <|
    .cons ⟨List.cons_ne_nil _ _, .of_single (by decide), nofun⟩ rfl <|
    .cons ⟨List.cons_ne_nil _ _, .of_single (by decide), nofun⟩ rfl <|
    .cons ⟨List.cons_ne_nil _ _, .of_single (by decide), nofun⟩ rfl <| .nil _⟩
  exact ⟨_, h, rfl, activates_runnable h ⟨⟨rfl, .inr rfl⟩, nofun, fun _ _ => nofun⟩⟩

/-- The timer comes once the second thread is in the run queue. -/
theorem half_woken_picked : ∃ m : Machine (CompletelyFairScheduler (Fin 3)) Unit,
    (system fun _ _ => True).Reachable m ∧ m.allowed .lapic_timer ∧
      m.step .lapic_timer = .error .activate := by
  refine ⟨_, ⟨_, [.lapic_timer, .call (.start 2) true, .run, .run, .run, .run], two_threads_booted,
    .cons ⟨⟨rfl, .inl rfl⟩, trivial⟩ rfl <|
    .cons ⟨⟨⟨rfl, rfl⟩, by decide, trivial, by decide⟩, trivial⟩ rfl <|
    .cons ⟨List.cons_ne_nil _ _, trivial⟩ rfl <| .cons ⟨List.cons_ne_nil _ _, trivial⟩ rfl <|
    .cons ⟨List.cons_ne_nil _ _, trivial⟩ rfl <| .cons ⟨List.cons_ne_nil _ _, trivial⟩ rfl <|
    .nil _⟩, ⟨rfl, .inr rfl⟩, rfl⟩

end Infos.Kernel.HalfWoken
