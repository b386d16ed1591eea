import Infos.Drivers.Terminal
import Infos.Kernel.Waiting

/-!
# A thread that reads from a terminal

One thread calls `Terminal::read`. The keyboard's interrupt comes at any point, and other threads do
what they like. If no key comes while the reader is on its way from the list of waiters to sleep, it
is in the list whenever it sleeps. A key that comes there clears the list, and nothing wakes the
reader then.
-/

namespace Infos

namespace Kernel.Frame

open SchedulingEntityState

variable {T P : Type}

/-- The event that the frame waits for, or will wait for. -/
def waits_for : Frame T P → Option (Event T P)
  | wait event => some event
  | while_not event => some event
  | sys_wait_proc process => some (.process process)
  | sys_join_thread thread => some (.thread thread)
  | _ => none

/-- The frame is there to make the thread sleep. -/
def Lulls (t : T) (f : Frame T P) : Prop := f = .sleep t ∨ f.changing = some (t, SLEEPING)

instance [DecidableEq T] [DecidableEq P] (t : T) (f : Frame T P) : Decidable (f.Lulls t) :=
  inferInstanceAs (Decidable (_ ∨ _))

variable [DecidableEq T] [DecidableEq P] {A : SchedulingAlgorithm T} {k k' : Sys A P}
  {f g : Frame T P} {gs : List (Frame T P)} {t : T} {e : Event T P}

theorem lulls_step (h : f.step k = .ok (gs, k')) (hg : g ∈ gs) (hl : g.Lulls t) :
    f.Lulls t ∨ ∃ e, f = .wait e ∧ k.current_thread = t := by
  have hnone : (∀ g ∈ gs, ¬g.Lulls t) → f.Lulls t ∨ ∃ e, f = .wait e ∧ k.current_thread = t :=
    fun hn => absurd hl (hn g hg)
  cases does h with
  | begins | compared | differs | removes | add_to_runqueue | remove_from_runqueue =>
    obtain rfl := List.mem_singleton.mp hg
    simpa [Lulls, changing] using hl
  | wait =>
    obtain rfl := List.mem_singleton.mp hg
    simpa [Lulls, changing] using hl
  | sleep =>
    rcases List.mem_pair.mp hg with rfl | rfl
    · simpa [Lulls, changing] using hl
    · simp [Lulls, changing] at hl
  | _ => exact hnone (by simp [Lulls, changing])

theorem waits_for_step (h : f.step k = .ok (gs, k')) (hg : g ∈ gs) (he : g.waits_for = some e) :
    f.waits_for = some e := by
  have hnone : (∀ g ∈ gs, g.waits_for = none) → f.waits_for = some e :=
    fun hn => by simp [hn g hg] at he
  cases does h with
  | sys_wait_proc | sys_join_thread =>
    obtain rfl := List.mem_singleton.mp hg
    exact he
  | not_ended =>
    simp only [List.mem_cons, List.not_mem_nil, or_false] at hg
    rcases hg with rfl | rfl | rfl
    · cases he
    · exact he
    · exact he
  | _ => exact hnone (by simp [waits_for])

end Kernel.Frame

namespace Drivers

open Kernel Kernel.SchedulingEntityState

namespace Terminal

/-- The condition of the inner loop of `read`. -/
def Empty (tty : Terminal) : Prop := tty._read_buffer_head = tty._read_buffer_tail

instance (tty : Terminal) : Decidable tty.Empty := inferInstanceAs (Decidable (_ = _))

/-- The lines behind the inner loop. -/
def take (tty : Terminal) : UInt8 × Terminal :=
  (tty._read_buffer tty._read_buffer_head.toNat,
    { tty with _read_buffer_head := (tty._read_buffer_head + 1) % 64 })

theorem read_byte_eq (tty : Terminal) :
    tty.read_byte = if tty.Empty then none else some tty.take := rfl

end Terminal

inductive ReadStep where
  | test
  | wait
  | take
  | returned
  deriving DecidableEq

/-- The call of `read` that the reader is in, or the last one. -/
structure ReadCall where
  size : ℕ
  /-- What has been stored at `raw_buffer`. -/
  buffer : List UInt8
  next : ReadStep
  deriving DecidableEq

namespace ReadCall

def read (size : ℕ) : ReadCall := ⟨size, [], if size = 0 then .returned else .test⟩

/-- `buffer[n++] = elem`, and the condition of the outer loop. -/
def store (elem : UInt8) (call : ReadCall) : ReadCall :=
  { call with
    buffer := call.buffer ++ [elem]
    next := if call.buffer.length + 1 < call.size then .test else .returned }

end ReadCall

variable {T P : Type} [DecidableEq T] [DecidableEq P] {A : SchedulingAlgorithm T}

/-- The machine, the terminal, and what the reader does. -/
structure Session (A : SchedulingAlgorithm T) (P : Type) where
  machine : Machine A P
  tty : Terminal
  call : ReadCall

inductive Turn (T P : Type) where
  /-- Whatever else the machine does. -/
  | machine (action : Action T P)
  /-- The handler of the keyboard's interrupt calls `append_to_read_buffer`. -/
  | key (c : UInt8)
  /-- The reader calls `read`. -/
  | read (size : ℕ)
  /-- The reader goes on with the call. -/
  | go_on (interrupts : Bool)
  deriving DecidableEq

namespace Session

variable (reader : T) (device : ℕ)

/-- The reader runs, and is in none of the functions that `read` calls. -/
def AtHand (s : Session A P) : Prop :=
  s.machine.Outside ∧ s.machine.sys.current_thread = reader ∧ reader ≠ s.machine.sys._idle_entity

/-- What the reader may do beside its calls of `read`. It does not wait for anything else. -/
def Beside (s : Session A P) : Action T P → Prop
  | .call frame _ => s.call.next = .returned ∧ frame.waits_for = none
  | .create_thread _ _ => s.call.next = .returned
  | _ => True

def allowed (s : Session A P) : Turn T P → Prop
  | .machine action => s.machine.allowed action ∧ action ≠ .driver_irq device ∧
      (s.machine.sys.current_thread = reader → s.Beside action)
  | .key _ => s.machine.allowed (.driver_irq device)
  | .read _ => s.AtHand reader ∧ s.call.next = .returned
  | .go_on _ => s.AtHand reader ∧ s.call.next ≠ .returned

/-- `device` is the number of `_read_buffer_event`. -/
def step (s : Session A P) : Turn T P → Except Fault (Session A P)
  | .machine action => (s.machine.step action).map fun machine => { s with machine := machine }
  | .key c => (s.machine.step (.driver_irq device)).map fun machine =>
      { s with machine := machine, tty := s.tty.append_to_read_buffer c }
  | .read size => .ok { s with call := .read size }
  | .go_on interrupts =>
    match s.call.next with
    | .test => .ok { s with call.next := if s.tty.Empty then .wait else .take }
    | .wait => (s.machine.step (.call (.wait (.driver device)) interrupts)).map fun machine =>
        { s with machine := machine, call.next := .test }
    | .take => .ok { s with tty := s.tty.take.2, call := s.call.store s.tty.take.1 }
    | .returned => .ok s

structure Booted (s : Session A P) : Prop where
  machine : s.machine.Booted
  tty : ∃ buffer, s.tty = .new buffer
  call : s.call = .read 0

/-- The runs of which every turn is guarded. -/
def system (guard : Session A P → Turn T P → Prop) :
    System (Session A P) (Turn T P) Fault where
  start := Booted
  allowed s turn := s.allowed reader device turn ∧ guard s turn
  step := step device

/-- The reader has put itself into the list, and has not stored that it sleeps. -/
def FallsAsleep (m : Machine A P) : Prop := ∃ f ∈ m.stack (some reader), f.Lulls reader

instance (m : Machine A P) : Decidable (FallsAsleep reader m) :=
  inferInstanceAs (Decidable (∃ f ∈ m.stack (some reader), f.Lulls reader))

/-- No key comes while the reader falls asleep. -/
def Undisturbed (s : Session A P) : Turn T P → Prop
  | .key _ => ¬FallsAsleep reader s.machine
  | _ => True

instance (s : Session A P) : (turn : Turn T P) → Decidable (Undisturbed reader s turn)
  | .key _ => inferInstanceAs (Decidable (¬_))
  | .machine _ | .read _ | .go_on _ => .isTrue trivial

/-- The reader sleeps and nothing will wake it, although there is something to read. -/
structure Stranded (s : Session A P) : Prop where
  state : s.machine.sys._state reader = SLEEPING
  absent : reader ∉ (s.machine.sys._waiters (.driver device)).waiters
  input : ¬s.tty.Empty

variable {reader device}
variable {m m' : Machine A P} {f g : Frame T P} {fs gs : List (Frame T P)} {k : Sys A P}
  {c : Option T} {u : T} {n : ℕ}

/-- Whoever sleeps is in the list, and the handler is still to come to him. Only the reader makes
himself sleep, and only the handler clears the list. -/
structure Inv (reader : T) (device : ℕ) (m : Machine A P) : Prop where
  handler : ∀ f ∈ m.stack none, f.Waking
  quiet : ∀ t, ∀ f ∈ m.stack (some t), f.wakes ≠ some (.driver device)
  waits : ∀ f ∈ m.stack (some reader), ∀ e ∈ f.waits_for, e = .driver device
  lulls : ∀ c, ∀ f ∈ m.stack c, f.Lulls reader → c = some reader ∧
    reader ∈ (m.sys._waiters (.driver device)).waiters ∧
    ∀ g ∈ m.stack none, g.wakes ≠ some (.driver device)
  asleep : m.sys._state reader = SLEEPING →
    reader ∈ (m.sys._waiters (.driver device)).waiters ∧
    Ahead (m.sys._waiters (.driver device)) reader (.driver device) none (m.stack none)

/-! ## One step -/

/-- No frame but the handler's wakes those that wait for the device. -/
theorem wakes_device (hstep : f.step m.sys = .ok (gs, k)) (hg : g ∈ gs)
    (hw : g.wakes = some (.driver device)) : f.wakes = some (.driver device) := by
  refine (Frame.wakes_step hstep hg hw).resolve_right fun ht => ?_
  cases f <;> cases ht

omit [DecidableEq P] in
theorem mem_update {stack : Option T → List (Frame T P)} {r : Option T}
    (hs : stack r = f :: fs) (hg : g ∈ Function.update stack r (gs ++ fs) c) :
    (c = r ∧ g ∈ gs) ∨ g ∈ stack c := by
  by_cases hc : c = r
  · rw [hc, Function.update_self, List.mem_append] at hg
    refine hg.imp (fun hg => ⟨hc, hg⟩) fun hg => ?_
    rw [hc, hs]
    exact List.mem_cons_of_mem _ hg
  · rw [Function.update_of_ne hc] at hg
    exact .inr hg

omit [DecidableEq P] in
/-- The handler does not wait. -/
theorem not_wait (h : Inv reader device m) (hs : m.stack m.running = f :: fs) {e : Event T P}
    (hf : f = .wait e) : m.running = some m.sys.current_thread ∧ m.stack none = [] := by
  refine (Machine.running_eq m).resolve_left fun hn => ?_
  rw [hn.1] at hs
  have hw := h.handler f (hs ▸ List.mem_cons_self)
  subst hf
  simp [Frame.Waking, Frame.goal] at hw

/-- The list keeps the reader, unless it is cleared. -/
theorem waiters_kept (hstep : f.step m.sys = .ok (gs, k)) (hf : f ≠ .clear (.driver device))
    (h : reader ∈ (m.sys._waiters (.driver device)).waiters) :
    reader ∈ (k._waiters (.driver device)).waiters := by
  rcases Frame.step_waiters hstep (.driver device) with heq | ⟨hc, -⟩ | ⟨-, heq⟩
  · rwa [heq]
  · exact absurd hc hf
  · rw [heq, WakeQueue.waiters_append]
    exact List.mem_append_left _ h

omit [DecidableEq P] in
/-- While the reader falls asleep or sleeps, the list is not cleared. -/
theorem not_clear (h : Inv reader device m) (hs : m.stack m.running = f :: fs)
    (hr : (∃ c, ∃ g ∈ m.stack c, g.Lulls reader) ∨ m.sys._state reader = SLEEPING) :
    f ≠ .clear (.driver device) := by
  rintro rfl
  rcases Machine.running_eq m with ⟨hn, -⟩ | ⟨hn, -⟩ <;> rw [hn] at hs
  · rcases hr with ⟨c, g, hg, hl⟩ | hst
    · exact (h.lulls c g hg hl).2.2 _ (hs ▸ List.mem_cons_self) rfl
    · have ha := (h.asleep hst).2
      rw [hs] at ha
      exact ha.1 rfl
  · exact h.quiet _ _ (hs ▸ List.mem_cons_self) rfl

theorem lulls_run (h : Inv reader device m) (hs : m.stack m.running = f :: fs)
    (hstep : f.step m.sys = .ok (gs, k))
    (hg : g ∈ Function.update m.stack m.running (gs ++ fs) c) (hl : g.Lulls reader) :
    c = some reader ∧ reader ∈ (k._waiters (.driver device)).waiters ∧
      ∀ g ∈ Function.update m.stack m.running (gs ++ fs) none, g.wakes ≠ some (.driver device) := by
  have hold : ∀ c', (∃ g' ∈ m.stack c', g'.Lulls reader) → c' = some reader ∧
      reader ∈ (k._waiters (.driver device)).waiters ∧
      ∀ g ∈ Function.update m.stack m.running (gs ++ fs) none,
        g.wakes ≠ some (.driver device) := by
    rintro c' ⟨g', hg', hl'⟩
    obtain ⟨hc', hmem, hw⟩ := h.lulls c' g' hg' hl'
    refine ⟨hc', waiters_kept hstep (not_clear h hs (.inl ⟨c', g', hg', hl'⟩)) hmem, ?_⟩
    intro v hv hve
    rcases mem_update hs hv with ⟨hn, hv⟩ | hv
    · exact hw f (hn ▸ hs ▸ List.mem_cons_self) (wakes_device hstep hv hve)
    · exact hw v hv hve
  rcases mem_update hs hg with ⟨rfl, hnew⟩ | hg
  · rcases Frame.lulls_step hstep hnew hl with hf | ⟨e, rfl, hcur⟩
    · exact hold _ ⟨f, hs ▸ List.mem_cons_self, hf⟩
    · -- the reader puts itself into the list
      obtain ⟨hr, hnone⟩ := not_wait h hs rfl
      rw [hcur] at hr
      obtain rfl : e = .driver device := h.waits _ (hr ▸ hs ▸ List.mem_cons_self) e rfl
      cases hstep
      refine ⟨hr, by simp [Sys.set_waiters, hcur], fun v hv => ?_⟩
      rw [hr, Function.update_of_ne (by simp), hnone] at hv
      cases hv
  · exact hold c ⟨g, hg, hl⟩

theorem asleep_run (h : Inv reader device m) (hs : m.stack m.running = f :: fs)
    (hstep : f.step m.sys = .ok (gs, k)) (hst : k._state reader = SLEEPING) :
    reader ∈ (k._waiters (.driver device)).waiters ∧
      Ahead (k._waiters (.driver device)) reader (.driver device) none
        (Function.update m.stack m.running (gs ++ fs) none) := by
  have hempty : ∀ w, m.running = some m.sys.current_thread → m.stack none = [] →
      Ahead w reader (.driver device) none (Function.update m.stack m.running (gs ++ fs) none) := by
    intro w hr hnone
    rw [hr, Function.update_of_ne (by simp), hnone]
    trivial
  rcases step_state hstep reader with heq | ⟨s, rfl, -, heq⟩
  · rw [heq] at hst
    obtain ⟨hmem, hahead⟩ := h.asleep hst
    have hf := not_clear h hs (.inr hst)
    refine ⟨waiters_kept hstep hf hmem, ?_⟩
    rcases Machine.running_eq m with ⟨hr, -⟩ | ⟨hr, hnone⟩
    · rw [hr] at hs
      rw [hr, Function.update_self]
      rw [hs] at hahead
      have hgo := ahead_step hahead hstep hmem hst (heq.trans hst)
      rcases Frame.step_waiters hstep (.driver device) with hw | ⟨hc, -⟩ | ⟨hc, -⟩
      · rwa [hw]
      · exact absurd hc hf
      · have := h.handler f (hs ▸ List.mem_cons_self)
        subst hc
        simp [Frame.Waking, Frame.goal] at this
    · exact hempty _ hr hnone
  · -- it has stored that it sleeps
    obtain rfl : s = SLEEPING := heq.symm.trans hst
    obtain ⟨hr, hmem, -⟩ := h.lulls m.running _ (hs ▸ List.mem_cons_self) (.inr rfl)
    refine ⟨waiters_kept hstep (by simp) hmem, ?_⟩
    rcases Machine.running_eq m with ⟨hn, -⟩ | ⟨hn, hnone⟩
    · rw [hn] at hr
      cases hr
    · exact hempty _ hn hnone

theorem inv_run (h : Inv reader device m) (hs : m.stack m.running = f :: fs)
    (hstep : f.step m.sys = .ok (gs, k)) :
    Inv (A := A) reader device ⟨k, Function.update m.stack m.running (gs ++ fs)⟩ where
  handler g hg := by
    rcases mem_update hs hg with ⟨hn, hg⟩ | hg
    · exact Frame.waking_step hstep (h.handler f (hn ▸ hs ▸ List.mem_cons_self)) g hg
    · exact h.handler g hg
  quiet t g hg hw := by
    rcases mem_update hs hg with ⟨hn, hg⟩ | hg
    · exact h.quiet t f (hn ▸ hs ▸ List.mem_cons_self) (wakes_device hstep hg hw)
    · exact h.quiet t g hg hw
  waits g hg e he := by
    rcases mem_update hs hg with ⟨hn, hg⟩ | hg
    · exact h.waits f (hn ▸ hs ▸ List.mem_cons_self) e (Frame.waits_for_step hstep hg he)
    · exact h.waits g hg e he
  lulls _ _ hg hl := lulls_run h hs hstep hg hl
  asleep hst := asleep_run h hs hstep hst

/-! ## The other turns -/

omit [DecidableEq P] in
/-- A frame is put on the empty stack of `c`. -/
theorem inv_push (h : Inv reader device m) (hm : Machine.Same m m') (hempty : m.stack c = [])
    (hstack : m'.stack = Function.update m.stack c [f]) (hf : ¬f.Lulls reader)
    (hhandler : c = none → f.Waking) (hwakes : c ≠ none → f.wakes = none)
    (hwaits : c = some reader → ∀ e ∈ f.waits_for, e = .driver device)
    (hlulls : FallsAsleep reader m → f.wakes ≠ some (.driver device))
    (hreaches : Reaches (m.sys._waiters (.driver device)) reader (.driver device) none f) :
    Inv reader device m' := by
  have hmem : ∀ {c' g}, g ∈ m'.stack c' → (c' = c ∧ g = f) ∨ g ∈ m.stack c' := by
    intro c' g hg
    rw [hstack] at hg
    by_cases hc : c' = c
    · rw [hc, Function.update_self, List.mem_singleton] at hg
      exact .inl ⟨hc, hg⟩
    · rw [Function.update_of_ne hc] at hg
      exact .inr hg
  refine ⟨fun g hg => ?_, fun t g hg hw => ?_, fun g hg e he => ?_, fun c' g hg hl => ?_,
    fun hst => ?_⟩
  · rcases hmem hg with ⟨hn, rfl⟩ | hg
    · exact hhandler hn.symm
    · exact h.handler g hg
  · rcases hmem hg with ⟨rfl, rfl⟩ | hg
    · rw [hwakes (by simp)] at hw
      cases hw
    · exact h.quiet t g hg hw
  · rcases hmem hg with ⟨hn, rfl⟩ | hg
    · exact hwaits hn.symm e he
    · exact h.waits g hg e he
  · obtain hg | hg := hmem hg
    · exact absurd hl (hg.2 ▸ hf)
    obtain ⟨rfl, hw, hv⟩ := h.lulls c' g hg hl
    rw [hm.waiters]
    refine ⟨rfl, hw, fun v hmv => ?_⟩
    rcases hmem hmv with ⟨-, rfl⟩ | hmv
    · exact hlulls ⟨g, hg, hl⟩
    · exact hv v hmv
  · rw [hm.state] at hst
    rw [hm.waiters]
    obtain ⟨hw, ha⟩ := h.asleep hst
    refine ⟨hw, ?_⟩
    rw [hstack]
    by_cases hc : none = c
    · rw [← hc, Function.update_self]
      exact ⟨hreaches, trivial⟩
    · rwa [Function.update_of_ne hc]

omit [DecidableEq P] in
theorem inv_same (h : Inv reader device m) (hm : Machine.Same m m') (hstack : m'.stack = m.stack) :
    Inv reader device m' := by
  refine ⟨?_, ?_, ?_, ?_, ?_⟩
  · rw [hstack]
    exact h.handler
  · rw [hstack]
    exact h.quiet
  · rw [hstack]
    exact h.waits
  · rw [hstack, hm.waiters]
    exact h.lulls
  · rw [hstack, hm.waiters, hm.state]
    exact h.asleep

theorem inv_call {i : Bool} (h : Inv reader device m) (ha : m.allowed (.call f i))
    (hs : m.step (.call f i) = .ok m')
    (hf : m.sys.current_thread = reader → ∀ e ∈ f.waits_for, e = .driver device) :
    Inv reader device m' := by
  have hm := Machine.same_step ha hs (by simp)
  obtain ⟨⟨-, hempty⟩, -, hentry, -⟩ := ha
  cases hs
  have hwakes := Waiting.entry_wakes hentry
  refine inv_push h hm hempty rfl ?_ (by simp) (fun _ => hwakes) ?_ (by simp [hwakes]) ?_
  · rintro (rfl | hl)
    · cases hentry
    · rw [changing_of_entry hentry] at hl
      cases hl
  · intro hc
    exact hf (Option.some.inj hc)
  · exact reaches_other (by simp [hwakes])

theorem inv_irq (h : Inv reader device m) (ha : m.allowed (.driver_irq n))
    (hs : m.step (.driver_irq n) = .ok m') (hn : n = device → ¬FallsAsleep reader m) :
    Inv reader device m' := by
  have hm := Machine.same_step ha hs (by simp)
  cases hs
  refine inv_push h hm ha.1 rfl (by simp [Frame.Lulls, Frame.changing]) (by simp [Frame.Waking])
    (by simp) (by simp) ?_ ?_
  · intro hf hw
    cases hw
    exact hn rfl hf
  · trivial

theorem inv_machine {s : Session A P} {a : Action T P} (h : Inv reader device s.machine)
    (ha : s.allowed reader device (.machine a)) (hs : s.machine.step a = .ok m') :
    Inv reader device m' := by
  obtain ⟨hall, hirq, hbeside⟩ := ha
  cases a with
  | run =>
    obtain ⟨f, fs, gs, k, hstack, hstep, rfl⟩ := Machine.step_run hs hall
    exact inv_run h hstack hstep
  | call f i =>
    refine inv_call h hall hs fun hc e he => ?_
    rw [(hbeside hc).2] at he
    cases he
  | lapic_timer =>
    have hm := Machine.same_step hall hs (by simp)
    obtain ⟨k, -, rfl⟩ := Machine.step_lapic_timer hs
    exact inv_same h hm rfl
  | driver_irq n =>
    exact inv_irq h hall hs fun hn => absurd (congrArg Action.driver_irq hn) hirq
  | create_thread p t =>
    have hm := Machine.same_step hall hs (by simp)
    cases hs
    exact inv_same h hm rfl

theorem inv_step {s s' : Session A P} {turn : Turn T P} (h : Inv reader device s.machine)
    (ha : s.allowed reader device turn) (hg : s.Undisturbed reader turn)
    (hs : s.step device turn = .ok s') : Inv reader device s'.machine := by
  cases turn with
  | machine a =>
    obtain ⟨m', hm, rfl⟩ := map_eq_ok hs
    exact inv_machine h ha hm
  | key c =>
    unfold step at hs
    obtain ⟨m', hm, rfl⟩ := map_eq_ok hs
    exact inv_irq h ha hm fun _ => hg
  | read size =>
    cases hs
    exact h
  | go_on i =>
    obtain ⟨⟨hout, hcur, hidle⟩, -⟩ := ha
    unfold step at hs
    dsimp only at hs
    cases hnext : s.call.next with
    | wait =>
      simp only [hnext] at hs
      obtain ⟨m', hm, rfl⟩ := map_eq_ok hs
      have hall : s.machine.allowed (.call (.wait (.driver device)) i) :=
        ⟨hout, hcur ▸ hidle, trivial, by simp [Frame.goal]⟩
      exact inv_call h hall hm (by simp [Frame.waits_for])
    | test | take | returned =>
      simp only [hnext] at hs
      cases hs
      exact h

omit [DecidableEq P] in
theorem inv_booted (h : m.Booted) : Inv reader device m where
  handler f hf := by simp [h.stack] at hf
  quiet t f hf := by simp [h.stack] at hf
  waits f hf := by simp [h.stack] at hf
  lulls c f hf := by simp [h.stack] at hf
  asleep hst := by
    rcases h.states reader with hr | hr <;> simp [hr] at hst

/-! ## Every run -/

theorem inv_reachable {s : Session A P}
    (h : (system (A := A) (P := P) reader device (Undisturbed reader)).Reachable s) :
    Inv reader device s.machine := by
  refine h.preserves (I := fun s => Inv reader device s.machine) ?_ ?_
  · intro s hs
    exact inv_booted hs.machine
  · intro s turn s' h ha hs
    exact inv_step h ha.1 ha.2 hs

/-- A reader that nobody disturbs as it falls asleep is in the list while it sleeps. -/
theorem never_stranded {s : Session A P}
    (h : (system reader device (Undisturbed reader)).Reachable s) :
    ¬s.Stranded reader device :=
  fun hs => hs.absent ((inv_reachable h).asleep hs.state).1

/-! ## Runs that are played back -/

instance (s : Session A P) : Decidable (s.AtHand reader) :=
  inferInstanceAs (Decidable ((_ ∧ _) ∧ _ ∧ _))

variable (reader device) in
/-- The turn is allowed, and no other thread calls anything. -/
def permits (s : Session A P) : Turn T P → Bool
  | .machine .run => s.machine.permits .run
  | .machine .lapic_timer => s.machine.permits .lapic_timer
  | .machine _ => false
  | .key _ => s.machine.permits (.driver_irq device)
  | .read _ => s.AtHand reader ∧ s.call.next = .returned
  | .go_on _ => s.AtHand reader ∧ s.call.next ≠ .returned

omit [DecidableEq P] in
theorem permits_allowed {s : Session A P} {turn : Turn T P}
    (h : s.permits reader device turn = true) : s.allowed reader device turn := by
  cases turn with
  | machine a =>
    cases a with
    | run => exact ⟨Machine.permits_allowed h, nofun, fun _ => trivial⟩
    | lapic_timer => exact ⟨Machine.permits_allowed h, nofun, fun _ => trivial⟩
    | _ => cases h
  | key c => exact Machine.permits_allowed (a := .driver_irq device) h
  | read size => simpa [permits, allowed] using h
  | go_on i => simpa [permits, allowed] using h

variable (reader device) in
/-- The part of the system that can be played back. -/
def played (guard : Session A P → Turn T P → Prop) : System (Session A P) (Turn T P) Fault :=
  { system reader device guard with
    allowed := fun s turn => s.permits reader device turn = true ∧ guard s turn }

instance (guard : Session A P → Turn T P → Prop) [∀ s turn, Decidable (guard s turn)]
    (s : Session A P) (turn : Turn T P) :
    Decidable ((played reader device guard).allowed s turn) :=
  inferInstanceAs (Decidable (_ ∧ _))

variable (reader device) in
theorem run_of_played (guard : Session A P → Turn T P → Prop)
    [∀ s turn, Decidable (guard s turn)] (s : Session A P) (turns : List (Turn T P))
    (p : Session A P → Prop) [DecidablePred p]
    (h : ((played reader device guard).exec s turns).any (fun s' => p s') = true) :
    ∃ s', (system reader device guard).Run s turns s' ∧ p s' := by
  cases hs : (played reader device guard).exec s turns with
  | none => simp [hs] at h
  | some s' =>
    refine ⟨s', (System.run_of_exec hs).weaken (fun _ _ ha => ?_) rfl, by simpa [hs] using h⟩
    exact ⟨permits_allowed ha.1, ha.2⟩

/-- One thread beside the idle one, which is to read from the terminal of device 0. -/
def one_reader : Session (CompletelyFairScheduler (Fin 2)) (Fin 1) :=
  ⟨Machine.boot _ 0 [1] fun _ => [1], .new fun _ => 0, .read 0⟩

theorem one_reader_booted : one_reader.Booted :=
  ⟨Machine.boot_booted (by decide) (by decide) (by decide) (by decide), ⟨_, rfl⟩, rfl⟩

/-- The reader waits for a byte, and a key comes after so many more steps. -/
def key_after (before after : ℕ) : List (Turn (Fin 2) (Fin 1)) :=
  [.machine .lapic_timer, .read 1, .go_on true, .go_on true] ++
    List.replicate before (.machine .run) ++ [.key 97] ++ List.replicate after (.machine .run)

theorem never_stranded_pressed : ∃ s : Session (CompletelyFairScheduler (Fin 2)) (Fin 1),
    (system 1 0 (Undisturbed 1)).Reachable s ∧
      s.machine.sys._state 1 = SLEEPING ∧ ¬s.tty.Empty ∧ ¬s.Stranded 1 0 := by
  obtain ⟨s, hrun, hst, hinput⟩ := run_of_played 1 0 (Undisturbed 1) one_reader (key_after 6 1)
    (fun s => s.machine.sys._state 1 = SLEEPING ∧ ¬s.tty.Empty) (by decide +kernel)
  have h : (system 1 0 (Undisturbed 1)).Reachable s := ⟨_, _, one_reader_booted, hrun⟩
  exact ⟨s, h, hst, hinput, never_stranded h⟩

/-- A key that comes as soon as the reader is in the list leaves him asleep. -/
theorem stranded : ∃ s : Session (CompletelyFairScheduler (Fin 2)) (Fin 1),
    (system 1 0 fun _ _ => True).Reachable s ∧ s.Stranded 1 0 := by
  obtain ⟨s, hrun, hst, habsent, hinput⟩ := run_of_played 1 0 (fun _ _ => True) one_reader
    (key_after 1 16) (fun s => s.machine.sys._state 1 = SLEEPING ∧
      1 ∉ (s.machine.sys._waiters (.driver 0)).waiters ∧ ¬s.tty.Empty) (by decide +kernel)
  exact ⟨s, ⟨_, _, one_reader_booted, hrun⟩, hst, habsent, hinput⟩

end Session

end Drivers

end Infos
