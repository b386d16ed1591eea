import Infos.Lib.System
import Mathlib.Logic.Function.Basic

/-!
# The mutex

`Mutex::lock` takes the lock in one step and stores the owner in the next one, and `unlock` leaves
the owner as it is. Any thread may run between two steps.
-/

namespace Infos.Util

variable {T : Type}

/-- `_owner` may be no thread at all. -/
structure Mutex (T : Type) where
  _locked : UInt64
  _owner : Option T

namespace Mutex

/-- The constructor leaves `_owner` as it finds it. -/
def new (owner : Option T) : Mutex T := ⟨0, owner⟩

def locked (m : Mutex T) : Bool := m._locked ≠ 0

/-- What a thread is about to do with the mutex. -/
inductive Pc where
  | outside
  /-- `__sync_lock_test_and_set(&_locked, 1)` -/
  | test_and_set
  /-- `_owner = &Thread::current()` -/
  | set_owner
  /-- `__sync_lock_release(&_locked)` -/
  | release
  /-- The first operand of `locked_by_me`. -/
  | test_locked
  /-- The second one. -/
  | test_owner
  /-- `locked_by_me` has returned. -/
  | returned (answer : Bool)
  deriving DecidableEq

/-- `holds` are the threads whose `lock` has returned and whose `unlock` is not over. -/
structure Config (T : Type) where
  mutex : Mutex T
  pc : T → Pc
  holds : T → Bool

/-- The thread is in no function of the mutex. -/
def Pc.idle : Pc → Bool
  | .outside | .returned _ => true
  | _ => false

inductive Act (T : Type) where
  | lock (thread : T)
  | unlock (thread : T)
  | locked_by_me (thread : T)
  /-- The next step of what the thread has called. -/
  | go (thread : T)
  deriving DecidableEq

namespace Config

/-- A thread only unlocks a mutex that it holds. -/
def allowed (s : Config T) : Act T → Bool
  | .lock t => (s.pc t).idle
  | .unlock t => (s.pc t).idle && s.holds t
  | .locked_by_me t => (s.pc t).idle
  | .go t => !(s.pc t).idle

variable [DecidableEq T]

def move (s : Config T) (t : T) (pc : Pc) : Config T := { s with pc := Function.update s.pc t pc }

def go (s : Config T) (t : T) : Config T :=
  match s.pc t with
  | .test_and_set =>
    { s with mutex._locked := 1 }.move t (if s.mutex.locked then .test_and_set else .set_owner)
  | .set_owner =>
    { s with mutex._owner := some t, holds := Function.update s.holds t true }.move t .outside
  | .release =>
    { s with mutex._locked := 0, holds := Function.update s.holds t false }.move t .outside
  | .test_locked => s.move t (if s.mutex.locked then .test_owner else .returned false)
  | .test_owner => s.move t (.returned (s.mutex._owner = some t))
  | .outside => s
  | .returned _ => s

def step (s : Config T) : Act T → Except Empty (Config T)
  | .lock t => .ok (s.move t .test_and_set)
  | .unlock t => .ok (s.move t .release)
  | .locked_by_me t => .ok (s.move t .test_locked)
  | .go t => .ok (s.go t)

/-- Any number of threads, of which none is in a function of the mutex yet. -/
structure Start (s : Config T) : Prop where
  mutex : ∃ owner, s.mutex = .new owner
  pc : ∀ t, s.pc t = .outside
  holds : ∀ t, s.holds t = false

/-- The runs of which every step is guarded. -/
def system (guard : Config T → Act T → Prop) : System (Config T) (Act T) Empty where
  start := Start
  allowed s a := s.allowed a ∧ guard s a
  step := step

/-- No thread finds itself in `_owner` while another one has the lock and is not in `_owner` yet. -/
def Stored (s : Config T) : Act T → Prop
  | .go t => s.pc t = .test_owner → s.mutex._owner = some t → ∀ u, s.pc u ≠ .set_owner
  | _ => True

/-- One thread holds the mutex, and no other one is told that it does. -/
structure Truthful (s : Config T) : Prop where
  one : ∀ t u, s.holds t → s.holds u → t = u
  told : ∀ t, s.pc t = .returned true → s.holds t

/-! ## What every step keeps -/

/-- The thread has the lock. -/
def Has (s : Config T) (t : T) : Prop := s.pc t = .set_owner ∨ s.holds t

structure Inv (s : Config T) : Prop where
  free : s.mutex._locked = 0 → ∀ t, ¬s.Has t
  taken : s.mutex._locked ≠ 0 → ∃ t, s.Has t
  one : ∀ t u, s.Has t → s.Has u → t = u
  owner : ∀ t, s.holds t → s.mutex._owner = some t ∧ s.pc t ≠ .set_owner
  release : ∀ t, s.pc t = .release → s.holds t
  asks : ∀ t, s.pc t = .test_owner → s.mutex._owner = some t →
    s.holds t ∨ ∃ u, s.pc u = .set_owner

variable {s s' : Config T} {t u : T} {a : Act T} {pc : Pc}

@[simp] theorem move_pc : (s.move t pc).pc u = if u = t then pc else s.pc u :=
  Function.update_apply ..

@[simp] theorem move_mutex : (s.move t pc).mutex = s.mutex := rfl

@[simp] theorem move_holds : (s.move t pc).holds = s.holds := rfl

/-- The thread goes on to another step, and neither takes nor gives anything. -/
theorem inv_goto (h : Inv s) (ht : s.pc t ≠ .set_owner) (hpc : pc ≠ .set_owner)
    (hunlock : pc = .release → s.holds t)
    (hask : pc = .test_owner → s.mutex._owner = some t → s.holds t ∨ ∃ u, s.pc u = .set_owner) :
    Inv (s.move t pc) := by
  obtain ⟨hfree, htaken, hone, howner, hrelease, hasks⟩ := h
  unfold Has at hfree htaken hone
  constructor <;> simp only [Has, move_pc, move_mutex, move_holds] <;> grind

/-- The step needs nothing to be known. -/
theorem inv_move (h : Inv s) (ht : s.pc t ≠ .set_owner)
    (hpc : pc = .test_and_set ∨ pc = .test_locked ∨ ∃ b, pc = .returned b) :
    Inv (s.move t pc) := by
  rcases hpc with rfl | rfl | ⟨b, rfl⟩ <;> exact inv_goto h ht (by simp) (by simp) (by simp)

/-- The lock is free, and the thread takes it. -/
theorem inv_take (h : Inv s) (hfree : s.mutex._locked = 0) :
    Inv ({ s with mutex._locked := 1 }.move t .set_owner) := by
  have hnone := h.free hfree
  obtain ⟨-, -, -, howner, hrelease, hasks⟩ := h
  unfold Has at hnone
  constructor <;> simp only [Has, move_pc, move_mutex, move_holds]
  case taken => exact fun _ => ⟨t, .inl (if_pos rfl)⟩
  all_goals grind

omit [DecidableEq T] in
/-- The lock is taken, and the exchange writes again what is there. -/
theorem inv_wait (h : Inv s) (hl : s.mutex._locked ≠ 0) : Inv { s with mutex._locked := 1 } where
  free h0 := absurd (show (1 : UInt64) = 0 from h0) (by decide)
  taken _ := h.taken hl
  one := h.one
  owner := h.owner
  release := h.release
  asks := h.asks

/-- The thread that took the lock comes back from `lock`. -/
theorem inv_own (h : Inv s) (ht : s.pc t = .set_owner) :
    Inv ({ s with mutex._owner := some t, holds := Function.update s.holds t true }.move t
      .outside) := by
  have halone : ∀ u, s.Has u → u = t := fun u hu => h.one u t hu (.inl ht)
  obtain ⟨hfree, htaken, hone, howner, hrelease, hasks⟩ := h
  unfold Has at hfree htaken halone
  constructor <;> simp only [Has, move_pc, move_mutex, move_holds, Function.update_apply] <;> grind

theorem inv_release (h : Inv s) (ht : s.pc t = .release) :
    Inv ({ s with mutex._locked := 0, holds := Function.update s.holds t false }.move t
      .outside) := by
  have hholds := h.release t ht
  have halone : ∀ u, s.Has u → u = t := fun u hu => h.one u t hu (.inr hholds)
  obtain ⟨hfree, htaken, hone, howner, hrelease, hasks⟩ := h
  unfold Has at hfree halone
  constructor <;> simp only [Has, move_pc, move_mutex, move_holds, Function.update_apply] <;> grind

/-- The thread calls `unlock`. -/
theorem inv_unlock (h : Inv s) (ht : s.holds t) : Inv (s.move t .release) :=
  inv_goto h (h.owner t ht).2 (by simp) (fun _ => ht) (by simp)

/-- The first operand was true, so that some thread has the lock. It is in `_owner`, unless it has
yet to store. -/
theorem inv_locked (h : Inv s) (ht : s.pc t = .test_locked) (hl : s.mutex._locked ≠ 0) :
    Inv (s.move t .test_owner) := by
  refine inv_goto h (by simp [ht]) (by simp) (by simp) fun _ howner => ?_
  obtain ⟨u, hu | hu⟩ := h.taken hl
  · exact .inr ⟨u, hu⟩
  · obtain rfl : u = t := Option.some.inj ((h.owner u hu).1.symm.trans howner)
    exact .inl hu

theorem inv_go (h : Inv s) : Inv (s.go t) := by
  unfold go
  split
  case h_1 hpc =>
    by_cases hl : s.mutex._locked = 0
    · simpa [Mutex.locked, hl] using inv_take h hl
    · simpa [Mutex.locked, hl] using
        inv_move (inv_wait h hl) (t := t) (by simp [hpc]) (.inl rfl)
  case h_2 hpc => exact inv_own h hpc
  case h_3 hpc => exact inv_release h hpc
  case h_4 hpc =>
    by_cases hl : s.mutex._locked = 0
    · simpa [Mutex.locked, hl] using inv_move h (by simp [hpc]) (.inr (.inr ⟨_, rfl⟩))
    · simpa [Mutex.locked, hl] using inv_locked h hpc hl
  case h_5 hpc => exact inv_move h (by simp [hpc]) (.inr (.inr ⟨_, rfl⟩))
  case h_6 => exact h
  case h_7 => exact h

omit [DecidableEq T] in
theorem not_set_owner (h : (s.pc t).idle) : s.pc t ≠ .set_owner := by
  intro hpc
  rw [hpc] at h
  cases h

theorem inv_step (h : Inv s) (ha : s.allowed a) (hs : s.step a = .ok s') : Inv s' := by
  cases a with
  | lock t =>
    cases hs
    exact inv_move h (not_set_owner ha) (.inl rfl)
  | unlock t =>
    cases hs
    exact inv_unlock h (Bool.and_eq_true_iff.mp ha).2
  | locked_by_me t =>
    cases hs
    exact inv_move h (not_set_owner ha) (.inr (.inl rfl))
  | go t =>
    cases hs
    exact inv_go h

omit [DecidableEq T] in
theorem inv_start (h : Start s) : Inv s := by
  obtain ⟨⟨owner, hm⟩, hpc, hholds⟩ := h
  constructor <;> simp [Has, hpc, hholds, hm, Mutex.new]

/-- Whatever is asked meanwhile, one thread at most has the lock. -/
theorem inv_reachable {guard : Config T → Act T → Prop} (hs : (system guard).Reachable s) : Inv s :=
  hs.preserves (fun _ => inv_start) fun _ _ _ h ha hstep => inv_step h ha.1 hstep

/-! ## What is told -/

def Told (s : Config T) : Prop := ∀ t, s.pc t = .returned true → s.holds t

theorem told_move (h : Told s) (hpc : pc = .returned true → s.holds t) : Told (s.move t pc) := by
  intro u
  simp only [move_pc, move_holds]
  grind [Told]

/-- No thread has yet to store, so that the one in `_owner` holds the lock. -/
theorem told_go (h : Told s) (hi : Inv s) (hs : s.Stored (.go t)) : Told (s.go t) := by
  unfold go
  split
  case h_1 => exact told_move (s := { s with mutex._locked := 1 }) h (by split <;> simp)
  case h_2 =>
    intro u
    simp only [move_pc, move_holds, Function.update_apply]
    grind [Told]
  case h_3 hpc =>
    intro u hu
    simp only [move_pc, move_holds, Function.update_apply] at hu ⊢
    grind [Told]
  case h_4 => exact told_move h (by split <;> simp)
  case h_5 hpc =>
    refine told_move h fun ht => ?_
    have ho : s.mutex._owner = some t := by simpa using ht
    obtain hholds | ⟨u, hu⟩ := hi.asks t hpc ho
    · exact hholds
    · exact absurd hu (hs hpc ho u)
  case h_6 => exact h
  case h_7 => exact h

theorem told_step (h : Told s) (hi : Inv s) (hstored : s.Stored a) (hs : s.step a = .ok s') :
    Told s' := by
  cases a with
  | lock t =>
    cases hs
    exact told_move h (by simp)
  | unlock t =>
    cases hs
    exact told_move h (by simp)
  | locked_by_me t =>
    cases hs
    exact told_move h (by simp)
  | go t =>
    cases hs
    exact told_go h hi hstored

/-- In a run in which no thread finds itself in `_owner` while another one has the lock and has yet
to store, one thread at most holds the mutex, and only that one is told so. -/
theorem truthful (hs : (system (T := T) Stored).Reachable s) : Truthful s := by
  have hi : Inv s ∧ Told s := hs.preserves (I := fun s => Inv s ∧ Told s)
    (fun s h => ⟨inv_start h, fun t ht => by simp [h.pc t] at ht⟩)
    fun _ _ _ h ha hstep => ⟨inv_step h.1 ha.1 hstep, told_step h.2 h.1 ha.2 hstep⟩
  exact ⟨fun t u ht hu => hi.1.one t u (.inr ht) (.inr hu), hi.2⟩

/-! ## Two threads -/

def A : Fin 2 := ⟨0, by decide⟩

def B : Fin 2 := ⟨1, by decide⟩

/-- The constructor found zero in `_owner`. -/
def fresh : Config (Fin 2) := ⟨.new none, fun _ => .outside, fun _ => false⟩

theorem start_fresh : Start fresh := ⟨⟨none, rfl⟩, fun _ => rfl, fun _ => rfl⟩

instance {n : ℕ} (s : Config (Fin n)) : (a : Act (Fin n)) → Decidable (s.Stored a)
  | .go t => inferInstanceAs (Decidable (s.pc t = .test_owner → s.mutex._owner = some t →
      ∀ u, s.pc u ≠ .set_owner))
  | .lock _ | .unlock _ | .locked_by_me _ => .isTrue trivial

instance {n : ℕ} (s : Config (Fin n)) (a : Act (Fin n)) :
    Decidable ((system Stored).allowed s a) :=
  inferInstanceAs (Decidable (s.allowed a ∧ s.Stored a))

instance (s : Config (Fin 2)) (a : Act (Fin 2)) :
    Decidable ((system fun _ _ => True).allowed s a) :=
  inferInstanceAs (Decidable (s.allowed a ∧ True))

/-- The calls of a thread that locks the mutex and asks. -/
def lock_and_ask (t : Fin 2) : List (Act (Fin 2)) :=
  [.lock t, .go t, .go t, .locked_by_me t, .go t, .go t]

/-- The other thread is between the two steps of `lock` when the one that had the mutex asks. -/
def ask_late : List (Act (Fin 2)) :=
  [.lock A, .go A, .go A, .unlock A, .go A, .lock B, .go B, .locked_by_me A, .go A, .go A]

theorem exec_lock_and_ask : ((system Stored).exec fresh (lock_and_ask A)).isSome := by decide

theorem truthful_lock_and_ask :
    Truthful (((system Stored).exec fresh (lock_and_ask A)).get exec_lock_and_ask) :=
  truthful ⟨fresh, lock_and_ask A, start_fresh,
    System.run_of_exec (Option.some_get exec_lock_and_ask).symm⟩

theorem exec_ask_late : ((system fun _ _ => True).exec fresh ask_late).isSome := by decide

/-- The one that had the mutex is told that it has it, and the other one has the lock. -/
theorem told_late : ¬∀ s : Config (Fin 2), (system fun _ _ => True).Reachable s → Truthful s := by
  intro h
  have hs := h _ ⟨fresh, ask_late, start_fresh,
    System.run_of_exec (Option.some_get exec_ask_late).symm⟩
  have htold := hs.told A
  revert htold
  decide

end Config

end Mutex

end Infos.Util
