import Infos.Drivers.CmosRtc
import Infos.Kernel.Time

/-!
# Interrupt masking

`IRQLock` restores what it found, and `CMOSRTC::read_timepoint` enables the interrupts whatever it
found.
-/

namespace Infos.Kernel.Masking

open Infos.Drivers

/-- `log` has the number of locks held and the interrupt flag after each step, the latest first. -/
structure Cpu where
  interrupts : Bool
  locks : ℕ
  log : List (ℕ × Bool)

inductive Fault where
  | assertion

namespace Cpu

def note (cpu : Cpu) : Cpu := { cpu with log := (cpu.locks, cpu.interrupts) :: cpu.log }

def enable_interrupts (cpu : Cpu) : Cpu := { cpu with interrupts := true }.note

def disable_interrupts (cpu : Cpu) : Cpu := { cpu with interrupts := false }.note

def interrupts_enabled (cpu : Cpu) : Bool := cpu.interrupts

def assert (cond : Bool) : Except Fault Unit := if cond then .ok () else .error .assertion

end Cpu

structure IRQLock where
  _were_interrupts_enabled : Bool

namespace IRQLock

def lock (cpu : Cpu) : Except Fault (IRQLock × Cpu) := do
  let _were_interrupts_enabled := cpu.interrupts_enabled
  let cpu := if _were_interrupts_enabled then cpu.disable_interrupts else cpu
  Cpu.assert (!cpu.interrupts_enabled)
  return (⟨_were_interrupts_enabled⟩, { cpu with locks := cpu.locks + 1 }.note)

def unlock (l : IRQLock) (cpu : Cpu) : Except Fault Cpu := do
  let cpu := { cpu with locks := cpu.locks - 1 }.note
  if l._were_interrupts_enabled then
    let cpu := cpu.enable_interrupts
    Cpu.assert cpu.interrupts_enabled
    return cpu
  else
    return cpu

end IRQLock

/-- `TimeOfDay` with its date. -/
structure Tod extends TimeOfDay where
  day : UInt16
  month : UInt16
  year : UInt16

structure Machine where
  cpu : Cpu
  rtc : CMOSRTC.State
  _tod : Tod
  _ticks_since_last_tod_update : Nanoseconds

variable (clock : Clock) (gap : ℕ → ℕ)

/-- The whole of `read_timepoint`, of which `CMOSRTC.read_timepoint` is what it does meanwhile. -/
def read_timepoint (m : Machine) : RTCTimePoint × Machine :=
  let cpu := m.cpu.disable_interrupts
  let (tp, rtc) := (CMOSRTC.read_timepoint clock gap).run m.rtc
  (tp, { m with cpu := cpu.enable_interrupts, rtc })

/-- `found` says whether there is a device of the class. -/
def resync_tod (found : Bool) (m : Machine) : Machine :=
  let m := { m with _ticks_since_last_tod_update := ⟨0⟩ }
  if found then
    let (tp, m) := read_timepoint clock gap m
    { m with _tod := ⟨⟨tp.hours, tp.minutes, tp.seconds⟩, tp.day_of_month, tp.month, tp.year⟩ }
  else m

/-- What is made of `UniqueIRQLock`s and of reads of the clock. -/
inductive Code where
  | skip
  | seq (c d : Code)
  /-- A block with a `UniqueIRQLock`. -/
  | scope (body : Code)
  | read_timepoint
  | resync_tod
  deriving DecidableEq

namespace Code

variable (found : Bool)

def run : Code → Machine → Except Fault Machine
  | skip, m => .ok m
  | seq c d, m => do d.run (← c.run m)
  | scope body, m => do
    let (l, cpu) ← IRQLock.lock m.cpu
    let m ← body.run { m with cpu }
    let cpu ← l.unlock m.cpu
    return { m with cpu }
  | read_timepoint, m => .ok (Masking.read_timepoint clock gap m).2
  | resync_tod, m => .ok (Masking.resync_tod clock gap found m)

/-- The clock is read. -/
def reads : Code → Bool
  | skip => false
  | seq c d => c.reads || d.reads
  | scope body => body.reads
  | read_timepoint => true
  | resync_tod => found

/-- The clock is read outside all the blocks only. -/
def apart : Code → Bool
  | skip => true
  | seq c d => c.apart && d.apart
  | scope body => !body.reads found
  | read_timepoint => true
  | resync_tod => true

end Code

/-- The flag was off whenever a lock was held. -/
def Masked (log : List (ℕ × Bool)) : Prop := ∀ e ∈ log, 0 < e.1 → e.2 = false

/-- No lock is held yet. -/
def Machine.enter (m : Machine) : Machine := { m with cpu := ⟨m.cpu.interrupts, 0, []⟩ }

/-- The code comes to its end, with the interrupts off from the outermost lock until it is left, and
leaves the flag as it found it. -/
def Nests (c : Code) (m : Machine) (found : Bool) : Prop :=
  ∃ m', c.run clock gap found m.enter = .ok m' ∧ Masked m'.cpu.log ∧
    m'.cpu.interrupts = m.cpu.interrupts

/-! ## One step -/

variable {clock gap} {found : Bool} {c d : Code} {m m' : Machine} {cpu : Cpu}

@[simp] theorem Masked.cons {n : ℕ} {flag : Bool} {log : List (ℕ × Bool)} :
    Masked ((n, flag) :: log) ↔ (0 < n → flag = false) ∧ Masked log := by
  simp [Masked]

/-- The flag is off, whatever it was, and the new log is as good as the old one. -/
theorem lock_spec (cpu : Cpu) : ∃ cpu', IRQLock.lock cpu = .ok (⟨cpu.interrupts⟩, cpu') ∧
    cpu'.interrupts = false ∧ cpu'.locks = cpu.locks + 1 ∧ (Masked cpu'.log ↔ Masked cpu.log) := by
  obtain ⟨flag, locks, log⟩ := cpu
  cases flag with
  | false => exact ⟨_, rfl, rfl, rfl, by simp [Cpu.note, Cpu.interrupts_enabled]⟩
  | true =>
    exact ⟨_, rfl, rfl, rfl, by simp [Cpu.note, Cpu.interrupts_enabled, Cpu.disable_interrupts]⟩

theorem unlock_spec (l : IRQLock) (cpu : Cpu) : ∃ cpu', l.unlock cpu = .ok cpu' ∧
    cpu'.interrupts = (l._were_interrupts_enabled || cpu.interrupts) ∧
    cpu'.locks = cpu.locks - 1 ∧
    (Masked cpu'.log ↔ (1 < cpu.locks → cpu'.interrupts = false) ∧
      (1 < cpu.locks → cpu.interrupts = false) ∧ Masked cpu.log) := by
  obtain ⟨were⟩ := l
  cases were with
  | false => exact ⟨_, rfl, rfl, rfl, by simp [Cpu.note]⟩
  | true => exact ⟨_, rfl, rfl, rfl, by simp [Cpu.note, Cpu.enable_interrupts]⟩

/-! ## The code -/

/-- What the code leaves. The last part is for code that finds the interrupts off if it is in a
block. -/
structure Left (c : Code) (found : Bool) (m m' : Machine) : Prop where
  locks : m'.cpu.locks = m.cpu.locks
  interrupts : m'.cpu.interrupts = (m.cpu.interrupts || c.reads found)
  before : Masked m'.cpu.log → Masked m.cpu.log
  masked : (0 < m.cpu.locks → m.cpu.interrupts = false) → (Masked m'.cpu.log ↔ Masked m.cpu.log ∧
    if m.cpu.locks = 0 then c.apart found else !c.reads found)

theorem Left.seq {m₁ m₂ : Machine} (h : Left c found m m₁) (h' : Left d found m₁ m₂) :
    Left (.seq c d) found m m₂ := by
  refine ⟨h'.locks.trans h.locks, ?_, fun hm => h.before (h'.before hm), fun hoff => ?_⟩
  · rw [h'.interrupts, h.interrupts, Bool.or_assoc]
    rfl
  have hmasked := h.masked hoff
  have hmasked' := h'.masked
  rw [h.locks, h.interrupts] at hmasked'
  by_cases hk : m.cpu.locks = 0
  · simp_all [Code.apart, and_assoc]
  -- In a block nothing more is known once the clock was read, but the log is spoilt by then.
  · cases hread : c.reads found with
    | false => simp_all [Code.reads, Nat.pos_iff_ne_zero]
    | true =>
      have := h'.before
      simp_all [Code.reads]

theorem Left.scope {l : IRQLock} {cpu cpu' : Cpu} 
    (hl : IRQLock.lock m.cpu = .ok (l, cpu)) (h : Left c found { m with cpu } m')
    (hu : l.unlock m'.cpu = .ok cpu') : Left (.scope c) found m { m' with cpu := cpu' } := by
  obtain ⟨cpu₁, hl₁, hoff₁, hlocks₁, hmasked₁⟩ := lock_spec m.cpu
  obtain ⟨cpu₂, hu₂, hflag₂, hlocks₂, hmasked₂⟩ := unlock_spec l m'.cpu
  cases hl.symm.trans hl₁
  cases hu.symm.trans hu₂
  have hmasked := h.masked fun _ => hoff₁
  have hlocks := h.locks
  have hflag := h.interrupts
  simp only [hlocks₁, hoff₁, Bool.false_or] at hmasked hlocks hflag
  rw [hlocks, hflag₂, hmasked, hflag, hmasked₁] at hmasked₂
  refine ⟨?_, ?_, fun hm => ?_, fun hoff => ?_⟩
  · simp [hlocks₂, hlocks]
  · simp [hflag₂, hflag, Code.reads]
  · exact (hmasked₂.mp hm).2.2.1
  · simp only [hmasked₂, Code.apart, Code.reads]
    grind

variable (clock gap found m) in
theorem left_read : Left .read_timepoint found m (read_timepoint clock gap m).2 := by
  refine ⟨rfl, (Bool.or_true _).symm, fun h => ?_, fun hoff => ?_⟩
  · exact (Masked.cons.mp (Masked.cons.mp h).2).2
  · have hlog : Masked (read_timepoint clock gap m).2.cpu.log ↔ (0 < m.cpu.locks → true = false) ∧
        (0 < m.cpu.locks → false = false) ∧ Masked m.cpu.log :=
      Masked.cons.trans (and_congr_right fun _ => Masked.cons)
    by_cases hk : m.cpu.locks = 0
    · simp [hlog, hk, Code.apart]
    · simp [hlog, hk, Code.reads, Nat.pos_iff_ne_zero]

variable (clock gap found) in
theorem left_run (c : Code) (m : Machine) : ∃ m', c.run clock gap found m = .ok m' ∧
    Left c found m m' := by
  induction c generalizing m with
  | skip => exact ⟨m, rfl, rfl, (Bool.or_false _).symm, id, fun _ => by simp [Code.apart, Code.reads]⟩
  | seq c d ihc ihd =>
    obtain ⟨m₁, hc, h₁⟩ := ihc m
    obtain ⟨m₂, hd, h₂⟩ := ihd m₁
    refine ⟨m₂, ?_, h₁.seq h₂⟩
    unfold Code.run
    rw [hc]
    exact hd
  | scope body ih =>
    obtain ⟨cpu, hl, -⟩ := lock_spec m.cpu
    obtain ⟨m', hbody, h⟩ := ih { m with cpu }
    obtain ⟨cpu', hu, -⟩ := unlock_spec ⟨m.cpu.interrupts⟩ m'.cpu
    refine ⟨{ m' with cpu := cpu' }, ?_, .scope hl h hu⟩
    simp only [Code.run, hl, hbody, hu, bind, pure, Except.bind, Except.pure]
  | read_timepoint => exact ⟨_, rfl, left_read clock gap found m⟩
  | resync_tod =>
    cases found with
    | false =>
      refine ⟨_, rfl, rfl, (Bool.or_false _).symm, id, fun _ => ?_⟩
      simp [Code.apart, Code.reads, resync_tod]
    | true =>
      have h := left_read clock gap true { m with _ticks_since_last_tod_update := ⟨0⟩ }
      exact ⟨_, rfl, h.locks, h.interrupts, h.before, h.masked⟩

/-- The interrupts stay off from the outermost lock until it is left, and the flag is in the end
what it was, exactly if the clock is read outside all blocks only, and with the interrupts on. -/
theorem nests_iff (clock : Clock) (gap : ℕ → ℕ) (c : Code) (m : Machine) (found : Bool) :
    Nests clock gap c m found ↔ c.apart found ∧ (c.reads found → m.cpu.interrupts) := by
  obtain ⟨m', hrun, h⟩ := left_run clock gap found c m.enter
  have hmasked : Masked m'.cpu.log ↔ c.apart found := by
    rw [h.masked fun h0 => absurd h0 (lt_irrefl 0)]
    simp [Machine.enter, Masked]
  have hflag : m'.cpu.interrupts = (m.cpu.interrupts || c.reads found) := h.interrupts
  constructor
  · rintro ⟨m₁, hrun₁, hm₁, hflag₁⟩
    cases hrun.symm.trans hrun₁
    refine ⟨hmasked.mp hm₁, fun hr => ?_⟩
    rw [← hflag₁, hflag, hr, Bool.or_true]
  · rintro ⟨hapart, hon⟩
    refine ⟨m', hrun, hmasked.mpr hapart, ?_⟩
    rw [hflag]
    cases hr : c.reads found with
    | false => exact Bool.or_false _
    | true => rw [hon hr, Bool.true_or]

/-! ## A clock that is read where it should not be -/

def stopped : Clock := ⟨0, false, fun _ _ => 0, fun _ _ => Nat.zero_le _⟩

def boot (interrupts : Bool) : Machine :=
  ⟨⟨interrupts, 0, []⟩, ⟨⟨0, 0, 0, ⟨1, 1, 0, 0⟩⟩, 0, 0⟩, ⟨⟨0, 0, 0⟩, 1, 1, 1970⟩, ⟨0⟩⟩

/-- In a block with a lock, and before the scheduler is active. -/
theorem not_nests : ¬Nests stopped (fun _ => 0) (.scope .resync_tod) (boot true) true ∧
    ¬Nests stopped (fun _ => 0) .resync_tod (boot false) true := by
  constructor
  · rintro ⟨m', hrun, hmasked, -⟩
    cases hrun
    exact absurd (hmasked (1, true) (.tail _ (.tail _ (.head _))) Nat.one_pos) (by decide)
  · rintro ⟨m', hrun, -, hflag⟩
    cases hrun
    exact absurd hflag (by decide)

end Infos.Kernel.Masking
