import Mathlib.Algebra.Order.Ring.Nat
import Mathlib.Logic.Function.Iterate
import Mathlib.Tactic.Common
import Mathlib.Tactic.IntervalCases

/-!
# The real-time clock

The driver reads one register of the clock after another, and the clock goes on in between. `gap`
is the number of updates just before each read, and `days` the length of each month.
-/

namespace Infos.Drivers

/-! ## The clock -/

structure Date where
  day : ℕ
  month : ℕ
  year : ℕ
  century : ℕ
  deriving DecidableEq, Repr

structure Time where
  seconds : ℕ
  minutes : ℕ
  hours : ℕ
  date : Date
  deriving DecidableEq, Repr

/-- `kept` says that the clock has a register for the century. -/
structure Clock where
  registerB : UInt8
  kept : Bool
  days : ℕ → ℕ → ℕ
  days_le : ∀ year month, days year month ≤ 31

inductive Port where
  | Second
  | Minute
  | Hour
  | Day
  | Month
  | Year
  | Century
  | BCD
  deriving DecidableEq, Repr

namespace Clock

variable (clock : Clock)

def binary : Bool := clock.registerB &&& 0x04 ≠ 0

def hours24 : Bool := clock.registerB &&& 0x02 ≠ 0

def next_year (d : Date) : Date :=
  if d.year < 99 then ⟨1, 1, d.year + 1, d.century⟩
  else ⟨1, 1, 0, if clock.kept then (d.century + 1) % 100 else d.century⟩

def next_day (d : Date) : Date :=
  if d.day < clock.days (100 * d.century + d.year) d.month then { d with day := d.day + 1 }
  else if d.month < 12 then { d with day := 1, month := d.month + 1 }
  else clock.next_year d

/-- The update of each second. -/
def tick (t : Time) : Time :=
  if t.seconds < 59 then { t with seconds := t.seconds + 1 }
  else if t.minutes < 59 then { t with seconds := 0, minutes := t.minutes + 1 }
  else if t.hours < 23 then { t with seconds := 0, minutes := 0, hours := t.hours + 1 }
  else ⟨0, 0, 0, clock.next_day t.date⟩

/-- A number in a register. -/
def encode (binary : Bool) (n : ℕ) : UInt8 :=
  if binary then UInt8.ofNat n else UInt8.ofNat (n / 10 * 16 + n % 10)

/-- The hours from 1 to 12 have a bit that is set after noon. -/
def encode_hours (binary hours24 : Bool) (h : ℕ) : UInt8 :=
  if hours24 then encode binary h
  else encode binary (if h % 12 = 0 then 12 else h % 12) ||| if 12 ≤ h then 0x80 else 0

def register (t : Time) : Port → UInt8
  | .Second => encode clock.binary t.seconds
  | .Minute => encode clock.binary t.minutes
  | .Hour => encode_hours clock.binary clock.hours24 t.hours
  | .Day => encode clock.binary t.date.day
  | .Month => encode clock.binary t.date.month
  | .Year => encode clock.binary t.date.year
  | .Century => if clock.kept then encode clock.binary t.date.century else 0
  | .BCD => clock.registerB

end Clock

/-! ## The driver -/

structure RTCTimePoint where
  seconds : UInt16
  minutes : UInt16
  hours : UInt16
  day_of_month : UInt16
  month : UInt16
  year : UInt16
  deriving DecidableEq, Repr

namespace CMOSRTC

def ThisCentury : UInt16 := 20

/-- `reads` is how often the ports were read by now. -/
structure State where
  time : Time
  reads : ℕ
  registerB : UInt16

abbrev Op (α : Type) := StateM State α

variable (clock : Clock) (gap : ℕ → ℕ)

def GetOriginal (port : Port) : Op UInt16 := modifyGet fun s =>
  let time := clock.tick^[gap s.reads] s.time
  ((clock.register time port).toUInt16, { s with time, reads := s.reads + 1 })

def ReadRegisterB : Op Unit := do
  let b ← GetOriginal clock gap .BCD
  modify fun s => { s with registerB := b }

def IsBinaryCodedDecimal : Op Bool := do
  return (← get).registerB &&& 0x04 = 0

def Is12Hour : Op Bool := do
  return (← get).registerB &&& 0x02 = 0

def ConvertToBinary (originalValue : UInt16) : UInt16 :=
  (originalValue &&& 0xf) + originalValue / 16 * 10

def GetRtcValue (port : Port) : Op UInt16 := do
  let f ← GetOriginal clock gap port
  return if ← IsBinaryCodedDecimal then ConvertToBinary f else f

def GetRtcHourValue : Op UInt16 := do
  let h ← GetOriginal clock gap .Hour
  let h := if ← IsBinaryCodedDecimal then
    ((h &&& 0xf) + (h &&& 0x70) / 16 * 10) ||| (h &&& 0x80) else h
  return if (← Is12Hour) ∧ h &&& 0x80 ≠ 0 then ((h &&& 0x7f) + 12) % 24 else h

def GetRtcYearValue : Op UInt16 := do
  let year ← GetRtcValue clock gap .Year
  let century ← GetRtcValue clock gap .Century
  let century := if century = 0 then ThisCentury else century
  return year + century * 100

def read_timepoint : Op RTCTimePoint := do
  ReadRegisterB clock gap
  let seconds ← GetRtcValue clock gap .Second
  let minutes ← GetRtcValue clock gap .Minute
  let hours ← GetRtcHourValue clock gap
  let day_of_month ← GetRtcValue clock gap .Day
  let month ← GetRtcValue clock gap .Month
  let year ← GetRtcYearValue clock gap
  return ⟨seconds, minutes, hours, day_of_month, month, year⟩

/-! ## What the driver makes of a register -/

def value (bcd : Bool) (v : UInt8) : UInt16 :=
  if bcd then ConvertToBinary v.toUInt16 else v.toUInt16

def hour_value (bcd twelve : Bool) (v : UInt8) : UInt16 :=
  let h := if bcd then ((v.toUInt16 &&& 0xf) + (v.toUInt16 &&& 0x70) / 16 * 10) |||
    (v.toUInt16 &&& 0x80) else v.toUInt16
  if twelve ∧ h &&& 0x80 ≠ 0 then ((h &&& 0x7f) + 12) % 24 else h

def year_value (year century : UInt16) : UInt16 :=
  year + (if century = 0 then ThisCentury else century) * 100

theorem value_encode : ∀ (binary : Bool) (n : Fin 100),
    value (!binary) (Clock.encode binary n) = UInt16.ofNat n := by
  decide

theorem hour_value_encode : ∀ (binary hours24 : Bool) (h : Fin 24),
    hour_value (!binary) (!hours24) (Clock.encode_hours binary hours24 h) =
      UInt16.ofNat (if !hours24 ∧ h.val % 12 = 0 then 12 - h else h) := by
  decide

/-- The updates before a read, of which the first is the read with the number `0`. -/
def updates (gap : ℕ → ℕ) : ℕ → ℕ
  | 0 => gap 0
  | i + 1 => updates gap i + gap (i + 1)

variable {clock gap} {t : Time} {b : UInt16}

def at_read (clock : Clock) (gap : ℕ → ℕ) (t : Time) (i : ℕ) : Time := clock.tick^[updates gap i] t

/-- What the clock has in a register at a read. -/
def answer (clock : Clock) (gap : ℕ → ℕ) (t : Time) (i : ℕ) (port : Port) : UInt8 :=
  clock.register (at_read clock gap t i) port

theorem at_read_succ (i : ℕ) :
    at_read clock gap t (i + 1) = clock.tick^[gap (i + 1)] (at_read clock gap t i) := by
  unfold at_read
  rw [show updates gap (i + 1) = gap (i + 1) + updates gap i from Nat.add_comm _ _,
    Function.iterate_add_apply]

/-- Between two reads, once register B has been read. -/
def state (clock : Clock) (gap : ℕ → ℕ) (t : Time) (i : ℕ) : State :=
  ⟨at_read clock gap t i, i + 1, clock.registerB.toUInt16⟩

theorem run_bind {α β : Type} (x : Op α) (f : α → Op β) (s : State) :
    (x >>= f).run s = (f (x.run s).1).run (x.run s).2 := rfl

theorem run_pure {α : Type} (a : α) (s : State) : (pure a : Op α).run s = (a, s) := rfl

theorem ReadRegisterB_run : (ReadRegisterB clock gap).run ⟨t, 0, b⟩ = ((), state clock gap t 0) :=
  rfl

theorem GetOriginal_run (port : Port) (i : ℕ) : (GetOriginal clock gap port).run (state clock gap t i) =
    ((answer clock gap t (i + 1) port).toUInt16, state clock gap t (i + 1)) := by
  unfold answer state
  rw [at_read_succ]
  rfl

theorem IsBinaryCodedDecimal_run (i : ℕ) :
    IsBinaryCodedDecimal.run (state clock gap t i) = (!clock.binary, state clock gap t i) := by
  have h : (clock.registerB.toUInt16 &&& 4 = 0) ↔ (clock.registerB &&& 4 = 0) := by
    rw [show (4 : UInt16) = (4 : UInt8).toUInt16 from rfl, ← UInt8.toUInt16_and,
      show (0 : UInt16) = (0 : UInt8).toUInt16 from rfl, UInt8.toUInt16_inj]
  show (decide (clock.registerB.toUInt16 &&& 4 = 0), _) = _
  simp [h, Clock.binary]

theorem Is12Hour_run (i : ℕ) :
    Is12Hour.run (state clock gap t i) = (!clock.hours24, state clock gap t i) := by
  have h : (clock.registerB.toUInt16 &&& 2 = 0) ↔ (clock.registerB &&& 2 = 0) := by
    rw [show (2 : UInt16) = (2 : UInt8).toUInt16 from rfl, ← UInt8.toUInt16_and,
      show (0 : UInt16) = (0 : UInt8).toUInt16 from rfl, UInt8.toUInt16_inj]
  show (decide (clock.registerB.toUInt16 &&& 2 = 0), _) = _
  simp [h, Clock.hours24]

theorem GetRtcValue_run (port : Port) (i : ℕ) : (GetRtcValue clock gap port).run (state clock gap t i) =
    (value (!clock.binary) (answer clock gap t (i + 1) port), state clock gap t (i + 1)) := by
  unfold GetRtcValue
  simp only [run_bind, GetOriginal_run, IsBinaryCodedDecimal_run, run_pure]
  rfl

theorem GetRtcHourValue_run (i : ℕ) : (GetRtcHourValue clock gap).run (state clock gap t i) =
    (hour_value (!clock.binary) (!clock.hours24) (answer clock gap t (i + 1) .Hour),
      state clock gap t (i + 1)) := by
  unfold GetRtcHourValue
  simp only [run_bind, GetOriginal_run, IsBinaryCodedDecimal_run, Is12Hour_run, run_pure]
  rfl

theorem GetRtcYearValue_run (i : ℕ) : (GetRtcYearValue clock gap).run (state clock gap t i) =
    (year_value (value (!clock.binary) (answer clock gap t (i + 1) .Year))
      (value (!clock.binary) (answer clock gap t (i + 2) .Century)), state clock gap t (i + 2)) := by
  unfold GetRtcYearValue
  simp only [run_bind, GetRtcValue_run, run_pure]
  rfl

/-- Each register is read once, in this order. -/
theorem read_timepoint_eq : ((read_timepoint clock gap).run ⟨t, 0, b⟩).1 =
    ⟨value (!clock.binary) (answer clock gap t 1 .Second),
      value (!clock.binary) (answer clock gap t 2 .Minute),
      hour_value (!clock.binary) (!clock.hours24) (answer clock gap t 3 .Hour),
      value (!clock.binary) (answer clock gap t 4 .Day),
      value (!clock.binary) (answer clock gap t 5 .Month),
      year_value (value (!clock.binary) (answer clock gap t 6 .Year))
        (value (!clock.binary) (answer clock gap t 7 .Century))⟩ := by
  unfold read_timepoint
  simp only [run_bind, ReadRegisterB_run, GetRtcValue_run, GetRtcHourValue_run,
    GetRtcYearValue_run, run_pure]

/-! ## The clock goes on -/

/-- What the clock can hold. Without a register for it, the century is this one. -/
structure Valid (clock : Clock) (t : Time) : Prop where
  seconds : t.seconds < 60
  minutes : t.minutes < 60
  hours : t.hours < 24
  day : t.date.day < 100
  month : t.date.month < 100
  year : t.date.year < 100
  century : t.date.century < 100
  this : clock.kept = false → t.date.century = 20

def second_of_day (t : Time) : ℕ := 3600 * t.hours + 60 * t.minutes + t.seconds

theorem tick_time (h : Valid clock t) : second_of_day (clock.tick t) = (second_of_day t + 1) % 86400 ∧
    (clock.tick t).date =
      if second_of_day t < 86399 then t.date else clock.next_day t.date := by
  obtain ⟨hs, hm, hh, -⟩ := h
  unfold Clock.tick second_of_day
  split
  · rw [if_pos (by omega)]
    exact ⟨by dsimp only; omega, rfl⟩
  · split
    · rw [if_pos (by omega)]
      exact ⟨by dsimp only; omega, rfl⟩
    · split
      · rw [if_pos (by omega)]
        exact ⟨by dsimp only; omega, rfl⟩
      · rw [if_neg (by omega)]
        exact ⟨by dsimp only; omega, rfl⟩

theorem Valid.tick (h : Valid clock t) : Valid clock (clock.tick t) := by
  obtain ⟨hs, hm, hh, hd, hmo, hy, hc, hthis⟩ := h
  have hdate : ∀ d : Date, d = clock.next_day t.date → d.day < 100 ∧ d.month < 100 ∧ d.year < 100 ∧
      d.century < 100 ∧ (clock.kept = false → d.century = 20) := by
    rintro d rfl
    have hle := clock.days_le (100 * t.date.century + t.date.year) t.date.month
    unfold Clock.next_day Clock.next_year
    split
    · exact ⟨by dsimp only; omega, hmo, hy, hc, hthis⟩
    · split
      · exact ⟨by simp, by dsimp only; omega, hy, hc, hthis⟩
      · split
        · exact ⟨by simp, by simp, by dsimp only; omega, hc, hthis⟩
        · refine ⟨by simp, by simp, by simp, ?_, fun hk => ?_⟩
          · dsimp only
            split <;> omega
          · simpa [hk] using hthis hk
  unfold Clock.tick
  split
  · exact ⟨by dsimp only; omega, hm, hh, hd, hmo, hy, hc, hthis⟩
  · split
    · exact ⟨by simp, by dsimp only; omega, hh, hd, hmo, hy, hc, hthis⟩
    · split
      · exact ⟨by simp, by simp, by dsimp only; omega, hd, hmo, hy, hc, hthis⟩
      · obtain ⟨hd, hmo, hy, hc, hthis⟩ := hdate _ rfl
        exact ⟨by simp, by simp, by simp, hd, hmo, hy, hc, hthis⟩

theorem Valid.iterate (h : Valid clock t) (n : ℕ) : Valid clock (clock.tick^[n] t) := by
  induction n with
  | zero => exact h
  | succ n ih =>
    rw [Function.iterate_succ_apply']
    exact ih.tick

theorem second_of_day_iterate (h : Valid clock t) (n : ℕ) :
    second_of_day (clock.tick^[n] t) = (second_of_day t + n) % 86400 := by
  induction n with
  | zero =>
    have : second_of_day t < 86400 := by
      obtain ⟨hs, hm, hh, -⟩ := h
      unfold second_of_day
      omega
    rw [Function.iterate_zero_apply, Nat.add_zero, Nat.mod_eq_of_lt this]
  | succ n ih =>
    rw [Function.iterate_succ_apply', (tick_time (h.iterate n)).1, ih]
    omega

/-- A day is too long to go over twice. -/
theorem date_iterate (h : Valid clock t) {n : ℕ} (hn : n ≤ 86400) : (clock.tick^[n] t).date =
    if second_of_day t + n < 86400 then t.date else clock.next_day t.date := by
  have hlt : second_of_day t < 86400 := by
    obtain ⟨hs, hm, hh, -⟩ := h
    unfold second_of_day
    omega
  induction n with
  | zero => rw [if_pos (by omega), Function.iterate_zero_apply]
  | succ n ih =>
    rw [Function.iterate_succ_apply', (tick_time (h.iterate n)).2, ih (by omega),
      second_of_day_iterate h]
    by_cases hn' : second_of_day t + n < 86400
    · rw [Nat.mod_eq_of_lt hn', if_pos hn']
      by_cases hnext : second_of_day t + n < 86399
      · rw [if_pos hnext, if_pos (by omega)]
      · rw [if_neg hnext, if_neg (by omega)]
    · rw [if_neg hn', if_pos (show (second_of_day t + n) % 86400 < 86399 by omega),
        if_neg (by omega)]

/-! ## What is read -/

/-- The time as the driver gives it. -/
def point (t : Time) : RTCTimePoint :=
  ⟨UInt16.ofNat t.seconds, UInt16.ofNat t.minutes, UInt16.ofNat t.hours, UInt16.ofNat t.date.day,
    UInt16.ofNat t.date.month, UInt16.ofNat (100 * t.date.century + t.date.year)⟩

/-- The answer is the time of an instant between the first read and the last. -/
def Consistent (clock : Clock) (gap : ℕ → ℕ) (t : Time) : Prop :=
  ∃ n, updates gap 0 ≤ n ∧ n ≤ updates gap 7 ∧
    ∀ b, ((read_timepoint clock gap).run ⟨t, 0, b⟩).1 = point (clock.tick^[n] t)

/-- Each register has at its read what it had when the seconds were read, and the driver knows
what the registers for the hours and the century mean. -/
structure Still (clock : Clock) (gap : ℕ → ℕ) (t : Time) : Prop where
  minutes : (at_read clock gap t 2).minutes = (at_read clock gap t 1).minutes
  hours : (at_read clock gap t 3).hours = (at_read clock gap t 1).hours
  day : (at_read clock gap t 4).date.day = (at_read clock gap t 1).date.day
  month : (at_read clock gap t 5).date.month = (at_read clock gap t 1).date.month
  year : (at_read clock gap t 6).date.year = (at_read clock gap t 1).date.year
  century : (at_read clock gap t 7).date.century = (at_read clock gap t 1).date.century
  twelve : clock.hours24 = false → (at_read clock gap t 3).hours % 12 ≠ 0
  first : clock.kept = true → (at_read clock gap t 7).date.century ≠ 0

theorem Valid.read (h : Valid clock t) (gap : ℕ → ℕ) (i : ℕ) : Valid clock (at_read clock gap t i) := h.iterate _

/-- The hours as the driver understands them. -/
def understood (clock : Clock) (h : ℕ) : ℕ := if clock.hours24 = false ∧ h % 12 = 0 then 12 - h else h

def understood_century (clock : Clock) (c : ℕ) : ℕ := if clock.kept ∧ c = 0 then 20 else c

theorem value_eq {n : ℕ} (hn : n < 100) :
    value (!clock.binary) (Clock.encode clock.binary n) = UInt16.ofNat n :=
  value_encode clock.binary ⟨n, hn⟩

theorem hour_value_eq {h : ℕ} (hh : h < 24) : hour_value (!clock.binary) (!clock.hours24)
    (Clock.encode_hours clock.binary clock.hours24 h) = UInt16.ofNat (understood clock h) := by
  rw [hour_value_encode clock.binary clock.hours24 ⟨h, hh⟩]
  unfold understood
  simp

theorem year_value_eq {y c : ℕ} (hc : c < 100) :
    year_value (UInt16.ofNat y) (UInt16.ofNat c) = UInt16.ofNat (100 * (if c = 0 then 20 else c) + y) := by
  have hadd : ∀ k : ℕ, UInt16.ofNat y + UInt16.ofNat k * 100 = UInt16.ofNat (100 * k + y) := by
    intro k
    rw [UInt16.ofNat_add, UInt16.ofNat_mul, UInt16.add_comm, UInt16.mul_comm]
    rfl
  have hzero : UInt16.ofNat c = 0 ↔ c = 0 := by
    rw [← UInt16.toNat_inj, UInt16.toNat_ofNat_of_lt' (by unfold UInt16.size; omega)]
    rfl
  unfold year_value
  by_cases h : c = 0
  · rw [if_pos (hzero.mpr h), if_pos h]
    exact hadd 20
  · rw [if_neg (mt hzero.mp h), if_neg h]
    exact hadd c

theorem century_value_eq (h : Valid clock t) {y : ℕ} :
    year_value (UInt16.ofNat y) (value (!clock.binary) (clock.register t .Century)) =
      UInt16.ofNat (100 * understood_century clock t.date.century + y) := by
  have hc := h.century
  unfold Clock.register understood_century
  cases hk : clock.kept with
  | true =>
    dsimp only
    rw [if_pos rfl, value_eq hc, year_value_eq hc]
    simp
  | false =>
    have hzero : ∀ b, value b 0 = UInt16.ofNat 0 := by decide
    rw [if_neg (by simp), hzero, year_value_eq (by decide), h.this hk]
    simp

/-- The registers that are read, each at its time. -/
theorem read_timepoint_values (h : Valid clock t) : ((read_timepoint clock gap).run ⟨t, 0, b⟩).1 =
    ⟨UInt16.ofNat (at_read clock gap t 1).seconds, UInt16.ofNat (at_read clock gap t 2).minutes,
      UInt16.ofNat (understood clock (at_read clock gap t 3).hours),
      UInt16.ofNat (at_read clock gap t 4).date.day, UInt16.ofNat (at_read clock gap t 5).date.month,
      UInt16.ofNat (100 * understood_century clock (at_read clock gap t 7).date.century +
        (at_read clock gap t 6).date.year)⟩ := by
  have hsec := (h.read gap 1).seconds
  have hmin := (h.read gap 2).minutes
  have hvalue : ∀ {i port n}, n < 100 →
      clock.register (at_read clock gap t i) port = Clock.encode clock.binary n →
      value (!clock.binary) (answer clock gap t i port) = UInt16.ofNat n := by
    intro i port n hn hr
    rw [answer, hr, value_eq hn]
  rw [read_timepoint_eq, hvalue (by omega) rfl, hvalue (by omega) rfl, hvalue (h.read gap 4).day rfl,
    hvalue (h.read gap 5).month rfl, hvalue (h.read gap 6).year rfl,
    show answer clock gap t 3 .Hour = Clock.encode_hours _ _ _ from rfl,
    hour_value_eq (h.read gap 3).hours, show answer clock gap t 7 .Century = clock.register _ _ from rfl,
    century_value_eq (h.read gap 7)]

theorem ofNat_inj {m n : ℕ} (hm : m < 65536) (hn : n < 65536) (h : UInt16.ofNat m = UInt16.ofNat n) :
    m = n := by
  have := congrArg UInt16.toNat h
  rwa [UInt16.toNat_ofNat_of_lt' hm, UInt16.toNat_ofNat_of_lt' hn] at this

theorem updates_le (gap : ℕ → ℕ) {i j : ℕ} (h : i ≤ j) : updates gap i ≤ updates gap j := by
  induction h with
  | refl => exact le_rfl
  | step _ ih => exact ih.trans (Nat.le_add_right _ _)

theorem Still.consistent (h : Valid clock t) (hs : Still clock gap t) : Consistent clock gap t := by
  refine ⟨updates gap 1, updates_le gap (by decide), updates_le gap (by decide), fun b => ?_⟩
  have hhours : understood clock (at_read clock gap t 3).hours = (at_read clock gap t 3).hours :=
    if_neg fun hc => hs.twelve hc.1 hc.2
  have hcentury : understood_century clock (at_read clock gap t 7).date.century =
      (at_read clock gap t 7).date.century := if_neg fun hc => hs.first hc.1 hc.2
  rw [read_timepoint_values h, hhours, hcentury, hs.minutes, hs.hours, hs.day, hs.month, hs.year,
    hs.century]
  rfl

theorem at_read_later {i j : ℕ} (h : i ≤ j) : at_read clock gap t j =
    clock.tick^[updates gap j - updates gap i] (at_read clock gap t i) := by
  unfold at_read
  rw [← Function.iterate_add_apply, Nat.sub_add_cancel (updates_le gap h)]

/-- The hour of twelve is not understood, and no minute is long enough to make up for it. -/
theorem understood_eq {n : ℕ} (h : Valid clock t) (hn : n < 60)
    (hu : understood clock (clock.tick^[n] t).hours = t.hours) :
    (clock.tick^[n] t).hours = t.hours ∧
      (clock.hours24 = false → (clock.tick^[n] t).hours % 12 ≠ 0) := by
  have hday := second_of_day_iterate h n
  obtain ⟨hs, hm, hh, -⟩ := h.iterate n
  obtain ⟨hs', hm', hh', -⟩ := h
  unfold second_of_day at hday
  unfold understood at hu
  split at hu
  · omega
  next hc => exact ⟨hu, fun h24 h12 => hc ⟨h24, h12⟩⟩

theorem understood_century_eq {n : ℕ} (h : Valid clock t) (hn : n < 60)
    (hu : understood_century clock (clock.tick^[n] t).date.century = t.date.century) :
    (clock.tick^[n] t).date.century = t.date.century ∧
      (clock.kept = true → (clock.tick^[n] t).date.century ≠ 0) := by
  unfold understood_century at hu
  split at hu
  next hc =>
    have hnext : (clock.tick^[n] t).date.century = t.date.century ∨
        (clock.tick^[n] t).date.century = (t.date.century + 1) % 100 := by
      rw [date_iterate h (by omega)]
      unfold Clock.next_day Clock.next_year
      split
      · exact .inl rfl
      · split
        · exact .inl rfl
        · split
          · exact .inl rfl
          · split
            · exact .inl rfl
            · simp [hc.1]
    omega
  next hc => exact ⟨hu, fun hk h0 => hc ⟨hk, h0⟩⟩

/-- Within a minute, the seconds say which instant it is. -/
theorem Consistent.at_seconds (h : Valid clock t) (hlt : updates gap 7 < updates gap 0 + 60)
    (hc : Consistent clock gap t) :
    ((read_timepoint clock gap).run ⟨t, 0, 0⟩).1 = point (at_read clock gap t 1) := by
  obtain ⟨n, h0, h7, hn⟩ := hc
  have h01 := updates_le gap (show 0 ≤ 1 by decide)
  have h17 := updates_le gap (show 1 ≤ 7 by decide)
  have hs := congrArg RTCTimePoint.seconds (hn 0)
  rw [read_timepoint_values h] at hs
  have hv := (h.read gap 1).seconds
  have hv' := (h.iterate n).seconds
  have hsec : (at_read clock gap t 1).seconds = (clock.tick^[n] t).seconds :=
    ofNat_inj (by omega) (by omega) hs
  have hday := second_of_day_iterate h (updates gap 1)
  have hday' := second_of_day_iterate h n
  have hn1 : n = updates gap 1 := by
    unfold at_read at hsec hv
    unfold second_of_day at hday hday'
    omega
  rw [hn 0, hn1]
  rfl

theorem Consistent.still (h : Valid clock t) (hlt : updates gap 7 < updates gap 0 + 60)
    (hc : Consistent clock gap t) : Still clock gap t := by
  have heq := hc.at_seconds h hlt
  rw [read_timepoint_values h] at heq
  unfold point at heq
  rw [RTCTimePoint.mk.injEq] at heq
  obtain ⟨-, hm, hh, hd, hmo, hy⟩ := heq
  have hlater : ∀ j, 1 ≤ j → j ≤ 7 → updates gap j - updates gap 1 < 60 := by
    intro j h1 h7
    have := updates_le gap (show 0 ≤ 1 by decide)
    have := updates_le gap h7
    omega
  have hv := h.read gap 1
  have hcentury : understood_century clock (at_read clock gap t 7).date.century < 100 := by
    have := (h.read gap 7).century
    unfold understood_century
    split <;> omega
  have hvm := hv.minutes
  have hvh := hv.hours
  have hvy := hv.year
  have hvc := hv.century
  have hvy' := (h.read gap 6).year
  have hvm' := (h.read gap 2).minutes
  have hvh' : understood clock (at_read clock gap t 3).hours < 24 := by
    have := (h.read gap 3).hours
    unfold understood
    split <;> omega
  have hyears := ofNat_inj (by omega) (by omega) hy
  have hhours : understood clock (at_read clock gap t 3).hours = (at_read clock gap t 1).hours :=
    ofNat_inj (by omega) (by omega) hh
  have hcent : understood_century clock (at_read clock gap t 7).date.century =
      (at_read clock gap t 1).date.century := by omega
  rw [at_read_later (show 1 ≤ 3 by decide)] at hhours
  rw [at_read_later (show 1 ≤ 7 by decide)] at hcent
  obtain ⟨hhours, htwelve⟩ := understood_eq hv (hlater 3 (by decide) (by decide)) hhours
  obtain ⟨hcent, hfirst⟩ := understood_century_eq hv (hlater 7 (by decide) (by decide)) hcent
  rw [← at_read_later (by decide)] at hhours hcent htwelve hfirst
  exact ⟨ofNat_inj (by omega) (by omega) hm, hhours,
    ofNat_inj ((h.read gap 4).day.trans (by decide)) (hv.day.trans (by decide)) hd,
    ofNat_inj ((h.read gap 5).month.trans (by decide)) (hv.month.trans (by decide)) hmo, by omega, hcent,
    htwelve, hfirst⟩

/-- The answer is the clock's time at some instant of the read, if each register is still at its
read. If the read takes less than a minute, it is so only then. -/
theorem consistent_iff (h : Valid clock t) : (Still clock gap t → Consistent clock gap t) ∧
    (updates gap 7 < updates gap 0 + 60 → (Consistent clock gap t ↔ Still clock gap t)) :=
  ⟨Still.consistent h, fun hlt => ⟨Consistent.still h hlt, Still.consistent h⟩⟩

/-- A clock in binary and with 24 hours. -/
def plain : Clock := ⟨0x06, true, fun _ _ => 31, fun _ _ => le_rfl⟩

theorem consistent_no_update : Consistent plain (fun _ => 0) ⟨59, 59, 10, ⟨5, 3, 22, 20⟩⟩ := by
  refine (consistent_iff ⟨by decide, by decide, by decide, by decide, by decide, by decide,
    by decide, by decide⟩).1 ⟨rfl, rfl, rfl, rfl, rfl, rfl, by decide, by decide⟩

/-- The minute is over between the reads of the seconds and of the minutes. -/
theorem torn : ¬ ∀ (clock : Clock) (gap : ℕ → ℕ) (t : Time), Valid clock t → Consistent clock gap t := by
  intro h
  obtain ⟨n, -, h7, hn⟩ := h plain (fun i => if i = 2 then 1 else 0) ⟨59, 10, 10, ⟨5, 3, 22, 20⟩⟩
    ⟨by decide, by decide, by decide, by decide, by decide, by decide, by decide, by decide⟩
  have hn0 := hn 0
  obtain rfl | rfl : n = 0 ∨ n = 1 := by
    have : n ≤ 1 := h7
    omega
  · revert hn0
    decide
  · revert hn0
    decide

/-! ## A clock that stands still -/

/-- No update comes during the read. -/
def held (_ : ℕ) : ℕ := 0

theorem at_read_held (clock : Clock) (t : Time) (i : ℕ) : at_read clock held t i = t := by
  have hzero : updates held i = 0 := by
    induction i with
    | zero => rfl
    | succ i ih =>
      unfold updates
      rw [ih]
      rfl
  unfold at_read
  rw [hzero, Function.iterate_zero_apply]

theorem understood_iff {h : ℕ} (hh : h < 24) :
    understood clock h = h ↔ (clock.hours24 = false → h % 12 ≠ 0) := by
  unfold understood
  split
  next hc =>
    simp only [hc, forall_const, ne_eq, not_true_eq_false, iff_false]
    omega
  next hc => simpa using fun h24 h12 => hc ⟨h24, h12⟩

/-- A driver that reads the registers of a time finds that time, in every format but for the two
hours of twelve. -/
theorem read_inverts (h : Valid clock t) (hc : clock.kept = true → t.date.century ≠ 0) :
    (∀ b, ((read_timepoint clock held).run ⟨t, 0, b⟩).1 = point t) ↔
      (clock.hours24 = false → t.hours % 12 ≠ 0) := by
  have hcentury : understood_century clock t.date.century = t.date.century :=
    if_neg fun hz => hc hz.1 hz.2
  rw [← understood_iff h.hours]
  constructor
  · intro hread
    have hhours := congrArg RTCTimePoint.hours (hread 0)
    rw [read_timepoint_values h] at hhours
    simp only [at_read_held] at hhours
    have hlt := h.hours
    have hle : understood clock t.hours < 24 := by
      unfold understood
      split <;> omega
    exact ofNat_inj (by omega) (by omega) hhours
  · intro hhours b
    rw [read_timepoint_values h]
    simp only [at_read_held, hhours, hcentury]
    rfl

/-- A clock in binary-coded decimals and with 12 hours. -/
def twelve_hours : Clock := ⟨0x00, true, fun _ _ => 31, fun _ _ => le_rfl⟩

theorem read_inverts_afternoon :
    ((read_timepoint twelve_hours held).run ⟨⟨5, 45, 23, ⟨31, 12, 99, 19⟩⟩, 0, 0xffff⟩).1 =
      ⟨5, 45, 23, 31, 12, 1999⟩ :=
  (read_inverts ⟨by decide, by decide, by decide, by decide, by decide, by decide, by decide,
    by decide⟩ (by decide)).mpr (by decide) _

/-- Noon is read as midnight. -/
theorem noon_not_inverted : ¬ ∀ (clock : Clock) (t : Time), Valid clock t →
    (clock.kept = true → t.date.century ≠ 0) →
    ∀ b, ((read_timepoint clock held).run ⟨t, 0, b⟩).1 = point t := by
  intro h
  have hnoon := h twelve_hours ⟨0, 0, 12, ⟨5, 3, 22, 20⟩⟩ ⟨by decide, by decide, by decide,
    by decide, by decide, by decide, by decide, by decide⟩ (by decide) 0
  revert hnoon
  decide

end CMOSRTC

end Infos.Drivers
