import Infos.Drivers.Writes
import Infos.Lib.System

/-!
# Switching between virtual consoles

The console that is shown has the video memory as its buffer, and its own one is kept meanwhile.
Calls of `write` may be interrupted between any two characters.
-/

namespace Infos.Drivers

variable {T : Type}

/-- The video memory, or what the constructor of a console allocated. -/
inductive Buffer (T : Type) where
  | video
  | own (vc : T)
  deriving DecidableEq

/-- The device with its consoles. `escape` has the variables of the `write` that a console is in. -/
structure VGAConsole (T : Type) where
  cells : Buffer T → ℕ → UInt16
  _buffer : T → Option (Buffer T)
  _current_pos : T → UInt16
  escape : T → VirtualConsole.Escape
  _current_vc : Option T
  _old_vc : Option T
  _backup_buffer : Option (Buffer T)

namespace VGAConsole

open VirtualConsole

inductive Fault where
  | null_pointer

inductive Act (T : Type) where
  | write (vc : T)
  /-- The next character of the text. -/
  | byte (vc : T) (c : UInt8)
  | set_current_vc (vc : T)
  deriving DecidableEq

def Act.writes : Act T → Bool
  | .set_current_vc _ => false
  | _ => true

/-- The console that is switched to. -/
def Act.shows : Act T → Option T
  | .set_current_vc vc => some vc
  | _ => none

variable [DecidableEq T]

/-- The cells of a screen are copied. -/
def memcpy (dst src : Option (Buffer T)) (s : VGAConsole T) : Except Fault (VGAConsole T) :=
  match dst, src with
  | some dst, some src => .ok { s with
      cells := Function.update s.cells dst fun j =>
        if j < 80 * 25 then s.cells src j else s.cells dst j }
  | _, _ => .error .null_pointer

def set_buffer (vc : T) (buffer : Option (Buffer T)) (s : VGAConsole T) : VGAConsole T :=
  { s with _buffer := Function.update s._buffer vc buffer }

/-- The first half of `virtual_console_changed`. -/
def leave_old (s : VGAConsole T) : Except Fault (VGAConsole T) :=
  match s._old_vc with
  | some old => (s.set_buffer old s._backup_buffer).memcpy s._backup_buffer (some .video)
  | none => .ok s

/-- The second half, for the console that `get_current_vc` returns. -/
def enter (vc : T) (s : VGAConsole T) : Except Fault (VGAConsole T) := do
  let _backup_buffer := s._buffer vc
  let s := { s with _backup_buffer }.set_buffer vc (some .video)
  let s ← if _backup_buffer.isSome then s.memcpy (some .video) _backup_buffer else .ok s
  return { s with _old_vc := some vc }

def set_current_vc (vc : T) (s : VGAConsole T) : Except Fault (VGAConsole T) := do
  let s ← { s with _current_vc := some vc }.leave_old
  s.enter vc

/-- The console with its cells. -/
def view (s : VGAConsole T) (vc : T) : VirtualConsole :=
  ⟨s._current_pos vc, (s._buffer vc).map s.cells, []⟩

def write_byte (vc : T) (c : UInt8) (s : VGAConsole T) : VGAConsole T :=
  let r := (s.view vc).write_byte c (s.escape vc)
  { s with
    cells := match s._buffer vc, r.2._buffer with
      | some buffer, some cells => Function.update s.cells buffer cells
      | _, _ => s.cells
    _current_pos := Function.update s._current_pos vc r.2._current_pos
    escape := Function.update s.escape vc r.1 }

def step (s : VGAConsole T) : Act T → Except Fault (VGAConsole T)
  | .write vc => .ok { s with escape := Function.update s.escape vc .initial }
  | .byte vc c => .ok (s.write_byte vc c)
  | .set_current_vc vc => s.set_current_vc vc

/-- No console is shown yet. -/
structure Start (s : VGAConsole T) : Prop where
  buffer : ∀ vc, s._buffer vc = some (.own vc)
  current : s._current_vc = none
  old : s._old_vc = none

/-- The consoles keep their cursors on the screen. -/
def system (T : Type) [DecidableEq T] : System (VGAConsole T) (Act T) Fault where
  start := Start
  allowed s a := match a with
    | .byte vc c => ¬BacksOut c (s.escape vc) (s.view vc)
    | _ => True
  step := step

/-- A cell of the console, as it is read through `get_buffer`. -/
def read (s : VGAConsole T) (vc : T) (i : ℕ) : Option UInt16 :=
  (s._buffer vc).map fun buffer => s.cells buffer i

/-! ## A character -/

section Alike

variable {v v' : VirtualConsole} {c : UInt8} {e : Escape} {i : ℕ} {cell : UInt16}

/-- The consoles cannot be told apart on the screen. -/
structure Alike (v v' : VirtualConsole) : Prop where
  pos : v._current_pos = v'._current_pos
  cells : ∃ f f', v._buffer = some f ∧ v'._buffer = some f' ∧ ∀ i < 2000, f i = f' i

theorem Alike.move (h : Alike v v') (pos : UInt16) :
    Alike { v with _current_pos := pos } { v' with _current_pos := pos } := ⟨rfl, h.cells⟩

theorem Alike.store (h : Alike v v') (i : ℕ) (cell : UInt16) :
    Alike (v.store i cell) (v'.store i cell) := by
  obtain ⟨hpos, f, f', hv, hv', hcells⟩ := h
  refine ⟨hpos, Function.update f i cell, Function.update f' i cell, ?_, ?_, fun j hj => ?_⟩
  · simp [VirtualConsole.store, hv]
  · simp [VirtualConsole.store, hv']
  · simp only [Function.update_apply, hcells j hj]

theorem Alike.scroll_one_line (h : Alike v v') : Alike v.scroll_one_line v'.scroll_one_line := by
  obtain ⟨hpos, f, f', hv, hv', hcells⟩ := h
  unfold VirtualConsole.scroll_one_line
  rw [hv, hv']
  refine ⟨hpos, _, _, rfl, rfl, fun j hj => ?_⟩
  dsimp only
  split_ifs with hmove
  · exact hcells _ (by unfold _width _height at *; omega)
  · rfl
  · exact hcells j hj

theorem Alike.scroll_if (h : Alike v v') : Alike v.scroll_if v'.scroll_if := by
  unfold VirtualConsole.scroll_if
  rw [← h.pos]
  split
  · exact h.scroll_one_line.move _
  · exact h

theorem Alike.write_byte (h : Alike v v') (c : UInt8) (e : Escape) :
    Alike (v.write_byte c e).2 (v'.write_byte c e).2 := by
  unfold VirtualConsole.write_byte
  dsimp only
  split
  · apply Alike.scroll_if
    unfold put
    rw [← h.pos]
    dsimp only
    split_ifs
    · exact h.move _
    · exact h
    · exact (h.store _ _).move _
    · exact (h.store _ _).move _
  · exact h

end Alike

/-! ## What is read -/

variable {s t r : VGAConsole T} {vc vc' cur : T} {a : Act T} {as : List (Act T)} {c : UInt8} {i : ℕ}

/-- The consoles read the same, and are in the middle of the same. -/
structure Same (s r : VGAConsole T) : Prop where
  pos : s._current_pos = r._current_pos
  escape : s.escape = r.escape
  read : ∀ vc, ∀ i < 2000, s.read vc i = r.read vc i

/-- Each console has a buffer, and no other one has the same. -/
structure Apart (s : VGAConsole T) : Prop where
  some : ∀ vc, (s._buffer vc).isSome
  inj : Function.Injective s._buffer

omit [DecidableEq T] in
theorem Same.alike (h : Same s r) (hs : s.Apart) (hr : r.Apart) (vc : T) :
    Alike (s.view vc) (r.view vc) := by
  obtain ⟨b, hb⟩ := Option.isSome_iff_exists.mp (hs.some vc)
  obtain ⟨b', hb'⟩ := Option.isSome_iff_exists.mp (hr.some vc)
  refine ⟨congrFun h.pos vc, s.cells b, r.cells b', ?_, ?_, fun i hi => ?_⟩
  · simp [view, hb]
  · simp [view, hb']
  · have hread := h.read vc i hi
    simpa [VGAConsole.read, hb, hb'] using hread

theorem read_write_byte (hs : s.Apart) : (s.write_byte vc c).read vc' i =
    if vc' = vc then ((s.view vc).write_byte c (s.escape vc)).2._buffer.map (· i)
    else s.read vc' i := by
  obtain ⟨b, hb⟩ := Option.isSome_iff_exists.mp (hs.some vc)
  have hsome : ((s.view vc).write_byte c (s.escape vc)).2._buffer.isNone = false := by
    rw [isNone_write_byte]
    simp [view, hb]
  obtain ⟨g, hg⟩ := Option.isSome_iff_exists.mp (Option.isNone_eq_false_iff.mp hsome)
  unfold VGAConsole.read VGAConsole.write_byte
  simp only [hb, hg]
  split_ifs with heq
  · rw [heq, hb]
    simp
  · obtain ⟨b', hb'⟩ := Option.isSome_iff_exists.mp (hs.some vc')
    have hne : b' ≠ b := fun h => heq (hs.inj (hb'.trans (h ▸ hb.symm)))
    simp [hb', Function.update_of_ne hne]

theorem Same.write_byte (h : Same s r) (hs : s.Apart) (hr : r.Apart) (vc : T) (c : UInt8) :
    Same (s.write_byte vc c) (r.write_byte vc c) := by
  have hescape := h.escape
  have halike := (h.alike hs hr vc).write_byte c (s.escape vc)
  refine ⟨?_, ?_, fun vc' i hi => ?_⟩
  · show Function.update _ _ _ = Function.update _ _ _
    rw [h.pos, ← hescape, halike.pos]
  · show Function.update _ _ _ = Function.update _ _ _
    rw [write_byte_fst, write_byte_fst, hescape]
  · rw [read_write_byte hs, read_write_byte hr, ← hescape]
    split_ifs
    · obtain ⟨f, f', hf, hf', hcells⟩ := halike.cells
      rw [hf, hf']
      exact congrArg some (hcells i hi)
    · exact h.read vc' i hi

/-! ## A switch -/

/-- Each console has what it allocated, with the exception of the one that is shown. -/
structure Shows (s : VGAConsole T) (cur : T) : Prop where
  current : s._current_vc = some cur
  old : s._old_vc = some cur
  backup : s._backup_buffer = some (.own cur)
  shown : s._buffer cur = some .video
  others : ∀ vc, vc ≠ cur → s._buffer vc = some (.own vc)

def Inv (s : VGAConsole T) : Prop := Start s ∨ ∃ cur, s.Shows cur

/-- Nothing but the buffers of the consoles changes. -/
structure Kept (s t : VGAConsole T) : Prop where
  pos : t._current_pos = s._current_pos
  escape : t.escape = s.escape
  read : ∀ vc, ∀ i < 2000, t.read vc i = s.read vc i

theorem leave_old_spec (h : Inv s) (vc : T) : ∃ t,
    leave_old { s with _current_vc := some vc } = .ok t ∧ Kept s t ∧
      t._current_vc = some vc ∧ ∀ vc, t._buffer vc = some (.own vc) := by
  obtain h | ⟨cur, h⟩ := h
  · refine ⟨{ s with _current_vc := some vc }, ?_, ⟨rfl, rfl, fun _ _ _ => rfl⟩, rfl, h.buffer⟩
    unfold leave_old
    simp only [h.old]
  · unfold leave_old
    simp only [h.old, h.backup]
    refine ⟨_, rfl, ⟨rfl, rfl, fun vc i hi => ?_⟩, rfl, fun vc => ?_⟩
    · unfold VGAConsole.read
      by_cases hvc : vc = cur
      · simp [set_buffer, hvc, h.shown, hi]
      · simp [set_buffer, hvc, h.others vc hvc]
    · show Function.update s._buffer cur (some (.own cur)) vc = some (.own vc)
      by_cases hvc : vc = cur
      · rw [hvc, Function.update_self]
      · rw [Function.update_of_ne hvc, h.others vc hvc]

theorem enter_spec (hown : ∀ vc, s._buffer vc = some (.own vc)) (vc : T) : ∃ t,
    s.enter vc = .ok t ∧ Kept s t ∧ t._current_vc = s._current_vc ∧ t._old_vc = some vc ∧
      t._backup_buffer = some (.own vc) ∧ t._buffer = Function.update s._buffer vc (some .video) := by
  unfold enter
  simp only [hown]
  refine ⟨_, rfl, ⟨rfl, rfl, fun vc' i hi => ?_⟩, rfl, rfl, rfl, rfl⟩
  unfold VGAConsole.read
  by_cases hvc : vc' = vc
  · simp [set_buffer, hvc, hown, hi]
  · simp [set_buffer, hvc, hown]

theorem set_current_vc_spec (h : Inv s) (vc : T) : ∃ t, s.set_current_vc vc = .ok t ∧ Kept s t ∧
    t.Shows vc := by
  obtain ⟨s₁, h₁, hkept₁, hcur₁, hown₁⟩ := leave_old_spec h vc
  obtain ⟨t, ht, hkept, hcur, hold, hbackup, hbuffer⟩ := enter_spec hown₁ vc
  refine ⟨t, ?_, ⟨?_, ?_, fun vc' i hi => ?_⟩, ?_⟩
  · unfold set_current_vc
    rw [h₁]
    exact ht
  · rw [hkept.pos, hkept₁.pos]
  · rw [hkept.escape, hkept₁.escape]
  · rw [hkept.read vc' i hi, hkept₁.read vc' i hi]
  · refine ⟨hcur.trans hcur₁, hold, hbackup, ?_, fun vc' hne => ?_⟩
    · rw [hbuffer, Function.update_self]
    · rw [hbuffer, Function.update_of_ne hne, hown₁]

/-! ## Runs -/

omit [DecidableEq T] in
theorem apart_of_own (h : ∀ vc, s._buffer vc = some (.own vc)) : s.Apart := by
  refine ⟨fun vc => by simp [h], fun vc vc' heq => ?_⟩
  rw [h, h] at heq
  cases heq
  rfl

theorem Shows.apart (h : s.Shows cur) : s.Apart := by
  refine ⟨fun vc => ?_, fun vc vc' heq => ?_⟩
  · by_cases hvc : vc = cur
    · simp [hvc, h.shown]
    · simp [h.others vc hvc]
  · by_cases hvc : vc = cur <;> by_cases hvc' : vc' = cur <;>
      simp_all [h.shown, h.others]

theorem Inv.apart (h : Inv s) : s.Apart := by
  obtain h | ⟨cur, h⟩ := h
  · exact apart_of_own h.buffer
  · exact h.apart

omit [DecidableEq T] in
/-- It is about the pointers, not about what they point to. -/
theorem Inv.congr (h : Inv s) (hbuffer : t._buffer = s._buffer)
    (hcurrent : t._current_vc = s._current_vc) (hold : t._old_vc = s._old_vc)
    (hbackup : t._backup_buffer = s._backup_buffer) : Inv t := by
  obtain h | ⟨cur, h⟩ := h
  · refine .inl ⟨?_, hcurrent.trans h.current, hold.trans h.old⟩
    rw [hbuffer]
    exact h.buffer
  · refine .inr ⟨cur, hcurrent.trans h.current, hold.trans h.old, hbackup.trans h.backup, ?_, ?_⟩
    · rw [hbuffer]
      exact h.shown
    · rw [hbuffer]
      exact h.others

/-- A step keeps the buffers right, and makes the console current that it switches to. -/
theorem Inv.step (hinv : Inv s) (hs : s.step a = .ok t) :
    Inv t ∧ t._current_vc = a.shows.or s._current_vc := by
  cases a with
  | write vc =>
    cases hs
    exact ⟨hinv.congr rfl rfl rfl rfl, rfl⟩
  | byte vc c =>
    cases hs
    exact ⟨hinv.congr rfl rfl rfl rfl, rfl⟩
  | set_current_vc vc =>
    obtain ⟨t', ht', -, hshows⟩ := set_current_vc_spec hinv vc
    cases hs.symm.trans ht'
    exact ⟨.inr ⟨vc, hshows⟩, hshows.current⟩

/-- In a run, the current console is the last one that was switched to. -/
theorem Inv.run (hr : (system T).Run s as t) (hinv : Inv s) :
    Inv t ∧ t._current_vc = (as.filterMap Act.shows).getLast?.or s._current_vc := by
  induction hr with
  | nil => exact ⟨hinv, rfl⟩
  | @cons s u t a as _ hs _ ih =>
    obtain ⟨hu, hcurrent⟩ := hinv.step hs
    obtain ⟨ht, hlast⟩ := ih hu
    refine ⟨ht, ?_⟩
    rw [hlast, hcurrent, List.filterMap_cons]
    cases a.shows with
    | none => rfl
    | some vc =>
      rw [List.getLast?_cons]
      cases (as.filterMap Act.shows).getLast? with
      | none => rfl
      | some last => rfl

/-- A step of a run, with the step that is left of it if there are no switches. -/
theorem step_spec (hinv : Inv s) (hown : ∀ vc, r._buffer vc = some (.own vc)) (h : Same s r)
    (ha : (system T).allowed s a) (hs : s.step a = .ok t) :
      ∃ r', (system T).Run r (if a.writes then [a] else []) r' ∧
        (∀ vc, r'._buffer vc = some (.own vc)) ∧ Same t r' := by
  cases a with
  | write vc =>
    cases hs
    refine ⟨_, .cons trivial rfl (.nil _), hown, h.pos, ?_, h.read⟩
    show Function.update _ _ _ = Function.update _ _ _
    rw [h.escape]
  | byte vc c =>
    cases hs
    have ha' : (system T).allowed r (.byte vc c) := by
      -- Whether the cursor leaves the screen is known from the position and the escape sequence.
      rintro ⟨hstate, hc, hpos⟩
      rw [← h.escape] at hstate
      exact ha ⟨hstate, hc, (congrFun h.pos vc).trans hpos⟩
    exact ⟨_, .cons ha' rfl (.nil _), hown, h.write_byte hinv.apart (apart_of_own hown) vc c⟩
  | set_current_vc vc =>
    obtain ⟨t', ht', hkept, -⟩ := set_current_vc_spec hinv vc
    cases hs.symm.trans ht'
    refine ⟨r, .nil r, hown, ?_, ?_, fun vc i hi => ?_⟩
    · rw [hkept.pos, h.pos]
    · rw [hkept.escape, h.escape]
    · rw [hkept.read vc i hi, h.read vc i hi]

theorem run_spec (hr : (system T).Run s as t) (hinv : Inv s)
    (hown : ∀ vc, r._buffer vc = some (.own vc)) (h : Same s r) :
    ∃ r', (system T).Run r (as.filter Act.writes) r' ∧ Same t r' := by
  induction hr generalizing r with
  | nil => exact ⟨r, .nil r, h⟩
  | @cons s u t a as ha hs _ ih =>
    obtain ⟨r', hr', hown', h'⟩ := step_spec hinv hown h ha hs
    obtain ⟨r'', hr'', h''⟩ := ih (hinv.step hs).1 hown' h'
    refine ⟨r'', ?_, h''⟩
    rw [List.filter_cons]
    split_ifs at hr' ⊢
    · exact hr'.append hr''
    · cases hr'
      exact hr''

/-- No switch fails. -/
theorem step_ok (hinv : Inv s) (a : Act T) : ∃ t, s.step a = .ok t := by
  cases a with
  | write vc => exact ⟨_, rfl⟩
  | byte vc c => exact ⟨_, rfl⟩
  | set_current_vc vc =>
    obtain ⟨t, ht, -⟩ := set_current_vc_spec hinv vc
    exact ⟨t, ht⟩

/-- However the consoles are switched, each of them reads what it would read without switches, the
current one is the one switched to last, and the video memory has what it reads. -/
theorem switching_preserves (hs : Start s) (hr : (system T).Run s as t) :
    (∃ r, (system T).Run s (as.filter Act.writes) r ∧
      ∀ vc, ∀ i < 2000, t.read vc i = r.read vc i) ∧
    t._current_vc = (as.filterMap Act.shows).getLast? ∧
    (∀ cur, t._current_vc = some cur → ∀ i < 2000, t.read cur i = some (t.cells .video i)) ∧
    ∀ a, ∃ u, t.step a = .ok u := by
  obtain ⟨ht, hlast⟩ := Inv.run hr (.inl hs)
  rw [hs.current, Option.or_none] at hlast
  obtain ⟨r, hr', h⟩ := run_spec hr (.inl hs) hs.buffer ⟨rfl, rfl, fun _ _ _ => rfl⟩
  refine ⟨⟨r, hr', h.read⟩, hlast, fun cur hcur i _ => ?_, step_ok ht⟩
  obtain hstart | ⟨cur', hshows⟩ := ht
  · rw [hstart.current] at hcur
    cases hcur
  · cases hcur.symm.trans hshows.current
    simp [VGAConsole.read, hshows.shown]

/-- Two consoles, of which none is shown. -/
def boot : VGAConsole Bool :=
  ⟨fun _ _ => 0x0700, fun vc => some (.own vc), fun _ => 0, fun _ => .initial, none, none, none⟩

theorem start_boot : Start boot := ⟨fun _ => rfl, rfl, rfl⟩

/-- A letter is written on the screen, which then shows the other console, and the same again. -/
theorem switching_preserves_letter : ∃ t, (system Bool).Run boot
      [.set_current_vc false, .write false, .byte false 65, .set_current_vc true,
        .set_current_vc true] t ∧
    (∃ r, (system Bool).Run boot [.write false, .byte false 65] r ∧
      ∀ vc, ∀ i < 2000, t.read vc i = r.read vc i) ∧
    t._current_vc = some true ∧
    (∀ cur, t._current_vc = some cur → ∀ i < 2000, t.read cur i = some (t.cells .video i)) ∧
    ∀ a, ∃ u, t.step a = .ok u := by
  have hr : ∃ t, (system Bool).Run boot [.set_current_vc false, .write false, .byte false 65,
      .set_current_vc true, .set_current_vc true] t :=
    ⟨_, .cons trivial rfl (.cons trivial rfl (.cons (by rintro ⟨-, h, -⟩; cases h) rfl
      (.cons trivial rfl (.cons trivial rfl (.nil _)))))⟩
  obtain ⟨t, ht⟩ := hr
  exact ⟨t, ht, switching_preserves start_boot ht⟩

end VGAConsole

end Infos.Drivers
