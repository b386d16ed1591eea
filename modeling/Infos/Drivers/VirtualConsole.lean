import Mathlib.Algebra.Order.Ring.Nat
import Mathlib.Logic.Function.Basic
import Mathlib.Tactic.Common

/-!
# The virtual console

A buffer is its cells, those behind the last one of the screen included. `written` has the index of
every cell that was written.
-/

namespace Infos.Drivers

structure VirtualConsole where
  _current_pos : UInt16
  _buffer : Option (ℕ → UInt16)
  written : List ℕ

namespace VirtualConsole

def _width : ℕ := 80

def _height : ℕ := 25

/-- The constructor, and `set_buffer` if there is another buffer. -/
def new (buffer : Option (ℕ → UInt16)) : VirtualConsole := ⟨0, buffer, []⟩

def store (i : ℕ) (cell : UInt16) (vc : VirtualConsole) : VirtualConsole :=
  { vc with
    _buffer := vc._buffer.map fun b => Function.update b i cell
    written := i :: vc.written }

def scroll_one_line (vc : VirtualConsole) : VirtualConsole :=
  { vc with
    _buffer := vc._buffer.map fun b x =>
      if x < _width * (_height - 1) then b (x + _width)
      else if x < _width * _height then 0x0700 else b x
    written := List.range (_width * _height) ++ vc.written }

/-- The variables of `write`. -/
structure Escape where
  attr : UInt16
  state : ℕ
  deriving DecidableEq, Repr

/-- The first part of the loop of `write`. -/
def Escape.next (c : UInt8) (e : Escape) : Escape :=
  if e.state = 1 then { e with state := if c = 0x5b then 2 else 0 }
  else if e.state = 2 then ⟨0x0100, 0⟩
  else e

/-- A character is signed. -/
def Escape.cell (c : UInt8) (e : Escape) : UInt16 := e.attr ||| c.toInt8.toInt16.toUInt16

/-- What `write` does with a character that is not in the middle of an escape sequence, before it
looks whether to scroll. -/
def put (c : UInt8) (e : Escape) (vc : VirtualConsole) : Escape × VirtualConsole :=
  let pos := vc._current_pos
  if c = 10 then (e, { vc with _current_pos := pos + (80 - pos % 80) })
  else if c = 27 then ({ e with state := 1 }, vc)
  else if c = 8 then
    (e, { vc.store (pos - 1).toNat (e.cell 32) with _current_pos := pos - 1 })
  else (e, { vc.store pos.toNat (e.cell c) with _current_pos := pos + 1 })

def scroll_if (vc : VirtualConsole) : VirtualConsole :=
  if _width * _height ≤ vc._current_pos.toNat then
    { vc.scroll_one_line with _current_pos := 1920 }
  else vc

/-- A turn of the loop of `write`. -/
def write_byte (c : UInt8) (e : Escape) (vc : VirtualConsole) : Escape × VirtualConsole :=
  let e := e.next c
  if e.state = 0 then
    let (e, vc) := vc.put c e
    (e, vc.scroll_if)
  else (e, vc)

def write_loop : List UInt8 → Escape → VirtualConsole → VirtualConsole
  | [], _, vc => vc
  | c :: rest, e, vc =>
    let (e, vc) := vc.write_byte c e
    write_loop rest e vc

def write (buffer : List UInt8) (vc : VirtualConsole) : ℕ × VirtualConsole :=
  if vc._buffer.isNone then (0, vc) else (buffer.length, vc.write_loop buffer ⟨0x0700, 0⟩)

/-- The console after some calls. A prefix of a call's bytes is a call of its own. -/
def writes (calls : List (List UInt8)) (vc : VirtualConsole) : VirtualConsole :=
  calls.foldl (fun vc buffer => (vc.write buffer).2) vc

/-! ## Going back from the first cell -/

/-- The character is a backspace that is handled at the first cell. -/
def BacksOut (c : UInt8) (e : Escape) (vc : VirtualConsole) : Prop :=
  (e.next c).state = 0 ∧ c = 8 ∧ vc._current_pos = 0

instance (c : UInt8) (e : Escape) (vc : VirtualConsole) : Decidable (BacksOut c e vc) :=
  inferInstanceAs (Decidable (_ ∧ _ ∧ _))

def LoopBacksOut : List UInt8 → Escape → VirtualConsole → Prop
  | [], _, _ => False
  | c :: rest, e, vc => BacksOut c e vc ∨
      LoopBacksOut rest (vc.write_byte c e).1 (vc.write_byte c e).2

/-- In one of the calls, a backspace is handled at the first cell. -/
def CallsBackOut : List (List UInt8) → VirtualConsole → Prop
  | [], _ => False
  | buffer :: calls, vc => vc._buffer.isSome ∧ LoopBacksOut buffer ⟨0x0700, 0⟩ vc ∨
      CallsBackOut calls (vc.write buffer).2

/-- The position is on the screen, and so is every cell that was written. -/
def OnScreen (vc : VirtualConsole) : Prop :=
  vc._current_pos.toNat < _width * _height ∧ ∀ i ∈ vc.written, i < _width * _height

variable {c : UInt8} {e : Escape} {vc : VirtualConsole} {bytes : List UInt8}
  {calls : List (List UInt8)}

theorem size_eq : _width * _height = 2000 := rfl

theorem scroll_if_pos : vc.scroll_if._current_pos.toNat < _width * _height := by
  unfold scroll_if
  split
  · exact show (1920 : UInt16).toNat < 2000 by decide
  · omega

theorem scroll_if_written :
    (∀ i ∈ vc.scroll_if.written, i < _width * _height) ↔ ∀ i ∈ vc.written, i < _width * _height := by
  unfold scroll_if
  split
  · unfold scroll_one_line
    simp only [List.mem_append, List.mem_range, or_imp, imp_self, true_and]
  · rfl

theorem scroll_if_kept : vc.written ⊆ vc.scroll_if.written := by
  unfold scroll_if
  split
  · exact List.subset_append_right _ _
  · exact List.Subset.refl _

theorem put_kept : vc.written ⊆ (vc.put c e).2.written := by
  unfold put store
  dsimp only
  split_ifs
  · exact List.Subset.refl _
  · exact List.Subset.refl _
  · exact List.subset_cons_self _ _
  · exact List.subset_cons_self _ _

/-- The cell in front of the position is on the screen, but for the first position. -/
theorem pred_lt_iff {pos : UInt16} (h : pos.toNat < 2000) : (pos - 1).toNat < 2000 ↔ pos ≠ 0 := by
  have hzero : pos = 0 ↔ pos.toNat = 0 := UInt16.toNat_inj.symm
  rw [ne_eq, hzero, UInt16.toNat_sub, show (1 : UInt16).toNat = 1 from rfl]
  omega

theorem put_written (h : vc.OnScreen) :
    (∀ i ∈ (vc.put c e).2.written, i < _width * _height) ↔ ¬ (c = 8 ∧ vc._current_pos = 0) := by
  obtain ⟨hpos, hold⟩ := h
  rw [size_eq] at hpos hold ⊢
  unfold put store
  dsimp only
  split_ifs with hline hesc hback
  · simpa [hline] using hold
  · simpa [hesc] using hold
  · simp only [List.forall_mem_cons, pred_lt_iff hpos, hback, true_and]
    exact and_iff_left hold
  · simpa [hback, hpos] using hold

/-- A turn keeps to the screen, unless it goes back from the first cell. -/
theorem write_byte_spec (h : vc.OnScreen) : OnScreen (vc.write_byte c e).2 ↔ ¬ BacksOut c e vc := by
  unfold write_byte BacksOut
  dsimp only
  split
  next hstate =>
    rw [and_iff_right hstate, ← put_written (e := e.next c) h, ← scroll_if_written]
    exact and_iff_right scroll_if_pos
  next hstate => simpa [hstate] using h

theorem write_byte_kept : vc.written ⊆ (vc.write_byte c e).2.written := by
  unfold write_byte
  dsimp only
  split
  · exact fun i hi => scroll_if_kept (put_kept hi)
  · exact List.Subset.refl _

theorem write_byte_pos (h : vc._current_pos.toNat < _width * _height) :
    (vc.write_byte c e).2._current_pos.toNat < _width * _height := by
  unfold write_byte
  dsimp only
  split
  · exact scroll_if_pos
  · exact h

theorem write_loop_kept : vc.written ⊆ (vc.write_loop bytes e).written := by
  induction bytes generalizing vc e with
  | nil => exact List.Subset.refl _
  | cons c rest ih => exact fun i hi => ih (write_byte_kept hi)

/-- A console stays wrong once it has left the screen. -/
theorem off_of_byte (h : vc.OnScreen) (hout : ¬ OnScreen (vc.write_byte c e).2) :
    ∃ i ∈ (vc.write_byte c e).2.written, ¬ i < _width * _height := by
  by_contra hno
  simp only [not_exists, not_and, not_not] at hno
  exact hout ⟨write_byte_pos h.1, hno⟩

theorem write_loop_spec (h : vc.OnScreen) :
    OnScreen (vc.write_loop bytes e) ↔ ¬ LoopBacksOut bytes e vc := by
  induction bytes generalizing vc e with
  | nil => simpa [write_loop, LoopBacksOut] using h
  | cons c rest ih =>
    unfold write_loop LoopBacksOut
    dsimp only
    by_cases hout : OnScreen (vc.write_byte c e).2
    · rw [ih hout, or_iff_right ((write_byte_spec h).mp hout)]
    · obtain ⟨i, hi, hoff⟩ := off_of_byte h hout
      rw [write_byte_spec h, not_not] at hout
      simp only [hout, true_or, not_true_eq_false, iff_false]
      exact fun hon => hoff (hon.2 i (write_loop_kept hi))

theorem write_spec (h : vc.OnScreen) : OnScreen (vc.write bytes).2 ↔
    ¬ (vc._buffer.isSome ∧ LoopBacksOut bytes ⟨0x0700, 0⟩ vc) := by
  unfold write
  cases hb : vc._buffer with
  | none => simpa [hb] using h
  | some b => simpa [hb] using write_loop_spec h

end VirtualConsole

end Infos.Drivers
