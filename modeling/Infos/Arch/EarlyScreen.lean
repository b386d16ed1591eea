import Infos.Drivers.Writes
import Infos.Lib.Page

/-!
# The early screen

The early screen and the virtual console show the same text at the same places.
-/

namespace Infos.Arch

open Infos.Drivers

/-- `rep movsq`, for `count` groups of four cells from `src` on. -/
def movsq : (count dst src : ℕ) → (ℕ → UInt16) → (ℕ → UInt16)
  | 0, _, _, m => m
  | count + 1, dst, src, m =>
    movsq count (dst + 4) (src + 4) fun j =>
      if dst ≤ j ∧ j < dst + 4 then m (src + (j - dst)) else m j

/-- All sizes here are of whole groups of four cells. -/
def memcpy (dst src size : ℕ) (m : ℕ → UInt16) : ℕ → UInt16 := movsq (size / 8) dst src m

structure EarlyScreen where
  _current_x : UInt8
  _current_y : UInt8
  _video_ram : ℕ → UInt16

namespace EarlyScreen

def _width : ℕ := 80

def _height : ℕ := 25

def clear (s : EarlyScreen) : EarlyScreen :=
  ⟨0, 0, fun j => if j < _width * _height then 0 else s._video_ram j⟩

def scroll (s : EarlyScreen) : EarlyScreen :=
  let m := memcpy 0 _width (_width * (_height - 1) * 2) s._video_ram
  { s with _video_ram := fun j =>
      if _width * (_height - 1) ≤ j ∧ j < _width * _height then 0 else m j }

/-- What `putch` does at the end of a line. -/
def end_line (s : EarlyScreen) : EarlyScreen :=
  let s := { s with _current_x := 0, _current_y := s._current_y + 1 }
  if s._current_y.toNat = _height then
    { s with _current_y := UInt8.ofNat (_height - 1) }.scroll
  else s

def putch (attr : UInt16) (s : EarlyScreen) (c : UInt8) : EarlyScreen :=
  if c = 13 then { s with _current_x := 0 }
  else if c = 10 then s.end_line
  else
    let cell := (attr &&& 0xff) <<< 8 ||| c.toInt8.toInt16.toUInt16
    let s := { s with
      _video_ram := Function.update s._video_ram
        (s._current_x.toNat + s._current_y.toNat * _width) cell
      _current_x := s._current_x + 1 }
    if s._current_x.toNat = _width then s.end_line else s

def write (buffer : List UInt8) (s : EarlyScreen) : EarlyScreen := buffer.foldl (putch 0x07) s

end EarlyScreen

/-! ## Moving the rows up -/

variable {m : ℕ → UInt16} {j : ℕ}

/-- What is copied is not overwritten before, if it moves down. -/
theorem movsq_apply (count : ℕ) {dst src : ℕ} (h : dst ≤ src) (m : ℕ → UInt16) (j : ℕ) :
    movsq count dst src m j =
      if dst ≤ j ∧ j < dst + 4 * count then m (j + (src - dst)) else m j := by
  induction count generalizing dst src m with
  | zero =>
    unfold movsq
    rw [if_neg (by omega)]
  | succ count ih =>
    unfold movsq
    rw [ih (by omega)]
    split_ifs <;> first | omega | (congr 1; omega) | rfl

theorem memcpy_rows (m : ℕ → UInt16) (j : ℕ) :
    memcpy 0 80 (80 * 24 * 2) m j = if j < 80 * 24 then m (j + 80) else m j := by
  unfold memcpy
  rw [movsq_apply _ (by omega)]
  simp

/-- The console moves its rows by the same copy. -/
theorem scroll_one_line_memcpy (vc : VirtualConsole) : vc.scroll_one_line._buffer =
    vc._buffer.map fun b j => if 80 * 24 ≤ j ∧ j < 80 * 25 then 0x0700
      else memcpy 0 80 (80 * 24 * 2) b j := by
  unfold VirtualConsole.scroll_one_line VirtualConsole._width VirtualConsole._height
  simp only [memcpy_rows]
  congr 1
  funext b j
  split_ifs <;> first | omega | rfl

/-! ## One character -/

def chars (cells : ℕ → UInt16) : ℕ → UInt8 := fun j => (cells j).toUInt8

/-- The character is a newline, or a printable one. -/
def Plain (c : UInt8) : Prop := c = 10 ∨ 32 ≤ c ∧ c ≤ 126

/-- The position and the cells are those of the page on a screen of 25 rows. -/
def OnPage (p : Page UInt8) (pos : ℕ) (cells : ℕ → UInt16) : Prop :=
  ∃ x y, x < 80 ∧ pos = x + 80 * y ∧ Page.Shows 80 25 p x y (chars cells)

variable {p : Page UInt8} {c : UInt8} {x y pos : ℕ} {cells cells' : ℕ → UInt16}

theorem toUInt8_extend (c : UInt8) : c.toInt8.toInt16.toUInt16.toUInt8 = c := by
  apply UInt8.toBitVec_inj.mp
  show (c.toBitVec.signExtend 16).setWidth 8 = c.toBitVec
  ext i hi
  rw [BitVec.getElem_setWidth, BitVec.getLsbD_signExtend]
  simp [hi]
  omega

/-- The attribute leaves the character as it is. -/
theorem toUInt8_cell (c : UInt8) : (0x0700 ||| c.toInt8.toInt16.toUInt16).toUInt8 = c := by
  rw [UInt16.toUInt8_or, toUInt8_extend, show (0x0700 : UInt16).toUInt8 = 0 from rfl, UInt8.zero_or]

theorem lt_height (h : Page.Shows 80 25 p x y (chars cells)) : y < 25 := by
  have := h.row
  omega

theorem Plain.ne (h : Plain c) : c ≠ 27 ∧ c ≠ 8 ∧ c ≠ 13 := by
  rcases h with rfl | ⟨h, -⟩
  · decide
  · refine ⟨?_, ?_, ?_⟩ <;> rintro rfl <;> exact absurd h (by decide)

theorem shows_put (h : Page.Shows 80 25 p x y (chars cells)) (hx : x < 80)
    (hcell : (cells' (80 * y + x)).toUInt8 = c) (hrest : ∀ j, j ≠ 80 * y + x → cells' j = cells j) :
    Page.Shows 80 25 (p.put c) (x + 1) y (chars cells') :=
  h.put hx hcell fun j hj => congrArg UInt16.toUInt8 (hrest j hj)

theorem type_newline : p.type 80 10 10 = p.new_row := if_pos rfl

theorem type_put (hc : c ≠ 10) (h : p.current.length + 1 < 80) : p.type 80 10 c = p.put c :=
  (if_neg hc).trans (if_pos h)

theorem type_last (hc : c ≠ 10) (h : ¬p.current.length + 1 < 80) :
    p.type 80 10 c = (p.put c).new_row := (if_neg hc).trans (if_neg h)

/-! ## The virtual console -/

section Console

open VirtualConsole

variable {vc : VirtualConsole} {b : ℕ → UInt16}

/-- The console has left its row. -/
theorem scroll_if_spec (hb : vc._buffer = some b) (hy : y < 25)
    (hpos : vc._current_pos.toNat = 80 * (y + 1)) :
    ∃ b' y', vc.scroll_if._buffer = some b' ∧ vc.scroll_if._current_pos.toNat = 80 * y' ∧
      Page.LineFeed 80 25 y (chars b) y' (chars b') := by
  unfold scroll_if
  rw [size_eq, hpos]
  split
  · refine ⟨_, y, by rw [scroll_one_line, hb]; rfl, ?_, .scroll (by omega) fun j hj => ?_⟩
    · show (1920 : UInt16).toNat = 80 * y
      rw [show y = 24 by omega]
      rfl
    · exact congrArg UInt16.toUInt8 (if_pos hj)
  · exact ⟨b, y + 1, hb, hpos, .room (by omega)⟩

theorem write_byte_newline (hb : vc._buffer = some b) (h : OnPage p vc._current_pos.toNat b) :
    ∃ vc' b', vc.write_byte 10 .initial = (.initial, vc') ∧ vc'._buffer = some b' ∧
      OnPage p.new_row vc'._current_pos.toNat b' := by
  obtain ⟨x, y, hx, hpos, hs⟩ := h
  have hy := lt_height hs
  have hnext : (vc._current_pos + (80 - vc._current_pos % 80)).toNat = 80 * (y + 1) := by
    have hmod : (vc._current_pos % 80).toNat = x := by
      rw [UInt16.toNat_mod, hpos]
      exact (Nat.add_mul_mod_self_left x 80 y).trans (Nat.mod_eq_of_lt hx)
    have hsub : (80 - vc._current_pos % 80).toNat = 80 - x := by
      rw [UInt16.toNat_sub, hmod, show (80 : UInt16).toNat = 80 from rfl]
      omega
    rw [UInt16.toNat_add, hsub, hpos, Nat.mod_eq_of_lt (by omega)]
    omega
  let vc₁ := { vc with _current_pos := vc._current_pos + (80 - vc._current_pos % 80) }
  have hb₁ : vc₁._buffer = some b := hb
  obtain ⟨b', y', hb', hpos', hfeed⟩ := scroll_if_spec hb₁ hy hnext
  exact ⟨_, b', rfl, hb', 0, y', by omega, by rw [hpos', Nat.zero_add], hs.new_row hfeed⟩

theorem write_byte_eq (hline : c ≠ 10) (hesc : c ≠ 27) (hback : c ≠ 8) :
    vc.write_byte c .initial = (.initial,
      { vc.store vc._current_pos.toNat (Escape.initial.cell c) with
        _current_pos := vc._current_pos + 1 }.scroll_if) := by
  unfold write_byte put
  simp [hline, hesc, hback, Escape.next, Escape.initial]

theorem scroll_if_room (h : vc._current_pos.toNat < 2000) : vc.scroll_if = vc :=
  if_neg (Nat.not_le.mpr h)

theorem write_byte_put (hb : vc._buffer = some b) (h : OnPage p vc._current_pos.toNat b)
    (hc : Plain c) (hline : c ≠ 10) : ∃ vc' b', vc.write_byte c .initial = (.initial, vc') ∧
      vc'._buffer = some b' ∧ OnPage (p.type 80 10 c) vc'._current_pos.toNat b' := by
  obtain ⟨x, y, hx, hpos, hs⟩ := h
  have hy := lt_height hs
  obtain ⟨hesc, hback, -⟩ := hc.ne
  rw [write_byte_eq hline hesc hback]
  let b₁ := Function.update b vc._current_pos.toNat (Escape.initial.cell c)
  let vc₁ : VirtualConsole := { vc.store vc._current_pos.toNat (Escape.initial.cell c) with
    _current_pos := vc._current_pos + 1 }
  have hb₁ : vc₁._buffer = some b₁ := by
    show vc._buffer.map _ = _
    rw [hb]
    rfl
  have hpos₁ : vc₁._current_pos.toNat = x + 80 * y + 1 := by
    show (vc._current_pos + 1).toNat = _
    rw [UInt16.toNat_add, show (1 : UInt16).toNat = 1 from rfl, hpos]
    exact Nat.mod_eq_of_lt (by omega)
  have hput : Page.Shows 80 25 (p.put c) (x + 1) y (chars b₁) := by
    have hplace : vc._current_pos.toNat = 80 * y + x := hpos.trans (Nat.add_comm _ _)
    refine shows_put hs hx ?_ fun j hj => Function.update_of_ne (hplace ▸ hj) _ _
    rw [← hplace]
    exact (congrArg UInt16.toUInt8 (Function.update_self ..)).trans (toUInt8_cell c)
  have hcol := hs.column
  by_cases hlast : x + 1 < 80
  · rw [type_put hline (by omega)]
    have hroom : vc₁.scroll_if = vc₁ := scroll_if_room (by omega)
    exact ⟨vc₁, b₁, congrArg _ hroom, hb₁, x + 1, y, hlast, by omega, hput⟩
  · rw [type_last hline (by omega)]
    obtain ⟨b', y', hb', hpos', hfeed⟩ := scroll_if_spec hb₁ hy (by omega)
    exact ⟨_, b', rfl, hb', 0, y', by omega, by rw [hpos', Nat.zero_add], hput.new_row hfeed⟩

theorem write_byte_plain (hb : vc._buffer = some b) (h : OnPage p vc._current_pos.toNat b)
    (hc : Plain c) : ∃ vc' b', vc.write_byte c .initial = (.initial, vc') ∧ vc'._buffer = some b' ∧
      OnPage (p.type 80 10 c) vc'._current_pos.toNat b' := by
  by_cases hline : c = 10
  · subst hline
    rw [type_newline]
    exact write_byte_newline hb h
  · exact write_byte_put hb h hc hline

theorem write_loop_plain (hb : vc._buffer = some b) (h : OnPage p vc._current_pos.toNat b)
    {text : List UInt8} (hc : ∀ c ∈ text, Plain c) :
    ∃ b', (vc.write_loop text .initial)._buffer = some b' ∧
      OnPage (text.foldl (Page.type 80 10) p) (vc.write_loop text .initial)._current_pos.toNat b' := by
  induction text generalizing vc b p with
  | nil => exact ⟨b, hb, h⟩
  | cons c text ih =>
    obtain ⟨hc, htext⟩ := List.forall_mem_cons.mp hc
    obtain ⟨vc', b', hbyte, hb', h'⟩ := write_byte_plain hb h hc
    obtain ⟨b'', hb'', h''⟩ := ih hb' h' htext
    unfold write_loop
    rw [hbyte]
    exact ⟨b'', hb'', h''⟩

end Console

/-! ## The early screen -/

namespace EarlyScreen

variable {s : EarlyScreen}

/-- The coordinates and the cells are those of the page. -/
def OnScreen (p : Page UInt8) (s : EarlyScreen) : Prop :=
  s._current_x.toNat < 80 ∧
    Page.Shows 80 25 p s._current_x.toNat s._current_y.toNat (chars s._video_ram)

theorem end_line_spec (hy : s._current_y.toNat < 25) : s.end_line._current_x = 0 ∧
    Page.LineFeed 80 25 s._current_y.toNat (chars s._video_ram) s.end_line._current_y.toNat
      (chars s.end_line._video_ram) := by
  have hnext : (s._current_y + 1).toNat = s._current_y.toNat + 1 := by
    rw [UInt8.toNat_add, show (1 : UInt8).toNat = 1 from rfl]
    exact Nat.mod_eq_of_lt (by omega)
  unfold end_line
  dsimp only
  rw [hnext]
  split
  · rename_i hlast
    unfold _height at hlast
    refine ⟨rfl, ?_⟩
    show Page.LineFeed 80 25 s._current_y.toNat (chars s._video_ram) 24 _
    rw [show s._current_y.toNat = 24 by omega]
    refine .scroll (by omega) fun j hj => congrArg UInt16.toUInt8 ?_
    show (if 80 * 24 ≤ j ∧ j < 80 * 25 then 0
      else memcpy 0 80 (80 * 24 * 2) s._video_ram j) = s._video_ram (j + 80)
    rw [if_neg (by omega), memcpy_rows, if_pos hj]
  · rename_i hlast
    unfold _height at hlast
    refine ⟨rfl, ?_⟩
    show Page.LineFeed 80 25 s._current_y.toNat (chars s._video_ram) (s._current_y + 1).toNat _
    rw [hnext]
    exact .room (by omega)

theorem onScreen_end_line
    (hs : Page.Shows 80 25 p s._current_x.toNat s._current_y.toNat (chars s._video_ram)) :
    s.end_line.OnScreen p.new_row := by
  obtain ⟨hx, hfeed⟩ := end_line_spec (lt_height hs)
  have hnew := hs.new_row hfeed
  unfold OnScreen
  rw [hx]
  exact ⟨by decide, hnew⟩

theorem putch_plain (h : s.OnScreen p) (hc : Plain c) : (s.putch 0x07 c).OnScreen (p.type 80 10 c) := by
  obtain ⟨hx, hs⟩ := h
  obtain ⟨-, -, hreturn⟩ := hc.ne
  unfold putch
  rw [if_neg hreturn]
  by_cases hline : c = 10
  · subst hline
    rw [if_pos rfl, type_newline]
    exact onScreen_end_line hs
  rw [if_neg hline]
  extract_lets cell s₁
  have hcell : cell = 0x0700 ||| c.toInt8.toInt16.toUInt16 := rfl
  have hx₁ : s₁._current_x.toNat = s._current_x.toNat + 1 := by
    show (s._current_x + 1).toNat = _
    rw [UInt8.toNat_add, show (1 : UInt8).toNat = 1 from rfl]
    exact Nat.mod_eq_of_lt (by omega)
  have hput : Page.Shows 80 25 (p.put c) s₁._current_x.toNat s₁._current_y.toNat
      (chars s₁._video_ram) := by
    have hplace : s._current_x.toNat + s._current_y.toNat * _width =
        80 * s._current_y.toNat + s._current_x.toNat := by
      unfold _width
      omega
    rw [hx₁]
    refine shows_put hs hx ?_ fun j hj => Function.update_of_ne (hplace ▸ hj) _ _
    rw [← hplace]
    show (Function.update s._video_ram _ cell _).toUInt8 = c
    rw [Function.update_self, hcell, toUInt8_cell]
  have hcol := hs.column
  rw [hx₁]
  split
  · rename_i hlast
    unfold _width at hlast
    rw [type_last hline (by omega)]
    exact onScreen_end_line hput
  · rename_i hlast
    unfold _width at hlast
    rw [type_put hline (by omega)]
    exact ⟨by omega, hput⟩

theorem write_plain (h : s.OnScreen p) {text : List UInt8} (hc : ∀ c ∈ text, Plain c) :
    (s.write text).OnScreen (text.foldl (Page.type 80 10) p) := by
  unfold write
  induction text generalizing s p with
  | nil => exact h
  | cons c text ih =>
    obtain ⟨hc, htext⟩ := List.forall_mem_cons.mp hc
    exact ih (putch_plain h hc) htext

end EarlyScreen

/-! ## The two screens -/

theorem shows_empty (cells : ℕ → UInt16) : Page.Shows 80 25 .empty 0 0 (chars cells) := by
  refine ⟨rfl, rfl, by simp [Page.rows, Page.empty], fun r i c _ hc => ?_⟩
  rw [Page.shown_eq] at hc
  split_ifs at hc <;> cases hc

/-- The constructor fills the buffer. -/
def fresh : VirtualConsole := .new (some fun _ => 0x0700)

/-- Both screens come to the end of the text, and show the end of it in the same way. -/
def BothShow (text : List UInt8) (s : EarlyScreen) : Prop :=
  ∃ vc b, VirtualConsole.Leaves text fresh vc ∧ vc._buffer = some b ∧
    OnPage (.layout 80 10 text) vc._current_pos.toNat b ∧
    OnPage (.layout 80 10 text)
      ((s.clear.write text)._current_x.toNat + 80 * (s.clear.write text)._current_y.toNat)
      (s.clear.write text)._video_ram

/-- Both screens show the last rows of a text exactly if the index of the console's loop, which has 32
bits, can come to its end. -/
theorem both_show_iff (s : EarlyScreen) (text : List UInt8) (hc : ∀ c ∈ text, Plain c) :
    BothShow text s ↔ text.length < 2 ^ 32 := by
  constructor
  · rintro ⟨vc, b, hleaves, -⟩
    by_contra hlong
    exact VirtualConsole.not_ends_of_long (Nat.not_lt.mp hlong) _ hleaves
  · intro hlen
    have hstart : OnPage .empty fresh._current_pos.toNat fun _ => 0x0700 :=
      ⟨0, 0, by omega, rfl, shows_empty _⟩
    obtain ⟨b, hb, hpage⟩ := write_loop_plain rfl hstart hc
    obtain ⟨hx, hs⟩ := EarlyScreen.write_plain (s := s.clear) ⟨Nat.zero_lt_succ _, shows_empty _⟩ hc
    exact ⟨_, b, VirtualConsole.leaves_of_short hlen, hb, hpage, _, _, hx, rfl, hs⟩

theorem both_show_letters : BothShow [97, 10, 98] ⟨0, 0, fun _ => 0⟩ :=
  (both_show_iff ⟨0, 0, fun _ => 0⟩ [97, 10, 98] (by simp [Plain])).mpr (by decide)

/-- The console never comes to the end of a text of `2 ^ 32` blanks. -/
theorem not_both_show : ¬∀ s text, (∀ c ∈ text, Plain c) → BothShow text s := by
  intro h
  obtain ⟨vc, b, hleaves, -⟩ := h ⟨0, 0, fun _ => 0⟩ (List.replicate (2 ^ 32) 32) fun c hc => by
    rw [List.eq_of_mem_replicate hc]
    exact .inr (by decide)
  exact VirtualConsole.not_ends_of_long (List.length_replicate ▸ le_rfl) _ hleaves

end Infos.Arch
