import Infos.Drivers.Terminal
import Infos.Lib.System

/-!
# The keyboard

A byte of the keyboard goes through the physical console to the virtual console that is shown, and
from there to its terminal.
-/

namespace Infos.Drivers

inductive Key where
  | NO_KEY | UNKNOWN_KEY | KEY_ESCAPE
  | KEY_A | KEY_B | KEY_C | KEY_D | KEY_E | KEY_F | KEY_G | KEY_H | KEY_I | KEY_J | KEY_K | KEY_L
  | KEY_M | KEY_N | KEY_O | KEY_P | KEY_Q | KEY_R | KEY_S | KEY_T | KEY_U | KEY_V | KEY_W | KEY_X
  | KEY_Y | KEY_Z
  | KEY_1 | KEY_2 | KEY_3 | KEY_4 | KEY_5 | KEY_6 | KEY_7 | KEY_8 | KEY_9 | KEY_0
  | KEY_F1 | KEY_F2 | KEY_F3 | KEY_F4 | KEY_F5 | KEY_F6 | KEY_F7 | KEY_F8 | KEY_F9 | KEY_F10
  | KEY_ASTERISK | KEY_LSQBRACKET | KEY_RSQBRACKET | KEY_DOT | KEY_COMMA | KEY_SEMICOLON
  | KEY_APOSTROPHE | KEY_BACKSLASH | KEY_FORSLASH | KEY_BACKTICK | KEY_HYPHEN | KEY_EQUALS
  | KEY_TAB | KEY_RETURN | KEY_SPACE | KEY_BACKSPACE | KEY_CAPSLOCK
  | KEY_LSHIFT | KEY_RSHIFT | KEY_LCTRL | KEY_LALT | KEY_RALT
  deriving DecidableEq

namespace Keyboard

inductive Fault where
  /-- A read behind the end of `scancode_map`. -/
  | past_end
  | assertion
  deriving DecidableEq

def scancode_map : List Key := [
  .NO_KEY, .KEY_ESCAPE,
  .KEY_1, .KEY_2, .KEY_3, .KEY_4, .KEY_5, .KEY_6, .KEY_7, .KEY_8, .KEY_9, .KEY_0,
  .KEY_HYPHEN, .KEY_EQUALS, .KEY_BACKSPACE, .KEY_TAB,
  .KEY_Q, .KEY_W, .KEY_E, .KEY_R, .KEY_T, .KEY_Y,
  .KEY_U, .KEY_I, .KEY_O, .KEY_P, .KEY_LSQBRACKET, .KEY_RSQBRACKET,
  .KEY_RETURN,
  .KEY_LCTRL,
  .KEY_A, .KEY_S, .KEY_D, .KEY_F, .KEY_G, .KEY_H,
  .KEY_J, .KEY_K, .KEY_L, .KEY_SEMICOLON, .KEY_APOSTROPHE, .KEY_BACKTICK,
  .KEY_LSHIFT,
  .KEY_BACKSLASH, .KEY_Z, .KEY_X, .KEY_C, .KEY_V, .KEY_B,
  .KEY_N, .KEY_M, .KEY_COMMA, .KEY_DOT, .KEY_FORSLASH,
  .KEY_RSHIFT,
  .KEY_ASTERISK,
  .KEY_LALT,
  .KEY_SPACE,
  .KEY_CAPSLOCK,
  .KEY_F1, .KEY_F2, .KEY_F3, .KEY_F4, .KEY_F5, .KEY_F6, .KEY_F7, .KEY_F8, .KEY_F9, .KEY_F10]

def key_scancode (scancode : UInt8) : UInt8 := scancode &&& ~~~0x80

/-- The byte says that the key is released. -/
def released (scancode : UInt8) : Bool := scancode &&& 0x80 ≠ 0

def scancode_to_key (scancode : UInt8) : Except Fault Key :=
  if (key_scancode scancode).toNat > scancode_map.length then .ok .UNKNOWN_KEY
  else
    match scancode_map[(key_scancode scancode).toNat]? with
    | some key => .ok key
    | none => .error .past_end

/-! ## The consoles -/

def mapping (upper lower : Char) : Option (UInt8 × UInt8) :=
  some (upper.toNat.toUInt8, lower.toNat.toUInt8)

/-- The characters of a key, the one with the shift key first. -/
def characters : Key → Option (UInt8 × UInt8)
  | .KEY_A => mapping 'A' 'a'
  | .KEY_B => mapping 'B' 'b'
  | .KEY_C => mapping 'C' 'c'
  | .KEY_D => mapping 'D' 'd'
  | .KEY_E => mapping 'E' 'e'
  | .KEY_F => mapping 'F' 'f'
  | .KEY_G => mapping 'G' 'g'
  | .KEY_H => mapping 'H' 'h'
  | .KEY_I => mapping 'I' 'i'
  | .KEY_J => mapping 'J' 'j'
  | .KEY_K => mapping 'K' 'k'
  | .KEY_L => mapping 'L' 'l'
  | .KEY_M => mapping 'M' 'm'
  | .KEY_N => mapping 'N' 'n'
  | .KEY_O => mapping 'O' 'o'
  | .KEY_P => mapping 'P' 'p'
  | .KEY_Q => mapping 'Q' 'q'
  | .KEY_R => mapping 'R' 'r'
  | .KEY_S => mapping 'S' 's'
  | .KEY_T => mapping 'T' 't'
  | .KEY_U => mapping 'U' 'u'
  | .KEY_V => mapping 'V' 'v'
  | .KEY_W => mapping 'W' 'w'
  | .KEY_X => mapping 'X' 'x'
  | .KEY_Y => mapping 'Y' 'y'
  | .KEY_Z => mapping 'Z' 'z'
  | .KEY_0 => mapping ')' '0'
  | .KEY_1 => mapping '!' '1'
  | .KEY_2 => mapping '"' '2'
  | .KEY_3 => mapping '#' '3'
  | .KEY_4 => mapping '$' '4'
  | .KEY_5 => mapping '%' '5'
  | .KEY_6 => mapping '^' '6'
  | .KEY_7 => mapping '&' '7'
  | .KEY_8 => mapping '*' '8'
  | .KEY_9 => mapping '(' '9'
  | .KEY_HYPHEN => mapping '_' '-'
  | .KEY_EQUALS => mapping '+' '='
  | .KEY_BACKSLASH => mapping '|' '\\'
  | .KEY_FORSLASH => mapping '?' '/'
  | .KEY_DOT => mapping '>' '.'
  | .KEY_SPACE => mapping ' ' ' '
  | .KEY_RETURN => some (10, 10)
  | .KEY_BACKSPACE => some (8, 8)
  | _ => none

def Shift : UInt32 := 2

end Keyboard

open Keyboard

/-- The physical console, and what the keys change of each virtual console. -/
structure PhysicalConsole (T : Type) where
  _vcs : List T
  _current_vc : Option T
  _alt_pressed : Bool
  _current_mod_mask : T → UInt32
  _terminal : T → Terminal

namespace PhysicalConsole

variable {T : Type} [DecidableEq T]

def vc_key_up (vc : T) (key : Key) (s : PhysicalConsole T) : PhysicalConsole T :=
  match key with
  | .KEY_LSHIFT | .KEY_RSHIFT =>
    { s with _current_mod_mask :=
        Function.update s._current_mod_mask vc (s._current_mod_mask vc &&& ~~~Shift) }
  | _ => s

def vc_key_down (vc : T) (key : Key) (s : PhysicalConsole T) : PhysicalConsole T :=
  match key with
  | .KEY_LSHIFT | .KEY_RSHIFT =>
    { s with _current_mod_mask :=
        Function.update s._current_mod_mask vc (s._current_mod_mask vc ||| Shift) }
  | _ =>
    match characters key with
    | some (upper, lower) =>
      let ch := if s._current_mod_mask vc &&& Shift ≠ 0 then upper else lower
      { s with _terminal :=
          Function.update s._terminal vc ((s._terminal vc).append_to_read_buffer ch) }
    | none => s

/-- What both handlers do at an alt key. -/
def set_alt (key : Key) (pressed : Bool) (s : PhysicalConsole T) : PhysicalConsole T :=
  match key with
  | .KEY_LALT | .KEY_RALT => { s with _alt_pressed := pressed }
  | _ => s

def key_up (key : Key) (s : PhysicalConsole T) : PhysicalConsole T :=
  let s := s.set_alt key false
  match s._current_vc with
  | some vc => s.vc_key_up vc key
  | none => s

/-- `set_current_vc(*_vcs.at(index))` -/
def select (index : ℕ) (s : PhysicalConsole T) : Except Fault (PhysicalConsole T) :=
  match s._vcs[index]? with
  | some vc => .ok { s with _current_vc := some vc }
  | none => .error .assertion

def key_down (key : Key) (s : PhysicalConsole T) : Except Fault (PhysicalConsole T) :=
  if key = .KEY_F1 ∧ s._alt_pressed then s.select 0
  else if key = .KEY_F2 ∧ s._alt_pressed then s.select 1
  else
    let s := s.set_alt key true
    match s._current_vc with
    | some vc => .ok (s.vc_key_down vc key)
    | none => .ok s

/-- The sink of the keyboard is the console. -/
def handle_key_event (scancode : UInt8) (s : PhysicalConsole T) :
    Except Fault (PhysicalConsole T) := do
  let key ← scancode_to_key scancode
  if released scancode then return s.key_up key else s.key_down key

end PhysicalConsole

/-! ## The keys that are held -/

namespace Keyboard

/-- The key of a byte, if it is in the table. -/
def key_of (scancode : UInt8) : Option Key := scancode_map[(key_scancode scancode).toNat]?

/-- The last byte of the key says that it is pressed. The latest byte comes first. -/
def held (key : Key) (log : List UInt8) : Bool :=
  match log.find? fun scancode => key_of scancode = some key with
  | some scancode => !released scancode
  | none => false

def shift_held (log : List UInt8) : Bool := held .KEY_LSHIFT log || held .KEY_RSHIFT log

/-- The character that a byte is to give. -/
def character (log : List UInt8) (scancode : UInt8) : Option UInt8 :=
  if released scancode then none
  else ((key_of scancode).bind characters).map fun c => if shift_held log then c.1 else c.2

end Keyboard

/-- A console, with the bytes that were delivered by now. -/
structure Typing (T : Type) where
  console : PhysicalConsole T
  log : List UInt8

namespace Typing

variable {T : Type} [DecidableEq T]

def deliver (s : Typing T) (scancode : UInt8) : Except Fault (Typing T) := do
  let console ← s.console.handle_key_event scancode
  return ⟨console, scancode :: s.log⟩

/-- A virtual console is shown, and no shift key is held. -/
structure Start (s : Typing T) : Prop where
  log : s.log = []
  current : s.console._current_vc.isSome
  mask : ∀ vc, s.console._current_mod_mask vc = 0

def system (guard : Typing T → UInt8 → Prop) : System (Typing T) UInt8 Fault where
  start := Start
  allowed := guard
  step := deliver

/-- The terminal of the console that is shown gets the character of the byte, and no other one gets
anything. -/
def Follows (s : Typing T) (scancode : UInt8) (s' : Typing T) : Prop :=
  s'.console._terminal = match character s.log scancode, s.console._current_vc with
    | some ch, some vc => Function.update s.console._terminal vc
        ((s.console._terminal vc).append_to_read_buffer ch)
    | _, _ => s.console._terminal

/-- The byte is not the one whose key is just behind the table, no shift key is released while the
other one is held, and no other console is selected while one is held. -/
structure Regular (s : Typing T) (scancode : UInt8) : Prop where
  inside : key_scancode scancode ≠ 69
  left : released scancode → key_of scancode = some .KEY_LSHIFT → ¬held .KEY_RSHIFT s.log
  right : released scancode → key_of scancode = some .KEY_RSHIFT → ¬held .KEY_LSHIFT s.log
  select : ¬released scancode → s.console._alt_pressed →
    ∀ i, (key_of scancode = some .KEY_F1 ∧ i = 0) ∨ (key_of scancode = some .KEY_F2 ∧ i = 1) →
      ∃ vc, s.console._vcs[i]? = some vc ∧
        (s.console._current_vc = some vc ∨ ¬shift_held s.log)

/-- The console that is shown knows whether a shift key is held, and no other one thinks so. -/
def Inv (s : Typing T) : Prop :=
  ∃ cur, s.console._current_vc = some cur ∧
    ∀ vc, s.console._current_mod_mask vc = if vc = cur ∧ shift_held s.log then Shift else 0

end Typing

/-! ## The table -/

section

variable {key : Key} {b : UInt8} {log : List UInt8}

theorem scancode_to_key_spec (h : key_scancode b ≠ 69) : ∃ key, scancode_to_key b = .ok key ∧
    (key_of b = some key ∨ (key_of b = none ∧ key = .UNKNOWN_KEY)) := by
  have hne : (key_scancode b).toNat ≠ 69 := fun hn => h (UInt8.toNat_inj.mp hn)
  have hlength : scancode_map.length = 69 := rfl
  unfold scancode_to_key key_of
  split
  · rename_i hlt
    exact ⟨_, rfl, .inr ⟨List.getElem?_eq_none (by omega), rfl⟩⟩
  · rename_i hle
    rw [List.getElem?_eq_getElem (by omega)]
    exact ⟨_, rfl, .inl rfl⟩

theorem held_cons : held key (b :: log) = if key_of b = some key then !released b else held key log := by
  unfold held
  rw [List.find?_cons]
  by_cases hkey : key_of b = some key
  · simp [hkey]
  · simp [hkey]

theorem shift_held_other (hl : key_of b ≠ some .KEY_LSHIFT) (hr : key_of b ≠ some .KEY_RSHIFT) :
    shift_held (b :: log) = shift_held log := by
  unfold shift_held
  rw [held_cons, held_cons, if_neg hl, if_neg hr]

end

/-! ## One byte -/

def Key.is_shift (key : Key) : Prop := key = .KEY_LSHIFT ∨ key = .KEY_RSHIFT

namespace PhysicalConsole

variable {T : Type} [DecidableEq T] {s : PhysicalConsole T} {cur : T} {key : Key}

theorem vc_key_up_shift (h : key.is_shift) : s.vc_key_up cur key = { s with
    _current_mod_mask :=
      Function.update s._current_mod_mask cur (s._current_mod_mask cur &&& ~~~Shift) } := by
  rcases h with rfl | rfl <;> rfl

theorem vc_key_up_other (h : ¬key.is_shift) : s.vc_key_up cur key = s := by
  unfold vc_key_up Key.is_shift at *
  split <;> simp_all

theorem vc_key_down_shift (h : key.is_shift) : s.vc_key_down cur key = { s with
    _current_mod_mask :=
      Function.update s._current_mod_mask cur (s._current_mod_mask cur ||| Shift) } := by
  rcases h with rfl | rfl <;> rfl

theorem vc_key_down_other (h : ¬key.is_shift) : s.vc_key_down cur key = { s with
    _terminal := match characters key with
      | some c => Function.update s._terminal cur ((s._terminal cur).append_to_read_buffer
          (if s._current_mod_mask cur &&& Shift ≠ 0 then c.1 else c.2))
      | none => s._terminal } := by
  unfold vc_key_down Key.is_shift at *
  split
  · simp_all
  · simp_all
  · cases characters key <;> rfl

omit [DecidableEq T] in
/-- The flag of the alt key is all that changes. -/
theorem set_alt_spec (key : Key) (pressed : Bool) (s : PhysicalConsole T) :
    ∃ alt, s.set_alt key pressed = { s with _alt_pressed := alt } := by
  unfold set_alt
  split <;> exact ⟨_, rfl⟩

/-- A key that goes up changes the mask of the console that is shown, if anything. -/
theorem key_up_spec (hcur : s._current_vc = some cur) (key : Key) :
    (s.key_up key)._current_vc = some cur ∧ (s.key_up key)._terminal = s._terminal ∧
      (key.is_shift → (s.key_up key)._current_mod_mask = Function.update s._current_mod_mask cur
        (s._current_mod_mask cur &&& ~~~Shift)) ∧
      (¬key.is_shift → (s.key_up key)._current_mod_mask = s._current_mod_mask) := by
  obtain ⟨alt, halt⟩ := set_alt_spec key false s
  have hup : s.key_up key = ({ s with _alt_pressed := alt }).vc_key_up cur key := by
    unfold key_up
    rw [halt]
    simp only [hcur]
  rw [hup]
  by_cases hshift : key.is_shift
  · rw [vc_key_up_shift hshift]
    exact ⟨hcur, rfl, fun _ => rfl, fun h => absurd hshift h⟩
  · rw [vc_key_up_other hshift]
    exact ⟨hcur, rfl, fun h => absurd h hshift, fun _ => rfl⟩

/-- A key that goes down, and selects no console. -/
theorem key_down_spec (hcur : s._current_vc = some cur)
    (halt : s._alt_pressed → key ≠ .KEY_F1 ∧ key ≠ .KEY_F2) : ∃ t, s.key_down key = .ok t ∧
      t._current_vc = some cur ∧
      (key.is_shift → t._terminal = s._terminal ∧ t._current_mod_mask =
        Function.update s._current_mod_mask cur (s._current_mod_mask cur ||| Shift)) ∧
      (¬key.is_shift → t._current_mod_mask = s._current_mod_mask ∧
        t._terminal = match characters key with
          | some c => Function.update s._terminal cur ((s._terminal cur).append_to_read_buffer
              (if s._current_mod_mask cur &&& Shift ≠ 0 then c.1 else c.2))
          | none => s._terminal) := by
  obtain ⟨alt, hset⟩ := set_alt_spec key true s
  have hdown : s.key_down key = .ok (({ s with _alt_pressed := alt }).vc_key_down cur key) := by
    unfold key_down
    rw [if_neg fun h => (halt h.2).1 h.1, if_neg fun h => (halt h.2).2 h.1, hset]
    simp only [hcur]
  refine ⟨_, hdown, ?_⟩
  by_cases hshift : key.is_shift
  · rw [vc_key_down_shift hshift]
    exact ⟨hcur, fun _ => ⟨rfl, rfl⟩, fun h => absurd hshift h⟩
  · rw [vc_key_down_other hshift]
    exact ⟨hcur, fun h => absurd h hshift, fun _ => ⟨rfl, rfl⟩⟩

end PhysicalConsole

namespace Typing

variable {T : Type} [DecidableEq T] {s s' : Typing T} {b : UInt8} {cur vc : T} {key : Key}

/-- The key of the byte, as `key_of` has it. -/
structure Reads (b : UInt8) (key : Key) : Prop where
  eq : scancode_to_key b = .ok key
  shift : key.is_shift ↔ key_of b = some .KEY_LSHIFT ∨ key_of b = some .KEY_RSHIFT
  characters : (key_of b).bind characters = Keyboard.characters key

theorem exists_reads (h : key_scancode b ≠ 69) : ∃ key, Reads b key ∧
    (key_of b = some key ∨ (key_of b = none ∧ key = .UNKNOWN_KEY)) := by
  obtain ⟨key, heq, hkey⟩ := scancode_to_key_spec h
  refine ⟨key, ⟨heq, ?_, ?_⟩, hkey⟩
  · obtain hkey | ⟨hnone, rfl⟩ := hkey
    · simp [hkey, Key.is_shift]
    · simp [hnone, Key.is_shift]
  · obtain hkey | ⟨hnone, rfl⟩ := hkey
    · rw [hkey]
      rfl
    · rw [hnone]
      rfl

omit [DecidableEq T] in
/-- A shift key goes up, and the other one is not held. -/
theorem shift_held_up (h : Regular s b) (hup : released b)
    (hshift : key_of b = some .KEY_LSHIFT ∨ key_of b = some .KEY_RSHIFT) :
    shift_held (b :: s.log) = false := by
  unfold shift_held
  obtain hkey | hkey := hshift
  · simp [held_cons, hkey, hup, h.left hup hkey]
  · simp [held_cons, hkey, hup, h.right hup hkey]

omit [DecidableEq T] in
theorem shift_held_down (hdown : released b = false)
    (hshift : key_of b = some .KEY_LSHIFT ∨ key_of b = some .KEY_RSHIFT) :
    shift_held (b :: s.log) = true := by
  unfold shift_held
  obtain hkey | hkey := hshift
  · simp [held_cons, hkey, hdown]
  · simp [held_cons, hkey, hdown]

omit [DecidableEq T] in
theorem Reads.shift_held_other (hr : Reads b key) (hs : ¬key.is_shift) :
    shift_held (b :: s.log) = shift_held s.log := by
  have hno := fun h => hs (hr.shift.mpr h)
  exact Drivers.shift_held_other (fun h => hno (.inl h)) fun h => hno (.inr h)

theorem deliver_up (hinv : Inv s) (h : Regular s b) (hr : Reads b key) (hup : released b) :
    ∃ s', s.deliver b = .ok s' ∧ Inv s' ∧ Follows s b s' := by
  obtain ⟨cur, hcur, hmask⟩ := hinv
  obtain ⟨hcur', hterminal, hshift, hother⟩ := PhysicalConsole.key_up_spec hcur key
  refine ⟨⟨s.console.key_up key, b :: s.log⟩, ?_, ⟨cur, hcur', fun vc => ?_⟩, ?_⟩
  · unfold deliver PhysicalConsole.handle_key_event
    rw [hr.eq]
    simp only [bind, Except.bind, pure, Except.pure, hup, if_true]
  · by_cases hs : key.is_shift
    · show (s.console.key_up key)._current_mod_mask vc =
        if vc = cur ∧ shift_held (b :: s.log) then Shift else 0
      rw [hshift hs, shift_held_up h hup (hr.shift.mp hs), Function.update_apply, hmask, hmask]
      split_ifs <;> simp_all
    · show (s.console.key_up key)._current_mod_mask vc =
        if vc = cur ∧ shift_held (b :: s.log) then Shift else 0
      rw [hother hs, hr.shift_held_other hs, hmask]
  · unfold Follows character
    rw [hup]
    exact hterminal

/-- A console is selected, with no shift key held unless it is the same one. -/
theorem deliver_select (hinv : Inv s) (hr : Reads b key) (hdown : released b = false) {i : ℕ}
    (hs : ¬key.is_shift) (hc : characters key = none)
    (hkey : s.console.key_down key = s.console.select i) (hvc : s.console._vcs[i]? = some vc)
    (hheld : s.console._current_vc = some vc ∨ ¬shift_held s.log) :
    ∃ s', s.deliver b = .ok s' ∧ Inv s' ∧ Follows s b s' := by
  obtain ⟨cur, hcur, hmask⟩ := hinv
  refine ⟨⟨{ s.console with _current_vc := some vc }, b :: s.log⟩, ?_, ⟨vc, rfl, fun vc' => ?_⟩, ?_⟩
  · unfold deliver PhysicalConsole.handle_key_event
    rw [hr.eq]
    simp only [bind, Except.bind, pure, Except.pure, hdown, hkey, PhysicalConsole.select, hvc]
    rfl
  · show s.console._current_mod_mask vc' = if vc' = vc ∧ shift_held (b :: s.log) then Shift else 0
    rw [hr.shift_held_other hs, hmask]
    obtain hsame | hno := hheld
    · cases hcur.symm.trans hsame
      rfl
    · simp [hno]
  · unfold Follows character
    rw [hdown, hr.characters, hc]
    rfl

theorem deliver_down (hinv : Inv s) (hr : Reads b key) (hdown : released b = false)
    (halt : s.console._alt_pressed → key ≠ .KEY_F1 ∧ key ≠ .KEY_F2) :
    ∃ s', s.deliver b = .ok s' ∧ Inv s' ∧ Follows s b s' := by
  obtain ⟨cur, hcur, hmask⟩ := hinv
  obtain ⟨t, ht, hcur', hshift, hother⟩ := PhysicalConsole.key_down_spec hcur halt
  refine ⟨⟨t, b :: s.log⟩, ?_, ⟨cur, hcur', fun vc => ?_⟩, ?_⟩
  · unfold deliver PhysicalConsole.handle_key_event
    rw [hr.eq]
    simp only [bind, Except.bind, pure, Except.pure, hdown, ht]
    rfl
  · show t._current_mod_mask vc = if vc = cur ∧ shift_held (b :: s.log) then Shift else 0
    by_cases hs : key.is_shift
    · rw [(hshift hs).2, shift_held_down hdown (hr.shift.mp hs), Function.update_apply, hmask, hmask]
      split_ifs <;> simp_all
    · rw [(hother hs).1, hr.shift_held_other hs, hmask]
  · unfold Follows character
    rw [hdown, hr.characters, hcur]
    show t._terminal = _
    by_cases hs : key.is_shift
    · rw [(hshift hs).1]
      obtain rfl | rfl := hs <;> rfl
    · rw [(hother hs).2, hmask]
      cases hc : characters key with
      | none => rfl
      | some c => cases shift_held s.log <;> simp [Shift]

theorem deliver_spec (hinv : Inv s) (h : Regular s b) :
    ∃ s', s.deliver b = .ok s' ∧ Inv s' ∧ Follows s b s' := by
  obtain ⟨key, hr, hkey⟩ := exists_reads h.inside
  cases hup : released b with
  | true => exact deliver_up hinv h hr hup
  | false =>
    by_cases halt : s.console._alt_pressed → key ≠ .KEY_F1 ∧ key ≠ .KEY_F2
    · exact deliver_down hinv hr hup halt
    · obtain ⟨hpressed, hkeys⟩ := Classical.not_imp.mp halt
      have hselect := h.select (by simp [hup]) hpressed
      by_cases h1 : key = .KEY_F1
      · subst h1
        have hk : key_of b = some .KEY_F1 := hkey.resolve_right fun h => by simp at h
        obtain ⟨vc, hvc, hheld⟩ := hselect 0 (.inl ⟨hk, rfl⟩)
        exact deliver_select hinv hr hup (by simp [Key.is_shift]) rfl (if_pos ⟨rfl, hpressed⟩) hvc hheld
      · obtain rfl : key = .KEY_F2 := by
          by_contra h2
          exact hkeys ⟨h1, h2⟩
        have hk : key_of b = some .KEY_F2 := hkey.resolve_right fun h => by simp at h
        obtain ⟨vc, hvc, hheld⟩ := hselect 1 (.inr ⟨hk, rfl⟩)
        have hdown : s.console.key_down .KEY_F2 = s.console.select 1 :=
          (if_neg fun h => h1 h.1).trans (if_pos ⟨rfl, hpressed⟩)
        exact deliver_select hinv hr hup (by simp [Key.is_shift]) rfl hdown hvc hheld

theorem inv_start (h : Start s) : Inv s := by
  obtain ⟨cur, hcur⟩ := Option.isSome_iff_exists.mp h.current
  refine ⟨cur, hcur, fun vc => ?_⟩
  rw [h.mask, h.log]
  simp [shift_held, held]

/-- In a run of such bytes, and with one more of them, every access to the table is inside, and the
terminal gets the character that the shift keys say. -/
theorem typing_follows (hs : (system (T := T) Regular).Reachable s) (hb : Regular s b) :
    ∃ s', s.deliver b = .ok s' ∧ Follows s b s' := by
  have hinv : Inv s := hs.preserves (fun _ => inv_start) fun s c t h hc ht => by
    obtain ⟨t', ht', hinv, -⟩ := deliver_spec h hc
    cases ht.symm.trans ht'
    exact hinv
  obtain ⟨s', hs', -, hfollows⟩ := deliver_spec hinv hb
  exact ⟨s', hs', hfollows⟩

/-! ## Two consoles -/

/-- The first one of two consoles is shown. -/
def boot : Typing Bool :=
  ⟨⟨[false, true], some false, false, fun _ => 0, fun _ => .new fun _ => 0⟩, []⟩

theorem start_boot : Start boot := ⟨rfl, rfl, fun _ => rfl⟩

/-- The left shift key is pressed, and then the key of the letter. -/
theorem typing_follows_letter : ∃ s s', (system Regular).Run boot [0x2a] s ∧
    s.deliver 0x1e = .ok s' ∧ Follows s 0x1e s' := by
  have hregular : ∀ (s : Typing Bool) (b : UInt8), key_scancode b ≠ 69 → released b = false →
      s.console._alt_pressed = false → Regular s b := fun s b h hb ha =>
    ⟨h, fun h => absurd h (by simp [hb]), fun h => absurd h (by simp [hb]),
      fun _ h => absurd h (by simp [ha])⟩
  have hr : ∃ s, (system Regular).Run boot [0x2a] s ∧ s.console._alt_pressed = false :=
    ⟨_, .cons (hregular _ _ (by decide) (by decide) rfl) rfl (.nil _), rfl⟩
  obtain ⟨s, hrun, halt⟩ := hr
  obtain ⟨s', hs', hfollows⟩ := typing_follows ⟨boot, [0x2a], start_boot, hrun⟩
    (hregular s 0x1e (by decide) (by decide) halt)
  exact ⟨s, s', hrun, hs', hfollows⟩

/-- The byte `0x45` is looked up behind the table. And the letter is small after both shift keys were
pressed and one of them was released. -/
theorem not_follows : ¬(∀ s b, (system (T := Bool) fun _ _ => True).Reachable s →
    ∃ s', s.deliver b = .ok s') ∧
    ¬∀ s b s', (system (T := Bool) fun _ _ => True).Reachable s → s.deliver b = .ok s' →
      Follows s b s' := by
  constructor
  · intro h
    obtain ⟨s', hs'⟩ := h boot 0x45 (.of_start start_boot)
    cases hs'
  · intro h
    have hr : ∃ s s', (system fun _ _ => True).Run boot [0x2a, 0x36, 0xb6] s ∧
        s.deliver 0x1e = .ok s' ∧ (s'.console._terminal false)._read_buffer 0 = 97 ∧
        (Follows s 0x1e s' → (s'.console._terminal false)._read_buffer 0 = 65) :=
      ⟨_, _, .cons trivial rfl (.cons trivial rfl (.cons trivial rfl (.nil _))), rfl, rfl,
        fun h => (congrArg (fun t => (t false)._read_buffer 0) h).trans rfl⟩
    obtain ⟨s, s', hrun, hs', hsmall, hfollows⟩ := hr
    have hlarge := hfollows (h s 0x1e s' ⟨boot, _, start_boot, hrun⟩ hs')
    exact absurd (hsmall.symm.trans hlarge) (by decide)

end Typing

end Infos.Drivers
