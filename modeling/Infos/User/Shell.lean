import Infos.Lib.System
import Infos.User.Strings
import Mathlib.Data.Int.Notation

/-!
# The shell

The lines that are typed into `infos-user/src/shell/shell.cpp`, and the commands that it keeps for
the arrow keys.
-/

open Infos.Util

namespace Infos.User

def MaxHistoryNumber : ℤ := 15
def UpArrow : UInt8 := 17
def DownArrow : UInt8 := 18

inductive Fault where
  | outOfRange
  deriving DecidableEq, Repr

/-- `exited` is set when `main` has returned. -/
structure Shell where
  commandHistory : List (List UInt8)
  historyIndex : ℤ
  historyNumber : ℤ
  command_buffer : List UInt8
  n : ℕ
  checkHistoryIndex : ℤ
  exited : Bool
  deriving DecidableEq, Repr

/-- Every turn looks at the first character of the destination. -/
def strcpy_loop (src : List UInt8) : (size i : ℕ) → (dest : List UInt8) → List UInt8
  | 0, _, dest => dest
  | size + 1, i, dest =>
    if dest.headD 0 ≠ 0 then strcpy_loop src size (i + 1) (dest.set i (src.getD i 0)) else dest

def strcpy (src dest : List UInt8) (size : ℕ) : List UInt8 := strcpy_loop src size 0 dest

namespace Shell

def entry (s : Shell) (index : ℤ) : Except Fault (List UInt8) :=
  if 0 ≤ index ∧ index < MaxHistoryNumber then .ok (s.commandHistory.getD index.toNat [])
  else .error .outOfRange

/-! ## Running a command -/

/-- What `exec` is called with. -/
structure Program where
  prog : List UInt8
  args : List UInt8
  deriving DecidableEq, Repr

def program (cmd : List UInt8) : Program :=
  let prog := (cmd.takeWhile fun c => c ≠ 0 ∧ c ≠ 32).take 63
  let rest := cmd.drop prog.length
  ⟨if prog.length < 63 - 5 ∧ prog.headD 0 ≠ 47 then [47, 117, 115, 114, 47] ++ prog else prog,
    text (if rest.headD 0 ≠ 0 then rest.tail else rest)⟩

/-- The path and its zero fit into the 64 characters of `prog`. -/
theorem program_fits (cmd : List UInt8) : (program cmd).prog.length < 64 := by
  unfold program
  dsimp only
  have htake := List.length_take_le 63 (cmd.takeWhile fun c => c ≠ 0 ∧ c ≠ 32)
  split
  next h =>
    have hshort := h.1
    simp only [List.length_append, List.length_cons, List.length_nil]
    omega
  next => omega

def run_command (cmd : List UInt8) (s : Shell) : Except Fault (Program × Shell) := do
  let historyIndex := s.historyIndex + 1
  let index := if historyIndex = 15 then 0 else historyIndex
  let entry ← s.entry index
  pure (program cmd, { s with
    commandHistory := s.commandHistory.set index.toNat (strcpy cmd entry 128)
    historyIndex := historyIndex
    historyNumber := s.historyNumber + 1 })

/-! ## Typing a line -/

def index (s : Shell) : ℤ :=
  let index := s.historyIndex - s.checkHistoryIndex
  if index ≥ MaxHistoryNumber then index - MaxHistoryNumber else index

/-- The text that is printed and goes into the line. -/
def show_entry (s : Shell) : Except Fault (Shell × Option (List UInt8)) := do
  let entry ← s.entry s.index
  pure ({ s with command_buffer := strcpy entry s.command_buffer 128 }, some (text entry))

def up (s : Shell) : Except Fault (Shell × Option (List UInt8)) :=
  if s.historyNumber = 0 then pure (s, none)
  else
    let s := { s with checkHistoryIndex := s.checkHistoryIndex + 1 }
    if s.checkHistoryIndex ≤ s.historyNumber then
      show_entry (if s.checkHistoryIndex = MaxHistoryNumber then
        { s with checkHistoryIndex := s.checkHistoryIndex - 1 } else s)
    else pure (s, none)

def down (s : Shell) : Except Fault (Shell × Option (List UInt8)) :=
  if s.historyNumber = 0 then pure (s, none)
  else
    let s := { s with checkHistoryIndex := s.checkHistoryIndex - 1 }
    if s.checkHistoryIndex ≥ 0 then
      show_entry (if s.checkHistoryIndex = 0 then
        { s with checkHistoryIndex := s.checkHistoryIndex + 1 } else s)
    else pure (s, none)

/-- A turn of the inner loop, with a character that does not end the line. -/
def press (s : Shell) (c : UInt8) : Except Fault (Shell × Option (List UInt8)) :=
  if c = 0 then pure (s, none)
  else if c = 8 then
    if s.n > 0 then
      pure ({ s with n := s.n - 1, command_buffer := s.command_buffer.set (s.n - 1) 0 }, none)
    else pure (s, none)
  else
    let s := { s with command_buffer := s.command_buffer.set s.n c, n := s.n + 1 }
    if c = UpArrow then s.up
    else if c = DownArrow then s.down
    else pure (s, none)

/-- `command_buffer` is a new one, with whatever is there. -/
def prompt (s : Shell) (command_buffer : List UInt8) : Shell :=
  { s with command_buffer := command_buffer, n := 0, checkHistoryIndex := 0 }

def exit : List UInt8 := [101, 120, 105, 116]

/-- What comes behind the inner loop. -/
def line (s : Shell) (command_buffer : List UInt8) : Except Fault Shell :=
  if s.n = 0 then pure (s.prompt command_buffer)
  else
    let s := { s with command_buffer := s.command_buffer.set s.n 0 }
    if strcmp (exit ++ [0]) s.command_buffer = 0 then pure { s with exited := true }
    else do
      let (_, s) ← run_command s.command_buffer s
      pure (s.prompt command_buffer)

/-- The line is a command for `run_command`. -/
def Runs (s : Shell) : Prop :=
  s.n ≠ 0 ∧ strcmp (exit ++ [0]) (s.command_buffer.set s.n 0) ≠ 0

instance (s : Shell) : Decidable s.Runs := inferInstanceAs (Decidable (_ ∧ _))

def start (command_buffer : List UInt8) : Shell where
  commandHistory := List.replicate MaxHistoryNumber.toNat (List.replicate 128 0)
  historyIndex := -1
  historyNumber := 0
  command_buffer := command_buffer
  n := 0
  checkHistoryIndex := 0
  exited := false

end Shell

/-! ## Sessions -/

/-- The shell, with the commands that it has run, the most recent one first, and how many steps
back from the prompt the arrow keys have gone. -/
structure Session where
  shell : Shell
  ran : List (List UInt8)
  back : ℕ
  deriving DecidableEq, Repr

/-- `getch` returns a character in the inner loop, or that loop is over. -/
inductive Call where
  | getch (c : UInt8)
  | line (command_buffer : List UInt8)
  deriving DecidableEq, Repr

namespace Session

def steps_back (back : ℕ) (c : UInt8) : ℕ :=
  if c = UpArrow then back + 1 else if c = DownArrow then back - 1 else back

def step (s : Session) : Call → Except Fault Session
  | .getch c => (s.shell.press c).map fun r => { s with
      shell := r.1
      back := steps_back s.back c }
  | .line command_buffer => (s.shell.line command_buffer).map fun shell =>
      { shell := shell
        ran := if s.shell.Runs then text (s.shell.command_buffer.set s.shell.n 0) :: s.ran
          else s.ran
        back := 0 }

/-- A line ends with a newline or when there is no more room for it. -/
def system : System Session Call Fault where
  start s := ∃ command_buffer, command_buffer.length = 128 ∧ s = ⟨.start command_buffer, [], 0⟩
  allowed s c := s.shell.exited = false ∧
    match c with
    | .getch c => s.shell.n < 127 ∧ c ≠ 10
    | .line command_buffer => command_buffer.length = 128
  step := step

/-- Every index is inside of `commandHistory`, and the arrow keys show the commands. -/
structure Kept (s : Session) (c : Call) : Prop where
  inside : s.step c ≠ .error .outOfRange
  shown : ∀ key, c = .getch key → key = UpArrow ∨ key = DownArrow →
    1 ≤ steps_back s.back key → steps_back s.back key ≤ 14 →
      steps_back s.back key ≤ s.ran.length →
        (s.shell.press key).map Prod.snd = .ok s.ran[steps_back s.back key - 1]?

/-- Nobody presses the up key behind a command, and there are at most 16 commands. -/
def Sparing (s : Session) : Call → Prop
  | .getch c => c = UpArrow → s.ran = []
  | .line _ => s.shell.Runs → s.ran.length < 16

end Session

/-! ## The history stays empty -/

variable {src dest : List UInt8}

/-- What begins with a zero is not written to. -/
theorem strcpy_zero (h : dest.headD 0 = 0) (size : ℕ) : strcpy src dest size = dest := by
  unfold strcpy
  cases size with
  | zero => rfl
  | succ size => rw [strcpy_loop, if_neg (not_not.mpr h)]

namespace Shell

variable {s t : Shell} {cmd : List UInt8} {c : UInt8}

/-- Nothing has ever been written to the history. -/
def Blank (s : Shell) : Prop :=
  s.commandHistory = List.replicate MaxHistoryNumber.toNat (List.replicate 128 0)

theorem entry_blank (h : s.Blank) (index : ℤ) : s.entry index =
    if 0 ≤ index ∧ index < 15 then .ok (List.replicate 128 0) else .error .outOfRange := by
  unfold entry
  rw [show MaxHistoryNumber = 15 from rfl]
  split
  next hin =>
    have hlt : index.toNat < MaxHistoryNumber.toNat := show index.toNat < 15 by omega
    rw [h, List.getD_eq_getElem?_getD, List.getElem?_replicate_of_lt hlt]
    rfl
  next => rfl

/-- An empty text is shown, if any. -/
theorem show_entry_blank (h : s.Blank) {shown : Option (List UInt8)} (hr : s.show_entry = .ok (t, shown)) :
    shown = some [] := by
  unfold show_entry at hr
  rw [entry_blank h] at hr
  split at hr
  · cases hr
    rfl
  · cases hr

theorem run_command_blank (h : s.Blank) (hnext : s.historyIndex = s.historyNumber - 1)
    (h0 : 0 ≤ s.historyNumber) (cmd : List UInt8) : run_command cmd s =
      if s.historyNumber < 16 then .ok (program cmd, { s with
        historyIndex := s.historyIndex + 1
        historyNumber := s.historyNumber + 1 })
      else .error .outOfRange := by
  unfold run_command
  dsimp only
  rw [entry_blank h]
  by_cases hlt : s.historyNumber < 16
  · rw [if_pos hlt, if_pos (by split <;> omega)]
    have hset (i : ℕ) : s.commandHistory.set i (strcpy cmd (List.replicate 128 0) 128) =
        s.commandHistory := by
      rw [strcpy_zero rfl, h, List.set_replicate_self]
    simp only [bind, Except.bind, pure, Except.pure, hset]
  · rw [if_neg hlt, if_neg (by split <;> omega)]
    rfl

/-- What is typed into a line that is not full. -/
structure Typed (s t : Shell) : Prop where
  history : t.commandHistory = s.commandHistory
  index : t.historyIndex = s.historyIndex
  number : t.historyNumber = s.historyNumber
  check : t.checkHistoryIndex ≤ 0
  room : t.n ≤ 127
  buffer : t.command_buffer.length = 128

theorem typed_put (hn : s.n < 127) (hbuffer : s.command_buffer.length = 128) {i : ℤ} (hi : i ≤ 0)
    (c : UInt8) : s.Typed { s with
      command_buffer := s.command_buffer.set s.n c
      n := s.n + 1
      checkHistoryIndex := i } :=
  ⟨rfl, rfl, rfl, hi, hn, by simpa using hbuffer⟩

/-- The down key does nothing from the prompt, nor does the up key before there is a command. -/
theorem press_quiet (hcheck : s.checkHistoryIndex ≤ 0) (hn : s.n < 127)
    (hbuffer : s.command_buffer.length = 128) (hup : c = UpArrow → s.historyNumber = 0) :
    ∃ t, s.press c = .ok (t, none) ∧ s.Typed t := by
  unfold press
  split
  next => exact ⟨s, rfl, rfl, rfl, rfl, hcheck, by omega, hbuffer⟩
  next =>
    split
    next =>
      split
      next => exact ⟨_, rfl, rfl, rfl, rfl, hcheck, by dsimp only; omega, by simpa using hbuffer⟩
      next => exact ⟨s, rfl, rfl, rfl, rfl, hcheck, by omega, hbuffer⟩
    next =>
      have hput := typed_put hn hbuffer hcheck c
      dsimp only
      split
      next hc =>
        unfold up
        rw [if_pos (hup hc)]
        exact ⟨_, rfl, hput⟩
      next =>
        split
        next =>
          unfold down
          split
          next => exact ⟨_, rfl, hput⟩
          next =>
            have hback : s.checkHistoryIndex - 1 < 0 := by omega
            dsimp only
            rw [if_neg (by omega)]
            exact ⟨_, rfl, typed_put hn hbuffer (Int.le_of_lt hback) c⟩
        next => exact ⟨_, rfl, hput⟩

/-- With a command behind it, the first step back shows an empty text, or none. -/
theorem press_up (h : s.Blank) (hcheck : s.checkHistoryIndex ≤ 0) (hpos : 0 < s.historyNumber)
    {shown : Option (List UInt8)} (hpress : (s.press UpArrow).map Prod.snd = .ok shown) :
    shown = some [] := by
  obtain ⟨⟨t, _⟩, ht, rfl⟩ := map_eq_ok hpress
  unfold press up at ht
  rw [if_neg (by decide), if_neg (by decide), if_pos rfl] at ht
  dsimp only at ht
  rw [if_neg (by omega), if_pos (by omega)] at ht
  refine show_entry_blank ?_ ht
  split
  · exact h
  · exact h

/-! ## The end of a line -/

theorem line_runs (h : s.Blank) (hnext : s.historyIndex = s.historyNumber - 1)
    (h0 : 0 ≤ s.historyNumber) (hruns : s.Runs) (command_buffer : List UInt8) :
    s.line command_buffer = if s.historyNumber < 16 then .ok { s with
        historyIndex := s.historyIndex + 1
        historyNumber := s.historyNumber + 1
        command_buffer := command_buffer
        n := 0
        checkHistoryIndex := 0 }
      else .error .outOfRange := by
  have hrun := run_command_blank (s := { s with command_buffer := s.command_buffer.set s.n 0 })
    h hnext h0
  unfold line
  dsimp only at hrun ⊢
  rw [if_neg hruns.1, if_neg hruns.2, hrun]
  split
  · rfl
  · rfl

theorem line_quiet (hcheck : s.checkHistoryIndex ≤ 0) (hn : s.n ≤ 127)
    (hbuffer : s.command_buffer.length = 128) (hruns : ¬s.Runs) {command_buffer : List UInt8}
    (hnew : command_buffer.length = 128) : ∃ t, s.line command_buffer = .ok t ∧ s.Typed t := by
  unfold line
  dsimp only
  split
  next => exact ⟨_, rfl, rfl, rfl, rfl, Int.le_refl 0, Nat.zero_le 127, hnew⟩
  next hpos =>
    rw [if_pos (not_not.mp fun h => hruns ⟨hpos, h⟩)]
    exact ⟨_, rfl, rfl, rfl, rfl, hcheck, hn, by simpa using hbuffer⟩

/-- The shell is left with `exit`, with what `exit` begins with and with what begins with it. -/
theorem runs_iff (hn : s.n < s.command_buffer.length) : s.Runs ↔
    s.n ≠ 0 ∧ ¬(exit <+: text (s.command_buffer.set s.n 0) ∨
      text (s.command_buffer.set s.n 0) <+: exit) := by
  have hmem : 0 ∈ s.command_buffer.set s.n 0 :=
    List.mem_iff_getElem.mpr ⟨s.n, by simpa using hn, by simp⟩
  obtain ⟨t, rest, ht, hno⟩ := List.eq_append_cons_of_mem hmem
  unfold Runs
  rw [ht, text_append_zero hno, ← strcmp_eq_zero (by decide) hno]

end Shell

namespace Session

open Shell

variable {s t : Session} {key : UInt8} {command_buffer : List UInt8}

/-- What holds as long as the user is sparing. -/
structure Good (s : Session) : Prop where
  blank : s.shell.Blank
  number : s.shell.historyNumber = s.ran.length
  index : s.shell.historyIndex = s.shell.historyNumber - 1
  check : s.shell.checkHistoryIndex ≤ 0
  room : s.shell.n ≤ 127
  buffer : s.shell.command_buffer.length = 128
  back : s.ran ≠ [] → s.back = 0
  texts : [] ∉ s.ran

theorem good_start (h : system.start s) : Good s := by
  obtain ⟨command_buffer, hlen, rfl⟩ := h
  exact ⟨rfl, rfl, rfl, Int.le_refl 0, Nat.zero_le 127, hlen, fun h => absurd rfl h, List.not_mem_nil⟩

theorem Good.typed (h : Good s) {shell : Shell} {back : ℕ} (ht : s.shell.Typed shell)
    (hback : s.ran ≠ [] → back = 0) : Good { s with shell := shell, back := back } where
  blank := ht.history.trans h.blank
  number := ht.number.trans h.number
  index := by rw [ht.index, ht.number, h.index]
  check := ht.check
  room := ht.room
  buffer := ht.buffer
  back := hback
  texts := h.texts

/-- Behind a command, nobody goes back. -/
theorem Good.steps_back (h : Good s) (hkey : Sparing s (.getch key)) (hran : s.ran ≠ []) :
    steps_back s.back key = 0 := by
  unfold Session.steps_back
  rw [h.back hran, if_neg fun hup => hran (hkey hup)]
  split <;> rfl

theorem Good.getch (h : Good s) (hn : s.shell.n < 127) (hkey : Sparing s (.getch key)) :
    ∃ t, s.step (.getch key) = .ok t ∧ Good t := by
  obtain ⟨shell, hpress, ht⟩ := press_quiet h.check hn h.buffer fun hup => by
    rw [h.number, hkey hup, List.length_nil, Int.natCast_zero]
  refine ⟨_, ?_, h.typed ht fun hran => h.steps_back hkey hran⟩
  simp only [step, hpress]
  rfl

theorem getch_kept_iff (h : Good s) (hn : s.shell.n < 127) :
    Kept s (.getch key) ↔ Sparing s (.getch key) := by
  constructor
  · rintro hkept rfl
    by_contra hran
    have hpos : 0 < s.ran.length := List.length_pos_of_ne_nil hran
    have hone : Session.steps_back s.back UpArrow = 1 := by
      rw [h.back hran]
      rfl
    have hshown := hkept.shown UpArrow rfl (.inl rfl)
    rw [hone] at hshown
    have hnil := press_up h.blank h.check (by rw [h.number]; omega)
      (hshown (by omega) (by omega) hpos)
    exact h.texts (List.mem_of_getElem? hnil)
  · intro hkey
    obtain ⟨t, ht, -⟩ := h.getch hn hkey
    refine ⟨fun herror => ?_, ?_⟩
    · cases ht.symm.trans herror
    · rintro _ ⟨⟩ - h1 - hlen
      have hran : s.ran ≠ [] := List.ne_nil_of_length_pos (Nat.le_trans h1 hlen)
      rw [h.steps_back hkey hran] at h1
      exact absurd h1 (by decide)

/-- A command that is run is not the empty text. -/
theorem Good.text_ne_nil (h : Good s) (hruns : s.shell.Runs) :
    [] ≠ text (s.shell.command_buffer.set s.shell.n 0) := fun hnil => by
  have hlt : s.shell.n < s.shell.command_buffer.length := by
    have hroom := h.room
    rw [h.buffer]
    omega
  refine ((runs_iff hlt).mp hruns).2 (.inr ?_)
  rw [← hnil]
  exact List.nil_prefix

theorem Good.line (h : Good s) (hnew : command_buffer.length = 128)
    (hfew : Sparing s (.line command_buffer)) :
    ∃ t, s.step (.line command_buffer) = .ok t ∧ Good t := by
  simp only [step]
  by_cases hruns : s.shell.Runs
  · have hlt : s.shell.historyNumber < 16 := by
      have := hfew hruns
      rw [h.number]
      omega
    rw [line_runs h.blank h.index (by rw [h.number]; omega) hruns, if_pos hlt]
    refine ⟨_, rfl, h.blank, ?_, ?_, Int.le_refl 0, Nat.zero_le 127, hnew, fun _ => rfl, ?_⟩
    · simp [hruns, h.number]
    · simp only [h.index]
      omega
    · simpa [hruns, h.texts] using h.text_ne_nil hruns
  · obtain ⟨shell, hline, ht⟩ := line_quiet h.check h.room h.buffer hruns hnew
    rw [hline, if_neg hruns]
    exact ⟨_, rfl, h.typed ht fun _ => rfl⟩

theorem line_kept_iff (h : Good s) (hnew : command_buffer.length = 128) :
    Kept s (.line command_buffer) ↔ Sparing s (.line command_buffer) := by
  constructor
  · intro hkept hruns
    by_contra hmany
    have hno : ¬s.shell.historyNumber < 16 := by
      rw [h.number]
      omega
    refine hkept.inside ?_
    simp only [step]
    rw [line_runs h.blank h.index (by rw [h.number]; omega) hruns, if_neg hno]
    rfl
  · intro hfew
    obtain ⟨t, ht, -⟩ := h.line hnew hfew
    refine ⟨fun herror => ?_, fun _ hkey => ?_⟩
    · cases ht.symm.trans herror
    · cases hkey

theorem kept_iff {c : Call} (h : Good s) (hc : system.allowed s c) : Kept s c ↔ Sparing s c := by
  cases c with
  | getch key => exact getch_kept_iff h hc.2.1
  | line command_buffer => exact line_kept_iff h hc.2

theorem Good.step {c : Call} (h : Good s) (hc : system.allowed s c) (hs : Sparing s c)
    (hstep : s.step c = .ok t) : Good t := by
  have hnext : ∃ t, s.step c = .ok t ∧ Good t := by
    cases c with
    | getch key => exact h.getch hc.2.1 hs
    | line command_buffer => exact h.line hc.2 hs
  obtain ⟨u, hu, hgood⟩ := hnext
  cases hstep.symm.trans hu
  exact hgood

/-- The history is kept in the sessions in which it is never used. -/
theorem history_kept_iff (hs : system.start s) (cs : List Call) :
    system.Each Kept s cs ↔ system.Each Sparing s cs :=
  System.each_iff (good_start hs) (fun _ _ h hc => kept_iff h hc)
    fun _ _ _ h hc hsparing hstep => h.step hc hsparing hstep

/-- A command, and the down key. -/
theorem history_kept_iff_down : system.Each Kept ⟨.start (List.replicate 128 7), [], 0⟩
    [.getch 108, .line (List.replicate 128 7), .getch DownArrow] := by
  refine (history_kept_iff ⟨_, rfl, rfl⟩ _).mpr fun _ => ⟨nofun, ?_⟩
  rintro _ ⟨⟩ -
  refine ⟨fun _ => by decide, ?_⟩
  rintro _ ⟨⟩ -
  exact ⟨nofun, fun _ _ => trivial⟩

/-- A command, and the up key. -/
theorem command_not_shown : ∃ s, system.start s ∧
    ¬system.Each Kept s [.getch 108, .line (List.replicate 128 7), .getch UpArrow] := by
  refine ⟨⟨.start (List.replicate 128 7), [], 0⟩, ⟨_, rfl, rfl⟩, fun h => ?_⟩
  have htyped := (h ⟨rfl, by decide, by decide⟩).2 _ rfl
  have hran := (htyped ⟨rfl, rfl⟩).2 _ rfl
  exact (hran ⟨rfl, by decide, by decide⟩).1.inside rfl

end Session

end Infos.User
