import Infos.Drivers.VirtualConsole
import Infos.Lib.Loop
import Mathlib.Data.List.GetD
import Mathlib.Data.List.Induction

/-!
# One call of `VirtualConsole::write` or two

The index of the loop has 32 bits, and the size has 64. What a call knows of an escape sequence is
gone when it returns.
-/

namespace Infos.Drivers.VirtualConsole

/-- The variables of `write` between two turns of its loop. -/
structure Turn where
  i : UInt32
  e : Escape
  vc : VirtualConsole

def Escape.initial : Escape := ⟨0x0700, 0⟩

/-- The loop of `write`, as it stands. -/
def turn (buffer : List UInt8) : Loop Turn VirtualConsole := fun s =>
  if s.i.toNat < buffer.length then
    let (e, vc) := s.vc.write_byte (buffer.getD s.i.toNat 0) s.e
    .inl ⟨s.i + 1, e, vc⟩
  else .inr s.vc

/-- `write` comes back, and leaves `vc'`. -/
def Leaves (buffer : List UInt8) (vc vc' : VirtualConsole) : Prop :=
  if vc._buffer.isNone then vc' = vc else (turn buffer).Ends ⟨0, .initial, vc⟩ vc'

/-- The parts of `write` that do not look at the console. -/
def Escape.step (c : UInt8) (e : Escape) : Escape :=
  let e := e.next c
  if e.state = 0 ∧ c = 27 then { e with state := 1 } else e

/-- What the text leaves the parser with. -/
def Escape.scan (bytes : List UInt8) (e : Escape) : Escape := bytes.foldl (fun e c => e.step c) e

variable {a b bytes buffer : List UInt8} {c : UInt8} {e : Escape} {vc vc' : VirtualConsole}

/-! ## The index -/

theorem turn_next {i : UInt32} (hi : i.toNat < buffer.length) :
    turn buffer ⟨i, e, vc⟩ = .inl ⟨i + 1, (vc.write_byte (buffer.getD i.toNat 0) e).1,
      (vc.write_byte (buffer.getD i.toNat 0) e).2⟩ := if_pos hi

theorem ends_of_short (hlen : buffer.length < 2 ^ 32) {i : UInt32} (hi : i.toNat ≤ buffer.length) :
    (turn buffer).Ends ⟨i, e, vc⟩ (vc.write_loop (buffer.drop i.toNat) e) := by
  induction hn : buffer.length - i.toNat generalizing i e vc with
  | zero =>
    rw [List.drop_of_length_le (by omega)]
    exact .leave (if_neg (Nat.not_lt.mpr (Nat.le_of_sub_eq_zero hn)))
  | succ n ih =>
    have hlt : i.toNat < buffer.length := by omega
    have hnext : (i + 1).toNat = i.toNat + 1 := by
      rw [UInt32.toNat_add, show (1 : UInt32).toNat = 1 from rfl, Nat.mod_eq_of_lt (by omega)]
    rw [List.drop_eq_getElem_cons hlt]
    refine .turn (turn_next hlt) ?_
    rw [List.getD_eq_getElem _ _ hlt]
    show (turn buffer).Ends _
      ((vc.write_byte buffer[i.toNat] e).2.write_loop _ (vc.write_byte buffer[i.toNat] e).1)
    rw [← hnext]
    exact ih (by omega) (by omega)

/-- The index wraps before it comes to the end of the text. -/
theorem not_ends_of_long (hlen : 2 ^ 32 ≤ buffer.length) (s : Turn) : ¬(turn buffer).Ends s vc' :=
  Loop.not_ends (I := fun _ => True) trivial fun s _ =>
    ⟨_, turn_next (s.i.toNat_lt.trans_le hlen), trivial⟩

theorem leaves_of_short (hlen : buffer.length < 2 ^ 32) : Leaves buffer vc (vc.write buffer).2 := by
  unfold Leaves write
  split
  · rfl
  · exact ends_of_short hlen (Nat.zero_le _)

theorem Leaves.unique (h : Leaves buffer vc vc') {vc'' : VirtualConsole}
    (h' : Leaves buffer vc vc'') : vc' = vc'' := by
  unfold Leaves at h h'
  split at h
  · rename_i hb
    rw [if_pos hb] at h'
    exact h.trans h'.symm
  · rename_i hb
    rw [if_neg hb] at h'
    exact h.unique h'

/-! ## The escape sequences -/

theorem write_byte_fst : (vc.write_byte c e).1 = e.step c := by
  unfold write_byte Escape.step
  dsimp only
  by_cases hs : (e.next c).state = 0
  · simp only [hs, if_true, true_and]
    unfold put
    dsimp only
    split_ifs with hline hesc <;> simp_all
  · simp only [hs, if_false, false_and]

theorem write_loop_append :
    vc.write_loop (a ++ b) e = (vc.write_loop a e).write_loop b (e.scan a) := by
  induction a generalizing vc e with
  | nil => rfl
  | cons c a ih =>
    show (vc.write_byte c e).2.write_loop (a ++ b) (vc.write_byte c e).1 =
      ((vc.write_byte c e).2.write_loop a (vc.write_byte c e).1).write_loop b ((e.step c).scan a)
    rw [ih, write_byte_fst]

theorem isNone_write_byte : (vc.write_byte c e).2._buffer.isNone = vc._buffer.isNone := by
  unfold write_byte put scroll_if scroll_one_line store
  dsimp only
  split_ifs <;> simp only [Option.isNone_map]

theorem isNone_write_loop : (vc.write_loop bytes e)._buffer.isNone = vc._buffer.isNone := by
  induction bytes generalizing vc e with
  | nil => rfl
  | cons c bytes ih => exact ih.trans isNone_write_byte

/-! ## The screen -/

/-- The consoles have the same position, and the same cells on the screen. -/
def SameScreen (vc vc' : VirtualConsole) : Prop :=
  vc._current_pos = vc'._current_pos ∧ ∀ i < _width * _height,
    vc._buffer.map (· i) = vc'._buffer.map (· i)

/-- Two calls leave the screen that one call leaves. -/
def Splits (a b : List UInt8) (vc : VirtualConsole) : Prop :=
  ∃ v₁ v₂ v, Leaves a vc v₁ ∧ Leaves b v₁ v₂ ∧ Leaves (a ++ b) vc v ∧ SameScreen v₂ v

theorem scan_concat : e.scan (a ++ [c]) = (e.scan a).step c := by
  unfold Escape.scan
  rw [List.foldl_append]
  rfl

theorem sequence_concat : [27, 0x5b] <:+: a ++ [c] ↔ ([27] <:+ a ∧ c = 0x5b) ∨ [27, 0x5b] <:+: a := by
  rw [List.infix_concat_iff, List.suffix_concat_iff]
  refine or_congr_left ⟨?_, ?_⟩
  · rintro (h | ⟨t, ht, hsuffix⟩)
    · cases h
    · obtain ⟨rfl, hc⟩ := List.append_inj' (show [27] ++ [0x5b] = t ++ [c] from ht) rfl
      exact ⟨hsuffix, (List.singleton_inj.mp hc).symm⟩
  · rintro ⟨h, rfl⟩
    exact .inr ⟨[27], rfl, h⟩

/-- After an escape sequence the parser never comes back to where it was. -/
theorem step_after (h : e.state = 2 ∨ e.attr = 0x0100) :
    (e.step c).state = 2 ∨ (e.step c).attr = 0x0100 := by
  unfold Escape.step Escape.next
  dsimp only
  split_ifs <;> simp_all

theorem scan_cases (a : List UInt8) :
    ([27, 0x5b] <:+: a →
      (Escape.initial.scan a).state = 2 ∨ (Escape.initial.scan a).attr = 0x0100) ∧
    (¬[27, 0x5b] <:+: a → [27] <:+ a → Escape.initial.scan a = ⟨0x0700, 1⟩) ∧
    (¬[27, 0x5b] <:+: a → ¬[27] <:+ a → Escape.initial.scan a = .initial) := by
  induction a using List.reverseRecOn with
  | nil => simp [Escape.scan]
  | append_singleton a c ih =>
    rw [scan_concat]
    obtain ⟨hafter, hstart, hno⟩ := ih
    by_cases hseq : [27, 0x5b] <:+: a
    · have h : [27, 0x5b] <:+: a ++ [c] := sequence_concat.mpr (.inr hseq)
      exact ⟨fun _ => step_after (hafter hseq), fun h' => absurd h h', fun h' => absurd h h'⟩
    · simp only [sequence_concat, hseq, or_false, List.singleton_suffix_append_singleton_iff,
        @eq_comm _ 27 c]
      by_cases hesc : [27] <:+ a
      · rw [hstart hseq hesc]
        by_cases hc : c = 0x5b <;> by_cases hc' : c = 27 <;>
          simp_all [Escape.step, Escape.next, Escape.initial]
      · rw [hno hseq hesc]
        by_cases hc : c = 27 <;> simp_all [Escape.step, Escape.next, Escape.initial]

/-- The parser is where a call starts it exactly if the text has no escape sequence and is not at the
start of one. -/
theorem scan_initial_iff : Escape.initial.scan a = .initial ↔
    ¬[27, 0x5b] <:+: a ∧ ¬[27] <:+ a := by
  obtain ⟨hafter, hstart, hno⟩ := scan_cases a
  refine ⟨fun he => ?_, fun h => hno h.1 h.2⟩
  have hseq : ¬[27, 0x5b] <:+: a := fun h => absurd (he ▸ hafter h) (by decide)
  exact ⟨hseq, fun h => absurd (he.symm.trans (hstart hseq h)) (by decide)⟩

theorem write_append (h : Escape.initial.scan a = .initial) :
    (vc.write (a ++ b)).2 = ((vc.write a).2.write b).2 := by
  have hloop : vc.write_loop (a ++ b) .initial = (vc.write_loop a .initial).write_loop b .initial := by
    rw [write_loop_append, h]
  have hnone : (vc.write_loop a .initial)._buffer.isNone = vc._buffer.isNone := isNone_write_loop
  unfold write
  split
  · rfl
  · rename_i hb
    show vc.write_loop (a ++ b) .initial = (if (vc.write_loop a .initial)._buffer.isNone then _ else _ : ℕ × VirtualConsole).2
    rw [hnone, if_neg hb]
    exact hloop

/-- A text may be written in two calls if the first part has no escape sequence and does not end at
the start of one. -/
theorem splits (vc : VirtualConsole) (hlen : (a ++ b).length < 2 ^ 32) (hseq : ¬[27, 0x5b] <:+: a)
    (hesc : ¬[27] <:+ a) : Splits a b vc := by
  have hlen' := List.length_append ▸ hlen
  refine ⟨_, _, _, leaves_of_short (by omega), leaves_of_short (by omega), leaves_of_short hlen, ?_⟩
  rw [write_append (scan_initial_iff.mpr ⟨hseq, hesc⟩)]
  exact ⟨rfl, fun _ _ => rfl⟩

/-- The words `ab` and `cd`, in two calls. -/
theorem splits_words : Splits [97, 98] [99, 100] (new (some fun _ => 0x0700)) :=
  splits _ (by decide) (by decide) (by decide)

/-- The colour of an escape sequence is lost between two calls. -/
theorem not_splits : ¬∀ a b vc, ¬CallsBackOut [a, b] vc → ¬CallsBackOut [a ++ b] vc →
    Splits a b vc := by
  intro h
  obtain ⟨v₁, v₂, v, h₁, h₂, hv, -, hcells⟩ := h [27, 0x5b] [0x41] (new (some fun _ => 0x0700))
    (by simp [CallsBackOut, LoopBacksOut, BacksOut]) (by simp [CallsBackOut, LoopBacksOut, BacksOut])
  cases h₁.unique (leaves_of_short (by decide))
  cases h₂.unique (leaves_of_short (by decide))
  cases hv.unique (leaves_of_short (by decide))
  exact absurd (hcells 0 (by decide)) (by decide)

end Infos.Drivers.VirtualConsole
