import Infos.Lib.Loop

/-!
# `infos::util::String`

A string is the list of its bytes.
-/

namespace Infos.Util.String

/-- The loop of `split`. An empty part that is to be removed is met again for ever, and then there
is no answer. -/
def split_loop (delim : UInt8) (remove_empty : Bool) :
    List (List UInt8) → List UInt8 → List UInt8 → Option (List (List UInt8))
  | r, current_part, [] =>
    some (if current_part.length > 0 ∨ ¬ remove_empty then r ++ [current_part] else r)
  | r, current_part, ch :: rest =>
    if ch = delim then
      if current_part.length = 0 ∧ remove_empty then none
      else split_loop delim remove_empty (r ++ [current_part]) [] rest
    else split_loop delim remove_empty r (current_part ++ [ch]) rest

def split (delim : UInt8) (remove_empty : Bool) (data : List UInt8) : Option (List (List UInt8)) :=
  split_loop delim remove_empty [] [] data

/-- `start` is the rest of the string, from the character that it points to. -/
structure Split where
  r : List (List UInt8)
  current_part : List UInt8
  start : List UInt8

/-- The loop of `split` turn by turn. A `continue` leaves everything as it is. -/
def split_turn (delim : UInt8) (remove_empty : Bool) : Loop Split (List (List UInt8)) := fun s =>
  match s.start with
  | [] =>
    .inr (if s.current_part.length > 0 ∨ ¬ remove_empty then s.r ++ [s.current_part] else s.r)
  | ch :: rest =>
    if ch = delim then
      if s.current_part.length = 0 ∧ remove_empty then .inl s
      else .inl ⟨s.r ++ [s.current_part], [], rest⟩
    else .inl ⟨s.r, s.current_part ++ [ch], rest⟩

/-- A character is signed. -/
def compute_hash (data : List UInt8) : UInt64 :=
  data.foldl (fun hash ch => (hash ^^^ ch.toInt8.toInt64.toUInt64) * 1099511628211)
    14695981039346656037

/-! ## The hash that is kept -/

/-- A `String` with its hash, once that was computed. -/
structure Hashed where
  _data : List UInt8
  _has_hash : Bool
  _hash : UInt64
  kept : _has_hash = true → _hash = compute_hash _data

namespace Hashed

def of (str : List UInt8) : Hashed := ⟨str, false, 0, by simp⟩

def copy (str : Hashed) : Hashed := ⟨str._data, str._has_hash, str._hash, str.kept⟩

/-- `operator=`, with the string that is assigned to. -/
def assign (self s : Hashed) : Hashed := ⟨s._data, false, self._hash, by simp⟩

def append (l r : Hashed) : Hashed := of (l._data ++ r._data)

def get_hash (s : Hashed) : UInt64 × Hashed :=
  if s._has_hash then (s._hash, s)
  else (compute_hash s._data, ⟨s._data, true, compute_hash s._data, fun _ => rfl⟩)

/-- What is kept is what would be computed. -/
theorem get_hash_eq (s : Hashed) :
    s.get_hash.1 = compute_hash s._data ∧ s.get_hash.2._data = s._data := by
  unfold get_hash
  split
  · exact ⟨s.kept ‹_›, rfl⟩
  · exact ⟨rfl, rfl⟩

end Hashed

/-! ## Splitting -/

variable {delim : UInt8} {r : List (List UInt8)} {current_part data : List UInt8}

theorem split_loop_eq : split_loop delim false r current_part data =
    some (r ++ (data.splitOn delim).modifyHead (current_part ++ ·)) := by
  induction data generalizing r current_part with
  | nil => simp [split_loop]
  | cons ch rest ih =>
    unfold split_loop
    rw [List.splitOn, List.splitOnP_cons_eq_if_modifyHead]
    by_cases h : ch = delim
    · have hrest : (rest.splitOnP (· == delim)).modifyHead ([] ++ ·) =
          rest.splitOnP (· == delim) := by
        cases rest.splitOnP (· == delim) <;> rfl
      rw [if_pos h, if_neg (by simp), ih, List.splitOn, hrest]
      simp [h]
    · rw [if_neg h, ih, List.splitOn]
      simp [h, Function.comp_def]

/-- With empty parts, it is the splitting of lists. -/
theorem split_eq : split delim false data = some (data.splitOn delim) := by
  unfold split
  rw [split_loop_eq]
  cases data.splitOn delim <;> rfl

example : split 47 false [97, 47, 47, 98] = some [[97], [], [98]] := by decide

/-! ## Coming to an end -/

variable {remove_empty : Bool} {a : List (List UInt8)}

/-- A `continue` is taken again for ever. -/
theorem split_turn_ends :
    (split_turn delim remove_empty).Ends ⟨r, current_part, data⟩ a ↔
      split_loop delim remove_empty r current_part data = some a := by
  induction data generalizing r current_part with
  | nil =>
    have hturn : split_turn delim remove_empty ⟨r, current_part, []⟩ =
        .inr (if current_part.length > 0 ∨ ¬ remove_empty then r ++ [current_part] else r) := rfl
    rw [Loop.ends_leave hturn, split_loop, Option.some.injEq]
  | cons ch rest ih =>
    unfold split_loop
    split
    next hch =>
      split
      next hstay =>
        have hturn : split_turn delim remove_empty ⟨r, current_part, ch :: rest⟩ =
            .inl ⟨r, current_part, ch :: rest⟩ := by
          simp only [split_turn, if_pos hch, if_pos hstay]
        refine iff_of_false ?_ (by simp)
        exact Loop.not_ends (I := (· = _)) rfl fun s hs => ⟨s, by rw [hs, hturn], hs⟩
      next hgo => rw [Loop.ends_turn (by simp only [split_turn, if_pos hch, if_neg hgo]; rfl), ih]
    next hch => rw [Loop.ends_turn (by simp only [split_turn, if_neg hch]; rfl), ih]

/-- The segments between the delimiters, or those that are not empty. -/
def segments (delim : UInt8) (remove_empty : Bool) (data : List UInt8) : List (List UInt8) :=
  if remove_empty then (data.splitOn delim).filter (· ≠ []) else data.splitOn delim

/-- No part is empty when a delimiter is met. -/
def PartsFilled (delim : UInt8) (current_part data : List UInt8) : Prop :=
  (current_part = [] → data.head? ≠ some delim) ∧ ¬[delim, delim] <:+: data

theorem partsFilled_delim :
    PartsFilled delim current_part (delim :: data) ↔ current_part ≠ [] ∧ PartsFilled delim [] data := by
  unfold PartsFilled
  rw [List.infix_cons_iff, List.cons_prefix_cons]
  cases data with
  | nil => simp
  | cons ch rest =>
    rw [List.cons_prefix_cons]
    simp only [List.head?_cons, List.nil_prefix, ne_eq, Option.some.injEq, eq_comm (a := ch)]
    tauto

theorem partsFilled_other {ch : UInt8} (hch : ch ≠ delim) :
    PartsFilled delim current_part (ch :: data) ↔
      PartsFilled delim (current_part ++ [ch]) data := by
  unfold PartsFilled
  rw [List.infix_cons_iff, List.cons_prefix_cons]
  simp [hch, hch.symm]

theorem split_loop_removing (r : List (List UInt8)) (current_part data : List UInt8) :
    (PartsFilled delim current_part data → split_loop delim true r current_part data =
      some (r ++ ((data.splitOn delim).modifyHead (current_part ++ ·)).filter (· ≠ []))) ∧
    (¬PartsFilled delim current_part data → split_loop delim true r current_part data = none) := by
  induction data generalizing r current_part with
  | nil =>
    constructor
    · intro _
      cases current_part <;> simp [split_loop]
    · simp [PartsFilled]
  | cons ch rest ih =>
    unfold split_loop
    rw [List.splitOn, List.splitOnP_cons_eq_if_modifyHead]
    by_cases hch : ch = delim
    · subst hch
      rw [partsFilled_delim, if_pos rfl]
      by_cases hpart : current_part = []
      · simp [hpart]
      · have hrest : (rest.splitOnP (· == ch)).modifyHead ([] ++ ·) = rest.splitOnP (· == ch) := by
          cases rest.splitOnP (· == ch) <;> rfl
        rw [if_neg (by simp [hpart])]
        obtain ⟨hsome, hnone⟩ := ih (r ++ [current_part]) []
        constructor
        · rintro ⟨-, hfilled⟩
          rw [hsome hfilled, List.splitOn, hrest]
          simp [hpart]
        · intro hnot
          exact hnone fun hfilled => hnot ⟨hpart, hfilled⟩
    · obtain ⟨hsome, hnone⟩ := ih r (current_part ++ [ch])
      rw [partsFilled_other hch, if_neg hch]
      refine ⟨fun hfilled => ?_, hnone⟩
      rw [hsome hfilled, List.splitOn]
      simp [hch, Function.comp_def]

theorem split_ends_iff (delim : UInt8) (remove_empty : Bool) (data : List UInt8) :
    (split_turn delim remove_empty).Ends ⟨[], [], data⟩ (segments delim remove_empty data) ↔
      (remove_empty = true → data.head? ≠ some delim ∧ ¬[delim, delim] <:+: data) := by
  rw [split_turn_ends]
  cases remove_empty with
  | false =>
    have heq : split delim false data = some (data.splitOn delim) := split_eq
    unfold split at heq
    simp [heq, segments]
  | true =>
    obtain ⟨hsome, hnone⟩ := @split_loop_removing delim [] [] data
    have hhead : (data.splitOn delim).modifyHead ([] ++ ·) = data.splitOn delim := by
      cases data.splitOn delim <;> rfl
    rw [hhead] at hsome
    constructor
    · intro h _
      by_contra hnot
      rw [hnone fun hfilled => hnot ⟨hfilled.1 rfl, hfilled.2⟩] at h
      cases h
    · intro h
      have hfilled := h rfl
      rw [hsome ⟨fun _ => hfilled.1, hfilled.2⟩]
      simp [segments]

/-- A path that begins with a slash. -/
theorem split_endless : ¬∃ a, (split_turn 47 true).Ends ⟨[], [], [47, 97]⟩ a := by
  rintro ⟨a, h⟩
  exact Loop.not_ends (I := (· = _)) rfl (fun s hs => ⟨s, by rw [hs]; rfl, hs⟩) h

end Infos.Util.String
