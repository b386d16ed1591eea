import Infos.Util.StringObjects

/-!
# Splitting the objects

`split` makes a `String` for each part, and every buffer that it takes belongs to one of them.
-/

namespace Infos.Util.StringObject

open Prog Buffers

/-- `List::append`. The new node has a string, to which `elem` is assigned. -/
def append (r : List Str) (elem : Str) : StrOp (List Str) := do
  let data ← empty
  let data ← assign data elem
  return r ++ [data]

/-- `n` characters are left from `start`. -/
def split_loop (this : Str) (delim : UInt8) (remove_empty : Bool) :
    ℕ → Str → List Str → StrOp (Str × List Str)
  | 0, current_part, r => return (current_part, r)
  | n + 1, current_part, r => do
    let ch ← char_at this (this._size - (n + 1))
    if ch = delim then
      if current_part._size = 0 ∧ remove_empty then throw (.other .endless)
      let r ← append r current_part
      let current_part ← assign_temporary current_part (← of_chars [])
      split_loop this delim remove_empty n current_part r
    else
      let current_part ← assign_temporary current_part (← concat_char current_part ch)
      split_loop this delim remove_empty n current_part r

def split (this : Str) (delim : UInt8) (remove_empty : Bool) : StrOp (List Str) := do
  let current_part ← empty
  let (current_part, r) ← split_loop this delim remove_empty this._size current_part []
  let r ← if current_part._size > 0 ∨ ¬remove_empty then append r current_part else pure r
  destroy current_part
  return r

/-! ## Who owns the buffers -/

/-- Since `h₀`, the buffers that were made and are still there are those of the strings in `l`, one
for each, and the strings hold what is beside them. -/
structure Strings (h₀ h : Heap) (l : List (Str × List UInt8)) : Prop
    extends Owns h₀ h (l.map (·.1._data)) where
  holds : ∀ x ∈ l, Holds h x.1 x.2

variable {h₀ h h' : Heap} {l m : List (Str × List UInt8)} {s t : Str} {b d : List UInt8} {p : ℕ}

theorem Strings.nil (h : Heap) : Strings h h [] := ⟨.nil h, by simp⟩

theorem Strings.perm (ho : Strings h₀ h l) (hp : l.Perm m) : Strings h₀ h m :=
  ⟨ho.toOwns.perm (hp.map _), fun x hx => ho.holds x (hp.mem_iff.mpr hx)⟩

theorem Strings.this (ho : Strings h₀ h l) (hs : Holds h₀ s b) : Holds h s b :=
  hs.mono fun _ hp => ho.old _ (hs.lt_next hp)

theorem Strings.apart (ho : Strings h₀ h ((s, b) :: l)) {x : Str × List UInt8} (hx : x ∈ l)
    (hp : x.1._data = some p) : s._data ≠ some p :=
  ho.toOwns.apart (hp ▸ List.mem_map_of_mem hx)

/-- A string that was made is one more. -/
theorem Strings.made (ho : Strings h₀ h l) (hm : Made h h' (b ++ [0])) (k : Bool) (x : UInt64) :
    Strings h₀ h' ((⟨b.length, some h.next, k, x⟩, b) :: l) := by
  refine ⟨ho.toOwns.made hm, ?_⟩
  rintro y hy
  rcases List.mem_cons.mp hy with rfl | hy
  · exact .of_made hm
  · exact (ho.holds y hy).made hm

/-- A string that was destroyed is no more. -/
theorem Strings.freed (ho : Strings h₀ h ((s, b) :: l)) (hf : Freed h h' s._data) :
    Strings h₀ h' l := by
  refine ⟨ho.toOwns.freed hf, fun x hx => ?_⟩
  exact (ho.holds x (List.mem_cons_of_mem _ hx)).freed hf fun p hp => ho.apart hx hp

/-- The hash is of no account. -/
theorem Strings.same (ho : Strings h₀ h ((s, b) :: l)) (hsize : t._size = s._size)
    (hdata : t._data = s._data) : Strings h₀ h ((t, b) :: l) := by
  have hb := ho.holds (s, b) List.mem_cons_self
  refine ⟨by simpa [hdata] using ho.toOwns, fun x hx => ?_⟩
  rcases List.mem_cons.mp hx with rfl | hx
  · exact ⟨hsize.trans hb.size, hdata ▸ hb.data⟩
  · exact ho.holds x (List.mem_cons_of_mem _ hx)

/-! ## The members, by what is owned -/

theorem strings_empty (ho : Strings h₀ h l) :
    Returns empty h fun s h' => Strings h₀ h' ((s, []) :: l) := by
  refine returns_mono returns_empty ?_
  rintro _ h₁ ⟨rfl, hm⟩
  exact ho.made (b := []) hm _ _

theorem strings_of_chars (ho : Strings h₀ h l) (hshort : b.length + 1 < 2 ^ 32) :
    Returns (of_chars b) h fun s h' => Strings h₀ h' ((s, b) :: l) := by
  refine returns_mono (returns_of_chars hshort) ?_
  rintro _ h₁ ⟨rfl, hm⟩
  exact ho.made hm _ _

theorem strings_concat_char (ho : Strings h₀ h l) (hs : (s, b) ∈ l) (hshort : b.length + 2 < 2 ^ 32)
    (r : UInt8) : Returns (concat_char s r) h fun t h' => Strings h₀ h' ((t, b ++ [r]) :: l) := by
  refine returns_mono (returns_concat_char (ho.holds _ hs) hshort) ?_
  rintro _ h₁ ⟨rfl, hm⟩
  simpa using ho.made hm false 0

theorem strings_destroy (ho : Strings h₀ h ((s, b) :: l)) :
    Returns (destroy s) h fun _ h' => Strings h₀ h' l := by
  refine returns_mono (returns_destroy (ho.holds _ List.mem_cons_self)) ?_
  intro _ h₁ hf
  exact ho.freed hf

theorem strings_assign (ho : Strings h₀ h ((t, d) :: l)) (hs : (s, b) ∈ l) :
    Returns (assign t s) h fun t' h' => Strings h₀ h' ((t', b) :: l) := by
  refine returns_mono (returns_assign (ho.holds _ List.mem_cons_self)
    (ho.holds _ (List.mem_cons_of_mem _ hs)) fun p hp => ho.apart hs hp) ?_
  rintro _ h₂ ⟨h₁, hf, hm, rfl⟩
  exact (ho.freed hf).made hm _ _

theorem strings_assign_temporary (ho : Strings h₀ h ((t, d) :: (s, b) :: l)) :
    Returns (assign_temporary s t) h fun s' h' => Strings h₀ h' ((s', d) :: l) := by
  have hl : Strings h₀ h ((s, b) :: (t, d) :: l) := ho.perm (.swap ..)
  unfold assign_temporary
  rw [returns_bind]
  refine returns_mono (returns_move_assign (hl.holds _ List.mem_cons_self)) ?_
  rintro _ h₁ ⟨rfl, hf⟩
  -- the temporary has no buffer left
  refine ⟨_, h₁, rfl, ?_⟩
  exact (hl.freed hf).same rfl rfl

/-- The node is put behind the others. -/
theorem strings_append (ho : Strings h₀ h ((s, b) :: l)) : Returns (append (l.map (·.1)) s) h fun r h' =>
    ∃ t, r = (l ++ [(t, b)]).map (·.1) ∧ Strings h₀ h' ((s, b) :: (l ++ [(t, b)])) := by
  unfold append
  rw [returns_bind]
  refine returns_mono (strings_empty ho) ?_
  intro data h₁ hdata
  rw [returns_bind]
  refine returns_mono (strings_assign hdata List.mem_cons_self) ?_
  intro t h₂ ht
  rw [returns_pure]
  refine ⟨t, by simp, ht.perm ?_⟩
  exact (List.Perm.swap ..).trans ((List.perm_append_singleton (t, b) l).symm.cons _)

/-! ## Splitting -/

variable {this : Str} {bytes rest part : List UInt8} {delim : UInt8} {remove_empty : Bool}

/-- `start` points to the first character that is left. -/
theorem Strings.next_char {ch : UInt8} (ho : Strings h₀ h l) (hthis : Holds h₀ this bytes)
    (hrest : ch :: rest <:+ bytes) :
    char_at this (this._size - (rest.length + 1)) h = .ok (ch, h) := by
  obtain ⟨front, rfl⟩ := hrest
  have hfirst : (front ++ ch :: rest).length - (rest.length + 1) = front.length := by
    simp only [List.length_append, List.length_cons]
    omega
  refine (ho.this hthis).char_at ?_
  rw [hthis.size, hfirst, List.getElem?_append_right (Nat.le_refl _), Nat.sub_self]
  rfl

/-- The loop does what the splitting of the bytes does. -/
theorem returns_split_loop {parts : List (List UInt8)} (hthis : Holds h₀ this bytes)
    (hrest : rest <:+ bytes) (hpart : part.length + rest.length ≤ bytes.length)
    (ho : Strings h₀ h ((s, part) :: l))
    (hparts : String.split_loop delim remove_empty (l.map (·.2)) part rest = some parts) :
    Returns (split_loop this delim remove_empty rest.length s (l.map (·.1))) h fun x h' =>
      ∃ part' l', x.2 = l'.map (·.1) ∧ Strings h₀ h' ((x.1, part') :: l') ∧
        parts = if part'.length > 0 ∨ ¬remove_empty then l'.map (·.2) ++ [part'] else l'.map (·.2) := by
  induction rest generalizing s l part h with
  | nil =>
    refine returns_of_eq rfl ⟨part, l, rfl, ho, ?_⟩
    simpa [String.split_loop, eq_comm] using hparts
  | cons ch rest ih =>
    have hshort := hthis.short
    have hrest' : rest <:+ bytes := (List.suffix_cons ch rest).trans hrest
    rw [List.length_cons] at hpart ⊢
    unfold String.split_loop at hparts
    unfold split_loop
    rw [returns_bind]
    refine returns_of_eq (ho.next_char hthis hrest) ?_
    have hsize : s._size = part.length := (ho.holds _ List.mem_cons_self).size
    split at hparts
    next hdelim =>
      rw [if_pos hdelim, hsize]
      split at hparts
      next => cases hparts
      next hgo =>
        rw [if_neg hgo, returns_bind]
        refine returns_mono (strings_append ho) ?_
        rintro _ h₁ ⟨t, rfl, ht⟩
        rw [returns_bind]
        refine returns_mono (strings_of_chars (b := []) ht (by simp)) ?_
        intro temporary h₂ htemp
        rw [returns_bind]
        refine returns_mono (strings_assign_temporary htemp) ?_
        intro s' h₃ hs'
        refine ih hrest' ?_ hs' ?_
        · simp only [List.length_nil]
          omega
        · simpa using hparts
    next hdelim =>
      rw [if_neg hdelim, returns_bind]
      refine returns_mono (strings_concat_char ho List.mem_cons_self (by omega) ch) ?_
      intro n h₁ hn
      rw [returns_bind]
      refine returns_mono (strings_assign_temporary hn) ?_
      intro s' h₂ hs'
      refine ih hrest' ?_ hs' hparts
      simp only [List.length_append, List.length_singleton]
      omega

/-- The strings hold the parts that the bytes are split into. -/
theorem returns_split {parts : List (List UInt8)} (hthis : Holds h this bytes)
    (hparts : String.split delim remove_empty bytes = some parts) :
    Returns (split this delim remove_empty) h fun r h' =>
      ∃ l, r = l.map (·.1) ∧ parts = l.map (·.2) ∧ Strings h h' l := by
  unfold String.split at hparts
  unfold split
  rw [returns_bind]
  refine returns_mono (strings_empty (Strings.nil h)) ?_
  intro s h₁ hs
  rw [returns_bind, hthis.size]
  refine returns_mono (returns_split_loop (l := []) hthis (List.suffix_refl _) (by simp) hs hparts) ?_
  rintro ⟨s', r⟩ h₂ ⟨part, l, rfl, ho, hlast⟩
  have hsize : s'._size = part.length := (ho.holds _ List.mem_cons_self).size
  simp only [hsize]
  split at hlast
  next hadd =>
    rw [if_pos hadd, returns_bind]
    refine returns_mono (strings_append ho) ?_
    rintro _ h₃ ⟨t, rfl, ht⟩
    rw [returns_bind]
    refine returns_mono (strings_destroy ht) ?_
    intro _ h₄ hl
    rw [returns_pure]
    exact ⟨l ++ [(t, part)], rfl, by simpa using hlast, hl⟩
  next hadd =>
    rw [if_neg hadd, returns_bind, returns_pure, returns_bind]
    refine returns_mono (strings_destroy ho) ?_
    intro _ h₃ hl
    rw [returns_pure]
    exact ⟨l, rfl, hlast, hl⟩

/-! ## What is in the parts -/

theorem length_splitOn (bytes : List UInt8) :
    (bytes.splitOn delim).length = bytes.count delim + 1 := by
  induction bytes with
  | nil => simp
  | cons ch rest ih =>
    rw [List.splitOn_cons_eq_if_modifyHead, List.count_cons]
    split <;> simp [ih]

theorem not_mem_splitOn (bytes : List UInt8) : ∀ part ∈ bytes.splitOn delim, delim ∉ part := by
  induction bytes with
  | nil => simp
  | cons ch rest ih =>
    rw [List.splitOn_cons_eq_if_modifyHead]
    split
    next => simpa using ih
    next hne =>
      have hch : delim ≠ ch := fun heq => hne (by simp [heq])
      cases hrest : rest.splitOn delim with
      | nil => simp
      | cons first others =>
        rw [hrest, List.forall_mem_cons] at ih
        rw [List.modifyHead_cons, List.forall_mem_cons]
        exact ⟨fun hmem => (List.mem_cons.mp hmem).elim hch ih.1, ih.2⟩

/-- Splitting loses nothing, and no buffer but those of the parts is left. -/
theorem split_joins (h : Heap) (this : Str) (bytes : List UInt8) (delim : UInt8)
    (hthis : Holds h this bytes) : Returns (split this delim false) h fun r h' =>
      ∃ parts : List (Str × List UInt8), r = parts.map (·.1) ∧ Strings h h' parts ∧
        [delim].intercalate (parts.map (·.2)) = bytes ∧
        (∀ part ∈ parts, delim ∉ part.2) ∧ parts.length = bytes.count delim + 1 := by
  refine returns_mono (returns_split hthis String.split_eq) ?_
  rintro r h' ⟨l, hr, hparts, ho⟩
  refine ⟨l, hr, ho, ?_, ?_, ?_⟩
  · rw [← hparts, List.intercalate_splitOn]
  · intro part hpart
    refine not_mem_splitOn bytes part.2 ?_
    rw [hparts]
    exact List.mem_map_of_mem hpart
  · rw [← length_splitOn, hparts, List.length_map]

/-- A heap with the buffer of the string `/a//`. -/
def slashes : Heap where
  cells p := if p = 0 then some [47, 97, 47, 47, 0] else none
  next := 1
  fresh p hp := if_neg (by omega)
  fits p c hc := by
    split at hc
    · cases hc
      show 5 < 2 ^ 32
      omega
    · cases hc

theorem split_joins_slashes :
    Returns (split ⟨4, some 0, false, 0⟩ 47 false) slashes fun r h' =>
      ∃ parts : List (Str × List UInt8), r = parts.map (·.1) ∧ Strings slashes h' parts ∧
        [47].intercalate (parts.map (·.2)) = [47, 97, 47, 47] ∧
        (∀ part ∈ parts, 47 ∉ part.2) ∧ parts.length = [47, 97, 47, 47].count (47 : UInt8) + 1 :=
  split_joins slashes ⟨4, some 0, false, 0⟩ [47, 97, 47, 47] 47 ⟨rfl, rfl⟩

end Infos.Util.StringObject
