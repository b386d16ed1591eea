import Infos.Lib.Loop
import Infos.Util.CString
import Mathlib.Data.List.TakeWhile

/-!
# The command line of the kernel

The loops of `parse` and `process` with the index of every write to their buffers, whether or not
it lies in the buffer.
-/

namespace Infos.Util.CommandLine

/-- `char setting[128]` -/
def setting_size : ℕ := 128

/-- `char key[64]`, and `value` as well. -/
def key_size : ℕ := 64

/-- A buffer as it was filled, with the text behind what was copied. -/
structure Copied where
  buffer : List UInt8
  writes : List ℕ
  rest : List UInt8

/-- `fn` is whatever stands for the function. -/
structure Registration (F : Type) where
  match_ : Option (List UInt8)
  fn : F

def skip_spaces : List UInt8 → List UInt8
  | [] => []
  | c :: cmdline => if c = 32 then skip_spaces cmdline else c :: cmdline

/-- The second loop of `parse`, from the index `i` on, with the zero behind. -/
def copy_setting : (cmdline : List UInt8) → (i : ℕ) → (setting : List UInt8) →
    (writes : List ℕ) → Copied
  | [], i, setting, writes => ⟨setting, i :: writes, []⟩
  | c :: cmdline, i, setting, writes =>
    if c = 32 then ⟨setting, i :: writes, c :: cmdline⟩
    else copy_setting cmdline (i + 1) (setting ++ [c]) (i :: writes)

/-- The first loop of `process`, up to the equals sign. -/
def copy_key : (setting : List UInt8) → (i : ℕ) → (key : List UInt8) → (writes : List ℕ) → Copied
  | [], i, key, writes => ⟨key, i :: writes, []⟩
  | c :: setting, i, key, writes =>
    if c ≠ 61 ∧ i < key_size - 1 then copy_key setting (i + 1) (key ++ [c]) (i :: writes)
    else ⟨key, i :: writes, c :: setting⟩

/-- The second loop of `process`, which passes every equals sign over. -/
def copy_value : (setting : List UInt8) → (i : ℕ) → (value : List UInt8) → (writes : List ℕ) →
    Copied
  | [], i, value, writes => ⟨value, i :: writes, []⟩
  | c :: setting, i, value, writes =>
    if i < key_size - 1 then
      if c = 61 then copy_value setting i value writes
      else copy_value setting (i + 1) (value ++ [c]) (i :: writes)
    else ⟨value, i :: writes, c :: setting⟩

variable {F : Type}

def find_registration (key : List UInt8) : List (Registration F) → Option (Registration F)
  | [] => none
  | rgn :: rgns =>
    match rgn.match_ with
    | none => find_registration key rgns
    | some m => if strncmp m key 256 = 0 then some rgn else find_registration key rgns

def key_of (setting : List UInt8) : Copied := copy_key setting 0 [] []

def value_of (setting : List UInt8) : Copied := copy_value (key_of setting).rest 0 [] []

/-- The call that is made, if any. -/
def process (rgns : List (Registration F)) (setting : List UInt8) : Option (F × List UInt8) :=
  (find_registration (key_of setting).buffer rgns).map fun reg =>
    (reg.fn, (value_of setting).buffer)

/-- `calls` has the calls that were made. -/
structure Parse (F : Type) where
  cmdline : List UInt8
  calls : List (F × List UInt8)

def Parse.setting (s : Parse F) : Copied := copy_setting (skip_spaces s.cmdline) 0 [] []

/-- The outer loop of `parse`. -/
def parse_turn (rgns : List (Registration F)) : Loop (Parse F) (List (F × List UInt8)) := fun s =>
  if s.cmdline = [] then .inr s.calls
  else if s.setting.buffer.length = 0 then .inr s.calls
  else .inl ⟨s.setting.rest, s.calls ++ (process rgns s.setting.buffer).toList⟩

def parse_start (cmdline : List UInt8) : Parse F := ⟨cmdline, []⟩

/-- Where `parse` writes, and `process` if it is called. -/
structure Inside (c : Copied) : Prop where
  setting : ∀ i ∈ c.writes, i < setting_size
  key : c.buffer ≠ [] → ∀ i ∈ (key_of c.buffer).writes, i < key_size
  value : c.buffer ≠ [] → ∀ i ∈ (value_of c.buffer).writes, i < key_size

/-- `parse` comes back, and in every turn all is written inside the buffers. -/
def StaysInside (rgns : List (Registration F)) (cmdline : List UInt8) : Prop :=
  (∃ calls, (parse_turn rgns).Ends (parse_start cmdline) calls) ∧
    ∀ s, (parse_turn rgns).Reaches (parse_start cmdline) s → s.cmdline ≠ [] → Inside s.setting

/-! ## Tokens -/

def tokens (cmdline : List UInt8) : List (List UInt8) := (cmdline.splitOn 32).filter (· ≠ [])

def key (token : List UInt8) : List UInt8 := token.takeWhile (· ≠ 61)

/-- What is behind the first equals sign. -/
def value (token : List UInt8) : List UInt8 := (token.dropWhile (· ≠ 61)).tail

variable {rgns : List (Registration F)} {s t : Parse F} {cmdline l setting buf : List UInt8}
  {writes : List ℕ} {i j : ℕ} {c : UInt8} {calls : List (F × List UInt8)}

theorem skip_spaces_eq (l : List UInt8) : skip_spaces l = l.dropWhile (· = 32) := by
  induction l with
  | nil => rfl
  | cons c l ih =>
    rw [skip_spaces, List.dropWhile_cons, ih]
    simp

theorem copy_setting_eq (l : List UInt8) (i : ℕ) (buf : List UInt8) (writes : List ℕ) :
    (copy_setting l i buf writes).buffer = buf ++ l.takeWhile (· ≠ 32) ∧
      (copy_setting l i buf writes).rest = l.dropWhile (· ≠ 32) := by
  induction l generalizing i buf writes with
  | nil => simp [copy_setting]
  | cons c l ih =>
    unfold copy_setting
    split
    next h => simp [h]
    next h => simp [h, ih]

theorem copy_setting_writes : j ∈ (copy_setting l i buf writes).writes ↔
    j ∈ writes ∨ (i ≤ j ∧ j ≤ i + (l.takeWhile (· ≠ 32)).length) := by
  induction l generalizing i buf writes with
  | nil =>
    rw [copy_setting, List.mem_cons, List.takeWhile_nil, List.length_nil, or_comm,
      show j = i ↔ i ≤ j ∧ j ≤ i + 0 by omega]
  | cons c l ih =>
    unfold copy_setting
    split
    next h =>
      rw [List.mem_cons, or_comm, h, List.takeWhile_cons, if_neg (by simp), List.length_nil,
        show j = i ↔ i ≤ j ∧ j ≤ i + 0 by omega]
    next h =>
      rw [ih, List.mem_cons, or_comm (a := j = i), or_assoc, List.takeWhile_cons,
        if_pos (by simpa using h), List.length_cons]
      refine or_congr_right ?_
      omega

/-! ### The loop of `parse` takes one token in each turn -/

@[simp] theorem tokens_nil : tokens [] = [] := by simp [tokens, List.splitOn_nil]

theorem tokens_append (l l' : List UInt8) : tokens (l ++ 32 :: l') = tokens l ++ tokens l' := by
  unfold tokens
  rw [List.splitOn_append_cons_self, List.filter_append]

theorem tokens_space (l : List UInt8) : tokens (32 :: l) = tokens l := by
  have h := tokens_append [] l
  rwa [tokens_nil, List.nil_append, List.nil_append] at h

theorem tokens_word (h : 32 ∉ l) (hl : l ≠ []) : tokens l = [l] := by
  unfold tokens
  rw [List.splitOn_eq_singleton h, List.filter_cons_of_pos (by simpa using hl), List.filter_nil]

theorem tokens_skip_spaces (l : List UInt8) : tokens (skip_spaces l) = tokens l := by
  induction l with
  | nil => rfl
  | cons c l ih =>
    unfold skip_spaces
    split
    next h => rw [ih, h, tokens_space]
    next => rfl

theorem tokens_copied (l : List UInt8) : tokens l =
    if l.takeWhile (· ≠ 32) = [] then tokens (l.dropWhile (· ≠ 32))
    else l.takeWhile (· ≠ 32) :: tokens (l.dropWhile (· ≠ 32)) := by
  have hl := List.takeWhile_append_dropWhile (p := (· ≠ 32)) (l := l)
  generalize hw : l.takeWhile (· ≠ 32) = w at hl ⊢
  generalize hr : l.dropWhile (· ≠ 32) = r at hl ⊢
  have hword : 32 ∉ w := by
    intro h
    rw [← hw] at h
    simpa using List.mem_takeWhile_imp h
  subst hl
  split
  next h => rw [h, List.nil_append]
  next h =>
    cases r with
    | nil => rw [List.append_nil, tokens_word hword h, tokens_nil]
    | cons c r =>
      have hc : c = 32 := by
        have hhead := List.head?_dropWhile_not (· ≠ 32) (w ++ c :: r)
        rw [hr] at hhead
        simpa using hhead
      rw [hc, tokens_append, tokens_word hword h, tokens_space, List.singleton_append]

theorem tokens_setting (s : Parse F) : tokens s.cmdline =
    if s.setting.buffer = [] then [] else s.setting.buffer :: tokens s.setting.rest := by
  obtain ⟨hbuffer, hrest⟩ := copy_setting_eq (skip_spaces s.cmdline) 0 [] []
  rw [List.nil_append] at hbuffer
  rw [Parse.setting, hbuffer, hrest, ← tokens_skip_spaces, tokens_copied]
  split
  next h =>
    -- Behind the spaces there is nothing, or there would be a token.
    have hnil : skip_spaces s.cmdline = [] := by
      rw [skip_spaces_eq] at h ⊢
      by_contra hne
      obtain ⟨c, l, hc⟩ := List.exists_cons_of_ne_nil hne
      have hhead := List.head?_dropWhile_not (· = 32) s.cmdline
      rw [hc] at h hhead
      simp_all
    rw [hnil, List.dropWhile_nil, tokens_nil]
  next => rfl

theorem rest_lt (h : s.setting.buffer ≠ []) : s.setting.rest.length < s.cmdline.length := by
  obtain ⟨hbuffer, hrest⟩ := copy_setting_eq (skip_spaces s.cmdline) 0 [] []
  rw [List.nil_append] at hbuffer
  have hlen := congrArg List.length
    (List.takeWhile_append_dropWhile (p := (· ≠ 32)) (l := skip_spaces s.cmdline))
  have hskip : (skip_spaces s.cmdline).length ≤ s.cmdline.length := by
    rw [skip_spaces_eq]
    exact (List.dropWhile_suffix _).length_le
  have hpos : 0 < s.setting.buffer.length := List.length_pos_iff.mpr h
  rw [List.length_append, ← hbuffer, ← hrest] at hlen
  unfold Parse.setting at hpos ⊢
  omega

theorem parse_turn_nil (h : s.cmdline = [] ∨ s.setting.buffer = []) :
    parse_turn rgns s = .inr s.calls := by
  unfold parse_turn
  obtain h | h := h
  · rw [if_pos h]
  · rw [if_pos (List.length_eq_zero_iff.mpr h), ite_self]

theorem parse_turn_cons (hs : s.cmdline ≠ []) (h : s.setting.buffer ≠ []) : parse_turn rgns s =
    .inl ⟨s.setting.rest, s.calls ++ (process rgns s.setting.buffer).toList⟩ := by
  unfold parse_turn
  rw [if_neg hs, if_neg fun h0 => h (List.length_eq_zero_iff.mp h0)]

theorem setting_nil (h : s.cmdline = []) : s.setting.buffer = [] := by
  rw [Parse.setting, h]
  rfl

theorem parse_turn_inl (ht : parse_turn rgns s = .inl t) : s.setting.buffer ≠ [] ∧
    t = ⟨s.setting.rest, s.calls ++ (process rgns s.setting.buffer).toList⟩ := by
  by_cases hs : s.cmdline = []
  · rw [parse_turn_nil (.inl hs)] at ht
    cases ht
  · by_cases h : s.setting.buffer = []
    · rw [parse_turn_nil (.inr h)] at ht
      cases ht
    · rw [parse_turn_cons hs h] at ht
      cases ht
      exact ⟨h, rfl⟩

/-- Every token is processed, in order. -/
theorem parse_ends (rgns : List (Registration F)) (s : Parse F) :
    (parse_turn rgns).Ends s (s.calls ++ (tokens s.cmdline).filterMap (process rgns)) := by
  induction hn : s.cmdline.length using Nat.strongRecOn generalizing s with
  | ind n ih =>
    rw [tokens_setting]
    by_cases h : s.setting.buffer = []
    · rw [if_pos h, List.filterMap_nil, List.append_nil]
      exact .leave (parse_turn_nil (.inr h))
    · have hs : s.cmdline ≠ [] := fun hnil => h (setting_nil hnil)
      have hrest := ih _ (hn ▸ rest_lt h)
        ⟨s.setting.rest, s.calls ++ (process rgns s.setting.buffer).toList⟩ rfl
      rw [if_neg h, List.filterMap_cons]
      refine .turn (parse_turn_cons hs h) ?_
      cases hp : process rgns s.setting.buffer with
      | none => simpa [hp] using hrest
      | some call => simpa [hp] using hrest

/-! ## Staying in the buffers -/

theorem copy_key_writes (hi : i < key_size) (hj : j ∈ (copy_key l i buf writes).writes) :
    j ∈ writes ∨ j < key_size := by
  induction l generalizing i buf writes with
  | nil =>
    rw [copy_key, List.mem_cons] at hj
    exact hj.elim (fun h => .inr (h ▸ hi)) .inl
  | cons c l ih =>
    unfold copy_key at hj
    split at hj
    next h =>
      obtain hj | hj := ih (by unfold key_size at h ⊢; omega) hj
      · exact (List.mem_cons.mp hj).elim (fun h => .inr (h ▸ hi)) .inl
      · exact .inr hj
    next => exact (List.mem_cons.mp hj).elim (fun h => .inr (h ▸ hi)) .inl

theorem copy_value_writes (hi : i < key_size) (hj : j ∈ (copy_value l i buf writes).writes) :
    j ∈ writes ∨ j < key_size := by
  induction l generalizing i buf writes with
  | nil =>
    rw [copy_value, List.mem_cons] at hj
    exact hj.elim (fun h => .inr (h ▸ hi)) .inl
  | cons c l ih =>
    unfold copy_value at hj
    split at hj
    next h =>
      split at hj
      · exact ih hi hj
      · obtain hj | hj := ih (by unfold key_size at h ⊢; omega) hj
        · exact (List.mem_cons.mp hj).elim (fun h => .inr (h ▸ hi)) .inl
        · exact .inr hj
    next => exact (List.mem_cons.mp hj).elim (fun h => .inr (h ▸ hi)) .inl

/-- The loops of `process` have a bound each, and the one of `parse` has none. -/
theorem inside_iff : Inside s.setting ↔ s.setting.buffer.length < setting_size := by
  obtain ⟨hbuffer, -⟩ := copy_setting_eq (skip_spaces s.cmdline) 0 [] []
  rw [List.nil_append] at hbuffer
  have hwrites : ∀ j, j ∈ s.setting.writes ↔ j ≤ s.setting.buffer.length := by
    intro j
    rw [Parse.setting, copy_setting_writes, hbuffer]
    simp
  constructor
  · intro h
    exact h.setting _ ((hwrites _).mpr le_rfl)
  · intro h
    refine ⟨fun i hi => lt_of_le_of_lt ((hwrites i).mp hi) h, fun _ i hi => ?_, fun _ i hi => ?_⟩
    · exact (copy_key_writes (by decide) hi).resolve_left List.not_mem_nil
    · exact (copy_value_writes (by decide) hi).resolve_left List.not_mem_nil

theorem reaches_tokens (h : (parse_turn rgns).Reaches s t) : ∀ token ∈ tokens t.cmdline,
    token ∈ tokens s.cmdline := by
  refine h.preserves (I := fun t => ∀ token ∈ tokens t.cmdline, token ∈ tokens s.cmdline)
    (fun _ h => h) ?_
  intro t u ht hturn token hmem
  obtain ⟨hne, rfl⟩ := parse_turn_inl hturn
  refine ht token ?_
  rw [tokens_setting, if_neg hne]
  exact List.mem_cons_of_mem _ hmem

theorem token_reached {token : List UInt8} (rgns : List (Registration F)) (s : Parse F)
    (h : token ∈ tokens s.cmdline) :
    ∃ t, (parse_turn rgns).Reaches s t ∧ t.cmdline ≠ [] ∧ t.setting.buffer = token := by
  induction hn : s.cmdline.length using Nat.strongRecOn generalizing s with
  | ind n ih =>
    rw [tokens_setting] at h
    split at h
    · cases h
    next hne =>
      have hs : s.cmdline ≠ [] := fun hnil => hne (setting_nil hnil)
      obtain rfl | hmem := List.mem_cons.mp h
      · exact ⟨s, .here s, hs, rfl⟩
      · obtain ⟨t, hr, ht⟩ := ih _ (hn ▸ rest_lt hne)
          ⟨s.setting.rest, s.calls ++ (process rgns s.setting.buffer).toList⟩ hmem rfl
        exact ⟨t, .turn (parse_turn_cons hs hne) hr, ht⟩

/-- All is written inside the buffers exactly if no token has 128 characters or more. -/
theorem stays_inside_iff (rgns : List (Registration F)) (cmdline : List UInt8) :
    StaysInside rgns cmdline ↔ ∀ token ∈ tokens cmdline, token.length < setting_size := by
  constructor
  · rintro ⟨-, hinside⟩ token hmem
    obtain ⟨t, hr, hne, rfl⟩ := token_reached rgns (parse_start cmdline) hmem
    exact inside_iff.mp (hinside t hr hne)
  · intro h
    refine ⟨⟨_, parse_ends rgns _⟩, fun s hr _ => inside_iff.mpr ?_⟩
    by_cases hnil : s.setting.buffer = []
    · rw [hnil]
      decide
    · refine h _ (reaches_tokens hr _ ?_)
      rw [tokens_setting, if_neg hnil]
      exact List.mem_cons_self

/-- One token of 128 characters. -/
theorem setting_overrun : ¬StaysInside ([] : List (Registration Unit)) (List.replicate 128 97) := by
  rintro ⟨-, h⟩
  have hlt := inside_iff.mp (h _ (.here _) (by decide))
  revert hlt
  decide +kernel

/-! ## What the functions are called with -/

/-- A token with a key and a value that fit. -/
structure Setting (token : List UInt8) : Prop where
  equals : 61 ∈ token
  key : (key token).length < key_size
  value : (value token).length < key_size

/-- The calls that the tokens ask for, each of the first registration with the key. -/
def wanted (rgns : List (Registration F)) (cmdline : List UInt8) : List (F × List UInt8) :=
  (tokens cmdline).filterMap fun token =>
    (rgns.find? fun reg => reg.match_ = some (key token)).map fun reg => (reg.fn, value token)

theorem copy_key_eq (l : List UInt8) (i : ℕ) (buf : List UInt8) (writes : List ℕ)
    (h : i + (key l).length < key_size) :
    (copy_key l i buf writes).buffer = buf ++ key l ∧
      (copy_key l i buf writes).rest = l.dropWhile (· ≠ 61) := by
  induction l generalizing i buf writes with
  | nil => simp [copy_key, key]
  | cons c l ih =>
    unfold copy_key
    by_cases hc : c = 61
    · simp [hc, key]
    · have hkey : key (c :: l) = c :: key l := by simp [key, hc]
      rw [hkey, List.length_cons] at h
      rw [if_pos ⟨hc, by omega⟩, List.dropWhile_cons, if_pos (by simpa using hc), hkey]
      obtain ⟨hbuffer, hrest⟩ := ih (i + 1) (buf ++ [c]) (i :: writes) (by omega)
      exact ⟨by rw [hbuffer, List.append_assoc, List.singleton_append], hrest⟩

theorem copy_value_eq (h : i + (l.filter (· ≠ 61)).length < key_size) :
    (copy_value l i buf writes).buffer = buf ++ l.filter (· ≠ 61) := by
  induction l generalizing i buf writes with
  | nil => simp [copy_value]
  | cons c l ih =>
    unfold copy_value
    split
    next hi =>
      by_cases hc : c = 61
      · rw [if_pos hc, List.filter_cons_of_neg (by simpa using hc)]
        rw [List.filter_cons_of_neg (by simpa using hc)] at h
        exact ih h
      · rw [if_neg hc, List.filter_cons_of_pos (by simpa using hc)]
        rw [List.filter_cons_of_pos (by simpa using hc), List.length_cons] at h
        rw [ih (by omega), List.append_assoc, List.singleton_append]
    next hi =>
      -- The buffer is full, and only equals signs are left.
      have hnone : (c :: l).filter (· ≠ 61) = [] := by
        rw [← List.length_eq_zero_iff]
        omega
      rw [hnone, List.append_nil]

theorem find_registration_eq {k : List UInt8} (hk : k.length ≤ 256)
    (rgns : List (Registration F)) :
    find_registration k rgns = rgns.find? fun reg => reg.match_ = some k := by
  induction rgns with
  | nil => rfl
  | cons rgn rgns ih =>
    unfold find_registration
    cases hm : rgn.match_ with
    | none => simp [hm, ih]
    | some m =>
      simp only [strncmp_eq_zero_of_le hk, ih, List.find?_cons, hm, Option.some.injEq]
      split <;> simp [*]

/-- The value loses its equals signs. -/
theorem process_setting {token : List UInt8} (h : Setting token) :
    process rgns token = (rgns.find? fun reg => reg.match_ = some (key token)).map fun reg =>
      (reg.fn, (value token).filter (· ≠ 61)) := by
  have hkey := h.key
  obtain ⟨hbuffer, hrest⟩ := copy_key_eq token 0 [] [] (by rwa [Nat.zero_add])
  rw [List.nil_append] at hbuffer
  have hvalue : (token.dropWhile (· ≠ 61)).filter (· ≠ 61) = (value token).filter (· ≠ 61) := by
    unfold value
    cases hd : token.dropWhile (· ≠ 61) with
    | nil => rfl
    | cons c l =>
      have hhead := List.head?_dropWhile_not (· ≠ 61) token
      rw [hd] at hhead
      rw [List.filter_cons_of_neg (by simpa using hhead), List.tail_cons]
  have hshort := lt_of_le_of_lt (List.length_filter_le (· ≠ 61) (value token)) h.value
  rw [process, value_of, key_of, hbuffer, hrest,
    find_registration_eq (hkey.le.trans (by decide)), copy_value_eq, List.nil_append, hvalue]
  rwa [Nat.zero_add, hvalue]

theorem filterMap_eq_iff {α β : Type} {f g : α → Option β} {l : List α}
    (h : ∀ a ∈ l, (f a).isSome = (g a).isSome) :
    l.filterMap f = l.filterMap g ↔ ∀ a ∈ l, f a = g a := by
  induction l with
  | nil => simp
  | cons a l ih =>
    have hhead := h a List.mem_cons_self
    rw [List.filterMap_cons, List.filterMap_cons, List.forall_mem_cons,
      ← ih fun b hb => h b (List.mem_cons_of_mem _ hb)]
    cases hf : f a <;> cases hg : g a <;> simp_all

/-- The functions are called with what is behind the first equals sign exactly if there is no other
in the values that they are called with. -/
theorem calls_iff (rgns : List (Registration F)) (h : ∀ token ∈ tokens cmdline, Setting token) :
    (parse_turn rgns).Ends (parse_start cmdline) (wanted rgns cmdline) ↔
      ∀ token ∈ tokens cmdline, (∃ reg ∈ rgns, reg.match_ = some (key token)) → 61 ∉ value token := by
  have hends := parse_ends rgns (parse_start cmdline)
  have hiff : (parse_turn rgns).Ends (parse_start cmdline) (wanted rgns cmdline) ↔
      (tokens cmdline).filterMap (process rgns) = wanted rgns cmdline := by
    constructor
    · exact fun hw => hends.unique hw
    · exact fun heq => heq ▸ hends
  rw [hiff, wanted, filterMap_eq_iff]
  · refine forall₂_congr fun token hmem => ?_
    rw [process_setting (h token hmem)]
    cases hfind : rgns.find? fun reg => reg.match_ = some (key token) with
    | none =>
      rw [List.find?_eq_none] at hfind
      refine iff_of_true rfl ?_
      rintro ⟨reg, hreg, hmatch⟩
      exact absurd hmatch (by simpa using hfind reg hreg)
    | some reg =>
      have hreg : ∃ reg ∈ rgns, reg.match_ = some (key token) :=
        ⟨reg, List.mem_of_find?_eq_some hfind, by simpa using List.find?_some hfind⟩
      have hfilter : (value token).filter (· ≠ 61) = value token ↔ 61 ∉ value token := by
        rw [List.filter_eq_self]
        simp only [ne_eq, decide_eq_true_eq]
        exact ⟨fun h hmem => h 61 hmem rfl, fun h c hc heq => h (heq ▸ hc)⟩
      rw [Option.map_some, Option.map_some, Option.some.injEq, Prod.mk.injEq, and_iff_right rfl,
        hfilter]
      exact ⟨fun h _ => h, fun h => h hreg⟩
  · intro token hmem
    rw [process_setting (h token hmem), Option.isSome_map, Option.isSome_map]

/-- The command line `init=/a`, where `init` is registered. -/
theorem calls_iff_init :
    (parse_turn [⟨some [105, 110, 105, 116], ()⟩]).Ends
        (parse_start [105, 110, 105, 116, 61, 47, 97])
        (wanted [⟨some [105, 110, 105, 116], ()⟩] [105, 110, 105, 116, 61, 47, 97]) ↔
      ∀ token ∈ tokens [105, 110, 105, 116, 61, 47, 97],
        (∃ reg ∈ [(⟨some [105, 110, 105, 116], ()⟩ : Registration Unit)],
          reg.match_ = some (key token)) → 61 ∉ value token := by
  refine calls_iff _ fun token hmem => ?_
  rw [tokens_word (by decide) (by decide), List.mem_singleton] at hmem
  subst hmem
  exact ⟨by decide, by decide, by decide⟩

/-- For `a=b=c` the function of `a` is called with `bc`. -/
theorem equals_lost :
    ¬(parse_turn [⟨some [97], ()⟩]).Ends (parse_start [97, 61, 98, 61, 99])
      (wanted [⟨some [97], ()⟩] [97, 61, 98, 61, 99]) := by
  intro h
  have hends := parse_ends [⟨some [97], ()⟩] (parse_start [97, 61, 98, 61, 99])
  have heq := hends.unique h
  rw [wanted, parse_start, tokens_word (by decide) (by decide)] at heq
  revert heq
  decide

end Infos.Util.CommandLine
