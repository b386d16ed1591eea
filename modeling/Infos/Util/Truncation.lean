import Infos.Util.Numerals

/-!
# Shorter buffers

What a format prints is a list of fields. A text that does not fit loses its end, a number that does
not fit loses its first digits, or one character of its padding.
-/

namespace Infos.Util.Printf

/-- What is printed for a character of the format or for a directive. A number has its digits and
its sign in the order in which they end up. -/
inductive Field
  | text (t : List UInt8)
  | number (pad : ℤ) (pad_char : UInt8) (s : List UInt8) (h : s ≠ [])

variable {b : Buffer} {buffer n r R k : ℕ} {t s x : List UInt8} {c pad_char : UInt8} {pad : ℤ}
  {fs gs : List Field}

/-- What is printed of a field with so much room. -/
def Field.clip (room : ℕ) : Field → List UInt8
  | .text t => t.take room
  | .number pad pad_char s _ => number_text room pad pad_char s

/-- What is printed of the fields with so much room for all. -/
def clip : (room : ℕ) → List Field → List UInt8
  | _, [] => []
  | room, f :: fs => f.clip room ++ clip (room - (f.clip room).length) fs

/-- How many characters are put in front of a number that has room. -/
def padding (room : ℕ) (pad : ℤ) (len : ℕ) : ℕ :=
  min (int ((if room ≤ pad then (room : ℤ) - 1 else pad) - len)).toNat (room - len)

/-- The first character that is printed if there is room for one only. -/
def next : List Field → Option UInt8
  | [] => none
  | .text [] :: fs => next fs
  | .text (c :: _) :: _ => some c
  | .number _ _ s _ :: _ => s.getLast?

/-- The fields with room `r` are what the fields with room `R` begin with. Where a number is cut,
its last characters have to be the same as those that its field begins with. Where padding is left
out, the number and what follows it have to look like the padding. -/
def Agree : (r R : ℕ) → List Field → Prop
  | _, _, [] => True
  | r, R, .text t :: fs => Agree (r - t.length) (R - t.length) fs
  | r, R, .number pad pad_char s _ :: fs =>
    if r = 0 then True
    else if r ≤ s.length then (number_text R pad pad_char s).take r = s.drop (s.length - r)
    else if padding r pad s.length = padding R pad s.length then
      Agree (r - (padding r pad s.length + s.length)) (R - (padding r pad s.length + s.length)) fs
    else (∀ c ∈ s, c = pad_char) ∧ (r ≤ padding r pad s.length + s.length ∨ next fs = some pad_char)

/-! ## Fields -/

theorem number_text_fits (h : s.length ≤ r) :
    number_text r pad pad_char s = List.replicate (padding r pad s.length) pad_char ++ s := by
  unfold number_text
  rw [Nat.sub_eq_zero_of_le h]
  rfl

/-- A number that is cut has no padding. -/
theorem number_text_cut (h : r ≤ s.length) :
    number_text r pad pad_char s = s.drop (s.length - r) := by
  have hlen : (s.drop (s.length - r)).length = r := by
    rw [List.length_drop]
    omega
  unfold number_text
  dsimp only
  rw [hlen, Nat.sub_self, Nat.min_zero, List.replicate_zero, List.nil_append]

theorem length_number_text_le : (number_text r pad pad_char s).length ≤ r := by
  by_cases h : s.length ≤ r
  · rw [number_text_fits h, List.length_append, List.length_replicate]
    unfold padding
    omega
  · rw [number_text_cut (by omega), List.length_drop]
    omega

theorem length_clip_field_le (f : Field) : (f.clip r).length ≤ r := by
  cases f with
  | text t => exact List.length_take_le r t
  | number pad pad_char s h => exact length_number_text_le

theorem clip_zero (fs : List Field) : clip 0 fs = [] := by
  induction fs with
  | nil => rfl
  | cons f fs ih =>
    have hnil : f.clip 0 = [] := List.eq_nil_of_length_eq_zero (Nat.le_zero.mp (length_clip_field_le f))
    rw [clip, hnil, List.length_nil, Nat.sub_zero, ih]
    rfl

theorem length_clip_le (r : ℕ) (fs : List Field) : (clip r fs).length ≤ r := by
  induction fs generalizing r with
  | nil => exact Nat.zero_le _
  | cons f fs ih =>
    have hle := length_clip_field_le (r := r) f
    have hrest := ih (r - (f.clip r).length)
    rw [clip, List.length_append]
    omega

theorem clip_append (r : ℕ) (fs gs : List Field) :
    clip r (fs ++ gs) = clip r fs ++ clip (r - (clip r fs).length) gs := by
  induction fs generalizing r with
  | nil => rfl
  | cons f fs ih =>
    rw [List.cons_append, clip, clip, ih, List.append_assoc, List.length_append, Nat.sub_sub]

theorem clip_one (fs : List Field) : clip 1 fs = (next fs).toList := by
  induction fs with
  | nil => rfl
  | cons f fs ih =>
    cases f with
    | text t =>
      cases t with
      | nil => exact ih
      | cons c t =>
        rw [clip, Field.clip, List.take_succ_cons, List.take_zero]
        exact congrArg (c :: ·) (clip_zero fs)
    | number pad pad_char s h =>
      have hpos := List.length_pos_iff.mpr h
      rw [clip, Field.clip, number_text_cut hpos, List.length_drop,
        show 1 - (s.length - (s.length - 1)) = 0 by omega, clip_zero, List.append_nil,
        List.drop_length_sub_one h, next, List.getLast?_eq_some_getLast h]
      rfl

/-- The padding depends on the room only where it fills the room, or all of it but one. -/
theorem padding_cases (hlen : n < r) (hlt : r < R) (hR : R < 2 ^ 31) :
    padding r pad n = padding R pad n ∨
      (padding r pad n < padding R pad n ∧ r ≤ padding r pad n + n + 1 ∧ r ≤ padding R pad n + n) := by
  unfold padding
  by_cases hneg : pad < 0
  · rw [if_neg (by omega), if_neg (by omega)]
    omega
  · have hint : ∀ room : ℕ, n < room → room ≤ R →
        int ((if (room : ℤ) ≤ pad then (room : ℤ) - 1 else pad) - n) =
          (if (room : ℤ) ≤ pad then (room : ℤ) - 1 else pad) - n := by
      intro room hroom hle
      refine Int.bmod_eq_of_le_mul_two ?_ ?_ <;> split <;> omega
    rw [hint r hlen hlt.le, hint R (by omega) le_rfl]
    split <;> split <;> omega

/-! ## Two rooms -/

theorem agree_zero (R : ℕ) (fs : List Field) : Agree 0 R fs := by
  induction fs generalizing R with
  | nil => trivial
  | cons f fs ih =>
    cases f with
    | text t =>
      rw [Agree, Nat.zero_sub]
      exact ih _
    | number pad pad_char s h =>
      unfold Agree
      exact trivial

theorem append_eq_take (h : t.length ≤ r) (x y : List UInt8) :
    t ++ x = (t ++ y).take r ↔ x = y.take (r - t.length) := by
  rw [List.take_append, List.take_of_length_le h, List.append_cancel_left_eq]

/-- A text that agrees with itself, moved on, is all one character. -/
theorem all_of_shift {j : ℕ} (h : t <+: List.replicate (j + 1) c ++ t) : ∀ a ∈ t, a = c := by
  induction t with
  | nil => exact List.forall_mem_nil _
  | cons a t ih =>
    rw [List.replicate_succ, List.cons_append, List.cons_prefix_cons] at h
    obtain ⟨rfl, h⟩ := h
    have hsame : List.replicate j a ++ a :: t = List.replicate (j + 1) a ++ t := by
      rw [List.replicate_succ', List.append_assoc]
      rfl
    exact List.forall_mem_cons.mpr ⟨rfl, ih (hsame ▸ h)⟩

theorem prefix_padding_iff {j : ℕ} (hj : 0 < j) (hx : x.length ≤ j) :
    s ++ x <+: List.replicate j c ++ s ↔ (∀ a ∈ s, a = c) ∧ ∀ a ∈ x, a = c := by
  constructor
  · intro h
    have hmore : List.replicate j c ++ s <+: List.replicate j c ++ (s ++ x) := by
      rw [← List.append_assoc]
      exact List.prefix_append _ _
    obtain ⟨j, rfl⟩ := Nat.exists_eq_add_one.mpr hj
    have hall := all_of_shift (h.trans hmore)
    exact ⟨fun a ha => hall a (List.mem_append_left x ha),
      fun a ha => hall a (List.mem_append_right s ha)⟩
  · rintro ⟨hs, hx'⟩
    rw [List.eq_replicate_of_mem hs, List.eq_replicate_of_mem hx',
      List.replicate_append_replicate, List.replicate_append_replicate]
    refine ⟨List.replicate (j - x.length) c, ?_⟩
    rw [List.replicate_append_replicate]
    congr 1
    omega

/-- A number that is short of padding. -/
theorem short_number_iff {p P : ℕ} (hlt : p < P) (hshort : r ≤ p + s.length + 1)
    (hlong : r ≤ P + s.length) (hroom : p + s.length ≤ r) (y : List UInt8) :
    List.replicate p c ++ s ++ clip (r - (p + s.length)) fs =
        (List.replicate P c ++ s ++ y).take r ↔
      (∀ a ∈ s, a = c) ∧ (r ≤ p + s.length ∨ next fs = some c) := by
  have htake : (List.replicate P c ++ s ++ y).take r =
      List.replicate p c ++ (List.replicate (P - p) c ++ s).take (r - p) := by
    rw [List.take_append_of_le_length (by simpa using hlong),
      show P = p + (P - p) by omega, ← List.replicate_append_replicate, List.append_assoc,
      List.take_append, List.length_replicate, Nat.add_sub_cancel_left,
      List.take_of_length_le (by rw [List.length_replicate]; omega)]
  have hle := length_clip_le (r - (p + s.length)) fs
  rw [htake, List.append_assoc, List.append_cancel_left_eq]
  have htake' (x : List UInt8) : s ++ x = (List.replicate (P - p) c ++ s).take (r - p) ↔
      s.length + x.length = r - p ∧ s ++ x <+: List.replicate (P - p) c ++ s := by
    rw [List.prefix_iff_eq_take, List.length_append]
    constructor
    · intro h
      have hlen := congrArg List.length h
      rw [List.length_append, List.length_take, List.length_append, List.length_replicate] at hlen
      have heq : s.length + x.length = r - p := by omega
      exact ⟨heq, heq ▸ h⟩
    · rintro ⟨heq, h⟩
      exact heq ▸ h
  rw [htake', prefix_padding_iff (Nat.sub_pos_of_lt hlt) (by omega)]
  by_cases hfull : r ≤ p + s.length
  · rw [Nat.sub_eq_zero_of_le hfull, clip_zero]
    simp [hfull]
    omega
  · rw [show r - (p + s.length) = 1 by omega, clip_one]
    cases next fs with
    | none => simp; omega
    | some a => simp [hfull]; omega

theorem clip_iff (hlt : r < R) (hR : R < 2 ^ 31) (fs : List Field) :
    clip r fs = (clip R fs).take r ↔ Agree r R fs := by
  induction fs generalizing r R with
  | nil => exact iff_of_true List.take_nil.symm trivial
  | cons f fs ih =>
    -- What is left for the other fields.
    have hrest (n : ℕ) : clip (r - n) fs = (clip (R - n) fs).take (r - n) ↔
        Agree (r - n) (R - n) fs := by
      by_cases hn : r ≤ n
      · rw [Nat.sub_eq_zero_of_le hn, clip_zero]
        exact iff_of_true List.take_zero.symm (agree_zero _ fs)
      · exact ih (by omega) (by omega)
    cases f with
    | text t =>
      rw [Agree, ← hrest, clip, clip, Field.clip, Field.clip, List.length_take, List.length_take,
        show r - min r t.length = r - t.length by omega,
        show R - min R t.length = R - t.length by omega]
      by_cases ht : r ≤ t.length
      · rw [Nat.sub_eq_zero_of_le ht, clip_zero, List.append_nil, List.take_append_of_le_length
          (by rw [List.length_take]; omega), List.take_take, Nat.min_eq_left hlt.le]
        exact iff_of_true rfl List.take_zero.symm
      · have hr : t.take r = t := List.take_of_length_le (by omega)
        have hR : t.take R = t := List.take_of_length_le (by omega)
        rw [hr, hR]
        exact append_eq_take (by omega) _ _
    | number pad pad_char s h =>
      rw [Agree, clip, clip, Field.clip, Field.clip]
      by_cases hr : r = 0
      · rw [if_pos hr, hr, Nat.zero_sub, clip_zero, List.take_zero, List.append_nil]
        exact iff_of_true (List.eq_nil_of_length_eq_zero (Nat.le_zero.mp length_number_text_le))
          trivial
      rw [if_neg hr]
      by_cases hcut : r ≤ s.length
      · have hlen : r ≤ (number_text R pad pad_char s).length := by
          by_cases hfits : s.length ≤ R
          · rw [number_text_fits hfits, List.length_append]
            omega
          · rw [number_text_cut (by omega), List.length_drop]
            omega
        rw [if_pos hcut, number_text_cut hcut, List.length_drop,
          show r - (s.length - (s.length - r)) = 0 by omega, clip_zero, List.append_nil,
          List.take_append_of_le_length hlen]
        exact eq_comm
      rw [if_neg hcut, number_text_fits (by omega), number_text_fits (by omega),
        List.length_append, List.length_append, List.length_replicate, List.length_replicate]
      have hp : padding r pad s.length + s.length ≤ r := by
        unfold padding
        omega
      by_cases hsame : padding r pad s.length = padding R pad s.length
      · rw [if_pos hsame, ← hrest, ← hsame]
        have hlen : (List.replicate (padding r pad s.length) pad_char ++ s).length =
            padding r pad s.length + s.length := by
          rw [List.length_append, List.length_replicate]
        rw [append_eq_take (by omega), hlen]
      · rw [if_neg hsame]
        obtain ⟨hlt', hshort, hlong⟩ := (padding_cases (by omega) hlt hR).resolve_left hsame
        exact short_number_iff hlt' hshort hlong hp _

/-! ## The fields of a format -/

theorem figures_ne_nil (base n : ℕ) : figures base n ≠ [] := by
  unfold figures
  split
  · exact List.cons_ne_nil _ _
  next hn => exact mt List.map_eq_nil_iff.mp (Nat.digits_ne_nil_iff_ne_zero.mpr hn)

theorem printed_ne_nil (base value : UInt64) (sgn : Bool) : printed base value sgn ≠ [] := by
  unfold printed
  exact mt (fun h => List.reverse_eq_nil_iff.mp (List.append_eq_nil_iff.mp h).1) (figures_ne_nil _ _)

def Directive.number (d : Directive) (base value : UInt64) (sgn : Bool) : Field :=
  .number d.pad_size d.pad_char (printed base value sgn) (printed_ne_nil base value sgn)

/-- A text ends in front of its zero, and is padded behind. -/
def padded_text (d : Directive) (t : List UInt8) : List UInt8 :=
  let t := t.takeWhile (· ≠ 0)
  t ++ List.replicate (d.pad_size - t.length).toNat d.pad_char

def directive_fields (args : Args) (arg : ℕ) (c : UInt8) (d : Directive) : List Field :=
  let v := args.value arg
  if c = chr 'd' ∨ c = chr 'u' then
    let v := if d.number_size = 8 then v
      else if c = chr 'u' then v.toUInt32.toUInt64
      else v.toUInt32.toInt32.toInt64.toUInt64
    [d.number 10 v (c = chr 'd')]
  else if c = chr 'b' ∨ c = chr 'x' ∨ c = chr 'p' then
    let v := if d.number_size = 8 ∨ c = chr 'p' then v else v.toUInt32.toUInt64
    (if c = chr 'p' then [.text [chr '0', chr 'x']] else []) ++
      [d.number (if c = chr 'b' then 2 else 16) v false]
  else if c = chr 's' then [.text (padded_text d (args.text v))]
  else if c = chr 'c' then [.text [v.toUInt8]]
  else [.text [c]]

def args_taken (c : UInt8) : ℕ :=
  if c = chr 'd' ∨ c = chr 'u' ∨ c = chr 'b' ∨ c = chr 'x' ∨ c = chr 'p' ∨ c = chr 's' ∨
    c = chr 'c' then 1 else 0

def fields (args : Args) : (fmt : List UInt8) → Option Directive → (arg : ℕ) → List Field
  | [], _, _ => []
  | c :: fmt, none, arg =>
    if c = 0 then []
    else if c = chr '%' then fields args fmt (some ⟨0, chr ' ', 4⟩) arg
    else .text [c] :: fields args fmt none arg
  | c :: fmt, some d, arg =>
    if c = 0 then []
    else if c = chr '0' then
      let d := if 0 < d.pad_size then { d with pad_size := int (d.pad_size * 10) }
        else { d with pad_char := chr '0' }
      fields args fmt (some d) arg
    else if chr '1' ≤ c ∧ c ≤ chr '9' then
      let pad_size := int (int (d.pad_size * 10) + (c - chr '0').toNat)
      fields args fmt (some { d with pad_size }) arg
    else if c = chr 'l' then fields args fmt (some { d with number_size := 8 }) arg
    else directive_fields args arg c d ++ fields args fmt none (arg + args_taken c)

/-! ## What is printed -/

variable {r' : ℕ × Buffer} {size : ℤ} {st : State} {value base : UInt64} {sgn : Bool}

theorem Prints.append {b' : Buffer} (h : Prints b buffer t (n, b'))
    (h' : Prints b' (buffer + n) x r') : Prints b buffer (t ++ x) (n + r'.1, r'.2) := by
  obtain ⟨hcount : n = t.length, htext, hfront⟩ := h
  obtain ⟨hcount', htext', hfront'⟩ := h'
  refine ⟨by rw [hcount, hcount', List.length_append], ?_, fun i hi => ?_⟩
  · rw [Buffer.text, List.length_append, List.range_add, List.map_append, List.map_map]
    conv_rhs => rw [← htext, ← htext']
    refine congrArg₂ (· ++ ·) ?_ ?_
    · refine List.map_congr_left fun i hi => hfront' _ ?_
      have hlt := List.mem_range.mp hi
      omega
    · refine List.map_congr_left fun i _ => ?_
      rw [Function.comp_apply, hcount, Nat.add_assoc]
  · rw [hfront' i (by omega), hfront i hi]

/-- The text was printed, at the beginning of a buffer with room for it and the zero. -/
structure Shown (size : ℤ) (b : Buffer) (t : List UInt8) (st : State) : Prop where
  count : st.count = st.buffer
  room : st.count ≤ size - 1
  prints : Prints b 0 t (st.buffer, st.mem)

theorem Shown.append (h : Shown size b t st) (hroom : (x.length : ℤ) ≤ size - 1 - st.count)
    (h' : Prints st.mem st.buffer x r') : Shown size b (t ++ x) (st.append r') := by
  obtain ⟨hcount, hle, hprints⟩ := h
  have hx := h'.count
  refine ⟨?_, ?_, ?_⟩
  · simp only [State.append, hcount, Int.natCast_add]
  · simp only [State.append]
    omega
  · refine hprints.append ?_
    rwa [Nat.zero_add]

theorem Shown.put (h : Shown size b t st) (hlt : st.count < size - 1) (c : UInt8) :
    Shown size b (t ++ [c]) (st.put c) := by
  obtain ⟨hcount, hle, hprints⟩ := h
  refine ⟨?_, ?_, ?_⟩
  · simp only [State.put, hcount, Int.natCast_add, Int.natCast_one]
  · simp only [State.put]
    omega
  · have hput := hprints.put c
    rwa [Nat.zero_add] at hput

theorem Shown.next_arg (h : Shown size b t st) : Shown size b t st.next_arg :=
  ⟨h.count, h.room, h.prints⟩

theorem append_text_prints (room : ℕ) (text : List UInt8) (hle : t.length ≤ room)
    (h : Prints b buffer t r') :
    Prints b buffer (t ++ (text.takeWhile (· ≠ 0)).take (room - t.length))
      (append_text buffer room text r'.1 r'.2) := by
  have hcount := h.count
  induction text generalizing r' t with
  | nil =>
    rw [List.takeWhile_nil, List.take_nil, List.append_nil]
    exact h
  | cons c text ih =>
    unfold append_text
    by_cases hc : c = 0
    · rw [if_neg (fun h => h.1 hc), List.takeWhile_cons, if_neg (by simpa using hc), List.take_nil,
        List.append_nil]
      exact h
    rw [List.takeWhile_cons, if_pos (by simpa using hc)]
    by_cases hlt : t.length < room
    · have hrest := ih (by rw [List.length_append, List.length_singleton]; omega) (h.put c)
        (h.put c).count
      rw [List.length_append, List.length_singleton, List.append_assoc, List.singleton_append,
        ← List.take_succ_cons, show room - (t.length + 1) + 1 = room - t.length by omega] at hrest
      rw [if_pos ⟨hc, by omega⟩]
      exact hrest
    · rw [if_neg (fun h => by omega), Nat.sub_eq_zero_of_le (by omega), List.take_zero,
        List.append_nil]
      exact h

theorem append_padding_prints (pad_char : UInt8) (turns : ℕ) (h : Prints b buffer t r') :
    Prints b buffer (t ++ List.replicate turns pad_char)
      (append_padding pad_char buffer turns r'.1 r'.2) := by
  induction turns generalizing r' t with
  | zero =>
    rw [List.replicate_zero, List.append_nil]
    exact h
  | succ turns ih =>
    have hrest := ih (h.put pad_char)
    rw [List.append_assoc, List.singleton_append, ← List.replicate_succ] at hrest
    exact hrest

theorem append_str_prints (d : Directive) (room : ℕ) (text : List UInt8) :
    Prints b buffer ((padded_text d text).take room)
      (append_str buffer room text d.pad_size d.pad_char b) := by
  have htext := append_text_prints room text (Nat.zero_le _) (prints_nil b buffer)
  have hcount := htext.count
  rw [List.nil_append, List.length_nil, Nat.sub_zero] at htext hcount
  have hpadded := append_padding_prints d.pad_char
    (min (room : ℤ) d.pad_size - (append_text buffer room text 0 b).1).toNat htext
  have heq : (padded_text d text).take room = (text.takeWhile (· ≠ 0)).take room ++
      List.replicate (min (room : ℤ) d.pad_size - (append_text buffer room text 0 b).1).toNat
        d.pad_char := by
    rw [padded_text, List.take_append, List.take_replicate]
    congr 2
    rw [hcount, List.length_take]
    omega
  rw [heq]
  exact hpadded

/-- A field that was printed into what room there is. -/
theorem Shown.field (h : Shown size b t st) {room : ℕ} (hroom : size - 1 - st.count = room)
    (f : Field) (h' : Prints st.mem st.buffer (f.clip room) r') :
    Shown size b (t ++ f.clip room) (st.append r') := by
  refine h.append ?_ h'
  have := length_clip_field_le (r := room) f
  omega

theorem print_number (d : Directive) {room : ℕ} (hbase : 1 < base.toNat) (hroom : sgn → 0 < room) :
    Prints b buffer ((d.number base value sgn).clip room)
      (append_num buffer room value base sgn d.pad_size d.pad_char b) := by
  refine append_num_prints hbase ?_ _ _
  unfold sign
  split
  next hneg => exact hroom (Bool.and_eq_true_iff.mp hneg).1
  next => exact Nat.zero_le _

/-- The room that is left behind a field. -/
theorem room_after {room : ℕ} (hroom : size - 1 - st.count = room) (f : Field)
    (h : Prints b buffer (f.clip room) r') :
    size - 1 - (st.append r').count = (room - (f.clip room).length : ℕ) := by
  have hle := length_clip_field_le (r := room) f
  have hcount := h.count
  simp only [State.append]
  omega

theorem clip_singleton (r : ℕ) (f : Field) : clip r [f] = f.clip r := by
  rw [clip, clip, List.append_nil]

theorem print_directive_shown (h : Shown size b t st) {room : ℕ} (hroom : size - 1 - st.count = room)
    (hpos : 0 < room) (args : Args) (c : UInt8) (d : Directive) :
    Shown size b (t ++ clip room (directive_fields args st.arg c d))
      (print_directive size args c d st) := by
  have hlt : st.count < size - 1 := by omega
  unfold directive_fields print_directive
  rw [hroom]
  extract_lets v dec bin st'
  split
  · rw [clip_singleton]
    exact (h.field hroom _ (print_number d (by decide) fun _ => hpos)).next_arg
  split
  · have hbase : 1 < (if c = chr 'b' then (2 : UInt64) else 16).toNat := by split <;> decide
    unfold st'
    by_cases hp : c = chr 'p'
    · -- Behind `0x` there may be no room left.
      rw [if_pos hp, if_pos hp, clip_append, clip_singleton, clip_singleton, ← List.append_assoc]
      have hprefix : Prints st.mem st.buffer ((Field.text [chr '0', chr 'x']).clip room)
          (append_str st.buffer room [chr '0', chr 'x'] 0 (chr ' ') st.mem) :=
        append_str_prints ⟨0, chr ' ', 4⟩ room [chr '0', chr 'x']
      have hleft := room_after hroom _ hprefix
      rw [hleft]
      exact ((h.field hroom _ hprefix).field hleft _ (print_number d hbase (by simp))).next_arg
    · rw [if_neg hp, if_neg hp, hroom, List.nil_append, clip_singleton]
      exact (h.field hroom _ (print_number d hbase fun _ => hpos)).next_arg
  split
  · rw [clip_singleton]
    exact (h.field hroom _ (append_str_prints d room _)).next_arg
  have htake (c : UInt8) : clip room [.text [c]] = [c] := by
    rw [clip_singleton, Field.clip, List.take_of_length_le hpos]
  split
  · rw [htake]
    exact (h.put hlt _).next_arg
  · rw [htake]
    exact h.put hlt _

theorem print_directive_arg (size : ℤ) (args : Args) (c : UInt8) (d : Directive) (st : State) :
    (print_directive size args c d st).arg = st.arg + args_taken c := by
  unfold print_directive
  extract_lets v dec bin st'
  have harg : st'.arg = st.arg := by
    unfold st'
    split <;> rfl
  have htaken (h : c = chr 'd' ∨ c = chr 'u' ∨ c = chr 'b' ∨ c = chr 'x' ∨ c = chr 'p' ∨
      c = chr 's' ∨ c = chr 'c') : args_taken c = 1 := if_pos h
  split
  next h => rw [htaken (by tauto)]; rfl
  split
  next h => rw [htaken (by tauto), ← harg]; rfl
  split
  next h => rw [htaken (by tauto)]; rfl
  split
  next h => rw [htaken (by tauto)]; rfl
  next => rw [args_taken, if_neg (by tauto)]; rfl

theorem print_loop_shown (args : Args) (fmt : List UInt8) {d : Option Directive} (room : ℕ)
    (h : Shown size b t st) (hroom : size - 1 - st.count = room) (hd : d.isSome → 0 < room) :
    Shown size b (t ++ clip room (fields args fmt d st.arg)) (print_loop size args fmt d st) := by
  induction fmt generalizing d st t room with
  | nil =>
    rw [fields, clip, List.append_nil]
    unfold print_loop
    exact h
  | cons c fmt ih =>
    cases d with
    | none =>
      unfold fields print_loop
      by_cases hc : c = 0
      · rw [if_pos hc, if_neg (show ¬(c ≠ 0 ∧ st.count < size - 1) from fun h => h.1 hc), clip,
          List.append_nil]
        exact h
      rw [if_neg hc]
      by_cases hpos : 0 < room
      · rw [if_pos (show c ≠ 0 ∧ st.count < size - 1 from ⟨hc, by omega⟩)]
        by_cases hdir : c = chr '%'
        · rw [if_pos hdir, if_pos hdir]
          exact ih room h hroom fun _ => hpos
        · rw [if_neg hdir, if_neg hdir]
          have hput : Shown size b (t ++ [c]) (st.put c) := h.put (by omega) c
          have hleft : size - 1 - (st.put c).count = (room - 1 : ℕ) := by
            simp only [State.put]
            omega
          have hrest := ih (d := none) _ hput hleft (by simp)
          rw [List.append_assoc] at hrest
          rw [clip, Field.clip, List.take_of_length_le hpos]
          exact hrest
      · rw [if_neg (show ¬(c ≠ 0 ∧ st.count < size - 1) by omega), Nat.eq_zero_of_not_pos hpos,
          clip_zero, List.append_nil]
        exact h
    | some d =>
      have hpos := hd rfl
      unfold fields print_loop
      split
      · rw [clip, List.append_nil]
        exact h
      split
      · exact ih room h hroom fun _ => hpos
      split
      · exact ih room h hroom fun _ => hpos
      split
      · exact ih room h hroom fun _ => hpos
      · have hdir := print_directive_shown h hroom hpos args c d
        have hleft : size - 1 - (print_directive size args c d st).count =
            (room - (clip room (directive_fields args st.arg c d)).length : ℕ) := by
          have hcount := hdir.count
          have hlen := hdir.prints.count
          have hcount₀ := h.count
          have hlen₀ := h.prints.count
          have hle := length_clip_le room (directive_fields args st.arg c d)
          rw [List.length_append] at hlen
          dsimp only at hlen hlen₀
          omega
        have hrest := ih (d := none) _ hdir hleft (by simp)
        rw [print_directive_arg, List.append_assoc] at hrest
        rw [clip_append]
        exact hrest

/-- The characters that `vsnprintf` produces. -/
def output (size : ℤ) (fmt : List UInt8) (args : Args) (b : Buffer) : List UInt8 :=
  (vsnprintf size fmt args b).2.text 0 (vsnprintf size fmt args b).1.toNat

theorem output_eq {size : ℕ} (fmt : List UInt8) (args : Args) (b : Buffer) :
    output (size + 1) fmt args b = clip size (fields args fmt none 0) := by
  have hstart : Shown (size + 1) b [] ⟨0, 0, 0, b⟩ := ⟨rfl, by dsimp only; omega, prints_nil b 0⟩
  obtain ⟨hcount, -, hlen, htext, -⟩ :=
    print_loop_shown args fmt (d := none) size hstart (by simp) (by simp)
  rw [List.nil_append] at hlen htext
  unfold output vsnprintf
  rw [if_neg (by omega)]
  dsimp only at hlen htext ⊢
  rw [hcount, Int.toNat_natCast, hlen]
  conv_rhs => rw [← htext]
  refine List.map_congr_left fun i hi => if_neg ?_
  have hlt := List.mem_range.mp hi
  omega

/-- The shorter output is where the longer one begins exactly if the fields agree. -/
theorem truncated_iff {n m : ℤ} (hn : 1 ≤ n) (hnm : n < m) (hm : m < 2 ^ 31) (fmt : List UInt8)
    (args : Args) (b b' : Buffer) :
    output n fmt args b = (output m fmt args b').take (n - 1).toNat ↔
      Agree (n - 1).toNat (m - 1).toNat (fields args fmt none 0) := by
  obtain ⟨r, rfl⟩ : ∃ r : ℕ, n = r + 1 := ⟨(n - 1).toNat, by omega⟩
  obtain ⟨R, rfl⟩ : ∃ R : ℕ, m = R + 1 := ⟨(m - 1).toNat, by omega⟩
  rw [output_eq, output_eq, Int.add_sub_cancel, Int.add_sub_cancel, Int.toNat_natCast,
    Int.toNat_natCast]
  exact clip_iff (by omega) (by omega) _

theorem truncated_iff_answer :
    output 4 [37, 100, 33] ⟨fun _ => 42, fun _ => []⟩ ⟨fun _ => 0, []⟩ =
      (output 9 [37, 100, 33] ⟨fun _ => 42, fun _ => []⟩ ⟨fun _ => 7, []⟩).take (4 - 1 : ℤ).toNat ↔
    Agree (4 - 1 : ℤ).toNat (9 - 1 : ℤ).toNat
      (fields ⟨fun _ => 42, fun _ => []⟩ [37, 100, 33] none 0) :=
  truncated_iff (by decide) (by decide) (by decide) _ _ _ _

/-- There is room for two of the three digits of 123, and the last two are printed. -/
theorem first_digit_lost :
    output 3 [37, 100] ⟨fun _ => 123, fun _ => []⟩ ⟨fun _ => 0, []⟩ ≠
      (output 10 [37, 100] ⟨fun _ => 123, fun _ => []⟩ ⟨fun _ => 0, []⟩).take (3 - 1) := by
  decide +kernel

end Infos.Util.Printf
