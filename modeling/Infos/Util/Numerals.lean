import Mathlib.Data.List.TakeWhile
import Mathlib.Data.Nat.Digits.Lemmas
import Infos.Util.Printf

/-!
# Printed numbers

Sign, digits and padding are put in front of one another. The sign is the first of them, so it ends
up behind the digits.
-/

namespace Infos.Util.Printf

variable {b : Buffer} {buffer n room k : ℕ} {t : List UInt8} {c : UInt8} {r : ℕ × Buffer}
  {value base : UInt64} {sgn : Bool}

/-! ## Texts in the buffer -/

def Buffer.text (b : Buffer) (buffer n : ℕ) : List UInt8 :=
  (List.range n).map fun i => b.cells (buffer + i)

@[simp] theorem length_text : (b.text buffer n).length = n := by simp [Buffer.text]

/-- The text was put behind what `b` has in front of `buffer`. -/
structure Prints (b : Buffer) (buffer : ℕ) (t : List UInt8) (r : ℕ × Buffer) : Prop where
  count : r.1 = t.length
  text : r.2.text buffer t.length = t
  front : ∀ i < buffer, r.2.cells i = b.cells i

theorem prints_nil (b : Buffer) (buffer : ℕ) : Prints b buffer [] (0, b) :=
  ⟨rfl, rfl, fun _ _ => rfl⟩

theorem cells_move_up (buffer i : ℕ) (b : Buffer) (j : ℕ) :
    (move_up buffer i b).cells j =
      if buffer < j ∧ j ≤ buffer + i then b.cells (j - 1) else b.cells j := by
  induction i generalizing b with
  | zero => rw [if_neg (by omega)]; rfl
  | succ i ih =>
    -- The cell above is moved first, and is not read again.
    unfold move_up
    rw [ih]
    dsimp only [Buffer.put]
    by_cases hlast : j = buffer + (i + 1)
    · rw [if_neg (by omega), if_pos hlast, if_pos (by omega), hlast]
      rfl
    by_cases hin : buffer < j ∧ j ≤ buffer + i
    · rw [if_pos hin, if_neg (by omega), if_pos (by omega)]
    · rw [if_neg hin, if_neg hlast, if_neg (by omega)]

theorem cells_prepend (c : UInt8) (buffer size : ℕ) (b : Buffer) (j : ℕ) :
    (prepend_to_buffer c buffer size b).cells j =
      if j = buffer then c
      else if buffer < j ∧ j ≤ buffer + size then b.cells (j - 1) else b.cells j := by
  unfold prepend_to_buffer
  dsimp only [Buffer.put]
  rw [cells_move_up]

theorem Prints.prepend (h : Prints b buffer t r) (c : UInt8) :
    Prints b buffer (c :: t) (r.1 + 1, prepend_to_buffer c buffer r.1 r.2) := by
  obtain ⟨hcount, htext, hfront⟩ := h
  refine ⟨by rw [hcount, List.length_cons], ?_, fun i hi => ?_⟩
  · rw [List.length_cons, Buffer.text, List.range_succ_eq_map, List.map_cons, List.map_map,
      cells_prepend, if_pos (Nat.add_zero _)]
    conv_rhs => rw [← htext]
    refine congrArg (c :: ·) (List.map_congr_left fun i hi => ?_)
    have hlt := List.mem_range.mp hi
    rw [Function.comp_apply, cells_prepend, if_neg (by omega), if_pos (by omega)]
    rfl
  · rw [cells_prepend, if_neg (by omega), if_neg (by omega), hfront i hi]

theorem Prints.put (h : Prints b buffer t r) (c : UInt8) :
    Prints b buffer (t ++ [c]) (r.1 + 1, r.2.put (buffer + r.1) c) := by
  obtain ⟨hcount, htext, hfront⟩ := h
  refine ⟨by rw [hcount, List.length_append, List.length_singleton], ?_, fun i hi => ?_⟩
  · rw [List.length_append, List.length_singleton, Buffer.text, List.range_succ, List.map_append,
      List.map_singleton]
    conv_rhs => rw [← htext]
    refine congrArg₂ (· ++ ·) (List.map_congr_left fun i hi => ?_) ?_
    · have hlt := List.mem_range.mp hi
      exact if_neg (by omega)
    · rw [← hcount]
      exact congrArg (fun x => [x]) (if_pos rfl)
  · exact (if_neg (by omega)).trans (hfront i hi)

/-! ## The digits -/

def figure (k : ℕ) : UInt8 := digit (UInt64.ofNat k)

/-- The digits of a number, the last one first. -/
def figures (base n : ℕ) : List UInt8 :=
  if n = 0 then [figure 0] else (Nat.digits base n).map figure

def is_negative (sgn : Bool) (value : UInt64) : Bool := sgn && value.toInt64 < 0

def sign (sgn : Bool) (value : UInt64) : List UInt8 :=
  if is_negative sgn value then [chr '-'] else []

def magnitude (sgn : Bool) (value : UInt64) : UInt64 :=
  if is_negative sgn value then -value else value

/-- Sign and digits, in the order in which they end up. -/
def printed (base value : UInt64) (sgn : Bool) : List UInt8 :=
  (figures base.toNat (magnitude sgn value).toNat).reverse ++ sign sgn value

/-- What `append_num` prints with so much room, where `s` is the number. -/
def number_text (room : ℕ) (pad : ℤ) (pad_char : UInt8) (s : List UInt8) : List UInt8 :=
  let t := s.drop (s.length - room)
  let pad : ℤ := if room ≤ pad then room - 1 else pad
  List.replicate (min (int (pad - t.length)).toNat (room - t.length)) pad_char ++ t

theorem append_digits_prints (hbase : 1 < base.toNat) (k : ℕ) (value : UInt64)
    (h : Prints b buffer t r) :
    Prints b buffer ((((Nat.digits base.toNat value.toNat).take k).map figure).reverse ++ t)
      (append_digits base buffer k value r.1 r.2) := by
  induction k generalizing value r t with
  | zero => exact h
  | succ k ih =>
    unfold append_digits
    split
    next hpos =>
      have hdigits : Nat.digits base.toNat value.toNat =
          value.toNat % base.toNat :: Nat.digits base.toNat (value / base).toNat := by
        rw [UInt64.toNat_div]
        exact Nat.digits_def' hbase (UInt64.lt_iff_toNat_lt.mp hpos)
      have hfigure : digit (value % base) = figure (value.toNat % base.toNat) := by
        rw [figure, ← UInt64.toNat_mod, UInt64.ofNat_toNat]
      rw [hdigits, List.take_succ_cons, List.map_cons, List.reverse_cons, List.append_assoc,
        ← hfigure]
      exact ih _ (h.prepend _)
    next hzero =>
      have hvalue : value.toNat = 0 := by
        have := UInt64.le_iff_toNat_le.mp (UInt64.not_lt.mp hzero)
        exact Nat.le_zero.mp this
      rw [hvalue, Nat.digits_zero]
      exact h

theorem prepend_padding_prints (pad_char : UInt8) (pad : ℕ) (hle : t.length ≤ room)
    (h : Prints b buffer t r) :
    Prints b buffer (List.replicate (min pad (room - t.length)) pad_char ++ t)
      (prepend_padding room pad_char buffer pad r.1 r.2) := by
  have hcount := h.count
  induction pad generalizing r t with
  | zero => simpa [prepend_padding] using h
  | succ pad ih =>
    unfold prepend_padding
    split
    next hlt =>
      have hrest := ih (t := pad_char :: t) (by rw [List.length_cons]; omega) (h.prepend pad_char)
        (by rw [hcount, List.length_cons])
      rw [show min (pad + 1) (room - t.length) = min pad (room - (t.length + 1)) + 1 by omega,
        List.replicate_succ', List.append_assoc]
      exact hrest
    next hge =>
      rw [show min (pad + 1) (room - t.length) = 0 by omega]
      exact h

theorem padding_prints (hle : t.length ≤ room) (h : Prints b buffer t r) (pad : ℤ)
    (pad_char : UInt8) :
    Prints b buffer
      (List.replicate (min (int (pad - t.length)).toNat (room - t.length)) pad_char ++ t)
      (prepend_padding room pad_char buffer (int (pad - r.1)).toNat r.1 r.2) := by
  have hpad : int (pad - r.1) = int (pad - t.length) := by rw [h.count]
  rw [hpad]
  exact prepend_padding_prints pad_char _ hle h

/-- Writing a character again changes nothing. -/
theorem Prints.again (h : Prints b buffer (c :: t) r) :
    Prints b buffer (c :: t) (r.1, r.2.put buffer c) := by
  obtain ⟨hcount, htext, hfront⟩ := h
  have hcells : (r.2.put buffer c).cells = r.2.cells := by
    funext j
    dsimp only [Buffer.put]
    split
    next heq =>
      rw [Buffer.text, List.length_cons, List.range_succ_eq_map, List.map_cons] at htext
      rw [heq]
      exact (List.cons.inj htext).1.symm
    next => rfl
  refine ⟨hcount, ?_, fun i hi => ?_⟩
  · rw [Buffer.text, hcells]
    exact htext
  · rw [hcells]
    exact hfront i hi

theorem sign_prints (b : Buffer) (buffer : ℕ) (sgn : Bool) (value : UInt64) :
    Prints b buffer (sign sgn value)
      (if is_negative sgn value then (1, prepend_to_buffer (chr '-') buffer 0 b) else (0, b)) := by
  unfold sign
  split
  · exact (prints_nil b buffer).prepend _
  · exact prints_nil b buffer

/-- The first digits are those that are left out. -/
theorem drop_printed (h : (sign sgn value).length ≤ room) :
    ((figures base.toNat (magnitude sgn value).toNat).take
      (room - (sign sgn value).length)).reverse ++ sign sgn value =
    (printed base value sgn).drop ((printed base value sgn).length - room) := by
  rw [printed, List.length_append, List.length_reverse, List.drop_append_of_le_length (by
    rw [List.length_reverse]; omega), List.reverse_take]
  congr 2
  omega

/-- The digits that there is room for. -/
theorem figures_print (hbase : 1 < base.toNat) (room : ℕ) (value : UInt64)
    (h : Prints b buffer t r) :
    Prints b buffer (((figures base.toNat value.toNat).take (room - t.length)).reverse ++ t)
      (if 0 < value then append_digits base buffer ((room : ℤ) - r.1).toNat value r.1 r.2
      else if (r.1 : ℤ) < room then
        (r.1 + 1, (prepend_to_buffer (chr '0') buffer r.1 r.2).put buffer (chr '0'))
      else r) := by
  have hpos : 0 < value ↔ value.toNat ≠ 0 := UInt64.lt_iff_toNat_lt.trans Nat.pos_iff_ne_zero
  have hcount := h.count
  unfold figures
  by_cases hzero : value.toNat = 0
  · rw [if_pos hzero, if_neg (by rwa [hpos, not_not])]
    split
    next hlt =>
      rw [List.take_of_length_le (by rw [List.length_singleton]; omega)]
      exact (h.prepend (chr '0')).again
    next hge =>
      rw [show room - t.length = 0 by omega]
      exact h
  · rw [if_neg hzero, if_pos (hpos.mpr hzero), ← List.map_take,
      show ((room : ℤ) - r.1).toNat = room - t.length by omega]
    exact append_digits_prints hbase _ _ h

theorem append_num_prints (hbase : 1 < base.toNat) (hsign : (sign sgn value).length ≤ room)
    (pad : ℤ) (pad_char : UInt8) :
    Prints b buffer (number_text room pad pad_char (printed base value sgn))
      (append_num buffer room value base sgn pad pad_char b) := by
  have hdigits := figures_print hbase room (magnitude sgn value) (sign_prints b buffer sgn value)
  rw [drop_printed hsign] at hdigits
  exact padding_prints (by rw [List.length_drop]; omega) hdigits _ pad_char

/-! ## Reading them back -/

/-- The number as it should be written. -/
def numeral (base value : UInt64) (sgn : Bool) : List UInt8 :=
  sign sgn value ++ (figures base.toNat (magnitude sgn value).toNat).reverse

def figure_value (c : UInt8) : ℕ :=
  if c ≤ chr '9' then (c - chr '0').toNat else (c - chr 'a').toNat + 10

def read_figures (base : ℕ) (t : List UInt8) : ℕ :=
  t.foldl (fun v c => v * base + figure_value c) 0

def read_num (base : ℕ) : List UInt8 → ℤ
  | [] => 0
  | c :: t => if c = chr '-' then -read_figures base t else read_figures base (c :: t)

/-- The number that is meant by a value. -/
def meant (sgn : Bool) (value : UInt64) : ℤ := if sgn then value.toInt64.toInt else value.toNat

/-- The text is the numeral, padded to the width. It can be read from behind the padding, and, if
the padding is not taken for a part of the number, by skipping what looks like it. -/
structure ReadsBack (base value : UInt64) (sgn : Bool) (width : ℕ) (pad_char : UInt8)
    (t : List UInt8) : Prop where
  padded : t =
    List.replicate (width - (numeral base value sgn).length) pad_char ++ numeral base value sgn
  behind : read_num base.toNat (t.drop (width - (numeral base value sgn).length)) = meant sgn value
  skipped : pad_char ≠ chr '-' → (∀ k, 0 < k → k < 16 → pad_char ≠ figure k) →
    read_num base.toNat (t.dropWhile (· = pad_char)) = meant sgn value

theorem figure_value_figure (hk : k < 16) : figure_value (figure k) = k := by
  have hall : ∀ k : Fin 16, figure_value (figure k) = k := by decide
  exact hall ⟨k, hk⟩

theorem figure_ne_minus (hk : k < 16) : figure k ≠ chr '-' := by
  have hall : ∀ k : Fin 16, figure k ≠ chr '-' := by decide
  exact hall ⟨k, hk⟩

/-- The digits are those of the number. -/
theorem figures_eq (base n : ℕ) (hbase : 1 < base) :
    ∃ ks, figures base n = ks.map figure ∧ ks ≠ [] ∧ (∀ k ∈ ks, k < base) ∧
      Nat.ofDigits base ks = n := by
  unfold figures
  by_cases hn : n = 0
  · rw [if_pos hn]
    exact ⟨[0], rfl, by simp, by simp; omega, by simp [hn]⟩
  · rw [if_neg hn]
    exact ⟨_, rfl, Nat.digits_ne_nil_iff_ne_zero.mpr hn, fun k hk => Nat.digits_lt_base hbase hk,
      Nat.ofDigits_digits base n⟩

theorem read_figures_reverse {base : ℕ} (hbase : base ≤ 16) {ks : List ℕ} (h : ∀ k ∈ ks, k < base) :
    read_figures base (ks.map figure).reverse = Nat.ofDigits base ks := by
  unfold read_figures
  rw [List.foldl_reverse]
  induction ks with
  | nil => rfl
  | cons k ks ih =>
    obtain ⟨hk, hks⟩ := List.forall_mem_cons.mp h
    rw [List.map_cons, List.foldr_cons, ih hks, figure_value_figure (by omega), Nat.ofDigits_cons]
    rw [Nat.mul_comm, Nat.add_comm]

theorem read_figures_dropWhile (base : ℕ) (t : List UInt8) :
    read_figures base (t.dropWhile (· = figure 0)) = read_figures base t := by
  induction t with
  | nil => rfl
  | cons c t ih =>
    rw [List.dropWhile_cons]
    split
    next hc =>
      rw [ih, of_decide_eq_true hc, read_figures, read_figures, List.foldl_cons]
      simp [figure_value_figure]
    next => rfl

theorem read_num_of_figures (base : ℕ) (h : chr '-' ∉ t) : read_num base t = read_figures base t := by
  cases t with
  | nil => rfl
  | cons c t =>
    refine if_neg ?_
    rintro rfl
    exact h List.mem_cons_self

theorem number_text_whole {s : List UInt8} {width : ℕ} (hs : s.length ≤ room) (hwidth : width < room)
    (hroom : room < 2 ^ 31) (pad_char : UInt8) :
    number_text room width pad_char s = List.replicate (width - s.length) pad_char ++ s := by
  have hint : int ((width : ℤ) - s.length) = width - s.length :=
    Int.bmod_eq_of_le_mul_two (by omega) (by omega)
  unfold number_text
  rw [Nat.sub_eq_zero_of_le hs, List.drop_zero]
  dsimp only
  rw [if_neg (by omega), hint, show min ((width : ℤ) - s.length).toNat (room - s.length) =
    width - s.length by omega]

/-- What is printed is not the numeral if there is a sign, which ends up last. -/
theorem append_ne_numeral (hbase : 1 < base.toNat) (hle : base.toNat ≤ 16)
    (hneg : is_negative sgn value = true) (p : List UInt8) :
    p ++ printed base value sgn ≠ p ++ numeral base value sgn := by
  intro heq
  obtain ⟨ks, hks, hne, hlt, -⟩ := figures_eq base.toNat (magnitude sgn value).toNat hbase
  have hlast := congrArg List.getLast? (List.append_cancel_left heq)
  rw [printed, numeral, sign, if_pos hneg, hks] at hlast
  cases ks with
  | nil => exact hne rfl
  | cons k ks =>
    simp only [List.map_cons, List.reverse_cons, ← List.append_assoc, List.getLast?_append,
      List.getLast?_singleton, Option.some_or, Option.some.injEq] at hlast
    exact figure_ne_minus (by have := hlt k List.mem_cons_self; omega) hlast.symm

theorem meant_of_unsigned (h : ¬is_negative sgn value = true) : meant sgn value = value.toNat := by
  unfold meant
  unfold is_negative at h
  cases sgn with
  | false => rfl
  | true =>
    have hint : value.toInt64.toInt =
        if 2 * value.toNat < 2 ^ 64 then (value.toNat : ℤ) else value.toNat - (2 ^ 64 : ℕ) :=
      BitVec.toInt_eq_toNat_cond value.toBitVec
    have hlt := value.toNat_lt
    rw [Bool.true_and, decide_eq_true_iff, Int64.lt_iff_toInt_lt, hint] at h
    change ¬(_ : ℤ) < 0 at h
    rw [if_pos rfl, hint]
    split at h
    next hlow => rw [if_pos hlow]
    next => omega

theorem reads_back_of_unsigned {width : ℕ} {pad_char : UInt8} (hbase : 1 < base.toNat)
    (hle : base.toNat ≤ 16) (hneg : ¬is_negative sgn value = true) :
    ReadsBack base value sgn width pad_char
      (List.replicate (width - (numeral base value sgn).length) pad_char ++
        numeral base value sgn) := by
  obtain ⟨ks, hks, hne, hlt, hvalue⟩ := figures_eq base.toNat value.toNat hbase
  have hnum : numeral base value sgn = (ks.map figure).reverse := by
    rw [numeral, sign, if_neg hneg, magnitude, if_neg hneg, hks, List.nil_append]
  have hminus : chr '-' ∉ (ks.map figure).reverse := by
    intro hmem
    obtain ⟨k, hk, heq⟩ := List.mem_map.mp (List.mem_reverse.mp hmem)
    have := hlt k hk
    exact figure_ne_minus (by omega) heq
  have hmeant : (read_figures base.toNat (ks.map figure).reverse : ℤ) = meant sgn value := by
    rw [read_figures_reverse hle hlt, hvalue, meant_of_unsigned hneg]
  refine ⟨rfl, ?_, fun hsign hfig => ?_⟩
  · rw [List.drop_left' (List.length_replicate ..), hnum, read_num_of_figures _ hminus, hmeant]
  · rw [List.dropWhile_append_of_pos (by simp), hnum]
    have hskip : chr '-' ∉ ((ks.map figure).reverse).dropWhile (· = pad_char) :=
      fun hmem => hminus ((List.dropWhile_sublist _).mem hmem)
    rw [read_num_of_figures _ hskip, ← hmeant]
    by_cases hzero : pad_char = figure 0
    · rw [hzero, read_figures_dropWhile]
    · have hall : ∀ c ∈ (ks.map figure).reverse, ¬c = pad_char := by
        rintro c hc rfl
        obtain ⟨k, hk, rfl⟩ := List.mem_map.mp (List.mem_reverse.mp hc)
        have := hlt k hk
        exact hfig k (Nat.pos_of_ne_zero fun h => hzero (by rw [h])) (by omega) rfl
      rw [List.dropWhile_eq_self_iff.mpr fun hpos => by simpa using hall _ (List.getElem_mem hpos)]

/-- A number reads back exactly if it is not a negative one that is printed with its sign. -/
theorem reads_back_iff (hbase : base = 2 ∨ base = 10 ∨ base = 16) (width : ℕ) (pad_char : UInt8)
    {size : ℤ} (hint : size < 2 ^ 31)
    (hroom : ((max width (numeral base value sgn).length : ℕ) : ℤ) < size) (buffer : ℕ)
    (b : Buffer) :
    ReadsBack base value sgn width pad_char
      ((append_num buffer size value base sgn width pad_char b).2.text buffer
        (append_num buffer size value base sgn width pad_char b).1) ↔
    ¬(sgn = true ∧ value.toInt64 < 0) := by
  obtain ⟨room, rfl⟩ : ∃ room : ℕ, size = room := ⟨size.toNat, by omega⟩
  have hbase' : 1 < base.toNat ∧ base.toNat ≤ 16 := by
    obtain rfl | rfl | rfl := hbase <;> decide
  have hlen : (printed base value sgn).length = (numeral base value sgn).length := by
    rw [printed, numeral, List.length_append, List.length_append, Nat.add_comm]
  have hsign : (sign sgn value).length ≤ room := by
    rw [numeral, List.length_append] at hroom
    omega
  obtain ⟨hcount, htext, -⟩ := append_num_prints (b := b) hbase'.1 hsign width pad_char
  rw [hcount, htext, number_text_whole (by omega) (by omega) (by omega), hlen]
  have hneg : is_negative sgn value = true ↔ sgn = true ∧ value.toInt64 < 0 := by
    rw [is_negative, Bool.and_eq_true, decide_eq_true_iff]
  rw [← hneg]
  constructor
  · rintro ⟨hpadded, -, -⟩ hsigned
    exact append_ne_numeral hbase'.1 hbase'.2 hsigned _ hpadded
  · intro hunsigned
    have hprinted : printed base value sgn = numeral base value sgn := by
      rw [printed, numeral, sign, if_neg hunsigned, List.append_nil, List.nil_append]
    rw [hprinted]
    exact reads_back_of_unsigned hbase'.1 hbase'.2 hunsigned

theorem reads_back_iff_width : ReadsBack 16 255 true 4 (chr '0')
    ((append_num 0 8 255 16 true 4 (chr '0') ⟨fun _ => 0, []⟩).2.text 0
      (append_num 0 8 255 16 true 4 (chr '0') ⟨fun _ => 0, []⟩).1) ↔
    ¬(true = true ∧ (255 : UInt64).toInt64 < 0) :=
  reads_back_iff (by decide) 4 _ (by decide) (by decide) _ _

/-- The number -5 is printed with its sign behind it. -/
theorem minus_behind : ¬ReadsBack 10 (-5) true 0 (chr ' ')
    ((append_num 0 8 (-5) 10 true 0 (chr ' ') ⟨fun _ => 0, []⟩).2.text 0
      (append_num 0 8 (-5) 10 true 0 (chr ' ') ⟨fun _ => 0, []⟩).1) := by
  rintro ⟨hpadded, -, -⟩
  revert hpadded
  decide

end Infos.Util.Printf
