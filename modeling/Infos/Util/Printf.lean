import Mathlib.Algebra.Order.Group.Int
import Mathlib.Data.Int.Order.Basic
import Mathlib.Tactic.Common

/-!
# Formatted printing

The format and the texts lie outside the buffer. Indices count from `buffer_base` on. A sum of
`int`s wraps around where it overflows, which only a padding can.
-/

namespace Infos.Util.Printf

/-- `writes` has the index of every write, the latest first. -/
structure Buffer where
  cells : ℕ → UInt8
  writes : List ℕ

def Buffer.put (b : Buffer) (i : ℕ) (c : UInt8) : Buffer :=
  ⟨fun j => if j = i then c else b.cells j, i :: b.writes⟩

def chr (c : Char) : UInt8 := c.toNat.toUInt8

def int (x : ℤ) : ℤ := x.bmod 0x100000000

/-- The loop of `prepend_to_buffer`, with `i` cells left to move. -/
def move_up (buffer : ℕ) : (i : ℕ) → Buffer → Buffer
  | 0, b => b
  | i + 1, b => move_up buffer i (b.put (buffer + (i + 1)) (b.cells (buffer + i)))

def prepend_to_buffer (c : UInt8) (buffer size : ℕ) (b : Buffer) : Buffer :=
  (move_up buffer size b).put buffer c

/-- The base is at most 36. -/
def digit (digit_value : UInt64) : UInt8 :=
  if digit_value ≤ 9 then chr '0' + digit_value.toUInt8 else chr 'a' + digit_value.toUInt8 - 10

/-- The loop of `append_num` over the digits, with `room` for so many. -/
def append_digits (base : UInt64) (buffer : ℕ) :
    (room : ℕ) → (value : UInt64) → (n : ℕ) → Buffer → ℕ × Buffer
  | 0, _, n, b => (n, b)
  | room + 1, value, n, b =>
    if 0 < value then
      append_digits base buffer room (value / base) (n + 1)
        (prepend_to_buffer (digit (value % base)) buffer n b)
    else (n, b)

/-- The loop of `append_num` over the padding. -/
def prepend_padding (size : ℤ) (pad_char : UInt8) (buffer : ℕ) :
    (pad : ℕ) → (n : ℕ) → Buffer → ℕ × Buffer
  | 0, n, b => (n, b)
  | pad + 1, n, b =>
    if n < size then
      prepend_padding size pad_char buffer pad (n + 1) (prepend_to_buffer pad_char buffer n b)
    else (n, b)

def append_num (buffer : ℕ) (size : ℤ) (value base : UInt64) (sgn : Bool) (pad : ℤ)
    (pad_char : UInt8) (b : Buffer) : ℕ × Buffer :=
  let pad := if size ≤ pad then size - 1 else pad
  let negative := sgn && value.toInt64 < 0
  let (n, b) : ℕ × Buffer :=
    if negative then (1, prepend_to_buffer (chr '-') buffer 0 b) else (0, b)
  let value := if negative then -value else value
  let (n, b) : ℕ × Buffer :=
    if 0 < value then append_digits base buffer (size - n).toNat value n b
    else if n < size then (n + 1, (prepend_to_buffer (chr '0') buffer n b).put buffer (chr '0'))
    else (n, b)
  prepend_padding size pad_char buffer (int (pad - n)).toNat n b

def append_text (buffer : ℕ) (size : ℤ) : (text : List UInt8) → (n : ℕ) → Buffer → ℕ × Buffer
  | [], n, b => (n, b)
  | c :: text, n, b =>
    if c ≠ 0 ∧ n < size then append_text buffer size text (n + 1) (b.put (buffer + n) c)
    else (n, b)

/-- The loop of `append_str` over the padding, with `turns` left. -/
def append_padding (pad_char : UInt8) (buffer : ℕ) :
    (turns : ℕ) → (n : ℕ) → Buffer → ℕ × Buffer
  | 0, n, b => (n, b)
  | turns + 1, n, b => append_padding pad_char buffer turns (n + 1) (b.put (buffer + n) pad_char)

def append_str (buffer : ℕ) (size : ℤ) (text : List UInt8) (pad : ℤ) (pad_char : UInt8)
    (b : Buffer) : ℕ × Buffer :=
  let (n, b) := append_text buffer size text 0 b
  append_padding pad_char buffer (min size pad - n).toNat n b

/-- The arguments as they are passed, and the text that a pointer points to. -/
structure Args where
  value : ℕ → UInt64
  text : UInt64 → List UInt8

/-- What is known of a directive. -/
structure Directive where
  pad_size : ℤ
  pad_char : UInt8
  number_size : ℕ

/-- `arg` is the number of arguments that were taken. -/
structure State where
  buffer : ℕ
  count : ℤ
  arg : ℕ
  mem : Buffer

namespace State

def put (s : State) (c : UInt8) : State :=
  { s with buffer := s.buffer + 1, count := s.count + 1, mem := s.mem.put s.buffer c }

/-- `rc` characters were appended. -/
def append (s : State) (r : ℕ × Buffer) : State :=
  { s with buffer := s.buffer + r.1, count := s.count + r.1, mem := r.2 }

def next_arg (s : State) : State := { s with arg := s.arg + 1 }

end State

/-- The rest of the `switch`, for a character that ends the directive. -/
def print_directive (size : ℤ) (args : Args) (c : UInt8) (d : Directive) (s : State) : State :=
  let v := args.value s.arg
  if c = chr 'd' ∨ c = chr 'u' then
    let v := if d.number_size = 8 then v
      else if c = chr 'u' then v.toUInt32.toUInt64
      else v.toUInt32.toInt32.toInt64.toUInt64
    (s.append (append_num s.buffer (size - 1 - s.count) v 10 (c = chr 'd') d.pad_size d.pad_char
      s.mem)).next_arg
  else if c = chr 'b' ∨ c = chr 'x' ∨ c = chr 'p' then
    let v := if d.number_size = 8 ∨ c = chr 'p' then v else v.toUInt32.toUInt64
    let s := if c = chr 'p' then
      s.append (append_str s.buffer (size - 1 - s.count) [chr '0', chr 'x'] 0 (chr ' ') s.mem)
      else s
    (s.append (append_num s.buffer (size - 1 - s.count) v (if c = chr 'b' then 2 else 16) false
      d.pad_size d.pad_char s.mem)).next_arg
  else if c = chr 's' then
    (s.append (append_str s.buffer (size - 1 - s.count) (args.text v) d.pad_size d.pad_char
      s.mem)).next_arg
  else if c = chr 'c' then (s.put v.toUInt8).next_arg
  else s.put c

/-- The `while` loop, and the one that `retry_format` makes, in which a directive is known. -/
def print_loop (size : ℤ) (args : Args) :
    (fmt : List UInt8) → Option Directive → State → State
  | [], _, s => s
  | c :: fmt, none, s =>
    if c ≠ 0 ∧ s.count < size - 1 then
      if c = chr '%' then print_loop size args fmt (some ⟨0, chr ' ', 4⟩) s
      else print_loop size args fmt none (s.put c)
    else s
  | c :: fmt, some d, s =>
    if c = 0 then s
    else if c = chr '0' then
      let d := if 0 < d.pad_size then { d with pad_size := int (d.pad_size * 10) }
        else { d with pad_char := chr '0' }
      print_loop size args fmt (some d) s
    else if chr '1' ≤ c ∧ c ≤ chr '9' then
      let pad_size := int (int (d.pad_size * 10) + (c - chr '0').toNat)
      print_loop size args fmt (some { d with pad_size }) s
    else if c = chr 'l' then print_loop size args fmt (some { d with number_size := 8 }) s
    else print_loop size args fmt none (print_directive size args c d s)

def vsnprintf (size : ℤ) (fmt : List UInt8) (args : Args) (b : Buffer) : ℤ × Buffer :=
  if size = 0 then (0, b)
  else
    let s := print_loop size args fmt none ⟨0, 0, 0, b⟩
    (s.count, s.mem.put s.buffer 0)

/-! ## What is written -/

/-- Nothing but the cells from `lo` up to `hi` was written. -/
def Wrote (lo hi : ℕ) (b b' : Buffer) : Prop :=
  ∀ i ∈ b'.writes, i ∈ b.writes ∨ (lo ≤ i ∧ i < hi)

/-- At most `room` characters were appended. -/
def Appended (buffer room : ℕ) (b : Buffer) (r : ℕ × Buffer) : Prop :=
  r.1 ≤ room ∧ Wrote buffer (buffer + room) b r.2

variable {lo hi buffer room n : ℕ} {b b' b'' : Buffer} {c : UInt8} {size : ℤ} {s : State}

theorem Wrote.refl : Wrote lo hi b b := fun _ => .inl

theorem Wrote.trans (h : Wrote lo hi b b') (h' : Wrote lo hi b' b'') : Wrote lo hi b b'' :=
  fun i hi => (h' i hi).elim (h i) .inr

theorem Wrote.mono {lo' hi' : ℕ} (h : Wrote lo hi b b') (hlo : lo' ≤ lo) (hhi : hi ≤ hi') :
    Wrote lo' hi' b b' := fun i hi => (h i hi).imp_right fun h => ⟨by omega, by omega⟩

theorem wrote_put {i : ℕ} (hlo : lo ≤ i) (hhi : i < hi) : Wrote lo hi b (b.put i c) := by
  intro j hj
  obtain rfl | hj := List.mem_cons.mp hj
  · exact .inr ⟨hlo, hhi⟩
  · exact .inl hj

theorem wrote_move_up (buffer i : ℕ) (b : Buffer) :
    Wrote buffer (buffer + i + 1) b (move_up buffer i b) := by
  induction i generalizing b with
  | zero => exact .refl
  | succ i ih =>
    unfold move_up
    have hput : Wrote buffer (buffer + (i + 1) + 1) b
        (b.put (buffer + (i + 1)) (b.cells (buffer + i))) := wrote_put (by omega) (by omega)
    exact hput.trans ((ih _).mono le_rfl (by omega))

theorem wrote_prepend (h : n < room) :
    Wrote buffer (buffer + room) b (prepend_to_buffer c buffer n b) := by
  unfold prepend_to_buffer
  refine .trans ((wrote_move_up buffer n b).mono le_rfl (by omega)) ?_
  exact wrote_put le_rfl (by omega)

theorem Appended.of_wrote {r : ℕ × Buffer} (h : Wrote buffer (buffer + room) b b')
    (h' : Appended buffer room b' r) : Appended buffer room b r := ⟨h'.1, h.trans h'.2⟩

theorem append_digits_spec (base : UInt64) (buffer : ℕ) {k : ℕ} (value : UInt64)
    (h : n + k ≤ room) (b : Buffer) :
    Appended buffer room b (append_digits base buffer k value n b) := by
  induction k generalizing value n b with
  | zero => exact ⟨h, .refl⟩
  | succ k ih =>
    unfold append_digits
    split
    · exact .of_wrote (wrote_prepend (by omega)) (ih _ (by omega) _)
    · exact ⟨by omega, .refl⟩

theorem prepend_padding_spec (pad_char : UInt8) (buffer pad : ℕ) (h : n ≤ room) (b : Buffer) :
    Appended buffer room b (prepend_padding room pad_char buffer pad n b) := by
  induction pad generalizing n b with
  | zero => exact ⟨h, .refl⟩
  | succ pad ih =>
    unfold prepend_padding
    split
    · exact .of_wrote (wrote_prepend (by omega)) (ih (by omega) _)
    · exact ⟨h, .refl⟩

/-- Without room no number may have a sign. -/
theorem append_num_spec (buffer : ℕ) (value base : UInt64) {sgn : Bool} (pad : ℤ) (pad_char : UInt8)
    (h : sgn → 0 < room) (b : Buffer) :
    Appended buffer room b (append_num buffer room value base sgn pad pad_char b) := by
  unfold append_num
  extract_lets pad negative value
  have hsign : Appended buffer room b
      (if negative then (1, prepend_to_buffer (chr '-') buffer 0 b) else (0, b)) := by
    split
    · rename_i hneg
      have hpos := h (Bool.and_eq_true_iff.mp hneg).1
      exact ⟨hpos, wrote_prepend hpos⟩
    · exact ⟨Nat.zero_le _, .refl⟩
  generalize (if negative then (1, prepend_to_buffer (chr '-') buffer 0 b) else (0, b) :
    ℕ × Buffer) = p at hsign ⊢
  obtain ⟨n, b₁⟩ := p
  obtain ⟨hn : n ≤ room, hw : Wrote _ _ b b₁⟩ := hsign
  refine .of_wrote hw ?_
  dsimp only
  split
  · have hk : n + ((room : ℤ) - n).toNat ≤ room := by omega
    obtain ⟨hn', hw'⟩ := append_digits_spec base buffer value hk b₁
    exact .of_wrote hw' (prepend_padding_spec _ _ _ hn' _)
  split
  · have hw' : Wrote buffer (buffer + room) b₁
        ((prepend_to_buffer (chr '0') buffer n b₁).put buffer (chr '0')) :=
      (wrote_prepend (by omega)).trans (wrote_put le_rfl (by omega))
    exact .of_wrote hw' (prepend_padding_spec _ _ _ (by omega) _)
  · exact prepend_padding_spec _ _ _ hn _

theorem append_text_spec (buffer : ℕ) (text : List UInt8) (h : n ≤ room) (b : Buffer) :
    Appended buffer room b (append_text buffer room text n b) := by
  induction text generalizing n b with
  | nil => exact ⟨h, .refl⟩
  | cons c text ih =>
    unfold append_text
    split
    · exact .of_wrote (wrote_put (by omega) (by omega)) (ih (by omega) _)
    · exact ⟨h, .refl⟩

theorem append_padding_spec (pad_char : UInt8) (buffer : ℕ) {turns : ℕ} (h : n + turns ≤ room)
    (b : Buffer) : Appended buffer room b (append_padding pad_char buffer turns n b) := by
  induction turns generalizing n b with
  | zero => exact ⟨h, .refl⟩
  | succ turns ih =>
    unfold append_padding
    exact .of_wrote (wrote_put (by omega) (by omega)) (ih (by omega) _)

theorem append_str_spec (buffer : ℕ) (text : List UInt8) (pad : ℤ) (pad_char : UInt8) (b : Buffer) :
    Appended buffer room b (append_str buffer room text pad pad_char b) := by
  obtain ⟨hn, hw⟩ := append_text_spec buffer text (Nat.zero_le room) b
  exact .of_wrote hw (append_padding_spec _ _ (by omega) _)

/-! ## The buffer -/

/-- A cell is left for the end of the text. -/
structure Fits (size : ℤ) (s : State) : Prop where
  buffer : s.count = s.buffer
  count : s.count ≤ size - 1
  writes : ∀ i ∈ s.mem.writes, (i : ℤ) < size

theorem Fits.room_left (h : Fits size s) : ∃ room : ℕ, size - 1 - s.count = room ∧
    (s.buffer : ℤ) + room = size - 1 := by
  obtain ⟨hbuffer, hcount, -⟩ := h
  exact ⟨(size - 1 - s.count).toNat, by omega, by omega⟩

theorem Fits.append {r : ℕ × Buffer} (h : Fits size s) (hroom : size - 1 - s.count = room)
    (hr : Appended s.buffer room s.mem r) : Fits size (s.append r) := by
  obtain ⟨hbuffer, hcount, hwrites⟩ := h
  obtain ⟨hn, hw⟩ := hr
  refine ⟨?_, ?_, fun i hi => ?_⟩
  · simp only [State.append, hbuffer, Int.natCast_add]
  · simp only [State.append]
    omega
  · obtain hi | ⟨-, hlt⟩ := hw i hi
    · exact hwrites i hi
    · omega

theorem Fits.put (h : Fits size s) (hlt : s.count < size - 1) (c : UInt8) : Fits size (s.put c) := by
  obtain ⟨hbuffer, hcount, hwrites⟩ := h
  refine ⟨?_, ?_, List.forall_mem_cons.mpr ⟨by omega, hwrites⟩⟩
  · simp only [State.put, hbuffer, Int.natCast_add, Int.natCast_one]
  · simp only [State.put]
    omega

theorem Fits.next_arg (h : Fits size s) : Fits size s.next_arg := ⟨h.buffer, h.count, h.writes⟩

theorem Fits.append_num (h : Fits size s) (value base : UInt64) {sgn : Bool} (pad : ℤ)
    (pad_char : UInt8) (hsgn : sgn → s.count < size - 1) :
    Fits size (s.append
      (append_num s.buffer (size - 1 - s.count) value base sgn pad pad_char s.mem)) := by
  obtain ⟨room, hroom, -⟩ := h.room_left
  apply h.append hroom
  rw [hroom]
  apply append_num_spec
  intro hs
  have := hsgn hs
  omega

/-- A number without a sign needs no room. -/
theorem Fits.append_unsigned (h : Fits size s) (value base : UInt64) (pad : ℤ) (pad_char : UInt8) :
    Fits size (s.append
      (Printf.append_num s.buffer (size - 1 - s.count) value base false pad pad_char s.mem)) :=
  h.append_num value base pad pad_char fun hf => absurd hf Bool.false_ne_true

theorem Fits.append_str (h : Fits size s) (text : List UInt8) (pad : ℤ) (pad_char : UInt8) :
    Fits size (s.append (append_str s.buffer (size - 1 - s.count) text pad pad_char s.mem)) := by
  obtain ⟨room, hroom, -⟩ := h.room_left
  apply h.append hroom
  rw [hroom]
  apply append_str_spec

theorem Fits.print_directive (h : Fits size s) (hlt : s.count < size - 1) (args : Args) (c : UInt8)
    (d : Directive) : Fits size (print_directive size args c d s) := by
  unfold Printf.print_directive
  extract_lets v number word s'
  split
  · exact (h.append_num _ _ _ _ fun _ => hlt).next_arg
  split
  · -- `p` prints twice, and the second time there may be no room left.
    have hs' : Fits size s' := by
      unfold s'
      split
      · exact h.append_str _ _ _
      · exact h
    exact (hs'.append_unsigned _ _ _ _).next_arg
  split
  · exact (h.append_str _ _ _).next_arg
  split
  · exact (h.put hlt _).next_arg
  · exact h.put hlt _

/-- While a directive is read there is room for a character. -/
theorem Fits.print_loop (args : Args) (fmt : List UInt8) {d : Option Directive} (h : Fits size s)
    (hd : d.isSome → s.count < size - 1) : Fits size (print_loop size args fmt d s) := by
  induction fmt generalizing d s with
  | nil =>
    unfold Printf.print_loop
    exact h
  | cons c fmt ih =>
    cases d with
    | none =>
      unfold Printf.print_loop
      split
      · rename_i hlt
        split
        · exact ih h fun _ => hlt.2
        · exact ih (h.put hlt.2 c) (by simp)
      · exact h
    | some d =>
      have hlt := hd rfl
      unfold Printf.print_loop
      split
      · exact h
      split
      · exact ih h fun _ => hlt
      split
      · exact ih h fun _ => hlt
      split
      · exact ih h fun _ => hlt
      · exact ih (h.print_directive hlt args c d) (by simp)

/-- Whatever is printed, it ends with a zero in the buffer, and no other cell is written. -/
theorem vsnprintf_fits (size : ℤ) (hsize : 1 ≤ size) (fmt : List UInt8) (args : Args)
    (cells : ℕ → UInt8) : ∃ count b, vsnprintf size fmt args ⟨cells, []⟩ = (count, b) ∧
      0 ≤ count ∧ count ≤ size - 1 ∧ b.cells count.toNat = 0 ∧ ∀ i ∈ b.writes, (i : ℤ) < size := by
  have h : Fits size (print_loop size args fmt none ⟨0, 0, 0, ⟨cells, []⟩⟩) :=
    Fits.print_loop args fmt ⟨rfl, by simpa using hsize, List.forall_mem_nil _⟩ (by simp)
  unfold vsnprintf
  rw [if_neg (by omega)]
  obtain ⟨hbuffer, hcount, hwrites⟩ := h
  refine ⟨_, _, rfl, by omega, hcount, ?_, List.forall_mem_cons.mpr ⟨by omega, hwrites⟩⟩
  exact if_pos (by rw [hbuffer]; rfl)

/-- There is room for the first two characters of a pointer only. -/
theorem vsnprintf_fits_pointers : ∃ count b, vsnprintf 3 [37, 112, 37, 112] ⟨fun _ => 7, fun _ => []⟩
    ⟨fun _ => 0, []⟩ = (count, b) ∧ 0 ≤ count ∧ count ≤ 3 - 1 ∧ b.cells count.toNat = 0 ∧
      ∀ i ∈ b.writes, (i : ℤ) < 3 :=
  vsnprintf_fits 3 (by decide) _ _ _

end Infos.Util.Printf
