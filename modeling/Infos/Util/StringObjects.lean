import Mathlib.Algebra.Order.Ring.Nat
import Infos.Lib.Buffers
import Infos.Util.CString
import Infos.Util.Strings

/-!
# The objects of `infos::util::String`

A `String` is a length and a pointer to its buffer. The kernel maps `2 ^ 32` bytes of memory, so
`new` has no buffer of that size to give.
-/

namespace Infos.Util.StringObject

open Prog Buffers

inductive Stopped
  | endless
  | no_string

abbrev Heap := Buffers.Heap UInt8 (2 ^ 32)

structure Str where
  _size : ℕ
  _data : Option ℕ
  _has_hash : Bool
  _hash : UInt64

abbrev StrOp := Buffers.Op UInt8 (2 ^ 32) Stopped

/-- `new char[n]`. -/
def new_chars (n : ℕ) : StrOp ℕ := Buffers.new n 0

/-- `delete`. -/
def delete_chars (data : Option ℕ) : StrOp Unit := Buffers.delete data

/-- `_data[0]` to `_data[_size - 1]`. No character is read of an empty string. -/
def chars (s : Str) : StrOp (List UInt8) :=
  if s._size = 0 then pure []
  else match s._data with
    | none => throw .dangling
    | some p => load p 0 s._size

/-- A new buffer for the characters that `source` reads, with a zero behind them. -/
def buffer (size : ℕ) (source : StrOp (List UInt8)) : StrOp ℕ := do
  let p ← new_chars (size + 1)
  store p 0 (← source)
  store p size [0]
  return p

/-! ## The members -/

/-- `String()`. -/
def empty : StrOp Str := do
  let p ← new_chars 1
  store p 0 [0]
  return ⟨0, some p, false, 0⟩

/-- `String(const char *)`. -/
def of_chars (str : List UInt8) : StrOp Str := do
  let p ← buffer (strlen str) (pure str)
  return ⟨strlen str, some p, false, 0⟩

/-- `String(const String&)`. -/
def copy (str : Str) : StrOp Str := do
  let p ← buffer str._size (chars str)
  return ⟨str._size, some p, str._has_hash, str._hash⟩

/-- `String(const String&&)`. The hash is made from `_has_hash`, and the source stays. -/
def move (str : Str) : Str :=
  ⟨str._size, str._data, str._has_hash, if str._has_hash then 1 else 0⟩

/-- `~String`. -/
def destroy (s : Str) : StrOp Unit := delete_chars s._data

/-- `String(unsigned int)`. The size of the buffer wraps around. -/
def sized (new_size : UInt32) : StrOp Str := do
  let p ← new_chars (new_size + 1).toNat
  store p new_size.toNat [0]
  return ⟨new_size.toNat, some p, false, 0⟩

def put (s : Str) (off : ℕ) (bs : List UInt8) : StrOp Unit :=
  match s._data with
  | none => throw .dangling
  | some p => store p off bs

/-- `operator+` of two strings. `off` is an `unsigned int`, and `n` is the result itself. -/
def concat (l r : Str) : StrOp Str := do
  let n ← sized (l._size + r._size).toUInt32
  put n 0 (← chars l)
  put n (l._size % 2 ^ 32) (← chars r)
  put n n._size [0]
  return n

/-- `operator+` of a string and a character. -/
def concat_char (l : Str) (r : UInt8) : StrOp Str := do
  let n ← sized (l._size + 1).toUInt32
  put n 0 (← chars l)
  put n (n._size - 1) [r]
  put n n._size [0]
  return n

/-- `operator=(const String&)`, of two different objects. -/
def assign (self s : Str) : StrOp Str := do
  delete_chars self._data
  let p ← buffer s._size (chars s)
  return ⟨s._size, some p, false, self._hash⟩

/-- `operator=(String&&)`, of two different objects. The source is emptied but for its hash. -/
def move_assign (self s : Str) : StrOp (Str × Str) := do
  delete_chars self._data
  return (⟨s._size, s._data, s._has_hash, s._hash⟩, { s with _data := none, _size := 0 })

/-- `_data[idx]`. -/
def char_at (s : Str) (idx : ℕ) : StrOp UInt8 :=
  match s._data with
  | none => throw .dangling
  | some p => do return (← load p idx 1).headD 0

/-- A temporary is assigned with `operator=(String&&)`, and then it is destroyed. -/
def assign_temporary (self temporary : Str) : StrOp Str := do
  let (self, temporary) ← move_assign self temporary
  destroy temporary
  return self

/-- `operator==`. -/
def equal (l r : Str) : StrOp Bool :=
  if l._size ≠ r._size then pure false else do return (← chars l) = (← chars r)

/-- `get_hash`, with the object that it leaves. -/
def get_hash (s : Str) : StrOp (UInt64 × Str) :=
  if s._has_hash then pure (s._hash, s)
  else do
    let hash := String.compute_hash (← chars s)
    return (hash, { s with _has_hash := true, _hash := hash })

/-! ## What a string holds -/

/-- The characters of `s` are `b`. A null pointer is the buffer of an empty string. -/
structure Holds (h : Heap) (s : Str) (b : List UInt8) : Prop where
  size : s._size = b.length
  data : match s._data with
    | none => b = []
    | some p => h.cells p = some (b ++ [0])

variable {h h' : Heap} {n : ℕ} {b c d : List UInt8} {s : Str}

theorem Holds.short (hb : Holds h s b) : b.length + 1 < 2 ^ 32 := by
  have hdata := hb.data
  split at hdata
  · simp [hdata]
  · simpa using h.fits _ _ hdata

theorem Holds.mono (hb : Holds h s b) (hkeep : ∀ p, s._data = some p → h'.cells p = h.cells p) :
    Holds h' s b := by
  refine ⟨hb.size, ?_⟩
  have hdata := hb.data
  split at hdata
  next hnone => simpa [hnone] using hdata
  next p hsome => simpa [hsome, hkeep p hsome] using hdata

theorem Holds.chars (hb : Holds h s b) : chars s h = .ok (b, h) := by
  have hdata := hb.data
  unfold StringObject.chars
  rw [hb.size]
  split
  next hnil =>
    rw [List.eq_nil_of_length_eq_zero hnil]
    rfl
  next hne =>
    split at hdata
    next => simp [hdata] at hne
    next p hsome =>
      simp only [hsome]
      rw [load_eq hdata (by simp)]
      simp

theorem Holds.lt_next (hb : Holds h s b) (hp : s._data = some p) : p < h.next := by
  have hdata := hb.data
  rw [hp] at hdata
  exact Heap.lt_next hdata

theorem Holds.of_made (hm : Made h h' (b ++ [0])) {k : Bool} {x : UInt64} :
    Holds h' ⟨b.length, some h.next, k, x⟩ b := ⟨rfl, hm.new⟩

theorem Holds.made (hb : Holds h s b) (hm : Made h h' d) : Holds h' s b :=
  hb.mono fun _ hp => hm.old (hb.lt_next hp)

theorem returns_buffer {source : StrOp (List UInt8)} (hshort : b.length + 1 < 2 ^ 32)
    (hsource : ∀ h' d, Made h h' d → source h' = .ok (b, h')) :
    Returns (buffer b.length source) h fun p h' => p = h.next ∧ Made h h' (b ++ [0]) := by
  unfold buffer
  rw [returns_bind]
  refine returns_mono (returns_new hshort 0) ?_
  rintro _ h₁ ⟨rfl, hnew⟩
  rw [returns_bind]
  refine returns_of_eq (hsource h₁ _ hnew) ?_
  rw [returns_bind]
  refine returns_mono (hnew.store (d := b ++ [0]) (by simp) (by simp)) ?_
  intro _ h₂ hfilled
  rw [returns_bind]
  refine returns_mono (hfilled.store (d := b ++ [0]) (by simp) (by simp)) ?_
  intro _ h₃ hended
  rw [returns_pure]
  exact ⟨rfl, hended⟩

/-! ## One rule for each member -/

theorem returns_empty : Returns empty h fun s h' =>
    s = ⟨0, some h.next, false, 0⟩ ∧ Made h h' [0] := by
  unfold empty
  rw [returns_bind]
  refine returns_mono (returns_new (n := 1) (by omega) 0) ?_
  rintro _ h₁ ⟨rfl, hnew⟩
  rw [returns_bind]
  refine returns_mono (hnew.store (d := [0]) (by simp) (by simp)) ?_
  intro _ h₂ hended
  rw [returns_pure]
  exact ⟨rfl, hended⟩

theorem returns_of_chars (hshort : b.length + 1 < 2 ^ 32) : Returns (of_chars b) h fun s h' =>
    s = ⟨b.length, some h.next, false, 0⟩ ∧ Made h h' (b ++ [0]) := by
  unfold of_chars
  rw [returns_bind, strlen_eq]
  refine returns_mono (returns_buffer hshort fun _ _ _ => rfl) ?_
  rintro _ h₁ ⟨rfl, hm⟩
  rw [returns_pure]
  exact ⟨rfl, hm⟩

theorem returns_copy (hb : Holds h s b) : Returns (copy s) h fun t h' =>
    t = ⟨b.length, some h.next, s._has_hash, s._hash⟩ ∧ Made h h' (b ++ [0]) := by
  unfold copy
  rw [returns_bind, hb.size]
  refine returns_mono (returns_buffer hb.short fun _ _ hm => (hb.made hm).chars) ?_
  rintro _ h₁ ⟨rfl, hm⟩
  rw [returns_pure]
  exact ⟨rfl, hm⟩

theorem returns_sized (hn : n + 1 < 2 ^ 32) : Returns (sized n.toUInt32) h fun s h' =>
    s = ⟨n, some h.next, false, 0⟩ ∧ Made h h' (List.replicate (n + 1) 0) := by
  have hsize : n.toUInt32.toNat = n := by
    rw [Nat.toUInt32_eq, UInt32.toNat_ofNat']
    omega
  have hbuffer : (n.toUInt32 + 1).toNat = n + 1 := by
    rw [UInt32.toNat_add, hsize, UInt32.toNat_one]
    omega
  unfold sized
  rw [returns_bind, hsize, hbuffer]
  refine returns_mono (returns_new hn 0) ?_
  rintro _ h₁ ⟨rfl, hnew⟩
  rw [returns_bind]
  refine returns_mono (hnew.store (d := List.replicate (n + 1) 0) (by simp) ?_) ?_
  · rw [List.take_replicate, List.drop_replicate, List.replicate_succ' (n := n)]
    simp
  · intro _ h₂ hended
    rw [returns_pure]
    exact ⟨rfl, hended⟩

theorem returns_concat {l r : Str} {a : List UInt8} (ha : Holds h l a) (hb : Holds h r b)
    (hshort : a.length + b.length + 1 < 2 ^ 32) : Returns (concat l r) h fun s h' =>
      s = ⟨a.length + b.length, some h.next, false, 0⟩ ∧ Made h h' (a ++ b ++ [0]) := by
  unfold concat put
  rw [returns_bind, ha.size, hb.size]
  refine returns_mono (returns_sized hshort) ?_
  rintro _ h₁ ⟨rfl, hnew⟩
  rw [returns_bind]
  refine returns_of_eq (ha.made hnew).chars ?_
  rw [returns_bind]
  refine returns_mono (hnew.store (d := a ++ List.replicate (b.length + 1) 0) ?_ ?_) ?_
  · simp only [List.length_replicate]
    omega
  · rw [List.drop_replicate, List.take_zero, List.nil_append]
    congr 2
    omega
  intro _ h₂ hleft
  rw [returns_bind]
  refine returns_of_eq (hb.made hleft).chars ?_
  rw [returns_bind, Nat.mod_eq_of_lt (by omega)]
  refine returns_mono (hleft.store (d := a ++ b ++ [0]) (by simp) (by simp)) ?_
  intro _ h₃ hright
  rw [returns_bind, ← List.length_append]
  have hzero : (a ++ b ++ [0]).drop ((a ++ b).length + 1) = [] :=
    List.drop_eq_nil_of_le (by simp only [List.length_append, List.length_singleton]; omega)
  refine returns_mono (hright.store (d := a ++ b ++ [0]) ?_ ?_) ?_
  · simp only [List.length_append, List.length_singleton]
    omega
  · rw [List.take_left, List.length_singleton, hzero, List.append_nil]
  intro _ h₄ hended
  rw [returns_pure]
  exact ⟨rfl, hended⟩

theorem returns_concat_char {r : UInt8} (hb : Holds h s b) (hshort : b.length + 2 < 2 ^ 32) :
    Returns (concat_char s r) h fun t h' =>
      t = ⟨b.length + 1, some h.next, false, 0⟩ ∧ Made h h' (b ++ [r] ++ [0]) := by
  unfold concat_char put
  rw [returns_bind, hb.size]
  refine returns_mono (returns_sized hshort) ?_
  rintro _ h₁ ⟨rfl, hnew⟩
  rw [returns_bind]
  refine returns_of_eq (hb.made hnew).chars ?_
  rw [returns_bind]
  refine returns_mono (hnew.store (d := b ++ [0, 0]) ?_ ?_) ?_
  · simp only [List.length_replicate]
    omega
  · rw [List.drop_replicate, List.take_zero, List.nil_append]
    rw [show b.length + 1 + 1 - (0 + b.length) = 2 by omega]
    rfl
  intro _ h₂ hleft
  rw [returns_bind, Nat.add_sub_cancel]
  refine returns_mono (hleft.store (d := b ++ [r] ++ [0]) (by simp) (by simp)) ?_
  intro _ h₃ hright
  rw [returns_bind]
  refine returns_mono (hright.store (d := b ++ [r] ++ [0]) (by simp) ?_) ?_
  · rw [List.take_left' (by simp)]
    simp
  intro _ h₄ hended
  rw [returns_pure]
  exact ⟨rfl, hended⟩

/-! A string that is too long has no buffer, or it is written behind its end. -/

theorem ends_of_chars (b : List UInt8) : Ends (of_chars b) h (fun s h' =>
    s = ⟨b.length, some h.next, false, 0⟩ ∧ Made h h' (b ++ [0])) fun _ => True := by
  by_cases hshort : b.length + 1 < 2 ^ 32
  · exact ends_of_returns (returns_of_chars hshort)
  unfold of_chars buffer
  rw [ends_bind, ends_bind, strlen_eq]
  exact (ends_of_error (dif_neg hshort)).mpr trivial

theorem ends_sized (m : UInt32) : Ends (sized m) h (fun s h' =>
    s = ⟨m.toNat, some h.next, false, 0⟩ ∧ Made h h' (List.replicate (m.toNat + 1) 0))
      fun _ => True := by
  have hm : m.toNat < 2 ^ 32 := m.toNat_lt
  by_cases hn : m.toNat + 1 < 2 ^ 32
  · have hsized := returns_sized (h := h) hn
    rw [Nat.toUInt32_eq, UInt32.ofNat_toNat] at hsized
    exact ends_of_returns hsized
  have hwrap : (m + 1).toNat = 0 := by
    rw [UInt32.toNat_add, UInt32.toNat_one]
    omega
  unfold sized
  rw [ends_bind, hwrap]
  refine ends_of_returns (returns_mono (returns_new (n := 0) (by omega) 0) ?_)
  rintro _ h₁ ⟨rfl, hnew⟩
  rw [ends_bind]
  exact (ends_of_error (hnew.store_outside (by simp))).mpr trivial

theorem ends_concat {l r : Str} {a : List UInt8} (ha : Holds h l a) (hb : Holds h r b) :
    Ends (concat l r) h (fun s h' => s = ⟨(a ++ b).length, some h.next, false, 0⟩ ∧
      Made h h' (a ++ b ++ [0])) fun _ => True := by
  by_cases hshort : a.length + b.length + 1 < 2 ^ 32
  · rw [List.length_append]
    exact ends_of_returns (returns_concat ha hb hshort)
  have hr := hb.short
  have hsize : (a.length + b.length).toUInt32.toNat = (a.length + b.length) % 2 ^ 32 := by
    rw [Nat.toUInt32_eq, UInt32.toNat_ofNat']
  unfold concat put
  rw [ends_bind, ha.size, hb.size]
  refine ends_mono (ends_sized _) ?_
  rintro _ h₁ ⟨rfl, hnew⟩
  have hfits := h₁.fits _ _ hnew.new
  rw [List.length_replicate, hsize] at hfits
  rw [ends_bind]
  refine (ends_of_eq (ha.made hnew).chars).mpr ?_
  rw [ends_bind]
  refine (ends_of_error (hnew.store_outside ?_)).mpr trivial
  rw [List.length_replicate, hsize]
  omega

theorem ends_concat_char {r : UInt8} (hb : Holds h s b) : Ends (concat_char s r) h (fun t h' =>
    t = ⟨(b ++ [r]).length, some h.next, false, 0⟩ ∧ Made h h' (b ++ [r] ++ [0])) fun _ => True := by
  by_cases hlong : b.length + 2 < 2 ^ 32
  · rw [List.length_append]
    exact ends_of_returns (returns_concat_char hb hlong)
  have hshort := hb.short
  have hsize : (b.length + 1).toUInt32.toNat = b.length + 1 := by
    rw [Nat.toUInt32_eq, UInt32.toNat_ofNat']
    omega
  unfold concat_char
  rw [ends_bind, hb.size]
  refine ends_mono (ends_sized _) ?_
  rintro _ h₁ ⟨rfl, hnew⟩
  have hfits := h₁.fits _ _ hnew.new
  rw [List.length_replicate, hsize] at hfits
  omega

theorem returns_destroy (hb : Holds h s b) :
    Returns (destroy s) h fun _ h' => Freed h h' s._data := by
  refine returns_delete fun p hp => ?_
  have hdata := hb.data
  rw [hp] at hdata
  rw [hdata]
  rfl

theorem Holds.freed {o : Option ℕ} (hb : Holds h s b) (hf : Freed h h' o)
    (hne : ∀ p, s._data = some p → o ≠ some p) : Holds h' s b :=
  hb.mono fun p hp => hf.kept p (hne p hp)

theorem returns_assign {self : Str} {a : List UInt8} (ha : Holds h self a) (hb : Holds h s b)
    (hne : ∀ p, s._data = some p → self._data ≠ some p) : Returns (assign self s) h fun t h' =>
      ∃ h₁, Freed h h₁ self._data ∧ Made h₁ h' (b ++ [0]) ∧
        t = ⟨b.length, some h₁.next, false, self._hash⟩ := by
  unfold assign
  rw [returns_bind]
  refine returns_mono (returns_destroy ha) ?_
  intro _ h₁ hfreed
  have hkept : Holds h₁ s b := hb.freed hfreed hne
  rw [returns_bind, hb.size]
  refine returns_mono (returns_buffer hb.short fun _ _ hm => (hkept.made hm).chars) ?_
  rintro _ h₂ ⟨rfl, hm⟩
  rw [returns_pure]
  exact ⟨h₁, hfreed, hm, rfl⟩

theorem returns_move_assign {self : Str} {a : List UInt8} (ha : Holds h self a) :
    Returns (move_assign self s) h fun t h' =>
      t = (⟨s._size, s._data, s._has_hash, s._hash⟩, { s with _data := none, _size := 0 }) ∧
        Freed h h' self._data := by
  unfold move_assign
  rw [returns_bind]
  refine returns_mono (returns_destroy ha) ?_
  intro _ h₁ hfreed
  rw [returns_pure]
  exact ⟨rfl, hfreed⟩

theorem Holds.char_at {i : ℕ} {ch : UInt8} (hb : Holds h s b) (hi : b[i]? = some ch) :
    StringObject.char_at s i h = .ok (ch, h) := by
  have hlt : i < b.length := (List.getElem?_eq_some_iff.mp hi).1
  have hdata := hb.data
  unfold StringObject.char_at
  split at hdata
  next => simp [hdata] at hlt
  next p hsome =>
    have hch : (((b ++ [0]).drop i).take 1).headD 0 = ch := by
      rw [List.headD_eq_head?_getD, List.head?_take, if_neg (by omega), List.head?_drop,
        List.getElem?_append_left hlt, hi]
      rfl
    simp only [hsome]
    rw [bind_eq, load_eq hdata (by simp only [List.length_append, List.length_singleton]; omega)]
    simp only [hch]
    rfl

theorem Holds.equal {l r : Str} {a : List UInt8} (ha : Holds h l a) (hb : Holds h r b) :
    StringObject.equal l r h = .ok (decide (a = b), h) := by
  unfold StringObject.equal
  rw [ha.size, hb.size]
  split
  next hne =>
    have hdiff : a ≠ b := fun heq => hne (congrArg List.length heq)
    rw [decide_eq_false hdiff]
    rfl
  next =>
    rw [bind_eq, ha.chars]
    simp only
    rw [bind_eq, hb.chars]
    rfl

theorem Holds.get_hash (hb : Holds h s b) : StringObject.get_hash s h =
    .ok (if s._has_hash then (s._hash, s) else
      (String.compute_hash b, { s with _has_hash := true, _hash := String.compute_hash b }), h) := by
  unfold StringObject.get_hash
  split
  · rfl
  · rw [bind_eq, hb.chars]
    rfl

end Infos.Util.StringObject
