import Infos.Lib.Loop
import Infos.Util.CString
import Mathlib.Algebra.Order.Ring.Nat

/-!
# Comparing strings in memory

`strlen` and `strncmp` of `util/string.cpp`, as they go through the memory from one character to the
next.
-/

namespace Infos.Util.InMemory

def strlen_loop (memory : UInt64 → UInt8) : Loop (UInt64 × UInt64) UInt64
  | (str, counter) => if memory str ≠ 0 then .inl (str + 1, counter + 1) else .inr counter

/-- The null pointer is asked for first. -/
def strlen (memory : UInt64 → UInt8) (str result : UInt64) : Prop :=
  if str = 0 then result = 0 else (strlen_loop memory).Ends (str, 0) result

def strncmp_loop (memory : UInt64 → UInt8) : Loop (UInt64 × UInt64 × UInt64) Int32
  | (str1, str2, n) =>
    if memory str1 ≠ 0 ∧ memory str2 ≠ 0 ∧ n ≠ 0 then
      if memory str1 ≠ memory str2 then .inr (-1) else .inl (str1 + 1, str2 + 1, n - 1)
    else .inr 0

def strncmp (memory : UInt64 → UInt8) (str1 str2 n : UInt64) (result : Int32) : Prop :=
  ∃ size1 size2, strlen memory str1 size1 ∧ strlen memory str2 size2 ∧
    if size1 ≠ size2 then result = -1
    else (strncmp_loop memory).Ends (str1, str2, n) result

/-! ## Strings -/

variable {memory : UInt64 → UInt8} {p q n : UInt64} {a b : List UInt8}

/-- The characters from an address on, up to the first zero. -/
inductive StringAt (memory : UInt64 → UInt8) : UInt64 → List UInt8 → Prop
  | terminator {p : UInt64} (h : memory p = 0) : StringAt memory p []
  | char {p : UInt64} {a : List UInt8} (h : memory p ≠ 0) (ha : StringAt memory (p + 1) a) :
    StringAt memory p (memory p :: a)

theorem add_ofNat_succ (p : UInt64) (i : ℕ) :
    p + UInt64.ofNat (i + 1) = p + 1 + UInt64.ofNat i := by
  rw [UInt64.ofNat_add, UInt64.add_comm (UInt64.ofNat i), UInt64.add_assoc]
  rfl

theorem StringAt.char_ne_zero (h : StringAt memory p a) {i : ℕ} (hi : i < a.length) :
    memory (p + UInt64.ofNat i) ≠ 0 := by
  induction h generalizing i with
  | terminator => cases hi
  | char h _ ih =>
    cases i with
    | zero => simpa using h
    | succ i =>
      rw [add_ofNat_succ]
      exact ih (Nat.lt_of_succ_lt_succ hi)

theorem StringAt.zero_behind (h : StringAt memory p a) :
    memory (p + UInt64.ofNat a.length) = 0 := by
  induction h with
  | terminator h => simpa using h
  | char _ _ ih => rwa [List.length_cons, add_ofNat_succ]

/-- The addresses come round again after 2^64, where the zero of a longer string would be met. -/
theorem StringAt.length_lt (h : StringAt memory p a) : a.length < 2 ^ 64 := by
  by_contra hlong
  have hround : UInt64.ofNat (a.length - 2 ^ 64) = UInt64.ofNat a.length := by
    apply UInt64.toNat_inj.mp
    simp only [UInt64.toNat_ofNat']
    omega
  refine h.char_ne_zero (show a.length - 2 ^ 64 < a.length by omega) ?_
  rw [hround]
  exact h.zero_behind

/-! ## The loops over a string -/

theorem StringAt.strlen_loop (h : StringAt memory p a) (counter : UInt64) :
    (strlen_loop memory).Ends (p, counter) (counter + UInt64.ofNat a.length) := by
  induction h generalizing counter with
  | terminator h => exact .leave (by simp [InMemory.strlen_loop, h])
  | char h _ ih =>
    rw [List.length_cons, add_ofNat_succ]
    exact .turn (by simp [InMemory.strlen_loop, h]) (ih (counter + 1))

theorem StringAt.strlen_iff (h : StringAt memory p a) (hp : p ≠ 0) {size : UInt64} :
    strlen memory p size ↔ size = UInt64.ofNat a.length := by
  have hends := h.strlen_loop 0
  rw [UInt64.zero_add] at hends
  unfold strlen
  rw [if_neg hp]
  constructor
  · exact fun h => h.unique hends
  · rintro rfl
    exact hends

/-- The loop sees what the strings have in front of their zeros. -/
theorem StringAt.strncmp_loop (ha : StringAt memory p a) (hb : StringAt memory q b) (n : UInt64) :
    (strncmp_loop memory).Ends (p, q, n) (Util.strncmp_loop a b n.toNat) := by
  induction ha generalizing q b n with
  | terminator h => exact .leave (by simp [InMemory.strncmp_loop, Util.strncmp_loop, h])
  | @char p a hp _ ih =>
    cases hb with
    | terminator h => exact .leave (by simp [InMemory.strncmp_loop, Util.strncmp_loop, h])
    | char hq hb =>
      rcases eq_or_ne n 0 with rfl | hn
      · exact .leave (by simp [InMemory.strncmp_loop, Util.strncmp_loop])
      · rw [toNat_pred hn, Util.strncmp_loop]
        split
        next hne => exact .leave (by simp [InMemory.strncmp_loop, hp, hq, hn, hne])
        next heq =>
          refine .turn ?_ (ih hb (n - 1))
          simp [InMemory.strncmp_loop, hq, hn, not_not.mp heq]

theorem strncmp_eq (ha : StringAt memory p a) (hb : StringAt memory q b) (hp : p ≠ 0) (hq : q ≠ 0)
    {result : Int32} : strncmp memory p q n result ↔ result = Util.strncmp a b n.toNat := by
  have hsizes : UInt64.ofNat a.length = UInt64.ofNat b.length ↔ a.length = b.length := by
    have hlt := ha.length_lt
    have hlt' := hb.length_lt
    rw [← UInt64.toNat_inj]
    simp only [UInt64.toNat_ofNat']
    omega
  have hloop := ha.strncmp_loop hb n
  unfold strncmp Util.strncmp
  simp only [ha.strlen_iff hp, hb.strlen_iff hq, exists_and_left, exists_eq_left, strlen_eq, ne_eq,
    hsizes]
  split
  next => rfl
  next =>
    constructor
    · exact fun h => h.unique hloop
    · rintro rfl
      exact hloop

/-! ## The first characters -/

/-- The first `n` characters are the same, where the zero is the last one of each string. -/
def Agree (a b : List UInt8) (n : ℕ) : Prop := (a ++ [0]).take n = (b ++ [0]).take n

instance (a b : List UInt8) (n : ℕ) : Decidable (Agree a b n) := inferInstanceAs (Decidable (_ = _))

theorem agree_iff (h : a.length = b.length) (n : ℕ) : Agree a b n ↔ a.take n = b.take n := by
  unfold Agree
  rw [List.take_append, List.take_append, h]
  exact List.append_left_inj _

/-- Character by character, as long as no zero has been met. -/
def SameChars (memory : UInt64 → UInt8) (p q : UInt64) (n : ℕ) : Prop :=
  ∀ i < n, (∀ j < i, memory (p + UInt64.ofNat j) ≠ 0) →
    memory (p + UInt64.ofNat i) = memory (q + UInt64.ofNat i)

theorem sameChars_succ (k : ℕ) : SameChars memory p q (k + 1) ↔
    memory p = memory q ∧ (memory p ≠ 0 → SameChars memory (p + 1) (q + 1) k) := by
  constructor
  · intro h
    refine ⟨by simpa using h 0 (Nat.succ_pos k) (fun j hj => absurd hj (Nat.not_lt_zero j)), ?_⟩
    intro hne i hi hbefore
    rw [← add_ofNat_succ, ← add_ofNat_succ]
    refine h (i + 1) (Nat.succ_lt_succ hi) fun j hj => ?_
    cases j with
    | zero => simpa using hne
    | succ j =>
      rw [add_ofNat_succ]
      exact hbefore j (Nat.lt_of_succ_lt_succ hj)
  · rintro ⟨hfirst, hrest⟩ i hi hbefore
    cases i with
    | zero => simpa using hfirst
    | succ i =>
      have hne : memory p ≠ 0 := by simpa using hbefore 0 (Nat.succ_pos i)
      rw [add_ofNat_succ, add_ofNat_succ]
      refine hrest hne i (Nat.lt_of_succ_lt_succ hi) fun j hj => ?_
      rw [← add_ofNat_succ]
      exact hbefore (j + 1) (Nat.succ_lt_succ hj)

/-- The rule for the first characters is the one of C. -/
theorem agree_iff_sameChars (ha : StringAt memory p a) (hb : StringAt memory q b) (k : ℕ) :
    Agree a b k ↔ SameChars memory p q k := by
  induction ha generalizing q b k with
  | terminator hp =>
    cases k with
    | zero => simp [Agree, SameChars]
    | succ k =>
      rw [sameChars_succ, hp]
      cases hb with
      | terminator hq => simp [Agree, hq]
      | char hq _ => simp [Agree, hq.symm]
  | char hp _ ih =>
    cases k with
    | zero => simp [Agree, SameChars]
    | succ k =>
      rw [sameChars_succ]
      cases hb with
      | terminator hq => simp [Agree, hq, hp]
      | char hq hb =>
        rw [← ih hb k]
        simp [Agree, hp]

/-- Strings of different lengths are never found to agree, not even where they do. -/
theorem strncmp_agrees (ha : StringAt memory p a) (hb : StringAt memory q b) (hp : p ≠ 0)
    (hq : q ≠ 0) (n : UInt64) : (∃ result, strncmp memory p q n result) ∧
      ∀ result, strncmp memory p q n result →
        (result = 0 ↔ a.length = b.length ∧ Agree a b n.toNat) := by
  simp only [strncmp_eq ha hb hp hq, exists_eq, forall_eq, true_and]
  rw [strncmp_eq_zero]
  exact and_congr_right fun h => (agree_iff h _).symm

/-- The text `one` at 16 and `on` at 32, with a zero everywhere else. -/
def two_texts (a : UInt64) : UInt8 :=
  if a = 16 ∨ a = 32 then 111 else if a = 17 ∨ a = 33 then 110 else if a = 18 then 101 else 0

theorem one_at : StringAt two_texts 16 [111, 110, 101] :=
  .char (by decide) (.char (by decide) (.char (by decide) (.terminator (by decide))))

theorem on_at : StringAt two_texts 32 [111, 110] :=
  .char (by decide) (.char (by decide) (.terminator (by decide)))

theorem strncmp_agrees_one : (∃ result, strncmp two_texts 16 32 2 result) ∧
    ∀ result, strncmp two_texts 16 32 2 result → (result = 0 ↔
      [111, 110, 101].length = [111, 110].length ∧ Agree [111, 110, 101] [111, 110] 2) :=
  strncmp_agrees one_at on_at (by decide) (by decide) 2

/-- The first two characters of `one` and `on` agree. -/
theorem prefix_not_found : StringAt two_texts 16 [111, 110, 101] ∧
    StringAt two_texts 32 [111, 110] ∧ Agree [111, 110, 101] [111, 110] 2 ∧
      ¬strncmp two_texts 16 32 2 0 := by
  refine ⟨one_at, on_at, by decide, ?_⟩
  rw [strncmp_eq one_at on_at (by decide) (by decide)]
  decide

end Infos.Util.InMemory
