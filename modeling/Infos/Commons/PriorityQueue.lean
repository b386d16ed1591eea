import Mathlib.Data.Multiset.Basic
import Mathlib.Data.Multiset.AddSub
import Mathlib.Data.List.Sort
import Infos.Commons.HeapRings

/-!
# What the priority queue serves

`Enqueue` puts a key at one of the two ends of the ring, and `Dequeue` goes on from a node to the
next one, so that the elements come out in the order of the ring.
-/

open Infos.Prog

namespace Infos.Commons.PriorityQueue

open FibHeap

variable {TKey : Type} [LinearOrder TKey]

inductive Call (TKey : Type) where
  | Enqueue (key : TKey)
  | Dequeue

/-- How many elements wait after the calls, `n` before them. -/
def waiting : (n : ℕ) → List (Call TKey) → ℕ
  | n, [] => n
  | n, .Enqueue _ :: cs => waiting (n + 1) cs
  | n, .Dequeue :: cs => waiting (n - 1) cs

/-- `x` is a minimal one of the elements that wait. -/
def Least (W : Multiset TKey) (x : TKey) : Prop := x ∈ W ∧ ∀ y ∈ W, x ≤ y

/-- Where `W` are the elements that wait, every call comes back, and each `Dequeue` with a minimal
element, which is the one that `Front` has shown. -/
def Serves : FibMemory TKey TKey → (W : Multiset TKey) → List (Call TKey) → Prop
  | _, _, [] => True
  | m, W, .Enqueue key :: cs => Returns (Enqueue key) m fun _ m' => Serves m' (key ::ₘ W) cs
  | m, W, .Dequeue :: cs => Returns Front m fun x m₁ => Returns Dequeue m₁ fun y m' =>
      y = x ∧ Least W x ∧ Serves m' (W.erase x) cs

/-- After `c` calls of `Enqueue`, a key is given when nothing waits if it is the first one, up to
the range of an `int`, and only then, and it is smaller than all that wait or not smaller than any
of them. -/
def Conforming : (c : ℕ) → (W : Multiset TKey) → List (Call TKey) → Prop
  | _, _, [] => True
  | c, W, .Enqueue key :: cs => (2 ^ 32 ∣ c ↔ W = 0) ∧
      ((∀ y ∈ W, key < y) ∨ ∀ y ∈ W, y ≤ key) ∧ Conforming (c + 1) (key ::ₘ W) cs
  | c, W, .Dequeue :: cs => ∃ x, Least W x ∧ Conforming c (W.erase x) cs

/-! ## The keys of the ring -/

/-- The keys of the ring after an `Enqueue`, if it comes back. -/
def enqueue (c : ℕ) (key : TKey) (r : List TKey) : Option (List TKey) :=
  if 2 ^ 32 ∣ c then some [key]
  else
    match r with
    | [] => none
    | k :: l => some (if key < k then key :: k :: l else k :: l ++ [key])

/-- The ring holds what waits, in order. -/
def Ordered (r : List TKey) (W : Multiset TKey) : Prop := r.Pairwise (· ≤ ·) ∧ (r : Multiset TKey) = W

variable {c n : ℕ} {key x : TKey} {r r' l : List TKey} {W : Multiset TKey} {cs : List (Call TKey)}

theorem Least.unique {y : TKey} (h : Least W x) (h' : Least W y) : x = y :=
  le_antisymm (h.2 y h'.1) (h'.2 x h.1)

theorem ordered_cons : Ordered (x :: l) W ↔ Least W x ∧ Ordered l (W.erase x) := by
  unfold Ordered
  rw [List.pairwise_cons]
  constructor
  · rintro ⟨⟨hx, hl⟩, rfl⟩
    refine ⟨⟨by simp, fun y hy => ?_⟩, hl, by simp⟩
    rcases List.mem_cons.mp (Multiset.mem_coe.mp hy) with rfl | hy
    · exact le_rfl
    · exact hx y hy
  · rintro ⟨hx, hl, hw⟩
    have hcons : ((x :: l : List TKey) : Multiset TKey) = W := by
      rw [← Multiset.cons_coe, hw, Multiset.cons_erase hx.1]
    refine ⟨⟨fun y hy => hx.2 y ?_, hl⟩, hcons⟩
    rw [← hcons]
    simp [hy]

/-- The ring is in order after an `Enqueue` only if it was so before, and the key belongs at the end
where it is put. -/
theorem enqueue_ordered (h : r' ∈ enqueue c key r) (hlen : r.length ≤ W.card) :
    Ordered r' (key ::ₘ W) ↔ Ordered r W ∧ (2 ^ 32 ∣ c ↔ W = 0) ∧
      ((∀ y ∈ W, key < y) ∨ ∀ y ∈ W, y ≤ key) := by
  unfold enqueue at h
  split at h
  next hc =>
    obtain rfl := Option.some.inj h
    have hsingle : Ordered [key] (key ::ₘ W) ↔ W = 0 := by
      unfold Ordered
      rw [← Multiset.cons_coe, Multiset.cons_inj_right, Multiset.coe_nil]
      simp [eq_comm]
    rw [hsingle]
    constructor
    · rintro rfl
      obtain rfl : r = [] := by simpa using hlen
      exact ⟨⟨.nil, rfl⟩, iff_of_true hc rfl, by simp⟩
    · rintro ⟨-, hw, -⟩
      exact hw.mp hc
  next hc =>
    cases r with
    | nil => cases h
    | cons k l =>
      obtain rfl := Option.some.inj h
      have hne : Ordered (k :: l) W → W ≠ 0 := by
        rintro ⟨-, rfl⟩ h0
        simp at h0
      split
      next hlt =>
        have hcons : Ordered (key :: k :: l) (key ::ₘ W) ↔ Ordered (k :: l) W := by
          rw [ordered_cons, Multiset.erase_cons_head]
          refine and_iff_right_of_imp fun hr => ⟨by simp, fun y hy => ?_⟩
          rcases Multiset.mem_cons.mp hy with rfl | hy
          · exact le_rfl
          · exact hlt.le.trans ((ordered_cons.mp hr).1.2 y hy)
        rw [hcons]
        refine ⟨fun hr => ⟨hr, iff_of_false hc (hne hr), .inl fun y hy => ?_⟩, fun hr => hr.1⟩
        exact hlt.trans_le ((ordered_cons.mp hr).1.2 y hy)
      next hge =>
        have hsnoc : Ordered (k :: l ++ [key]) (key ::ₘ W) ↔
            Ordered (k :: l) W ∧ ∀ y ∈ W, y ≤ key := by
          unfold Ordered
          have hperm : (((k :: l ++ [key] : List TKey)) : Multiset TKey) =
              key ::ₘ ((k :: l : List TKey) : Multiset TKey) :=
            Multiset.coe_eq_coe.mpr (List.perm_append_singleton key (k :: l))
          rw [hperm, Multiset.cons_inj_right, List.pairwise_append]
          constructor
          · rintro ⟨⟨hr, -, hkey⟩, rfl⟩
            exact ⟨⟨hr, rfl⟩, fun y hy => hkey y hy key (by simp)⟩
          · rintro ⟨⟨hr, rfl⟩, hkey⟩
            exact ⟨⟨hr, List.pairwise_singleton _ _, by simpa using hkey⟩, rfl⟩
        rw [hsnoc]
        constructor
        · rintro ⟨hr, hkey⟩
          exact ⟨hr, iff_of_false hc (hne hr), .inr hkey⟩
        · rintro ⟨hr, -, hkey | hkey⟩
          · have hmem : k ∈ W := by
              rw [← hr.2]
              simp
            exact absurd (hkey k hmem) hge
          · exact ⟨hr, hkey⟩

theorem enqueue_length (h : r' ∈ enqueue c key r) (hlen : r.length ≤ W.card) :
    r'.length ≤ (key ::ₘ W).card := by
  rw [Multiset.card_cons]
  unfold enqueue at h
  split at h
  · obtain rfl := Option.some.inj h
    simp
  · cases r with
    | nil => cases h
    | cons k l =>
      obtain rfl := Option.some.inj h
      split <;> simpa using hlen

/-- `Serves` for a ring with the keys `r`, of which the first is the next to go. -/
def ServesRing : (c : ℕ) → (r : List TKey) → (W : Multiset TKey) → List (Call TKey) → Prop
  | _, _, _, [] => True
  | c, r, W, .Enqueue key :: cs => ∃ r' ∈ enqueue c key r, ServesRing (c + 1) r' (key ::ₘ W) cs
  | c, r, W, .Dequeue :: cs => ∃ x l, r = x :: l ∧ Least W x ∧ ServesRing c l (W.erase x) cs

/-- What waits comes out in order exactly if the ring is in order. -/
theorem drain_iff (hlen : r.length ≤ W.card) :
    (∀ n ≤ W.card, ServesRing c r W (List.replicate n .Dequeue)) ↔ Ordered r W := by
  induction r generalizing W with
  | nil =>
    unfold Ordered
    simp only [List.Pairwise.nil, Multiset.coe_nil, true_and]
    constructor
    · intro h
      cases hcard : W.card with
      | zero => exact (Multiset.card_eq_zero.mp hcard).symm
      | succ n =>
        obtain ⟨x, l, hr, -⟩ := h 1 (by omega)
        cases hr
    · rintro rfl n hn
      obtain rfl : n = 0 := by simpa using hn
      trivial
  | cons x l ih =>
    rw [List.length_cons] at hlen
    rw [ordered_cons]
    have herase : ∀ y, Least W y → (W.erase y).card = W.card - 1 := fun y hy =>
      Multiset.card_erase_of_mem hy.1
    constructor
    · intro h
      obtain ⟨_, _, heq, hx, -⟩ := h 1 (by omega)
      cases heq
      refine ⟨hx, (ih (by rw [herase x hx]; omega)).mp fun n hn => ?_⟩
      rw [herase x hx] at hn
      obtain ⟨_, _, heq, -, hs⟩ := h (n + 1) (by omega)
      cases heq
      exact hs
    · rintro ⟨hx, hl⟩ n hn
      cases n with
      | zero => trivial
      | succ n =>
        have hs := (ih (by rw [herase x hx]; omega)).mpr hl n (by rw [herase x hx]; omega)
        exact ⟨x, l, rfl, hx, hs⟩

theorem servesRing_iff (hlen : r.length ≤ W.card) :
    (∀ n ≤ waiting W.card cs, ServesRing c r W (cs ++ List.replicate n .Dequeue)) ↔
      Ordered r W ∧ Conforming c W cs := by
  induction cs generalizing c r W with
  | nil =>
    unfold Conforming
    rw [and_true]
    exact drain_iff hlen
  | cons call cs ih =>
    cases call with
    | Enqueue key =>
      have hwait : waiting W.card (.Enqueue key :: cs) = waiting (key ::ₘ W).card cs := by
        rw [Multiset.card_cons]
        rfl
      rw [hwait]
      cases hr : enqueue c key r with
      | none =>
        constructor
        · intro h
          obtain ⟨r', hr', -⟩ := h 0 (Nat.zero_le _)
          rw [hr] at hr'
          cases hr'
        · rintro ⟨ho, hc, -⟩
          -- only an empty ring faults, and then nothing waits
          unfold enqueue at hr
          split at hr
          · cases hr
          next hdvd =>
            cases r with
            | nil => exact absurd (hc.mpr ho.2.symm) hdvd
            | cons => cases hr
      | some r' =>
        have hmem : r' ∈ enqueue c key r := hr
        have hnext := ih (c := c + 1) (enqueue_length hmem hlen)
        rw [enqueue_ordered hmem hlen] at hnext
        unfold Conforming
        rw [← and_assoc, ← and_assoc, and_assoc (a := Ordered r W), ← hnext]
        refine forall₂_congr fun n _ => ?_
        show (∃ r'' ∈ enqueue c key r, _) ↔ _
        rw [hr]
        simp
    | Dequeue =>
      cases r with
      | nil =>
        constructor
        · intro h
          obtain ⟨x, l, hr, -⟩ := h 0 (Nat.zero_le _)
          cases hr
        · rintro ⟨⟨-, rfl⟩, x, hx, -⟩
          exact absurd hx.1 (by simp)
      | cons x l =>
        rw [ordered_cons]
        have hstep : ∀ n, ServesRing c (x :: l) W (.Dequeue :: cs ++ List.replicate n .Dequeue) ↔
            Least W x ∧ ServesRing c l (W.erase x) (cs ++ List.replicate n .Dequeue) := by
          intro n
          constructor
          · rintro ⟨_, _, heq, hx, hs⟩
            cases heq
            exact ⟨hx, hs⟩
          · rintro ⟨hx, hs⟩
            exact ⟨x, l, rfl, hx, hs⟩
        simp only [hstep]
        by_cases hx : Least W x
        · have hcard : (W.erase x).card = W.card - 1 := Multiset.card_erase_of_mem hx.1
          have hwait : waiting W.card (.Dequeue :: cs) = waiting (W.erase x).card cs := by
            rw [hcard]
            rfl
          rw [List.length_cons] at hlen
          have hnext := ih (c := c) (r := l) (W := W.erase x) (by omega)
          simp only [hx, true_and, hwait]
          rw [hnext]
          refine and_congr_right fun _ => ⟨fun h => ⟨x, hx, h⟩, ?_⟩
          rintro ⟨y, hy, h⟩
          obtain rfl := hx.unique hy
          exact h
        · simp only [hx, false_and, iff_false]
          intro h
          exact h 0 (Nat.zero_le _)

/-! ## The ring of the code -/

/-- The heap is a ring with the keys `r`, each of which is its own value, after `c` calls of
`Enqueue`. -/
def Represents (m : FibMemory TKey TKey) (c : ℕ) (r : List TKey) : Prop :=
  ∃ cells, Holds m cells ∧ (∀ d ∈ cells, d.value = d.key) ∧ cells.map Cell.key = r ∧ m.num = int c

variable {m m' : FibMemory TKey TKey}

theorem int_eq_zero : int (c : ℤ) = 0 ↔ 2 ^ 32 ∣ c := by
  unfold int
  rw [← Int.dvd_iff_bmod_eq_zero]
  exact Int.natCast_dvd_natCast (m := 2 ^ 32)

theorem int_succ : int (int (c : ℤ) + 1) = int ((c + 1 : ℕ) : ℤ) := Int.bmod_add_bmod

theorem represents_new (comparator : IValueComparator TKey) : Represents (new comparator) 0 [] :=
  ⟨[], ⟨⟨Ring.ring_nil _, .nil, by simp⟩, rfl, fun _ _ => rfl⟩, by simp, rfl, rfl⟩

theorem Enqueue_spec (h : Represents m c r) (hr : r' ∈ enqueue c key r) :
    Returns (Enqueue key) m fun _ m' => Represents m' (c + 1) r' := by
  obtain ⟨cells, hm, hvalue, rfl, hnum⟩ := h
  have hzero : m.num = 0 ↔ 2 ^ 32 ∣ c := hnum ▸ int_eq_zero
  have hnext : ∀ m' : FibMemory TKey TKey, m'.num = int (m.num + 1) →
      m'.num = int ((c + 1 : ℕ) : ℤ) := by
    intro m' hm'
    rw [hm', hnum, int_succ]
  unfold Enqueue
  rw [returns_bind]
  unfold enqueue at hr
  split at hr
  next hc =>
    obtain rfl := Option.some.inj hr
    refine returns_mono (Insert_first hm (hzero.mpr hc) key key) ?_
    rintro _ m' ⟨-, hi⟩
    rw [returns_pure]
    exact ⟨_, hi.holds, by simp, rfl, hnext _ hi.num⟩
  next hc =>
    cases cells with
    | nil => cases hr
    | cons d l =>
      obtain rfl := Option.some.inj hr
      refine returns_mono (Insert_later hm (mt hzero.mp hc) key key) ?_
      rintro _ m' ⟨-, hi⟩
      rw [returns_pure]
      refine ⟨_, hi.holds, fun e he => ?_, ?_, hnext _ hi.num⟩
      · split at he
        · rcases List.mem_cons.mp he with rfl | he
          · rfl
          · exact hvalue e he
        · rcases List.mem_append.mp he with he | he
          · exact hvalue e he
          · obtain rfl := List.mem_singleton.mp he
            rfl
      · split <;> simp

theorem Enqueue_fault (h : Represents m c r) (hr : enqueue c key r = none) :
    Ends (Enqueue key) m (fun _ _ => False) (· = .null) := by
  obtain ⟨cells, hm, -, rfl, hnum⟩ := h
  unfold enqueue at hr
  split at hr
  · cases hr
  next hc =>
    cases cells with
    | cons => cases hr
    | nil =>
      unfold Enqueue
      rw [ends_bind]
      have hne : m.num ≠ 0 := hnum ▸ mt int_eq_zero.mp hc
      exact ends_mono (Insert_fault hm.min hne key key) fun _ _ hf => hf.elim

theorem Front_spec (h : Represents m c (x :: l)) :
    Returns Front m fun y m' => m' = m ∧ y = x := by
  obtain ⟨cells, hm, hvalue, hkeys, -⟩ := h
  cases cells with
  | nil => cases hkeys
  | cons d cells =>
    obtain ⟨rfl, -⟩ := List.cons.inj hkeys
    unfold Front Minimum
    rw [returns_bind, returns_bind, returns_get, returns_pure, hm.min, returns_bind]
    refine returns_mono (load_spec (hm.data d List.mem_cons_self)) ?_
    rintro _ m ⟨rfl, rfl⟩
    rw [returns_pure]
    exact ⟨rfl, hvalue d List.mem_cons_self⟩

theorem Front_fault (h : Represents m c []) : Ends Front m (fun _ _ => False) (· = .null) := by
  obtain ⟨cells, hm, -, hkeys, -⟩ := h
  obtain rfl := List.map_eq_nil_iff.mp hkeys
  unfold Front Minimum
  rw [ends_bind, ends_bind, ends_get, ends_pure, hm.min, ends_bind]
  exact rfl

theorem Dequeue_spec (h : Represents m c (x :: l)) :
    Returns Dequeue m fun y m' => y = x ∧ Represents m' c l := by
  obtain ⟨cells, hm, hvalue, hkeys, hnum⟩ := h
  cases cells with
  | nil => cases hkeys
  | cons d cells =>
    obtain ⟨rfl, rfl⟩ := List.cons.inj hkeys
    unfold Dequeue
    rw [returns_bind]
    refine returns_mono (ExtractMin_spec hm) ?_
    rintro _ m' ⟨rfl, hm', hnum', hd⟩
    rw [returns_bind]
    refine returns_mono (load_spec hd) ?_
    rintro _ m' ⟨rfl, rfl⟩
    rw [returns_pure]
    refine ⟨hvalue d List.mem_cons_self, cells, hm', fun e he => ?_, rfl, hnum'.trans hnum⟩
    exact hvalue e (List.mem_cons_of_mem _ he)

/-! ## The calls -/

/-- The queue serves what its ring serves. -/
theorem serves_ring (h : Represents m c r) : Serves m W cs ↔ ServesRing c r W cs := by
  induction cs generalizing m c r W with
  | nil => exact Iff.rfl
  | cons call cs ih =>
    cases call with
    | Enqueue key =>
      cases hr : enqueue c key r with
      | none =>
        constructor
        · intro hs
          exact absurd hs (not_returns (Enqueue_fault h hr))
        · rintro ⟨r', hr', -⟩
          rw [hr] at hr'
          cases hr'
      | some r' =>
        have hspec := Enqueue_spec h (show r' ∈ enqueue c key r from hr)
        constructor
        · rintro ⟨u, m', hm', hs⟩
          have h' := returns_ok hspec hm'
          exact ⟨r', hr, (ih h').mp hs⟩
        · rintro ⟨r'', hr', hs⟩
          obtain rfl := Option.mem_unique hr hr'
          exact returns_mono hspec fun _ m' h' => (ih h').mpr hs
    | Dequeue =>
      cases r with
      | nil =>
        constructor
        · intro hs
          exact absurd hs (not_returns (Front_fault h))
        · rintro ⟨x, l, hr, -⟩
          cases hr
      | cons x l =>
        constructor
        · rintro ⟨y, m₁, hfront, hs⟩
          obtain ⟨rfl, rfl⟩ := returns_ok (Front_spec h) hfront
          obtain ⟨z, m', hdeq, rfl, hx, hs⟩ := hs
          obtain ⟨-, h'⟩ := returns_ok (Dequeue_spec h) hdeq
          exact ⟨_, l, rfl, hx, (ih h').mp hs⟩
        · rintro ⟨_, _, heq, hx, hs⟩
          cases heq
          refine returns_mono (Front_spec h) ?_
          rintro _ _ ⟨rfl, rfl⟩
          refine returns_mono (Dequeue_spec h) ?_
          rintro _ m' ⟨rfl, h'⟩
          exact ⟨rfl, hx, (ih h').mpr hs⟩

/-- The calls `cs`, and then as many `Dequeue`s as there are elements left, are served exactly if
they are conforming. -/
theorem serves_minima (comparator : IValueComparator TKey) (cs : List (Call TKey)) :
    (∀ n ≤ waiting 0 cs, Serves (new comparator) 0 (cs ++ List.replicate n .Dequeue)) ↔
      Conforming 0 0 cs := by
  have hring : (∀ n ≤ waiting 0 cs, ServesRing 0 [] 0 (cs ++ List.replicate n .Dequeue)) ↔
      Ordered [] (0 : Multiset TKey) ∧ Conforming 0 0 cs := by
    rw [← servesRing_iff (by simp), Multiset.card_zero]
  simp only [serves_ring (represents_new comparator)]
  rw [hring]
  exact and_iff_right ⟨.nil, rfl⟩

/-- The third element is put behind the second, which is greater and comes out before it. -/
theorem three_before_two : ¬Serves (new byDifference) 0
    [.Enqueue 1, .Enqueue 3, .Enqueue 2, .Dequeue, .Dequeue] := by
  rw [serves_ring (represents_new byDifference)]
  simp [ServesRing, enqueue, Least]

end Infos.Commons.PriorityQueue
