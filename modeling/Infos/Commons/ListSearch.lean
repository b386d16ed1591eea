import Infos.Commons.ListCalls
import Infos.Commons.Range

/-!
# Searching a list

`Find` stops before the second node, so it only ever looks at the first one. `Get` counts its steps
from either end.
-/

open Infos.Prog Infos.Ring

namespace Infos.Commons.LinkedList

variable {T : Type} {m m' : LinkedList T} {cells a b : List (ℕ × T)} {c d : ℕ × T}

/-! ## `Find` and `Contains` -/

/-- The loop is over after the root. -/
theorem Find_cons (h : Holds m (c :: cells)) (Invoke : T → T → Bool) (elem : T) :
    Returns (Find elem (some Invoke)) m fun r m' =>
      m' = m ∧ r = if Invoke c.2 elem then some c.1 else none := by
  have hc := h.data c List.mem_cons_self
  have hcount : m._count.toNat = cells.length + 1 := by rw [h.count]; rfl
  unfold Find
  rw [returns_bind, returns_get, h.root]
  simp only [List.head?_cons, Option.map_some]
  rw [returns_bind]
  refine returns_mono (load_spec hc) ?_
  rintro n m ⟨rfl, -, hn, -⟩
  rw [returns_bind, returns_get, hcount]
  unfold Find_loop
  rw [returns_bind]
  refine returns_mono (load_spec hc) ?_
  rintro n' m ⟨rfl, hdata, hn', -⟩
  rw [hdata, hn, hn']
  refine returns_ite (fun heq => ?_) fun hne => ?_
  · rw [returns_pure, if_pos heq]
    exact ⟨rfl, rfl⟩
  · rw [if_pos rfl, returns_pure, if_neg hne]
    exact ⟨rfl, rfl⟩

theorem Find_nil (h : Holds m []) (Invoke : T → T → Bool) (elem : T) :
    Returns (Find elem (some Invoke)) m fun r m' => m' = m ∧ r = none := by
  unfold Find
  rw [returns_bind, returns_get, h.root]
  exact (returns_pure ..).mpr ⟨rfl, rfl⟩

/-- Whether the first element is one that is looked for. -/
def first (p : T → Bool) (l : List T) : Bool := l.head?.any p

theorem Find_spec (h : Holds m cells) (Invoke : T → T → Bool) (elem : T) :
    Returns (Find elem (some Invoke)) m fun r m' => m' = m ∧
      r = if first (Invoke · elem) (cells.map Prod.snd) then cells.head?.map Prod.fst else none := by
  cases cells with
  | nil => exact Find_nil h Invoke elem
  | cons c l => exact Find_cons h Invoke elem

theorem Contains_spec [DecidableEq T] (h : Holds m cells) (elem : T) :
    Returns (Contains elem) m fun r m' => m' = m ∧
      r = decide ((cells.map Prod.snd).head? = some elem) := by
  unfold Contains
  rw [returns_bind]
  refine returns_mono (Find_spec h _ elem) ?_
  rintro _ m' ⟨rfl, rfl⟩
  rw [returns_pure]
  refine ⟨rfl, ?_⟩
  cases cells with
  | nil => rfl
  | cons c l =>
    unfold first
    by_cases heq : c.2 = elem
    · simp [heq]
    · simp [heq]

/-- A node with an equal element, or none if there is none. -/
def Finds (Invoke : T → T → Bool) (elem : T) (cells : List (ℕ × T)) : Option ℕ → Prop
  | some node => ∃ c ∈ cells, c.1 = node ∧ Invoke c.2 elem = true
  | none => ∀ c ∈ cells, Invoke c.2 elem = false

/-- What searching is meant to do. -/
structure Searches [DecidableEq T] (m : LinkedList T) (Invoke : T → T → Bool) (elem : T) : Prop where
  finds : Returns (Find elem (some Invoke)) m fun r m' => m' = m ∧ Finds Invoke elem m.sequence r
  contains : Returns (Contains elem) m fun r m' => m' = m ∧ (r = true ↔ elem ∈ m.toList)
  removed : Returns (do Remove elem; Contains elem) m fun r _ => r = false

theorem finds_iff (Invoke : T → T → Bool) (elem : T) (cells : List (ℕ × T)) :
    Finds Invoke elem cells
        (if first (Invoke · elem) (cells.map Prod.snd) then cells.head?.map Prod.fst else none) ↔
      ((∃ x ∈ cells.map Prod.snd, Invoke x elem = true) →
        first (Invoke · elem) (cells.map Prod.snd) = true) := by
  cases cells with
  | nil => simp [Finds, first]
  | cons c l =>
    have hfirst : first (Invoke · elem) ((c :: l).map Prod.snd) = Invoke c.2 elem := rfl
    rw [hfirst]
    by_cases heq : Invoke c.2 elem = true
    · rw [if_pos heq]
      exact iff_of_true ⟨c, List.mem_cons_self, rfl, heq⟩ fun _ => heq
    · rw [if_neg heq]
      constructor
      · rintro hnone ⟨x, hx, hequal⟩
        obtain ⟨d, hd, rfl⟩ := List.mem_map.mp hx
        rw [hnone d hd] at hequal
        cases hequal
      · intro h d hd
        by_contra hequal
        exact heq (h ⟨d.2, List.mem_map_of_mem hd, Bool.not_eq_false _ ▸ hequal⟩)

/-- Once its equals are removed, an element is not found, wherever the search ends. -/
theorem removed_spec [DecidableEq T] (h : Holds m cells) (elem : T) :
    Returns (do Remove elem; Contains elem) m fun r _ => r = false := by
  rw [returns_bind]
  refine returns_mono (Remove_spec elem h) fun _ m₁ h₁ => ?_
  refine returns_mono (Contains_spec h₁ elem) ?_
  rintro _ - ⟨-, rfl⟩
  rw [decide_eq_false_iff_not]
  intro hhead
  obtain ⟨c, hc, rfl⟩ := List.mem_map.mp (List.mem_of_mem_head? hhead)
  simpa using List.of_mem_filter hc

/-- Searching is right if and only if what is looked for is the first element or nowhere. -/
theorem searches_iff [DecidableEq T] (q : RingList T) (Invoke : T → T → Bool) (elem : T) :
    Searches q.1 Invoke elem ↔
      ((∃ x ∈ q.toList, Invoke x elem = true) → first (Invoke · elem) q.toList = true) ∧
        (elem ∈ q.toList → q.toList.head? = some elem) := by
  obtain ⟨m, cells, h⟩ := q
  have hl : RingList.toList ⟨m, cells, h⟩ = cells.map Prod.snd := h.toList_eq
  have hfind := Find_spec h Invoke elem
  have hcontains := Contains_spec h elem
  rw [hl]
  constructor
  · rintro ⟨hf, hc, -⟩
    obtain ⟨r, _, hx, -, hr⟩ := hfind
    obtain ⟨b, _, hy, -, hb⟩ := hcontains
    have hfinds := (returns_ok hf hx).2
    have hmem := (returns_ok hc hy).2
    rw [h.sequence_eq, hr] at hfinds
    rw [h.toList_eq, hb, decide_eq_true_iff] at hmem
    exact ⟨(finds_iff ..).mp hfinds, hmem.mpr⟩
  · rintro ⟨hf, hc⟩
    refine ⟨returns_mono hfind ?_, returns_mono hcontains ?_, removed_spec h elem⟩
    · rintro _ m' ⟨rfl, rfl⟩
      rw [h.sequence_eq]
      exact ⟨rfl, (finds_iff ..).mpr hf⟩
    · rintro _ m' ⟨rfl, rfl⟩
      rw [h.toList_eq, decide_eq_true_iff]
      exact ⟨rfl, List.mem_of_mem_head?, hc⟩

theorem exists_list : ∃ q : RingList ℕ, q.toList = [7, 8] := by
  have hlist : ((system ℕ).exec empty [.AddToTail 7, .AddToTail 8]).map toList = some [7, 8] := by
    decide
  obtain ⟨m, hm, hl⟩ := Option.map_eq_some_iff.mp hlist
  exact ⟨⟨m, reachable_holds ⟨empty, _, rfl, System.run_of_exec hm⟩⟩, hl⟩

/-- The second of two elements. -/
theorem second_not_found : ∃ q : RingList ℕ, q.toList = [7, 8] ∧
    ¬Searches q.1 (fun x y => decide (x = y)) 8 := by
  obtain ⟨⟨m, cells, h⟩, hl⟩ := exists_list
  have hl : cells.map Prod.snd = [7, 8] := h.toList_eq.symm.trans hl
  refine ⟨⟨m, cells, h⟩, h.toList_eq.trans hl, fun hs => ?_⟩
  obtain ⟨b, m', hx, -, hb⟩ := Contains_spec h 8
  have hmem := (returns_ok hs.contains hx).2
  rw [h.toList_eq, hb, hl] at hmem
  exact absurd hmem (by decide)

/-! ## `Get` -/

theorem Holds.prev (h : Holds m (a ++ d :: c :: b)) : m.links.prev c.1 = some d.1 := by
  have hchain := h.ring.1
  rw [List.map_append] at hchain
  exact (List.isChain_cons_cons.mp (List.isChain_append.mp hchain).2.1).1.2

theorem look_prev_spec {k : ℕ} (h : Holds m (a ++ c :: b)) (hk : k ≤ a.length) :
    Returns (look ListNode._prev k (some c.1)) m fun r m' => m' = m ∧
      r = ((a ++ [c])[a.length - k]?).map Prod.fst := by
  induction k generalizing a c b with
  | zero =>
    unfold look
    simp
  | succ k ih =>
    rcases List.eq_nil_or_concat a with rfl | ⟨a, d, rfl⟩
    · cases hk
    rw [List.concat_eq_append, List.length_append, List.length_singleton] at hk
    rw [List.concat_eq_append] at h ⊢
    rw [List.append_assoc] at h
    unfold look
    rw [returns_bind]
    refine returns_mono (load_spec (h.data c (by simp))) ?_
    rintro n m ⟨rfl, -, -, hprev⟩
    rw [hprev, Holds.prev h]
    refine returns_mono (ih h (by omega)) ?_
    rintro _ m' ⟨rfl, rfl⟩
    refine ⟨rfl, ?_⟩
    have hfront : (a ++ [d] ++ [c])[a.length - k]? = (a ++ [d])[a.length - k]? :=
      List.getElem?_append_left (by rw [List.length_append, List.length_singleton]; omega)
    rw [List.length_append, List.length_singleton, Nat.add_sub_add_right, hfront]

/-- From the root, the first step back is to the last node. -/
theorem look_back (h : Holds m (a ++ c :: b)) :
    Returns (look ListNode._prev (b.length + 1) m._root) m fun r m' => m' = m ∧ r = some c.1 := by
  cases hcells : a ++ c :: b with
  | nil => simp at hcells
  | cons e l =>
    rw [hcells] at h
    obtain ⟨d, hd, hde⟩ := h.ends
    obtain ⟨l', hl'⟩ := List.getLast?_eq_some_iff.mp hd
    have hroot : m._root = some e.1 := h.root
    have hlen : a.length + (b.length + 1) = l'.length + 1 := by
      rw [← List.length_cons (a := c), ← List.length_append, hcells, hl', List.length_append,
        List.length_singleton]
    unfold look
    rw [hroot, returns_bind]
    refine returns_mono (load_spec (h.data e List.mem_cons_self)) ?_
    rintro n m ⟨rfl, -, -, hprev⟩
    rw [hprev, hde.2]
    have hlast : Holds m (l' ++ d :: []) := hl' ▸ h
    refine returns_mono (look_prev_spec hlast (by omega)) ?_
    rintro _ m' ⟨rfl, rfl⟩
    rw [← hl', ← hcells, show l'.length - b.length = a.length by omega]
    simp

theorem look_on (h : Holds m (a ++ c :: b)) :
    Returns (look ListNode._next a.length m._root) m fun r m' => m' = m ∧ r = some c.1 := by
  cases hcells : a ++ c :: b with
  | nil => simp at hcells
  | cons e l =>
    have hlen := congrArg List.length hcells
    rw [List.length_append, List.length_cons, List.length_cons] at hlen
    rw [hcells] at h
    rw [show m._root = some e.1 from h.root]
    refine returns_mono (look_next_spec (a := []) h (by omega)) ?_
    rintro _ m' ⟨rfl, rfl⟩
    rw [← hcells]
    simp

/-- The position that an index is of, which is counted from the end if it is negative. -/
def position (n : ℕ) (index : ℤ) : ℕ := (if 0 ≤ index then index else n + index).toNat

theorem Get_at {index : ℤ} (h : Holds m (a ++ c :: b))
    (hlo : -((a ++ c :: b).length : ℤ) ≤ index) (hhi : index < (a ++ c :: b).length)
    (hp : position (a ++ c :: b).length index = a.length) :
    Returns (Get index : Op T T) m fun r m' => m' = m ∧ r = c.2 := by
  have hcount := h.count
  have hlen : (a ++ c :: b).length = a.length + (b.length + 1) := List.length_append
  have hload : ∀ node m', m' = m ∧ node = some c.1 →
      Returns (do pure (← load node)._data : Op T T) m' fun r m' => m' = m ∧ r = c.2 := by
    rintro _ _ ⟨rfl, rfl⟩
    rw [returns_bind]
    refine returns_mono (load_spec (h.data c (by simp))) ?_
    rintro n m' ⟨rfl, hn, -⟩
    rw [returns_pure]
    exact ⟨rfl, hn⟩
  unfold position at hp
  unfold Get
  rw [returns_bind, returns_get]
  by_cases hpos : 0 ≤ index
  · rw [if_pos hpos] at hp
    rw [if_pos ⟨hpos, by omega⟩, returns_bind, hp]
    exact returns_mono (look_on h) hload
  · rw [if_neg hpos] at hp
    rw [if_neg fun hcond => hpos hcond.1, if_pos ⟨by omega, by omega⟩, returns_bind,
      show (-index).toNat = b.length + 1 by omega]
    exact returns_mono (look_back h) hload

theorem exists_split {p : ℕ} (hp : p < cells.length) :
    ∃ a c b, cells = a ++ c :: b ∧ a.length = p := by
  refine ⟨cells.take p, cells[p], cells.drop (p + 1), ?_, List.length_take_of_le hp.le⟩
  rw [← List.drop_eq_getElem_cons hp, List.take_append_drop]

theorem position_lt {n : ℕ} {index : ℤ} (hlo : -(n : ℤ) ≤ index) (hhi : index < n) :
    position n index < n := by
  unfold position
  split <;> omega

/-- `Get` takes every index, from either end. -/
theorem Get_elem {index : ℤ} (h : Holds m cells) (hlo : -(cells.length : ℤ) ≤ index)
    (hhi : index < cells.length) : Returns (Get index : Op T T) m fun r m' => m' = m ∧
      (cells.map Prod.snd)[position cells.length index]? = some r := by
  obtain ⟨a, c, b, rfl, hp⟩ := exists_split (position_lt hlo hhi)
  refine returns_mono (Get_at h hlo hhi hp.symm) ?_
  rintro _ _ ⟨hsame, rfl⟩
  refine ⟨hsame, ?_⟩
  rw [← hp]
  simp

end Infos.Commons.LinkedList
