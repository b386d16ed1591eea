import Infos.Commons.LinkedList

/-!
# The list is a ring, and its functions edit it as a list

`Holds m cells` says that the list is the ring of the nodes of `cells`, each with its element, the
root first.
-/

open Infos.Prog Infos.Ring

namespace Infos.Commons.LinkedList

variable {T : Type} {m m' : LinkedList T}

def links (m : LinkedList T) : Links ℕ where
  next a := (m.node a).bind ListNode._next
  prev a := (m.node a).bind ListNode._prev

def data (m : LinkedList T) (a : ℕ) : Option T := (m.node a).map ListNode._data

structure Holds (m : LinkedList T) (cells : List (ℕ × T)) : Prop where
  ring : IsRing m.links (cells.map Prod.fst)
  nodup : (cells.map Prod.fst).Nodup
  data : ∀ c ∈ cells, m.data c.1 = some c.2
  root : m._root = cells.head?.map Prod.fst
  count : m._count = cells.length
  fresh : ∀ a, m.fresh ≤ a → m.data a = none

theorem holds_empty : Holds (empty : LinkedList T) [] where
  ring := ring_nil _
  nodup := .nil
  data := by simp
  root := rfl
  count := rfl
  fresh _ _ := rfl

/-! ## Loads and stores -/

theorem exists_node {a : ℕ} {x : T} (h : m.data a = some x) :
    ∃ n, m.node a = some n ∧ n._data = x := Option.map_eq_some_iff.mp h

theorem load_spec {a : ℕ} {x : T} (h : m.data a = some x) :
    Returns (load (some a)) m fun n m' => m' = m ∧ n._data = x ∧ n._next = m.links.next a ∧
      n._prev = m.links.prev a := by
  obtain ⟨n, hn, rfl⟩ := exists_node h
  unfold load links
  simp [hn]

/-- What a store into a pointer leaves as it was. -/
structure Keeps (m m' : LinkedList T) : Prop where
  data : ∀ a, m'.data a = m.data a
  fresh : m'.fresh = m.fresh
  root : m'._root = m._root
  count : m'._count = m._count

theorem Keeps.trans {m₁ m₂ m₃ : LinkedList T} (h : Keeps m₁ m₂) (h' : Keeps m₂ m₃) :
    Keeps m₁ m₃ where
  data a := (h'.data a).trans (h.data a)
  fresh := h'.fresh.trans h.fresh
  root := h'.root.trans h.root
  count := h'.count.trans h.count

theorem store_spec {a : ℕ} {x : T} (h : m.data a = some x) (f : ListNode T → ListNode T)
    (hf : ∀ n, (f n)._data = n._data) :
    Returns (store (some a) f) m fun _ m' => Keeps m m' ∧ ∃ n, m.node a = some n ∧
      m'.links = ⟨fun b => if a = b then (f n)._next else m.links.next b,
        fun b => if a = b then (f n)._prev else m.links.prev b⟩ := by
  obtain ⟨n, hn, rfl⟩ := exists_node h
  unfold store
  rw [returns_bind]
  unfold load
  simp only [Option.bind_some, returns_bind, returns_get, hn, returns_pure, returns_modify,
    Option.some.injEq]
  refine ⟨⟨fun b => ?_, rfl, rfl, rfl⟩, n, rfl, ?_⟩
  · by_cases hb : a = b
    · subst hb
      simp [data, hn, hf]
    · simp [data, hb]
  · unfold links
    simp only [Links.mk.injEq]
    constructor
    · funext b
      split <;> simp [*]
    · funext b
      split <;> simp [*]

theorem store_next_spec {a : ℕ} {x : T} (h : m.data a = some x) (p : Option ℕ) :
    Returns (store (some a) fun n => { n with _next := p }) m fun _ m' => Keeps m m' ∧
      m'.links = ⟨fun b => if a = b then p else m.links.next b, m.links.prev⟩ := by
  refine returns_mono (store_spec h _ fun _ => rfl) ?_
  rintro _ m' ⟨hk, n, hn, hl⟩
  refine ⟨hk, hl.trans ?_⟩
  simp only [Links.mk.injEq, true_and]
  funext b
  split
  next he =>
    subst he
    simp [links, hn]
  next => rfl

theorem store_prev_spec {a : ℕ} {x : T} (h : m.data a = some x) (p : Option ℕ) :
    Returns (store (some a) fun n => { n with _prev := p }) m fun _ m' => Keeps m m' ∧
      m'.links = ⟨m.links.next, fun b => if a = b then p else m.links.prev b⟩ := by
  refine returns_mono (store_spec h _ fun _ => rfl) ?_
  rintro _ m' ⟨hk, n, hn, hl⟩
  refine ⟨hk, hl.trans ?_⟩
  simp only [Links.mk.injEq, and_true]
  funext b
  split
  next he =>
    subst he
    simp [links, hn]
  next => rfl

/-! ## One node -/

/-- The same nodes with the same elements. -/
structure SameNodes (m m' : LinkedList T) : Prop where
  data : ∀ a, m'.data a = m.data a
  fresh : m'.fresh = m.fresh

theorem AddAfter_spec {x y w : ℕ} {dx dy dw : T} (hx : m.data x = some dx)
    (hy : m.data y = some dy) (hw : m.data w = some dw) (hyx : m.links.next y = some x)
    (hwy : w ≠ y) :
    Returns (AddAfter (some w) (some y)) m fun _ m' => SameNodes m m' ∧
      m'.links = ⟨fun z => if y = z then some w else if w = z then some x else m.links.next z,
        fun z => if x = z then some w else if w = z then some y else m.links.prev z⟩ ∧
      m'._root = m._root ∧ m'._count = m._count + 1 := by
  unfold AddAfter
  rw [returns_bind]
  refine returns_mono (load_spec hy) ?_
  rintro n m ⟨rfl, -, hn, -⟩
  rw [hn, hyx, returns_bind]
  refine returns_mono (store_next_spec hw _) ?_
  rintro - m₁ ⟨hk₁, hl₁⟩
  rw [returns_bind]
  refine returns_mono (store_prev_spec ((hk₁.data w).trans hw) _) ?_
  rintro - m₂ ⟨hk₂, hl₂⟩
  have hk₂ := hk₁.trans hk₂
  rw [returns_bind]
  refine returns_mono (load_spec ((hk₂.data y).trans hy)) ?_
  rintro n m₂ ⟨rfl, -, hn, -⟩
  have hnext : m₂.links.next y = some x := by
    rw [hl₂, hl₁]
    simp [hwy, hyx]
  rw [hn, hnext, returns_bind]
  refine returns_mono (store_prev_spec ((hk₂.data x).trans hx) _) ?_
  rintro - m₃ ⟨hk₃, hl₃⟩
  have hk₃ := hk₂.trans hk₃
  rw [returns_bind]
  refine returns_mono (store_next_spec ((hk₃.data y).trans hy) _) ?_
  rintro - m₄ ⟨hk₄, hl₄⟩
  have hk₄ := hk₃.trans hk₄
  rw [returns_modify]
  refine ⟨⟨hk₄.data, hk₄.fresh⟩, ?_, hk₄.root, congrArg (· + 1) hk₄.count⟩
  show m₄.links = _
  rw [hl₄, hl₃, hl₂, hl₁]

theorem RemoveNode_spec {x y w : ℕ} {dx dy dw : T} (hx : m.data x = some dx)
    (hy : m.data y = some dy) (hw : m.data w = some dw) (hwx : m.links.next w = some x)
    (hwy : m.links.prev w = some y) :
    Returns (RemoveNode (some w)) m fun _ m' => SameNodes m m' ∧
      m'.links = ⟨fun z => if y = z then some x else m.links.next z,
        fun z => if x = z then some y else m.links.prev z⟩ ∧
      m'._root = (if some w = m._root then if m._count = 1 then none else some x else m._root) ∧
      m'._count = m._count - 1 := by
  unfold RemoveNode
  rw [returns_bind]
  refine returns_mono (load_spec hw) ?_
  rintro n m ⟨rfl, -, -, hprev⟩
  rw [returns_bind]
  refine returns_mono (load_spec hw) ?_
  rintro n' m ⟨rfl, -, hnext, -⟩
  rw [hprev, hnext, hwx, hwy, returns_bind]
  refine returns_mono (store_prev_spec hx _) ?_
  rintro - m₁ ⟨hk₁, hl₁⟩
  rw [returns_bind]
  refine returns_mono (load_spec ((hk₁.data w).trans hw)) ?_
  rintro n m₁ ⟨rfl, -, hnext, -⟩
  rw [returns_bind]
  refine returns_mono (load_spec ((hk₁.data w).trans hw)) ?_
  rintro n' m₁ ⟨rfl, -, -, hprev⟩
  have hwx₁ : m₁.links.next w = some x := by rw [hl₁, ← hwx]
  have hwy₁ : m₁.links.prev w = some y := by
    rw [hl₁]
    simp [hwy]
  rw [hnext, hprev, hwx₁, hwy₁, returns_bind]
  refine returns_mono (store_next_spec ((hk₁.data y).trans hy) _) ?_
  rintro - m₂ ⟨hk₂, hl₂⟩
  have hk₂ := hk₁.trans hk₂
  have hl₂ : m₂.links = ⟨fun z => if y = z then some x else m.links.next z,
      fun z => if x = z then some y else m.links.prev z⟩ := by rw [hl₂, hl₁]
  have hsame : SameNodes m m₂ := ⟨hk₂.data, hk₂.fresh⟩
  have hcount : m₂._count - 1 = m._count - 1 := congrArg (· - 1) hk₂.count
  rw [returns_bind, returns_get, hk₂.root]
  dsimp only
  split
  next hroot =>
    rw [returns_bind, returns_get, hk₂.root, ← hroot, returns_bind]
    refine returns_mono (load_spec ((hk₂.data w).trans hw)) ?_
    rintro n m₂ ⟨rfl, -, hnext, -⟩
    have hwx₂ : m₂.links.next w = some x := by
      rw [hl₂]
      simp [hwx]
    simp only [returns_bind, returns_modify, returns_get, hnext, hwx₂]
    split
    next h1 =>
      rw [returns_bind, returns_modify, returns_modify]
      rw [hk₂.count] at h1
      exact ⟨⟨hsame.data, hsame.fresh⟩, hl₂, by rw [if_pos h1], hcount⟩
    next h1 =>
      rw [returns_modify]
      rw [hk₂.count] at h1
      exact ⟨⟨hsame.data, hsame.fresh⟩, hl₂, by rw [if_neg h1], hcount⟩
  next hroot =>
    rw [returns_modify]
    exact ⟨⟨hsame.data, hsame.fresh⟩, hl₂, hk₂.root, hcount⟩

/-! ## The ring -/

variable {cells a b : List (ℕ × T)} {c : ℕ × T}

theorem Holds.fresh_not_mem (h : Holds m cells) : m.fresh ∉ cells.map Prod.fst := by
  rintro hmem
  obtain ⟨c, hc, heq⟩ := List.mem_map.mp hmem
  have hdata := h.data c hc
  rw [heq, h.fresh _ le_rfl] at hdata
  cases hdata

theorem MakeShared_spec (elem : T) (h : Holds m cells) :
    Returns (MakeShared elem) m fun r m' => r = some m.fresh ∧ m'.data m.fresh = some elem ∧
      Holds m' cells := by
  unfold MakeShared
  rw [returns_bind, returns_get, returns_bind, returns_modify, returns_pure]
  have hne : ∀ a ∈ cells.map Prod.fst, m.fresh ≠ a := by
    rintro a ha rfl
    exact h.fresh_not_mem ha
  refine ⟨rfl, by simp [data], ⟨?_, h.nodup, fun c hc => ?_, h.root, h.count, fun a ha => ?_⟩⟩
  · exact ring_congr h.ring (fun a ha => by simp [links, hne a ha])
      fun a ha => by simp [links, hne a ha]
  · have hc' := hne c.1 (List.mem_map_of_mem hc)
    rw [← h.data c hc]
    simp [data, hc']
  · have hlt : m.fresh + 1 ≤ a := ha
    have hlt' : m.fresh ≠ a := by omega
    rw [← h.fresh a (by omega)]
    simp [data, hlt']

/-- The first and the last node, which point at each other. -/
theorem Holds.ends (h : Holds m (c :: cells)) :
    ∃ d ∈ (c :: cells).getLast?, m.links.Joins d.1 c.1 :=
  ring_last_map h.ring

/-- A ring has no distinguished node, so any of them can be the root. -/
theorem Holds.turn (h : Holds m (a ++ b)) :
    Holds { m with _root := (b ++ a).head?.map Prod.fst } (b ++ a) where
  ring := by
    have hring := h.ring
    rw [List.map_append] at hring ⊢
    exact ring_swap hring
  nodup := (List.perm_append_comm.map Prod.fst).nodup_iff.mp h.nodup
  data d hd := h.data d (List.perm_append_comm.mem_iff.mp hd)
  root := rfl
  count := h.count.trans (by rw [List.length_append, List.length_append, Nat.add_comm])
  fresh := h.fresh

/-- A new node behind another one. -/
theorem Holds.insert_spec {w : ℕ} {elem : T} (h : Holds m (a ++ c :: b)) (hw : m.data w = some elem)
    (hnot : w ∉ (a ++ c :: b).map Prod.fst) :
    Returns (AddAfter (some w) (some c.1)) m fun _ m' => Holds m' (a ++ c :: (w, elem) :: b) := by
  have hcells : a ++ c :: b = (a ++ [c]) ++ b := by rw [List.append_assoc]; rfl
  have hperm : (a ++ c :: b).Perm (b ++ (a ++ [c])) := hcells ▸ List.perm_append_comm
  have hring : IsRing m.links ((b ++ (a ++ [c])).map Prod.fst) := by
    have hswap := h.ring
    rw [hcells, List.map_append] at hswap
    rw [List.map_append]
    exact ring_swap hswap
  have hnd := (hperm.map Prod.fst).nodup_iff.mp h.nodup
  have hdata : ∀ d ∈ b ++ (a ++ [c]), w ≠ d.1 ∧ m.data d.1 = some d.2 := by
    intro d hd
    have hmem := hperm.mem_iff.mpr hd
    exact ⟨fun he => hnot (he ▸ List.mem_map_of_mem hmem), h.data d hmem⟩
  have hlast : c ∈ (b ++ (a ++ [c])).getLast? := by simp
  -- Once `c` is the last node, the one behind it is the first.
  cases hl : b ++ (a ++ [c]) with
  | nil => simp at hl
  | cons x l =>
    rw [hl] at hring hnd hdata hlast
    obtain ⟨d, hd, hdx⟩ := ring_last_map hring
    obtain rfl : c = d := Option.mem_unique hlast hd
    obtain ⟨hwx, hx⟩ := hdata x List.mem_cons_self
    obtain ⟨hwc, hc⟩ := hdata c (List.mem_of_getLast? hlast)
    refine returns_mono (AddAfter_spec hx hc hw hdx.1 hwc) ?_
    rintro - m' ⟨hk, hlinks, hroot, hcount⟩
    have hne : ∀ z ∈ (x :: l).map Prod.fst, w ≠ z := by
      intro z hz
      obtain ⟨d, hd, rfl⟩ := List.mem_map.mp hz
      exact (hdata d hd).1
    have hring' : IsRing m'.links ((x :: l).map Prod.fst ++ [w]) := by
      refine ring_insert hring hnd (last_map hlast) ?_ ?_ (fun z hz hzc => ?_) fun z hz hzx => ?_
      · rw [hlinks]
        exact ⟨if_pos rfl, by simp [hwx.symm]⟩
      · rw [hlinks]
        exact ⟨by simp [hwc.symm], if_pos rfl⟩
      · rw [hlinks]
        simp [hzc.symm, hne z hz]
      · rw [hlinks]
        simp [hzx.symm, hne z hz]
    have hperm' : (a ++ c :: (w, elem) :: b).Perm ((w, elem) :: (a ++ c :: b)) := by
      rw [show a ++ c :: (w, elem) :: b = (a ++ [c]) ++ (w, elem) :: b by simp, hcells]
      exact List.perm_middle
    refine ⟨?_, ?_, fun e he => ?_, ?_, ?_, fun z hz => ?_⟩
    · rw [← hl, List.map_append, List.append_assoc] at hring'
      simpa using ring_swap hring'
    · refine (hperm'.map Prod.fst).nodup_iff.mpr ?_
      exact List.nodup_cons.mpr ⟨hnot, h.nodup⟩
    · rw [hk.data]
      rcases List.mem_cons.mp (hperm'.mem_iff.mp he) with rfl | hold
      · exact hw
      · exact h.data e hold
    · rw [hroot, h.root, List.head?_append, List.head?_append]
      rfl
    · rw [hcount, h.count, hperm'.length_eq, List.length_cons]
      omega
    · rw [hk.data]
      exact h.fresh z (hk.fresh ▸ hz)

/-- The links of a node that is alone. -/
theorem holds_alone {w : ℕ} {elem : T} (h : Holds m []) (hw : m.data w = some elem)
    (hk : Keeps m m') (hjoins : m'.links.Joins w w) :
    Holds { m' with _root := some w, _count := m'._count + 1 } [(w, elem)] where
  ring := ring_singleton.mpr hjoins
  nodup := List.nodup_singleton w
  data c hc := by
    obtain rfl := List.mem_singleton.mp hc
    exact (hk.data w).trans hw
  root := rfl
  count := by
    show m'._count + 1 = _
    rw [hk.count, h.count]
    rfl
  fresh a ha := by
    have ha : m'.fresh ≤ a := ha
    exact (hk.data a).trans (h.fresh a (hk.fresh ▸ ha))

/-- The new node is the only one, as soon as it is the root and counted. -/
theorem alone_spec {w : ℕ} {elem : T} (h : Holds m []) (hw : m.data w = some elem) :
    Returns (do
      store (some w) fun n => { n with _next := some w }
      store (some w) fun n => { n with _prev := some w } : Op T Unit) m fun _ m' =>
        Holds { m' with _root := some w, _count := m'._count + 1 } [(w, elem)] := by
  rw [returns_bind]
  refine returns_mono (store_next_spec hw _) ?_
  rintro - m₂ ⟨hk₂, hl₂⟩
  refine returns_mono (store_prev_spec ((hk₂.data w).trans hw) _) ?_
  rintro - m₃ ⟨hk₃, hl₃⟩
  refine holds_alone h hw (hk₂.trans hk₃) ?_
  rw [hl₃, hl₂]
  exact ⟨if_pos rfl, if_pos rfl⟩

/-- The new node is the last one of a list that had nodes, with the root as before. -/
theorem after_last_spec {w : ℕ} {elem : T} (h : Holds m (c :: cells)) (hw : m.data w = some elem)
    (hnot : w ∉ (c :: cells).map Prod.fst) :
    Returns (do AddAfter (some w) (← load (some c.1))._prev : Op T Unit) m fun _ m' =>
      Holds m' (c :: cells ++ [(w, elem)]) := by
  obtain ⟨d, hd, hdc⟩ := h.ends
  rw [returns_bind]
  refine returns_mono (load_spec (h.data c List.mem_cons_self)) ?_
  rintro n m ⟨rfl, -, -, hprev⟩
  rw [hprev, hdc.2]
  obtain ⟨l, hl⟩ := List.getLast?_eq_some_iff.mp hd
  rw [hl] at h hnot ⊢
  rw [List.append_assoc]
  exact h.insert_spec hw hnot

theorem AddToTail_spec (elem : T) (h : Holds m cells) :
    Returns (AddToTail elem) m fun r m' => ∃ w, r = some w ∧ Holds m' (cells ++ [(w, elem)]) := by
  unfold AddToTail
  rw [returns_bind]
  refine returns_mono (MakeShared_spec elem h) ?_
  rintro _ m₁ ⟨rfl, hw, h₁⟩
  have hnot := h.fresh_not_mem
  generalize m.fresh = w at hw hnot
  rw [returns_bind, returns_get, h₁.root]
  cases cells with
  | nil =>
    simp only [List.head?_nil, Option.map_none]
    have halone := alone_spec h₁ hw
    rw [returns_bind] at halone ⊢
    refine returns_mono halone fun _ m₂ h₂ => ?_
    rw [returns_bind]
    refine returns_mono h₂ fun _ m₃ h₃ => ?_
    rw [returns_bind, returns_modify, returns_pure]
    exact ⟨w, rfl, h₃⟩
  | cons c l =>
    simp only [List.head?_cons, Option.map_some]
    have hlast := after_last_spec h₁ hw hnot
    rw [returns_bind] at hlast ⊢
    refine returns_mono hlast fun _ m₂ h₂ => ?_
    rw [returns_bind]
    refine returns_mono h₂ fun _ m₃ h₃ => ?_
    rw [returns_pure]
    exact ⟨w, rfl, h₃⟩

/-- A node that is taken out still has its element, and points back at the node before it. -/
theorem Holds.unlink_spec (h : Holds m (a ++ c :: b)) :
    Returns (RemoveNode (some c.1)) m fun _ m' => Holds m' (a ++ b) ∧ m'.data c.1 = some c.2 ∧
      m'.links.prev c.1 = m.links.prev c.1 := by
  have hmem : ∀ d ∈ a ++ b, d ∈ a ++ c :: b := by
    simp only [List.mem_append, List.mem_cons]
    tauto
  have hnd : c.1 ∉ (b ++ a).map Prod.fst ∧ ((b ++ a).map Prod.fst).Nodup := by
    have hperm : (a ++ c :: b).Perm (c :: (b ++ a)) :=
      List.perm_append_comm.trans (List.Perm.refl _)
    have := (hperm.map Prod.fst).nodup_iff.mp h.nodup
    rwa [List.map_cons, List.nodup_cons] at this
  have hring : IsRing m.links (c.1 :: (b ++ a).map Prod.fst) := by
    have := h.ring
    rw [List.map_append] at this
    have := ring_swap this
    rwa [← List.map_append] at this
  have hc : m.data c.1 = some c.2 := h.data c (by simp)
  obtain ⟨x, hx, hcx⟩ := ring_first hring
  obtain ⟨y, hy, hyc⟩ := ring_last hring
  have hlive : ∀ z ∈ c.1 :: (b ++ a).map Prod.fst, ∃ d, m.data z = some d := by
    intro z hz
    rcases List.mem_cons.mp hz with rfl | hz
    · exact ⟨_, hc⟩
    · obtain ⟨d, hd, rfl⟩ := List.mem_map.mp hz
      exact ⟨d.2, h.data d (hmem d (by simpa [or_comm] using hd))⟩
  have hxm : x ∈ c.1 :: (b ++ a).map Prod.fst := by
    have := List.mem_of_head? hx
    simp only [List.mem_append, List.mem_cons] at this ⊢
    tauto
  obtain ⟨dx, hdx⟩ := hlive x hxm
  obtain ⟨dy, hdy⟩ := hlive y (List.mem_of_getLast? hy)
  refine returns_mono (RemoveNode_spec hdx hdy hc hcx.1 hyc.2) ?_
  rintro - m' ⟨hk, hl, hroot, hcount⟩
  refine ⟨?_, (hk.data c.1).trans hc, ?_⟩
  swap
  · rw [hl]
    dsimp only
    rw [hyc.2, ite_self]
  refine ⟨?_, ?_, fun d hd => (hk.data d.1).trans (h.data d (hmem d hd)), ?_, ?_,
    fun z hz => (hk.data z).trans (h.fresh z (hk.fresh ▸ hz))⟩
  · rw [List.map_append]
    refine ring_swap ?_
    rw [← List.map_append]
    cases hba : (b ++ a).map Prod.fst with
    | nil => exact ring_nil _
    | cons z l =>
      rw [hba] at hx hy hnd hring
      obtain rfl : z = x := by simpa using hx
      rw [List.getLast?_cons_cons] at hy
      rw [hl]
      exact ring_unlink hring hnd.2 hy
  · exact (List.perm_append_comm.map Prod.fst).nodup_iff.mp hnd.2
  · rw [hroot, h.root]
    cases a with
    | nil =>
      rw [List.nil_append, h.count]
      cases b with
      | nil => simp
      | cons d b =>
        obtain rfl : d.1 = x := by simpa using hx
        simp
        omega
    | cons d a =>
      have hdc : c.1 ≠ d.1 := by
        rintro he
        exact hnd.1 (by simp [he])
      simp [hdc]
  · rw [hcount, h.count]
    simp
    omega

theorem Holds.node_spec (h : Holds m (a ++ c :: b)) :
    Returns (RemoveNode (some c.1)) m fun _ m' => Holds m' (a ++ b) :=
  returns_mono h.unlink_spec fun _ _ h' => h'.1

/-- The cells are told apart by their nodes. -/
theorem filter_node (h : ((a ++ c :: b).map Prod.fst).Nodup) :
    (a ++ c :: b).filter (fun d => d.1 ≠ c.1) = a ++ b := by
  rw [List.map_append, List.map_cons, List.nodup_middle, List.nodup_cons, ← List.map_append] at h
  have hne : ∀ d ∈ a ++ b, d.1 ≠ c.1 := by
    rintro d hd he
    exact h.1 (he ▸ List.mem_map_of_mem hd)
  rw [List.filter_append, List.filter_cons_of_neg (by simp), ← List.filter_append]
  exact List.filter_eq_self.mpr fun d hd => by simpa using hne d hd

theorem forM_RemoveNode_spec {l : List (ℕ × T)} (h : Holds m cells) (hl : ∀ c ∈ l, c ∈ cells)
    (hnd : (l.map Prod.fst).Nodup) :
    Returns (forM (l.map fun c => some c.1) RemoveNode) m fun _ m' =>
      Holds m' (cells.filter fun c => c.1 ∉ l.map Prod.fst) := by
  induction l generalizing m cells with
  | nil =>
    rw [List.map_nil, List.forM_nil, returns_pure]
    simpa using h
  | cons c l ih =>
    rw [List.map_cons, List.nodup_cons] at hnd
    rw [List.map_cons, List.forM_cons, returns_bind]
    obtain ⟨a, b, rfl⟩ := List.append_of_mem (hl c List.mem_cons_self)
    have hcells := filter_node h.nodup
    refine returns_mono h.node_spec fun _ m₁ h₁ => ?_
    have hrest : ∀ d ∈ l, d ∈ a ++ b := by
      intro d hd
      rw [← hcells]
      refine List.mem_filter.mpr ⟨hl d (List.mem_cons_of_mem _ hd), ?_⟩
      have hdc : d.1 ≠ c.1 := fun he => hnd.1 (he ▸ List.mem_map_of_mem hd)
      simpa using hdc
    refine returns_mono (ih h₁ hrest hnd.2) fun _ m' h' => ?_
    rw [← hcells, List.filter_filter] at h'
    convert h' using 2
    funext d
    rw [← Bool.decide_and, decide_eq_decide, List.map_cons, List.mem_cons, not_or, and_comm]

theorem Holds.next (h : Holds m (a ++ c :: b)) :
    m.links.next c.1 = (b ++ (a ++ [c])).head?.map Prod.fst := by
  have hring := h.ring
  rw [List.map_append] at hring
  obtain ⟨x, hx, hcx⟩ := ring_first (ring_swap hring)
  rw [hcx.1, ← List.head?_map]
  simpa using hx.symm

theorem deleteList_spec [DecidableEq T] {elem : T} {left : ℕ} {root : ℕ × T}
    (h : Holds m (a ++ c :: b)) (hroot : root ∈ (a ++ [c]).head?) (hleft : b.length < left) :
    Returns (deleteList elem (some root.1) left (some c.1)) m fun r m' => m' = m ∧
      r = ((c :: b).filter fun d => d.2 = elem).map fun d => some d.1 := by
  induction b generalizing a c left with
  | nil =>
    obtain ⟨left, rfl⟩ := Nat.exists_eq_succ_of_ne_zero (by omega : left ≠ 0)
    have hnext := h.next
    rw [List.nil_append, hroot] at hnext
    unfold deleteList
    rw [returns_bind]
    refine returns_mono (load_spec (h.data c (by simp))) ?_
    rintro n m ⟨rfl, hn, hnn, -⟩
    rw [hnn, hnext, Option.map_some, if_pos rfl, returns_bind, returns_pure, returns_pure]
    refine ⟨rfl, ?_⟩
    rw [hn, List.filter_cons]
    split <;> simp [*]
  | cons d b ih =>
    obtain ⟨left, rfl⟩ := Nat.exists_eq_succ_of_ne_zero (by omega : left ≠ 0)
    have hnext := h.next
    rw [List.cons_append, List.head?_cons, Option.map_some] at hnext
    have hne : d.1 ≠ root.1 := by
      have hnd := h.nodup
      have hmem : root ∈ a ++ [c] := List.mem_of_head? hroot
      rw [show a ++ c :: d :: b = (a ++ [c]) ++ d :: b by simp, List.map_append] at hnd
      intro he
      refine List.disjoint_of_nodup_append hnd (List.mem_map_of_mem hmem) ?_
      simp [he]
    unfold deleteList
    rw [returns_bind]
    refine returns_mono (load_spec (h.data c (by simp))) ?_
    rintro n m ⟨rfl, hn, hnn, -⟩
    rw [hnn, hnext, if_neg (by simpa using hne), returns_bind]
    have h' : Holds m ((a ++ [c]) ++ d :: b) := by simpa using h
    have hroot' : root ∈ (a ++ [c] ++ [d]).head? := by
      rw [List.head?_append, hroot]
      rfl
    refine returns_mono (ih h' hroot' (by simpa using hleft)) ?_
    rintro r m ⟨rfl, rfl⟩
    rw [returns_pure]
    refine ⟨rfl, ?_⟩
    rw [hn, List.filter_cons (x := c)]
    split <;> simp [*]

/-! ## The functions of the list -/

theorem Enqueue_spec (elem : T) (h : Holds m cells) :
    Returns (Enqueue elem) m fun _ m' => ∃ w, Holds m' (cells ++ [(w, elem)]) := by
  unfold Enqueue
  rw [returns_bind]
  refine returns_mono (AddToTail_spec elem h) ?_
  rintro _ m' ⟨w, -, h'⟩
  rw [returns_pure]
  exact ⟨w, h'⟩

theorem Remove_spec [DecidableEq T] (elem : T) (h : Holds m cells) :
    Returns (Remove elem) m fun _ m' => Holds m' (cells.filter fun c => c.2 ≠ elem) := by
  unfold Remove
  rw [returns_bind, returns_get, h.root]
  cases cells with
  | nil => simpa using h
  | cons c b =>
    simp only [List.head?_cons, Option.map_some, returns_bind, returns_get]
    refine returns_mono (deleteList_spec (a := []) h (Option.mem_some_self c) (by simp [h.count])) ?_
    rintro _ m ⟨rfl, rfl⟩
    have hsub : ((c :: b).filter fun d => d.2 = elem).Sublist (c :: b) := List.filter_sublist
    refine returns_mono (forM_RemoveNode_spec h (fun d hd => hsub.subset hd)
      ((hsub.map Prod.fst).nodup h.nodup)) fun _ m' h' => ?_
    convert h' using 1
    refine List.filter_congr fun d hd => ?_
    have hiff : d.2 = elem ↔ d.1 ∈ ((c :: b).filter fun d => d.2 = elem).map Prod.fst := by
      constructor
      · intro he
        exact List.mem_map_of_mem (List.mem_filter.mpr ⟨hd, by simpa using he⟩)
      · intro hm
        obtain ⟨e, he, hed⟩ := List.mem_map.mp hm
        obtain ⟨hem, heq⟩ := List.mem_filter.mp he
        obtain rfl : e = d := List.inj_on_of_nodup_map h.nodup hem hd hed
        simpa using heq
    simp [← hiff]

theorem Count_spec (h : Holds m cells) :
    Returns (Count : Op T ℤ) m fun r m' => r = cells.length ∧ m' = m := by
  unfold Count
  rw [returns_bind, returns_get, returns_pure]
  exact ⟨h.count, rfl⟩

theorem look_next_spec {n : ℕ} (h : Holds m (a ++ c :: b)) (hn : n ≤ b.length) :
    Returns (look ListNode._next n (some c.1)) m fun r m' => m' = m ∧
      r = ((c :: b)[n]?).map Prod.fst := by
  induction n generalizing a c b with
  | zero =>
    unfold look
    simp
  | succ n ih =>
    cases b with
    | nil => simp at hn
    | cons d b =>
      have hnext := h.next
      rw [List.cons_append, List.head?_cons, Option.map_some] at hnext
      unfold look
      rw [returns_bind]
      refine returns_mono (load_spec (h.data c (by simp))) ?_
      rintro r m ⟨rfl, -, hr, -⟩
      have h' : Holds m ((a ++ [c]) ++ d :: b) := by simpa using h
      rw [hr, hnext]
      simpa using ih h' (by simpa using hn)

theorem Get_spec {i : ℕ} (h : Holds m cells) (hi : i < cells.length) :
    Returns (Get i : Op T T) m fun r m' => m' = m ∧ r = cells[i].2 := by
  unfold Get
  rw [returns_bind, returns_get]
  have hcount := h.count
  rw [if_pos ⟨by omega, by omega⟩, h.root]
  cases cells with
  | nil => simp at hi
  | cons c b =>
    simp only [List.head?_cons, Option.map_some, Int.toNat_natCast, returns_bind]
    refine returns_mono (look_next_spec (a := []) h (Nat.lt_succ_iff.mp hi)) ?_
    rintro _ m ⟨rfl, rfl⟩
    rw [List.getElem?_eq_getElem hi, Option.map_some]
    refine returns_mono (load_spec (h.data _ (List.getElem_mem hi))) ?_
    rintro n m ⟨rfl, hn, -⟩
    rw [returns_pure]
    exact ⟨rfl, hn⟩

theorem Skew_spec (h : Holds m (c :: cells)) :
    Returns (Skew : Op T T) m fun r m' => r = c.2 ∧ Holds m' (cells ++ [c]) := by
  have hnext := h.next (a := [])
  have hc := h.data c List.mem_cons_self
  unfold Skew
  simp only [returns_bind, returns_get, h.root, List.head?_cons, Option.map_some]
  refine returns_mono (load_spec hc) ?_
  rintro n m ⟨rfl, hn, -⟩
  rw [h.root]
  refine returns_mono (load_spec hc) ?_
  rintro n' m ⟨rfl, -, hn', -⟩
  rw [returns_modify, returns_pure, hn', hnext]
  exact ⟨hn, h.turn (a := [c])⟩

/-! ## Lists that are rings -/

/-- The elements, from a node on. -/
def elements (m : LinkedList T) : (n : ℕ) → (node : Option ℕ) → List T
  | 0, _ => []
  | n + 1, node =>
    match node.bind m.node with
    | none => []
    | some c => c._data :: elements m n c._next

def toList (m : LinkedList T) : List T := elements m m._count.toNat m._root

theorem elements_eq (h : Holds m (a ++ c :: b)) :
    elements m (b.length + 1) (some c.1) = c.2 :: b.map Prod.snd := by
  induction b generalizing a c with
  | nil =>
    obtain ⟨n, hn, hdata⟩ := exists_node (h.data c (by simp))
    unfold elements elements
    simp [hn, hdata]
  | cons d b ih =>
    obtain ⟨n, hn, hdata⟩ := exists_node (h.data c (by simp))
    have hnext : n._next = some d.1 := by
      have := h.next
      simpa [links, hn] using this
    have h' : Holds m ((a ++ [c]) ++ d :: b) := by simpa using h
    have hrest := ih h'
    unfold elements
    simp only [Option.bind_some, hn, hdata]
    rw [hnext, List.length_cons, hrest, List.map_cons]

theorem Holds.toList_eq (h : Holds m cells) : m.toList = cells.map Prod.snd := by
  unfold toList
  rw [h.count, h.root, Int.toNat_natCast]
  cases cells with
  | nil => rfl
  | cons c b => exact elements_eq (a := []) h

end LinkedList

/-- A list whose nodes are a ring. -/
def RingList (T : Type) := { m : LinkedList T // ∃ cells, m.Holds cells }

namespace RingList

open LinkedList

variable {α : Type}

def empty : RingList T := ⟨LinkedList.empty, [], holds_empty⟩

def toList (q : RingList T) : List T := q.1.toList

/-- A function that keeps the ring comes back from every ring. -/
def run (x : Op T α) (hx : ∀ m cells, Holds m cells → Returns x m fun _ m' => ∃ cells, Holds m' cells)
    (q : RingList T) : α × RingList T :=
  match h : x q.1 with
  | .ok (a, m) => (a, ⟨m, by
      obtain ⟨cells, hq⟩ := q.2
      exact returns_ok (hx q.1 cells hq) h⟩)
  | .error e => absurd (q.2.elim (hx q.1)) (by simp [Returns, h])

theorem run_spec {x : Op T α} (hx) {q : RingList T} {Q : α → LinkedList T → Prop}
    (h : Returns x q.1 Q) : Q (run x hx q).1 (run x hx q).2.1 := by
  obtain ⟨a, m, he, hq⟩ := h
  unfold run
  split
  next b m' hb =>
    rw [he] at hb
    cases hb
    exact hq
  next e hb =>
    rw [he] at hb
    cases hb

theorem run_toList {x : Op T α} {hx} {q : RingList T} {P : α → List T → Prop}
    (h : ∀ cells, Holds q.1 cells → cells.map Prod.snd = q.toList →
      Returns x q.1 fun a m' => ∃ cells', Holds m' cells' ∧ P a (cells'.map Prod.snd)) :
    P (run x hx q).1 (run x hx q).2.toList := by
  obtain ⟨cells, hq⟩ := q.2
  obtain ⟨cells', h', hp⟩ := run_spec hx (h cells hq hq.toList_eq.symm)
  unfold toList
  rwa [h'.toList_eq]

end RingList

end Infos.Commons
