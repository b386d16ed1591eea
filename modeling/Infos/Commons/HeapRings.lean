import Infos.Commons.FibHeap
import Infos.Lib.Ring

/-!
# A heap whose nodes are all roots

`Holds m cells` says that the heap is the ring of the nodes of `cells`, the minimum first, and that
none of them has a child. Inserting and extracting keep a heap so.
-/

open Infos.Prog Infos.Ring

namespace Infos.Commons

namespace FibMemory

open FibHeap

variable {TKey TValue : Type} [LinearOrder TKey] {m m' : FibMemory TKey TValue} {a : ℕ}

def links (m : FibMemory TKey TValue) : Links ℕ where
  next a := (m.node a).bind FibNode.right
  prev a := (m.node a).bind FibNode.left

/-- A node without its place in a ring. -/
def data (m : FibMemory TKey TValue) (a : ℕ) : Option (FibNode TKey TValue) :=
  (m.node a).map fun n => { n with left := none, right := none }

theorem node_eq {d : FibNode TKey TValue} (h : m.data a = some d) :
    m.node a = some { d with left := m.links.prev a, right := m.links.next a } := by
  obtain ⟨n, hn, rfl⟩ := Option.map_eq_some_iff.mp h
  simp [links, hn]

theorem node_congr (hd : m'.data a = m.data a) (hnext : m'.links.next a = m.links.next a)
    (hprev : m'.links.prev a = m.links.prev a) : m'.node a = m.node a := by
  cases h : m.data a with
  | none =>
    rw [Option.map_eq_none_iff.mp h, Option.map_eq_none_iff.mp (hd.trans h)]
  | some d => rw [node_eq h, node_eq (hd.trans h), hnext, hprev]

end FibMemory

namespace FibHeap

variable {TKey TValue : Type} [LinearOrder TKey] {m m' : FibMemory TKey TValue}

/-! ## Loads and stores -/

/-- What a store into `left` or `right` leaves as it was. -/
structure Keeps (m m' : FibMemory TKey TValue) : Prop where
  heap : m'.toFibHeap = m.toFibHeap
  data : ∀ a, m'.data a = m.data a
  fresh : m'.fresh = m.fresh

theorem Keeps.trans {m₁ m₂ m₃ : FibMemory TKey TValue} (h : Keeps m₁ m₂) (h' : Keeps m₂ m₃) :
    Keeps m₁ m₃ where
  heap := h'.heap.trans h.heap
  data a := (h'.data a).trans (h.data a)
  fresh := h'.fresh.trans h.fresh

theorem Keeps.num (h : Keeps m m') : m'.num = m.num := congrArg FibHeap.num h.heap

theorem Keeps.min (h : Keeps m m') : m'.min = m.min := congrArg FibHeap.min h.heap

theorem Keeps.comparator (h : Keeps m m') : m'.comparator = m.comparator :=
  congrArg FibHeap.comparator h.heap

section
variable {a : ℕ} {d : FibNode TKey TValue}

theorem load_spec (h : m.data a = some d) :
    Returns (load (some a)) m fun n m' => m' = m ∧
      n = { d with left := m.links.prev a, right := m.links.next a } := by
  unfold load
  simp [FibMemory.node_eq h]

theorem store_spec (h : m.data a = some d) (f : FibNode TKey TValue → FibNode TKey TValue)
    (hf : ∀ n : FibNode TKey TValue, { f n with left := none, right := none } =
      { n with left := none, right := none }) :
    Returns (store (some a) f) m fun _ m' => Keeps m m' ∧ ∃ n, m.node a = some n ∧
      m'.links = ⟨fun b => if a = b then (f n).right else m.links.next b,
        fun b => if a = b then (f n).left else m.links.prev b⟩ := by
  obtain ⟨n, hn, -⟩ := Option.map_eq_some_iff.mp h
  unfold store
  rw [returns_bind]
  unfold load
  simp only [Option.bind_some, returns_bind, returns_get, hn, returns_pure, returns_modify,
    Option.some.injEq]
  refine ⟨⟨rfl, fun b => ?_, rfl⟩, n, rfl, ?_⟩
  · by_cases hb : a = b
    · subst hb
      simp [FibMemory.data, hn, hf]
    · simp [FibMemory.data, hb]
  · unfold FibMemory.links
    simp only [Links.mk.injEq]
    constructor
    · funext b
      split <;> simp [*]
    · funext b
      split <;> simp [*]

theorem store_right_spec (h : m.data a = some d) (p : Option ℕ) :
    Returns (store (some a) fun n => { n with right := p }) m fun _ m' => Keeps m m' ∧
      m'.links = ⟨fun b => if a = b then p else m.links.next b, m.links.prev⟩ := by
  refine returns_mono (store_spec h _ fun _ => rfl) ?_
  rintro _ m' ⟨hk, n, hn, hl⟩
  refine ⟨hk, hl.trans ?_⟩
  simp only [Links.mk.injEq, true_and]
  funext b
  split
  next he =>
    subst he
    simp [FibMemory.links, hn]
  next => rfl

theorem store_left_spec (h : m.data a = some d) (p : Option ℕ) :
    Returns (store (some a) fun n => { n with left := p }) m fun _ m' => Keeps m m' ∧
      m'.links = ⟨m.links.next, fun b => if a = b then p else m.links.prev b⟩ := by
  refine returns_mono (store_spec h _ fun _ => rfl) ?_
  rintro _ m' ⟨hk, n, hn, hl⟩
  refine ⟨hk, hl.trans ?_⟩
  simp only [Links.mk.injEq, and_true]
  funext b
  split
  next he =>
    subst he
    simp [FibMemory.links, hn]
  next => rfl

end

@[simp]
theorem ends_load_none (Q : FibNode TKey TValue → FibMemory TKey TValue → Prop) (E : Fault → Prop) :
    Ends (load none) m Q E ↔ E .null := Iff.rfl

@[simp]
theorem returns_setMin (p : Option ℕ) (Q : Unit → FibMemory TKey TValue → Prop) :
    Returns (setMin p) m Q ↔ Q () { m with min := p } := by
  unfold setMin
  rw [returns_modify]

/-! ## One node -/

theorem RemoveNode_spec {x y w : ℕ} {dx dy dw : FibNode TKey TValue} (hx : m.data x = some dx)
    (hy : m.data y = some dy) (hw : m.data w = some dw) (hwx : m.links.next w = some x)
    (hwy : m.links.prev w = some y) :
    Returns (RemoveNode (some w)) m fun _ m' => Keeps m m' ∧
      m'.links = ⟨fun z => if y = z then some x else m.links.next z,
        fun z => if x = z then some y else m.links.prev z⟩ := by
  unfold RemoveNode
  rw [returns_bind]
  refine returns_mono (load_spec hw) ?_
  rintro _ m ⟨rfl, rfl⟩
  rw [returns_bind]
  refine returns_mono (load_spec hw) ?_
  rintro _ m ⟨rfl, rfl⟩
  dsimp only
  rw [hwx, hwy, returns_bind]
  refine returns_mono (store_right_spec hy _) ?_
  rintro - m₁ ⟨hk₁, hl₁⟩
  have hw₁ := (hk₁.data w).trans hw
  rw [returns_bind]
  refine returns_mono (load_spec hw₁) ?_
  rintro _ m₁ ⟨rfl, rfl⟩
  rw [returns_bind]
  refine returns_mono (load_spec hw₁) ?_
  rintro _ m₁ ⟨rfl, rfl⟩
  have hwx₁ : m₁.links.next w = some x := by
    rw [hl₁]
    simp [hwx]
  have hwy₁ : m₁.links.prev w = some y := by rw [hl₁, ← hwy]
  dsimp only
  rw [hwx₁, hwy₁]
  refine returns_mono (store_left_spec ((hk₁.data x).trans hx) _) ?_
  rintro - m₂ ⟨hk₂, hl₂⟩
  exact ⟨hk₁.trans hk₂, by rw [hl₂, hl₁]⟩

theorem AddNode_spec {x y w : ℕ} {dx dy dw : FibNode TKey TValue} (hx : m.data x = some dx)
    (hy : m.data y = some dy) (hw : m.data w = some dw) (hyx : m.links.prev x = some y) :
    Returns (AddNode (some w) (some x)) m fun _ m' => Keeps m m' ∧
      m'.links = ⟨fun z => if w = z then some x else if y = z then some w else m.links.next z,
        fun z => if x = z then some w else if w = z then some y else m.links.prev z⟩ := by
  unfold AddNode
  rw [returns_bind]
  refine returns_mono (load_spec hx) ?_
  rintro _ m ⟨rfl, rfl⟩
  dsimp only
  rw [hyx, returns_bind]
  refine returns_mono (store_left_spec hw _) ?_
  rintro - m₁ ⟨hk₁, hl₁⟩
  rw [returns_bind]
  refine returns_mono (load_spec ((hk₁.data w).trans hw)) ?_
  rintro _ m₁ ⟨rfl, rfl⟩
  have hwy : m₁.links.prev w = some y := by
    rw [hl₁]
    simp
  dsimp only
  rw [hwy, returns_bind]
  refine returns_mono (store_right_spec ((hk₁.data y).trans hy) _) ?_
  rintro - m₂ ⟨hk₂, hl₂⟩
  have hk₂ := hk₁.trans hk₂
  rw [returns_bind]
  refine returns_mono (store_right_spec ((hk₂.data w).trans hw) _) ?_
  rintro - m₃ ⟨hk₃, hl₃⟩
  have hk₃ := hk₂.trans hk₃
  refine returns_mono (store_left_spec ((hk₃.data x).trans hx) _) ?_
  rintro - m₄ ⟨hk₄, hl₄⟩
  refine ⟨hk₃.trans hk₄, ?_⟩
  rw [hl₄, hl₃, hl₂, hl₁]

/-! ## The ring -/

/-- A node with what it was made of. -/
structure Cell (TKey TValue : Type) where
  node : ℕ
  key : TKey
  value : TValue

/-- The nodes of `cells` are a ring, and no tree is below one of them. -/
structure Roots (m : FibMemory TKey TValue) (cells : List (Cell TKey TValue)) : Prop where
  ring : IsRing m.links (cells.map Cell.node)
  nodup : (cells.map Cell.node).Nodup
  data : ∀ c ∈ cells, m.data c.node = some (.new c.key c.value)

structure Holds (m : FibMemory TKey TValue) (cells : List (Cell TKey TValue)) : Prop
    extends Roots m cells where
  min : m.min = cells.head?.map Cell.node
  unused : ∀ a, m.fresh ≤ a → m.node a = none

/-- What a call on the nodes `S` leaves as it was. -/
structure After (m m' : FibMemory TKey TValue) (S : List ℕ) : Prop where
  comparator : m'.comparator = m.comparator
  node : ∀ a ∉ S, m'.node a = m.node a

variable {cells l : List (Cell TKey TValue)} {c d : Cell TKey TValue} {S : List ℕ}

theorem Roots.congr (h : Roots m cells) (hn : ∀ c ∈ cells, m'.node c.node = m.node c.node) :
    Roots m' cells where
  ring := by
    have hn' : ∀ a ∈ cells.map Cell.node, m'.node a = m.node a := by
      intro a ha
      obtain ⟨c, hc, rfl⟩ := List.mem_map.mp ha
      exact hn c hc
    refine ring_congr h.ring (fun a ha => ?_) fun a ha => ?_
    · simp [FibMemory.links, hn' a ha]
    · simp [FibMemory.links, hn' a ha]
  nodup := h.nodup
  data c hc := by
    rw [← h.data c hc]
    simp [FibMemory.data, hn c hc]

theorem Roots.swap (h : Roots m (cells ++ l)) : Roots m (l ++ cells) where
  ring := by
    have hring := h.ring
    rw [List.map_append] at hring ⊢
    exact ring_swap hring
  nodup := (List.perm_append_comm.map Cell.node).nodup_iff.mp h.nodup
  data c hc := h.data c (List.perm_append_comm.mem_iff.mp hc)

theorem Holds.lt_fresh (h : Holds m cells) (hc : c ∈ cells) : c.node < m.fresh := by
  by_contra hlt
  have hdata := h.data c hc
  unfold FibMemory.data at hdata
  rw [h.unused c.node (by omega)] at hdata
  cases hdata

theorem Holds.node_lt_fresh (h : Holds m cells) {a : ℕ} (ha : a ∈ cells.map Cell.node) :
    a < m.fresh := by
  obtain ⟨c, hc, rfl⟩ := List.mem_map.mp ha
  exact h.lt_fresh hc

theorem Holds.fresh_not_mem (h : Holds m cells) : m.fresh ∉ cells.map Cell.node :=
  fun hmem => Nat.lt_irrefl _ (h.node_lt_fresh hmem)

theorem Keeps.after {x y w : ℕ} (hk : Keeps m m')
    (hl : ∀ z, z ≠ x → z ≠ y → z ≠ w → m'.links.next z = m.links.next z ∧
      m'.links.prev z = m.links.prev z) (hx : x ∈ S) (hy : y ∈ S) (hw : w ∈ S) : After m m' S where
  comparator := hk.comparator
  node a ha := by
    have hne : ∀ z ∈ S, a ≠ z := fun z hz he => ha (he ▸ hz)
    obtain ⟨hnext, hprev⟩ := hl a (hne x hx) (hne y hy) (hne w hw)
    exact FibMemory.node_congr (hk.data a) hnext hprev

theorem After.trans {m₁ m₂ m₃ : FibMemory TKey TValue} {S T U : List ℕ} (h : After m₁ m₂ S)
    (h' : After m₂ m₃ T) (hS : S ⊆ U) (hT : T ⊆ U) : After m₁ m₃ U where
  comparator := h'.comparator.trans h.comparator
  node a ha := (h'.node a fun hm => ha (hT hm)).trans (h.node a fun hm => ha (hS hm))

/-- A call that allocates what it touches leaves the rest of the memory unused. -/
theorem After.unused (ha : After m m' S) (h : ∀ a, m.fresh ≤ a → m.node a = none)
    (hle : m.fresh ≤ m'.fresh) (hS : ∀ a ∈ S, a < m'.fresh) (a : ℕ) (hlt : m'.fresh ≤ a) :
    m'.node a = none := by
  have hnot : a ∉ S := fun hm => absurd (hS a hm) (by omega)
  exact (ha.node a hnot).trans (h a (hle.trans hlt))

/-- The last node of a ring, which points at the first. -/
theorem Roots.last (h : Roots m (c :: l)) :
    ∃ d ∈ (c :: l).getLast?, m.links.Joins d.node c.node :=
  ring_last_map h.ring

/-! ## Inserting -/

theorem MakeShared_spec (key : TKey) (value : TValue) :
    Returns (MakeShared key value) m fun r m' => r = some m.fresh ∧
      m'.data m.fresh = some (.new key value) ∧ m'.toFibHeap = m.toFibHeap ∧
      m'.fresh = m.fresh + 1 ∧ After m m' [m.fresh] := by
  unfold MakeShared
  rw [returns_bind, returns_get, returns_bind, returns_modify, returns_pure]
  refine ⟨rfl, ?_, rfl, rfl, rfl, fun a ha => if_neg ?_⟩
  · simp [FibMemory.data, FibNode.new]
  · rintro rfl
    exact ha (by simp)

/-- The new node goes between the last and the first. -/
theorem AddNode_ring (h : Roots m (c :: l)) (hd : m.data d.node = some (.new d.key d.value))
    (hnot : d.node ∉ (c :: l).map Cell.node) :
    Returns (AddNode (some d.node) (some c.node)) m fun _ m' => Keeps m m' ∧
      Roots m' (c :: l ++ [d]) ∧ After m m' (d.node :: (c :: l).map Cell.node) := by
  obtain ⟨e, he, hec⟩ := h.last
  have hmem : e ∈ c :: l := List.mem_of_getLast? he
  have hne : ∀ z ∈ (c :: l).map Cell.node, d.node ≠ z := by
    rintro z hz rfl
    exact hnot hz
  have hce : d.node ≠ e.node := hne _ (List.mem_map_of_mem hmem)
  have hcd : d.node ≠ c.node := hne _ (by simp)
  refine returns_mono (AddNode_spec (h.data c List.mem_cons_self) (h.data e hmem) hd hec.2) ?_
  rintro - m' ⟨hk, hl⟩
  refine ⟨hk, ⟨?_, ?_, fun z hz => (hk.data _).trans ?_⟩, ?_⟩
  · have hlast : e.node ∈ (c.node :: l.map Cell.node).getLast? := last_map he
    rw [List.map_append]
    refine ring_insert h.ring h.nodup hlast ?_ ?_ (fun z hz hze => ?_) fun z hz hzc => ?_
    · rw [hl]
      exact ⟨by simp [hce], by simp [hcd.symm]⟩
    · rw [hl]
      exact ⟨if_pos rfl, if_pos rfl⟩
    · rw [hl]
      simp [hze.symm, hne z hz]
    · rw [hl]
      simp [hzc.symm, hne z hz]
  · rw [List.map_append]
    exact h.nodup.append (List.nodup_singleton _) (by simpa using hnot)
  · rcases List.mem_append.mp hz with hz | hz
    · exact h.data z hz
    · obtain rfl := List.mem_singleton.mp hz
      exact hd
  · have hin := List.mem_map_of_mem (f := Cell.node) hmem
    refine hk.after (x := c.node) (y := e.node) (w := d.node) (fun z hzx hzy hzw => ?_) (by simp)
      (List.mem_cons_of_mem _ hin) List.mem_cons_self
    rw [hl]
    simp [hzx.symm, hzy.symm, hzw.symm]

/-- What `Insert` makes of a heap. The count goes up in every case. -/
structure Inserted (m m' : FibMemory TKey TValue) (cells : List (Cell TKey TValue))
    (S : List ℕ) : Prop extends After m m' (m.fresh :: S) where
  holds : Holds m' cells
  num : m'.num = int (m.num + 1)
  fresh : m'.fresh = m.fresh + 1

theorem Insert_first (h : Holds m cells) (hnum : m.num = 0) (key : TKey) (value : TValue) :
    Returns (Insert key value) m fun r m' => r = some m.fresh ∧
      Inserted m m' [⟨m.fresh, key, value⟩] [] := by
  unfold Insert
  rw [returns_bind]
  refine returns_mono (MakeShared_spec key value) ?_
  rintro _ m₁ ⟨rfl, hw, hheap, hfresh, ha⟩
  unfold InsertNode
  have hnum₁ : m₁.num = 0 := (congrArg FibHeap.num hheap).trans hnum
  rw [returns_bind, returns_bind, returns_get]
  dsimp only
  rw [if_pos hnum₁, returns_bind, returns_setMin, returns_bind]
  have hw' : FibMemory.data { m₁ with min := some m.fresh } m.fresh = some (.new key value) := hw
  refine returns_mono (store_left_spec hw' _) ?_
  rintro - m₂ ⟨hk₂, hl₂⟩
  rw [returns_bind]
  refine returns_mono (store_right_spec ((hk₂.data _).trans hw) _) ?_
  rintro - m₃ ⟨hk₃, hl₃⟩
  have hk := hk₂.trans hk₃
  rw [returns_modify, returns_pure]
  have hafter : After m m₃ [m.fresh] := by
    have hstores : After { m₁ with min := some m.fresh } m₃ [m.fresh] := by
      refine hk.after (x := m.fresh) (y := m.fresh) (w := m.fresh) (fun z hz _ _ => ?_) (by simp)
        (by simp) (by simp)
      rw [hl₃, hl₂]
      simp [hz.symm]
    have hm : After m { m₁ with min := some m.fresh } [m.fresh] := ⟨ha.comparator, ha.node⟩
    exact hm.trans hstores (by simp) (by simp)
  have hfresh₃ : m₃.fresh = m.fresh + 1 := hk.fresh.trans hfresh
  have hunused : ∀ a, m₃.fresh ≤ a → m₃.node a = none := by
    refine hafter.unused h.unused (by omega) fun a ha => ?_
    rw [List.mem_singleton.mp ha]
    omega
  refine ⟨rfl, ⟨hafter.comparator, hafter.node⟩, ⟨⟨?_, by simp, fun c hc => ?_⟩, ?_, hunused⟩, ?_,
    hfresh₃⟩
  · refine ring_singleton.mpr ?_
    show m₃.links.Joins m.fresh m.fresh
    rw [hl₃, hl₂]
    exact ⟨if_pos rfl, if_pos rfl⟩
  · obtain rfl := List.mem_singleton.mp hc
    exact (hk.data _).trans hw
  · exact hk.min
  · show int (m₃.num + 1) = int (m.num + 1)
    rw [hk.num]
    exact congrArg (fun n => int (n + 1)) (hnum₁.trans hnum.symm)

theorem Insert_later (h : Holds m (c :: l)) (hnum : m.num ≠ 0) (key : TKey) (value : TValue) :
    Returns (Insert key value) m fun r m' => r = some m.fresh ∧
      Inserted m m' (if key < c.key then ⟨m.fresh, key, value⟩ :: c :: l
        else c :: l ++ [⟨m.fresh, key, value⟩]) ((c :: l).map Cell.node) := by
  unfold Insert
  rw [returns_bind]
  refine returns_mono (MakeShared_spec key value) ?_
  rintro _ m₁ ⟨rfl, hw, hheap, hfresh, ha⟩
  unfold InsertNode
  have hnum₁ : m₁.num = m.num := congrArg FibHeap.num hheap
  have hmin₁ : m₁.min = some c.node := (congrArg FibHeap.min hheap).trans h.min
  have h₁ : Roots m₁ (c :: l) := by
    refine h.toRoots.congr fun d hd => ha.node _ ?_
    simpa using (h.lt_fresh hd).ne
  rw [returns_bind, returns_bind, returns_get]
  dsimp only
  rw [if_neg (hnum₁ ▸ hnum), returns_bind, returns_get, hmin₁, returns_bind]
  have hnew : m₁.data (Cell.mk m.fresh key value).node = some (.new key value) := hw
  have hadd := AddNode_ring h₁ hnew h.fresh_not_mem
  refine returns_mono hadd ?_
  rintro - m₂ ⟨hk, h₂, ha₂⟩
  have hw₂ := (hk.data m.fresh).trans hw
  have hc₂ := h₂.data c (by simp)
  have hmin₂ : m₂.min = some c.node := hk.min.trans hmin₁
  have hafter : After m m₂ (m.fresh :: (c :: l).map Cell.node) :=
    ha.trans ha₂ (by simp) (List.Subset.refl _)
  have hfresh₂ : m₂.fresh = m.fresh + 1 := hk.fresh.trans hfresh
  have hunused : ∀ a, m₂.fresh ≤ a → m₂.node a = none := by
    refine hafter.unused h.unused (by omega) fun a ha => ?_
    rcases List.mem_cons.mp ha with rfl | ha
    · omega
    · have := h.node_lt_fresh ha
      omega
  have hnum₂ : int (m₂.num + 1) = int (m.num + 1) := by
    rw [hk.num]
    exact congrArg (fun n => int (n + 1)) hnum₁
  rw [returns_bind]
  refine returns_mono (load_spec hw₂) ?_
  rintro n m₂ ⟨rfl, hn⟩
  rw [returns_bind, returns_get, hmin₂, returns_bind]
  refine returns_mono (load_spec hc₂) ?_
  rintro n' m₂ ⟨rfl, hn'⟩
  have hkey : n.key = key := congrArg FibNode.key hn
  have hkey' : n'.key = c.key := congrArg FibNode.key hn'
  rw [hkey, hkey']
  split
  next hlt =>
    rw [returns_bind, returns_setMin, returns_modify, returns_pure]
    have h₃ : Roots { m₂ with min := some m.fresh, num := int (m₂.num + 1) }
        ([⟨m.fresh, key, value⟩] ++ c :: l) := Roots.swap (h₂.congr fun _ _ => rfl)
    exact ⟨rfl, ⟨hafter.comparator, hafter.node⟩, ⟨h₃, rfl, hunused⟩, hnum₂, hfresh₂⟩
  next hge =>
    rw [returns_modify, returns_pure]
    exact ⟨rfl, ⟨hafter.comparator, hafter.node⟩, ⟨h₂.congr fun _ _ => rfl, hmin₂, hunused⟩, hnum₂,
      hfresh₂⟩

/-- The new node is to be linked to a minimum that is not there. -/
theorem Insert_fault (hmin : m.min = none) (hnum : m.num ≠ 0) (key : TKey) (value : TValue) :
    Ends (Insert key value) m (fun _ _ => False) (· = .null) := by
  unfold Insert MakeShared InsertNode
  rw [ends_bind, ends_bind, ends_get, ends_bind, ends_modify, ends_pure, ends_bind, ends_bind, ends_get]
  dsimp only
  rw [if_neg hnum, ends_bind, ends_get]
  dsimp only
  rw [hmin, ends_bind]
  unfold AddNode
  rw [ends_bind, ends_load_none]

/-! ## Extracting -/

/-- The last node points at the second in place of the first. -/
theorem RemoveNode_ring (h : Roots m (c :: d :: l)) :
    Returns (RemoveNode (some c.node)) m fun _ m' => Keeps m m' ∧ Roots m' (d :: l) ∧
      m'.links.next c.node = some d.node ∧ After m m' ((d :: l).map Cell.node) := by
  obtain ⟨e, he, hec⟩ := h.last
  have hcd : m.links.Joins c.node d.node := (List.isChain_cons_cons.mp h.ring.1).1
  rw [List.getLast?_cons_cons] at he
  have hmem : e ∈ d :: l := List.mem_of_getLast? he
  have hnd := List.nodup_cons.mp h.nodup
  have hne : ∀ z ∈ (d :: l).map Cell.node, c.node ≠ z := by
    rintro z hz rfl
    exact hnd.1 hz
  have hce : c.node ≠ e.node := hne _ (List.mem_map_of_mem hmem)
  refine returns_mono (RemoveNode_spec (h.data d (by simp)) (h.data e (List.mem_cons_of_mem _ hmem))
    (h.data c List.mem_cons_self) hcd.1 hec.2) ?_
  rintro - m' ⟨hk, hl⟩
  refine ⟨hk, ⟨?_, hnd.2, fun z hz => (hk.data _).trans (h.data z (List.mem_cons_of_mem _ hz))⟩, ?_, ?_⟩
  · have hlast : e.node ∈ (d.node :: l.map Cell.node).getLast? := last_map he
    rw [hl]
    exact ring_unlink h.ring hnd.2 hlast
  · rw [hl]
    simp [hce.symm, hcd.1]
  · refine hk.after (x := d.node) (y := e.node) (w := e.node) (fun z hzx hzy _ => ?_) (by simp)
      (List.mem_map_of_mem hmem) (List.mem_map_of_mem hmem)
    rw [hl]
    simp [hzx.symm, hzy.symm]

theorem self_linked_spec {a : ℕ} {n : FibNode TKey TValue} (h : m.data a = some n) :
    Returns (do
      store (some a) fun n => { n with right := some a }
      store (some a) fun n => { n with left := some a }
      pure (some a)) m fun r m' => r = some a ∧ Keeps m m' ∧ After m m' [a] := by
  rw [returns_bind]
  refine returns_mono (store_right_spec h _) ?_
  rintro - m₁ ⟨hk₁, hl₁⟩
  rw [returns_bind]
  refine returns_mono (store_left_spec ((hk₁.data a).trans h) _) ?_
  rintro - m₂ ⟨hk₂, hl₂⟩
  have hk := hk₁.trans hk₂
  rw [returns_pure]
  refine ⟨rfl, hk, hk.after (x := a) (y := a) (w := a) (fun z hz _ _ => ?_) (by simp) (by simp)
    (by simp)⟩
  rw [hl₂, hl₁]
  simp [hz.symm]

/-- The minimum leaves the ring, and the next node takes its place whatever its key is. -/
theorem ExtractMin_spec (h : Holds m (c :: l)) :
    Returns (ExtractMin : Op TKey TValue _) m fun r m' => r = some c.node ∧ Holds m' l ∧
      m'.num = m.num ∧ m'.data c.node = some (.new c.key c.value) := by
  have hc := h.data c List.mem_cons_self
  have hlt : ∀ a ∈ (c :: l).map Cell.node, a < m.fresh := fun a => h.node_lt_fresh
  unfold ExtractMin
  rw [returns_bind, returns_get, h.min, returns_bind]
  refine returns_mono (load_spec hc) ?_
  rintro n m ⟨rfl, hn⟩
  obtain ⟨x, hx, hcx⟩ := ring_first h.ring
  have hright : n.right = some x := (congrArg FibNode.right hn).trans hcx.1
  rw [hright]
  cases l with
  | nil =>
    obtain rfl : c.node = x := by simpa using hx
    rw [List.head?_cons, Option.map_some, if_pos rfl, returns_bind, returns_setMin]
    have hc' : FibMemory.data { m with min := none } c.node = some (.new c.key c.value) := hc
    refine returns_mono (self_linked_spec hc') ?_
    rintro r m' ⟨rfl, hk, ha⟩
    have hunused : ∀ a, m'.fresh ≤ a → m'.node a = none :=
      ha.unused h.unused hk.fresh.ge fun a ha => (hlt a ha).trans_eq hk.fresh.symm
    exact ⟨rfl, ⟨⟨ring_nil _, .nil, by simp⟩, hk.min, hunused⟩, hk.num, (hk.data _).trans hc⟩
  | cons d l =>
    obtain rfl : d.node = x := by simpa using hx
    have hnd := List.nodup_cons.mp h.nodup
    have hne : c.node ≠ d.node := by
      rintro heq
      exact hnd.1 (heq ▸ List.mem_cons_self)
    rw [List.head?_cons, Option.map_some, if_neg (by simpa using hne), returns_bind]
    refine returns_mono (RemoveNode_ring h.toRoots) ?_
    rintro - m₁ ⟨hk₁, h₁, hnext, ha₁⟩
    have hc₁ := (hk₁.data c.node).trans hc
    rw [returns_bind]
    refine returns_mono (load_spec hc₁) ?_
    rintro _ m₁ ⟨rfl, rfl⟩
    dsimp only
    rw [hnext, returns_bind, returns_setMin]
    have hc' : FibMemory.data { m₁ with min := some d.node } c.node =
      some (.new c.key c.value) := hc₁
    refine returns_mono (self_linked_spec hc') ?_
    rintro r m' ⟨rfl, hk, ha⟩
    have h' : Roots m' (d :: l) := by
      refine h₁.congr fun e he => ha.node _ ?_
      rintro hmem
      exact hnd.1 (List.mem_singleton.mp hmem ▸ List.mem_map_of_mem he)
    have hafter : After m m' ((c :: d :: l).map Cell.node) := by
      have hmin : After m { m₁ with min := some d.node } ((d :: l).map Cell.node) :=
        ⟨ha₁.comparator, ha₁.node⟩
      exact hmin.trans ha (List.subset_cons_self _ _) (by simp)
    have hfresh : m'.fresh = m.fresh := hk.fresh.trans hk₁.fresh
    have hunused : ∀ a, m'.fresh ≤ a → m'.node a = none :=
      hafter.unused h.unused hfresh.ge fun a ha => (hlt a ha).trans_eq hfresh.symm
    exact ⟨rfl, ⟨h', hk.min, hunused⟩, hk.num.trans hk₁.num, (hk.data _).trans hc₁⟩

/-! ## Two rings -/

theorem ConcatenateRootList_spec {x y v w : ℕ} {dx dy dv dw : FibNode TKey TValue}
    (hx : m.data x = some dx) (hy : m.data y = some dy) (hv : m.data v = some dv)
    (hw : m.data w = some dw) (hxv : m.links.next x = some v) (hyw : m.links.next y = some w)
    (hxy : x ≠ y) :
    Returns (ConcatenateRootList (some x) (some y)) m fun _ m' => Keeps m m' ∧
      m'.links = ⟨fun z => if y = z then some v else if x = z then some w else m.links.next z,
        fun z => if v = z then some y else if w = z then some x else m.links.prev z⟩ := by
  unfold ConcatenateRootList
  rw [returns_bind]
  refine returns_mono (load_spec hx) ?_
  rintro _ m ⟨rfl, rfl⟩
  rw [returns_bind]
  refine returns_mono (load_spec hy) ?_
  rintro _ m ⟨rfl, rfl⟩
  dsimp only
  rw [hxv, hyw, returns_bind]
  refine returns_mono (store_right_spec hx _) ?_
  rintro - m₁ ⟨hk₁, hl₁⟩
  rw [returns_bind]
  refine returns_mono (load_spec ((hk₁.data y).trans hy)) ?_
  rintro _ m₁ ⟨rfl, rfl⟩
  have hyw₁ : m₁.links.next y = some w := by
    rw [hl₁]
    simp [hxy, hyw]
  dsimp only
  rw [hyw₁, returns_bind]
  refine returns_mono (store_left_spec ((hk₁.data w).trans hw) _) ?_
  rintro - m₂ ⟨hk₂, hl₂⟩
  have hk₂ := hk₁.trans hk₂
  rw [returns_bind]
  refine returns_mono (store_right_spec ((hk₂.data y).trans hy) _) ?_
  rintro - m₃ ⟨hk₃, hl₃⟩
  have hk₃ := hk₂.trans hk₃
  refine returns_mono (store_left_spec ((hk₃.data v).trans hv) _) ?_
  rintro - m₄ ⟨hk₄, hl₄⟩
  refine ⟨hk₃.trans hk₄, ?_⟩
  rw [hl₄, hl₃, hl₂, hl₁]

theorem Roots.exists_data {a : ℕ} (h : Roots m cells) (ha : a ∈ cells.map Cell.node) :
    ∃ n, m.data a = some n := by
  obtain ⟨c, hc, rfl⟩ := List.mem_map.mp ha
  exact ⟨_, h.data c hc⟩

/-- The second ring is put in behind the first node of the first. -/
theorem ConcatenateRootList_ring {l' : List (Cell TKey TValue)} (h : Roots m (c :: l))
    (h' : Roots m (d :: l')) (hnd : ((c :: l ++ d :: l').map Cell.node).Nodup) :
    Returns (ConcatenateRootList (some c.node) (some d.node)) m fun _ m' => Keeps m m' ∧
      Roots m' (c :: (l' ++ d :: l)) ∧ After m m' ((c :: l ++ d :: l').map Cell.node) := by
  obtain ⟨v, hv, hcv⟩ := ring_first h.ring
  obtain ⟨w, hw, hdw⟩ := ring_first h'.ring
  have hvm : v ∈ (c :: l).map Cell.node :=
    (List.perm_append_singleton c.node (l.map Cell.node)).mem_iff.mp (List.mem_of_head? hv)
  have hwm : w ∈ (d :: l').map Cell.node :=
    (List.perm_append_singleton d.node (l'.map Cell.node)).mem_iff.mp (List.mem_of_head? hw)
  obtain ⟨dv, hdv⟩ := h.exists_data hvm
  obtain ⟨dw, hdw'⟩ := h'.exists_data hwm
  rw [List.map_append] at hnd ⊢
  obtain ⟨-, -, hdisj⟩ := List.nodup_append'.mp hnd
  have hcd : c.node ≠ d.node := fun he => hdisj List.mem_cons_self (he ▸ List.mem_cons_self)
  have hvw : v ≠ w := fun he => hdisj hvm (he ▸ hwm)
  refine returns_mono (ConcatenateRootList_spec (h.data c List.mem_cons_self)
    (h'.data d List.mem_cons_self) hdv hdw' hcv.1 hdw.1 hcd) ?_
  rintro - m' ⟨hk, hl⟩
  have hperm : (c :: (l' ++ d :: l)).Perm (c :: l ++ d :: l') := by
    refine .cons c ?_
    exact List.perm_append_comm.trans (List.perm_middle.symm)
  refine ⟨hk, ⟨?_, ?_, fun z hz => (hk.data _).trans ?_⟩, hk.comparator, fun z hz => ?_⟩
  · rw [List.map_cons, List.map_append]
    refine ring_join h.ring h'.ring hnd hv hw ?_ ?_ (fun z hzc hzd => ?_) fun z hzw hzv => ?_
    · rw [hl]
      exact ⟨by simp [hcd.symm], by simp [hvw]⟩
    · rw [hl]
      exact ⟨if_pos rfl, if_pos rfl⟩
    · rw [hl]
      simp [hzc.symm, hzd.symm]
    · rw [hl]
      simp [hzw.symm, hzv.symm]
  · rw [(hperm.map Cell.node).nodup_iff, List.map_append]
    exact hnd
  · rcases List.mem_append.mp (hperm.mem_iff.mp hz) with hz | hz
    · exact h.data z hz
    · exact h'.data z hz
  · have hne : ∀ b ∈ (c :: l).map Cell.node ++ (d :: l').map Cell.node, b ≠ z := by
      rintro b hb rfl
      exact hz hb
    have hv := hne v (List.mem_append_left _ hvm)
    have hw := hne w (List.mem_append_right _ hwm)
    have hc := hne c.node (by simp)
    have hd := hne d.node (by simp)
    refine FibMemory.node_congr (hk.data z) ?_ ?_
    · rw [hl]
      simp [hc, hd]
    · rw [hl]
      simp [hv, hw]

end FibHeap

end Infos.Commons
