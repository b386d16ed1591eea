import Infos.Commons.HeapRings

/-!
# What the calls of the heap keep

A heap is flat when its nodes are all roots and the minimum is the first of them. `Insert` and
`Combine` keep a heap flat. `RemoveMin` always leaves a heap without a minimum, and `DecreaseKey`
stops at a root.
-/

open Infos.Prog Infos.Ring Relation

namespace Infos.Commons

namespace FibMemory

open FibHeap

variable {TKey TValue : Type} [LinearOrder TKey]

def Points (m : FibMemory TKey TValue) (a b : ℕ) : Prop :=
  ∃ n, m.node a = some n ∧ (n.right = some b ∨ n.child = some b)

/-- `b` is in the ring that `child` of `a` points into. -/
def Child (m : FibMemory TKey TValue) (a b : ℕ) : Prop :=
  ∃ n p, m.node a = some n ∧ n.child = some p ∧
    ReflTransGen (fun x y => m.links.next x = some y) p b

/-- The heap has lost nothing of `elements`, which are the nodes with the keys and values they are
to have. -/
structure Intact (m : FibMemory TKey TValue) (elements : List (Cell TKey TValue)) : Prop where
  nodup : (elements.map Cell.node).Nodup
  nodes : ∀ a, (∃ p, m.min = some p ∧ ReflTransGen m.Points p a) ↔ a ∈ elements.map Cell.node
  data : ∀ c ∈ elements, ∃ n, m.node c.node = some n ∧ n.key = c.key ∧ n.value = c.value
  count : m.num = elements.length
  below : ∀ c ∈ elements, ∀ d ∈ elements, m.Child c.node d.node → c.key ≤ d.key
  least : ∀ c ∈ elements, m.min = some c.node → ∀ d ∈ elements, c.key ≤ d.key

/-- `cells` are the roots, the minimum first. -/
structure Flat (m : FibMemory TKey TValue) (elements cells : List (Cell TKey TValue)) : Prop
    extends Holds m cells where
  perm : cells.Perm elements
  least : ∀ c ∈ cells.head?, ∀ d ∈ cells, c.key ≤ d.key
  num : m.num = elements.length

variable {m m' : FibMemory TKey TValue} {elements cells : List (Cell TKey TValue)}

theorem Flat.node_eq (h : Flat m elements cells) {c : Cell TKey TValue} (hc : c ∈ elements) :
    ∃ l r, m.node c.node = some { FibNode.new c.key c.value with left := l, right := r } :=
  ⟨_, _, FibMemory.node_eq (h.data c (h.perm.mem_iff.mpr hc))⟩

theorem Flat.mem_nodes (h : Flat m elements cells) {a : ℕ} :
    a ∈ cells.map Cell.node ↔ a ∈ elements.map Cell.node := (h.perm.map Cell.node).mem_iff

theorem Flat.points (h : Flat m elements cells) {a b : ℕ} (ha : a ∈ cells.map Cell.node) :
    m.Points a b ↔ m.links.next a = some b := by
  obtain ⟨c, hc, rfl⟩ := List.mem_map.mp ha
  have hn := FibMemory.node_eq (h.data c hc)
  unfold Points
  simp [hn, FibNode.new]

theorem Flat.intact (h : Flat m elements cells) : m.Intact elements where
  nodup := (h.perm.map Cell.node).nodup_iff.mp h.nodup
  nodes a := by
    rw [← h.mem_nodes, h.min]
    cases cells with
    | nil => simp
    | cons c l =>
      rw [List.head?_cons, Option.map_some, List.map_cons, ← ring_reach h.ring]
      have hring : ∀ {b}, ReflTransGen (fun x y => m.links.next x = some y) c.node b →
          b ∈ (c :: l).map Cell.node := (ring_reach h.ring).mp
      constructor
      · rintro ⟨p, hp, hreach⟩
        cases hp
        induction hreach with
        | refl => exact .refl
        | tail _ hxy ih => exact ih.tail ((h.points (hring ih)).mp hxy)
      · intro hreach
        refine ⟨_, rfl, ?_⟩
        induction hreach with
        | refl => exact .refl
        | tail hx hxy ih => exact ih.tail ((h.points (hring hx)).mpr hxy)
  data c hc := by
    obtain ⟨l, r, hn⟩ := h.node_eq hc
    exact ⟨_, hn, rfl, rfl⟩
  count := h.num
  below c hc d _ := by
    rintro ⟨n, p, hn, hp, -⟩
    obtain ⟨l, r, hn'⟩ := h.node_eq hc
    cases hn.symm.trans hn'
    cases hp
  least c hc hmin d hd := by
    rw [h.min] at hmin
    obtain ⟨e, he, heq⟩ := Option.map_eq_some_iff.mp hmin
    have hmem := List.mem_of_head? he
    obtain rfl : e = c := List.inj_on_of_nodup_map h.nodup hmem (h.perm.mem_iff.mpr hc) heq
    exact h.least e he d (h.perm.mem_iff.mpr hd)

/-- A heap without a minimum has nothing. -/
theorem Intact.eq_nil (h : m.Intact elements) (hmin : m.min = none) : elements = [] := by
  refine List.eq_nil_iff_forall_not_mem.mpr fun c hc => ?_
  obtain ⟨p, hp, -⟩ := (h.nodes c.node).mpr (List.mem_map_of_mem hc)
  rw [hmin] at hp
  cases hp

end FibMemory

namespace FibHeap

open FibMemory

variable {TKey TValue : Type} [LinearOrder TKey] {m m' : FibMemory TKey TValue}
  {elements cells elements' cells' : List (Cell TKey TValue)}

theorem int_eq {x : ℤ} (h : 0 ≤ x) (h' : x ≤ 1000) : int x = x :=
  Int.bmod_eq_of_le_mul_two (by omega) (by omega)

/-! ## Inserting -/

theorem Insert_flat (h : m.Flat elements cells) (hlen : elements.length < 1000) (key : TKey)
    (value : TValue) :
    Returns (Insert key value) m fun r m' => r = some m.fresh ∧ m'.fresh = m.fresh + 1 ∧
      After m m' (m.fresh :: elements.map Cell.node) ∧
      ∃ cells', m'.Flat (elements ++ [⟨m.fresh, key, value⟩]) cells' := by
  have hnum : int (m.num + 1) = (elements ++ [Cell.mk m.fresh key value]).length := by
    rw [h.num, int_eq (by omega) (by omega), List.length_append]
    rfl
  have hafter : ∀ {m' l S}, Inserted m m' l S → S ⊆ elements.map Cell.node →
      After m m' (m.fresh :: elements.map Cell.node) := by
    intro m' l S hi hS
    refine ⟨hi.comparator, fun a ha => hi.node a fun hm => ha ?_⟩
    rcases List.mem_cons.mp hm with rfl | hm
    · exact List.mem_cons_self
    · exact List.mem_cons_of_mem _ (hS hm)
  cases cells with
  | nil =>
    obtain rfl := h.perm.nil_eq
    refine returns_mono (Insert_first h.toHolds h.num key value) ?_
    rintro _ m' ⟨rfl, hi⟩
    refine ⟨rfl, hi.fresh, hafter hi (List.nil_subset _), _, hi.holds, .refl _, ?_, hi.num.trans hnum⟩
    rintro c hc d hd
    obtain rfl := List.mem_singleton.mp hd
    obtain rfl := Option.some.inj hc
    exact le_rfl
  | cons c l =>
    have hne : m.num ≠ 0 := by
      rw [h.num, ← h.perm.length_eq, List.length_cons]
      omega
    refine returns_mono (Insert_later h.toHolds hne key value) ?_
    rintro _ m' ⟨rfl, hi⟩
    have hS : (c :: l).map Cell.node ⊆ elements.map Cell.node := fun _ ha => h.mem_nodes.mp ha
    refine ⟨rfl, hi.fresh, hafter hi hS, _, hi.holds, ?_, ?_, hi.num.trans hnum⟩
    · split
      · exact (List.perm_append_singleton _ _).symm.trans (h.perm.append_right _)
      · exact h.perm.append_right _
    · have hc := h.least c rfl
      split
      next hlt =>
        rintro _ ⟨⟩ d hd
        rcases List.mem_cons.mp hd with rfl | hd
        · exact le_rfl
        · exact hlt.le.trans (hc d hd)
      next hge =>
        rintro _ ⟨⟩ d hd
        rcases List.mem_append.mp hd with hd | hd
        · exact hc d hd
        · obtain rfl := List.mem_singleton.mp hd
          exact not_lt.mp hge

/-! ## Combining -/

theorem Flat.with_heap {other : FibHeap TKey}
    (h : FibMemory.Flat { m with toFibHeap := other } elements cells) (hmin : m.min = other.min)
    (hnum : m.num = other.num) : m.Flat elements cells where
  ring := h.ring
  nodup := h.nodup
  data := h.data
  min := hmin.trans h.min
  unused := h.unused
  perm := h.perm
  least := h.least
  num := hnum.trans h.num

section Combine

variable {l l' : List (Cell TKey TValue)} {c d : Cell TKey TValue} {other : FibHeap TKey}

/-- The rings of two heaps become one. -/
theorem concatenate_flat (h : m.Flat elements (c :: l))
    (h' : FibMemory.Flat { m with toFibHeap := other } elements' (d :: l'))
    (hdisj : (elements.map Cell.node).Disjoint (elements'.map Cell.node)) :
    Returns (ConcatenateRootList (some c.node) (some d.node)) m fun _ m' => Keeps m m' ∧
      Roots m' (c :: (l' ++ d :: l)) ∧
      After m m' (elements.map Cell.node ++ elements'.map Cell.node) ∧
      ∀ a, m'.fresh ≤ a → m'.node a = none := by
  have hnd : ((c :: l ++ d :: l').map Cell.node).Nodup := by
    rw [List.map_append]
    refine h.nodup.append h'.nodup fun a ha ha' => ?_
    exact hdisj (h.mem_nodes.mp ha) (h'.mem_nodes.mp ha')
  have hroots' : Roots m (d :: l') := h'.toRoots.congr fun _ _ => rfl
  refine returns_mono (ConcatenateRootList_ring h.toRoots hroots' hnd) ?_
  rintro - m' ⟨hk, hroots, hafter⟩
  refine ⟨hk, hroots, ⟨hafter.comparator, fun a ha => hafter.node a fun hm => ha ?_⟩, ?_⟩
  · rw [List.map_append] at hm
    rcases List.mem_append.mp hm with hm | hm
    · exact List.mem_append_left _ (h.mem_nodes.mp hm)
    · exact List.mem_append_right _ (h'.mem_nodes.mp hm)
  · refine hafter.unused h.unused hk.fresh.ge fun a ha => ?_
    rw [List.map_append] at ha
    rw [hk.fresh]
    rcases List.mem_append.mp ha with ha | ha
    · exact h.node_lt_fresh ha
    · exact h'.node_lt_fresh ha

omit [LinearOrder TKey] in
theorem joined_perm (h : (c :: l).Perm elements) (h' : (d :: l').Perm elements') :
    (c :: (l' ++ d :: l)).Perm (elements ++ elements') := by
  have hmid : (c :: (l' ++ d :: l)).Perm (c :: l ++ d :: l') :=
    .cons c (List.perm_append_comm.trans List.perm_middle.symm)
  exact hmid.trans (h.append h')

/-- What is below the minimum of each heap is below everything in both. -/
theorem joined_least {k : TKey} (hc : ∀ e ∈ c :: l, c.key ≤ e.key)
    (hd : ∀ e ∈ d :: l', d.key ≤ e.key) (hkc : k ≤ c.key) (hkd : k ≤ d.key) :
    ∀ e ∈ c :: (l' ++ d :: l), k ≤ e.key := by
  intro e he
  rcases List.mem_cons.mp he with rfl | he
  · exact hkc
  rcases List.mem_append.mp he with he | he
  · exact hkd.trans (hd e (List.mem_cons_of_mem _ he))
  rcases List.mem_cons.mp he with rfl | he
  · exact hkd
  · exact hkc.trans (hc e (List.mem_cons_of_mem _ he))

theorem Combine_cons (h : m.Flat elements (c :: l))
    (h' : FibMemory.Flat { m with toFibHeap := other } elements' (d :: l'))
    (hdisj : (elements.map Cell.node).Disjoint (elements'.map Cell.node))
    (hlen : elements.length + elements'.length ≤ 1000) :
    Returns (Combine (some other)) m fun _ m' => m'.fresh = m.fresh ∧
      After m m' (elements.map Cell.node ++ elements'.map Cell.node) ∧
      ∃ cells'', m'.Flat (elements ++ elements') cells'' := by
  have hmin : m.min = some c.node := h.min
  have hmin' : other.min = some d.node := h'.min
  have hnum' : other.num = elements'.length := h'.num
  unfold Combine
  dsimp only
  rw [returns_bind, returns_get, hmin, hmin', if_neg (by simp), if_neg (by simp), returns_bind,
    returns_get, hmin, returns_bind]
  refine returns_mono (concatenate_flat h h' hdisj) ?_
  rintro - m₁ ⟨hk, hroots, hafter, hunused⟩
  have hmin₁ : m₁.min = some c.node := hk.min.trans hmin
  have hnum : int (m₁.num + other.num) = (elements ++ elements').length := by
    rw [hk.num, h.num, hnum', int_eq (by omega) (by omega), List.length_append]
    rfl
  have hperm := joined_perm h.perm h'.perm
  have hleast := fun k => joined_least (k := k) (h.least c rfl) (h'.least d rfl)
  rw [returns_bind, returns_get, hmin₁, returns_bind]
  refine returns_mono (load_spec (hroots.data c (by simp))) ?_
  rintro n m₁ ⟨rfl, hn⟩
  rw [returns_bind]
  refine returns_mono (load_spec (hroots.data d (by simp))) ?_
  rintro n' m₁ ⟨rfl, hn'⟩
  have hkey : n.key = c.key := congrArg FibNode.key hn
  have hkey' : n'.key = d.key := congrArg FibNode.key hn'
  unfold CompareKey
  rw [returns_bind, returns_bind, returns_get, returns_pure, hkey, hkey']
  simp only [IValueComparator.pos]
  split
  next hlt =>
    -- The ring is the same from the other minimum on.
    rw [returns_bind, returns_setMin, returns_modify]
    have hroots' : Roots m₁ ((c :: l') ++ (d :: l)) := hroots
    have hcomm : (d :: l ++ c :: l').Perm (c :: (l' ++ d :: l)) := List.perm_append_comm
    refine ⟨hk.fresh, ⟨hafter.comparator, hafter.node⟩, d :: l ++ c :: l',
      ⟨⟨hroots'.swap.congr fun _ _ => rfl, rfl, hunused⟩, hcomm.trans hperm, ?_, hnum⟩⟩
    rintro _ ⟨⟩ e he
    exact hleast _ hlt.le le_rfl e (hcomm.mem_iff.mp he)
  next hge =>
    rw [returns_modify]
    refine ⟨hk.fresh, ⟨hafter.comparator, hafter.node⟩, c :: (l' ++ d :: l),
      ⟨⟨hroots.congr fun _ _ => rfl, hmin₁, hunused⟩, hperm, ?_, hnum⟩⟩
    rintro _ ⟨⟩ e he
    exact hleast _ le_rfl (not_lt.mp hge) e he

theorem Combine_flat (h : m.Flat elements cells)
    (h' : FibMemory.Flat { m with toFibHeap := other } elements' cells')
    (hdisj : (elements.map Cell.node).Disjoint (elements'.map Cell.node))
    (hlen : elements.length + elements'.length ≤ 1000) :
    Returns (Combine (some other)) m fun _ m' => m'.fresh = m.fresh ∧
      After m m' (elements.map Cell.node ++ elements'.map Cell.node) ∧
      ∃ cells'', m'.Flat (elements ++ elements') cells'' := by
  have hmin' : other.min = cells'.head?.map Cell.node := h'.min
  cases cells with
  | nil =>
    obtain rfl := h.perm.nil_eq
    unfold Combine
    dsimp only
    rw [returns_bind, returns_get, h.min, List.head?_nil, Option.map_none, if_pos rfl,
      returns_bind, returns_setMin, returns_modify]
    exact ⟨rfl, ⟨rfl, fun _ _ => rfl⟩, cells', Flat.with_heap h' rfl rfl⟩
  | cons c l =>
    cases cells' with
    | nil =>
      obtain rfl := h'.perm.nil_eq
      unfold Combine
      dsimp only
      rw [returns_bind, returns_get, h.min, List.head?_cons, Option.map_some, if_neg (by simp),
        hmin', List.head?_nil, Option.map_none, if_pos rfl, returns_pure, List.append_nil]
      exact ⟨rfl, ⟨rfl, fun _ _ => rfl⟩, _, h⟩
    | cons d l' => exact Combine_cons h h' hdisj hlen

end Combine

/-! ## What keeps the object -/

theorem ends_load {p : Option ℕ} :
    Ends (load p : Op TKey TValue _) m (fun _ m' => m' = m) fun _ => True := by
  unfold load
  rw [ends_bind, ends_get]
  split
  · exact trivial
  · exact rfl

theorem ends_store {p : Option ℕ} {f : FibNode TKey TValue → FibNode TKey TValue} :
    Ends (store p f) m (fun _ m' => m'.toFibHeap = m.toFibHeap) fun _ => True := by
  unfold store
  rw [ends_bind]
  refine ends_mono ends_load ?_
  rintro n _ rfl
  exact rfl

theorem ConcatenateRootList_heap {a b : Option ℕ} :
    Ends (ConcatenateRootList a b : Op TKey TValue _) m (fun _ m' => m'.toFibHeap = m.toFibHeap)
      fun _ => True := by
  unfold ConcatenateRootList
  rw [ends_bind]
  refine ends_mono ends_load ?_
  rintro n _ rfl
  rw [ends_bind]
  refine ends_mono ends_load ?_
  rintro n' _ rfl
  rw [ends_bind]
  refine ends_mono ends_store ?_
  rintro - m₁ h₁
  rw [ends_bind]
  refine ends_mono ends_load ?_
  rintro n _ rfl
  rw [ends_bind]
  refine ends_mono ends_store ?_
  rintro - m₂ h₂
  rw [ends_bind]
  refine ends_mono ends_store ?_
  rintro - m₃ h₃
  refine ends_mono ends_store ?_
  rintro - m₄ h₄
  rw [h₄, h₃, h₂, h₁]

/-- A heap that is combined with itself has the same nodes and twice the count. -/
theorem Combine_self (hmin : m.min ≠ none) :
    Ends (Combine (some m.toFibHeap)) m (fun _ m' => m'.num = int (m.num + m.num))
      fun _ => True := by
  unfold Combine
  dsimp only
  rw [ends_bind, ends_get, if_neg hmin, if_neg hmin, ends_bind, ends_get, ends_bind]
  refine ends_mono ConcatenateRootList_heap ?_
  rintro - m₁ h₁
  have hnum : int (m₁.num + m.num) = int (m.num + m.num) := by rw [h₁]
  rw [ends_bind, ends_get, ends_bind]
  refine ends_mono ends_load ?_
  rintro n _ rfl
  rw [ends_bind]
  refine ends_mono ends_load ?_
  rintro n' _ rfl
  unfold CompareKey setMin
  rw [ends_bind, ends_bind, ends_get, ends_pure]
  refine ends_ite (fun _ => ?_) fun _ => ?_
  · rw [ends_bind, ends_modify, ends_modify]
    exact hnum
  · rw [ends_modify]
    exact hnum

/-! ## Removing the minimum -/

theorem addRoot_min {p : Option ℕ} (hmin : m.min = none) :
    Ends (addRoot p : Op TKey TValue _) m (fun _ m' => m'.min = none) fun _ => True := by
  unfold addRoot
  refine ends_ite (fun hp => ?_) fun _ => hmin
  subst hp
  rw [ends_bind, ends_get, if_pos hmin]
  exact rfl

/-- The last loop takes the roots that are there for those that are not. -/
theorem Consolidate_min (fuel : ℕ) :
    Ends (Consolidate fuel : Op TKey TValue _) m (fun _ m' => m'.min = none) fun _ => True := by
  unfold Consolidate setMin
  rw [ends_bind, ends_get, ends_bind]
  refine ends_any (fun D m₁ => ?_) fun _ => trivial
  rw [ends_bind]
  refine ends_any (fun a m₂ => ?_) fun _ => trivial
  rw [ends_bind, ends_modify]
  exact ends_forM (I := fun _ (m' : FibMemory TKey TValue) => m'.min = none)
    (fun _ p m' _ hm => addRoot_min hm) [] rfl

theorem RemoveMin_min (fuel : ℕ) :
    Ends (RemoveMin fuel : Op TKey TValue _) m (fun _ m' => m'.min = none) fun _ => True := by
  unfold RemoveMin setMin
  rw [ends_bind, ends_get]
  refine ends_ite (fun _ => ?_) fun hmin => not_not.mp hmin
  rw [ends_bind]
  refine ends_any (fun _ m₁ => ?_) fun _ => trivial
  rw [ends_bind]
  refine ends_any (fun _ m₂ => ?_) fun _ => trivial
  rw [ends_bind]
  refine ends_mono ends_load ?_
  rintro n _ rfl
  refine ends_ite (fun _ => ?_) fun _ => ?_
  · rw [ends_bind, ends_modify, ends_modify]
  · rw [ends_bind, ends_modify, ends_bind]
    refine ends_mono (Consolidate_min fuel) ?_
    rintro - m₃ h₃
    rw [ends_modify]
    exact h₃

/-- Of one element nothing is left to consolidate. -/
theorem RemoveMin_flat (h : m.Flat elements cells) (hlen : elements.length ≤ 1) (fuel : ℕ) :
    Returns (RemoveMin fuel) m fun _ m' => m'.fresh = m.fresh ∧
      After m m' (elements.map Cell.node) ∧ m'.Flat [] [] := by
  unfold RemoveMin
  rw [returns_bind, returns_get, h.min]
  cases cells with
  | nil =>
    obtain rfl := h.perm.nil_eq
    rw [List.head?_nil, Option.map_none, if_neg (by simp), returns_pure]
    exact ⟨rfl, ⟨rfl, fun _ _ => rfl⟩, h⟩
  | cons c l =>
    obtain rfl : l = [] := by
      have hle := h.perm.length_eq
      rw [List.length_cons] at hle
      exact List.eq_nil_of_length_eq_zero (by omega)
    have hc := h.data c List.mem_cons_self
    have hself : m.links.Joins c.node c.node := ring_singleton.mp h.ring
    have hnum : int (m.num - 1) = 0 := by
      rw [h.num, ← h.perm.length_eq, int_eq (by simp) (by simp)]
      simp
    rw [List.head?_cons, Option.map_some, if_pos (by simp), returns_bind]
    unfold removeChildren
    rw [returns_bind]
    refine returns_mono (load_spec hc) ?_
    rintro _ m ⟨rfl, rfl⟩
    rw [if_neg (by simp [FibNode.new]), returns_pure, returns_bind]
    refine returns_mono (RemoveNode_spec hc hc hc hself.1 hself.2) ?_
    rintro - m₁ ⟨hk, hl⟩
    rw [returns_bind]
    refine returns_mono (load_spec ((hk.data _).trans hc)) ?_
    rintro _ m₁ ⟨rfl, rfl⟩
    have hnext : m₁.links.next c.node = some c.node := by rw [hl]; exact if_pos rfl
    dsimp only
    rw [if_pos hnext, returns_bind, returns_setMin, returns_modify]
    have hafter : After m m₁ (elements.map Cell.node) := by
      have hmem : c.node ∈ elements.map Cell.node := h.mem_nodes.mp (by simp)
      refine hk.after (x := c.node) (y := c.node) (w := c.node) (fun z hz _ _ => ?_) hmem hmem hmem
      rw [hl]
      simp [hz.symm]
    have hunused : ∀ a, m₁.fresh ≤ a → m₁.node a = none :=
      hafter.unused h.unused hk.fresh.ge fun a ha =>
        (h.node_lt_fresh (h.mem_nodes.mpr ha)).trans_eq hk.fresh.symm
    refine ⟨hk.fresh, ⟨hafter.comparator, hafter.node⟩,
      ⟨⟨ring_nil _, .nil, by simp⟩, rfl, hunused⟩, .refl _, by simp, ?_⟩
    show int (m₁.num - 1) = 0
    rw [hk.num, hnum]

/-! ## Decreasing -/

theorem load_eq {a : ℕ} {n : FibNode TKey TValue} (h : m.node a = some n) :
    load (some a) m = .ok (n, m) := by
  have hget : (get : Op TKey TValue (FibMemory TKey TValue)) m = .ok (m, m) := rfl
  unfold load
  rw [bind_eq, hget]
  dsimp only
  rw [Option.bind_some, h]
  rfl

/-- A root is compared with the parent that it does not have. -/
theorem DecreaseKey_fault {a : ℕ} {key : TKey} {value : TValue}
    (h : m.data a = some (.new key value)) (fuel : ℕ) (key' : TKey) :
    Ends (DecreaseKey fuel (some a) key') m (fun _ _ => False) (· = .null) := by
  have hn := FibMemory.node_eq h
  unfold DecreaseKey CompareKey store
  rw [ends_bind, ends_of_eq (load_eq hn), ends_bind, ends_bind, ends_get, ends_pure, ends_bind,
    ends_bind, ends_of_eq (load_eq hn), ends_modify, ends_bind]
  rw [ends_of_eq (load_eq (if_pos rfl))]
  dsimp only [FibNode.new]
  rw [if_pos rfl, ends_bind]
  unfold CompareNode
  rw [ends_bind, ends_of_eq (load_eq (if_pos rfl))]
  dsimp only
  rw [if_neg (by simp), ends_bind]
  exact rfl

end FibHeap

end Infos.Commons
