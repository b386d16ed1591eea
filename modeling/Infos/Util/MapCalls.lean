import Infos.Util.MapTree

/-!
# The calls on a map

Each call on a map whose pointers are a tree is followed on the tree.
-/

open Infos.Prog Infos.RedBlack Infos.RedBlack.RBTree

namespace Infos.Util.Map

variable {K V : Type} {m m' : Map K V} {t l r : RBTree (Cell K V)} {c : Colour} {x : Cell K V}
  {p : List (Step (Cell K V))} {par : Option ℕ}

/-- A new node is put into the hole that the owner is above of. -/
theorem attach_spec {s : Step (Cell K V)} (h : Rep m (fill .leaf (s :: p)))
    (ha : m.node x.addr = none) (hroom : x.addr + 24 ≤ PMEM_VA_SIZE) :
    Returns (set_child s.dir (some s.elem.addr) (some x.addr))
      (put x.addr (some ⟨x.key, x.value, .RED, none, none, none⟩) m) fun _ m' =>
        Rep m' (fill (.node .RED .leaf x .leaf) (s :: p)) ∧ m'._count = m._count := by
  obtain ⟨hroot, -, ⟨hg, hs, hp⟩, hnodup⟩ := h.focus
  have hperm := addrs_fill (s :: p) (.node .RED .leaf x .leaf)
  have hperm' := addrs_fill (s :: p) (.leaf : RBTree (Cell K V))
  have hnot : x.addr ∉ path_addrs (s :: p) := fun hmem =>
    h.shape.ne_none (hperm'.mem_iff.mpr (by simpa using hmem)) ha
  have hnew : ∀ b ∈ path_addrs (s :: p), b ≠ x.addr := fun b hb he => hnot (he ▸ hb)
  have hT : addrs (.node .RED .leaf x .leaf) = [x.addr] := rfl
  rw [addrs_leaf, List.nil_append] at hnodup hperm'
  rw [hT, List.singleton_append] at hperm
  have hg₁ : (put x.addr (some ⟨x.key, x.value, .RED, none, none, none⟩) m).node s.elem.addr =
      some (cell s.colour (up p) s.dir none (ptr s.sibling) s.elem) := by
    rw [put_node, Function.update_of_ne (hnew _ (by simp [path_addrs]))]
    exact hg
  refine returns_mono (set_child_spec (q := none) (t := .node .RED .leaf x .leaf) hg₁ ?_ (by simp [hT])
    ?_) ?_
  · simp [Shape, cell]
  · rw [hT, List.mem_singleton]
    exact hnew _ (by simp [path_addrs])
  rintro - m' ⟨hk, hr, hg', hT', ho⟩
  rw [set_child_cell] at hg'
  have hsame : ∀ b ∈ addrs s.sibling ++ path_addrs p, m'.node b = m.node b := by
    intro b hb
    have hbs : b ≠ s.elem.addr := by
      rintro rfl
      simp only [path_addrs, List.cons_append, List.nodup_cons] at hnodup
      exact hnodup.1 hb
    have hbx := hnew b (by simp only [path_addrs, List.cons_append]; exact List.mem_cons_of_mem _ hb)
    rw [ho b hbs (by simpa [hT] using hbx), put_node, Function.update_of_ne hbx]
  refine ⟨⟨?_, (shape_fill _ _).mpr ⟨hT', hg', hs.congr fun b hb => hsame b (by simp [hb]),
    hp.congr fun b hb => hsame b (by simp [hb])⟩, ?_, fun a hna => ?_, fun a hmem => ?_⟩, hk.count⟩
  · rw [hr, put_root, hroot, ptr_fill]
    rfl
  · rw [hperm.nodup_iff, List.nodup_cons]
    exact ⟨hnot, hnodup⟩
  · rw [hperm.mem_iff, List.mem_cons]
    by_cases hax : a = x.addr
    · exact .inl hax
    · refine .inr (hperm'.mem_iff.mp (h.only a fun hn => hna ((hk.exist a).mpr ?_)))
      rw [put_node, Function.update_of_ne hax]
      exact hn
  · rw [hperm.mem_iff, List.mem_cons] at hmem
    rcases hmem with rfl | hmem
    · exact hroom
    · exact h.room a (hperm'.mem_iff.mpr hmem)

/-- The first node of a map. -/
theorem first_spec (h : Rep m .leaf) (hroom : x.addr + 24 ≤ PMEM_VA_SIZE) :
    Rep { put x.addr (some ⟨x.key, x.value, .RED, none, none, none⟩) m with _root := some x.addr }
      (.node .RED .leaf x .leaf) where
  root := rfl
  shape := by simp [Shape, cell]
  nodup := by simp [addrs, toList]
  only a ha := by
    by_cases hax : a = x.addr
    · simp [hax, addrs, toList]
    · dsimp only at ha
      rw [put_node, Function.update_of_ne hax] at ha
      exact absurd (h.only a ha) (by simp)
  room a ha := by
    obtain rfl : a = x.addr := by simpa [addrs, toList] using ha
    exact hroom

theorem Rep.recount (h : Rep m t) (n : UInt32) : Rep { m with _count := n } t :=
  ⟨h.root, h.shape, h.nodup, h.only, h.room⟩

/-! ## Clearing -/

theorem delete_spec {turns : ℕ} (h : Shape m.node par t) (hn : (addrs t).Nodup) (hne : t ≠ .leaf)
    (hturns : t.height ≤ turns) :
    Returns (delete_node turns (ptr t)) m fun _ m' =>
      ∀ a, m'.node a = if a ∈ addrs t then none else m.node a := by
  induction t generalizing par m turns with
  | leaf => exact absurd rfl hne
  | node c l x r hl hr =>
    simp only [height] at hturns
    obtain ⟨turns, rfl⟩ := Nat.exists_eq_add_of_le' (show 0 < turns by omega)
    have hside : ∀ {s : RBTree (Cell K V)} {m : Map K V},
        (s ≠ .leaf → Returns (delete_node turns (ptr s)) m fun _ m' =>
          ∀ a, m'.node a = if a ∈ addrs s then none else m.node a) →
        Returns (if ptr s ≠ none then delete_node turns (ptr s) else pure ()) m fun _ m' =>
          ∀ a, m'.node a = if a ∈ addrs s then none else m.node a := by
      intro s m hs
      cases s with
      | leaf => simp
      | node c l y r =>
        rw [if_pos (by simp)]
        exact hs (by simp)
    obtain ⟨hx, hls, hrs⟩ := h
    rw [addrs_node] at hn ⊢
    obtain ⟨hln, hxrn, hdisj⟩ := List.nodup_append.mp hn
    obtain ⟨hxr, hrn⟩ := List.nodup_cons.mp hxrn
    rw [ptr_node, delete_node, returns_bind, returns_load hx]
    refine returns_when.mpr ?_
    refine returns_mono (hside fun hl' => hl hls hln hl' (by omega)) ?_
    intro _ m₁ h₁
    refine returns_when.mpr ?_
    have hrs₁ : Shape m₁.node (some x.addr) r := hrs.congr fun a ha => by
      rw [h₁, if_neg fun hal => hdisj a hal a (List.mem_cons_of_mem _ ha) rfl]
    refine returns_mono (hside fun hr' => hr hrs₁ hrn hr' (by omega)) ?_
    intro _ m₂ h₂
    rw [returns_modify]
    intro a
    rw [put_node, Function.update_apply, h₂, h₁]
    grind

theorem clear_spec (h : Rep m t) : Returns clear m fun _ m' => m' = empty := by
  have hempty : ∀ m' : Map K V, (∀ a, m'.node a = none) →
      ({ m' with _root := none, _count := 0 } : Map K V) = empty := by
    intro m' h'
    simp [empty, funext h']
  unfold clear
  rw [returns_bind, returns_get, h.root]
  cases t with
  | leaf =>
    refine (returns_modify _ _ _).mpr (hempty m fun a => ?_)
    by_contra hna
    exact absurd (h.only a hna) (by simp)
  | node c l x r =>
    rw [if_pos (by simp), returns_bind, returns_get, h.root, returns_bind]
    refine returns_mono (delete_spec h.shape h.nodup (by simp) h.height_lt.le) ?_
    intro _ m' h'
    refine (returns_modify _ _ _).mpr (hempty m' fun a => ?_)
    rw [h']
    split
    next => rfl
    next hna =>
      by_contra hne
      exact hna (h.only a hne)

/-! ## Adding -/

variable [LinearOrder K] {k : K} {v : V}

/-- The node that `add` comes down to. -/
def owner : RBTree (Cell K V) × List (Step (Cell K V)) → Option ℕ
  | (.leaf, p) => up p
  | (.node _ _ x _, _) => some x.addr

theorem descend_spec {turns : ℕ} (h : Rep m (fill t p)) (hne : t ≠ .leaf ∨ p = [])
    (hturns : t.height < turns) :
    Returns (descend k turns (ptr t)) m fun o m' =>
      m' = m ∧ o = owner (t.locate Cell.key k p) := by
  induction t generalizing p turns with
  | leaf =>
    obtain ⟨turns, rfl⟩ := Nat.exists_eq_add_of_le' (Nat.zero_lt_of_lt hturns)
    obtain rfl := hne.resolve_left (by simp)
    simp [descend, locate, owner, up]
  | node c l x r hl hr =>
    obtain ⟨turns, rfl⟩ := Nat.exists_eq_add_of_le' (Nat.zero_lt_of_lt hturns)
    have hx : m.node x.addr = some (cell c (up p) .left (ptr l) (ptr r) x) := h.node_eq (d := .left)
    simp only [height] at hturns
    have hside : ∀ {s : RBTree (Cell K V)} {q : List (Step (Cell K V))}, up q = some x.addr →
        (s ≠ .leaf → Returns (descend k turns (ptr s)) m fun o m' =>
          m' = m ∧ o = owner (s.locate Cell.key k q)) →
        Returns (if ptr s = none then pure (some x.addr) else descend k turns (ptr s)) m
          fun o m' => m' = m ∧ o = owner (s.locate Cell.key k q) := by
      intro s q hq hs
      cases s with
      | leaf => simp [locate, owner, hq]
      | node c l y r =>
        rw [if_neg (by simp)]
        exact hs (by simp)
    rw [descend, ptr_node, if_neg (by simp), returns_bind, returns_load hx, Key_cell, locate]
    by_cases hlt : k < x.key
    · rw [if_pos hlt, if_pos hlt]
      exact hside rfl fun hs => hl (p := ⟨.left, c, x, r⟩ :: p) h (.inl hs) (by omega)
    · rw [if_neg hlt, if_neg hlt]
      by_cases hgt : x.key < k
      · rw [if_pos hgt, if_pos hgt]
        exact hside rfl fun hs => hr (p := ⟨.right, c, x, l⟩ :: p) h (.inl hs) (by omega)
      · rw [if_neg hgt, if_neg hgt]
        rw [returns_pure]
        exact ⟨rfl, rfl⟩

/-- A key that is not in the tree, and the side of the hole where it would be. -/
theorem locate_leaf {s : Step (Cell K V)} (hs : t.Sorted Cell.key)
    (hl : t.locate Cell.key k [] = (.leaf, s :: p)) :
    k ≠ s.elem.key ∧ (k < s.elem.key ↔ s.dir = .left) := by
  obtain ⟨hb, ha⟩ := between_of_locate hs hl
  cases hd : s.dir with
  | left =>
    have := ha s.elem (by simp [after, hd])
    exact ⟨this.ne, by simpa using this⟩
  | right =>
    have := hb s.elem (by simp [before, hd])
    exact ⟨this.ne', by simpa using this.le⟩

theorem Rep.descend_root (h : Rep m t) : Returns (descend k PMEM_VA_SIZE (ptr t)) m fun o m' =>
    m' = m ∧ o = owner (t.locate Cell.key k []) :=
  descend_spec (p := []) h (.inr rfl) h.height_lt

/-- The key has a node, which gets the value. -/
theorem add_value_spec {addr : ℕ} (h : Rep m t) (hl : t.locate Cell.key k [] = (.node c l x r, p)) :
    Returns (add addr k v) m fun _ m' => Rep m' (fill (.node c l { x with value := v } r) p) ∧
      m'._count = m._count := by
  have hk : x.key = k := key_locate (congrArg Prod.fst hl)
  unfold add
  rw [returns_bind, returns_get, returns_bind, h.root]
  refine returns_mono h.descend_root ?_
  rintro o m' ⟨rfl, rfl⟩
  rw [← fill_of_locate hl] at h
  have hx := Rep.node_eq (d := .left) h
  rw [hl, show owner (.node c l x r, p) = some x.addr from rfl, if_neg (by simp), returns_bind,
    returns_load hx, Key_cell, if_pos hk.symm, returns_store hx, with_Value_cell, put_count]
  exact ⟨h.update (d := .left) rfl, rfl⟩

/-- The hole is not at the root. -/
theorem add_below_spec {s : Step (Cell K V)} {addr : ℕ} (h : Rep m t) (hs : t.Sorted Cell.key)
    (hroot : t.colour = .BLACK) (ha : m.node addr = none) (hroom : addr + 24 ≤ PMEM_VA_SIZE)
    (hl : t.locate Cell.key k [] = (.leaf, s :: p)) :
    Returns (add addr k v) m fun _ m' =>
      Rep m' (rebalance (.node .RED .leaf ⟨addr, k, v⟩ .leaf) (s :: p)).blacken ∧
        m'._count = m._count + 1 := by
  obtain ⟨hk, hdir⟩ := locate_leaf hs hl
  unfold add
  rw [returns_bind, returns_get, returns_bind, h.root]
  refine returns_mono h.descend_root ?_
  rintro o m' ⟨rfl, rfl⟩
  rw [← fill_of_locate hl] at h
  have hx := Rep.node_eq (p := p) h
  have hne : s.elem.addr ≠ addr := by
    rintro rfl
    rw [ha] at hx
    cases hx
  have hx₁ : (put addr (some ⟨k, v, .RED, none, none, none⟩) m').node s.elem.addr = _ :=
    (Function.update_of_ne hne _ _).trans hx
  rw [hl, show owner (.leaf, s :: p) = some s.elem.addr from rfl, if_neg (by simp), returns_bind,
    returns_load hx, Key_cell, if_neg hk, returns_bind, returns_new_node ha hroom,
    returns_bind, returns_load hx₁, Key_cell]
  have hattach : Returns (do
      set_child s.dir (some s.elem.addr) (some addr)
      rebalance_insert (some addr)
      modify fun m : Map K V => { m with _count := m._count + 1 })
      (put addr (some ⟨k, v, .RED, none, none, none⟩) m') fun _ m₃ =>
      Rep m₃ (rebalance (.node .RED .leaf ⟨addr, k, v⟩ .leaf) (s :: p)).blacken ∧
        m₃._count = m'._count + 1 := by
    rw [returns_bind]
    refine returns_mono (attach_spec (x := ⟨addr, k, v⟩) h ha hroom) ?_
    rintro - m₁ ⟨h₁, hc₁⟩
    rw [returns_bind]
    refine returns_mono (rebalance_insert_spec h₁ fun hp => ?_) ?_
    · rw [colour_fill (s := .leaf) hp, fill_of_locate hl]
      exact hroot
    rintro - m₂ ⟨h₂, hc₂⟩
    rw [returns_modify]
    exact ⟨h₂.recount _, by rw [← hc₁, ← hc₂]⟩
  by_cases hlt : k < s.elem.key
  · rw [if_pos hlt, ← hdir.mp hlt]
    exact hattach
  · have hright : s.dir = .right := by
      cases hd : s.dir with
      | left => exact absurd (hdir.mpr hd) hlt
      | right => rfl
    rw [if_neg hlt, ← hright]
    exact hattach

theorem add_first_spec {addr : ℕ} (h : Rep m .leaf) (ha : m.node addr = none)
    (hroom : addr + 24 ≤ PMEM_VA_SIZE) :
    Returns (add addr k v) m fun _ m' => Rep m' (.node .BLACK .leaf ⟨addr, k, v⟩ .leaf) ∧
      m'._count = m._count + 1 := by
  unfold add
  rw [returns_bind, returns_get, returns_bind, h.root]
  refine returns_mono h.descend_root ?_
  rintro o m' ⟨rfl, rfl⟩
  rw [show owner _ = none from rfl, if_pos rfl, returns_bind, returns_new_node ha hroom,
    returns_bind, returns_modify, returns_bind]
  refine returns_mono (paint_spec (d := .left) (p := []) (e := .BLACK)
    (first_spec (x := ⟨addr, k, v⟩) h hroom)) ?_
  rintro - m₁ ⟨h₁, hc₁⟩
  rw [returns_modify]
  exact ⟨h₁.recount _, congrArg (· + 1) hc₁⟩

theorem add_new_spec {addr : ℕ} (h : Rep m t) (hs : t.Sorted Cell.key) (hroot : t.colour = .BLACK)
    (ha : m.node addr = none) (hroom : addr + 24 ≤ PMEM_VA_SIZE)
    (hl : t.locate Cell.key k [] = (.leaf, p)) :
    Returns (add addr k v) m fun _ m' =>
      Rep m' (rebalance (.node .RED .leaf ⟨addr, k, v⟩ .leaf) p).blacken ∧
        m'._count = m._count + 1 := by
  cases p with
  | nil =>
    obtain rfl : t = .leaf := (fill_of_locate hl).symm
    exact add_first_spec h ha hroom
  | cons s p => exact add_below_spec h hs hroot ha hroom hl

/-- A new key needs memory for its node. -/
theorem add_no_memory {addr : ℕ} (h : Rep m t) (hl : t.locate Cell.key k [] = (.leaf, p))
    (hs : t.Sorted Cell.key) (hfree : ¬ (m.node addr = none ∧ addr + 24 ≤ PMEM_VA_SIZE)) :
    Ends (add addr k v) m (fun _ _ => False) fun e => e = .no_memory := by
  have hnew : ∀ {Q}, Ends (new_node addr k v) m Q fun e => e = .no_memory := by
    intro Q
    unfold new_node
    rw [ends_bind, ends_get, if_neg hfree, ends_throw]
  unfold add
  rw [ends_bind, ends_get, ends_bind, h.root]
  refine ends_mono (ends_of_returns h.descend_root) ?_
  rintro o m' ⟨rfl, rfl⟩
  rw [hl]
  cases p with
  | nil =>
    rw [show owner (.leaf, []) = none from rfl, if_pos rfl, ends_bind]
    exact hnew
  | cons s p =>
    rw [← fill_of_locate hl] at h
    have hx := Rep.node_eq (p := p) h
    rw [show owner (.leaf, s :: p) = some s.elem.addr from rfl, if_neg (by simp), ends_bind]
    refine ends_mono (ends_of_returns ((returns_load (Q := fun n m => n.Key = s.elem.key ∧ m = m') hx).mpr
      ⟨Key_cell _ _ _, rfl⟩)) ?_
    rintro n m₁ ⟨hn, rfl⟩
    rw [hn, if_neg (locate_leaf hs hl).1, ends_bind]
    exact hnew

/-! ## Looking up -/

theorem search_spec {turns : ℕ} (h : Shape m.node par t) (hturns : t.height < turns) :
    Returns (search k turns (ptr t)) m fun o m' =>
      m' = m ∧ o = (t.find Cell.key k).map Cell.addr := by
  obtain ⟨turns, rfl⟩ := Nat.exists_eq_add_of_le' (Nat.zero_lt_of_lt hturns)
  induction t generalizing par turns with
  | leaf => simp [search, find]
  | node c l x r hl hr =>
    obtain ⟨hx, hls, hrs⟩ := h
    simp only [height] at hturns
    obtain ⟨turns, rfl⟩ := Nat.exists_eq_add_of_le' (show 0 < turns by omega)
    rw [search, ptr_node, if_neg (by simp), returns_bind, returns_load hx, Key_cell, find]
    by_cases hlt : k < x.key
    · rw [if_pos hlt, if_pos hlt]
      exact hl hls turns (by omega)
    · rw [if_neg hlt, if_neg hlt]
      by_cases hgt : x.key < k
      · rw [if_pos hgt, if_pos hgt]
        exact hr hrs turns (by omega)
      · rw [if_neg hgt, if_neg hgt, returns_pure]
        exact ⟨rfl, rfl⟩

theorem contains_key_spec (h : Rep m t) :
    Returns (contains_key k) m fun b m' => m' = m ∧ b = (t.find Cell.key k).isSome := by
  unfold contains_key
  rw [returns_bind, returns_get, returns_bind, h.root]
  refine returns_mono (search_spec h.shape h.height_lt) ?_
  rintro o m' ⟨rfl, rfl⟩
  cases t.find Cell.key k <;> simp

theorem try_get_value_spec (h : Rep m t) :
    Returns (try_get_value k) m fun o m' => m' = m ∧ o = (t.find Cell.key k).map Cell.value := by
  unfold try_get_value
  rw [returns_bind, returns_get, returns_bind, h.root]
  refine returns_mono (search_spec h.shape h.height_lt) ?_
  rintro o m' ⟨rfl, rfl⟩
  cases hf : t.find Cell.key k with
  | none => simp
  | some x =>
    obtain ⟨n, hn, hv⟩ := h.shape.exists (find_mem hf).1
    simp [returns_load hn, hv]

/-! ## Iterating -/

/-- What the map holds, by key. -/
def entries (t : RBTree (Cell K V)) : List (K × V) := t.toList.map fun x => (x.key, x.value)

/-- The queue of an iterator, with the subtrees that are still to be visited. -/
def queue (ts : List (RBTree (Cell K V))) : List ℕ := ts.flatMap fun t => (ptr t).toList

omit [LinearOrder K]

theorem visit_spec (ts : List (RBTree (Cell K V))) (cur : Option ℕ) {turns : ℕ}
    (h : ∀ t ∈ ts, ∃ par, Shape m.node par t) (hturns : (ts.map size).sum < turns) :
    Returns (MapIterator.advance ⟨queue ts, cur⟩ >>= MapIterator.visit turns) m fun es m' =>
      m' = m ∧ es.Perm (ts.flatMap entries) := by
  induction turns generalizing ts cur with
  | zero => omega
  | succ turns ih =>
    induction ts with
    | nil => simp [queue, MapIterator.advance, MapIterator.visit]
    | cons t ts ihts =>
      cases t with
      | leaf =>
        simp only [List.map_cons, List.sum_cons, size] at hturns
        exact ihts (fun t ht => h t (List.mem_cons_of_mem _ ht)) (by omega)
      | node c l x r =>
        obtain ⟨par, hx, hl, hr⟩ := h _ List.mem_cons_self
        simp only [List.map_cons, List.sum_cons, size] at hturns
        have hq : queue ts ++ (ptr l).toList ++ (ptr r).toList = queue (ts ++ [l, r]) := by
          simp [queue]
        have hrec : Returns (MapIterator.advance ⟨queue (ts ++ [l, r]), some x.addr⟩ >>=
            MapIterator.visit turns) m fun es m' =>
              m' = m ∧ es.Perm ((ts ++ [l, r]).flatMap entries) := by
          refine ih _ _ (fun t ht => ?_) ?_
          · simp only [List.mem_append, List.mem_cons, List.not_mem_nil, or_false] at ht
            rcases ht with ht | rfl | rfl
            · exact h t (List.mem_cons_of_mem _ ht)
            · exact ⟨_, hl⟩
            · exact ⟨_, hr⟩
          · simp only [List.map_append, List.sum_append, List.map_cons, List.map_nil, List.sum_cons,
              List.sum_nil]
            omega
        have hqueue : queue (.node c l x r :: ts) = x.addr :: queue ts := rfl
        rw [returns_bind, hqueue, MapIterator.advance, returns_bind, returns_load hx, returns_pure,
          MapIterator.visit, if_neg (by simp), returns_bind, returns_load hx, Key_cell, Value_cell,
          ← bind_assoc, returns_bind]
        dsimp only [cell]
        rw [hq]
        refine returns_mono hrec ?_
        rintro es m' ⟨rfl, hes⟩
        rw [returns_pure]
        refine ⟨rfl, (hes.cons _).trans ?_⟩
        simp only [List.flatMap_append, List.flatMap_cons, List.flatMap_nil, List.append_nil,
          entries, toList, List.map_append, List.map_cons]
        refine (List.perm_append_comm.cons _).trans ?_
        rw [List.append_assoc, List.append_assoc]
        exact List.perm_middle.symm

theorem iterate_spec (h : Rep m t) :
    Returns iterate m fun es m' => m' = m ∧ es.Perm (entries t) := by
  unfold iterate
  rw [returns_bind, returns_get, h.root]
  have hlt := h.size_lt
  have hvisit := visit_spec [t] (ptr t) (m := m)
    (fun s hs => ⟨none, by rw [List.mem_singleton.mp hs]; exact h.shape⟩)
    (show (([t].map size).sum) < PMEM_VA_SIZE by simp; omega)
  rw [List.flatMap_singleton] at hvisit
  cases t with
  | leaf => exact hvisit
  | node c l x r => exact hvisit

end Infos.Util.Map
