import Infos.Util.Map
import Mathlib.Data.List.Perm.Subperm

/-!
# The nodes of a map are a red-black tree

`Rep m t` says that the pointers of the map are those of the tree `t`, of which each element is a
node at its address. The functions that go up the parents are followed on a tree with a hole.
-/

open Infos.Prog Infos.RedBlack Infos.RedBlack.RBTree

namespace Infos.Util.Map

structure Cell (K V : Type) where
  addr : ℕ
  key : K
  value : V
  deriving DecidableEq, Repr

variable {K V : Type}

/-! ## Pointers -/

def ptr (t : RBTree (Cell K V)) : Option ℕ := t.root.map Cell.addr

def addrs (t : RBTree (Cell K V)) : List ℕ := t.toList.map Cell.addr

/-- The node with the child `near` on the side `d` and `far` on the other. -/
def cell (c : Colour) (par : Option ℕ) (d : Dir) (near far : Option ℕ) (x : Cell K V) :
    MapNode K V :=
  match d with
  | .left => ⟨x.key, x.value, c, par, near, far⟩
  | .right => ⟨x.key, x.value, c, par, far, near⟩

/-- The nodes of a subtree, of which the root has the parent `par`. -/
def Shape (node : ℕ → Option (MapNode K V)) : Option ℕ → RBTree (Cell K V) → Prop
  | _, .leaf => True
  | par, .node c l x r => node x.addr = some (cell c par .left (ptr l) (ptr r) x) ∧
      Shape node (some x.addr) l ∧ Shape node (some x.addr) r

/-- The node above the hole. -/
def up (p : List (Step (Cell K V))) : Option ℕ := p.head?.map fun s => s.elem.addr

/-- The root, if `hole` is the pointer to what is in the hole. -/
def top : List (Step (Cell K V)) → Option ℕ → Option ℕ
  | [], hole => hole
  | s :: p, _ => top p (some s.elem.addr)

/-- The nodes around a hole. -/
def Above (node : ℕ → Option (MapNode K V)) : List (Step (Cell K V)) → Option ℕ → Prop
  | [], _ => True
  | s :: p, hole =>
    node s.elem.addr = some (cell s.colour (up p) s.dir hole (ptr s.sibling) s.elem) ∧
      Shape node (some s.elem.addr) s.sibling ∧ Above node p (some s.elem.addr)

def path_addrs : List (Step (Cell K V)) → List ℕ
  | [] => []
  | s :: p => s.elem.addr :: addrs s.sibling ++ path_addrs p

structure Rep (m : Map K V) (t : RBTree (Cell K V)) : Prop where
  root : m._root = ptr t
  shape : Shape m.node none t
  nodup : (addrs t).Nodup
  only : ∀ a, m.node a ≠ none → a ∈ addrs t
  room : ∀ a ∈ addrs t, a + 24 ≤ PMEM_VA_SIZE

variable {m m' : Map K V} {node node' : ℕ → Option (MapNode K V)} {t l r s : RBTree (Cell K V)}
  {c : Colour} {d : Dir} {x : Cell K V} {p : List (Step (Cell K V))} {par q : Option ℕ} {a b : ℕ}

@[simp] theorem ptr_leaf : ptr (.leaf : RBTree (Cell K V)) = none := rfl

@[simp] theorem ptr_join : ptr (join d c t x s) = some x.addr := by simp [ptr]

@[simp] theorem ptr_node : ptr (.node c l x r) = some x.addr := rfl

@[simp] theorem addrs_leaf : addrs (.leaf : RBTree (Cell K V)) = [] := rfl

@[simp] theorem up_cons (s : Step (Cell K V)) : up (s :: p) = some s.elem.addr := rfl

@[simp] theorem child_cell (x : Cell K V) (near far : Option ℕ) :
    (cell c par d near far x).child d = near := by cases d <;> rfl

@[simp] theorem child_opposite_cell (x : Cell K V) (near far : Option ℕ) :
    (cell c par d near far x).child d.opposite = far := by cases d <;> rfl

@[simp] theorem set_child_cell (x : Cell K V) (near far : Option ℕ) :
    (cell c par d near far x).set_child q d = cell c par d q far x := by cases d <;> rfl

@[simp] theorem set_child_opposite_cell (x : Cell K V) (near far : Option ℕ) :
    (cell c par d near far x).set_child q d.opposite = cell c par d near q x := by cases d <;> rfl

@[simp] theorem Parent_cell (x : Cell K V) (near far : Option ℕ) :
    (cell c par d near far x).Parent = par := by cases d <;> rfl

@[simp] theorem Colour_cell (x : Cell K V) (near far : Option ℕ) :
    (cell c par d near far x).Colour = c := by cases d <;> rfl

@[simp] theorem Key_cell (x : Cell K V) (near far : Option ℕ) :
    (cell c par d near far x).Key = x.key := by cases d <;> rfl

@[simp] theorem Value_cell (x : Cell K V) (near far : Option ℕ) :
    (cell c par d near far x).Value = x.value := by cases d <;> rfl

@[simp] theorem with_Parent_cell (x : Cell K V) (near far : Option ℕ) :
    { cell c par d near far x with Parent := q } = cell c q d near far x := by cases d <;> rfl

@[simp] theorem with_Colour_cell (x : Cell K V) (near far : Option ℕ) (c' : Colour) :
    { cell c par d near far x with Colour := c' } = cell c' par d near far x := by cases d <;> rfl

@[simp] theorem with_Value_cell (x : Cell K V) (near far : Option ℕ) (v : V) :
    { cell c par d near far x with Value := v } = cell c par d near far { x with value := v } := by
  cases d <;> rfl

theorem join_opposite (d : Dir) (c : Colour) (t s : RBTree (Cell K V)) (x : Cell K V) :
    join d.opposite c t x s = join d c s x t := by cases d <;> rfl

/-! ## Trees and memories -/

@[simp] theorem shape_join : Shape node par (join d c t x s) ↔
    node x.addr = some (cell c par d (ptr t) (ptr s) x) ∧ Shape node (some x.addr) t ∧
      Shape node (some x.addr) s := by
  cases d
  · rfl
  · simp only [join, Shape, cell, and_comm]

theorem addrs_join : (addrs (join d c t x s)).Perm (x.addr :: addrs t ++ addrs s) := by
  cases d
  · simp [addrs, join, toList]
  · simp only [addrs, join, toList, List.map_append, List.map_cons, List.cons_append]
    exact List.perm_middle.trans (List.perm_append_comm.cons _)

theorem addrs_fill (p : List (Step (Cell K V))) (t : RBTree (Cell K V)) :
    (addrs (fill t p)).Perm (addrs t ++ path_addrs p) := by
  induction p generalizing t with
  | nil => simp [fill, path_addrs]
  | cons s p ih =>
    refine (ih _).trans ((addrs_join.append_right _).trans ?_)
    simp only [path_addrs, List.cons_append, List.append_assoc]
    exact List.perm_middle.symm

theorem ptr_fill (p : List (Step (Cell K V))) (t : RBTree (Cell K V)) :
    ptr (fill t p) = top p (ptr t) := by
  induction p generalizing t with
  | nil => rfl
  | cons s p ih =>
    rw [fill, ih, ptr_join]
    rfl

theorem shape_fill (p : List (Step (Cell K V))) (t : RBTree (Cell K V)) :
    Shape node none (fill t p) ↔ Shape node (up p) t ∧ Above node p (ptr t) := by
  induction p generalizing t with
  | nil => simp [fill, up, Above]
  | cons s p ih =>
    rw [fill, ih, shape_join, ptr_join, up_cons]
    simp only [Above]
    tauto

theorem ptr_mem (h : ptr t = some a) : a ∈ addrs t := by
  cases t with
  | leaf => cases h
  | node c l x r =>
    cases h
    simp [addrs, toList]

theorem addrs_node : addrs (.node c l x r) = addrs l ++ x.addr :: addrs r := by
  simp [addrs, toList]

theorem Shape.congr (h : Shape node par t) (hc : ∀ a ∈ addrs t, node' a = node a) :
    Shape node' par t := by
  induction t generalizing par with
  | leaf => trivial
  | node c l x r hl hr =>
    rw [addrs_node] at hc
    obtain ⟨hx, hls, hrs⟩ := h
    refine ⟨(hc _ (by simp)).trans hx, hl hls fun a ha => hc a (by simp [ha]),
      hr hrs fun a ha => hc a (by simp [ha])⟩

theorem Shape.exists (h : Shape node par t) (hx : x ∈ t.toList) :
    ∃ n, node x.addr = some n ∧ n.Value = x.value := by
  induction t generalizing par with
  | leaf => cases hx
  | node c l y r hl hr =>
    rw [toList, List.mem_append, List.mem_cons] at hx
    obtain ⟨hy, hls, hrs⟩ := h
    rcases hx with hx | rfl | hx
    · exact hl hls hx
    · exact ⟨_, hy, Value_cell _ _ _⟩
    · exact hr hrs hx

theorem Shape.ne_none (h : Shape node par t) (ha : a ∈ addrs t) : node a ≠ none := by
  obtain ⟨x, hx, rfl⟩ := List.mem_map.mp ha
  obtain ⟨n, hn, -⟩ := h.exists hx
  simp [hn]

theorem Above.congr {hole : Option ℕ} (h : Above node p hole)
    (hc : ∀ a ∈ path_addrs p, node' a = node a) : Above node' p hole := by
  induction p generalizing hole with
  | nil => trivial
  | cons s p ih =>
    obtain ⟨hx, hs, hp⟩ := h
    simp only [path_addrs, List.cons_append, List.mem_cons, List.mem_append] at hc
    exact ⟨(hc _ (.inl rfl)).trans hx, hs.congr fun a ha => hc a (.inr (.inl ha)),
      ih hp fun a ha => hc a (.inr (.inr ha))⟩

/-- Only the root of a subtree knows the parent. -/
theorem Shape.reparent (h : Shape node par (.node c l x r)) (hn : (addrs (.node c l x r)).Nodup)
    (hx : node' x.addr = some (cell c q .left (ptr l) (ptr r) x))
    (hc : ∀ a ∈ addrs (.node c l x r), a ≠ x.addr → node' a = node a) :
    Shape node' q (.node c l x r) := by
  rw [addrs_node] at hn hc
  obtain ⟨-, hl, hr⟩ := h
  refine ⟨hx, hl.congr fun a ha => hc a (by simp [ha]) ?_, hr.congr fun a ha => hc a (by simp [ha]) ?_⟩
  · rintro rfl
    exact (List.nodup_append.mp hn).2.2 _ ha _ List.mem_cons_self rfl
  · rintro rfl
    exact (List.nodup_cons.mp (List.nodup_append.mp hn).2.1).1 ha

theorem Rep.focus (h : Rep m (fill t p)) : m._root = top p (ptr t) ∧ Shape m.node (up p) t ∧
    Above m.node p (ptr t) ∧ (addrs t ++ path_addrs p).Nodup :=
  ⟨h.root.trans (ptr_fill p t), ((shape_fill p t).mp h.shape).1, ((shape_fill p t).mp h.shape).2,
    (addrs_fill p t).nodup_iff.mp h.nodup⟩

/-- The pointers have changed, and the nodes are the same. -/
theorem Rep.relinked (h : Rep m (fill t p)) (ht : (addrs s).Perm (addrs t))
    (hdom : ∀ a, m'.node a = none ↔ m.node a = none) (hroot : m'._root = top p (ptr s))
    (hshape : Shape m'.node (up p) s) (habove : Above m'.node p (ptr s)) :
    Rep m' (fill s p) := by
  have hperm : (addrs (fill s p)).Perm (addrs (fill t p)) :=
    ((addrs_fill p s).trans (ht.append_right _)).trans (addrs_fill p t).symm
  refine ⟨hroot.trans (ptr_fill p s).symm, (shape_fill p s).mpr ⟨hshape, habove⟩,
    hperm.nodup_iff.mpr h.nodup, fun a ha => ?_, fun a ha => h.room a (hperm.mem_iff.mp ha)⟩
  exact hperm.mem_iff.mpr (h.only a fun hn => ha ((hdom a).mpr hn))

/-! ## Loads and stores -/

variable {n : MapNode K V} {f : MapNode K V → MapNode K V}

@[simp] theorem returns_load {Q : MapNode K V → Map K V → Prop} (h : m.node a = some n) :
    Returns (load (some a)) m Q ↔ Q n m := by
  unfold load
  simp [h]

@[simp] theorem returns_store {Q : Unit → Map K V → Prop} (h : m.node a = some n) :
    Returns (store (some a) f) m Q ↔ Q () (put a (some (f n)) m) := by
  unfold store
  simp [h]

theorem returns_parent {Q : Option ℕ → Map K V → Prop} (h : m.node a = some n) :
    Returns (parent (some a)) m Q ↔ Q n.Parent m := by
  unfold parent
  simp [h]

theorem returns_red {Q : Bool → Map K V → Prop} (h : m.node a = some n) :
    Returns (red (some a)) m Q ↔ Q (n.Colour = .RED) m := by
  unfold red
  simp [h]

theorem returns_paint {Q : Unit → Map K V → Prop} (h : m.node a = some n) :
    Returns (paint (some a) c) m Q ↔ Q () (put a (some { n with Colour := c }) m) := by
  unfold paint
  simp [h]

theorem returns_new_node {k : K} {v : V} {Q : Option ℕ → Map K V → Prop} (ha : m.node a = none)
    (hroom : a + 24 ≤ PMEM_VA_SIZE) : Returns (new_node a k v) m Q ↔
      Q (some a) (put a (some ⟨k, v, .RED, none, none, none⟩) m) := by
  unfold new_node
  rw [returns_bind, returns_get, if_pos ⟨ha, hroom⟩]
  simp

@[simp] theorem put_node (m : Map K V) (n : Option (MapNode K V)) :
    (put a n m).node = Function.update m.node a n := rfl

@[simp] theorem put_root (m : Map K V) (n : Option (MapNode K V)) :
    (put a n m)._root = m._root := rfl

@[simp] theorem put_count (m : Map K V) (n : Option (MapNode K V)) :
    (put a n m)._count = m._count := rfl

/-- What setting a pointer of a node leaves as it was. -/
structure Keeps (m m' : Map K V) : Prop where
  count : m'._count = m._count
  exist : ∀ a, m'.node a = none ↔ m.node a = none

theorem Keeps.trans {m₁ m₂ m₃ : Map K V} (h : Keeps m₁ m₂) (h' : Keeps m₂ m₃) : Keeps m₁ m₃ :=
  ⟨h'.count.trans h.count, fun a => (h'.exist a).trans (h.exist a)⟩

theorem keeps_put (h : m.node a = some n) (n' : MapNode K V) : Keeps m (put a (some n') m) := by
  refine ⟨rfl, fun b => ?_⟩
  by_cases hb : b = a
  · subst hb
    simp [h]
  · simp [Function.update_of_ne hb]

/-- A subtree becomes the child of a node. -/
theorem set_child_spec (ha : m.node a = some n) (ht : Shape m.node q t) (hn : (addrs t).Nodup)
    (hat : a ∉ addrs t) :
    Returns (set_child d (some a) (ptr t)) m fun _ m' => Keeps m m' ∧ m'._root = m._root ∧
      m'.node a = some (n.set_child (ptr t) d) ∧ Shape m'.node (some a) t ∧
      ∀ b, b ≠ a → b ∉ addrs t → m'.node b = m.node b := by
  unfold set_child
  rw [returns_bind, returns_store ha]
  have hk := keeps_put ha (n.set_child (ptr t) d)
  cases t with
  | leaf =>
    simp only [ptr_leaf, ne_eq, not_true_eq_false, if_false, returns_pure]
    refine ⟨hk, rfl, by simp, trivial, fun b hb _ => ?_⟩
    rw [put_node, Function.update_of_ne hb]
  | node c l x r =>
    have hx : x.addr ∈ addrs (.node c l x r) := ptr_mem rfl
    have hxa : x.addr ≠ a := fun he => hat (he ▸ hx)
    have hnode : (put a (some (n.set_child (ptr (.node c l x r)) d)) m).node x.addr =
        some (cell c q .left (ptr l) (ptr r) x) := by
      rw [put_node, Function.update_of_ne hxa]
      exact ht.1
    rw [if_pos (by simp)]
    simp only [ptr_node] at hnode hk ⊢
    rw [returns_store hnode]
    refine ⟨hk.trans (keeps_put hnode _), rfl, ?_, ?_, fun b hb hbt => ?_⟩
    · simp [Function.update_of_ne hxa.symm]
    · refine ht.reparent hn (by simp [cell]) fun b hb hbx => ?_
      have hba : b ≠ a := fun he => hat (he ▸ hb)
      simp [Function.update_of_ne hbx, Function.update_of_ne hba]
    · have hbx : b ≠ x.addr := fun he => hbt (he ▸ hx)
      simp [Function.update_of_ne hbx, Function.update_of_ne hb]

/-! ## Rotations -/

/-- Whether a node is the left child of its parent. -/
theorem returns_i_am {s : Step (Cell K V)} {Q : Bool → Map K V → Prop} (ha : m.node a = some n)
    (hpar : n.Parent = up (s :: p))
    (hg : m.node s.elem.addr = some (cell s.colour (up p) s.dir (some a) (ptr s.sibling) s.elem))
    (hs : a ∉ addrs s.sibling) :
    Returns (i_am .left (some a)) m Q ↔ Q (decide (s.dir = .left)) m := by
  unfold i_am
  simp only [returns_bind, returns_parent ha, hpar, up_cons, reduceCtorEq, if_false,
    returns_pure, returns_load hg]
  have hchild : decide (some a =
      (cell s.colour (up p) s.dir (some a) (ptr s.sibling) s.elem).child .left) =
        decide (s.dir = .left) := by
    cases hd : s.dir with
    | left => simp [cell, MapNode.child]
    | right =>
      have hne : some a ≠ ptr s.sibling := fun he => hs (ptr_mem he.symm)
      simp [cell, MapNode.child, hne]
  rw [hchild]

/-- A subtree takes the place of a node, with its parent. -/
theorem replace_spec (hroot : m._root = top p (some a)) (habove : Above m.node p (some a))
    (ha : m.node a = some n) (hpar : n.Parent = up p) (ht : Shape m.node q t) (hne : t ≠ .leaf)
    (hnodup : (addrs t ++ path_addrs p).Nodup) (hap : a ∉ path_addrs p) :
    Returns (replace (some a) (ptr t)) m fun _ m' => Keeps m m' ∧ m'._root = top p (ptr t) ∧
      Above m'.node p (ptr t) ∧ Shape m'.node (up p) t ∧
      ∀ b, b ∉ addrs t → b ∉ path_addrs p → m'.node b = m.node b := by
  unfold replace
  cases p with
  | nil =>
    simp only [returns_bind, returns_parent ha, hpar]
    cases t with
    | leaf => exact absurd rfl hne
    | node c l x r =>
      have hx : m.node x.addr = some (cell c q .left (ptr l) (ptr r) x) := ht.1
      have hnodup' : (addrs (.node c l x r)).Nodup := (List.nodup_append.mp hnodup).1
      rw [if_pos (show up [] = none from rfl), returns_bind, returns_modify, ptr_node]
      have hx' : ({ m with _root := some x.addr } : Map K V).node x.addr = _ := hx
      rw [returns_store hx']
      refine ⟨⟨rfl, (keeps_put hx _).exist⟩, rfl, trivial, ?_, fun b hb _ => ?_⟩
      · refine ht.reparent hnodup' (by simp [up, cell]) fun b _ hb => ?_
        rw [put_node, Function.update_of_ne hb]
      · have : b ≠ x.addr := fun he => hb (he ▸ ptr_mem rfl)
        rw [put_node, Function.update_of_ne this]
  | cons s p =>
    obtain ⟨hg, hs, hp⟩ := habove
    obtain ⟨-, -, hdisj⟩ := List.nodup_append.mp hnodup
    simp only [path_addrs, List.cons_append, List.mem_cons, List.mem_append, not_or] at hap hdisj
    have hgt : s.elem.addr ∉ addrs t := fun hmem => hdisj _ hmem _ (.inl rfl) rfl
    have hset : Returns (set_child s.dir (some s.elem.addr) (ptr t)) m fun _ m' => Keeps m m' ∧
        m'._root = top (s :: p) (ptr t) ∧ Above m'.node (s :: p) (ptr t) ∧
        Shape m'.node (some s.elem.addr) t ∧
        ∀ b, b ∉ addrs t → b ∉ path_addrs (s :: p) → m'.node b = m.node b := by
      refine returns_mono (set_child_spec hg ht (List.nodup_append.mp hnodup).1 hgt) ?_
      rintro - m' ⟨hk, hr, hgm, htm, hother⟩
      have hsame : ∀ b ∈ addrs s.sibling ++ path_addrs p, m'.node b = m.node b := by
        intro b hb
        have hnd := (List.nodup_append.mp hnodup).2.1
        simp only [path_addrs, List.cons_append, List.nodup_cons] at hnd
        refine hother b ?_ fun hmem => ?_
        · rintro rfl
          exact hnd.1 hb
        · exact hdisj b hmem b (.inr (List.mem_append.mp hb)) rfl
      refine ⟨hk, hr.trans hroot, ⟨?_, hs.congr fun b hb => hsame b (by simp [hb]),
        hp.congr fun b hb => hsame b (by simp [hb])⟩, htm, fun b hb hbp => hother b ?_ hb⟩
      · rw [hgm, set_child_cell]
      · rintro rfl
        exact hbp (by simp [path_addrs])
    simp only [returns_bind, returns_parent ha, hpar, up_cons]
    rw [if_neg (by simp), returns_bind, returns_i_am ha hpar hg hap.2.1]
    cases hd : s.dir with
    | left =>
      rw [hd] at hset
      simpa [returns_parent ha, hpar] using hset
    | right =>
      rw [hd] at hset
      simpa [returns_parent ha, hpar] using hset

section Rotate

variable {cn cp : Colour} {xn xp : Cell K V} {A B C : RBTree (Cell K V)}

theorem addrs_pivot : (addrs (join d.opposite cn (join d cp B xp A) xn C)).Perm
    (xn.addr :: (xp.addr :: (addrs B ++ addrs A)) ++ addrs C) :=
  addrs_join.trans ((addrs_join.append_right _).cons _)

theorem addrs_rotated : (addrs (join d cp (join d.opposite cn B xn C) xp A)).Perm
    (addrs (join d.opposite cn (join d cp B xp A) xn C)) := by
  refine addrs_join.trans (((addrs_join.append_right _).cons _).trans (.trans ?_ addrs_pivot.symm))
  simp only [List.cons_append, List.append_assoc]
  exact (List.Perm.swap _ _ _).trans (((List.perm_append_comm.append_left _).cons _).cons _)

/-- No node is in two of the parts that a rotation puts together again, `B` being the subtree that
goes from the pivot to the node. -/
structure Rotating (d : Dir) (cn cp : Colour) (xn xp : Cell K V) (A B C : RBTree (Cell K V))
    (p : List (Step (Cell K V))) : Prop where
  pivot : (addrs (join d cp B xp A) ++ path_addrs p).Nodup
  inner : (addrs B).Nodup
  node : (addrs (join d.opposite cn B xn C)).Nodup
  node_apart : xn.addr ∉ addrs (join d cp B xp A) ∧ xn.addr ∉ path_addrs p ∧ xn.addr ∉ addrs B
  pivot_apart : xp.addr ∉ addrs (join d.opposite cn B xn C) ∧ xp.addr ≠ xn.addr ∧ xp.addr ∉ addrs B
  outer_apart : ∀ b ∈ addrs C, b ∉ addrs (join d cp B xp A) ∧ b ≠ xn.addr ∧ b ∉ addrs B ∧
    b ∉ path_addrs p
  rest_apart : ∀ b ∈ addrs A ++ path_addrs p, b ≠ xn.addr ∧ b ∉ addrs B ∧ b ≠ xp.addr ∧
    b ∉ addrs (join d.opposite cn B xn C)

theorem rotating_of_nodup
    (h : (addrs (join d.opposite cn (join d cp B xp A) xn C) ++ path_addrs p).Nodup) :
    Rotating d cn cp xn xp A B C p := by
  have hnd := (addrs_pivot.append_right _).nodup_iff.mp h
  have hpivot : ∀ b, b ∈ addrs (join d cp B xp A) ↔ b = xp.addr ∨ b ∈ addrs B ∨ b ∈ addrs A :=
    fun b => by simp [addrs_join.mem_iff]
  have hnode : ∀ b, b ∈ addrs (join d.opposite cn B xn C) ↔
      b = xn.addr ∨ b ∈ addrs B ∨ b ∈ addrs C := fun b => by simp [addrs_join.mem_iff]
  refine ⟨?_, ?_, ?_, ?_, ?_, fun b hb => ?_, fun b hb => ?_⟩
  · rw [(addrs_join.append_right _).nodup_iff]
    grind
  · grind
  · rw [addrs_join.nodup_iff]
    grind
  · rw [hpivot]
    grind
  · rw [hnode]
    grind
  · rw [hpivot]
    grind
  · rw [hnode]
    grind

theorem rotate_spec (h : Rep m (fill (join d.opposite cn (join d cp B xp A) xn C) p)) :
    Returns (rotate d (some xn.addr)) m fun _ m' =>
      Rep m' (fill (join d cp (join d.opposite cn B xn C) xp A) p) ∧ m'._count = m._count := by
  obtain ⟨hroot, hshape, habove, hnodup⟩ := h.focus
  have hr := rotating_of_nodup hnodup
  rw [shape_join] at hshape
  obtain ⟨hn, hP, hC⟩ := hshape
  rw [ptr_join] at hn
  unfold rotate
  rw [returns_bind, returns_load hn, child_cell]
  simp only [reduceCtorEq, if_false, returns_bind]
  -- the pivot takes the place of the node
  rw [← ptr_join (d := d) (c := cp) (t := B) (x := xp) (s := A)]
  rw [ptr_join] at hroot habove
  refine returns_mono (replace_spec hroot habove hn (Parent_cell _ _ _) hP ?_ hr.pivot
    hr.node_apart.2.1) ?_
  · cases d <;> simp [join]
  rintro - m₁ ⟨hk₁, hr₁, ha₁, hP₁, ho₁⟩
  have hP₁' := shape_join.mp hP₁
  rw [ptr_join] at hr₁ ha₁ ⊢
  rw [returns_load hP₁'.1, child_cell]
  -- its inner child becomes a child of the node
  have hn₁ := (ho₁ _ hr.node_apart.1 hr.node_apart.2.1).trans hn
  refine returns_mono (set_child_spec hn₁ hP₁'.2.1 hr.inner hr.node_apart.2.2) ?_
  rintro - m₂ ⟨hk₂, hr₂, hn₂, hB₂, ho₂⟩
  rw [set_child_cell] at hn₂
  have hp₂ := (ho₂ _ hr.pivot_apart.2.1 hr.pivot_apart.2.2).trans hP₁'.1
  have hN₂ : Shape m₂.node (up p) (join d.opposite cn B xn C) := by
    refine shape_join.mpr ⟨hn₂, hB₂, hC.congr fun b hb => ?_⟩
    obtain ⟨hbP, hbn, hbB, hbp⟩ := hr.outer_apart b hb
    exact (ho₂ b hbn hbB).trans (ho₁ b hbP hbp)
  -- and the node a child of the pivot
  rw [← ptr_join (d := d.opposite) (c := cn) (t := B) (x := xn) (s := C)]
  refine returns_mono (set_child_spec hp₂ hN₂ hr.node hr.pivot_apart.1) ?_
  rintro - m₃ ⟨hk₃, hr₃, hp₃, hN₃, ho₃⟩
  rw [set_child_cell] at hp₃
  have hrest : ∀ b ∈ addrs A ++ path_addrs p, m₃.node b = m₁.node b := by
    intro b hb
    obtain ⟨hbn, hbB, hbp, hbN⟩ := hr.rest_apart b hb
    exact (ho₃ b hbp hbN).trans (ho₂ b hbn hbB)
  have hk := (hk₁.trans hk₂).trans hk₃
  refine ⟨h.relinked addrs_rotated hk.exist ?_ ?_ ?_, hk.count⟩
  · rw [hr₃, hr₂, hr₁, ptr_join]
  · refine shape_join.mpr ⟨hp₃, hN₃, hP₁'.2.2.congr fun b hb => ?_⟩
    exact hrest b (List.mem_append_left _ hb)
  · rw [ptr_join]
    exact ha₁.congr fun b hb => hrest b (List.mem_append_right _ hb)

end Rotate

/-! ## Rebalancing -/

theorem Rep.node_eq (h : Rep m (fill (join d c t x s) p)) :
    m.node x.addr = some (cell c (up p) d (ptr t) (ptr s) x) :=
  (shape_join.mp h.focus.2.1).1

theorem Rep.at_root (h : Rep m (fill t p)) (ha : ptr t = some a) :
    ∃ n, m.node a = some n ∧ n.Parent = up p ∧ n.Colour = t.colour := by
  cases t with
  | leaf => cases ha
  | node c l x r =>
    cases ha
    exact ⟨_, h.focus.2.1.1, Parent_cell _ _ _, Colour_cell _ _ _⟩

theorem Rep.parent {Q : Option ℕ → Map K V → Prop} (h : Rep m (fill t p)) (ha : ptr t = some a) :
    Returns (parent (some a)) m Q ↔ Q (up p) m := by
  obtain ⟨n, hn, hp, -⟩ := h.at_root ha
  rw [returns_parent hn, hp]

theorem Rep.grandparent {s : Step (Cell K V)} {Q : Option ℕ → Map K V → Prop}
    (h : Rep m (fill t (s :: p))) (ha : ptr t = some a) :
    Returns (grandparent (some a)) m Q ↔ Q (up p) m := by
  unfold Map.grandparent
  simp only [returns_bind, h.parent ha, up_cons, reduceCtorEq, if_false]
  exact Rep.parent (t := join s.dir s.colour t s.elem s.sibling) h ptr_join

theorem Rep.red {Q : Bool → Map K V → Prop} (h : Rep m (fill t p)) (ha : ptr t = some a) :
    Returns (red (some a)) m Q ↔ Q (t.colour = .RED) m := by
  obtain ⟨n, hn, -, hc⟩ := h.at_root ha
  rw [returns_red hn, hc]

theorem Rep.red_second {s : Step (Cell K V)} {Q : Bool → Map K V → Prop}
    (h : Rep m (fill t (s :: p))) :
    Returns (Map.red (some s.elem.addr)) m Q ↔ Q (s.colour = .RED) m := by
  have := Rep.red (t := join s.dir s.colour t s.elem s.sibling) (Q := Q) h ptr_join
  rwa [colour_join] at this

/-- A node gets another colour or another value. -/
theorem Rep.update {c' : Colour} {x' : Cell K V} (h : Rep m (fill (join d c t x s) p))
    (hx' : x'.addr = x.addr) :
    Rep (put x.addr (some (cell c' (up p) d (ptr t) (ptr s) x')) m) (fill (join d c' t x' s) p) := by
  have hx := h.node_eq
  obtain ⟨hroot, hshape, habove, hnodup⟩ := h.focus
  have hnd := ((addrs_join.append_right _).nodup_iff).mp hnodup
  obtain ⟨-, ht, hs⟩ := shape_join.mp hshape
  rw [ptr_join] at hroot habove
  have hperm : (addrs (join d c' t x' s)).Perm (addrs (join d c t x s)) := by
    refine addrs_join.trans (List.Perm.trans ?_ addrs_join.symm)
    rw [hx']
  refine h.relinked hperm (keeps_put hx _).exist ?_ ?_ ?_
  · rw [put_root, ptr_join, hx']
    exact hroot
  · refine shape_join.mpr ⟨by simp [hx'], ?_, ?_⟩ <;> rw [hx']
    · exact ht.congr fun b hb => Function.update_of_ne (by grind) _ _
    · exact hs.congr fun b hb => Function.update_of_ne (by grind) _ _
  · rw [ptr_join, hx']
    exact habove.congr fun b hb => Function.update_of_ne (by grind) _ _

theorem paint_spec {e : Colour} (h : Rep m (fill (join d c t x s) p)) :
    Returns (paint (some x.addr) e) m fun _ m' =>
      Rep m' (fill (join d e t x s) p) ∧ m'._count = m._count := by
  rw [returns_paint h.node_eq, with_Colour_cell]
  exact ⟨h.update rfl, rfl⟩

/-- The last part of a turn, when the node and its parent are on the same side. -/
theorem outer_spec {s g : Step (Cell K V)} (h : Rep m (fill t (s :: g :: p)))
    (hd : s.dir = g.dir) (ha : ptr t = some a) :
    Returns (do
        paint (← Map.parent (some a)) .BLACK
        paint (← Map.grandparent (some a)) .RED
        rotate g.dir.opposite (← Map.grandparent (some a))
        pure (some a)) m fun x m' => x = some a ∧
      Rep m' (fill (join g.dir .BLACK t s.elem (join g.dir .RED s.sibling g.elem g.sibling)) p) ∧
      m'._count = m._count := by
  rw [returns_bind, h.parent ha, returns_bind, up_cons]
  refine returns_mono (paint_spec (e := .BLACK) h) ?_
  rintro - m₁ ⟨h₁, hc₁⟩
  have h₁ : Rep m₁ (fill t (⟨s.dir, .BLACK, s.elem, s.sibling⟩ :: g :: p)) := h₁
  rw [returns_bind, h₁.grandparent ha, returns_bind, up_cons]
  refine returns_mono (paint_spec (e := .RED) h₁) ?_
  rintro - m₂ ⟨h₂, hc₂⟩
  have h₂ : Rep m₂ (fill t (⟨s.dir, .BLACK, s.elem, s.sibling⟩ ::
    ⟨g.dir, .RED, g.elem, g.sibling⟩ :: p)) := h₂
  rw [returns_bind, h₂.grandparent ha, returns_bind, up_cons]
  have h₃ : Rep m₂ (fill (join g.dir.opposite.opposite .RED
      (join g.dir.opposite .BLACK s.sibling s.elem t) g.elem g.sibling) p) := by
    rw [Dir.opposite_opposite, join_opposite, ← hd]
    rw [hd]
    exact hd ▸ h₂
  refine returns_mono (rotate_spec h₃) ?_
  rintro - m₃ ⟨h₄, hc₃⟩
  rw [Dir.opposite_opposite, join_opposite] at h₄
  rw [returns_pure]
  exact ⟨rfl, h₄, hc₃.trans (hc₂.trans hc₁)⟩

/-- The tree seen from the uncle. -/
theorem fill_uncle (t : RBTree (Cell K V)) (s g : Step (Cell K V)) (p : List (Step (Cell K V))) :
    fill t (s :: g :: p) =
      fill g.sibling (⟨g.dir.opposite, g.colour, g.elem,
        join s.dir s.colour t s.elem s.sibling⟩ :: p) := by
  simp only [fill, join_opposite]

theorem Rep.red_uncle {s g : Step (Cell K V)} {Q : Bool → Map K V → Prop}
    (h : Rep m (fill t (s :: g :: p))) :
    Returns (if ptr g.sibling = none then pure false else Map.red (ptr g.sibling)) m Q ↔
      Q (g.sibling.colour = .RED) m := by
  rw [fill_uncle] at h
  cases hgs : g.sibling with
  | leaf => simp [colour]
  | node c l x r =>
    rw [hgs] at h
    rw [if_neg (by simp)]
    exact h.red rfl

/-- The uncle is red: it and the parent become black. -/
theorem recolour_spec {s g : Step (Cell K V)} (h : Rep m (fill t (s :: g :: p)))
    (ha : ptr t = some a) (hu : g.sibling.colour = .RED) :
    Returns (do
        paint (← Map.parent (some a)) .BLACK
        paint (ptr g.sibling) .BLACK
        paint (← Map.grandparent (some a)) .RED
        Map.grandparent (some a)) m fun x m' => x = some g.elem.addr ∧
      Rep m' (fill (join g.dir .RED (join s.dir .BLACK t s.elem s.sibling) g.elem
        g.sibling.blacken) p) ∧ m'._count = m._count := by
  obtain ⟨gd, gc, ge, gs⟩ := g
  cases gs with
  | leaf => cases hu
  | node c l x r =>
    rw [returns_bind, h.parent ha, returns_bind, up_cons]
    refine returns_mono (paint_spec (e := .BLACK) h) ?_
    rintro - m₁ ⟨h₁, hc₁⟩
    have h₁ : Rep m₁ (fill t (⟨s.dir, .BLACK, s.elem, s.sibling⟩ ::
      ⟨gd, gc, ge, .node c l x r⟩ :: p)) := h₁
    rw [fill_uncle] at h₁
    rw [returns_bind]
    refine returns_mono (paint_spec (d := .left) (e := .BLACK) h₁) ?_
    rintro - m₂ ⟨h₂, hc₂⟩
    have h₂ : Rep m₂ (fill t (⟨s.dir, .BLACK, s.elem, s.sibling⟩ ::
      ⟨gd, gc, ge, .node .BLACK l x r⟩ :: p)) := by
      rw [fill_uncle]
      exact h₂
    rw [returns_bind, h₂.grandparent ha, returns_bind, up_cons]
    refine returns_mono (paint_spec (e := .RED) h₂) ?_
    rintro - m₃ ⟨h₃, hc₃⟩
    have h₃' : Rep m₃ (fill t (⟨s.dir, .BLACK, s.elem, s.sibling⟩ ::
      ⟨gd, .RED, ge, .node .BLACK l x r⟩ :: p)) := h₃
    rw [h₃'.grandparent ha]
    exact ⟨rfl, h₃, hc₃.trans (hc₂.trans hc₁)⟩

theorem Rep.node_second {s g : Step (Cell K V)} (h : Rep m (fill t (s :: g :: p))) :
    m.node g.elem.addr = some (cell g.colour (up p) g.dir (some s.elem.addr) (ptr g.sibling)
      g.elem) := by
  have := Rep.node_eq (t := join s.dir s.colour t s.elem s.sibling) h
  rwa [ptr_join] at this

/-- A turn of the loop. The tree is then seen from the node that the loop goes on with. -/
theorem turn_spec {s g : Step (Cell K V)} (h : Rep m (fill t (s :: g :: p)))
    (ha : ptr t = some a) (hs : s.colour = .RED) :
    Returns (rebalance_turn g.dir (some a)) m fun x m' => m'._count = m._count ∧
      ((g.sibling.colour = .RED ∧ x = some g.elem.addr ∧
        Rep m' (fill (join g.dir .RED (join s.dir .BLACK t s.elem s.sibling) g.elem
          g.sibling.blacken) p)) ∨
      (g.sibling.colour ≠ .RED ∧ ∃ t' s' b, x = some b ∧ ptr t' = some b ∧ s'.colour = .BLACK ∧
        fill t' [s'] = rotated t s g ∧ Rep m' (fill t' (s' :: p)))) := by
  have hg := h.node_second
  unfold rebalance_turn
  rw [returns_bind, h.grandparent ha, up_cons, returns_bind, returns_load hg,
    child_opposite_cell, returns_bind, h.red_uncle]
  by_cases hu : g.sibling.colour = .RED
  · rw [if_pos (by simpa using hu)]
    refine returns_mono (recolour_spec h ha hu) ?_
    rintro x m' ⟨hx, hr, hc⟩
    exact ⟨hc, .inl ⟨hu, hx, hr⟩⟩
  · rw [if_neg (by simpa using hu)]
    have hsn : m.node s.elem.addr = some (cell s.colour (some g.elem.addr) s.dir (some a)
        (ptr s.sibling) s.elem) := by
      have := Rep.node_eq (p := g :: p) h
      rwa [ha] at this
    rw [returns_bind, h.parent ha, up_cons, returns_bind, returns_load hsn]
    by_cases hd : s.dir = g.dir
    · have hne : ¬some a = (cell s.colour (some g.elem.addr) s.dir (some a) (ptr s.sibling)
          s.elem).child g.dir.opposite := by
        rw [← hd, child_opposite_cell]
        intro he
        have hnd := h.focus.2.2.2
        have hat := ptr_mem ha
        have has := ptr_mem he.symm
        simp only [path_addrs] at hnd
        grind
      rw [if_neg hne]
      refine returns_mono (outer_spec h hd ha) ?_
      rintro x m' ⟨rfl, hr, hc⟩
      refine ⟨hc, .inr ⟨hu, t, ⟨g.dir, .BLACK, s.elem, join g.dir .RED s.sibling g.elem g.sibling⟩,
        a, rfl, ha, rfl, ?_, hr⟩⟩
      unfold rotated
      rw [if_pos hd]
      rfl
    · have hd' := Dir.eq_opposite hd
      have heq : some a = (cell s.colour (some g.elem.addr) s.dir (some a) (ptr s.sibling)
          s.elem).child g.dir.opposite := by
        rw [← hd', child_cell]
      rw [if_pos heq]
      cases t with
      | leaf => cases ha
      | node c l x r =>
        rw [returns_bind, h.parent ha, up_cons, returns_bind]
        have hrot : Rep m (fill (join g.dir.opposite .RED (join g.dir c
            ((RBTree.node c l x r).child g.dir) x ((RBTree.node c l x r).child g.dir.opposite)) s.elem
            s.sibling) (g :: p)) := by
          rw [join_child, ← hd', ← hs]
          exact h
        refine returns_mono (rotate_spec hrot) ?_
        rintro - m₁ ⟨h₁, hc₁⟩
        rw [join_opposite] at h₁
        have h₁ : Rep m₁ (fill (join g.dir .RED s.sibling s.elem ((RBTree.node c l x r).child g.dir))
          (⟨g.dir, c, x, (RBTree.node c l x r).child g.dir.opposite⟩ :: g :: p)) := h₁
        rw [returns_bind, returns_pure]
        refine returns_mono (outer_spec h₁ rfl ptr_join) ?_
        rintro y m' ⟨rfl, hr, hc⟩
        refine ⟨hc.trans hc₁, .inr ⟨hu, _, ⟨g.dir, .BLACK, x, join g.dir .RED
          ((RBTree.node c l x r).child g.dir.opposite) g.elem g.sibling⟩, s.elem.addr, rfl, ptr_join,
          rfl, ?_, hr⟩⟩
        unfold rotated
        rw [if_neg hd]
        rfl

theorem colour_fill (hp : p ≠ []) :
    (fill t p).colour = (fill s p).colour := by
  induction p generalizing t s with
  | nil => exact absurd rfl hp
  | cons s p ih =>
    cases p with
    | nil => simp [fill]
    | cons s' p => exact ih (by simp)

/-- The loop takes another turn if the parent is red. -/
theorem loop_turn {s g : Step (Cell K V)} {turns : ℕ} {Q : Unit → Map K V → Prop}
    (h : Rep m (fill t (s :: g :: p))) (ha : ptr t = some a) (hs : s.colour = .RED) :
    Returns (rebalance_loop (turns + 1) (some a)) m Q ↔
      Returns (rebalance_turn g.dir (some a)) m fun x m' =>
        Returns (rebalance_loop turns x) m' Q := by
  have hg := h.node_second
  rw [rebalance_loop, returns_bind, h.parent ha, up_cons]
  simp only [reduceCtorEq, if_false, returns_bind, h.red_second, hs, decide_true, if_true,
    h.parent ha, up_cons, h.grandparent ha, returns_load hg]
  cases hd : g.dir with
  | left =>
    rw [hd] at hg
    simp [cell]
  | right =>
    have hne : ¬some s.elem.addr = ptr g.sibling := by
      intro he
      have hnd := h.focus.2.2.2
      have has := ptr_mem he.symm
      simp only [path_addrs] at hnd
      grind
    simp [cell, hne]

theorem loop_black {s : Step (Cell K V)} {turns : ℕ} {Q : Unit → Map K V → Prop}
    (h : Rep m (fill t (s :: p))) (ha : ptr t = some a) (hs : s.colour = .BLACK) :
    Returns (rebalance_loop (turns + 1) (some a)) m Q ↔ Q () m := by
  unfold rebalance_loop
  rw [returns_bind, h.parent ha, up_cons]
  simp [h.red_second, hs]

/-- The loop ends, and leaves the tree that is rebalanced from the node up. -/
theorem loop_spec {turns : ℕ} (h : Rep m (fill t p)) (ha : ptr t = some a)
    (hroot : p ≠ [] → (fill t p).colour = .BLACK) (hturns : p.length < turns) :
    Returns (rebalance_loop turns (some a)) m fun _ m' =>
      Rep m' (rebalance t p) ∧ m'._count = m._count := by
  obtain ⟨turns, rfl⟩ := Nat.exists_eq_add_of_le' (Nat.zero_lt_of_lt hturns)
  induction t, p using rebalance.induct generalizing m a turns with
  | case1 t s g p hs =>
    rw [rebalance, if_pos hs, loop_black h ha hs]
    exact ⟨h, rfl⟩
  | case2 t s g p hs hg ih =>
    have hs' : s.colour = .RED := by cases hc : s.colour <;> simp_all
    rw [loop_turn h ha hs', rebalance, if_neg hs, if_pos hg]
    refine returns_mono (turn_spec h ha hs') ?_
    rintro x m' ⟨hc, ⟨-, rfl, hr⟩ | ⟨hng, -⟩⟩
    · have hlen : p.length + 1 < turns := by
        simp only [List.length_cons] at hturns
        omega
      obtain ⟨turns, rfl⟩ := Nat.exists_eq_add_of_le' (Nat.zero_lt_of_lt hlen)
      refine returns_mono (ih hr ptr_join (fun hp => ?_) turns (by omega)) ?_
      · rw [colour_fill hp]
        exact hroot (by simp)
      · rintro - m'' ⟨hr', hc'⟩
        exact ⟨hr', hc'.trans hc⟩
    · exact absurd hg hng
  | case3 t s g p hs hg =>
    have hs' : s.colour = .RED := by cases hc : s.colour <;> simp_all
    rw [loop_turn h ha hs', rebalance, if_neg hs, if_neg hg]
    refine returns_mono (turn_spec h ha hs') ?_
    rintro x m' ⟨hc, ⟨hng, -⟩ | ⟨-, t', s', b, rfl, hb, hs'', hfill, hr⟩⟩
    · exact absurd hng hg
    · have hlen : 0 < turns := by
        simp only [List.length_cons] at hturns
        omega
      obtain ⟨turns, rfl⟩ := Nat.exists_eq_add_of_le' hlen
      rw [loop_black hr hb hs'', ← hfill]
      exact ⟨hr, hc⟩
  | case4 t p hnil =>
    rw [rebalance.eq_2 t p hnil]
    cases p with
    | nil =>
      unfold rebalance_loop
      rw [returns_bind, h.parent ha]
      simpa [up] using h
    | cons s p =>
      cases p with
      | cons g p => exact absurd rfl (hnil s g p)
      | nil =>
        have hs : s.colour = .BLACK := by simpa [fill] using hroot (by simp)
        rw [loop_black h ha hs]
        exact ⟨h, rfl⟩

/-! ## Adding -/

/-- All nodes are at different places in the window. -/
theorem Rep.ne_none (h : Rep m t) (ha : a ∈ addrs t) : m.node a ≠ none := by
  obtain ⟨y, hy, rfl⟩ := List.mem_map.mp ha
  obtain ⟨n, hn, -⟩ := h.shape.exists hy
  rw [hn]
  exact Option.some_ne_none n

theorem Rep.size_lt (h : Rep m t) : t.size + 23 ≤ PMEM_VA_SIZE := by
  have hsub : addrs t ⊆ List.range (PMEM_VA_SIZE - 23) := by
    intro a ha
    have := h.room a ha
    rw [List.mem_range]
    omega
  have hle := (h.nodup.subperm hsub).length_le
  rw [List.length_range, addrs, List.length_map, size_toList] at hle
  have : 23 ≤ PMEM_VA_SIZE := by decide
  omega

theorem Rep.height_lt (h : Rep m t) : t.height < PMEM_VA_SIZE := by
  have := h.size_lt
  have := height_le_size t
  omega

theorem rebalance_insert_spec (h : Rep m (fill (.node .RED .leaf x .leaf) p))
    (hroot : p ≠ [] → (fill (.node .RED .leaf x .leaf) p).colour = .BLACK) :
    Returns (rebalance_insert (some x.addr)) m fun _ m' =>
      Rep m' (rebalance (.node .RED .leaf x .leaf) p).blacken ∧ m'._count = m._count := by
  unfold rebalance_insert
  rw [returns_bind]
  refine returns_mono (paint_spec (d := .left) (e := .RED) h) ?_
  rintro - m₁ ⟨h₁, hc₁⟩
  have h₁ : Rep m₁ (fill (.node .RED .leaf x .leaf) p) := h₁
  have hlen : p.length < PMEM_VA_SIZE := by
    have := h.size_lt
    have := length_le_size_fill p (.node .RED .leaf x .leaf)
    omega
  rw [returns_bind]
  refine returns_mono (loop_spec h₁ rfl hroot hlen) ?_
  rintro - m₂ ⟨h₂, hc₂⟩
  rw [returns_bind, returns_get, h₂.root]
  cases ht : rebalance (.node .RED .leaf x .leaf) p with
  | leaf =>
    have := toList_rebalance (.node .RED .leaf x .leaf) p
    rw [ht, toList_fill] at this
    simp [toList] at this
  | node c l y r =>
    rw [ht] at h₂
    refine returns_mono (paint_spec (d := .left) (p := []) (e := .BLACK) h₂) ?_
    rintro - m₃ ⟨h₃, hc₃⟩
    exact ⟨h₃, hc₃.trans (hc₂.trans hc₁)⟩

end Infos.Util.Map
