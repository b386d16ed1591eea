import Infos.Fs.Nodes
import Mathlib.Data.List.TakeWhile

/-!
# The tree of `VirtualFilesystem`

A node stands for a node of one of the file systems that are mounted, which `PFS` has all
together, with their state `σ`. `mount` is given what `Filesystem::mount` does, so the names of the
file systems are not needed here.
-/

open Infos.Prog Infos.Util

namespace Infos.Fs

structure VFSNode where
  _pn : Option ℕ
  _children : Map UInt64 ℕ

instance instParentVFSNode : Parent VFSNode where
  _children := VFSNode._children
  set_children m n := { n with _children := m }
  children_set _ _ := rfl

/-- The virtual functions of `PFSNode`. -/
structure PFS (σ : Type) where
  get_child : ℕ → List UInt8 → StateT σ (Except Util.Fault) (Option ℕ)
  mkdir : ℕ → List UInt8 → StateT σ (Except Util.Fault) (Option ℕ)

structure Vfs (σ : Type) where
  tree : Nodes VFSNode
  fs : σ

/-- `overrun` is a component that does not fit into the buffer for it. -/
inductive VfsFault where
  | overrun
  | other (e : Util.Fault)
  deriving DecidableEq, Repr

abbrev VfsOp (σ α : Type) := StateT (Vfs σ) (Except VfsFault) α

namespace Vfs

variable {σ α : Type}

def on_tree (x : NodeOp VFSNode α) : VfsOp σ α :=
  zoom tree (fun t v => { v with tree := t }) .other x

def on_fs (x : StateT σ (Except Util.Fault) α) : VfsOp σ α :=
  zoom fs (fun s v => { v with fs := s }) .other x

end Vfs

namespace VFSNode

variable {σ : Type} (alloc : ℕ → ℕ) (P : PFS σ)

def get_child (node : ℕ) (name : List UInt8) : VfsOp σ (Option ℕ) := do
  match (← Vfs.on_tree (Nodes.load node))._pn with
  | none => return none
  | some pn =>
    match ← Vfs.on_tree (Nodes.try_get_child node name) with
    | some child => return some child
    | none =>
      match ← Vfs.on_fs (P.get_child pn name) with
      | none => return none
      | some assoc =>
        let child ← Vfs.on_tree (Nodes.new ⟨some assoc, Map.empty⟩)
        Vfs.on_tree (Nodes.add_child alloc node name child)
        return some child

def mkdir (node : ℕ) (name : List UInt8) : VfsOp σ (Option ℕ) := do
  match (← Vfs.on_tree (Nodes.load node))._pn with
  | none => return none
  | some pn =>
    match ← Vfs.on_fs (P.mkdir pn name) with
    | none => return none
    | some _ => get_child alloc P node name

/-- `fs->mount()` is `fs_mount`. -/
def mount (node : ℕ) (fs_mount : StateT σ (Except Util.Fault) (Option ℕ)) : VfsOp σ Bool := do
  match ← Vfs.on_fs fs_mount with
  | none => return false
  | some pn =>
    Vfs.on_tree (do Nodes.store node { ← Nodes.load node with _pn := some pn })
    Vfs.on_tree (Nodes.children node Map.clear)
    return true

end VFSNode

namespace VirtualFilesystem

variable {σ : Type} (alloc : ℕ → ℕ) (P : PFS σ)

/-- What the loop of `lookup_node` does with a component it has copied. `next` is its next turn. -/
def turn (current_node : ℕ) (component : List UInt8) (next : ℕ → VfsOp σ (Option ℕ)) :
    VfsOp σ (Option ℕ) := do
  if 256 ≤ component.length then throw .overrun
  if component.length = 0 then return some current_node
  match ← VFSNode.get_child alloc P current_node component with
  | none => return none
  | some node => next node

/-- The two loops of `lookup_node`. `component` is what has been copied. At the end of the path, a
turn follows that finds an empty component. -/
def lookup_loop (current_node : ℕ) (component : List UInt8) : List UInt8 → VfsOp σ (Option ℕ)
  | [] => turn alloc P current_node component fun node => return some node
  | c :: path =>
    if c = 47 then turn alloc P current_node component fun node => lookup_loop node [] path
    else lookup_loop current_node (component ++ [c]) path

/-- The path is a string without its end. -/
def lookup_node (_root_node : ℕ) (path : List UInt8) : VfsOp σ (Option ℕ) :=
  match path with
  | [] => return none
  | c :: path =>
    if c ≠ 47 then return none
    else if path = [] then return some _root_node
    else lookup_loop alloc P _root_node [] path

end VirtualFilesystem

/-! ## Trees -/

namespace Vfs

variable {σ : Type} {alloc : ℕ → ℕ} {P : PFS σ} {v v' : Vfs σ} {i j : ℕ} {name : List UInt8}
  {α : Type} {E : VfsFault → Prop}

/-- The children of a node were made after it. -/
structure Tree (v : Vfs σ) : Prop where
  valid : v.tree.Valid
  below : ∀ i hash j, v.tree.child i hash = some j → i < j ∧ j < v.tree.nodes.length

@[simp]
theorem ends_on_tree {x : NodeOp VFSNode α} {Q : α → Vfs σ → Prop} : Ends (on_tree x) v Q E ↔
    Ends x v.tree (fun a t => Q a { v with tree := t }) fun e => E (.other e) := ends_zoom

@[simp]
theorem ends_on_fs {x : StateT σ (Except Util.Fault) α} {Q : α → Vfs σ → Prop} :
    Ends (on_fs x) v Q E ↔
      Ends x v.fs (fun a s => Q a { v with fs := s }) fun e => E (.other e) := ends_zoom

/-- What is left of `get_child` is an `add_child`, or nothing. -/
theorem ends_get_child {Q : Option ℕ → Vfs σ → Prop} {n : VFSNode} (hv : v.tree.Valid)
    (hn : v.tree.nodes[i]? = some n) : Ends (VFSNode.get_child alloc P i name) v Q E ↔
      match n._pn, v.tree.child i (Util.String.compute_hash name) with
      | none, _ => Q none v
      | some _, some c => Q (some c) v
      | some pn, none => Ends (P.get_child pn name) v.fs (fun r s =>
          match r with
          | none => Q none { v with fs := s }
          | some assoc => Ends (Nodes.add_child alloc i name v.tree.nodes.length)
              { v.tree with nodes := v.tree.nodes ++ [⟨some assoc, Map.empty⟩] }
              (fun _ t => Q (some v.tree.nodes.length) ⟨t, s⟩) fun e => E (.other e))
          fun e => E (.other e) := by
  have hi : i < v.tree.nodes.length := (List.getElem?_eq_some_iff.mp hn).1
  unfold VFSNode.get_child
  rw [ends_bind, ends_on_tree, Nodes.ends_load hn]
  cases n._pn with
  | none => rfl
  | some pn =>
    dsimp only
    rw [ends_bind, ends_on_tree, ends_of_eq (hv.try_get_child hi)]
    cases v.tree.child i (Util.String.compute_hash name) with
    | some c => rfl
    | none =>
      dsimp only
      rw [ends_bind, ends_on_fs]
      refine iff_of_eq (congrArg (fun Q => Ends _ _ Q _) (funext fun r => funext fun s => ?_))
      cases r with
      | none => rfl
      | some assoc => simp

theorem Tree.grown {t : Nodes VFSNode} {s : σ} {n : VFSNode} (hv : v.Tree)
    (hi : i < v.tree.nodes.length) (ht : Nodes.Grown v.tree t i name n) : Tree ⟨t, s⟩ := by
  have hlen := ht.length
  refine ⟨ht.valid, fun j hash c hc => ?_⟩
  rw [ht.child] at hc
  split at hc
  next h =>
    obtain rfl := Option.some.inj hc
    dsimp only
    omega
  next =>
    obtain ⟨hjc, hlt⟩ := hv.below j hash c hc
    dsimp only
    omega

/-- A child that is found or made is below the node. -/
theorem Tree.get_child (hv : v.Tree) (hi : i < v.tree.nodes.length) :
    Ends (VFSNode.get_child alloc P i name) v (fun r v' => v'.Tree ∧
      v.tree.nodes.length ≤ v'.tree.nodes.length ∧
      ∀ j, r = some j → i < j ∧ j < v'.tree.nodes.length) fun _ => True := by
  obtain ⟨n, hn⟩ := Nodes.exists_node hi
  rw [ends_get_child hv.valid hn]
  split
  · exact ⟨hv, le_rfl, by simp⟩
  next hc =>
    refine ⟨hv, le_rfl, fun j hj => ?_⟩
    obtain rfl := Option.some.inj hj
    exact hv.below _ _ _ hc
  · refine ends_any (fun o s => ?_) fun _ => trivial
    cases o with
    | none => exact ⟨⟨hv.valid, hv.below⟩, le_rfl, by simp⟩
    | some assoc =>
      refine ends_weaken (hv.valid.grow hi rfl) ?_ fun _ _ => trivial
      intro _ t ht
      have hlen := ht.length
      refine ⟨hv.grown hi ht, by dsimp only; omega, fun j hj => ?_⟩
      obtain rfl := Option.some.inj hj
      dsimp only
      omega

theorem Tree.mkdir (hv : v.Tree) (hi : i < v.tree.nodes.length) :
    Ends (VFSNode.mkdir alloc P i name) v (fun _ v' => v'.Tree ∧
      v.tree.nodes.length ≤ v'.tree.nodes.length) fun _ => True := by
  obtain ⟨n, hn⟩ := Nodes.exists_node hi
  unfold VFSNode.mkdir
  rw [ends_bind, ends_on_tree, Nodes.ends_load hn]
  split
  · exact ⟨hv, le_rfl⟩
  · rw [ends_bind, ends_on_fs]
    refine ends_any (fun o s => ?_) fun _ => trivial
    have hs : Tree { v with fs := s } := ⟨hv.valid, hv.below⟩
    cases o with
    | none => exact ⟨hs, le_rfl⟩
    | some _ => exact ends_mono (hs.get_child hi) fun _ _ h => ⟨h.1, h.2.1⟩

/-- When `fs->mount()` gives a node, that is the node from now on, without children. -/
theorem ends_mount {fs_mount : StateT σ (Except Util.Fault) (Option ℕ)} {Q : Bool → Vfs σ → Prop}
    {n : VFSNode} (hv : v.tree.Valid) (hn : v.tree.nodes[i]? = some n)
    (h : Ends fs_mount v.fs (fun r s =>
      match r with
      | none => Q false { v with fs := s }
      | some pn => Q true ⟨{ v.tree with nodes := v.tree.nodes.set i ⟨some pn, Map.empty⟩ }, s⟩)
      fun e => E (.other e)) :
    Ends (VFSNode.mount i fs_mount) v Q E := by
  have hi : i < v.tree.nodes.length := (List.getElem?_eq_some_iff.mp hn).1
  unfold VFSNode.mount
  rw [ends_bind, ends_on_fs]
  refine ends_mono h fun o s hq => ?_
  cases o with
  | none => exact hq
  | some pn =>
    dsimp only
    rw [ends_bind, ends_on_tree, ends_bind, Nodes.ends_load hn]
    unfold Nodes.store
    rw [ends_modify, ends_bind, ends_on_tree,
      Nodes.ends_children (n := { n with _pn := some pn }) (List.getElem?_set_self hi)]
    refine ends_of_returns (returns_mono (hv n (List.mem_of_getElem? hn)).clear ?_)
    rintro - m rfl
    rw [ends_pure, List.set_set]
    exact hq

theorem child_mounted {pn : ℕ} {k : UInt64} (hi : i < v.tree.nodes.length) :
    Nodes.child { v.tree with nodes := v.tree.nodes.set i ⟨some pn, Map.empty⟩ } j k =
      if j = i then none else v.tree.child j k := by
  split
  next hj =>
    subst hj
    rw [Nodes.child_of (List.getElem?_set_self hi)]
    exact Map.get_empty
  next hj => simp [Nodes.child, List.getElem?_set_ne (Ne.symm hj)]

theorem Tree.mounted {pn : ℕ} {s : σ} (hv : v.Tree) (hi : i < v.tree.nodes.length) :
    Tree ⟨{ v.tree with nodes := v.tree.nodes.set i ⟨some pn, Map.empty⟩ }, s⟩ := by
  refine ⟨fun x hx => ?_, fun j hash c hc => ?_⟩
  · rcases List.mem_or_eq_of_mem_set hx with hx | rfl
    · exact hv.valid x hx
    · exact Map.valid_empty
  · rw [child_mounted hi] at hc
    split at hc
    · cases hc
    · simpa using hv.below j hash c hc

theorem Tree.mount {fs_mount : StateT σ (Except Util.Fault) (Option ℕ)} (hv : v.Tree)
    (hi : i < v.tree.nodes.length) : Ends (VFSNode.mount i fs_mount) v (fun _ v' => v'.Tree ∧
      v.tree.nodes.length ≤ v'.tree.nodes.length) fun _ => True := by
  obtain ⟨n, hn⟩ := Nodes.exists_node hi
  refine ends_mount hv.valid hn (ends_any (fun o s => ?_) fun _ => trivial)
  cases o with
  | none => exact ⟨⟨hv.valid, hv.below⟩, le_rfl⟩
  | some pn => exact ⟨hv.mounted hi, by simp⟩

/-- Each name leads further down. -/
theorem Tree.walk (alloc : ℕ → ℕ) (P : PFS σ) (names : List (List UInt8)) (hv : v.Tree)
    (hi : i < v.tree.nodes.length) :
    Ends (walk_names (VFSNode.get_child alloc P) i names) v (fun r v' => v'.Tree ∧
      ∀ j, r = some j → i ≤ j ∧ (names ≠ [] → i < j) ∧ j < v'.tree.nodes.length)
      fun _ => True := by
  induction names generalizing v i with
  | nil =>
    refine ⟨hv, fun j hj => ?_⟩
    obtain rfl := Option.some.inj hj
    exact ⟨le_rfl, fun h => absurd rfl h, hi⟩
  | cons name names ih =>
    unfold walk_names
    rw [ends_bind]
    refine ends_mono (hv.get_child hi) ?_
    rintro r v₁ ⟨hv₁, -, hr⟩
    cases r with
    | none => exact ⟨hv₁, by simp⟩
    | some c =>
      obtain ⟨hic, hc⟩ := hr c rfl
      refine ends_mono (ih hv₁ hc) ?_
      rintro r v₂ ⟨hv₂, hr₂⟩
      refine ⟨hv₂, fun j hj => ?_⟩
      obtain ⟨hcj, -, hlt⟩ := hr₂ j hj
      exact ⟨by omega, fun _ => by omega, hlt⟩

end Vfs

/-! ## Paths -/

namespace VirtualFilesystem

variable {σ : Type} {alloc : ℕ → ℕ} {P : PFS σ} {v : Vfs σ} {i : ℕ} {path component : List UInt8}

/-- The components that are not empty. The path is without its first slash. -/
def names (path : List UInt8) : List (List UInt8) := (path.splitOn 47).filter (· ≠ [])

/-- Those in front of the first empty component. -/
def names_before (path : List UInt8) : List (List UInt8) := (path.splitOn 47).takeWhile (· ≠ [])

/-- Those behind it. -/
def names_behind (path : List UInt8) : List (List UInt8) :=
  ((path.splitOn 47).dropWhile (· ≠ [])).filter (· ≠ [])

theorem names_eq : names path = names_before path ++ names_behind path := by
  unfold names names_before names_behind
  conv_lhs => rw [← List.takeWhile_append_dropWhile (p := (· ≠ [])) (l := path.splitOn 47)]
  rw [List.filter_append, List.filter_eq_self.mpr fun c hc =>
    List.mem_takeWhile_imp (p := (· ≠ [])) hc]

theorem turn_eq {next : ℕ → VfsOp σ (Option ℕ)} (h : component.length < 256) :
    turn alloc P i component next = if component = [] then pure (some i) else
      VFSNode.get_child alloc P i component >>= fun r =>
        match r with
        | none => pure none
        | some node => next node := by
  unfold turn
  rw [if_neg (Nat.not_le.mpr h)]
  simp only [List.length_eq_zero_iff]

/-- The components that are left, with the one that has been begun. -/
def pieces (component path : List UInt8) : List (List UInt8) :=
  (path.splitOn 47).modifyHead (component ++ ·)

theorem pieces_nil : pieces component [] = [component] := by
  simp [pieces, List.splitOn]

theorem pieces_start : pieces [] path = path.splitOn 47 := by
  unfold pieces
  cases path.splitOn 47 <;> rfl

theorem pieces_slash : pieces component (47 :: path) = component :: pieces [] path := by
  rw [pieces_start]
  simp [pieces, List.splitOn, List.splitOnP_cons_eq_if_modifyHead]

theorem pieces_other {c : UInt8} (h : c ≠ 47) :
    pieces component (c :: path) = pieces (component ++ [c]) path := by
  simp [pieces, List.splitOn, List.splitOnP_cons_eq_if_modifyHead, h, Function.comp_def]

/-- The loop goes down as far as the components are not empty. -/
theorem lookup_loop_eq (h : ∀ c ∈ pieces component path, c.length < 256) :
    lookup_loop alloc P i component path =
      walk_names (VFSNode.get_child alloc P) i ((pieces component path).takeWhile (· ≠ [])) := by
  induction path generalizing i component with
  | nil =>
    rw [pieces_nil] at h ⊢
    unfold lookup_loop
    rw [turn_eq (h component List.mem_cons_self), List.takeWhile_cons]
    by_cases hc : component = []
    · simp [hc, walk_names]
    · rw [if_pos (decide_eq_true hc)]
      exact if_neg hc
  | cons c path ih =>
    unfold lookup_loop
    by_cases hc : c = 47
    · subst hc
      rw [pieces_slash] at h ⊢
      have hnext : ∀ node, lookup_loop alloc P node [] path =
          walk_names (VFSNode.get_child alloc P) node ((pieces [] path).takeWhile (· ≠ [])) :=
        fun node => ih fun x hx => h x (List.mem_cons_of_mem _ hx)
      rw [if_pos rfl, turn_eq (h component List.mem_cons_self), List.takeWhile_cons]
      by_cases hempty : component = []
      · simp [hempty, walk_names]
      · rw [if_pos (decide_eq_true hempty), walk_names]
        simp only [hnext]
        exact if_neg hempty
    · rw [pieces_other hc] at h ⊢
      rw [if_neg hc, ih h]

/-- `lookup_node` goes down by the names in front of the first empty component. -/
theorem lookup_node_eq (h : ∀ c ∈ path.splitOn 47, c.length < 256) :
    lookup_node alloc P i (47 :: path) =
      walk_names (VFSNode.get_child alloc P) i (names_before path) := by
  unfold lookup_node
  rw [← pieces_start] at h
  by_cases hp : path = []
  · simp [hp, names_before, List.splitOn, walk_names]
  · simp only [ne_eq, not_true_eq_false, if_false, hp]
    rw [lookup_loop_eq h, pieces_start]
    rfl

/-- A lookup of an absolute path goes down by all the names in it, if and only if there is none
behind an empty component, or those in front of it lead to no node. -/
theorem lookup_folds (hv : v.Tree) (hi : i < v.tree.nodes.length)
    (h : ∀ c ∈ path.splitOn 47, c.length < 256) :
    (lookup_node alloc P i (47 :: path) v).map Prod.fst =
        (walk_names (VFSNode.get_child alloc P) i (names path) v).map Prod.fst ↔
      names_behind path = [] ∨
        ∀ j v', walk_names (VFSNode.get_child alloc P) i (names_before path) v ≠
          .ok (some j, v') := by
  have hwalk := hv.walk alloc P (names_before path) hi
  rw [lookup_node_eq h, names_eq, walk_names_append, bind_eq]
  unfold Ends at hwalk
  cases hr : walk_names (VFSNode.get_child alloc P) i (names_before path) v with
  | error e => simp
  | ok r =>
    obtain ⟨r, v₁⟩ := r
    rw [hr] at hwalk
    cases r with
    | none =>
      refine iff_of_true rfl (.inr ?_)
      simp
    | some j =>
      obtain ⟨hv₁, hj⟩ := hwalk
      obtain ⟨-, -, hlt⟩ := hj j rfl
      have hdown := hv₁.walk alloc P (names_behind path) hlt
      constructor
      · intro heq
        left
        by_contra hne
        dsimp only at heq
        unfold Ends at hdown
        cases hx : walk_names (VFSNode.get_child alloc P) j (names_behind path) v₁ with
        | error e =>
          rw [hx] at heq
          cases heq
        | ok r =>
          rw [hx] at heq hdown
          exact Nat.lt_irrefl j ((hdown.2 j (Except.ok.inj heq).symm).2.1 hne)
      · rintro (hnil | hno)
        · rw [hnil]
          rfl
        · exact absurd rfl (hno j v₁)

/-- A file system with the directories `/a` and `/a/b`. -/
def two_dirs : PFS Unit where
  get_child pn name := pure (if (pn, name) = (0, [97]) then some 1
    else if (pn, name) = (1, [98]) then some 2 else none)
  mkdir _ _ := pure none

/-- What `init` makes. -/
def initial (pn : ℕ) (fs : σ) : Vfs σ := ⟨⟨[⟨some pn, Map.empty⟩], 0⟩, fs⟩

theorem initial_tree (pn : ℕ) (fs : σ) : (initial pn fs).Tree := by
  have hno : ∀ i hash, (initial pn fs).tree.child i hash = none := by
    intro i hash
    cases i <;> simp [initial, Nodes.child, Parent._children]
  refine ⟨?_, fun i hash j hj => ?_⟩
  · intro n hn
    rw [List.mem_singleton.mp hn]
    exact Map.valid_empty
  · rw [hno] at hj
    cases hj

theorem lookup_folds_slash :
    (lookup_node (64 * ·) two_dirs 0 [47, 97, 47] (initial 0 ())).map Prod.fst =
      (walk_names (VFSNode.get_child (64 * ·) two_dirs) 0 [[97]] (initial 0 ())).map Prod.fst :=
  have hpath : ∀ c ∈ [97, 47].splitOn (47 : UInt8), c.length < 256 := by decide
  (lookup_folds (initial_tree 0 ()) (by decide) hpath).mpr (.inl (by decide))

/-- The lookup of `/a//b` answers `/a`. -/
theorem slashes_cut : ¬ ∀ path : List UInt8, (∀ c ∈ path.splitOn 47, c.length < 256) →
    (lookup_node (64 * ·) two_dirs 0 (47 :: path) (initial 0 ())).map Prod.fst =
      (walk_names (VFSNode.get_child (64 * ·) two_dirs) 0 (names path) (initial 0 ())).map
        Prod.fst := by
  intro h
  have hpath := h [97, 47, 47, 98] (by decide)
  have hcode : ((lookup_node (64 * ·) two_dirs 0 [47, 97, 47, 47, 98] (initial 0 ())).map
      Prod.fst).toOption = some (some 1) := by decide +kernel
  have hwalk : ((walk_names (VFSNode.get_child (64 * ·) two_dirs) 0 (names [97, 47, 47, 98])
      (initial 0 ())).map Prod.fst).toOption = some (some 2) := by decide +kernel
  rw [hpath, hwalk] at hcode
  cases hcode

end VirtualFilesystem

end Infos.Fs
