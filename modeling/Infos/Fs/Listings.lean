import Infos.Fs.Directory

/-!
# Listings and lookups

A listing gives the names that the nodes have themselves, and a lookup goes by the hashes in the
map. The two agree as long as every node is in the map under the hash of its name.
-/

open Infos.Prog Infos.Util Infos.Kernel

namespace Infos.Fs

/-- The nodes are in the maps under the hashes of their names, all but the first one. -/
structure Named (maps : List (Map UInt64 ℕ)) (names : List (List UInt8)) : Prop where
  root : 0 < names.length
  valid : ∀ m ∈ maps, m.Valid
  named : ∀ m ∈ maps, ∀ k j, m.get k = some j →
    0 < j ∧ ∃ n, names[j]? = some n ∧ Util.String.compute_hash n = k

variable {maps : List (Map UInt64 ℕ)} {names : List (List UInt8)} {m : Map UInt64 ℕ}
  {n : List UInt8} {i j : ℕ} {C : List (List UInt8)}

theorem named_root : Named [Map.empty] [n] := by
  refine ⟨Nat.one_pos, fun m hm => ?_, fun m hm k j hj => ?_⟩
  · exact List.mem_singleton.mp hm ▸ Map.valid_empty
  · rw [List.mem_singleton.mp hm, Map.get_empty] at hj
    cases hj

theorem Named.new (h : Named maps names) : Named (maps ++ [Map.empty]) (names ++ [n]) := by
  refine ⟨?_, fun m hm => ?_, fun m hm k j hj => ?_⟩
  · rw [List.length_append]
    exact Nat.add_pos_left h.root _
  · rcases List.mem_append.mp hm with hm | hm
    · exact h.valid m hm
    · exact List.mem_singleton.mp hm ▸ Map.valid_empty
  · rcases List.mem_append.mp hm with hm | hm
    · obtain ⟨hpos, x, hx, hk⟩ := h.named m hm k j hj
      exact ⟨hpos, x, getElem?_concat_eq_some.mpr (.inl hx), hk⟩
    · rw [List.mem_singleton.mp hm, Map.get_empty] at hj
      cases hj

/-- A node is stored under its name. -/
theorem Named.add {m' : Map UInt64 ℕ} (h : Named maps names) (hm : m ∈ maps) (hpos : 0 < j)
    (hj : names[j]? = some n) (hv : m'.Valid)
    (hget : ∀ k, m'.get k = if k = Util.String.compute_hash n then some j else m.get k) :
    Named (maps.set i m') names := by
  refine ⟨h.root, fun x hx => ?_, fun x hx k c hc => ?_⟩
  · rcases List.mem_or_eq_of_mem_set hx with hx | rfl
    · exact h.valid x hx
    · exact hv
  · rcases List.mem_or_eq_of_mem_set hx with hx | rfl
    · exact h.named x hx k c hc
    · rw [hget] at hc
      split at hc
      next hk =>
        obtain rfl := Option.some.inj hc
        exact ⟨hpos, n, hj, hk.symm⟩
      next => exact h.named m hm k c hc

theorem Named.namedBy (h : Named maps names) (hm : m ∈ maps) (hC : ∀ n ∈ names.tail, n ∈ C) :
    NamedBy C m fun j => names[j]?.getD [] := by
  intro k j hj
  obtain ⟨hpos, n, hn, hk⟩ := h.named m hm k j hj
  obtain ⟨j, rfl⟩ := Nat.exists_eq_succ_of_ne_zero hpos.ne'
  dsimp only
  rw [hn]
  refine ⟨hk, hC n (List.mem_of_getElem? (i := j) ?_)⟩
  rwa [List.getElem?_tail]

/-- The entries of a directory have the names of the nodes. -/
theorem Named.lists (h : Named maps names) (hm : m ∈ maps) (hin : ∀ n ∈ names.tail, n ∈ C)
    (hC : Apart C) {es : List (UInt64 × ℕ)} (hnd : (es.map Prod.fst).Nodup)
    (hmem : ∀ k v, (k, v) ∈ es ↔ m.get k = some v) {entry : UInt64 × ℕ → DirectoryEntry}
    (hentry : ∀ e ∈ es, names[e.2]? = some (entry e).name) :
    ListsAll C (fun n => m.get (Util.String.compute_hash n) ≠ none)
      ((es.map entry).map DirectoryEntry.name) := by
  have hlists := (h.namedBy hm hin).lists_all hC hnd hmem
  rw [List.map_map]
  rwa [List.map_congr_left fun e he => by rw [hentry e he]] at hlists

/-- Setting an item to what it looks like already. -/
theorem map_set_same {α β : Type} {l : List α} {f : α → β} {a a' : α} (h : l[i]? = some a)
    (hf : f a' = f a) : (l.set i a').map f = l.map f := by
  refine List.ext_getElem? fun j => ?_
  rw [List.map_set, List.getElem?_set]
  split
  · subst i
    obtain ⟨hi, rfl⟩ := List.getElem?_eq_some_iff.mp h
    simp [hi, hf]
  · rfl

/-! ## Archives -/

/-- The maps and the names of the nodes. -/
def Heap.Named (h : Heap) : Prop :=
  Fs.Named (h.nodes.map TarFSNode._children) (h.nodes.map TarFSNode._name)

namespace TarFSNode

variable {h : Heap} {x x' : TarFSNode} {alloc : ℕ → ℕ} {α : Type} {name : List UInt8}

theorem mem_children (hx : h.nodes[i]? = some x) : x._children ∈ h.nodes.map _children :=
  List.mem_map_of_mem (List.mem_of_getElem? hx)

/-- A call that only reads the map. -/
theorem children_read {o : Util.Op UInt64 ℕ α} {a : α} (hx : h.nodes[i]? = some x)
    (ho : o x._children = .ok (a, x._children)) : children i o h = .ok (a, h) := by
  rw [children_eq hx, ho]
  obtain ⟨hi, rfl⟩ := List.getElem?_eq_some_iff.mp hx
  simp only [Except.map]
  congr 3
  exact List.set_getElem_self hi

theorem get_child_eq (hN : h.Named) (hx : h.nodes[i]? = some x) :
    get_child i name h = .ok (x._children.get (Util.String.compute_hash name), h) :=
  children_read hx (hN.valid _ (mem_children hx)).try_get_value

theorem ends_load_any {Q : TarFSNode → Heap → Prop} (hq : ∀ x, h.nodes[i]? = some x → Q x h) :
    Ends (load i) h Q fun _ => True := by
  cases hx : h.nodes[i]? with
  | none =>
    unfold Ends
    rw [load_null hx]
    trivial
  | some x => exact (ends_load hx).mpr (hq x hx)

theorem ends_children_any {o : Util.Op UInt64 ℕ α} {Q : α → Heap → Prop}
    (hq : ∀ x, h.nodes[i]? = some x → Ends o x._children
      (fun a m => Q a { h with nodes := h.nodes.set i { x with _children := m } }) fun _ => True) :
    Ends (children i o) h Q fun _ => True := by
  cases hx : h.nodes[i]? with
  | none =>
    unfold children
    rw [ends_bind]
    exact ends_load_any fun x hx' => by simp [hx] at hx'
  | some x => exact (ends_children hx).mpr (hq x hx)

theorem get_child_any (hN : h.Named) :
    Ends (get_child i name) h (fun _ h' => h' = h) fun _ => True := by
  cases hx : h.nodes[i]? with
  | none =>
    refine ends_children_any fun x hx' => ?_
    rw [hx] at hx'
    cases hx'
  | some x => exact (ends_of_eq (get_child_eq hN hx)).mpr rfl

theorem named_replace (hN : h.Named) (hx : h.nodes[i]? = some x)
    (hname : x'._name = x._name) (hchildren : x'._children = x._children) :
    Heap.Named { h with nodes := h.nodes.set i x' } := by
  unfold Heap.Named
  rw [map_set_same hx hname, map_set_same hx hchildren]
  exact hN

theorem named_store (hN : h.Named) (hx : h.nodes[i]? = some x) (hpos : 0 < j)
    (hj : (h.nodes.map _name)[j]? = some n) (hv : m.Valid)
    (hget : ∀ k, m.get k = if k = Util.String.compute_hash n then some j else x._children.get k) :
    Heap.Named { h with nodes := h.nodes.set i { x with _children := m } } := by
  have hchildren : (h.nodes.set i { x with _children := m }).map _children =
      (h.nodes.map _children).set i m := List.map_set
  have hname : (h.nodes.set i { x with _children := m }).map _name = h.nodes.map _name :=
    map_set_same hx rfl
  unfold Heap.Named
  rw [hchildren, hname]
  exact hN.add (mem_children hx) hpos hj hv hget

/-- A node is made and stored under its name. -/
theorem named_grow (hN : h.Named) : Ends (new name >>= fun node =>
    add_child alloc i name node >>= fun _ => pure node) h (fun _ h' => h'.Named)
      fun _ => True := by
  have hnew : Heap.Named ⟨h.nodes ++ [⟨Map.empty, name, 0, false, 0⟩], h.requests + 1⟩ := by
    unfold Heap.Named
    rw [List.map_append, List.map_append]
    exact hN.new
  unfold new add_child
  simp only [ends_bind, ends_get, ends_modify, ends_pure]
  refine ends_children_any fun x hx => ?_
  refine ends_weaken (hnew.valid _ (mem_children hx)).add ?_ fun _ _ => trivial
  rintro - m ⟨hm, hget, -⟩
  have hpos : 0 < h.nodes.length := by simpa using hN.root
  exact named_store hnew hx hpos (by simp) hm hget

theorem opendir_lists (hN : h.Named) (hC : Apart C) (hnames : ∀ y ∈ h.nodes.tail, y._name ∈ C)
    (hx : h.nodes[i]? = some x) (hdir : x._has_block_offset = false) :
    ∃ dir es, opendir i h = .ok (some dir, h) ∧ ReadsAll TarFSDirectory.read_entry dir es ∧
      ListsAll C (fun name => ∃ c, get_child i name h = .ok (some c, h))
        (es.map DirectoryEntry.name) := by
  have hmem := mem_children hx
  have hin : ∀ n ∈ (h.nodes.map _name).tail, n ∈ C := by
    intro n hn
    rw [← List.map_tail] at hn
    obtain ⟨y, hy, rfl⟩ := List.mem_map.mp hn
    exact hnames y hy
  obtain ⟨es, hes, hnd, hget, hlen⟩ := (hN.valid _ hmem).iterate
  let entry (e : UInt64 × ℕ) : DirectoryEntry :=
    (h.nodes[e.2]?.map fun c => ⟨c._name, c._size⟩).getD ⟨[], 0⟩
  have hnode : ∀ e ∈ es, ∃ c, h.nodes[e.2]? = some c ∧ entry e = ⟨c._name, c._size⟩ := by
    intro e he
    obtain ⟨-, n, hn, -⟩ := hN.named _ hmem _ _ ((hget _ _).mp he)
    rw [List.getElem?_map, Option.map_eq_some_iff] at hn
    obtain ⟨c, hc, -⟩ := hn
    exact ⟨c, hc, by simp [entry, hc]⟩
  have hload : ∀ e ∈ es, (do
      let c ← load e.2
      return (⟨c._name, c._size⟩ : DirectoryEntry)) h = .ok (entry e, h) := by
    intro e he
    obtain ⟨c, hc, hentry⟩ := hnode e he
    rw [bind_eq, load_eq hc, hentry]
    rfl
  have hfound : (fun name => ∃ c, get_child i name h = .ok (some c, h)) =
      fun name => x._children.get (Util.String.compute_hash name) ≠ none := by
    funext name
    rw [get_child_eq hN hx, Option.ne_none_iff_exists']
    simp
  refine ⟨⟨es.map entry, x._children.count, 0⟩, es.map entry, ?_,
    TarFSDirectory.reads_all (by rw [List.length_map, hlen]), ?_⟩
  · unfold opendir
    rw [bind_eq, load_eq hx]
    dsimp only
    rw [hdir]
    simp only [Bool.false_eq_true, if_false]
    rw [bind_eq, load_eq hx]
    dsimp only
    rw [bind_eq, children_read hx hes]
    dsimp only
    rw [bind_eq, mapM_eq hload]
    rfl
  · rw [hfound]
    refine hN.lists hmem hin hC hnd hget fun e he => ?_
    obtain ⟨c, hc, hentry⟩ := hnode e he
    rw [List.getElem?_map, hc, hentry]
    rfl

end TarFSNode

namespace TarFS

variable {h : Heap} {alloc : ℕ → ℕ} {dev : BlockDevice}

theorem named_loop {path : List (List UInt8)} (hN : h.Named) :
    Ends (build_tree_recursive_loop alloc i path) h (fun _ h' => h'.Named) fun _ => True := by
  induction path generalizing i h with
  | nil => exact hN
  | cons c path ih =>
    unfold build_tree_recursive_loop
    rw [ends_bind]
    refine ends_mono (TarFSNode.get_child_any hN) ?_
    rintro o _ rfl
    cases o with
    | some k => exact ih hN
    | none =>
      have hgrow : Ends (TarFSNode.new c >>= fun node =>
          TarFSNode.add_child alloc i c node >>= fun _ => pure node) _ (fun _ h' => h'.Named)
          fun _ => True := TarFSNode.named_grow hN
      simp only [ends_bind, ends_pure] at hgrow ⊢
      exact ends_mono hgrow fun node h₁ h₂ => ends_mono h₂ fun _ h₃ hN₃ => ih hN₃

theorem named_recursive {root : ℕ} {header : Block} {size : UInt32} (hN : h.Named) :
    Ends (build_tree_recursive alloc root header size) h (fun _ h' => h'.Named)
      fun _ => True := by
  unfold build_tree_recursive
  split
  · trivial
  · rw [ends_bind]
    refine ends_mono (named_loop hN) fun k h₁ hN₁ => ?_
    unfold TarFSNode.set_block_offset TarFSNode.size
    rw [ends_bind, ends_bind]
    refine TarFSNode.ends_load_any fun x hx => ?_
    rw [TarFSNode.ends_store, ends_bind]
    refine TarFSNode.ends_load_any fun y hy => ?_
    exact TarFSNode.named_replace (TarFSNode.named_replace hN₁ hx rfl rfl) hy rfl rfl

theorem named_blocks {root turns : ℕ} {blockCount : UInt32} (hN : h.Named) :
    Ends (build_tree_loop alloc dev root turns blockCount) h (fun _ h' => h'.Named)
      fun _ => True := by
  induction turns generalizing blockCount h with
  | zero => trivial
  | succ turns ih =>
    unfold build_tree_loop
    split
    · cases dev.read_block blockCount.toNat with
      | none => exact hN
      | some buffer =>
        dsimp only
        -- the test of a block for zeroes, with its 512 bytes, is not to be unfolded
        have hif (zero : Bool) (x : TarOp Bool)
            (hx : Ends x h (fun _ h' => h'.Named) fun _ => True) :
            Ends (if zero = true then pure true else x) h (fun _ h' => h'.Named) fun _ => True :=
          ends_ite (fun _ => hN) fun _ => hx
        refine hif _ _ ?_
        refine ends_ite (fun _ => ?_) fun _ => ih hN
        rw [ends_bind]
        exact ends_mono (named_recursive hN) fun _ h' hN' => ih hN'
    · exact hN

/-- The nodes of an archive are stored under their names, whatever is in its blocks. -/
theorem named_tree : Ends (build_tree alloc dev) ⟨[], 0⟩ (fun _ h => h.Named) fun _ => True := by
  have hroot : Heap.Named ⟨[⟨Map.empty, [], 0, false, 0⟩], 0⟩ := named_root
  unfold build_tree TarFSNode.new
  generalize (2 : ℕ) ^ 32 = turns
  simp only [ends_bind, ends_get, ends_modify, ends_pure]
  refine ends_mono (named_blocks hroot) fun o h hN => ?_
  split <;> exact hN

end TarFS

/-! ## Directories that are made -/

namespace TempFS

/-- A `TempFS`, of which the nodes are asked for children and to make directories. All names are
among those of `C`. -/
def system (alloc : ℕ → ℕ) (C : List (List UInt8)) :
    System (Nodes TempFSNode) VfsCall Util.Fault where
  start h := mount ⟨[], 0⟩ = .ok (some 0, h)
  allowed h c := c.node < h.nodes.length ∧ c.name ∈ C
  step h c :=
    match c with
    | .get_child node name => ((pfs alloc).get_child node name h).map Prod.snd
    | .mkdir node name => ((pfs alloc).mkdir node name h).map Prod.snd

/-- The children are stored under their names, which are among those of `C`. -/
structure Kept (C : List (List UInt8)) (h : Nodes TempFSNode) : Prop where
  named : Fs.Named (h.nodes.map TempFSNode._children) (h.nodes.map TempFSNode._name)
  names : ∀ n ∈ (h.nodes.map TempFSNode._name).tail, n ∈ C

variable {h h' : Nodes TempFSNode} {alloc : ℕ → ℕ} {x : TempFSNode} {name : List UInt8}
  {c : VfsCall}

theorem Kept.valid (hk : Kept C h) : h.Valid := fun _ hx =>
  hk.named.valid _ (List.mem_map_of_mem hx)

theorem Kept.grown (hk : Kept C h) (hn : n ∈ C) (hg : h.Grown h' i n ⟨n, Map.empty⟩) :
    Kept C h' := by
  have hnames : h'.nodes.map TempFSNode._name = h.nodes.map TempFSNode._name ++ [n] :=
    hg.field fun _ _ => rfl
  have hroot := hk.named.root
  refine ⟨⟨?_, fun m hm => ?_, fun m hm k j hj => ?_⟩, fun y hy => ?_⟩
  · rw [hnames, List.length_append]
    exact Nat.add_pos_left hroot _
  · obtain ⟨x, hx, rfl⟩ := List.mem_map.mp hm
    exact hg.valid x hx
  · obtain ⟨x, hx, rfl⟩ := List.mem_map.mp hm
    obtain ⟨d, hd⟩ := List.mem_iff_getElem?.mp hx
    have hchild : h'.child d k = some j := (Nodes.child_of hd).trans hj
    rw [hg.child] at hchild
    rw [hnames]
    split at hchild
    next he =>
      obtain rfl := Option.some.inj hchild
      exact ⟨by simpa using hroot, n, by simp, he.2.symm⟩
    next =>
      obtain ⟨x', hx'⟩ := Nodes.exists_node (Nodes.child_lt hchild)
      rw [Nodes.child_of hx'] at hchild
      have hmem : x'._children ∈ h.nodes.map TempFSNode._children :=
        List.mem_map_of_mem (List.mem_of_getElem? hx')
      obtain ⟨hpos, y, hy, hk'⟩ := hk.named.named _ hmem k j hchild
      exact ⟨hpos, y, getElem?_concat_eq_some.mpr (.inl hy), hk'⟩
  · rw [hnames, List.tail_append_of_ne_nil (List.ne_nil_of_length_pos hroot)] at hy
    rcases List.mem_append.mp hy with hy | hy
    · exact hk.names y hy
    · rwa [List.mem_singleton.mp hy]

theorem Kept.step (hk : Kept C h) (hc : (system alloc C).allowed h c)
    (hs : (system alloc C).step h c = .ok h') : Kept C h' := by
  obtain ⟨hlt, hname⟩ := hc
  cases c with
  | get_child i n =>
    obtain ⟨r, hx, rfl⟩ := map_eq_ok hs
    have hget : TempFSNode.get_child i n h = .ok r := hx
    unfold TempFSNode.get_child at hget
    rw [hk.valid.try_get_child (show i < _ from hlt)] at hget
    cases hget
    exact hk
  | mkdir i n =>
    obtain ⟨r, hx, rfl⟩ := map_eq_ok hs
    obtain ⟨-, hg⟩ := ends_ok (VfsCall.ends_mkdir hk.valid hlt) hx
    exact hk.grown hname hg

theorem Kept.reachable (hr : (system alloc C).Reachable h) : Kept C h := by
  refine hr.preserves (fun h₀ h0 => ?_) fun _ _ _ hk hc hs => hk.step hc hs
  cases h0
  exact ⟨named_root, by simp⟩

theorem opendir_lists (hk : Kept C h) (hC : Apart C) (hx : h.nodes[i]? = some x) :
    ∃ dir es, TempFSNode.opendir i h = .ok (some dir, h) ∧
      ReadsAll SimpleDirectory.read_entry dir es ∧
      ListsAll C (fun name => ∃ c, TempFSNode.get_child i name h = .ok (some c, h))
        (es.map DirectoryEntry.name) := by
  have hmem : x._children ∈ h.nodes.map TempFSNode._children :=
    List.mem_map_of_mem (List.mem_of_getElem? hx)
  obtain ⟨es, hes, hnd, hget, hlen⟩ := (hk.named.valid _ hmem).iterate
  let entry (e : UInt64 × ℕ) : DirectoryEntry :=
    (h.nodes[e.2]?.map fun c : TempFSNode => ⟨c._name, 0⟩).getD ⟨[], 0⟩
  have hnode : ∀ e ∈ es, ∃ c, h.nodes[e.2]? = some c ∧ entry e = ⟨c._name, 0⟩ := by
    intro e he
    obtain ⟨-, n, hn, -⟩ := hk.named.named _ hmem _ _ ((hget _ _).mp he)
    rw [List.getElem?_map, Option.map_eq_some_iff] at hn
    obtain ⟨c, hc, -⟩ := hn
    exact ⟨c, hc, by simp [entry, hc]⟩
  have hload : ∀ e ∈ es, (do
      let c : TempFSNode ← Nodes.load e.2
      return (⟨c._name, 0⟩ : DirectoryEntry)) h = .ok (entry e, h) := by
    intro e he
    obtain ⟨c, hc, hentry⟩ := hnode e he
    rw [bind_eq, Nodes.load_eq hc, hentry]
    rfl
  have hfound : (fun name => ∃ c, TempFSNode.get_child i name h = .ok (some c, h)) =
      fun name => x._children.get (Util.String.compute_hash name) ≠ none := by
    funext name
    unfold TempFSNode.get_child
    rw [hk.valid.try_get_child (List.getElem?_eq_some_iff.mp hx).1, Nodes.child_of hx,
      Option.ne_none_iff_exists']
    simp [Parent._children]
  refine ⟨⟨es.map entry, 0⟩, es.map entry, ?_, SimpleDirectory.reads_all ?_, ?_⟩
  · unfold TempFSNode.opendir
    rw [bind_eq, Nodes.children_read hx rfl hes]
    dsimp only
    rw [bind_eq, mapM_eq hload]
    rfl
  · rw [List.length_map, hlen]
    exact UInt32.toNat_lt _
  · rw [hfound]
    refine hk.named.lists hmem hk.names hC hnd hget fun e he => ?_
    obtain ⟨c, hc, hentry⟩ := hnode e he
    rw [List.getElem?_map, hc, hentry]
    rfl

end TempFS

/-! ## Devices -/

namespace DeviceFSRootNode

open Kernel.DeviceManager

/-- The call stores its device under the name that the device has then, and under no other. -/
def Proper (device_class : ℕ → DeviceClass) (dm : DeviceManager) : Call → Prop
  | .enter d => ∀ k, dm._devices.get k = some d →
      k = Util.String.compute_hash (dm.new_name device_class d)
  | .add_device_alias name d => name = dm.names d

/-- The listing of the devices gives the names for which there is a device. -/
def Lists (C : List (List UInt8)) (dm : DeviceManager) : Prop :=
  ∃ dir es, opendir dm = .ok (some dir, dm) ∧ ReadsAll SimpleDirectory.read_entry dir es ∧
    ListsAll C (fun name => ∃ d, get_child name dm = .ok (some d, dm))
      (es.map DirectoryEntry.name)

variable {device_class : ℕ → DeviceClass} {alloc : ℕ → ℕ} {dm dm' : DeviceManager} {c : Call}

theorem opendir_eq (hv : dm._devices.Valid) : ∃ es : List (UInt64 × ℕ),
    (es.map Prod.fst).Nodup ∧ (∀ k v, (k, v) ∈ es ↔ dm._devices.get k = some v) ∧
      es.length < 2 ^ 32 ∧
      opendir dm = .ok (some ⟨es.map fun e => ⟨dm.names e.2, 0⟩, 0⟩, dm) := by
  obtain ⟨es, hes, hnd, hmem, hlen⟩ := hv.iterate
  refine ⟨es, hnd, hmem, hlen ▸ UInt32.toNat_lt _, ?_⟩
  have hdev : devices dm = .ok (es.map Prod.snd, dm) := by
    unfold devices on_devices
    rw [bind_eq, zoom, hes]
    rfl
  unfold opendir
  rw [bind_eq, hdev]
  simp only [List.map_map, Function.comp_def]
  rfl

theorem lists_iff (hv : dm._devices.Valid) : Lists C dm ↔ ∃ es : List (UInt64 × ℕ),
    (es.map Prod.fst).Nodup ∧ (∀ k v, (k, v) ∈ es ↔ dm._devices.get k = some v) ∧
      ListsAll C (fun n => dm._devices.get (Util.String.compute_hash n) ≠ none)
        (es.map fun e => dm.names e.2) := by
  have hfound : (fun name => ∃ d, get_child name dm = .ok (some d, dm)) =
      fun name => dm._devices.get (Util.String.compute_hash name) ≠ none := by
    funext name
    unfold get_child
    rw [try_get_device_by_name_eq hv, Option.ne_none_iff_exists']
    simp
  obtain ⟨es, hnd, hmem, hlen, hopen⟩ := opendir_eq hv
  have hreads : ReadsAll SimpleDirectory.read_entry
      ⟨es.map fun e => ⟨dm.names e.2, 0⟩, 0⟩ (es.map fun e => ⟨dm.names e.2, 0⟩) :=
    SimpleDirectory.reads_all (by rwa [List.length_map])
  have hnames : (es.map fun e => (⟨dm.names e.2, 0⟩ : DirectoryEntry)).map DirectoryEntry.name =
      es.map fun e => dm.names e.2 := by
    rw [List.map_map]
    rfl
  unfold Lists
  rw [hfound]
  constructor
  · rintro ⟨dir, ds, ho, hr, hl⟩
    rw [hopen] at ho
    cases ho
    rw [hr.unique hreads, hnames] at hl
    exact ⟨es, hnd, hmem, hl⟩
  · rintro ⟨es', hnd', hmem', hl⟩
    have hperm : es'.Perm es := by
      refine (List.perm_ext_iff_of_nodup (.of_map _ hnd') (.of_map _ hnd)).mpr ?_
      rintro ⟨k, v⟩
      rw [hmem, hmem']
    refine ⟨_, _, hopen, hreads, ?_⟩
    rw [hnames]
    exact hl.perm (hperm.map _)

/-- A proper call keeps every device under its name. -/
theorem named_step (hn : NamedBy C dm._devices dm.names) (hp : Proper device_class dm c)
    (hname : c.name device_class dm ∈ C) (hst : Stored dm dm' (c.name device_class dm) c.device)
    (hren : (dm'.names, dm'.instances) = c.rename device_class dm) :
    NamedBy C dm'._devices dm'.names := by
  intro k j hj
  rw [hst.get] at hj
  cases c with
  | enter d =>
    rw [show dm'.names = Function.update dm.names d _ from congrArg Prod.fst hren]
    split at hj
    next hk =>
      obtain rfl : d = j := Option.some.inj hj
      rw [Function.update_self]
      exact ⟨hk.symm, hname⟩
    next hk =>
      rw [Function.update_of_ne]
      · exact hn k j hj
      · rintro rfl
        exact hk (hp k hj)
  | add_device_alias name d =>
    rw [show dm'.names = dm.names from congrArg Prod.fst hren]
    split at hj
    next hk =>
      obtain rfl : d = j := Option.some.inj hj
      obtain rfl : name = dm.names d := hp
      exact ⟨hk.symm, hname⟩
    next => exact hn k j hj

/-- Any other call breaks the listing at once. -/
theorem broken_step (hn : NamedBy C dm._devices dm.names) (hp : ¬ Proper device_class dm c)
    (hname : c.name device_class dm ∈ C) (hst : Stored dm dm' (c.name device_class dm) c.device)
    (hren : (dm'.names, dm'.instances) = c.rename device_class dm) : ¬ Lists C dm' := by
  intro hl
  obtain ⟨es, -, hmem, hlists⟩ := (lists_iff hst.valid).mp hl
  simp only [hst.get] at hmem
  cases c with
  | enter d =>
    simp only [Proper, not_forall] at hp
    obtain ⟨k, hk, hne⟩ := hp
    have hold : (k, d) ∈ es := (hmem k d).mpr ((if_neg hne).trans hk)
    have hnew := (hmem _ d).mpr (if_pos rfl)
    have heq := List.inj_on_of_nodup_map hlists.once hold hnew rfl
    exact hne (congrArg Prod.fst heq)
  | add_device_alias name d =>
    rw [show dm'.names = dm.names from congrArg Prod.fst hren] at hlists
    have hfound := hlists.complete name hname (by simp [hst.get, Call.name])
    obtain ⟨⟨k, j⟩, he, hj⟩ := List.mem_map.mp hfound
    have hget := (hmem k j).mp he
    dsimp only at hj
    split at hget
    next =>
      obtain rfl : d = j := Option.some.inj hget
      exact hp hj.symm
    next hk =>
      have hhash := (hn k j hget).1
      rw [hj] at hhash
      exact hk hhash.symm

theorem NamedBy.lists (hn : NamedBy C dm._devices dm.names) (hv : dm._devices.Valid)
    (hC : Apart C) : Lists C dm := by
  obtain ⟨es, -, hnd, hmem, -⟩ := hv.iterate
  exact (lists_iff hv).mpr ⟨es, hnd, hmem, hn.lists_all hC hnd hmem⟩

/-- Every call of `cs` is proper in the state in which it is made. -/
def AllProper (alloc : ℕ → ℕ) (device_class : ℕ → DeviceClass) (C : List (List UInt8))
    (cs : List Call) : Prop :=
  ∀ ds c dm, ds ++ [c] <+: cs → (system alloc device_class (· ∈ C)).Run start ds dm →
    Proper device_class dm c

variable {cs : List Call}

theorem AllProper.before (h : AllProper alloc device_class C (cs ++ [c])) :
    AllProper alloc device_class C cs := fun ds d dm hds =>
  h ds d dm (hds.trans (List.prefix_append _ _))

theorem named_run (hr : (system alloc device_class (· ∈ C)).Run start cs dm)
    (hp : AllProper alloc device_class C cs) :
    NamedBy C dm._devices dm.names ∧ dm._devices.Valid := by
  induction cs using List.reverseRecOn generalizing dm with
  | nil =>
    cases hr
    refine ⟨fun k j hj => ?_, Map.valid_empty⟩
    simp [start] at hj
  | append_singleton cs c ih =>
    obtain ⟨u, hu, hname, hs⟩ := hr.last
    obtain ⟨hn, hv⟩ := ih hu hp.before
    obtain ⟨hst, hren⟩ := stored_step hv hs
    exact ⟨named_step hn (hp cs c u (List.prefix_refl _) hu) hname hst hren, hst.valid⟩

theorem all_proper (hr : (system alloc device_class (· ∈ C)).Run start cs dm)
    (h : ∀ ds dm, ds <+: cs → (system alloc device_class (· ∈ C)).Run start ds dm → Lists C dm) :
    AllProper alloc device_class C cs := by
  induction cs using List.reverseRecOn generalizing dm with
  | nil =>
    intro ds c _ hds
    simp at hds
  | append_singleton cs c ih =>
    obtain ⟨u, hu, hname, hs⟩ := hr.last
    have hp := ih hu fun ds dm hds => h ds dm (hds.trans (List.prefix_append _ _))
    obtain ⟨hn, hv⟩ := named_run hu hp
    obtain ⟨hst, hren⟩ := stored_step hv hs
    intro ds d w hds hw
    rcases List.prefix_concat_iff.mp hds with heq | hpre
    · obtain ⟨rfl, hd⟩ := List.append_inj' heq rfl
      obtain rfl : d = c := by simpa using hd
      obtain rfl := hu.unique hw
      by_contra hno
      exact broken_step hn hno hname hst hren (h _ _ (List.prefix_refl _) hr)
    · exact hp ds d w hpre hw

end DeviceFSRootNode

/-! ## All three -/

/-- In archives and in `TempFS`, listings match lookups in every state. For the devices they do in
all the states of a run, if and only if every device is only ever stored under the name it has. -/
theorem listings_match (hC : Apart C) (alloc : ℕ → ℕ) :
    (∀ dev r h i x, TarFS.build_tree alloc dev ⟨[], 0⟩ = .ok (r, h) →
      (∀ y ∈ h.nodes.tail, y._name ∈ C) → h.nodes[i]? = some x → x._has_block_offset = false →
      ∃ dir es, TarFSNode.opendir i h = .ok (some dir, h) ∧
        ReadsAll TarFSDirectory.read_entry dir es ∧
        ListsAll C (fun name => ∃ c, TarFSNode.get_child i name h = .ok (some c, h))
          (es.map DirectoryEntry.name)) ∧
    (∀ h i x, (TempFS.system alloc C).Reachable h → h.nodes[i]? = some x →
      ∃ dir es, TempFSNode.opendir i h = .ok (some dir, h) ∧
        ReadsAll SimpleDirectory.read_entry dir es ∧
        ListsAll C (fun name => ∃ c, TempFSNode.get_child i name h = .ok (some c, h))
          (es.map DirectoryEntry.name)) ∧
    ∀ device_class cs dm, (DeviceManager.system alloc device_class (· ∈ C)).Run
        DeviceManager.start cs dm →
      ((∀ ds dm', ds <+: cs → (DeviceManager.system alloc device_class (· ∈ C)).Run
          DeviceManager.start ds dm' → DeviceFSRootNode.Lists C dm') ↔
        DeviceFSRootNode.AllProper alloc device_class C cs) := by
  refine ⟨fun dev r h i x hb hnames hx hdir => ?_, fun h i x hr hx => ?_,
    fun device_class cs dm hr => ⟨fun h => ?_, fun hp ds dm' hds hr' => ?_⟩⟩
  · have hN := ends_ok TarFS.named_tree hb
    exact TarFSNode.opendir_lists hN hC hnames hx hdir
  · exact TempFS.opendir_lists (TempFS.Kept.reachable hr) hC hx
  · exact DeviceFSRootNode.all_proper hr h
  · obtain ⟨hn, hv⟩ := DeviceFSRootNode.named_run hr' fun fs c u hfs =>
      hp fs c u (hfs.trans hds)
    exact DeviceFSRootNode.NamedBy.lists hn hv hC

namespace DeviceFSRootNode

open Kernel.DeviceManager

/-- `0` is the name of the first device of a class without a name, and `c` an alias. -/
def two_names : List (List UInt8) := [[48], [99]]

theorem first_proper : AllProper (64 * ·) plain_devices two_names [.enter 0] := by
  intro ds c dm hds hr
  have hlen : (ds ++ [c]).length ≤ 1 := hds.length_le
  obtain rfl : ds = [] := by
    rw [List.length_append, List.length_singleton] at hlen
    exact List.eq_nil_of_length_eq_zero (by omega)
  obtain rfl : c = .enter 0 := by simpa using hds
  cases hr
  intro k hk
  simp [start] at hk

instance (dm : DeviceManager) (c : Call) :
    Decidable ((system alloc device_class (· ∈ C)).allowed dm c) :=
  inferInstanceAs (Decidable (_ ∈ C))

end DeviceFSRootNode

open Kernel.DeviceManager in
theorem listings_match_first : ∃ dm, (system (64 * ·) plain_devices
      (· ∈ DeviceFSRootNode.two_names)).Run start [.enter 0] dm ∧
    DeviceFSRootNode.Lists DeviceFSRootNode.two_names dm := by
  have hsome : ((system (64 * ·) plain_devices (· ∈ DeviceFSRootNode.two_names)).exec start
      [.enter 0]).isSome := by decide +kernel
  obtain ⟨dm, hdm⟩ := Option.isSome_iff_exists.mp hsome
  have hr := System.run_of_exec hdm
  have hC : Apart DeviceFSRootNode.two_names := by
    unfold Apart
    decide +kernel
  refine ⟨dm, hr, ?_⟩
  exact ((listings_match hC (64 * ·)).2.2 plain_devices _ dm hr).mpr
    DeviceFSRootNode.first_proper _ _ (List.prefix_refl _) hr

open Kernel.DeviceManager in
/-- A device is registered and given an alias. -/
theorem alias_not_listed : ¬ ∀ cs dm, (system (64 * ·) plain_devices
      (· ∈ DeviceFSRootNode.two_names)).Run start cs dm →
    DeviceFSRootNode.Lists DeviceFSRootNode.two_names dm := by
  intro h
  have hsome : ((system (64 * ·) plain_devices (· ∈ DeviceFSRootNode.two_names)).exec start
      ([.enter 0] ++ [.add_device_alias [99] 0])).isSome := by decide +kernel
  obtain ⟨dm, hdm⟩ := Option.isSome_iff_exists.mp hsome
  have hr := System.run_of_exec hdm
  obtain ⟨u, hu, hname, hs⟩ := hr.last
  obtain ⟨hn, hv⟩ := DeviceFSRootNode.named_run hu DeviceFSRootNode.first_proper
  obtain ⟨hst, hren⟩ := stored_step hv hs
  refine DeviceFSRootNode.broken_step hn (fun hp => ?_) hname hst hren (h _ _ hr)
  have hnames : u.names 0 = [48] := by
    cases hu with
    | cons hc hs' hr' =>
      cases hr'
      have hrun : (Call.run (64 * ·) plain_devices (.enter 0) start).map Prod.snd = .ok u := hs'
      obtain ⟨-, hren'⟩ := stored_step Map.valid_empty hrun
      rw [show u.names = _ from congrArg Prod.fst hren']
      decide
  exact absurd (hp.trans hnames) (by decide)

end Infos.Fs
