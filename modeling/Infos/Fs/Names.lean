import Infos.Fs.Listings
import Infos.Lib.Keyed

/-!
# Names and their hashes

The tables of nodes and of devices have the hashes of the names. Two names with one hash are one
name to them.
-/

open Infos.Prog Infos.Util Infos.Kernel

namespace Infos.Fs

/-- What the tables know of a name. -/
def SameHash (a b : List UInt8) : Prop :=
  Util.String.compute_hash a = Util.String.compute_hash b

abbrev Puts (P : Type) := List (Put P (List UInt8) ℕ)

/-! ## Archives -/

namespace TarFSNode

/-- The calls by which a tree is made and searched. -/
inductive Call where
  | new (name : List UInt8)
  | add_child (node : ℕ) (name : List UInt8) (child : ℕ)
  | get_child (node : ℕ) (name : List UInt8)
  | set_block_offset (node : ℕ) (offset : UInt32)
  | size (node : ℕ) (size : UInt32)

def Call.run (alloc : ℕ → ℕ) : Call → TarOp Unit
  | .new name => do let _ ← TarFSNode.new name
  | .add_child node name child => TarFSNode.add_child alloc node name child
  | .get_child node name => do let _ ← TarFSNode.get_child node name
  | .set_block_offset node offset => TarFSNode.set_block_offset node offset
  | .size node s => TarFSNode.size node s

def Call.Allowed (h : Heap) : Call → Prop
  | .new _ => True
  | .add_child node _ _ | .get_child node _ | .set_block_offset node _ | .size node _ =>
    node < h.nodes.length

def Call.log (_ : Heap) (c : Call) (_ : Unit) (puts : Puts ℕ) : Puts ℕ :=
  match c with
  | .add_child node name child => puts ++ [⟨node, name, child⟩]
  | _ => puts

def calls (alloc : ℕ → ℕ) : System (Heap × Puts ℕ) Call Util.Fault :=
  logged (fun h => h = ⟨[], 0⟩) Call.Allowed (Call.run alloc) Call.log

/-- The child with the hash. -/
def child (h : Heap) (node : ℕ) (hash : UInt64) : Option ℕ :=
  h.nodes[node]?.bind fun x => x._children.get hash

def Valid (h : Heap) : Prop := ∀ x ∈ h.nodes, x._children.Valid

variable {h h' : Heap} {x x' : TarFSNode} {alloc : ℕ → ℕ} {i j : ℕ} {name : List UInt8}
  {puts : Puts ℕ} {k : UInt64}

theorem child_set (hx : h.nodes[i]? = some x) :
    child { h with nodes := h.nodes.set i x' } j k =
      if j = i then x'._children.get k else child h j k := by
  unfold child
  split
  next hj =>
    subst hj
    simp [(List.getElem?_eq_some_iff.mp hx).1]
  next hj => simp [List.getElem?_set_ne (Ne.symm hj)]

theorem Valid.set (hv : Valid h) (hx : x'._children.Valid) :
    Valid { h with nodes := h.nodes.set i x' } := by
  intro y hy
  rcases List.mem_or_eq_of_mem_set hy with hy | rfl
  · exact hv y hy
  · exact hx

/-- A node is changed, but not its children. -/
theorem Valid.replace (hv : Valid h) (hx : h.nodes[i]? = some x)
    (hsame : x'._children = x._children) (hk : Keyed Util.String.compute_hash (child h) puts) :
    Valid { h with nodes := h.nodes.set i x' } ∧
      Keyed Util.String.compute_hash (child { h with nodes := h.nodes.set i x' }) puts := by
  refine ⟨hv.set (hsame ▸ hv x (List.mem_of_getElem? hx)), hk.congr fun j k => ?_⟩
  rw [child_set hx]
  split
  next hj => simp [hj, child, hx, hsame]
  next => rfl

theorem lookup_eq (hv : Valid h) (hx : h.nodes[i]? = some x) :
    get_child i name h = .ok (child h i (Util.String.compute_hash name), h) := by
  simp only [child, hx, Option.bind_some]
  exact children_read hx (hv x (List.mem_of_getElem? hx)).try_get_value

theorem lookup_iff {c : ℕ} (hv : Valid h) : get_child i name h = .ok (some c, h) ↔
    child h i (Util.String.compute_hash name) = some c := by
  cases hx : h.nodes[i]? with
  | none =>
    have hfault : get_child i name h = .error .null := by
      unfold get_child children
      rw [bind_eq, load_null hx]
    simp [hfault, child, hx]
  | some x => simp [lookup_eq hv hx]

theorem keyed_step {c : Call} {r : Unit} (hv : Valid h) (hc : c.Allowed h)
    (hs : c.run alloc h = .ok (r, h')) (hk : Keyed Util.String.compute_hash (child h) puts) :
    Valid h' ∧ Keyed Util.String.compute_hash (child h') (c.log h r puts) := by
  have hends : Ends (c.run alloc) h (fun _ h' => Valid h' ∧
      Keyed Util.String.compute_hash (child h') (c.log h r puts)) fun _ => True := by
    cases c with
    | new name =>
      unfold Call.run new
      simp only [ends_bind, ends_get, ends_modify, ends_pure]
      refine ⟨fun x hx => ?_, hk.congr fun j k => ?_⟩
      · rcases List.mem_append.mp hx with hx | hx
        · exact hv x hx
        · exact List.mem_singleton.mp hx ▸ Map.valid_empty
      · unfold child
        rcases Nat.lt_trichotomy j h.nodes.length with hj | rfl | hj
        · simp [List.getElem?_append_left hj]
        · simp
        · rw [List.getElem?_eq_none hj.le, List.getElem?_eq_none]
          simpa using Nat.succ_le_of_lt hj
    | add_child i name c =>
      obtain ⟨x, hx⟩ : ∃ x, h.nodes[i]? = some x := ⟨_, List.getElem?_eq_getElem hc⟩
      have hx' : (Heap.mk h.nodes (h.requests + 1)).nodes[i]? = some x := hx
      unfold Call.run add_child
      simp only [ends_bind, ends_get, ends_modify, ends_children hx']
      refine ends_weaken (hv x (List.mem_of_getElem? hx)).add ?_ fun _ _ => trivial
      rintro - m ⟨hm, hget, -⟩
      refine ⟨Valid.set (h := ⟨h.nodes, h.requests + 1⟩) hv hm, Keyed.put hk ?_ fun j k hne => ?_⟩
      · rw [child_set hx', if_pos rfl]
        exact (hget _).trans (if_pos rfl)
      · rw [child_set hx']
        split
        next hj =>
          subst hj
          have hhash : k ≠ Util.String.compute_hash name := fun he => hne ⟨rfl, he⟩
          rw [hget, if_neg hhash]
          simp [child, hx]
        next => rfl
    | get_child i name =>
      obtain ⟨x, hx⟩ : ∃ x, h.nodes[i]? = some x := ⟨_, List.getElem?_eq_getElem hc⟩
      unfold Call.run
      rw [ends_bind, ends_of_eq (lookup_eq hv hx)]
      exact ⟨hv, hk⟩
    | set_block_offset i offset =>
      obtain ⟨x, hx⟩ : ∃ x, h.nodes[i]? = some x := ⟨_, List.getElem?_eq_getElem hc⟩
      unfold Call.run
      rw [ends_set_block_offset hx]
      exact hv.replace hx rfl hk
    | size i s =>
      obtain ⟨x, hx⟩ : ∃ x, h.nodes[i]? = some x := ⟨_, List.getElem?_eq_getElem hc⟩
      unfold Call.run
      rw [ends_size hx]
      exact hv.replace hx rfl hk
  have h' := ends_ok hends hs
  exact h'

theorem calls_unconfused (hr : (calls alloc).Reachable (h, puts)) :
    Unconfused SameHash (fun i name c => get_child i name h = .ok (some c, h)) puts := by
  have hstart : ∀ h, h = (⟨[], 0⟩ : Heap) → Valid h ∧ ∀ i k, child h i k = none := by
    rintro _ rfl
    exact ⟨by simp [Valid], fun i k => rfl⟩
  obtain ⟨hv, hk⟩ := keyed_reachable Valid child hr hstart fun _ _ _ _ _ => keyed_step
  exact Unconfused.congr hk fun i name c => lookup_iff hv

end TarFSNode

/-! ## Directories that are made -/

/-- A new node is put among the children. -/
theorem Nodes.Grown.keyed {N : Type} [Parent N] {h h' : Nodes N} {i : ℕ} {name : List UInt8} {n : N}
    {puts : Puts ℕ} (hg : h.Grown h' i name n)
    (hk : Keyed Util.String.compute_hash h.child puts) :
    Keyed Util.String.compute_hash h'.child (puts ++ [⟨i, name, h.nodes.length⟩]) := by
  apply hk.put
  · rw [hg.child, if_pos ⟨rfl, rfl⟩]
  · intro j k hne
    rw [hg.child, if_neg hne]

namespace TempFS

def call (alloc : ℕ → ℕ) : VfsCall → NodeOp TempFSNode (Option ℕ)
  | .get_child node name => TempFSNode.get_child node name
  | .mkdir node name => TempFSNode.mkdir alloc node name

def log (_ : Nodes TempFSNode) (c : VfsCall) (r : Option ℕ) (puts : Puts ℕ) : Puts ℕ :=
  match c, r with
  | .mkdir node name, some dir => puts ++ [⟨node, name, dir⟩]
  | _, _ => puts

def calls (alloc : ℕ → ℕ) : System (Nodes TempFSNode × Puts ℕ) VfsCall Util.Fault :=
  logged (fun h => mount ⟨[], 0⟩ = .ok (some 0, h)) (fun h c => c.node < h.nodes.length)
    (call alloc) log

variable {h h' : Nodes TempFSNode} {alloc : ℕ → ℕ} {i : ℕ} {name : List UInt8} {puts : Puts ℕ}
  {c : VfsCall} {r : Option ℕ}

theorem lookup_iff {j : ℕ} (hv : h.Valid) : TempFSNode.get_child i name h = .ok (some j, h) ↔
    h.child i (Util.String.compute_hash name) = some j := by
  unfold TempFSNode.get_child
  rcases Nat.lt_or_ge i h.nodes.length with hi | hi
  · simp [hv.try_get_child hi]
  · have hfault : Nodes.try_get_child i name h = .error .null := by
      unfold Nodes.try_get_child
      rw [bind_eq, Nodes.load_null hi]
    simp [hfault, Nodes.child_none hi]

theorem keyed_step (hv : h.Valid) (hc : c.node < h.nodes.length)
    (hs : call alloc c h = .ok (r, h')) (hk : Keyed Util.String.compute_hash h.child puts) :
    h'.Valid ∧ Keyed Util.String.compute_hash h'.child (log h c r puts) := by
  cases c with
  | get_child i name =>
    have hget : TempFSNode.get_child i name h = .ok (r, h') := hs
    unfold TempFSNode.get_child at hget
    rw [hv.try_get_child (show i < _ from hc)] at hget
    cases hget
    exact ⟨hv, hk⟩
  | mkdir i name =>
    obtain ⟨rfl, hg⟩ := ends_ok (VfsCall.ends_mkdir hv hc) hs
    exact ⟨hg.valid, hg.keyed hk⟩

theorem calls_unconfused (hr : (calls alloc).Reachable (h, puts)) :
    Unconfused SameHash (fun i name c => TempFSNode.get_child i name h = .ok (some c, h))
      puts := by
  have hstart : ∀ h : Nodes TempFSNode, mount ⟨[], 0⟩ = .ok (some 0, h) →
      h.Valid ∧ ∀ i k, h.child i k = none := by
    intro h hm
    cases hm
    refine ⟨?_, fun i k => ?_⟩
    · simp [Nodes.Valid, Parent._children, Map.valid_empty]
    · cases i <;> simp [Nodes.child, Parent._children]
  obtain ⟨hv, hk⟩ := keyed_reachable Nodes.Valid Nodes.child hr hstart
    fun _ _ _ _ _ => keyed_step
  exact Unconfused.congr hk fun i name c => lookup_iff hv

end TempFS

/-! ## The tree of `VirtualFilesystem` -/

namespace VFSNode

variable {σ : Type}

/-- The calls on the nodes. A file system is mounted by `fs_mount`. -/
inductive Call (σ : Type) where
  | get_child (node : ℕ) (name : List UInt8)
  | mkdir (node : ℕ) (name : List UInt8)
  | mount (node : ℕ) (fs_mount : StateT σ (Except Util.Fault) (Option ℕ))

def Call.node : Call σ → ℕ
  | .get_child node _ | .mkdir node _ | .mount node _ => node

def Call.run (alloc : ℕ → ℕ) (P : PFS σ) : Call σ → VfsOp σ (Option ℕ)
  | .get_child node name => VFSNode.get_child alloc P node name
  | .mkdir node name => VFSNode.mkdir alloc P node name
  | .mount node fs_mount => do
    return if ← VFSNode.mount node fs_mount then some node else none

/-- A node is put among the children when it is new. To mount a file system clears them. -/
def Call.log (v : Vfs σ) (c : Call σ) (r : Option ℕ) (puts : Puts ℕ) : Puts ℕ :=
  match c, r with
  | .get_child node name, some child | .mkdir node name, some child =>
    if child = v.tree.nodes.length then puts ++ [⟨node, name, child⟩] else puts
  | .mount node _, some _ => puts.filter fun e => e.place ≠ node
  | _, none => puts

def calls (alloc : ℕ → ℕ) (P : PFS σ) (pn : ℕ) (fs : σ) :
    System (Vfs σ × Puts ℕ) (Call σ) VfsFault :=
  logged (fun v => v = VirtualFilesystem.initial pn fs) (fun v c => c.node < v.tree.nodes.length)
    (Call.run alloc P) Call.log

/-- The tree is one, and each of its nodes stands for a node of a file system. -/
structure Backed (v : Vfs σ) : Prop where
  tree : v.Tree
  _pn : ∀ n ∈ v.tree.nodes, n._pn ≠ none

variable {alloc : ℕ → ℕ} {P : PFS σ} {v v' : Vfs σ} {i j : ℕ} {name : List UInt8} {puts : Puts ℕ}
  {c : Call σ} {r : Option ℕ}

/-- A lookup gives a node that was there if there is one with the hash. -/
theorem lookup_iff {x : ℕ} (hb : Backed v) :
    (x < v.tree.nodes.length ∧ ∃ v', VFSNode.get_child alloc P i name v = .ok (some x, v')) ↔
      v.tree.child i (Util.String.compute_hash name) = some x := by
  rcases Nat.lt_or_ge i v.tree.nodes.length with hi | hi
  · obtain ⟨n, hn⟩ := Nodes.exists_node hi
    obtain ⟨pn, hpn⟩ := Option.ne_none_iff_exists'.mp (hb._pn n (List.mem_of_getElem? hn))
    constructor
    · rintro ⟨hx, v', hget⟩
      have hends : Ends (VFSNode.get_child alloc P i name) v (fun r _ =>
          ∀ y, r = some y → y < v.tree.nodes.length →
            v.tree.child i (Util.String.compute_hash name) = some y) fun _ => True := by
        rw [Vfs.ends_get_child hb.tree.valid hn, hpn]
        cases hc : v.tree.child i (Util.String.compute_hash name) with
        | some y => exact fun z hz _ => hz
        | none =>
          refine ends_any (fun o s => ?_) fun _ => trivial
          cases o with
          | none => simp
          | some assoc => exact ends_any (fun _ t => by simp) fun _ => trivial
      exact ends_ok hends hget x rfl hx
    · intro hc
      have hends : Ends (VFSNode.get_child alloc P i name) v
          (fun r v' => (r, v') = (some x, v)) fun _ => False := by
        rw [Vfs.ends_get_child hb.tree.valid hn, hpn, hc]
      obtain ⟨r, v', hr, heq⟩ := returns_of_ends hends
      exact ⟨(hb.tree.below _ _ _ hc).2, v, by rw [hr, heq]⟩
  · have hfault : VFSNode.get_child alloc P i name v = .error (.other .null) := by
      unfold VFSNode.get_child Vfs.on_tree zoom
      rw [bind_eq, Nodes.load_null hi]
    simp [hfault, Nodes.child_none hi]

theorem Backed.grown {t : Nodes VFSNode} {s : σ} {pn : ℕ} (hb : Backed v)
    (hi : i < v.tree.nodes.length) (ht : v.tree.Grown t i name ⟨some pn, Map.empty⟩) :
    Backed ⟨t, s⟩ := by
  refine ⟨hb.tree.grown hi ht, fun n hn => ?_⟩
  obtain ⟨j, hj⟩ := List.mem_iff_getElem?.mp hn
  obtain ⟨m, hm, hmn⟩ := ht.rest j n hj
  have hpn : m._pn ≠ none := by
    rcases List.mem_append.mp (List.mem_of_getElem? hm) with hm | hm
    · exact hb._pn m hm
    · simp [List.mem_singleton.mp hm]
  rcases hmn with rfl | ⟨c, rfl⟩
  · exact hpn
  · exact hpn

theorem get_child_keyed (hb : Backed v) (hi : i < v.tree.nodes.length)
    (hk : Keyed Util.String.compute_hash v.tree.child puts) :
    Ends (VFSNode.get_child alloc P i name) v (fun r v' => Backed v' ∧
      Keyed Util.String.compute_hash v'.tree.child (Call.log v (.get_child i name) r puts))
      fun _ => True := by
  obtain ⟨n, hn⟩ := Nodes.exists_node hi
  obtain ⟨pn, hpn⟩ := Option.ne_none_iff_exists'.mp (hb._pn n (List.mem_of_getElem? hn))
  rw [Vfs.ends_get_child hb.tree.valid hn, hpn]
  cases hc : v.tree.child i (Util.String.compute_hash name) with
  | some y =>
    have hy : y ≠ v.tree.nodes.length := (hb.tree.below _ _ _ hc).2.ne
    simp only [Call.log, if_neg hy]
    exact ⟨hb, hk⟩
  | none =>
    refine ends_any (fun o s => ?_) fun _ => trivial
    cases o with
    | none => exact ⟨⟨⟨hb.tree.valid, hb.tree.below⟩, hb._pn⟩, hk⟩
    | some assoc =>
      refine ends_weaken (hb.tree.valid.grow hi rfl) ?_ fun _ _ => trivial
      intro _ t ht
      simp only [Call.log, if_true]
      exact ⟨hb.grown hi ht, ht.keyed hk⟩

theorem mkdir_keyed (hb : Backed v) (hi : i < v.tree.nodes.length)
    (hk : Keyed Util.String.compute_hash v.tree.child puts) :
    Ends (VFSNode.mkdir alloc P i name) v (fun r v' => Backed v' ∧
      Keyed Util.String.compute_hash v'.tree.child (Call.log v (.mkdir i name) r puts))
      fun _ => True := by
  obtain ⟨n, hn⟩ := Nodes.exists_node hi
  obtain ⟨pn, hpn⟩ := Option.ne_none_iff_exists'.mp (hb._pn n (List.mem_of_getElem? hn))
  unfold VFSNode.mkdir
  rw [ends_bind, Vfs.ends_on_tree, Nodes.ends_load hn, hpn]
  dsimp only
  rw [ends_bind, Vfs.ends_on_fs]
  refine ends_any (fun o s => ?_) fun _ => trivial
  have hs : Backed { v with fs := s } := ⟨⟨hb.tree.valid, hb.tree.below⟩, hb._pn⟩
  cases o with
  | none => exact ⟨hs, hk⟩
  | some _ =>
    refine ends_mono (get_child_keyed hs hi hk) fun r v' h => ?_
    cases r <;> exact h

theorem mount_keyed {fs_mount : StateT σ (Except Util.Fault) (Option ℕ)} (hb : Backed v)
    (hi : i < v.tree.nodes.length) (hk : Keyed Util.String.compute_hash v.tree.child puts) :
    Ends (Call.run alloc P (.mount i fs_mount)) v (fun r v' => Backed v' ∧
      Keyed Util.String.compute_hash v'.tree.child (Call.log v (.mount i fs_mount) r puts))
      fun _ => True := by
  obtain ⟨n, hn⟩ := Nodes.exists_node hi
  unfold Call.run
  rw [ends_bind]
  refine Vfs.ends_mount hb.tree.valid hn (ends_any (fun o s => ?_) fun _ => trivial)
  cases o with
  | none => exact ⟨⟨⟨hb.tree.valid, hb.tree.below⟩, hb._pn⟩, hk⟩
  | some pn =>
    refine ⟨⟨hb.tree.mounted hi, fun x hx => ?_⟩, hk.clear (fun k => ?_) fun j hj k => ?_⟩
    · rcases List.mem_or_eq_of_mem_set hx with hx | rfl
      · exact hb._pn x hx
      · simp
    · rw [Vfs.child_mounted hi, if_pos rfl]
    · rw [Vfs.child_mounted hi, if_neg hj]

theorem keyed_step (hb : Backed v) (hc : c.node < v.tree.nodes.length)
    (hs : c.run alloc P v = .ok (r, v')) (hk : Keyed Util.String.compute_hash v.tree.child puts) :
    Backed v' ∧ Keyed Util.String.compute_hash v'.tree.child (c.log v r puts) := by
  cases c with
  | get_child i name =>
    have h := ends_ok (get_child_keyed hb hc hk) hs
    exact h
  | mkdir i name =>
    have h := ends_ok (mkdir_keyed hb hc hk) hs
    exact h
  | mount i fs_mount =>
    have h := ends_ok (mount_keyed hb hc hk) hs
    exact h

theorem calls_unconfused {pn : ℕ} {fs : σ} (hr : (calls alloc P pn fs).Reachable (v, puts)) :
    Unconfused SameHash (fun i name x => x < v.tree.nodes.length ∧
      ∃ v', VFSNode.get_child alloc P i name v = .ok (some x, v')) puts := by
  have hstart : ∀ v : Vfs σ, v = VirtualFilesystem.initial pn fs →
      Backed v ∧ ∀ i k, v.tree.child i k = none := by
    rintro _ rfl
    refine ⟨⟨VirtualFilesystem.initial_tree pn fs, ?_⟩, fun i k => ?_⟩
    · simp [VirtualFilesystem.initial]
    · cases i <;> simp [VirtualFilesystem.initial, Nodes.child, Parent._children]
  obtain ⟨hb, hk⟩ := keyed_reachable Backed (fun v => v.tree.child) hr hstart
    fun _ _ _ _ _ => keyed_step
  exact Unconfused.congr hk fun i name x => lookup_iff hb

end VFSNode

/-! ## Devices -/

namespace DeviceFSRootNode

open Kernel.DeviceManager

def log (device_class : ℕ → DeviceClass) (dm : DeviceManager) (c : Call) (_ : Unit)
    (puts : Puts Unit) : Puts Unit :=
  puts ++ [⟨(), c.name device_class dm, c.device⟩]

def calls (alloc : ℕ → ℕ) (device_class : ℕ → DeviceClass) :
    System (DeviceManager × Puts Unit) Call Util.Fault :=
  logged (fun dm => dm = start) (fun _ _ => True) (Call.run alloc device_class) (log device_class)

/-- The table of devices has one place. -/
def device (dm : DeviceManager) (_ : Unit) (k : UInt64) : Option ℕ := dm._devices.get k

variable {alloc : ℕ → ℕ} {device_class : ℕ → DeviceClass} {dm dm' : DeviceManager} {c : Call}
  {r : Unit} {puts : Puts Unit}

theorem keyed_step (hv : dm._devices.Valid) (hs : c.run alloc device_class dm = .ok (r, dm'))
    (hk : Keyed Util.String.compute_hash (device dm) puts) : dm'._devices.Valid ∧
      Keyed Util.String.compute_hash (device dm') (log device_class dm c r puts) := by
  obtain ⟨hst, -⟩ := ends_ok (ends_call hv) hs
  refine ⟨hst.valid, hk.put ?_ fun i k hne => ?_⟩
  · exact (hst.get _).trans (if_pos rfl)
  · exact (hst.get k).trans (if_neg fun he => hne ⟨rfl, he⟩)

theorem calls_unconfused (hr : (calls alloc device_class).Reachable (dm, puts)) :
    Unconfused SameHash (fun _ name d => try_get_device_by_name name dm = .ok (some d, dm))
      puts := by
  have hstart : ∀ dm, dm = start → dm._devices.Valid ∧ ∀ i k, device dm i k = none := by
    rintro _ rfl
    exact ⟨Map.valid_empty, fun _ _ => Map.get_empty⟩
  obtain ⟨hv, hk⟩ := keyed_reachable (fun dm => dm._devices.Valid) device hr hstart
    fun _ _ _ _ _ hv _ => keyed_step hv
  refine Unconfused.congr hk fun i name d => ?_
  simp [try_get_device_by_name_eq hv, device]

end DeviceFSRootNode

/-! ## The four tables -/

/-- Over all runs of the calls on a table, a name is taken for another only if the two are the
`same`. -/
structure NamesTold (same : List UInt8 → List UInt8 → Prop) (alloc : ℕ → ℕ) : Prop where
  tarfs : ∀ h puts, (TarFSNode.calls alloc).Reachable (h, puts) →
    Unconfused same (fun i name c => TarFSNode.get_child i name h = .ok (some c, h)) puts
  tmpfs : ∀ h puts, (TempFS.calls alloc).Reachable (h, puts) →
    Unconfused same (fun i name c => TempFSNode.get_child i name h = .ok (some c, h)) puts
  vfs : ∀ (σ : Type) (P : PFS σ) pn fs v puts, (VFSNode.calls alloc P pn fs).Reachable (v, puts) →
    Unconfused same (fun i name x => x < v.tree.nodes.length ∧
      ∃ v', VFSNode.get_child alloc P i name v = .ok (some x, v')) puts
  devices : ∀ device_class dm puts, (DeviceFSRootNode.calls alloc device_class).Reachable (dm, puts) →
    Unconfused same (fun _ name d =>
      DeviceManager.try_get_device_by_name name dm = .ok (some d, dm)) puts

theorem names_told (alloc : ℕ → ℕ) : NamesTold SameHash alloc where
  tarfs _ _ := TarFSNode.calls_unconfused
  tmpfs _ _ := TempFS.calls_unconfused
  vfs _ _ _ _ _ _ := VFSNode.calls_unconfused
  devices _ _ _ := DeviceFSRootNode.calls_unconfused

/-- `8yn0iYCKYHlIj4-BwPqk`. -/
def first_name : List UInt8 :=
  [56, 121, 110, 48, 105, 89, 67, 75, 89, 72, 108, 73, 106, 52, 45, 66, 119, 80, 113, 107]

/-- `GReLUrM4wMqfg9yzV3KQ`. -/
def second_name : List UInt8 :=
  [71, 82, 101, 76, 85, 114, 77, 52, 119, 77, 113, 102, 103, 57, 121, 122, 86, 51, 75, 81]

instance (alloc : ℕ → ℕ) (s : Heap × Puts ℕ) (c : TarFSNode.Call) :
    Decidable ((TarFSNode.calls alloc).allowed s c) :=
  match c with
  | .new _ => .isTrue trivial
  | .add_child node _ _ | .get_child node _ | .set_block_offset node _ | .size node _ =>
    inferInstanceAs (Decidable (node < s.1.nodes.length))

/-- A node is made below the root and found by another name. -/
theorem names_confused : ¬ NamesTold (· = ·) (64 * ·) := by
  intro h
  have hrun : ((TarFSNode.calls (64 * ·)).exec (⟨[], 0⟩, [])
      [.new [], .new first_name, .add_child 0 first_name 1]).map Prod.snd =
        some [⟨0, first_name, 1⟩] := by decide +kernel
  obtain ⟨⟨t, puts⟩, hexec, hputs⟩ := Option.map_eq_some_iff.mp hrun
  obtain rfl : puts = _ := hputs
  have hr : (TarFSNode.calls (64 * ·)).Reachable (t, [⟨0, first_name, 1⟩]) :=
    ⟨_, _, ⟨rfl, rfl⟩, System.run_of_exec hexec⟩
  have hfirst := (TarFSNode.calls_unconfused hr).kept [] ⟨0, first_name, 1⟩ [] rfl (by simp)
  have hsecond : TarFSNode.get_child 0 second_name t = .ok (some 1, t) := by
    have hhash : Util.String.compute_hash second_name = Util.String.compute_hash first_name := by
      decide +kernel
    unfold TarFSNode.get_child at hfirst ⊢
    rw [hhash]
    exact hfirst
  obtain ⟨e, he, -, hname, -⟩ := (h.tarfs _ _ hr).found _ _ _ hsecond
  rw [List.mem_singleton.mp he] at hname
  exact absurd hname (by decide)

end Infos.Fs
