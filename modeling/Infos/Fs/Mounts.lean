import Infos.Fs.Directory
import Infos.Fs.Files
import Infos.Fs.Names
import Infos.Fs.Namespace

/-!
# The mounted file systems

The kernel mounts a `TempFS` at `/`, the devices at `/dev`, and the disk that it boots from at
`/usr`.
-/

open Infos.Prog Infos.Util Infos.Kernel

namespace Infos.Fs

/-- What the file systems have. -/
structure Mounted where
  tmp : Nodes TempFSNode
  devices : DeviceManager
  usr : Heap

inductive PFSNode where
  | rootfs
  | devfs
  | tmp (node : ℕ)
  | device (device : ℕ)
  | usr (node : ℕ)
  deriving DecidableEq, Repr

namespace PFSNode

/-- The pointer to the node. -/
def ptr : PFSNode → ℕ
  | rootfs => 0
  | devfs => 1
  | tmp n => 3 * n + 2
  | device n => 3 * n + 3
  | usr n => 3 * n + 4

def of_ptr : ℕ → PFSNode
  | 0 => rootfs
  | 1 => devfs
  | p + 2 =>
    match p % 3 with
    | 0 => tmp (p / 3)
    | 1 => device (p / 3)
    | _ => usr (p / 3)

@[simp]
theorem of_ptr_ptr (x : PFSNode) : of_ptr x.ptr = x := by
  cases x with
  | rootfs => rfl
  | devfs => rfl
  | tmp n =>
    have hmod : 3 * n % 3 = 0 := by omega
    simp [ptr, of_ptr, hmod]
  | device n =>
    have hmod : (3 * n + 1) % 3 = 1 := by omega
    have hdiv : (3 * n + 1) / 3 = n := by omega
    simp [ptr, of_ptr, hmod, hdiv]
  | usr n =>
    have hmod : (3 * n + 2) % 3 = 2 := by omega
    have hdiv : (3 * n + 2) / 3 = n := by omega
    simp [ptr, of_ptr, hmod, hdiv]

end PFSNode

/-! ## The driver of the disk -/

/-- Line by line, `ZzzA` is `TarFS::build_tree`, and `Zzza` is `BuildTreeRecursive`. -/
def ZZZ.ZzzA (alloc : ℕ → ℕ) (bdev : BlockDevice) : TarOp (Option ℕ) := TarFS.build_tree alloc bdev

def ZZZ.mount (alloc : ℕ → ℕ) (bdev : BlockDevice) : TarOp (Option ℕ) := ZZZ.ZzzA alloc bdev

namespace zZZ

def get_child (node : ℕ) (name : List UInt8) : TarOp (Option ℕ) := TarFSNode.get_child node name

/-- `hdr` is what the memory for the header holds if it cannot be read. -/
def open_ (bdev : BlockDevice) (hdr : Block) (node : ℕ) : TarOp (Option ZZz) := do
  let n ← TarFSNode.load node
  if !n._has_block_offset then return none
  return some (ZZz.new bdev hdr n._block_offset)

end zZZ

/-! ## The nodes together -/

namespace Mounted

variable {α : Type}

def on_tmp (x : NodeOp TempFSNode α) : StateT Mounted (Except Util.Fault) α :=
  zoom tmp (fun t m => { m with tmp := t }) id x

def on_devices (x : DeviceOp α) : StateT Mounted (Except Util.Fault) α :=
  zoom devices (fun d m => { m with devices := d }) id x

def on_usr (x : TarOp α) : StateT Mounted (Except Util.Fault) α :=
  zoom usr (fun h m => { m with usr := h }) id x

/-- `alloc` is where there is memory for the maps of the `TempFS`. -/
def pfs (alloc : ℕ → ℕ) : PFS Mounted where
  get_child p name :=
    match PFSNode.of_ptr p with
    | .tmp node => Option.map (PFSNode.ptr ∘ .tmp) <$> on_tmp (TempFSNode.get_child node name)
    | .devfs => Option.map (PFSNode.ptr ∘ .device) <$> on_devices (DeviceFSRootNode.get_child name)
    | .usr node => Option.map (PFSNode.ptr ∘ .usr) <$> on_usr (zZZ.get_child node name)
    | .rootfs | .device _ => return none
  mkdir p name :=
    match PFSNode.of_ptr p with
    | .tmp node => Option.map (PFSNode.ptr ∘ .tmp) <$> on_tmp (TempFSNode.mkdir alloc node name)
    | .rootfs | .devfs | .device _ | .usr _ => return none

end Mounted

/-- A file that was opened. -/
inductive File where
  | device (device : ℕ)
  | disk (file : ZZz)
  deriving DecidableEq, Repr

/-- What there is besides the file systems: where the allocator has memory, the disks among the
devices, what memory holds that nobody has written to, and the devices with an `open_as_file`. -/
structure Surroundings where
  vfs_alloc : ℕ → ℕ
  tmp_alloc : ℕ → ℕ
  usr_alloc : ℕ → ℕ
  disks : ℕ → Option BlockDevice
  hdr : Block
  open_as_file : ℕ → Bool

namespace Kernel

variable (S : Surroundings)

def dev_name : List UInt8 := [100, 101, 118]

def usr_name : List UInt8 := [117, 115, 114]

/-- `start_kernel_threadproc` from the root of the tree to the disk, without a `boot-fs-type`. It
answers `false` where the kernel aborts. -/
def mount_all (boot_device_name : List UInt8) : VfsOp Mounted Bool := do
  match ← VirtualFilesystem.lookup_node S.vfs_alloc (Mounted.pfs S.tmp_alloc) 0 [47] with
  | none => return false
  | some root =>
    if !(← VFSNode.mount root (Option.map (PFSNode.ptr ∘ .tmp) <$> Mounted.on_tmp TempFS.mount)) then
      return false
    match ← VFSNode.mkdir S.vfs_alloc (Mounted.pfs S.tmp_alloc) root dev_name with
    | none => return false
    | some dev =>
      if !(← VFSNode.mount dev (return some PFSNode.devfs.ptr)) then return false
      match ← VFSNode.mkdir S.vfs_alloc (Mounted.pfs S.tmp_alloc) root usr_name with
      | none => return false
      | some usr =>
        if boot_device_name = [] then return false
        match ← Vfs.on_fs (Mounted.on_devices
            (DeviceManager.try_get_device_by_name boot_device_name)) with
        | none => return false
        | some boot_device =>
          match S.disks boot_device with
          | none => return false
          | some bdev =>
            VFSNode.mount usr
              (Option.map (PFSNode.ptr ∘ .usr) <$> Mounted.on_usr (ZZZ.mount S.usr_alloc bdev))

end Kernel

namespace VirtualFilesystem

variable (S : Surroundings)

/-- `node->pn()->open()`. The disk is the one that was mounted. -/
def open_pn (bdev : BlockDevice) (p : ℕ) : StateT Mounted (Except Util.Fault) (Option File) :=
  match PFSNode.of_ptr p with
  | .device device => return if S.open_as_file device then some (.device device) else none
  | .usr node => Option.map .disk <$> Mounted.on_usr (zZZ.open_ bdev S.hdr node)
  | .rootfs | .devfs | .tmp _ => return none

def open_ (bdev : BlockDevice) (path : List UInt8) : VfsOp Mounted (Option File) := do
  match ← lookup_node S.vfs_alloc (Mounted.pfs S.tmp_alloc) 0 path with
  | none => return none
  | some node =>
    match (← Vfs.on_tree (Nodes.load node))._pn with
    | none => return none
    | some p => Vfs.on_fs (open_pn S bdev p)

end VirtualFilesystem


/-! ## What is below -/

/-- Below `/` are the two places where something is mounted. -/
def Mounted.next (m : Mounted) (p : ℕ) (name : List UInt8) : Option ℕ :=
  match PFSNode.of_ptr p with
  | .tmp 0 =>
    if name = Kernel.dev_name then some PFSNode.devfs.ptr
    else if name = Kernel.usr_name then some (PFSNode.usr 0).ptr
    else none
  | .devfs => (m.devices._devices.get (Util.String.compute_hash name)).map (PFSNode.ptr ∘ .device)
  | .usr node =>
    (TarFSNode.child m.usr node (Util.String.compute_hash name)).map (PFSNode.ptr ∘ .usr)
  | _ => none

variable {S : Surroundings} {alloc : ℕ → ℕ} {C : List (List UInt8)} {m : Mounted} {v v' : Vfs Mounted}
  {name : List UInt8} {d p i j : ℕ} {fs : List ArchiveFile} {h : Heap} {q : Path}
  {bdev : BlockDevice} {es : List Entry}

theorem Built.valid (hb : Built alloc C fs h) : TarFSNode.Valid h := by
  obtain ⟨paths, ht, -, -⟩ := hb
  intro x hx
  obtain ⟨i, hi⟩ := List.mem_iff_getElem?.mp hx
  have hlt := (List.getElem?_eq_some_iff.mp hi).1
  rw [ht.length] at hlt
  obtain ⟨-, es, t, hes, -⟩ := ht.node i _ x (List.getElem?_eq_getElem hlt) hi
  exact ⟨es, t, hes⟩

/-- A child in the tree is a node of it. -/
theorem Built.child_lt (hb : Built alloc C fs h) (hname : name ∈ C)
    (hc : TarFSNode.child h i (Util.String.compute_hash name) = some j) : j < h.nodes.length := by
  have hv := hb.valid
  obtain ⟨paths, ht, -, -⟩ := hb
  obtain ⟨x, hx, -⟩ := Option.bind_eq_some_iff.mp hc
  have hi := (List.getElem?_eq_some_iff.mp hx).1
  rw [ht.length] at hi
  obtain ⟨o, ho, hiff⟩ := ht.get_child (List.getElem?_eq_getElem hi) hname
  rw [TarFSNode.lookup_eq hv hx, hc] at ho
  cases ho
  rw [ht.length]
  exact (List.getElem?_eq_some_iff.mp ((hiff j).mp rfl)).1

namespace Mounted

theorem get_child_tmp {r : Option ℕ} (h : TempFSNode.get_child i name m.tmp = .ok (r, m.tmp)) :
    (pfs alloc).get_child (PFSNode.tmp i).ptr name m = .ok (r.map (PFSNode.ptr ∘ .tmp), m) := by
  unfold pfs
  simp only [PFSNode.of_ptr_ptr]
  exact map_zoom_read _ h rfl

theorem ends_mkdir_tmp {Q : Option ℕ → Mounted → Prop} {E : Util.Fault → Prop} :
    Ends ((pfs alloc).mkdir (PFSNode.tmp i).ptr name) m Q E ↔
      Ends (TempFSNode.mkdir alloc i name) m.tmp
        (fun r t => Q (r.map (PFSNode.ptr ∘ .tmp)) { m with tmp := t }) E := by
  unfold pfs on_tmp
  simp only [PFSNode.of_ptr_ptr]
  rw [ends_map, ends_zoom]
  rfl

theorem plain_device : Vfs.Plain (pfs alloc) C m.next m (PFSNode.device d).ptr := by
  intro name _
  unfold pfs next
  simp only [PFSNode.of_ptr_ptr]
  rfl

theorem plain_devfs (hv : m.devices._devices.Valid) :
    Vfs.Plain (pfs alloc) C m.next m PFSNode.devfs.ptr := by
  intro name _
  unfold pfs next
  simp only [PFSNode.of_ptr_ptr]
  exact map_zoom_read _ (DeviceManager.try_get_device_by_name_eq hv) rfl

theorem plain_usr (hb : Built alloc C fs m.usr) (hi : i < m.usr.nodes.length) {tmp_alloc : ℕ → ℕ} :
    Vfs.Plain (pfs tmp_alloc) C m.next m (PFSNode.usr i).ptr := by
  intro name _
  have hget : TarFSNode.get_child i name m.usr = _ :=
    TarFSNode.lookup_eq hb.valid (List.getElem?_eq_getElem hi)
  unfold pfs next
  simp only [PFSNode.of_ptr_ptr]
  exact map_zoom_read _ hget rfl

theorem root_lt (hb : Built alloc C fs m.usr) : 0 < m.usr.nodes.length := by
  obtain ⟨paths, ht, -, -⟩ := hb
  rw [ht.length]
  exact (List.getElem?_eq_some_iff.mp ht.root).1

/-- All but `/` itself is plain. -/
theorem settled (hv : m.devices._devices.Valid) (hb : Built alloc C fs m.usr) {tmp_alloc : ℕ → ℕ} :
    Vfs.Settled (pfs tmp_alloc) C m.next m := by
  intro p name hname q hq
  unfold next at hq
  split at hq
  · split at hq
    · obtain rfl := Option.some.inj hq
      exact plain_devfs hv
    · split at hq
      · obtain rfl := Option.some.inj hq
        exact plain_usr hb (root_lt hb)
      · cases hq
  · obtain ⟨d, -, rfl⟩ := Option.map_eq_some_iff.mp hq
    exact plain_device
  · obtain ⟨j, hj, rfl⟩ := Option.map_eq_some_iff.mp hq
    exact plain_usr hb (hb.child_lt hname hj)
  · cases hq

end Mounted

/-! ## Mounting -/

/-- The directories of the `TempFS` are made together with the nodes of the tree, and `children` is
where the names are. -/
structure Stage (alloc : ℕ → ℕ) (pns : List ℕ) (children : UInt64 → Option ℕ) (v : Vfs Mounted) :
    Prop where
  valid : v.tree.Valid
  fresh : v.tree.Fresh alloc
  tmp_valid : v.fs.tmp.Valid
  nodes : v.tree.nodes.map VFSNode._pn = pns.map some
  tmp_length : v.fs.tmp.nodes.length = pns.length
  child : ∀ i k, v.tree.child i k = if i = 0 then children k else none
  tmp_child : ∀ k, v.fs.tmp.child 0 k = children k

namespace Stage

variable {pns : List ℕ} {children : UInt64 → Option ℕ}

theorem length (h : Stage alloc pns children v) : v.tree.nodes.length = pns.length := by
  simpa using congrArg (fun l : List (Option ℕ) => l.length) h.nodes

theorem pn (h : Stage alloc pns children v) (i : ℕ) : v.pn i = pns[i]? := by
  unfold Vfs.pn
  rw [h.nodes, List.getElem?_map]
  cases pns[i]? <;> rfl

theorem mkdir (h : Stage S.vfs_alloc pns children v) (hroot : pns[0]? = some (PFSNode.tmp 0).ptr)
    (hnew : children (Util.String.compute_hash name) = none) :
    Ends (VFSNode.mkdir S.vfs_alloc (Mounted.pfs S.tmp_alloc) 0 name) v (fun r v' =>
      r = some pns.length ∧ v'.fs.devices = v.fs.devices ∧ v'.fs.usr = v.fs.usr ∧
      Stage S.vfs_alloc (pns ++ [(PFSNode.tmp pns.length).ptr])
        (Function.update children (Util.String.compute_hash name) (some pns.length)) v')
      fun e => e = .other .no_memory := by
  obtain ⟨n, hn, hpn⟩ := Vfs.exists_of_pn ((h.pn 0).trans hroot)
  have hi : 0 < v.tree.nodes.length := (List.getElem?_eq_some_iff.mp hn).1
  have hi' : 0 < v.fs.tmp.nodes.length := by
    rwa [h.tmp_length, ← h.length]
  unfold VFSNode.mkdir
  rw [ends_bind, Vfs.ends_on_tree, Nodes.ends_load hn, hpn]
  dsimp only
  rw [ends_bind, Vfs.ends_on_fs]
  rw [Mounted.ends_mkdir_tmp]
  apply ends_weaken (VfsCall.ends_mkdir h.tmp_valid hi') ?_ fun e he => he ▸ rfl
  rintro r t ⟨rfl, ht⟩
  have hget : TempFSNode.get_child 0 name t = .ok (some pns.length, t) := by
    unfold TempFSNode.get_child
    rw [ht.valid.try_get_child (ht.length ▸ Nat.succ_pos _), ht.child, if_pos ⟨rfl, rfl⟩, h.tmp_length]
  have hbelow : (Mounted.pfs S.tmp_alloc).get_child (PFSNode.tmp 0).ptr name
      ⟨t, v.fs.devices, v.fs.usr⟩ =
        .ok (some (PFSNode.tmp pns.length).ptr, ⟨t, v.fs.devices, v.fs.usr⟩) :=
    Mounted.get_child_tmp (r := some pns.length) hget
  have hchild : v.tree.child 0 (Util.String.compute_hash name) = none :=
    (h.child 0 _).trans hnew
  rw [Option.map_some]
  dsimp only
  rw [Vfs.ends_get_child (σ := Mounted) (v := ⟨v.tree, ⟨t, v.fs.devices, v.fs.usr⟩⟩) h.valid hn, hpn]
  dsimp only
  rw [hchild]
  apply (ends_of_eq hbelow).mpr
  dsimp only
  apply ends_weaken (ends_and (h.valid.grow hi rfl) (h.fresh.grow h.valid hi rfl)) ?_
    fun e he => he ▸ rfl
  rintro _ t' ⟨ht', hf', -⟩
  have hlen := h.length
  refine ⟨congrArg some hlen, rfl, rfl, ht'.valid, hf', ht.valid, ?_, ?_, fun i k => ?_, fun k => ?_⟩
  · have hpns : t'.nodes.map VFSNode._pn = v.tree.nodes.map VFSNode._pn ++
        [some (PFSNode.tmp pns.length).ptr] := ht'.field fun _ _ => rfl
    rw [hpns, h.nodes]
    simp
  · show t.nodes.length = _
    rw [ht.length, h.tmp_length]
    simp
  · show t'.child i k = _
    rw [ht'.child, h.child, hlen, Function.update_apply]
    split_ifs <;> simp_all
  · show t.child 0 k = _
    rw [ht.child, h.tmp_child, h.tmp_length, Function.update_apply]
    simp

/-- A directory becomes the root of another file system. -/
theorem mount (h : Stage alloc pns children v) (hi : 0 < i ∧ i < pns.length)
    {fs_mount : StateT Mounted (Except Util.Fault) (Option ℕ)} {R : Mounted → Prop}
    (hmount : Ends fs_mount v.fs (fun r m => r = some p ∧ m.tmp = v.fs.tmp ∧ R m)
      fun e => e = .no_memory) :
    Ends (VFSNode.mount i fs_mount) v
      (fun r v' => r = true ∧ Stage alloc (pns.set i p) children v' ∧ R v'.fs)
      fun e => e = .other .no_memory := by
  obtain ⟨hpos, hlt⟩ := hi
  rw [← h.length] at hlt
  apply Vfs.ends_mount h.valid (List.getElem?_eq_getElem hlt)
  apply ends_weaken hmount ?_ fun e he => he ▸ rfl
  rintro r m ⟨rfl, htmp, hr⟩
  refine ⟨rfl, ⟨fun x hx => ?_, fun x hx => ?_, ?_, ?_, ?_, fun j k => ?_, fun k => ?_⟩, hr⟩
  · rcases List.mem_or_eq_of_mem_set hx with hx | rfl
    · exact h.valid x hx
    · exact Map.valid_empty
  · rcases List.mem_or_eq_of_mem_set hx with hx | rfl
    · exact h.fresh x hx
    · exact fun a ha => absurd rfl ha
  · show m.tmp.Valid
    rw [htmp]
    exact h.tmp_valid
  · show List.map _ (List.set _ _ _) = _
    rw [List.map_set, h.nodes, List.map_set]
  · show m.tmp.nodes.length = _
    rw [htmp, h.tmp_length, List.length_set]
  · show Nodes.child _ j k = _
    rw [Vfs.child_mounted hlt, h.child]
    split_ifs <;> simp_all
  · show m.tmp.child 0 k = _
    rw [htmp, h.tmp_child]

end Stage

theorem usr_ne_dev : Kernel.usr_name ≠ Kernel.dev_name := by decide

/-- What the kernel starts with. -/
def unmounted (dm : DeviceManager) : Vfs Mounted :=
  VirtualFilesystem.initial PFSNode.rootfs.ptr ⟨⟨[], 0⟩, dm, ⟨[], 0⟩⟩

/-- The tree of paths, and what is behind it. -/
structure Serves (S : Surroundings) (C : List (List UInt8)) (dm : DeviceManager) (es : List Entry)
    (v : Vfs Mounted) : Prop where
  shows : Vfs.Shows (Mounted.pfs S.tmp_alloc) C v.fs.next v
  fresh : v.tree.Fresh S.vfs_alloc
  root : v.pn 0 = some (PFSNode.tmp 0).ptr
  devices : v.fs.devices = dm
  usr : Built S.usr_alloc C (files 0 es) v.fs.usr

/-- The two directories, each with what is mounted there. -/
def mounted_at (k : UInt64) : Option ℕ :=
  if k = Util.String.compute_hash Kernel.usr_name then some 2
  else if k = Util.String.compute_hash Kernel.dev_name then some 1
  else none

theorem Stage.serves {dm : DeviceManager} (hC : Apart C) (hdev : Kernel.dev_name ∈ C)
    (husr : Kernel.usr_name ∈ C) (hdm : dm._devices.Valid) (hdevices : v.fs.devices = dm)
    (hb : Built S.usr_alloc C (files 0 es) v.fs.usr)
    (h : Stage S.vfs_alloc [(PFSNode.tmp 0).ptr, PFSNode.devfs.ptr, (PFSNode.usr 0).ptr]
      mounted_at v) :
    Serves S C dm es v := by
  have hvalid : v.fs.devices._devices.Valid := hdevices ▸ hdm
  have hlen : v.tree.nodes.length = 3 := h.length
  have hroot : 0 < v.fs.usr.nodes.length := Mounted.root_lt hb
  refine ⟨⟨h.valid, Mounted.settled hvalid hb, fun i hi => ?_⟩, h.fresh, h.pn 0, hdevices, hb⟩
  obtain rfl | rfl | rfl : i = 0 ∨ i = 1 ∨ i = 2 := by omega
  · refine ⟨_, h.pn 0, fun name hname => ?_⟩
    rw [h.child, if_pos rfl]
    unfold mounted_at
    by_cases husr' : Util.String.compute_hash name = Util.String.compute_hash Kernel.usr_name
    · obtain rfl := hC name hname _ husr husr'
      rw [if_pos rfl]
      exact ⟨by omega, _, by simp [Mounted.next, usr_ne_dev], h.pn 2⟩
    · rw [if_neg husr']
      by_cases hdev' : Util.String.compute_hash name = Util.String.compute_hash Kernel.dev_name
      · obtain rfl := hC name hname _ hdev hdev'
        rw [if_pos rfl]
        exact ⟨by omega, _, by simp [Mounted.next], h.pn 1⟩
      · rw [if_neg hdev']
        have hlt : 0 < v.fs.tmp.nodes.length := by
          rw [h.tmp_length]
          decide
        have hnone : TempFSNode.get_child 0 name v.fs.tmp = .ok (none, v.fs.tmp) := by
          unfold TempFSNode.get_child
          rw [h.tmp_valid.try_get_child hlt, h.tmp_child]
          simp [mounted_at, husr', hdev']
        have hnext : v.fs.next (PFSNode.tmp 0).ptr name = none := by
          have hne : name ≠ Kernel.dev_name := fun he => hdev' (he ▸ rfl)
          have hne' : name ≠ Kernel.usr_name := fun he => husr' (he ▸ rfl)
          simp [Mounted.next, hne, hne']
        rw [hnext]
        exact Mounted.get_child_tmp (r := none) hnone
  · refine ⟨_, h.pn 1, fun name hname => ?_⟩
    rw [h.child, if_neg (by decide)]
    exact Mounted.plain_devfs hvalid name hname
  · refine ⟨_, h.pn 2, fun name hname => ?_⟩
    rw [h.child, if_neg (by decide)]
    exact Mounted.plain_usr hb hroot name hname

theorem mounted_root {dm : DeviceManager} :
    VFSNode.mount 0 (Option.map (PFSNode.ptr ∘ .tmp) <$> Mounted.on_tmp TempFS.mount) (unmounted dm) =
      .ok (true, ⟨⟨[⟨some (PFSNode.tmp 0).ptr, Map.empty⟩], 0⟩,
        ⟨⟨[⟨[], Map.empty⟩], 0⟩, dm, ⟨[], 0⟩⟩⟩) := rfl

theorem stage_root {dm : DeviceManager} : Stage alloc [(PFSNode.tmp 0).ptr] (fun _ => none)
    ⟨⟨[⟨some (PFSNode.tmp 0).ptr, Map.empty⟩], 0⟩, ⟨⟨[⟨[], Map.empty⟩], 0⟩, dm, ⟨[], 0⟩⟩⟩ := by
  refine ⟨fun x hx => ?_, fun x hx a ha => ?_, fun x hx => ?_, rfl, rfl, fun i k => ?_, fun k => ?_⟩
  · rw [List.mem_singleton.mp hx]
    exact Map.valid_empty
  · rw [List.mem_singleton.mp hx] at ha
    exact absurd rfl ha
  · rw [List.mem_singleton.mp hx]
    exact Map.valid_empty
  · rw [ite_self]
    exact Nodes.child_new (h := ⟨[], 0⟩) rfl
  · exact Nodes.child_new (h := ⟨[], 0⟩) rfl

/-- Where the disk has an archive, all is mounted, if there is the memory. -/
theorem mount_all_spec {dm : DeviceManager} {boot_device_name : List UInt8} (hC : Apart C)
    (hdev : Kernel.dev_name ∈ C) (husr' : Kernel.usr_name ∈ C) (hsub : ∀ c ∈ names (files 0 es), c ∈ C)
    (hdm : dm._devices.Valid) (hne : boot_device_name ≠ [])
    (hd : dm._devices.get (Util.String.compute_hash boot_device_name) = some d)
    (hdisk : S.disks d = some bdev) (ha : Archive bdev es) :
    Ends (Kernel.mount_all S boot_device_name) (unmounted dm)
      (fun r v => r = true ∧ Serves S C dm es v) fun e => e = .other .no_memory := by
  have hlookup : VirtualFilesystem.lookup_node S.vfs_alloc (Mounted.pfs S.tmp_alloc) 0 [47]
      (unmounted dm) = .ok (some 0, unmounted dm) := rfl
  unfold Kernel.mount_all
  rw [ends_bind, ends_of_eq hlookup]
  dsimp only
  rw [ends_bind, ends_of_eq mounted_root, if_neg (by decide), ends_bind]
  apply ends_mono (stage_root.mkdir rfl rfl)
  rintro _ v₁ ⟨rfl, hdevices₁, husr₁, h₁⟩
  dsimp only
  rw [ends_bind]
  have hmount : Ends (pure (some PFSNode.devfs.ptr) : StateT Mounted (Except Util.Fault) (Option ℕ))
      v₁.fs (fun r m => r = some PFSNode.devfs.ptr ∧ m.tmp = v₁.fs.tmp ∧ m = v₁.fs)
      fun e => e = .no_memory := ⟨rfl, rfl, rfl⟩
  apply ends_mono (h₁.mount (i := 1) (by decide) hmount)
  rintro _ v₂ ⟨rfl, h₂, hfs₂⟩
  rw [if_neg (by decide), ends_bind]
  have hfresh : Function.update (fun _ => none) (Util.String.compute_hash Kernel.dev_name)
      (some [(PFSNode.tmp 0).ptr].length) (Util.String.compute_hash Kernel.usr_name) = none := by
    decide +kernel
  apply ends_mono (h₂.mkdir rfl hfresh)
  rintro _ v₃ ⟨rfl, hdevices₃, husr₃, h₃⟩
  dsimp only
  have hdevices : v₃.fs.devices = dm := by rw [hdevices₃, hfs₂, hdevices₁]
  have husr : v₃.fs.usr = ⟨[], 0⟩ := by rw [husr₃, hfs₂, husr₁]
  have hfound : Mounted.on_devices (DeviceManager.try_get_device_by_name boot_device_name) v₃.fs =
      .ok (some d, v₃.fs) := by
    unfold Mounted.on_devices zoom
    rw [hdevices, DeviceManager.try_get_device_by_name_eq hdm, hd, ← hdevices]
  rw [if_neg hne, ends_bind, Vfs.ends_on_fs, ends_of_eq hfound]
  dsimp only
  rw [hdisk]
  dsimp only
  have hbuilt : Ends (Option.map (PFSNode.ptr ∘ .usr) <$> Mounted.on_usr (ZZZ.mount S.usr_alloc bdev))
      v₃.fs (fun r m => r = some (PFSNode.usr 0).ptr ∧ m.tmp = v₃.fs.tmp ∧
        m.devices = v₃.fs.devices ∧ Built S.usr_alloc C (files 0 es) m.usr)
      fun e => e = .no_memory := by
    unfold Mounted.on_usr
    rw [ends_map, ends_zoom, husr]
    apply ends_mono (tree_built ha hC hsub)
    rintro r h ⟨rfl, hb⟩
    exact ⟨rfl, rfl, rfl, hb⟩
  apply ends_mono (h₃.mount (i := 2) (by decide) hbuilt)
  rintro r v₄ ⟨rfl, h₄, hdevices₄, hb⟩
  have hchildren : Function.update (Function.update (fun _ => none)
      (Util.String.compute_hash Kernel.dev_name) (some [(PFSNode.tmp 0).ptr].length))
      (Util.String.compute_hash Kernel.usr_name)
      (some ([(PFSNode.tmp 0).ptr, PFSNode.devfs.ptr].length)) = mounted_at := by
    funext k
    simp [mounted_at, Function.update_apply]
  have hstage : Stage S.vfs_alloc [(PFSNode.tmp 0).ptr, PFSNode.devfs.ptr, (PFSNode.usr 0).ptr]
      mounted_at v₄ := by
    rw [← hchildren]
    exact h₄
  exact ⟨rfl, hstage.serves hC hdev husr' hdm (hdevices₄.trans hdevices) hb⟩

/-! ## Opening -/

/-- The names of a path from a node of the disk lead where the archive says. -/
theorem IsTree.follow {g : Path → Option (ℕ × ℕ)} {paths : List Path} {p : Path}
    (ht : IsTree alloc C g paths m.usr) (hv : TarFSNode.Valid m.usr) (hi : paths[i]? = some p)
    (hq : ∀ c ∈ q, c ∈ C) :
    match Vfs.follow m.next (PFSNode.usr i).ptr q with
    | none => p ++ q ∉ paths
    | some r => ∃ j, r = (PFSNode.usr j).ptr ∧ paths[j]? = some (p ++ q) := by
  induction q generalizing i p with
  | nil => exact ⟨i, rfl, by simpa using hi⟩
  | cons c q ih =>
    obtain ⟨x, hx⟩ := ht.exists_node hi
    obtain ⟨o, ho, hiff⟩ := ht.get_child hi (hq c List.mem_cons_self)
    rw [TarFSNode.lookup_eq hv hx] at ho
    cases ho
    have hnext : m.next (PFSNode.usr i).ptr c =
        (TarFSNode.child m.usr i (Util.String.compute_hash c)).map (PFSNode.ptr ∘ .usr) := by
      simp [Mounted.next]
    have hfollow : Vfs.follow m.next (PFSNode.usr i).ptr (c :: q) =
        (m.next (PFSNode.usr i).ptr c).bind (Vfs.follow m.next · q) := rfl
    rw [hfollow, hnext]
    have hsplit : p ++ c :: q = (p ++ [c]) ++ q := by simp
    rw [hsplit]
    cases hc : TarFSNode.child m.usr i (Util.String.compute_hash c) with
    | none =>
      intro hmem
      obtain ⟨j, hj⟩ := List.mem_iff_getElem?.mp (ht.closed_append hmem)
      rw [← hiff j, hc] at hj
      cases hj
    | some j =>
      exact ih ((hiff j).mp hc) fun c hc => hq c (List.mem_cons_of_mem _ hc)

/-- What the path stands for: a device with the name, or a file of the archive. -/
def opened (S : Surroundings) (bdev : BlockDevice) (fs : List ArchiveFile) (dm : DeviceManager) :
    List (List UInt8) → Option File
  | [] => none
  | name :: names =>
    if name = Kernel.dev_name then
      match names with
      | [device] => ((dm._devices.get (Util.String.compute_hash device)).filter S.open_as_file).map
          .device
      | _ => none
    else if name = Kernel.usr_name then
      (found fs names).map fun b => .disk (ZZz.new bdev S.hdr (UInt32.ofNat b.1))
    else none

section Opened

variable {names : List (List UInt8)}

/-- Where the names lead, what is opened is what they stand for. -/
def Opens (S : Surroundings) (bdev : BlockDevice) (m : Mounted) (answer : Option File) :
    Option ℕ → Prop
  | none => answer = none
  | some p => VirtualFilesystem.open_pn S bdev p m = .ok (answer, m)

theorem opens_device (names : List (List UInt8)) :
    Opens S bdev m (opened S bdev fs m.devices (Kernel.dev_name :: names))
      (Vfs.follow m.next PFSNode.devfs.ptr names) := by
  unfold opened
  dsimp only
  rw [if_pos rfl]
  cases names with
  | nil =>
    show VirtualFilesystem.open_pn S bdev PFSNode.devfs.ptr m = _
    rfl
  | cons x names =>
    have hnext : m.next PFSNode.devfs.ptr x =
        (m.devices._devices.get (Util.String.compute_hash x)).map (PFSNode.ptr ∘ .device) := by
      simp [Mounted.next]
    have hfollow : Vfs.follow m.next PFSNode.devfs.ptr (x :: names) =
        (m.next PFSNode.devfs.ptr x).bind (Vfs.follow m.next · names) := rfl
    rw [hfollow, hnext]
    cases names with
    | nil =>
      dsimp only
      cases m.devices._devices.get (Util.String.compute_hash x) with
      | none => rfl
      | some d =>
        show VirtualFilesystem.open_pn S bdev (PFSNode.device d).ptr m = _
        unfold VirtualFilesystem.open_pn
        simp only [PFSNode.of_ptr_ptr, Option.filter_some]
        cases S.open_as_file d with
        | false => rfl
        | true => rfl
    | cons y names =>
      dsimp only
      cases m.devices._devices.get (Util.String.compute_hash x) with
      | none => rfl
      | some d =>
        have hleaf : m.next (PFSNode.device d).ptr y = none := by simp [Mounted.next]
        show Opens S bdev m none ((m.next (PFSNode.device d).ptr y).bind (Vfs.follow m.next · names))
        rw [hleaf]
        rfl

theorem opens_usr (hb : Built alloc C fs m.usr) (hnames : ∀ name ∈ names, name ∈ C) :
    Opens S bdev m (opened S bdev fs m.devices (Kernel.usr_name :: names))
      (Vfs.follow m.next (PFSNode.usr 0).ptr names) := by
  have hv := hb.valid
  obtain ⟨paths, ht, -, -⟩ := hb
  have hfollow := ht.follow hv ht.root hnames
  unfold opened
  dsimp only
  rw [if_neg usr_ne_dev, if_pos rfl]
  cases hf : Vfs.follow m.next (PFSNode.usr 0).ptr names with
  | none =>
    rw [hf] at hfollow
    show Option.map _ _ = none
    rw [ht.off names hfollow]
    rfl
  | some p =>
    rw [hf] at hfollow
    obtain ⟨j, rfl, hj⟩ := hfollow
    obtain ⟨x, hx⟩ := ht.exists_node hj
    obtain ⟨hinfo, -⟩ := ht.node j _ x hj hx
    show VirtualFilesystem.open_pn S bdev (PFSNode.usr j).ptr m = _
    have hopen : zZZ.open_ bdev S.hdr j m.usr =
        .ok (x.info.map fun b => ZZz.new bdev S.hdr (UInt32.ofNat b.1), m.usr) := by
      have hload := TarFSNode.load_eq hx
      unfold zZZ.open_ TarFSNode.info
      rw [bind_eq, hload]
      dsimp only
      cases x._has_block_offset with
      | false => rfl
      | true =>
        rw [if_pos rfl, Option.map_some, UInt32.ofNat_toNat]
        rfl
    have hmap : (Option.map File.disk <$> Mounted.on_usr (zZZ.open_ bdev S.hdr j)) m =
        .ok ((x.info.map fun b => ZZz.new bdev S.hdr (UInt32.ofNat b.1)).map File.disk, m) :=
      map_zoom_read _ hopen rfl
    rw [hinfo, Option.map_map] at hmap
    unfold VirtualFilesystem.open_pn
    simp only [PFSNode.of_ptr_ptr]
    exact hmap

theorem opens_names (S : Surroundings) (bdev : BlockDevice) (hb : Built alloc C fs m.usr)
    (hnames : ∀ name ∈ names, name ∈ C) :
    Opens S bdev m (opened S bdev fs m.devices names)
      (Vfs.follow m.next (PFSNode.tmp 0).ptr names) := by
  cases names with
  | nil =>
    show VirtualFilesystem.open_pn S bdev (PFSNode.tmp 0).ptr m = _
    rfl
  | cons name names =>
    have hfollow : Vfs.follow m.next (PFSNode.tmp 0).ptr (name :: names) =
        (m.next (PFSNode.tmp 0).ptr name).bind (Vfs.follow m.next · names) := rfl
    rw [hfollow]
    by_cases hdev : name = Kernel.dev_name
    · subst hdev
      have hnext : m.next (PFSNode.tmp 0).ptr Kernel.dev_name = some PFSNode.devfs.ptr := by
        simp [Mounted.next]
      rw [hnext]
      exact opens_device names
    · by_cases husr : name = Kernel.usr_name
      · subst husr
        have hnext : m.next (PFSNode.tmp 0).ptr Kernel.usr_name = some (PFSNode.usr 0).ptr := by
          simp [Mounted.next, usr_ne_dev]
        rw [hnext]
        exact opens_usr hb fun c hc => hnames c (List.mem_cons_of_mem _ hc)
      · have hnext : m.next (PFSNode.tmp 0).ptr name = none := by simp [Mounted.next, hdev, husr]
        rw [hnext]
        show opened S bdev fs m.devices (name :: names) = none
        simp [opened, hdev, husr]

end Opened

theorem Vfs.PathIn.names {path : List UInt8} (hpath : Vfs.PathIn C path) :
    ∀ name ∈ VirtualFilesystem.names_before path, name ∈ C := by
  intro name hname
  have hne : name ≠ [] := by simpa using List.mem_takeWhile_imp hname
  exact (hpath name ((List.takeWhile_sublist _).subset hname)).2 hne

/-- A lookup leaves all as it was, but for the nodes that it makes. -/
theorem Serves.led {dm : DeviceManager} {k : ℕ} {q r : Option ℕ} (hs : Serves S C dm es v)
    (hled : Vfs.Led S.vfs_alloc (Mounted.pfs S.tmp_alloc) C v.fs.next v k q r v') :
    Serves S C dm es v' := by
  refine ⟨?_, hled.fresh, ?_, ?_, ?_⟩
  · have hshows := hled.shows
    rwa [← hled.fs] at hshows
  · exact (hled.kept 0 (Vfs.lt_of_pn hs.root)).trans hs.root
  · rw [hled.fs, hs.devices]
  · rw [hled.fs]
    exact hs.usr

/-- Whatever was looked up before, a path opens what it stands for. -/
theorem Serves.open_ {dm : DeviceManager} {path : List UInt8} (hs : Serves S C dm es v)
    (hC : Apart C) (hpath : Vfs.PathIn C path) :
    Ends (VirtualFilesystem.open_ S bdev (47 :: path)) v (fun r v' =>
      r = opened S bdev (files 0 es) dm (VirtualFilesystem.names_before path) ∧ Serves S C dm es v')
      (Vfs.Short S.vfs_alloc v (VirtualFilesystem.names_before path).length) := by
  have hopens := opens_names S bdev hs.usr hpath.names
  rw [hs.devices] at hopens
  unfold VirtualFilesystem.open_
  rw [ends_bind]
  apply ends_mono (hs.shows.lookup hC hs.fresh hs.root hpath)
  intro r v₁ hled
  have hserves : Serves S C dm es v₁ := hs.led hled
  have hanswer := hled.answer
  cases r with
  | none =>
    rw [← hanswer] at hopens
    exact ⟨hopens.symm, hserves⟩
  | some node =>
    obtain ⟨p, hp⟩ := Option.isSome_iff_exists.mp (hled.found rfl)
    have hpn : v₁.pn node = some p := hanswer.trans hp
    obtain ⟨n, hn, hnp⟩ := Vfs.exists_of_pn hpn
    rw [hp] at hopens
    dsimp only
    rw [ends_bind, Vfs.ends_on_tree, Nodes.ends_load hn, hnp]
    dsimp only
    rw [Vfs.ends_on_fs, hled.fs, ends_of_eq hopens]
    refine ⟨rfl, ?_⟩
    rw [← hled.fs]
    exact hserves

/-- The path is relative, or its names are among those of `C`. -/
def PathNamed (C : List (List UInt8)) : List UInt8 → Prop
  | [] => True
  | c :: path => c = 47 → Vfs.PathIn C path

/-- What a path stands for. A relative one stands for nothing. -/
def opened_path (S : Surroundings) (bdev : BlockDevice) (fs : List ArchiveFile) (dm : DeviceManager) :
    List UInt8 → Option File
  | [] => none
  | c :: path => if c = 47 then opened S bdev fs dm (VirtualFilesystem.names_before path) else none

theorem lookup_relative {alloc : ℕ → ℕ} {P : PFS Mounted} {path : List UInt8} {c : UInt8} (hc : c ≠ 47) :
    VirtualFilesystem.lookup_node alloc P 0 (c :: path) v = .ok (none, v) := by
  unfold VirtualFilesystem.lookup_node
  dsimp only
  rw [if_pos hc]
  rfl

theorem Serves.lookup {dm : DeviceManager} {path : List UInt8} (hs : Serves S C dm es v)
    (hC : Apart C) (hpath : PathNamed C path) :
    Ends (VirtualFilesystem.lookup_node S.vfs_alloc (Mounted.pfs S.tmp_alloc) 0 path) v
      (fun _ v' => Serves S C dm es v') fun e => e = .other .no_memory := by
  cases path with
  | nil => exact hs
  | cons c path =>
    by_cases hc : c = 47
    · subst hc
      exact ends_weaken (hs.shows.lookup hC hs.fresh hs.root (hpath rfl))
        (fun r v' hled => hs.led hled) fun e he => he.1
    · exact (ends_of_eq (lookup_relative hc)).mpr hs

theorem Serves.open_path {dm : DeviceManager} {path : List UInt8} (hs : Serves S C dm es v)
    (hC : Apart C) (hpath : PathNamed C path) :
    Ends (VirtualFilesystem.open_ S bdev path) v (fun r v' =>
      r = opened_path S bdev (files 0 es) dm path ∧ Serves S C dm es v')
      fun e => e = .other .no_memory := by
  cases path with
  | nil => exact ⟨rfl, hs⟩
  | cons c path =>
    unfold opened_path
    dsimp only
    by_cases hc : c = 47
    · subst hc
      rw [if_pos rfl]
      exact ends_weaken (hs.open_ hC (hpath rfl)) (fun _ _ h => h) fun e he => he.1
    · rw [if_neg hc]
      unfold VirtualFilesystem.open_
      rw [ends_bind, ends_of_eq (lookup_relative hc)]
      exact ⟨rfl, hs⟩

/-- The disk is device 5, and is named `d`. -/
def disk_only : DeviceManager :=
  ((DeviceManager.store (64 * ·) [100] 5 DeviceManager.start).toOption.map Prod.snd).getD
    DeviceManager.start

def twice_surroundings : Surroundings where
  vfs_alloc := (64 * ·)
  tmp_alloc := (64 * ·)
  usr_alloc := (64 * ·)
  disks d := if d = 5 then some twice_device else none
  hdr := fun _ => 0
  open_as_file _ := false

def booted : Option (Vfs Mounted) :=
  (Kernel.mount_all twice_surroundings [100] (unmounted disk_only)).toOption.bind fun r =>
    if r.1 then some r.2 else none

end Infos.Fs
