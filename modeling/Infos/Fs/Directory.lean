import Infos.Fs.TempFS
import Infos.Kernel.DeviceManager

/-!
# Directories

What `opendir` makes of a node of each of the three file systems that have directories, and how it
is read.
-/

open Infos.Prog Infos.Util Infos.Kernel

namespace Infos.Fs

structure DirectoryEntry where
  name : List UInt8
  size : UInt32
  deriving DecidableEq, Repr

/-- The entry at the cursor `cur`, which is moved on, as long as it is less than `count`. -/
def entry_at (entries : List DirectoryEntry) (count cur : UInt32) :
    Option (DirectoryEntry × UInt32) :=
  if cur < count then entries[cur.toNat]?.map fun e => (e, cur + 1) else none

structure SimpleDirectory where
  _entries : List DirectoryEntry
  _current_entry : UInt32
  deriving DecidableEq, Repr

def SimpleDirectory.read_entry (dir : SimpleDirectory) :
    Option (DirectoryEntry × SimpleDirectory) :=
  (entry_at dir._entries (UInt32.ofNat dir._entries.length) dir._current_entry).map fun r =>
    (r.1, { dir with _current_entry := r.2 })

structure TarFSDirectory where
  _entries : List DirectoryEntry
  _nr_entries : UInt32
  _cur_entry : UInt32
  deriving DecidableEq, Repr

def TarFSDirectory.read_entry (dir : TarFSDirectory) : Option (DirectoryEntry × TarFSDirectory) :=
  (entry_at dir._entries dir._nr_entries dir._cur_entry).map fun r =>
    (r.1, { dir with _cur_entry := r.2 })

/-- `read_entry` gives the entries one after the other, and then answers `false`. -/
inductive ReadsAll {D : Type} (read_entry : D → Option (DirectoryEntry × D)) :
    D → List DirectoryEntry → Prop
  | nil {dir : D} (h : read_entry dir = none) : ReadsAll read_entry dir []
  | cons {dir dir' : D} {e : DirectoryEntry} {es : List DirectoryEntry}
      (h : read_entry dir = some (e, dir')) (hr : ReadsAll read_entry dir' es) :
      ReadsAll read_entry dir (e :: es)

def TarFSNode.opendir (node : ℕ) : TarOp (Option TarFSDirectory) := do
  if (← load node)._has_block_offset then return none
  let _nr_entries := (← load node)._children.count
  let _entries ← (← children node Map.iterate).mapM fun child => do
    let c ← load child.2
    return ⟨c._name, c._size⟩
  return some ⟨_entries, _nr_entries, 0⟩

def TempFSNode.opendir (node : ℕ) : NodeOp TempFSNode (Option SimpleDirectory) := do
  let _entries ← (← Nodes.children node Map.iterate).mapM fun child => do
    let c ← Nodes.load child.2
    return ⟨c._name, 0⟩
  return some ⟨_entries, 0⟩

/-- The node is a new `DeviceFSNode` for the device. -/
def DeviceFSRootNode.get_child (name : List UInt8) : DeviceOp (Option ℕ) :=
  DeviceManager.try_get_device_by_name name

def DeviceFSRootNode.opendir : DeviceOp (Option SimpleDirectory) := do
  let devices ← DeviceManager.devices
  let names := (← get).names
  return some ⟨devices.map fun device => ⟨names device, 0⟩, 0⟩

/-! ## Reading -/

theorem ReadsAll.unique {D : Type} {read_entry : D → Option (DirectoryEntry × D)} {dir : D}
    {es es' : List DirectoryEntry} (h : ReadsAll read_entry dir es)
    (h' : ReadsAll read_entry dir es') : es = es' := by
  induction h generalizing es' with
  | nil hn =>
    cases h' with
    | nil => rfl
    | cons hc => simp [hn] at hc
  | cons hc _ ih =>
    cases h' with
    | nil hn => simp [hn] at hc
    | cons hc' hr =>
      rw [hc] at hc'
      cases hc'
      rw [ih hr]

/-- From the cursor on, all the entries are read. -/
theorem reads_from {D : Type} {read_entry : D → Option (DirectoryEntry × D)} (place : UInt32 → D)
    {entries : List DirectoryEntry} {count cur : UInt32}
    (hread : ∀ cur, read_entry (place cur) = (entry_at entries count cur).map fun r =>
      (r.1, place r.2))
    (hcount : count.toNat = entries.length) (hcur : cur.toNat ≤ entries.length) :
    ReadsAll read_entry (place cur) (entries.drop cur.toNat) := by
  induction hk : entries.length - cur.toNat generalizing cur with
  | zero =>
    rw [List.drop_eq_nil_of_le (by omega)]
    refine .nil ?_
    rw [hread, entry_at, if_neg]
    · rfl
    · rw [UInt32.lt_iff_toNat_lt]
      omega
  | succ k ih =>
    have hlt : cur.toNat < entries.length := by omega
    have hcl : cur < count := by
      rw [UInt32.lt_iff_toNat_lt]
      omega
    have hnext : (cur + 1).toNat = cur.toNat + 1 := by
      have := count.toNat_lt
      rw [UInt32.toNat_add, show (1 : UInt32).toNat = 1 from rfl, Nat.mod_eq_of_lt (by omega)]
    rw [List.drop_eq_getElem_cons hlt, ← hnext]
    refine .cons ?_ (ih (by omega) (by omega))
    rw [hread, entry_at, if_pos hcl, List.getElem?_eq_getElem hlt]
    rfl

theorem SimpleDirectory.reads_all {entries : List DirectoryEntry} (h : entries.length < 2 ^ 32) :
    ReadsAll read_entry ⟨entries, 0⟩ entries :=
  reads_from (fun cur => SimpleDirectory.mk entries cur) (fun _ => rfl)
    (UInt32.toNat_ofNat_of_lt' h) (Nat.zero_le _)

theorem TarFSDirectory.reads_all {entries : List DirectoryEntry} {count : UInt32}
    (h : count.toNat = entries.length) : ReadsAll read_entry ⟨entries, count, 0⟩ entries :=
  reads_from (fun cur => TarFSDirectory.mk entries count cur) (fun _ => rfl) h
    (Nat.zero_le _)

/-! ## Names and hashes -/

/-- The names that a listing gives are those that are found, each once. -/
structure ListsAll (C : List (List UInt8)) (found : List UInt8 → Prop)
    (names : List (List UInt8)) : Prop where
  once : names.Nodup
  sound : ∀ n ∈ names, found n
  complete : ∀ n ∈ C, found n → n ∈ names

theorem ListsAll.perm {C names names' : List (List UInt8)} {found : List UInt8 → Prop}
    (h : ListsAll C found names) (hp : names.Perm names') : ListsAll C found names' :=
  ⟨hp.nodup_iff.mp h.once, fun n hn => h.sound n (hp.mem_iff.mpr hn),
    fun n hn hf => hp.mem_iff.mp (h.complete n hn hf)⟩

/-- Each entry of the map has the hash of the name of what it leads to. -/
def NamedBy (C : List (List UInt8)) (m : Map UInt64 ℕ) (name : ℕ → List UInt8) : Prop :=
  ∀ k j, m.get k = some j → Util.String.compute_hash (name j) = k ∧ name j ∈ C

variable {C : List (List UInt8)} {m : Map UInt64 ℕ} {name : ℕ → List UInt8}
  {es : List (UInt64 × ℕ)}

theorem NamedBy.lists_all (hC : Apart C) (hn : NamedBy C m name) (hnd : (es.map Prod.fst).Nodup)
    (hmem : ∀ k v, (k, v) ∈ es ↔ m.get k = some v) :
    ListsAll C (fun n => m.get (Util.String.compute_hash n) ≠ none)
      (es.map fun e => name e.2) := by
  refine ⟨?_, fun n hn' => ?_, fun n hnC hfound => ?_⟩
  · have hkeys : (es.map fun e => name e.2).map Util.String.compute_hash = es.map Prod.fst := by
      rw [List.map_map]
      exact List.map_congr_left fun e he => (hn e.1 e.2 ((hmem _ _).mp he)).1
    exact List.Nodup.of_map _ (hkeys ▸ hnd)
  · obtain ⟨e, he, rfl⟩ := List.mem_map.mp hn'
    have hget := (hmem _ _).mp he
    rw [(hn _ _ hget).1, hget]
    exact Option.some_ne_none _
  · obtain ⟨j, hj⟩ := Option.ne_none_iff_exists'.mp hfound
    obtain ⟨hhash, hin⟩ := hn _ _ hj
    rw [← hC _ hin n hnC hhash]
    exact List.mem_map.mpr ⟨_, (hmem _ _).mpr hj, rfl⟩

end Infos.Fs
