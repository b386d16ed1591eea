import Infos.Fs.TarTree
import Infos.Fs.Vfs
import Infos.Lib.System

/-!
# `TempFS` below `VirtualFilesystem`

The nodes of the tree that are outside of the mounted `TempFS` are left out: the place where it is
mounted is node 0.
-/

open Infos.Prog Infos.Util

namespace Infos.Fs

structure TempFSNode where
  _name : List UInt8
  _children : Map UInt64 ℕ

instance instParentTempFSNode : Parent TempFSNode where
  _children := TempFSNode._children
  set_children m n := { n with _children := m }
  children_set _ _ := rfl

namespace TempFSNode

def get_child (node : ℕ) (name : List UInt8) : NodeOp TempFSNode (Option ℕ) :=
  Nodes.try_get_child node name

def mkdir (alloc : ℕ → ℕ) (node : ℕ) (name : List UInt8) : NodeOp TempFSNode (Option ℕ) := do
  let dir ← Nodes.new ⟨name, Map.empty⟩
  Nodes.add_child alloc node name dir
  return some dir

end TempFSNode

namespace TempFS

def mount : NodeOp TempFSNode (Option ℕ) := do
  let node ← Nodes.new ⟨[], Map.empty⟩
  return some node

def pfs (alloc : ℕ → ℕ) : PFS (Nodes TempFSNode) where
  get_child := TempFSNode.get_child
  mkdir := TempFSNode.mkdir alloc

end TempFS

/-! ## Calls -/

/-- The calls on the nodes of the mounted file system. -/
inductive VfsCall where
  | get_child (node : ℕ) (name : List UInt8)
  | mkdir (node : ℕ) (name : List UInt8)
  deriving DecidableEq, Repr

namespace VfsCall

abbrev State := Vfs (Nodes TempFSNode)

def node : VfsCall → ℕ
  | get_child node _ | mkdir node _ => node

def name : VfsCall → List UInt8
  | get_child _ name | mkdir _ name => name

/-- `alloc` has memory for the maps of the nodes of the tree, and `fs_alloc` for those of the
nodes of `TempFS`. -/
def run (alloc fs_alloc : ℕ → ℕ) : VfsCall → VfsOp (Nodes TempFSNode) (Option ℕ)
  | get_child node name => VFSNode.get_child alloc (TempFS.pfs fs_alloc) node name
  | mkdir node name => VFSNode.mkdir alloc (TempFS.pfs fs_alloc) node name

/-- A `TempFS` is mounted. All names are among those of `C`. -/
def system (alloc fs_alloc : ℕ → ℕ) (C : List (List UInt8)) : System State VfsCall VfsFault where
  start v := ∃ pn, VFSNode.mount 0 TempFS.mount (VirtualFilesystem.initial pn ⟨[], 0⟩) = .ok (true, v)
  allowed v c := c.node < v.tree.nodes.length ∧ c.name ∈ C
  step v c := (c.run alloc fs_alloc v).map Prod.snd

instance (alloc fs_alloc : ℕ → ℕ) (C : List (List UInt8)) (v : State) (c : VfsCall) :
    Decidable ((system alloc fs_alloc C).allowed v c) := inferInstanceAs (Decidable (_ ∧ _))

/-- The directories that were made, each with the node it was made in. -/
def made (cs : List VfsCall) : List (ℕ × List UInt8) :=
  cs.filterMap fun c =>
    match c with
    | get_child _ _ => none
    | mkdir node name => some (node, name)

def pn (v : State) (node : ℕ) : Option ℕ := (v.tree.nodes.map VFSNode._pn)[node]?.join

/-- The tree says of the file system what is true. `reached` has a directory by the same names in
both. -/
structure Agrees (alloc fs_alloc : ℕ → ℕ) (C : List (List UInt8)) (ds : List (ℕ × List UInt8))
    (v : State) : Prop where
  found : ∀ i < v.tree.nodes.length, ∀ n ∈ C,
    Ends (VFSNode.get_child alloc (TempFS.pfs fs_alloc) i n) v (fun r v' =>
      (r = none ↔ (i, n) ∉ ds) ∧ ∀ c, r = some c → ∃ p, pn v i = some p ∧
        (TempFSNode.get_child p n v.fs).toOption.map Prod.fst = some (pn v' c))
      fun e => e = .other .no_memory
  reached : ∀ d < v.fs.nodes.length, ∃ names c, (∀ n ∈ names, n ∈ C) ∧
    walk_names (VFSNode.get_child alloc (TempFS.pfs fs_alloc)) 0 names v = .ok (some c, v) ∧ pn v c = some d ∧
    walk_names TempFSNode.get_child 0 names v.fs = .ok (some d, v.fs)

/-- The nodes of the tree and those of the file system are made together. -/
structure Mirrors (C : List (List UInt8)) (ds : List (ℕ × List UInt8)) (v : State) : Prop where
  valid : v.tree.Valid
  fs_valid : v.fs.Valid
  length : v.fs.nodes.length = v.tree.nodes.length
  root : 0 < v.tree.nodes.length
  pn : ∀ i < v.tree.nodes.length, pn v i = some i
  child : ∀ i hash, v.fs.child i hash = v.tree.child i hash
  below : ∀ i hash c, v.tree.child i hash = some c → c < v.tree.nodes.length
  made : ∀ i, ∀ n ∈ C, v.tree.child i (Util.String.compute_hash n) = none ↔ (i, n) ∉ ds
  parent : ∀ d < v.tree.nodes.length, d ≠ 0 →
    ∃ i < d, ∃ n ∈ C, v.tree.child i (Util.String.compute_hash n) = some d

variable {alloc fs_alloc : ℕ → ℕ} {C : List (List UInt8)} {ds : List (ℕ × List UInt8)}
  {v v' : State} {i : ℕ} {n : List UInt8} {h : Nodes TempFSNode}

theorem exists_of_pn {p : ℕ} (hp : pn v i = some p) :
    ∃ n, v.tree.nodes[i]? = some n ∧ n._pn = some p := by
  unfold pn at hp
  rw [List.getElem?_map] at hp
  cases hn : v.tree.nodes[i]? with
  | none => simp [hn] at hp
  | some n => exact ⟨n, rfl, by simpa [hn] using hp⟩

theorem ends_mkdir (hv : h.Valid) (hi : i < h.nodes.length) :
    Ends (TempFSNode.mkdir fs_alloc i n) h
      (fun r h' => r = some h.nodes.length ∧ h.Grown h' i n ⟨n, Map.empty⟩)
      fun e => e = .no_memory := by
  unfold TempFSNode.mkdir
  rw [ends_bind, Nodes.ends_new, ends_bind]
  exact ends_mono (hv.grow hi rfl) fun _ _ h => ⟨rfl, h⟩

/-- A lookup changes nothing. -/
theorem Mirrors.get_child (hm : Mirrors C ds v) (hi : i < v.tree.nodes.length) :
    VFSNode.get_child alloc (TempFS.pfs fs_alloc) i n v =
      .ok (v.tree.child i (Util.String.compute_hash n), v) := by
  obtain ⟨x, hx, hpn⟩ := exists_of_pn (hm.pn i hi)
  have hfs : TempFSNode.get_child i n v.fs =
      .ok (v.fs.child i (Util.String.compute_hash n), v.fs) :=
    hm.fs_valid.try_get_child (hm.length ▸ hi)
  have hends : Ends (VFSNode.get_child alloc (TempFS.pfs fs_alloc) i n) v (fun r v' =>
      (r, v') = (v.tree.child i (Util.String.compute_hash n), v)) fun _ => False := by
    rw [Vfs.ends_get_child hm.valid hx, hpn]
    cases hc : v.tree.child i (Util.String.compute_hash n) with
    | some c => rfl
    | none =>
      rw [hm.child, hc] at hfs
      exact (ends_of_eq hfs).mpr rfl
  obtain ⟨r, v', hr, heq⟩ := returns_of_ends hends
  rw [hr, heq]

theorem Mirrors.grown {t : Nodes VFSNode} (hC : Apart C) (hm : Mirrors C ds v)
    (hi : i < v.tree.nodes.length) (hn : n ∈ C) (hnew : (i, n) ∉ ds)
    (hh : v.fs.Grown h i n ⟨n, Map.empty⟩)
    (ht : v.tree.Grown t i n ⟨some v.fs.nodes.length, Map.empty⟩) :
    Mirrors C (ds ++ [(i, n)]) ⟨t, h⟩ := by
  have hnone := (hm.made i n hn).mpr hnew
  have hlen := hm.length
  have hht := hh.length
  have htt := ht.length
  have hpn : t.nodes.map VFSNode._pn = v.tree.nodes.map VFSNode._pn ++ [some v.fs.nodes.length] :=
    ht.field fun _ _ => rfl
  refine ⟨ht.valid, hh.valid, by dsimp only; omega, by dsimp only; omega, fun j hj => ?_,
    fun j hash => ?_, fun j hash c hc => ?_, fun j n' hn' => ?_, fun d hd hd0 => ?_⟩
  · unfold VfsCall.pn
    dsimp only at hj ⊢
    rw [hpn]
    rcases Nat.lt_or_ge j v.tree.nodes.length with hlt | hge
    · rw [List.getElem?_append_left (by simpa using hlt)]
      exact hm.pn j hlt
    · obtain rfl : j = v.tree.nodes.length := by omega
      simp [hlen]
  · dsimp only
    rw [hh.child, ht.child, hm.child, hlen]
  · dsimp only at hc ⊢
    rw [ht.child] at hc
    split at hc
    · obtain rfl := Option.some.inj hc
      omega
    · have := hm.below j hash c hc
      omega
  · dsimp only
    rw [ht.child, List.mem_append, List.mem_singleton, not_or]
    split
    next h =>
      obtain ⟨rfl, hhash⟩ := h
      simp [hC n' hn' n hn hhash]
    next h =>
      have hne : (j, n') ≠ (i, n) := by
        rintro ⟨⟩
        exact h ⟨rfl, rfl⟩
      rw [hm.made j n' hn', and_iff_left hne]
  · dsimp only at hd ⊢
    rcases Nat.lt_or_ge d v.tree.nodes.length with hlt | hge
    · obtain ⟨j, hj, n', hn', hc⟩ := hm.parent d hlt hd0
      refine ⟨j, hj, n', hn', ?_⟩
      rw [ht.child, if_neg, hc]
      rintro ⟨rfl, hhash⟩
      rw [hhash, hnone] at hc
      cases hc
    · obtain rfl : d = v.tree.nodes.length := by omega
      exact ⟨i, hi, n, hn, by rw [ht.child, if_pos ⟨rfl, rfl⟩]⟩

/-- The directory is new, and so is its node in the tree. -/
theorem Mirrors.mkdir (hC : Apart C) (hm : Mirrors C ds v) (hi : i < v.tree.nodes.length)
    (hn : n ∈ C) (hnew : (i, n) ∉ ds) :
    Ends (VFSNode.mkdir alloc (TempFS.pfs fs_alloc) i n) v
      (fun _ v' => Mirrors C (ds ++ [(i, n)]) v') fun e => e = .other .no_memory := by
  obtain ⟨x, hx, hpn⟩ := exists_of_pn (hm.pn i hi)
  have hnone := (hm.made i n hn).mpr hnew
  unfold VFSNode.mkdir
  rw [ends_bind, Vfs.ends_on_tree, Nodes.ends_load hx, hpn]
  dsimp only
  rw [ends_bind, Vfs.ends_on_fs]
  have hi' : i < v.fs.nodes.length := hm.length ▸ hi
  refine ends_weaken (ends_mkdir hm.fs_valid hi') ?_ fun e he => he ▸ rfl
  rintro r h ⟨rfl, hg⟩
  dsimp only
  rw [Vfs.ends_get_child (v := { v with fs := h }) hm.valid hx, hpn, hnone]
  have hfs : TempFSNode.get_child i n h = .ok (some v.fs.nodes.length, h) := by
    unfold TempFSNode.get_child
    have hlt : i < h.nodes.length := hg.length ▸ Nat.lt_succ_of_lt hi'
    rw [hg.valid.try_get_child hlt, hg.child, if_pos ⟨rfl, rfl⟩]
  refine (ends_of_eq hfs).mpr ?_
  dsimp only
  refine ends_weaken (hm.valid.grow hi rfl) ?_ fun e he => he ▸ rfl
  exact fun _ t ht => hm.grown hC hi hn hnew hg ht

theorem mount_eq (pn : ℕ) :
    VFSNode.mount 0 TempFS.mount (VirtualFilesystem.initial pn ⟨[], 0⟩) =
      .ok (true, ⟨⟨[⟨some 0, Map.empty⟩], 0⟩, ⟨[⟨[], Map.empty⟩], 0⟩⟩) := rfl

theorem start_mirrors (h : (system alloc fs_alloc C).start v) : Mirrors C [] v := by
  obtain ⟨pn, hx⟩ := h
  rw [mount_eq] at hx
  cases hx
  have hno : ∀ i hash, Nodes.child ⟨[(⟨some 0, Map.empty⟩ : VFSNode)], 0⟩ i hash = none := by
    intro i hash
    cases i <;> simp [Nodes.child, Parent._children]
  have hfs : ∀ i hash, Nodes.child ⟨[(⟨[], Map.empty⟩ : TempFSNode)], 0⟩ i hash = none := by
    intro i hash
    cases i <;> simp [Nodes.child, Parent._children]
  refine ⟨?_, ?_, rfl, Nat.one_pos, ?_, ?_, ?_, ?_, ?_⟩
  · intro n hn
    rw [List.mem_singleton.mp hn]
    exact Map.valid_empty
  · intro n hn
    rw [List.mem_singleton.mp hn]
    exact Map.valid_empty
  · intro i hi
    obtain rfl : i = 0 := Nat.lt_one_iff.mp hi
    rfl
  · simp [hno, hfs]
  · simp [hno]
  · simp [hno]
  · intro d hd hd0
    exact absurd (Nat.lt_one_iff.mp hd) hd0

theorem made_concat {cs : List VfsCall} {c : VfsCall} : made (cs ++ [c]) = made cs ++ made [c] :=
  List.filterMap_append

/-- While no directory is made twice, the two stay together. -/
theorem Mirrors.run {cs : List VfsCall} (hC : Apart C) (hv : Mirrors C [] v)
    (hr : (system alloc fs_alloc C).Run v cs v') (hcs : (VfsCall.made cs).Nodup) :
    Mirrors C (VfsCall.made cs) v' := by
  induction cs using List.reverseRecOn generalizing v' with
  | nil =>
    cases hr
    exact hv
  | append_singleton cs c ih =>
    obtain ⟨u, hu, ⟨hlt, hname⟩, hs⟩ := hr.last
    rw [made_concat, List.nodup_append] at hcs
    rw [made_concat]
    have hm := ih hu hcs.1
    obtain ⟨⟨r, t⟩, hx, rfl⟩ := map_eq_ok hs
    cases c with
    | get_child i n =>
      have hget : VFSNode.get_child alloc (TempFS.pfs fs_alloc) i n u = .ok (r, v') := hx
      rw [hm.get_child (show i < _ from hlt)] at hget
      cases hget
      simpa [VfsCall.made] using hm
    | mkdir i n =>
      have hnew : (i, n) ∉ VfsCall.made cs := fun hin =>
        hcs.2.2 _ hin _ (by simp [VfsCall.made]) rfl
      have hmk : VFSNode.mkdir alloc (TempFS.pfs fs_alloc) i n u = .ok (r, v') := hx
      have hgrown := ends_ok (hm.mkdir hC hlt hname hnew) hmk
      exact hgrown

theorem Mirrors.reached (hm : Mirrors C ds v) {d : ℕ} (hd : d < v.tree.nodes.length) :
    ∃ names, (∀ n ∈ names, n ∈ C) ∧
      walk_names (VFSNode.get_child alloc (TempFS.pfs fs_alloc)) 0 names v = .ok (some d, v) ∧
      walk_names TempFSNode.get_child 0 names v.fs = .ok (some d, v.fs) := by
  induction d using Nat.strongRecOn with
  | ind d ih =>
    by_cases hd0 : d = 0
    · subst hd0
      exact ⟨[], by simp, rfl, rfl⟩
    · obtain ⟨i, hid, n, hn, hc⟩ := hm.parent d hd hd0
      have hi : i < v.tree.nodes.length := Nat.lt_trans hid hd
      obtain ⟨names, hnames, hwalk, hfs⟩ := ih i hid hi
      have hchild : VFSNode.get_child alloc (TempFS.pfs fs_alloc) i n v = .ok (some d, v) := by
        rw [hm.get_child hi, hc]
      have hget : TempFSNode.get_child i n v.fs = .ok (some d, v.fs) := by
        unfold TempFSNode.get_child
        rw [hm.fs_valid.try_get_child (hm.length.symm ▸ hi), hm.child, hc]
      refine ⟨names ++ [n], ?_, walk_names_concat hwalk hchild, walk_names_concat hfs hget⟩
      intro x hx
      rcases List.mem_append.mp hx with hx | hx
      · exact hnames x hx
      · rwa [List.mem_singleton.mp hx]

theorem Mirrors.agrees (hm : Mirrors C ds v) : Agrees alloc fs_alloc C ds v := by
  refine ⟨fun i hi n hn => ?_, fun d hd => ?_⟩
  · refine (ends_of_eq (hm.get_child hi)).mpr ⟨hm.made i n hn, fun c hc => ⟨i, hm.pn i hi, ?_⟩⟩
    unfold TempFSNode.get_child
    rw [hm.fs_valid.try_get_child (hm.length.symm ▸ hi), hm.child, hc,
      hm.pn c (hm.below _ _ _ hc)]
    rfl
  · rw [hm.length] at hd
    obtain ⟨names, hnames, hwalk, hfs⟩ := hm.reached hd
    exact ⟨names, d, hnames, hwalk, hm.pn d hd, hfs⟩

/-- A directory that is made again is not the one that the tree has. -/
theorem Mirrors.stale (hm : Mirrors C ds v) (hi : i < v.tree.nodes.length) (hn : n ∈ C)
    (hold : (i, n) ∈ ds) {r : Option ℕ} {ds' : List (ℕ × List UInt8)}
    (hx : VFSNode.mkdir alloc (TempFS.pfs fs_alloc) i n v = .ok (r, v')) :
    ¬ Agrees alloc fs_alloc C ds' v' := by
  intro hag
  obtain ⟨x, hx', hpn⟩ := exists_of_pn (hm.pn i hi)
  have hi' : i < v.fs.nodes.length := hm.length ▸ hi
  obtain ⟨c, hc⟩ := Option.ne_none_iff_exists'.mp ((hm.made i n hn).not.mpr (not_not.mpr hold))
  have hends : Ends (VFSNode.mkdir alloc (TempFS.pfs fs_alloc) i n) v
      (fun _ v' => v'.tree = v.tree ∧ v.fs.Grown v'.fs i n ⟨n, Map.empty⟩)
      fun e => e = .other .no_memory := by
    unfold VFSNode.mkdir
    rw [ends_bind, Vfs.ends_on_tree, Nodes.ends_load hx', hpn]
    dsimp only
    rw [ends_bind, Vfs.ends_on_fs]
    refine ends_weaken (ends_mkdir hm.fs_valid hi') ?_ fun e he => he ▸ rfl
    rintro r h ⟨rfl, hg⟩
    dsimp only
    rw [Vfs.ends_get_child (v := { v with fs := h }) hm.valid hx', hpn, hc]
    exact ⟨rfl, hg⟩
  obtain ⟨htree, hg⟩ := ends_ok hends hx
  have hfound := hag.found i (htree ▸ hi) n hn
  rw [Vfs.ends_get_child (htree ▸ hm.valid) (htree ▸ hx'), hpn, htree, hc] at hfound
  obtain ⟨p, hp, hget⟩ := hfound.2 c rfl
  have hpns : ∀ j, VfsCall.pn v' j = VfsCall.pn v j := by
    intro j
    unfold VfsCall.pn
    rw [htree]
  have hc' := hm.below _ _ _ hc
  rw [hpns, hm.pn i hi] at hp
  obtain rfl := Option.some.inj hp
  have hlt : i < v'.fs.nodes.length := hg.length ▸ Nat.lt_succ_of_lt hi'
  unfold TempFSNode.get_child at hget
  rw [hg.valid.try_get_child hlt, hg.child, if_pos ⟨rfl, rfl⟩, hpns, hm.pn c hc'] at hget
  have hlen : v.fs.nodes.length = c := by simpa [Except.toOption] using hget
  have := hm.length
  omega

/-- As long as no directory is made again in its node, and no longer, the tree agrees with the file
system. -/
theorem cache_agrees {cs : List VfsCall} {v₀ : State} (hC : Apart C)
    (h₀ : (system alloc fs_alloc C).start v₀) (hr : (system alloc fs_alloc C).Run v₀ cs v') :
    (∀ ds v, ds <+: cs → (system alloc fs_alloc C).Run v₀ ds v →
        Agrees alloc fs_alloc C (made ds) v) ↔ (made cs).Nodup := by
  have hstart := start_mirrors h₀
  constructor
  · intro h
    induction cs using List.reverseRecOn generalizing v' with
    | nil => exact List.nodup_nil
    | append_singleton cs c ih =>
      obtain ⟨u, hu, ⟨hlt, hname⟩, hs⟩ := hr.last
      have hcs := ih hu fun ds v hds => h ds v (hds.trans (List.prefix_append _ _))
      have hm := hstart.run hC hu hcs
      obtain ⟨⟨r, t⟩, hx, rfl⟩ := map_eq_ok hs
      rw [made_concat, List.nodup_append]
      refine ⟨hcs, ?_, ?_⟩
      · cases c <;> simp [made]
      · cases c with
        | get_child i n => simp [made]
        | mkdir i n =>
          rintro a ha b hb rfl
          obtain rfl : a = (i, n) := by simpa [made] using hb
          exact hm.stale hlt hname ha hx (h _ _ (List.prefix_refl _) hr)
  · intro hcs ds v hds hv
    exact (hstart.run hC hv (hcs.sublist (hds.sublist.filterMap _))).agrees

/-- The tree after a `TempFS` was mounted. -/
def mounted : State := ⟨⟨[⟨some 0, Map.empty⟩], 0⟩, ⟨[⟨[], Map.empty⟩], 0⟩⟩

theorem mounted_start : (system alloc fs_alloc C).start mounted := ⟨0, mount_eq 0⟩

theorem apart_singleton (n : List UInt8) : Apart [n] := by
  intro x hx y hy _
  rw [List.mem_singleton.mp hx, List.mem_singleton.mp hy]

/-- `/a` is made, and `/a/a`. -/
def two_levels : List VfsCall := [.mkdir 0 [97], .get_child 0 [97], .mkdir 1 [97]]

theorem cache_agrees_two_levels :
    ∃ v, (system (64 * ·) (64 * ·) [[97]]).Run mounted two_levels v ∧
      Agrees (64 * ·) (64 * ·) [[97]] (made two_levels) v := by
  have hsome : ((system (64 * ·) (64 * ·) [[97]]).exec mounted two_levels).isSome := by
    decide +kernel
  obtain ⟨v, hv⟩ := Option.isSome_iff_exists.mp hsome
  have hr := System.run_of_exec hv
  refine ⟨v, hr, ?_⟩
  exact (cache_agrees (apart_singleton [97]) mounted_start hr).mpr (by decide) _ _
    (List.prefix_refl _) hr

/-- `/a` is made twice. -/
theorem cache_stale : ¬ ∀ cs v, (system (64 * ·) (64 * ·) [[97]]).Run mounted cs v →
    Agrees (64 * ·) (64 * ·) [[97]] (made cs) v := by
  intro h
  have hsome : ((system (64 * ·) (64 * ·) [[97]]).exec mounted
      ([.mkdir 0 [97]] ++ [.mkdir 0 [97]])).isSome := by decide +kernel
  obtain ⟨v, hv⟩ := Option.isSome_iff_exists.mp hsome
  have hr := System.run_of_exec hv
  obtain ⟨u, hu, ⟨hlt, hname⟩, hs⟩ := hr.last
  have hm₀ : Mirrors [[97]] [] mounted := @start_mirrors (64 * ·) (64 * ·) _ _ mounted_start
  have hm := hm₀.run (apart_singleton [97]) hu (by decide)
  obtain ⟨⟨r, t⟩, hx, rfl⟩ := map_eq_ok hs
  exact hm.stale hlt hname (by decide) hx (h _ _ hr)

end VfsCall

end Infos.Fs
