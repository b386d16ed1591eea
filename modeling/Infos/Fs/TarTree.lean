import Infos.Fs.Nodes
import Infos.Fs.TarFS
import Mathlib.Data.List.Induction
import Mathlib.Tactic.Ring

/-!
# The tree of an archive

An archive is a list of entries, and says which files there are. The tree that is made from the
blocks has a node for each prefix of a path, and with it what the last file of that path has.
-/

open Infos.Prog Infos.Util

namespace Infos.Fs

abbrev Path := List (List UInt8)

/-! ## Archives -/

/-- The number that octal digits stand for. -/
def octal (ds : List UInt8) : ℕ := ds.foldl (fun v d => 8 * v + (d.toNat - 48)) 0

/-- A header and the blocks of data behind it, which may hold anything. -/
structure Entry where
  header : Block
  data : List Block
  name_ends : (posix_header.name header).length ≤ 99
  size_ends : (posix_header.size header).length = 11
  digits : ∀ d ∈ posix_header.size header, 48 ≤ d.toNat ∧ d.toNat ≤ 55
  size_lt : octal (posix_header.size header) < 2 ^ 30
  data_length : data.length = (octal (posix_header.size header) + 511) / 512

namespace Entry

def blocks (e : Entry) : List Block := e.header :: e.data

def size (e : Entry) : ℕ := octal (posix_header.size e.header)

/-- What `split` answers for the name. -/
def path (e : Entry) : Path := (posix_header.name e.header).splitOn 47

end Entry

structure Archive (dev : BlockDevice) (es : List Entry) : Prop where
  holds : ∀ i b, (es.flatMap Entry.blocks)[i]? = some b → dev.read_block i = some b
  fits : (es.flatMap Entry.blocks).length ≤ dev.block_count
  ended : (es.flatMap Entry.blocks).length = dev.block_count ∨
    ∃ b, dev.read_block (es.flatMap Entry.blocks).length = some b ∧ TarFS.is_zero_block b

/-- `block` is the number of the header. -/
structure ArchiveFile where
  path : Path
  block : ℕ
  size : ℕ
  deriving DecidableEq, Repr

/-- The entries of the type `'0'`, from the block `pos` on. -/
def files (pos : ℕ) : List Entry → List ArchiveFile
  | [] => []
  | e :: es =>
    (if posix_header.typeflag e.header = 48 then [⟨e.path, pos, e.size⟩] else []) ++
      files (pos + e.blocks.length) es

/-- The names on all the paths. -/
def names (fs : List ArchiveFile) : List (List UInt8) := fs.flatMap ArchiveFile.path

/-- The block and the size of the last file with the path. -/
def found (fs : List ArchiveFile) (p : Path) : Option (ℕ × ℕ) :=
  (fs.reverse.find? fun f => f.path = p).map fun f => (f.block, f.size)

/-- The paths that lead to a file or to a directory with a file below. -/
def Known (fs : List ArchiveFile) (p : Path) : Prop := p = [] ∨ ∃ f ∈ fs, p <+: f.path

/-! ## Trees -/

/-- The block offset, if the node has one, and the size. -/
def TarFSNode.info (n : TarFSNode) : Option (ℕ × ℕ) :=
  if n._has_block_offset then some (n._block_offset.toNat, n._size.toNat) else none

/-- The nodes are those of the paths, one for each. -/
structure Matches (fs : List ArchiveFile) (root : ℕ) (h : Heap) : Prop where
  reached : ∀ p, Known fs p → ∃ i n, TarFSNode.walk root p h = .ok (some i, h) ∧
    h.nodes[i]? = some n ∧ n.info = found fs p
  only : ∀ i < h.nodes.length, ∃ p, Known fs p ∧ TarFSNode.walk root p h = .ok (some i, h) ∧
    ∀ q, Known fs q → TarFSNode.walk root q h = .ok (some i, h) → q = p

/-- Two of the names do not have the same hash. -/
def Apart (C : List (List UInt8)) : Prop :=
  ∀ x ∈ C, ∀ y ∈ C, Util.String.compute_hash x = Util.String.compute_hash y → x = y

/-- The one reason to stop. -/
def Short (alloc : ℕ → ℕ) (n : ℕ) (e : Fault) : Prop := e = .no_memory ∧ ¬ Room alloc n

/-- The children of the node with the path `p`. -/
def Below (C : List (List UInt8)) (paths : List Path) (p : Path) (m : Map UInt64 ℕ) : Prop :=
  ∃ es t, Map.Holds es m t ∧ ∀ c ∈ C, ∀ j : ℕ,
    Map.last (Util.String.compute_hash c) es = some j ↔ paths[j]? = some (p ++ [c])

/-- `paths` are the paths of the nodes in their order, and `g` is what they have. -/
structure IsTree (alloc : ℕ → ℕ) (C : List (List UInt8)) (g : Path → Option (ℕ × ℕ))
    (paths : List Path) (h : Heap) : Prop where
  root : paths[0]? = some []
  length : h.nodes.length = paths.length
  nodup : paths.Nodup
  closed : ∀ p c, p ++ [c] ∈ paths → p ∈ paths
  off : ∀ p, p ∉ paths → g p = none
  node : ∀ (i : ℕ) p (n : TarFSNode), paths[i]? = some p → h.nodes[i]? = some n →
    n.info = g p ∧ Below C paths p n._children
  fresh : ∀ n ∈ h.nodes, ∀ a, n._children.node a ≠ none → ∃ j < h.requests, a = alloc j

variable {alloc : ℕ → ℕ} {C : List (List UInt8)} {c : List UInt8} {g : Path → Option (ℕ × ℕ)}
  {paths : List Path} {h : Heap} {i j N : ℕ} {p q p' : Path} {n : TarFSNode} {dev : BlockDevice}
  {es : List Entry} {fs : List ArchiveFile}

/-! ## The numbers in headers -/

theorem octal_concat (ds : List UInt8) (d : UInt8) :
    octal (ds ++ [d]) = 8 * octal ds + (d.toNat - 48) := by
  unfold octal
  rw [List.foldl_append]
  rfl

theorem octal_cons (d : UInt8) (ds : List UInt8) :
    octal (d :: ds) = (d.toNat - 48) * 8 ^ ds.length + octal ds := by
  induction ds using List.reverseRecOn with
  | nil => simp [octal]
  | append_singleton ds e ih =>
    rw [← List.cons_append, octal_concat, octal_concat, ih, List.length_append, List.length_singleton,
      pow_succ]
    ring

theorem digit_eq {d : UInt8} (hd : 48 ≤ d.toNat ∧ d.toNat ≤ 55) :
    d.toInt8.toInt32.toUInt32 - 48 = UInt32.ofNat (d.toNat - 48) := by
  have hall : ∀ k < 8, (UInt8.ofNat (48 + k)).toInt8.toInt32.toUInt32 - 48 = UInt32.ofNat k := by
    decide
  have := hall (d.toNat - 48) (by omega)
  rwa [Nat.add_sub_cancel' hd.1, UInt8.ofNat_toNat] at this

theorem octal2ui_loop_eq {ds : List UInt8} {factor value : UInt32}
    (hd : ∀ d ∈ ds, 48 ≤ d.toNat ∧ d.toNat ≤ 55) :
    octal2ui_loop ds factor value = value + factor * UInt32.ofNat (octal ds.reverse) := by
  induction ds generalizing factor value with
  | nil => simp [octal2ui_loop, octal]
  | cons d ds ih =>
    have hshift : factor <<< 3 = factor * 8 := by
      refine UInt32.toNat_inj.mp ?_
      rw [UInt32.toNat_shiftLeft, UInt32.toNat_mul, Nat.shiftLeft_eq]
      rfl
    have height : UInt32.ofNat 8 = 8 := rfl
    unfold octal2ui_loop
    rw [ih fun x hx => hd x (List.mem_cons_of_mem _ hx), digit_eq (hd d List.mem_cons_self), hshift,
      List.reverse_cons, octal_concat, UInt32.ofNat_add, UInt32.ofNat_mul, height]
    grind

/-- The digit that is not looked at is 0, as the size is less than `2 ^ 30`. -/
theorem Entry.octal2ui_eq (e : Entry) :
    octal2ui (posix_header.size e.header) = UInt32.ofNat e.size := by
  have hlt := e.size_lt
  have hlen := e.size_ends
  have hdigits := e.digits
  unfold Entry.size
  cases hds : posix_header.size e.header with
  | nil =>
    rw [hds] at hlen
    cases hlen
  | cons d ds =>
    rw [hds] at hlt hlen hdigits
    have htail : ds.length = 10 := by simpa using hlen
    rw [octal_cons, htail] at hlt ⊢
    have hzero : d.toNat - 48 = 0 := by omega
    unfold octal2ui
    rw [octal2ui_loop_eq, List.tail_cons, List.reverse_reverse, hzero]
    · simp
    · intro x hx
      exact hdigits x (List.mem_of_mem_tail (List.mem_reverse.mp hx))

/-! ## Calls on a node -/

namespace TarFSNode

variable {α : Type} {E : Fault → Prop}

@[simp] theorem load_eq (hn : h.nodes[i]? = some n) : load i h = .ok (n, h) := by
  unfold load
  rw [bind_eq]
  simp only [get, getThe, MonadStateOf.get, StateT.get, pure, Except.pure, hn]
  rfl

theorem load_null (hn : h.nodes[i]? = none) : load i h = .error .null := by
  unfold load
  rw [bind_eq]
  simp only [get, getThe, MonadStateOf.get, StateT.get, pure, Except.pure, hn]
  rfl

theorem ends_load {Q : TarFSNode → Heap → Prop} (hn : h.nodes[i]? = some n) :
    Ends (load i) h Q E ↔ Q n h := ends_of_eq (load_eq hn)

@[simp] theorem ends_store {Q : Unit → Heap → Prop} :
    Ends (store i n) h Q E ↔ Q () { h with nodes := h.nodes.set i n } := Iff.rfl

theorem children_eq {x : Util.Op UInt64 ℕ α} (hn : h.nodes[i]? = some n) :
    children i x h = (x n._children).map fun r =>
      (r.1, { h with nodes := h.nodes.set i { n with _children := r.2 } }) := by
  unfold children
  rw [bind_eq, load_eq hn]
  dsimp only
  cases x n._children <;> rfl

theorem ends_children {x : Util.Op UInt64 ℕ α} {Q : α → Heap → Prop} (hn : h.nodes[i]? = some n) :
    Ends (children i x) h Q E ↔ Ends x n._children
      (fun a m => Q a { h with nodes := h.nodes.set i { n with _children := m } }) E := by
  unfold Ends
  rw [children_eq hn]
  cases x n._children <;> rfl

theorem ends_set_block_offset {offset : UInt32} {Q : Unit → Heap → Prop}
    (hn : h.nodes[i]? = some n) : Ends (set_block_offset i offset) h Q E ↔
      Q () { h with nodes := h.nodes.set i { n with
        _has_block_offset := true, _block_offset := offset } } := by
  unfold set_block_offset
  rw [ends_bind, ends_load hn, ends_store]

theorem ends_size {s : UInt32} {Q : Unit → Heap → Prop} (hn : h.nodes[i]? = some n) :
    Ends (size i s) h Q E ↔ Q () { h with nodes := h.nodes.set i { n with _size := s } } := by
  unfold size
  rw [ends_bind, ends_load hn, ends_store]

end TarFSNode

theorem IsTree.exists_node (ht : IsTree alloc C g paths h) (hp : paths[i]? = some p) :
    ∃ n, h.nodes[i]? = some n := by
  obtain ⟨hi, -⟩ := List.getElem?_eq_some_iff.mp hp
  exact ⟨_, List.getElem?_eq_getElem (ht.length ▸ hi)⟩

theorem IsTree.index (ht : IsTree alloc C g paths h) (hi : paths[i]? = some p)
    (hj : paths[j]? = some p) : i = j := by
  obtain ⟨hlt, -⟩ := List.getElem?_eq_some_iff.mp hi
  exact (List.getElem?_inj hlt ht.nodup).mp (hi.trans hj.symm)

theorem IsTree.closed_append (ht : IsTree alloc C g paths h) (h : p ++ q ∈ paths) : p ∈ paths := by
  induction q using List.reverseRecOn with
  | nil => simpa using h
  | append_singleton q c ih =>
    rw [← List.append_assoc] at h
    exact ih (ht.closed _ _ h)

theorem IsTree.get_child (ht : IsTree alloc C g paths h) (hp : paths[i]? = some p) (hc : c ∈ C) :
    ∃ o, TarFSNode.get_child i c h = .ok (o, h) ∧
      ∀ j, o = some j ↔ paths[j]? = some (p ++ [c]) := by
  obtain ⟨n, hn⟩ := ht.exists_node hp
  obtain ⟨-, es, t, hes, hchild⟩ := ht.node i p n hp hn
  obtain ⟨o, m, ho, rfl, rfl⟩ :=
    Map.try_get_value_spec (k := Util.String.compute_hash c) hes.rep
  rw [hes.value] at ho
  refine ⟨_, ?_, hchild c hc⟩
  have hset : h.nodes.set i n = h.nodes := by
    obtain ⟨hi, rfl⟩ := List.getElem?_eq_some_iff.mp hn
    exact List.set_getElem_self hi
  unfold TarFSNode.get_child
  rw [TarFSNode.children_eq hn, ho]
  exact congrArg (fun nodes => Except.ok (_, { h with nodes })) hset

/-- From the node of a path, the names lead where the paths say. -/
theorem IsTree.walk (ht : IsTree alloc C g paths h) (hq : ∀ c ∈ q, c ∈ C) (hi : paths[i]? = some p)
    (hj : paths[j]? = some (p ++ q)) : TarFSNode.walk i q h = .ok (some j, h) := by
  induction q generalizing i p with
  | nil =>
    rw [List.append_nil] at hj
    rw [ht.index hi hj]
    rfl
  | cons c q ih =>
    obtain ⟨o, ho, hchild⟩ := ht.get_child hi (hq c List.mem_cons_self)
    have hmem : p ++ [c] ∈ paths := by
      refine ht.closed_append (q := q) ?_
      rw [List.append_assoc, List.singleton_append]
      exact List.mem_of_getElem? hj
    obtain ⟨k, hk⟩ := List.mem_iff_getElem?.mp hmem
    obtain rfl := (hchild k).mpr hk
    unfold TarFSNode.walk
    rw [bind_eq, ho]
    refine ih (fun c hc => hq c (List.mem_cons_of_mem _ hc)) hk ?_
    rwa [List.append_assoc, List.singleton_append]

/-! ## A new node -/

theorem getElem?_concat_eq_some {α : Type} {l : List α} {a b : α} {k : ℕ} :
    (l ++ [a])[k]? = some b ↔ l[k]? = some b ∨ k = l.length ∧ a = b := by
  rcases lt_trichotomy k l.length with hk | rfl | hk
  · rw [List.getElem?_append_left hk]
    simp [hk.ne]
  · simp
  · have hlen : (l ++ [a]).length ≤ k := by
      rw [List.length_append, List.length_singleton]
      omega
    rw [List.getElem?_eq_none hlen, List.getElem?_eq_none hk.le]
    simp [hk.ne']

theorem Below.beside {m : Map UInt64 ℕ} (hb : Below C paths q m) (hq : q ≠ p) :
    Below C (paths ++ [p ++ [c]]) q m := by
  obtain ⟨es, t, hes, hchild⟩ := hb
  refine ⟨es, t, hes, fun x hx j => ?_⟩
  rw [getElem?_concat_eq_some, hchild x hx, or_iff_left]
  rintro ⟨-, he⟩
  exact hq (List.append_inj' he rfl).1.symm

/-- The child `c` is the next node. -/
theorem Below.added {m : Map UInt64 ℕ} {t : RedBlack.RBTree (Map.Cell UInt64 ℕ)}
    {es : List (UInt64 × ℕ)} (hC : Apart C) (hc : c ∈ C)
    (hchild : ∀ x ∈ C, ∀ j : ℕ, Map.last (Util.String.compute_hash x) es = some j ↔
      paths[j]? = some (p ++ [x]))
    (hno : p ++ [c] ∉ paths)
    (hm : Map.Holds (es ++ [(Util.String.compute_hash c, paths.length)]) m t) :
    Below C (paths ++ [p ++ [c]]) p m := by
  refine ⟨_, t, hm, fun x hx j => ?_⟩
  rw [Map.last_append, getElem?_concat_eq_some, ← hchild x hx]
  by_cases he : Util.String.compute_hash x = Util.String.compute_hash c
  · obtain rfl := hC x hx c hc he
    have hnone : Map.last (Util.String.compute_hash x) es ≠ some j := fun hj =>
      hno (List.mem_of_getElem? ((hchild x hx j).mp hj))
    rw [if_pos rfl, or_iff_right hnone, Option.some_inj, and_iff_left rfl, eq_comm]
  · have hne : p ++ [c] ≠ p ++ [x] := by
      intro heq
      obtain rfl : c = x := by simpa using heq
      exact he rfl
    rw [if_neg he, or_iff_left fun h => hne h.2]

theorem below_new (hno : ∀ x, p ++ [x] ∉ paths) : Below C paths p Map.empty := by
  refine ⟨[], .leaf, Map.holds_empty, fun x _ j => ?_⟩
  rw [Map.last_nil]
  exact ⟨nofun, fun hj => absurd (List.mem_of_getElem? hj) (hno x)⟩

/-- The step of the loop that makes a node. -/
theorem IsTree.grow (ht : IsTree alloc C g paths h) (hC : Apart C) (hp : paths[i]? = some p)
    (hc : c ∈ C) (hno : p ++ [c] ∉ paths) (hN : h.requests < N) :
    Ends (TarFSNode.new c >>= fun node => TarFSNode.add_child alloc i c node >>= fun _ => pure node)
      h (fun node h' => node = paths.length ∧ IsTree alloc C g (paths ++ [p ++ [c]]) h' ∧
        h'.requests = h.requests + 1) (Short alloc N) := by
  obtain ⟨n, hn⟩ := ht.exists_node hp
  obtain ⟨hinfo, es, t, hes, hchild⟩ := ht.node i p n hp hn
  have hi : i < h.nodes.length := (List.getElem?_eq_some_iff.mp hn).1
  unfold TarFSNode.new TarFSNode.add_child
  simp only [ends_bind, ends_get, ends_modify, ends_pure]
  rw [TarFSNode.ends_children (n := n) (by rwa [List.getElem?_append_left hi])]
  refine ends_weaken hes.add_spec ?_ ?_
  · rintro - m ⟨⟨t', ht'⟩, hsub⟩
    refine ⟨ht.length, ⟨?_, ?_, ?_, ?_, ?_, ?_, ?_⟩, rfl⟩
    · exact getElem?_concat_eq_some.mpr (Or.inl ht.root)
    · simp [ht.length]
    · refine List.nodup_append.mpr ⟨ht.nodup, List.nodup_singleton _, ?_⟩
      rintro a ha b hb rfl
      rw [List.mem_singleton.mp hb] at ha
      exact hno ha
    · intro q x hq
      rcases List.mem_append.mp hq with hq | hq
      · exact List.mem_append_left _ (ht.closed q x hq)
      · obtain ⟨rfl, -⟩ := List.append_inj' (List.mem_singleton.mp hq) rfl
        exact List.mem_append_left _ (List.mem_of_getElem? hp)
    · intro q hq
      exact ht.off q fun h => hq (List.mem_append_left _ h)
    · intro k q x hq hx
      rcases getElem?_concat_eq_some.mp hq with hold | ⟨rfl, rfl⟩
      · by_cases hki : k = i
        · subst hki
          obtain rfl : q = p := Option.some.inj (hold.symm.trans hp)
          rw [List.getElem?_set_self (by simp; omega)] at hx
          cases hx
          rw [ht.length] at ht'
          exact ⟨hinfo, Below.added hC hc hchild hno ht'⟩
        · have hk : k < h.nodes.length := by
            rw [ht.length]
            exact (List.getElem?_eq_some_iff.mp hold).1
          rw [List.getElem?_set_ne (Ne.symm hki), List.getElem?_append_left hk] at hx
          obtain ⟨hinfo', hbelow⟩ := ht.node k q x hold hx
          refine ⟨hinfo', hbelow.beside ?_⟩
          rintro rfl
          exact hki (ht.index hold hp)
      · rw [← ht.length, List.getElem?_set_ne hi.ne, List.getElem?_concat_length] at hx
        cases hx
        refine ⟨(ht.off _ hno).symm, below_new fun y hy => ?_⟩
        rcases List.mem_append.mp hy with hy | hy
        · exact hno (ht.closed _ _ hy)
        · simp at hy
    · intro x hx a ha
      rcases List.mem_or_eq_of_mem_set hx with hx | rfl
      · rcases List.mem_append.mp hx with hx | hx
        · obtain ⟨j, hj, rfl⟩ := ht.fresh x hx a ha
          exact ⟨j, Nat.lt_succ_of_lt hj, rfl⟩
        · obtain rfl := List.mem_singleton.mp hx
          exact absurd rfl ha
      · rcases hsub a ha with rfl | ha
        · exact ⟨_, Nat.lt_succ_self _, rfl⟩
        · obtain ⟨j, hj, rfl⟩ := ht.fresh n (List.mem_of_getElem? hn) a ha
          exact ⟨j, Nat.lt_succ_of_lt hj, rfl⟩
  · rintro e ⟨rfl, hfree⟩
    refine ⟨rfl, fun hroom => hfree ⟨?_, (hroom _ hN).1⟩⟩
    by_contra hne
    obtain ⟨j, hj, heq⟩ := ht.fresh n (List.mem_of_getElem? hn) _ hne
    exact (hroom _ hN).2 j hj heq.symm

/-! ## A file -/

theorem prefixes_cons : (∃ r, r <+: c :: q ∧ p' = p ++ r) ↔
    p' = p ∨ ∃ r, r <+: q ∧ p' = p ++ [c] ++ r := by
  simp only [List.prefix_cons_iff, or_and_right, exists_or, exists_eq_left, List.append_nil]
  refine or_congr_right ⟨?_, ?_⟩
  · rintro ⟨r, ⟨s, rfl, hs⟩, rfl⟩
    exact ⟨s, hs, by simp⟩
  · rintro ⟨s, hs, rfl⟩
    exact ⟨c :: s, ⟨s, rfl, hs⟩, by simp⟩

/-- The paths from `p` on are made one name after the other. -/
theorem IsTree.descend (ht : IsTree alloc C g paths h) (hC : Apart C) (hp : paths[i]? = some p)
    (hq : ∀ c ∈ q, c ∈ C) (hN : h.requests + q.length ≤ N) :
    Ends (TarFS.build_tree_recursive_loop alloc i q) h (fun j h' => ∃ paths',
      IsTree alloc C g paths' h' ∧ paths'[j]? = some (p ++ q) ∧
      (∀ x, x ∈ paths' ↔ x ∈ paths ∨ ∃ r, r <+: q ∧ x = p ++ r) ∧
      h'.requests ≤ h.requests + q.length) (Short alloc N) := by
  induction q generalizing i p paths h with
  | nil =>
    have hmem := List.mem_of_getElem? hp
    refine ⟨paths, ht, by rwa [List.append_nil], fun x => ?_, Nat.le_add_right _ _⟩
    simp only [List.prefix_nil, exists_eq_left, List.append_nil]
    exact ⟨Or.inl, fun hx => hx.elim id fun h => h ▸ hmem⟩
  | cons c q ih =>
    have hmem := List.mem_of_getElem? hp
    have hc := hq c List.mem_cons_self
    replace hq : ∀ c ∈ q, c ∈ C := fun c hc => hq c (List.mem_cons_of_mem _ hc)
    rw [List.length_cons] at hN ⊢
    obtain ⟨o, ho, hchild⟩ := ht.get_child hp hc
    unfold TarFS.build_tree_recursive_loop
    rw [ends_bind, ends_of_eq ho]
    cases o with
    | some k =>
      refine ends_mono (ih ht ((hchild k).mp rfl) hq (by omega)) ?_
      rintro j h' ⟨paths', ht', hj, hpaths, hreq⟩
      refine ⟨paths', ht', by simpa using hj, fun x => ?_, by omega⟩
      rw [hpaths, prefixes_cons, ← or_assoc]
      exact or_congr_left ⟨Or.inl, fun hx => hx.elim id fun h => h ▸ hmem⟩
    | none =>
      have hno : p ++ [c] ∉ paths := by
        intro hin
        obtain ⟨k, hk⟩ := List.mem_iff_getElem?.mp hin
        exact nomatch (hchild k).mpr hk
      have hgrow := ht.grow (N := N) hC hp hc hno (by omega)
      simp only [ends_bind, ends_pure] at hgrow ⊢
      refine ends_mono hgrow fun node h₁ h₂ => ends_mono h₂ ?_
      rintro - h₃ ⟨rfl, ht₃, hreq₃⟩
      refine ends_mono (ih ht₃ List.getElem?_concat_length hq (by omega)) ?_
      rintro j h' ⟨paths', ht', hj, hpaths, hreq⟩
      refine ⟨paths', ht', by simpa using hj, fun x => ?_, by omega⟩
      rw [hpaths, prefixes_cons, List.mem_append, List.mem_singleton, or_assoc]
      constructor
      · rintro (hx | rfl | hx)
        · exact Or.inl hx
        · exact Or.inr (Or.inr ⟨[], List.nil_prefix, by simp⟩)
        · exact Or.inr (Or.inr hx)
      · rintro (hx | rfl | hx)
        · exact Or.inl hx
        · exact Or.inl hmem
        · exact Or.inr (Or.inr hx)

theorem IsTree.replace {n' : TarFSNode} (ht : IsTree alloc C g paths h) (hp : paths[i]? = some p)
    (hn : h.nodes[i]? = some n) (hchildren : n'._children = n._children) :
    IsTree alloc C (Function.update g p n'.info) paths { h with nodes := h.nodes.set i n' } := by
  have hi : i < h.nodes.length := (List.getElem?_eq_some_iff.mp hn).1
  refine ⟨ht.root, by simpa using ht.length, ht.nodup, ht.closed, fun q hq => ?_,
    fun k q x hq hx => ?_, fun x hx a ha => ?_⟩
  · rw [Function.update_of_ne, ht.off q hq]
    rintro rfl
    exact hq (List.mem_of_getElem? hp)
  · by_cases hki : k = i
    · subst hki
      obtain rfl : q = p := Option.some.inj (hq.symm.trans hp)
      dsimp only at hx
      rw [List.getElem?_set_self hi] at hx
      cases hx
      rw [Function.update_self, hchildren]
      exact ⟨rfl, (ht.node k q n hq hn).2⟩
    · dsimp only at hx
      rw [List.getElem?_set_ne (Ne.symm hki)] at hx
      rw [Function.update_of_ne]
      · exact ht.node k q x hq hx
      · rintro rfl
        exact hki (ht.index hq hp)
  · rcases List.mem_or_eq_of_mem_set hx with hx | rfl
    · exact ht.fresh x hx a ha
    · rw [hchildren] at ha
      exact ht.fresh n (List.mem_of_getElem? hn) a ha

theorem Entry.toNat_size (e : Entry) : (UInt32.ofNat e.size).toNat = e.size := by
  have hlt : e.size < 2 ^ 30 := e.size_lt
  exact UInt32.toNat_ofNat_of_lt' (by unfold UInt32.size; omega)

/-- The blocks that `build_tree` goes past, with the header. -/
theorem Entry.skip_eq (e : Entry) (pos : ℕ) :
    UInt32.ofNat pos + (UInt32.ofNat e.size / 512 + if UInt32.ofNat e.size % 512 ≠ 0 then 1 else 0) + 1 =
      UInt32.ofNat (pos + e.blocks.length) := by
  have hlen : e.blocks.length = (e.size + 511) / 512 + 1 := by
    unfold Entry.blocks
    rw [List.length_cons, e.data_length]
    rfl
  have hmod : UInt32.ofNat e.size % 512 = 0 ↔ e.size % 512 = 0 := by
    rw [← UInt32.toNat_inj, UInt32.toNat_mod, e.toNat_size]
    rfl
  refine UInt32.toNat_inj.mp ?_
  rw [hlen]
  simp only [ne_eq, hmod, UInt32.toNat_add, UInt32.toNat_div, e.toNat_size, UInt32.toNat_ofNat']
  have h512 : UInt32.toNat 512 = 512 := rfl
  have hone : UInt32.toNat 1 = 1 := rfl
  have hzero : UInt32.toNat 0 = 0 := rfl
  by_cases hrem : e.size % 512 = 0
  · rw [if_neg (not_not.mpr hrem), h512, hone, hzero]
    omega
  · rw [if_pos hrem, h512, hone]
    omega

theorem IsTree.add_file {e : Entry} {pos : ℕ} (ht : IsTree alloc C g paths h) (hC : Apart C)
    (hq : ∀ c ∈ e.path, c ∈ C) (hN : h.requests + e.path.length ≤ N) (hpos : pos < 2 ^ 32) :
    Ends (TarFS.build_tree_recursive alloc 0 e.header (UInt32.ofNat pos)) h (fun _ h' => ∃ paths',
      IsTree alloc C (Function.update g e.path (some (pos, e.size))) paths' h' ∧
      (∀ x, x ∈ paths' ↔ x ∈ paths ∨ x <+: e.path) ∧
      h'.requests ≤ h.requests + e.path.length) (Short alloc N) := by
  have hpath : Util.String.split 47 false (posix_header.name e.header) = some e.path :=
    Util.String.split_eq
  unfold TarFS.build_tree_recursive
  rw [hpath]
  dsimp only
  rw [ends_bind]
  refine ends_mono (ht.descend hC ht.root hq hN) ?_
  rintro j h' ⟨paths', ht', hj, hpaths, hreq⟩
  obtain ⟨n, hn⟩ := ht'.exists_node hj
  have hlt : j < h'.nodes.length := (List.getElem?_eq_some_iff.mp hn).1
  rw [ends_bind, TarFSNode.ends_set_block_offset hn, TarFSNode.ends_size (List.getElem?_set_self hlt)]
  refine ⟨paths', ?_, fun x => ?_, hreq⟩
  · have hpos' : (UInt32.ofNat pos).toNat = pos := UInt32.toNat_ofNat_of_lt' hpos
    have hnew := ht'.replace hj hn
      (show ({ n with
          _has_block_offset := true
          _block_offset := UInt32.ofNat pos
          _size := octal2ui (posix_header.size e.header) } : TarFSNode)._children =
            n._children from rfl)
    rw [TarFSNode.info, if_pos rfl, hpos', e.octal2ui_eq, e.toNat_size] at hnew
    rw [List.set_set, e.octal2ui_eq]
    exact hnew
  · rw [hpaths]
    simp

/-! ## The entries in turn -/

theorem files_append {pos : ℕ} {es es' : List Entry} :
    files pos (es ++ es') = files pos es ++ files (pos + (es.flatMap Entry.blocks).length) es' := by
  induction es generalizing pos with
  | nil => rfl
  | cons e es ih =>
    rw [List.cons_append, files, files, ih, List.flatMap_cons, List.length_append, Nat.add_assoc,
      List.append_assoc]

theorem found_concat {f : ArchiveFile} :
    found (fs ++ [f]) = Function.update (found fs) f.path (some (f.block, f.size)) := by
  funext p
  unfold found
  rw [List.reverse_append, List.reverse_singleton, List.singleton_append, List.find?_cons]
  by_cases hp : p = f.path
  · subst hp
    rw [Function.update_self]
    simp
  · rw [Function.update_of_ne hp]
    simp [Ne.symm hp]

theorem known_concat {f : ArchiveFile} : Known (fs ++ [f]) p ↔ Known fs p ∨ p <+: f.path := by
  unfold Known
  simp only [List.mem_append, List.mem_singleton, or_and_right, exists_or, exists_eq_left, or_assoc]

theorem names_append {fs' : List ArchiveFile} : names (fs ++ fs') = names fs ++ names fs' :=
  List.flatMap_append

/-- A header is not a block of zeros, as it has digits. -/
theorem Entry.not_zero (e : Entry) : TarFS.is_zero_block e.header = false := by
  rw [Bool.eq_false_iff]
  intro hzero
  have hall : ∀ i, e.header i = 0 := of_decide_eq_true hzero
  have hlen : 0 < (posix_header.size e.header).length := by
    rw [e.size_ends]
    decide
  obtain ⟨d, hd⟩ := List.exists_mem_of_length_pos hlen
  have hdigit := (e.digits d hd).1
  unfold posix_header.size Block.string at hd
  have hmem := List.mem_of_mem_drop ((List.takeWhile_sublist _).mem hd)
  obtain ⟨i, rfl⟩ := List.mem_ofFn.mp hmem
  rw [hall i] at hdigit
  exact absurd hdigit (by decide)

/-- The tree is that of the files so far. -/
def Built (alloc : ℕ → ℕ) (C : List (List UInt8)) (fs : List ArchiveFile) (h : Heap) : Prop :=
  ∃ paths, IsTree alloc C (found fs) paths h ∧ (∀ q, q ∈ paths ↔ Known fs q) ∧
    h.requests ≤ (names fs).length

theorem Built.add_file {e : Entry} {pos : ℕ} (hb : Built alloc C fs h) (hC : Apart C)
    (hq : ∀ c ∈ e.path, c ∈ C) (hN : (names fs).length + e.path.length ≤ N) (hpos : pos < 2 ^ 32) :
    Ends (TarFS.build_tree_recursive alloc 0 e.header (UInt32.ofNat pos)) h
      (fun _ h' => Built alloc C (fs ++ [⟨e.path, pos, e.size⟩]) h') (Short alloc N) := by
  obtain ⟨paths, ht, hpaths, hreq⟩ := hb
  refine ends_mono (ht.add_file hC hq (by omega) hpos) ?_
  rintro - h' ⟨paths', ht', hpaths', hreq'⟩
  refine ⟨paths', found_concat ▸ ht', fun q => ?_, ?_⟩
  · rw [hpaths', hpaths, known_concat]
  · rw [names_append, List.length_append]
    simp only [names, List.flatMap_singleton] at hreq ⊢
    omega

/-- The header of the entry is read where it is. -/
theorem Archive.read_header (ha : Archive dev es) {e : Entry} {done rest : List Entry}
    (hes : done ++ e :: rest = es) :
    dev.read_block (done.flatMap Entry.blocks).length = some e.header ∧
      (done.flatMap Entry.blocks).length < dev.block_count := by
  have hfits := ha.fits
  subst hes
  rw [List.flatMap_append, List.flatMap_cons, List.length_append, List.length_append] at hfits
  have hpos : 0 < e.blocks.length := Nat.succ_pos _
  refine ⟨ha.holds _ _ ?_, by omega⟩
  rw [List.flatMap_append, List.flatMap_cons, List.getElem?_append_right le_rfl, Nat.sub_self]
  rfl

/-- The names may be among others. -/
theorem Archive.loop_in (ha : Archive dev es) (hC : Apart C) (hsub : ∀ c ∈ names (files 0 es), c ∈ C)
    {done rest : List Entry} {turns : ℕ} (hes : done ++ rest = es) (hturns : rest.length < turns)
    (hb : Built alloc C (files 0 done) h) :
    Ends (TarFS.build_tree_loop alloc dev 0 turns (UInt32.ofNat (done.flatMap Entry.blocks).length)) h
      (fun ok h' => ok = true ∧ Built alloc C (files 0 es) h')
      (Short alloc (names (files 0 es)).length) := by
  have hcount := dev.count_lt
  induction rest generalizing done turns h with
  | nil =>
    rw [List.append_nil] at hes
    subst hes
    have hfits := ha.fits
    have hpos : (UInt32.ofNat (done.flatMap Entry.blocks).length).toNat =
        (done.flatMap Entry.blocks).length :=
      UInt32.toNat_ofNat_of_lt' (by unfold UInt32.size; omega)
    obtain ⟨turns, rfl⟩ := Nat.exists_eq_succ_of_ne_zero (Nat.ne_of_gt hturns)
    unfold TarFS.build_tree_loop
    rw [hpos]
    refine ends_ite (fun hlt => ?_) fun _ => ⟨rfl, hb⟩
    obtain heq | ⟨b, hread, hzero⟩ := ha.ended
    · omega
    · rw [hread]
      dsimp only
      rw [if_pos hzero]
      exact ⟨rfl, hb⟩
  | cons e rest ih =>
    obtain ⟨hread, hlt⟩ := ha.read_header hes
    have hpos : (UInt32.ofNat (done.flatMap Entry.blocks).length).toNat =
        (done.flatMap Entry.blocks).length :=
      UInt32.toNat_ofNat_of_lt' (by unfold UInt32.size; omega)
    obtain ⟨turns, rfl⟩ := Nat.exists_eq_succ_of_ne_zero (Nat.ne_of_gt (Nat.zero_lt_of_lt hturns))
    unfold TarFS.build_tree_loop
    rw [hpos, if_pos hlt, hread]
    dsimp only
    rw [if_neg (by rw [e.not_zero]; decide), e.octal2ui_eq, e.skip_eq]
    have hnext : ∀ h', Built alloc C (files 0 (done ++ [e])) h' →
        Ends (TarFS.build_tree_loop alloc dev 0 turns
            (UInt32.ofNat ((done.flatMap Entry.blocks).length + e.blocks.length))) h'
          (fun ok h' => ok = true ∧ Built alloc C (files 0 es) h')
          (Short alloc (names (files 0 es)).length) := by
      intro h' hb'
      have hdone : done ++ [e] ++ rest = es := by simpa using hes
      have := ih hdone (Nat.lt_of_succ_lt_succ hturns) hb'
      rwa [List.flatMap_append, List.length_append, List.flatMap_singleton] at this
    rw [files_append, Nat.zero_add, files, files, List.append_nil] at hnext
    refine ends_ite (fun hflag => ?_) fun hflag => ?_
    · rw [if_pos hflag] at hnext
      have hfiles : files 0 es = files 0 done ++
          ([⟨e.path, (done.flatMap Entry.blocks).length, e.size⟩] ++
            files ((done.flatMap Entry.blocks).length + e.blocks.length) rest) := by
        rw [← hes, files_append, Nat.zero_add, files, if_pos hflag]
      have hlen := congrArg (fun fs => (names fs).length) hfiles
      simp only [names_append, List.length_append] at hlen
      have hpath : names [⟨e.path, (done.flatMap Entry.blocks).length, e.size⟩] = e.path :=
        List.flatMap_singleton ..
      rw [hpath] at hlen
      have hmem : ∀ c ∈ e.path, c ∈ names (files 0 es) := by
        intro c hc
        rw [hfiles, names_append, names_append, hpath]
        exact List.mem_append_right _ (List.mem_append_left _ hc)
      rw [ends_bind]
      exact ends_mono (hb.add_file hC (fun c hc => hsub c (hmem c hc)) (by omega) (by omega)) fun _ h' hb' => hnext h' hb'
    · rw [if_neg hflag, List.append_nil] at hnext
      exact hnext h hb

theorem Archive.loop (ha : Archive dev es) (hC : Apart (names (files 0 es)))
    {done rest : List Entry} {turns : ℕ} (hes : done ++ rest = es) (hturns : rest.length < turns)
    (hb : Built alloc (names (files 0 es)) (files 0 done) h) :
    Ends (TarFS.build_tree_loop alloc dev 0 turns (UInt32.ofNat (done.flatMap Entry.blocks).length)) h
      (fun ok h' => ok = true ∧ Built alloc (names (files 0 es)) (files 0 es) h')
      (Short alloc (names (files 0 es)).length) :=
  ha.loop_in hC (fun _ hc => hc) hes hturns hb

theorem length_le_blocks : es.length ≤ (es.flatMap Entry.blocks).length := by
  induction es with
  | nil => exact le_rfl
  | cons e es ih =>
    have hpos : 0 < e.blocks.length := Nat.succ_pos _
    rw [List.flatMap_cons, List.length_append, List.length_cons]
    omega

/-! ## Main results -/

theorem built_root : Built alloc C [] ⟨[⟨Map.empty, [], 0, false, 0⟩], 0⟩ := by
  refine ⟨[[]], ⟨rfl, rfl, List.nodup_singleton _, ?_, fun p _ => rfl, ?_, ?_⟩, ?_, le_rfl⟩
  · simp
  · intro i p n hp hn
    obtain ⟨rfl, rfl⟩ : i = 0 ∧ p = [] := by
      cases i with
      | zero => exact ⟨rfl, (Option.some.inj hp).symm⟩
      | succ i => simp at hp
    obtain rfl := Option.some.inj hn
    exact ⟨rfl, below_new (by simp)⟩
  · intro n hn a ha
    obtain rfl := List.mem_singleton.mp hn
    exact absurd rfl ha
  · intro q
    simp [Known]

theorem Built.matches (hb : Built alloc (names fs) fs h) : Matches fs 0 h := by
  obtain ⟨paths, ht, hpaths, -⟩ := hb
  have hnames : ∀ p, Known fs p → ∀ c ∈ p, c ∈ names fs := by
    rintro p (rfl | ⟨f, hf, hp⟩) c hc
    · cases hc
    · exact List.mem_flatMap.mpr ⟨f, hf, hp.subset hc⟩
  have hwalk : ∀ p, Known fs p → ∃ i, paths[i]? = some p ∧
      TarFSNode.walk 0 p h = .ok (some i, h) := by
    intro p hp
    obtain ⟨i, hi⟩ := List.mem_iff_getElem?.mp ((hpaths p).mpr hp)
    exact ⟨i, hi, ht.walk (hnames p hp) ht.root hi⟩
  constructor
  · intro p hp
    obtain ⟨i, hi, hw⟩ := hwalk p hp
    obtain ⟨n, hn⟩ := ht.exists_node hi
    exact ⟨i, n, hw, hn, (ht.node i p n hi hn).1⟩
  · intro i hi
    rw [ht.length] at hi
    have hget : paths[i]? = some paths[i] := List.getElem?_eq_getElem hi
    have hknown := (hpaths _).mp (List.mem_of_getElem? hget)
    refine ⟨paths[i], hknown, ht.walk (hnames _ hknown) ht.root hget, fun q hq hw => ?_⟩
    obtain ⟨j, hj, hw'⟩ := hwalk q hq
    rw [hw'] at hw
    cases hw
    exact Option.some.inj (hj.symm.trans hget)

/-- Where the names have different hashes, `build_tree` makes the tree of the archive, or there is
not the memory for it. -/
theorem tree_matches (ha : Archive dev es) (hC : Apart (names (files 0 es))) :
    Ends (TarFS.build_tree alloc dev) ⟨[], 0⟩
      (fun root h => root = some 0 ∧ Matches (files 0 es) 0 h)
      (fun e => e = .no_memory ∧ ¬ Room alloc (names (files 0 es)).length) := by
  have hlen : es.length < 2 ^ 32 :=
    (length_le_blocks.trans ha.fits).trans_lt dev.count_lt
  unfold TarFS.build_tree TarFSNode.new
  simp only [ends_bind, ends_get, ends_modify, ends_pure]
  refine ends_mono (ha.loop hC (List.nil_append es) hlen built_root) ?_
  rintro ok h' ⟨rfl, hb⟩
  exact ⟨rfl, hb.matches⟩

/-- What the nodes have for other names, too. -/
theorem tree_built (ha : Archive dev es) (hC : Apart C) (hsub : ∀ c ∈ names (files 0 es), c ∈ C) :
    Ends (TarFS.build_tree alloc dev) ⟨[], 0⟩
      (fun root h => root = some 0 ∧ Built alloc C (files 0 es) h) (fun e => e = .no_memory) := by
  have hlen : es.length < 2 ^ 32 :=
    (length_le_blocks.trans ha.fits).trans_lt dev.count_lt
  unfold TarFS.build_tree TarFSNode.new
  simp only [ends_bind, ends_get, ends_modify, ends_pure]
  apply ends_weaken (ha.loop_in hC hsub (List.nil_append es) hlen built_root) ?_ fun _ he => he.1
  rintro ok h' ⟨rfl, hb⟩
  exact ⟨rfl, hb⟩

/-- A header with a size of one digit. -/
def short_header (name : List UInt8) (digit typeflag : UInt8) : Block := fun i =>
  if i.val < 100 then name.getD i.val 0
  else if 124 ≤ i.val ∧ i.val < 134 then 48
  else if i.val = 134 then digit
  else if i.val = 156 then typeflag
  else 0

/-- The file `a/b`, of which the data looks like a header, the directory `a`, and `a/b` again. -/
def twice : List Entry :=
  [{ header := short_header [97, 47, 98] 49 48, data := [short_header [99] 48 48],
     name_ends := by decide +kernel, size_ends := by decide +kernel, digits := by decide +kernel,
     size_lt := by decide +kernel, data_length := by decide +kernel },
   { header := short_header [97, 47] 48 53, data := [],
     name_ends := by decide +kernel, size_ends := by decide +kernel, digits := by decide +kernel,
     size_lt := by decide +kernel, data_length := by decide +kernel },
   { header := short_header [97, 47, 98] 50 48, data := [fun _ => 7],
     name_ends := by decide +kernel, size_ends := by decide +kernel, digits := by decide +kernel,
     size_lt := by decide +kernel, data_length := by decide +kernel }]

def twice_device : BlockDevice where
  block_count := 6
  count_lt := by decide
  read_block i := (twice.flatMap Entry.blocks ++ [fun _ => 0])[i]?

theorem tree_matches_twice : ∃ h,
    TarFS.build_tree (64 * ·) twice_device ⟨[], 0⟩ = .ok (some 0, h) ∧
      ∃ i n, TarFSNode.walk 0 [[97], [98]] h = .ok (some i, h) ∧ h.nodes[i]? = some n ∧
        n.info = some (3, 2) := by
  have ha : Archive twice_device twice := by
    refine ⟨fun i b hb => ?_, by decide +kernel, Or.inr ⟨_, List.getElem?_concat_length, ?_⟩⟩
    · exact (List.getElem?_append_left (List.getElem?_eq_some_iff.mp hb).1).trans hb
    · simp [TarFS.is_zero_block]
  have hC : Apart (names (files 0 twice)) := by
    unfold Apart
    decide +kernel
  have hlen : (names (files 0 twice)).length = 4 := by decide +kernel
  have hends := @tree_matches (64 * ·) _ _ ha hC
  rw [hlen] at hends
  have hroom : Room (64 * ·) 4 := by
    intro i hi
    unfold PMEM_VA_SIZE
    refine ⟨?_, fun j hj => ?_⟩ <;> dsimp only <;> omega
  obtain ⟨root, h, hrun, rfl, hreached, -⟩ :=
    returns_of_ends (ends_weaken hends (fun _ _ hm => hm) fun e he => he.2 hroom)
  have hknown : Known (files 0 twice) [[97], [98]] := by
    refine Or.inr ?_
    decide +kernel
  obtain ⟨i, n, hw, hn, hinfo⟩ := hreached _ hknown
  have hfound : found (files 0 twice) [[97], [98]] = some (3, 2) := by decide +kernel
  exact ⟨h, hrun, i, n, hw, hn, hinfo.trans hfound⟩

end Infos.Fs
