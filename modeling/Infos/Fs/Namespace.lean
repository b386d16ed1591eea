import Infos.Fs.Vfs
import Infos.Fs.TarTree

/-!
# What the paths lead to

The tree of `VirtualFilesystem` has what was looked up before. `Shows` says that it agrees with a
function `next` from a node of a file system and a name to the node that is below, across the places
where other file systems are mounted. Lookups change nothing about that.
-/

open Infos.Prog Infos.Util

namespace Infos.Fs

namespace Vfs

variable {σ : Type} {alloc : ℕ → ℕ} {P : PFS σ} {C : List (List UInt8)}
  {next : ℕ → List UInt8 → Option ℕ} {v v' : Vfs σ} {i j p : ℕ} {name : List UInt8}
  {names : List (List UInt8)} {fs : σ}

/-- The node of a file system that a node of the tree stands for. -/
def pn (v : Vfs σ) (node : ℕ) : Option ℕ := (v.tree.nodes.map VFSNode._pn)[node]?.join

/-- Below the node of a file system, it finds what `next` says. -/
def Plain (P : PFS σ) (C : List (List UInt8)) (next : ℕ → List UInt8 → Option ℕ) (fs : σ) (p : ℕ) :
    Prop :=
  ∀ name ∈ C, P.get_child p name fs = .ok (next p name, fs)

/-- All below is plain, so that only what there is already can be mounted. -/
def Settled (P : PFS σ) (C : List (List UInt8)) (next : ℕ → List UInt8 → Option ℕ) (fs : σ) : Prop :=
  ∀ p, ∀ name ∈ C, ∀ q, next p name = some q → Plain P C next fs q

/-- A child that there is already is what `next` says, and one that there is not will be. -/
def Below (P : PFS σ) (C : List (List UInt8)) (next : ℕ → List UInt8 → Option ℕ) (v : Vfs σ)
    (i p : ℕ) : Prop :=
  ∀ name ∈ C, match v.tree.child i (Util.String.compute_hash name) with
    | some c => c < v.tree.nodes.length ∧ ∃ q, next p name = some q ∧ v.pn c = some q
    | none => P.get_child p name v.fs = .ok (next p name, v.fs)

structure Shows (P : PFS σ) (C : List (List UInt8)) (next : ℕ → List UInt8 → Option ℕ) (v : Vfs σ) :
    Prop where
  valid : v.tree.Valid
  settled : Settled P C next v.fs
  node : ∀ i < v.tree.nodes.length, ∃ p, v.pn i = some p ∧ Below P C next v i p

/-- Where the names lead. -/
def follow (next : ℕ → List UInt8 → Option ℕ) (p : ℕ) (names : List (List UInt8)) : Option ℕ :=
  names.foldlM next p

/-! ## One name -/

theorem exists_of_pn (h : v.pn i = some p) :
    ∃ n, v.tree.nodes[i]? = some n ∧ n._pn = some p := by
  unfold pn at h
  rw [List.getElem?_map] at h
  cases hn : v.tree.nodes[i]? with
  | none => simp [hn] at h
  | some n => exact ⟨n, rfl, by simpa [hn] using h⟩

theorem lt_of_pn (h : v.pn i = some p) : i < v.tree.nodes.length := by
  obtain ⟨n, hn, -⟩ := exists_of_pn h
  exact (List.getElem?_eq_some_iff.mp hn).1

/-- The nodes are as before, behind them is a new one. -/
theorem pn_grown {t : Nodes VFSNode} (ht : Nodes.Grown v.tree t i name ⟨some p, Map.empty⟩) :
    pn ⟨t, fs⟩ j = if j = v.tree.nodes.length then some p else v.pn j := by
  have hpns : t.nodes.map VFSNode._pn = v.tree.nodes.map VFSNode._pn ++ [some p] :=
    ht.field fun _ _ => rfl
  unfold pn
  dsimp only
  rw [hpns]
  split
  next hj => simp [hj]
  next hj =>
    rcases Nat.lt_or_gt_of_ne hj with hlt | hgt
    · rw [List.getElem?_append_left (by simpa using hlt)]
    · rw [List.getElem?_eq_none (by simp; omega), List.getElem?_eq_none (by simp; omega)]

/-- A node for what the file system has below. -/
theorem Shows.grown {t : Nodes VFSNode} {q : ℕ} (h : Shows P C next v) (hC : Apart C)
    (hp : v.pn i = some p) (hname : name ∈ C) (hq : next p name = some q)
    (ht : Nodes.Grown v.tree t i name ⟨some q, Map.empty⟩) : Shows P C next ⟨t, v.fs⟩ := by
  have hlen := ht.length
  have hpn : ∀ j < v.tree.nodes.length, pn ⟨t, v.fs⟩ j = v.pn j := by
    intro j hj
    rw [pn_grown ht, if_neg hj.ne]
  have hnew : pn ⟨t, v.fs⟩ v.tree.nodes.length = some q := by
    rw [pn_grown ht, if_pos rfl]
  refine ⟨ht.valid, h.settled, fun j hj => ?_⟩
  rcases Nat.lt_or_ge j v.tree.nodes.length with hlt | hge
  · obtain ⟨p', hp', hbelow⟩ := h.node j hlt
    refine ⟨p', (hpn j hlt).trans hp', fun name' hname' => ?_⟩
    dsimp only
    rw [ht.child]
    by_cases hsame : j = i ∧ Util.String.compute_hash name' = Util.String.compute_hash name
    · obtain ⟨rfl, hhash⟩ := hsame
      obtain rfl := hC _ hname' _ hname hhash
      obtain rfl : p' = p := Option.some.inj (hp'.symm.trans hp)
      rw [if_pos ⟨rfl, rfl⟩]
      exact ⟨by omega, q, hq, hnew⟩
    · rw [if_neg hsame]
      have hold := hbelow name' hname'
      cases hc : v.tree.child j (Util.String.compute_hash name') with
      | none =>
        rw [hc] at hold
        exact hold
      | some c =>
        rw [hc] at hold
        obtain ⟨hclt, q', hq', hpc⟩ := hold
        exact ⟨by omega, q', hq', (hpn c hclt).trans hpc⟩
  · obtain rfl : j = v.tree.nodes.length := by
      dsimp only at hj
      omega
    refine ⟨q, hnew, fun name' hname' => ?_⟩
    have hne : v.tree.nodes.length ≠ i := (lt_of_pn hp).ne'
    dsimp only
    rw [ht.child, if_neg fun hsame => hne hsame.1, Nodes.child_none le_rfl]
    exact h.settled p name hname q hq name' hname'

/-- What a lookup of `k` names leaves, and what it answers. -/
structure Led (alloc : ℕ → ℕ) (P : PFS σ) (C : List (List UInt8))
    (next : ℕ → List UInt8 → Option ℕ) (v : Vfs σ) (k : ℕ) (q : Option ℕ) (r : Option ℕ)
    (v' : Vfs σ) : Prop where
  fresh : v'.tree.Fresh alloc
  requests : v'.tree.requests ≤ v.tree.requests + k
  shows : Shows P C next v'
  fs : v'.fs = v.fs
  kept : ∀ j < v.tree.nodes.length, v'.pn j = v.pn j
  length : v.tree.nodes.length ≤ v'.tree.nodes.length
  answer : r.bind v'.pn = q
  found : r.isSome → q.isSome

/-- There was no memory for one of the nodes of `k` names. -/
def Short (alloc : ℕ → ℕ) (v : Vfs σ) (k : ℕ) (e : VfsFault) : Prop :=
  e = .other .no_memory ∧ ¬ Room alloc (v.tree.requests + k)

theorem Short.mono {k l : ℕ} {e : VfsFault} (h : Short alloc v' k e)
    (hle : v'.tree.requests + k ≤ v.tree.requests + l) : Short alloc v l e :=
  ⟨h.1, fun hroom => h.2 fun i hi => hroom i (by omega)⟩

theorem Shows.get_child (h : Shows P C next v) (hf : v.tree.Fresh alloc) (hC : Apart C)
    (hp : v.pn i = some p) (hname : name ∈ C) :
    Ends (VFSNode.get_child alloc P i name) v (Led alloc P C next v 1 (next p name))
      (Short alloc v 1) := by
  obtain ⟨n, hn, hnp⟩ := exists_of_pn hp
  have hi := lt_of_pn hp
  obtain ⟨p', hp', hbelow⟩ := h.node i hi
  obtain rfl : p' = p := Option.some.inj (hp'.symm.trans hp)
  have hchild := hbelow name hname
  rw [ends_get_child h.valid hn, hnp]
  cases hc : v.tree.child i (Util.String.compute_hash name) with
  | some c =>
    rw [hc] at hchild
    obtain ⟨-, q, hq, hpc⟩ := hchild
    exact ⟨hf, by omega, h, rfl, fun _ _ => rfl, le_rfl, by simp [hq, hpc], by simp [hq]⟩
  | none =>
    rw [hc] at hchild
    refine (ends_of_eq hchild).mpr ?_
    cases hq : next p' name with
    | none => exact ⟨hf, Nat.le_add_right _ _, h, rfl, fun _ _ => rfl, le_rfl, rfl, by simp⟩
    | some q =>
      dsimp only
      refine ends_weaken (ends_and (hf.grow h.valid hi rfl) (h.valid.grow hi rfl)) ?_ ?_
      · rintro _ t ⟨⟨hft, hrequests⟩, ht⟩
        have hlen := ht.length
        refine ⟨hft, hrequests.le, h.grown hC hp hname hq ht, rfl, fun j hj => ?_,
          by dsimp only; omega, ?_, by simp⟩
        · rw [pn_grown ht, if_neg hj.ne]
        · show pn ⟨t, v.fs⟩ v.tree.nodes.length = some q
          rw [pn_grown ht, if_pos rfl]
      · rintro e ⟨rfl, hroom⟩
        exact ⟨rfl, hroom⟩

/-! ## Paths -/

theorem Shows.walk (hC : Apart C) (h : Shows P C next v) (hf : v.tree.Fresh alloc)
    (hp : v.pn i = some p) (hnames : ∀ name ∈ names, name ∈ C) :
    Ends (walk_names (VFSNode.get_child alloc P) i names) v
      (Led alloc P C next v names.length (follow next p names)) (Short alloc v names.length) := by
  induction names generalizing v i p with
  | nil =>
    exact ⟨hf, le_rfl, h, rfl, fun _ _ => rfl, le_rfl, by simpa [follow] using hp, by simp [follow]⟩
  | cons name names ih =>
    unfold walk_names
    rw [ends_bind, List.length_cons]
    apply ends_weaken (h.get_child hf hC hp (hnames name List.mem_cons_self)) ?_
      fun e he => he.mono (by omega)
    intro r v₁ h₁
    have hrequests := h₁.requests
    have hfollow : follow next p (name :: names) = (next p name).bind (follow next · names) := rfl
    rw [hfollow]
    cases r with
    | none =>
      have hnone : next p name = none := h₁.answer.symm
      rw [hnone]
      exact ⟨h₁.fresh, by omega, h₁.shows, h₁.fs, h₁.kept, h₁.length, rfl, by simp⟩
    | some c =>
      have hanswer : v₁.pn c = next p name := h₁.answer
      obtain ⟨q, hq⟩ := Option.isSome_iff_exists.mp (h₁.found rfl)
      rw [hq] at hanswer ⊢
      apply ends_weaken (ih h₁.shows h₁.fresh hanswer
        fun n hn => hnames n (List.mem_cons_of_mem _ hn)) ?_ fun e he => he.mono (by omega)
      intro r v₂ h₂
      have hlen := h₁.length
      have hrequests₂ := h₂.requests
      exact ⟨h₂.fresh, by omega, h₂.shows, h₂.fs.trans h₁.fs, fun j hj => (h₂.kept j (by omega)).trans (h₁.kept j hj),
        hlen.trans h₂.length, h₂.answer, h₂.found⟩

/-- The names that count are among those of `C`, and each fits into the buffer. -/
def PathIn (C : List (List UInt8)) (path : List UInt8) : Prop :=
  ∀ c ∈ path.splitOn 47, c.length < 256 ∧ (c ≠ [] → c ∈ C)

theorem Shows.lookup {path : List UInt8} (hC : Apart C) (h : Shows P C next v)
    (hf : v.tree.Fresh alloc) (hp : v.pn i = some p) (hpath : PathIn C path) :
    Ends (VirtualFilesystem.lookup_node alloc P i (47 :: path)) v
      (Led alloc P C next v (VirtualFilesystem.names_before path).length
        (follow next p (VirtualFilesystem.names_before path)))
      (Short alloc v (VirtualFilesystem.names_before path).length) := by
  rw [VirtualFilesystem.lookup_node_eq fun c hc => (hpath c hc).1]
  apply h.walk hC hf hp
  intro name hname
  have hne : name ≠ [] := by simpa using List.mem_takeWhile_imp hname
  exact (hpath name ((List.takeWhile_sublist _).subset hname)).2 hne

end Vfs

end Infos.Fs
