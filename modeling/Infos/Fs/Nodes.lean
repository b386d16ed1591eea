import Infos.Util.Strings
import Infos.Util.Tables

/-!
# Nodes with children

The nodes of a file system that is kept in memory are in the order in which they were made, and a
pointer to a node is its place in that order. Each has a map of its children, by the hashes of
their names. `alloc` is where the allocator has memory for the nodes of the maps, request by
request.
-/

open Infos.Prog Infos.Util

namespace Infos.Fs

/-- Going down from a node by `get_child`, by one name after the other. -/
def walk_names {σ ε : Type} (get_child : ℕ → List UInt8 → StateT σ (Except ε) (Option ℕ))
    (node : ℕ) : List (List UInt8) → StateT σ (Except ε) (Option ℕ)
  | [] => return some node
  | name :: rest => do
    match ← get_child node name with
    | none => return none
    | some child => walk_names get_child child rest

theorem walk_names_append {σ ε : Type}
    {get_child : ℕ → List UInt8 → StateT σ (Except ε) (Option ℕ)} {i : ℕ}
    {xs ys : List (List UInt8)} :
    walk_names get_child i (xs ++ ys) = walk_names get_child i xs >>= fun r =>
      match r with
      | none => pure none
      | some j => walk_names get_child j ys := by
  induction xs generalizing i with
  | nil => rfl
  | cons x xs ih =>
    rw [List.cons_append, walk_names, walk_names, bind_assoc]
    refine congrArg _ (funext fun r => ?_)
    cases r with
    | none => rfl
    | some c => exact ih

/-- One more name. -/
theorem walk_names_concat {σ ε : Type}
    {get_child : ℕ → List UInt8 → StateT σ (Except ε) (Option ℕ)} {i j c : ℕ} {s : σ}
    {xs : List (List UInt8)} {x : List UInt8} (h : walk_names get_child i xs s = .ok (some j, s))
    (hc : get_child j x s = .ok (some c, s)) :
    walk_names get_child i (xs ++ [x]) s = .ok (some c, s) := by
  rw [walk_names_append, bind_eq, h]
  dsimp only
  rw [walk_names, bind_eq, hc]
  rfl

/-- The allocator has memory for `n` nodes of maps. -/
def Room (alloc : ℕ → ℕ) (n : ℕ) : Prop :=
  ∀ i < n, alloc i + 24 ≤ PMEM_VA_SIZE ∧ ∀ j < i, alloc j ≠ alloc i

/-- An object with a map of other objects of its kind. -/
class Parent (N : Type) where
  _children : N → Map UInt64 ℕ
  set_children : Map UInt64 ℕ → N → N
  children_set : ∀ m n, _children (set_children m n) = m

structure Nodes (N : Type) where
  nodes : List N
  requests : ℕ

abbrev NodeOp (N α : Type) := StateT (Nodes N) (Except Util.Fault) α

namespace Nodes

variable {N : Type}

def new (n : N) : NodeOp N ℕ := do
  let node := (← get).nodes.length
  modify fun h => { h with nodes := h.nodes ++ [n] }
  return node

def load (node : ℕ) : NodeOp N N := do
  match (← get).nodes[node]? with
  | none => throw .null
  | some n => pure n

def store (node : ℕ) (n : N) : NodeOp N Unit :=
  modify fun h => { h with nodes := h.nodes.set node n }

variable [Parent N]

/-- A call on the map of the children. -/
def children {α : Type} (node : ℕ) (x : Util.Op UInt64 ℕ α) : NodeOp N α := do
  let n ← load node
  match x (Parent._children n) with
  | .error e => throw e
  | .ok (a, m) => do
    store node (Parent.set_children m n)
    pure a

/-- `_children.try_get_value(name.get_hash(), child)`. -/
def try_get_child (node : ℕ) (name : List UInt8) : NodeOp N (Option ℕ) := do
  let n ← load node
  match Map.try_get_value (Util.String.compute_hash name) (Parent._children n) with
  | .error e => throw e
  | .ok (child, _) => pure child

/-- `_children.add(name.get_hash(), child)`. -/
def add_child (alloc : ℕ → ℕ) (node : ℕ) (name : List UInt8) (child : ℕ) : NodeOp N Unit := do
  let request := (← get).requests
  modify fun h => { h with requests := request + 1 }
  children node (Map.add (alloc request) (Util.String.compute_hash name) child)

/-! ## What the calls do -/

/-- The maps are trees, as they were made by calls. -/
def Valid (h : Nodes N) : Prop := ∀ n ∈ h.nodes, (Parent._children n).Valid

/-- The maps are at addresses that the allocator answered by then. -/
def Fresh (alloc : ℕ → ℕ) (h : Nodes N) : Prop :=
  ∀ n ∈ h.nodes, ∀ a, (Parent._children n).node a ≠ none → ∃ j < h.requests, a = alloc j

/-- The child with the hash. -/
def child (h : Nodes N) (node : ℕ) (hash : UInt64) : Option ℕ :=
  h.nodes[node]?.bind fun n => (Parent._children n).get hash

variable {h h' : Nodes N} {i j : ℕ} {n : N} {name : List UInt8} {c : ℕ} {hash : UInt64}
  {alloc : ℕ → ℕ} {α : Type} {E : Util.Fault → Prop}

omit [Parent N] in
@[simp]
theorem ends_new {Q : ℕ → Nodes N → Prop} :
    Ends (new n) h Q E ↔ Q h.nodes.length { h with nodes := h.nodes ++ [n] } := Iff.rfl

omit [Parent N] in
theorem load_eq (hn : h.nodes[i]? = some n) : load i h = .ok (n, h) := by
  unfold load
  rw [bind_eq]
  simp only [get, getThe, MonadStateOf.get, StateT.get, pure, Except.pure, hn]
  rfl

omit [Parent N] in
theorem load_null (hi : h.nodes.length ≤ i) : load i h = .error .null := by
  unfold load
  rw [bind_eq]
  simp only [get, getThe, MonadStateOf.get, StateT.get, pure, Except.pure,
    List.getElem?_eq_none hi]
  rfl

omit [Parent N] in
theorem ends_load {Q : N → Nodes N → Prop} (hn : h.nodes[i]? = some n) :
    Ends (load i) h Q E ↔ Q n h := ends_of_eq (load_eq hn)

omit [Parent N] in
theorem exists_node (hi : i < h.nodes.length) : ∃ n, h.nodes[i]? = some n :=
  ⟨_, List.getElem?_eq_getElem hi⟩

theorem ends_children {x : Util.Op UInt64 ℕ α} {Q : α → Nodes N → Prop}
    (hn : h.nodes[i]? = some n) : Ends (children i x) h Q E ↔ Ends x (Parent._children n)
      (fun a m => Q a { h with nodes := h.nodes.set i (Parent.set_children m n) }) E := by
  unfold children
  rw [ends_bind, ends_load hn]
  unfold Ends
  cases x (Parent._children n) <;> rfl

/-- A call that only reads the map. -/
theorem children_read {x : Util.Op UInt64 ℕ α} {a : α} (hn : h.nodes[i]? = some n)
    (hset : Parent.set_children (Parent._children n) n = n)
    (hx : x (Parent._children n) = .ok (a, Parent._children n)) : children i x h = .ok (a, h) := by
  unfold children
  rw [bind_eq, load_eq hn]
  dsimp only
  rw [hx]
  obtain ⟨hi, rfl⟩ := List.getElem?_eq_some_iff.mp hn
  dsimp only
  have hstore : store i h.nodes[i] h =
      .ok ((), { h with nodes := h.nodes.set i h.nodes[i] }) := rfl
  rw [hset, bind_eq, hstore, List.set_getElem_self]
  rfl

theorem child_of (hn : h.nodes[i]? = some n) : h.child i hash = (Parent._children n).get hash := by
  simp [child, hn]

theorem child_none (hi : h.nodes.length ≤ i) : h.child i hash = none := by
  simp [child, List.getElem?_eq_none hi]

theorem child_lt (hc : h.child i hash = some c) : i < h.nodes.length := by
  by_contra hno
  rw [child_none (Nat.le_of_not_lt hno)] at hc
  cases hc

theorem Valid.try_get_child (hv : h.Valid) (hi : i < h.nodes.length) :
    Nodes.try_get_child i name h = .ok (h.child i (Util.String.compute_hash name), h) := by
  obtain ⟨n, hn⟩ := exists_node hi
  have hget := (hv n (List.mem_of_getElem? hn)).try_get_value
    (k := Util.String.compute_hash name)
  unfold Nodes.try_get_child
  rw [bind_eq, load_eq hn, child_of hn]
  dsimp only
  rw [hget]
  rfl

/-- One entry of one node is set. -/
structure Added (h h' : Nodes N) (i : ℕ) (name : List UInt8) (c : ℕ) : Prop where
  valid : h'.Valid
  length : h'.nodes.length = h.nodes.length
  child : ∀ j hash, h'.child j hash =
    if j = i ∧ hash = Util.String.compute_hash name then some c else h.child j hash
  rest : ∀ (j : ℕ) n', h'.nodes[j]? = some n' →
    ∃ n, h.nodes[j]? = some n ∧ (n' = n ∨ ∃ m, n' = Parent.set_children m n)

theorem Valid.add_child (hv : h.Valid) (hi : i < h.nodes.length) :
    Ends (Nodes.add_child alloc i name c) h (fun _ h' => Added h h' i name c)
      (fun e => e = .no_memory) := by
  obtain ⟨n, hn⟩ := exists_node hi
  unfold Nodes.add_child
  simp only [ends_bind, ends_get, ends_modify]
  rw [ends_children (h := ⟨h.nodes, h.requests + 1⟩) hn]
  refine ends_weaken (hv n (List.mem_of_getElem? hn)).add ?_ fun _ he => he.1
  rintro - m ⟨hm, hget, -⟩
  refine ⟨?_, by simp, fun j hash => ?_, fun j n' hn' => ?_⟩
  · intro x hx
    rcases List.mem_or_eq_of_mem_set hx with hx | rfl
    · exact hv x hx
    · rwa [Parent.children_set]
  · by_cases hj : j = i
    · subst hj
      rw [child_of (n := Parent.set_children m n) (List.getElem?_set_self hi), Parent.children_set,
        hget, child_of hn]
      simp
    · simp [Nodes.child, List.getElem?_set_ne (Ne.symm hj), hj]
  · by_cases hj : j = i
    · subst hj
      dsimp only at hn'
      rw [List.getElem?_set_self hi] at hn'
      exact ⟨n, hn, .inr ⟨m, (Option.some.inj hn').symm⟩⟩
    · dsimp only at hn'
      rw [List.getElem?_set_ne (Ne.symm hj)] at hn'
      exact ⟨n', hn', .inl rfl⟩

/-- Only where the allocator has no more memory can nothing be added. -/
theorem Fresh.add_child (hf : h.Fresh alloc) (hv : h.Valid) (hi : i < h.nodes.length) :
    Ends (Nodes.add_child alloc i name c) h
      (fun _ h' => h'.Fresh alloc ∧ h'.requests = h.requests + 1)
      (fun e => e = .no_memory ∧ ¬ Room alloc (h.requests + 1)) := by
  obtain ⟨n, hn⟩ := exists_node hi
  have hmem := List.mem_of_getElem? hn
  unfold Nodes.add_child
  simp only [ends_bind, ends_get, ends_modify]
  rw [ends_children (h := ⟨h.nodes, h.requests + 1⟩) hn]
  refine ends_weaken (hv n hmem).add ?_ ?_
  · rintro - m ⟨-, -, hnodes⟩
    refine ⟨fun x hx a ha => ?_, rfl⟩
    have hold : ∀ x ∈ h.nodes, (Parent._children x).node a ≠ none →
        ∃ j < h.requests + 1, a = alloc j := by
      intro x hx hne
      obtain ⟨j, hj, rfl⟩ := hf x hx a hne
      exact ⟨j, by omega, rfl⟩
    rcases List.mem_or_eq_of_mem_set hx with hx | rfl
    · exact hold x hx ha
    · rw [Parent.children_set] at ha
      rcases hnodes a ha with rfl | hne
      · exact ⟨h.requests, Nat.lt_succ_self _, rfl⟩
      · exact hold n hmem hne
  · rintro e ⟨rfl, hused⟩
    refine ⟨rfl, fun hroom => hused ⟨?_, (hroom _ (Nat.lt_succ_self _)).1⟩⟩
    by_contra hne
    obtain ⟨j, hj, heq⟩ := hf n hmem _ hne
    exact (hroom _ (Nat.lt_succ_self _)).2 j hj heq.symm

theorem Valid.new (hv : h.Valid) (hn : (Parent._children n).Valid) :
    Valid { h with nodes := h.nodes ++ [n] } := by
  intro x hx
  rcases List.mem_append.mp hx with hx | hx
  · exact hv x hx
  · rwa [List.mem_singleton.mp hx]

/-- A new node is nobody's child, and has none. -/
theorem child_new (hn : Parent._children n = Map.empty) :
    child { h with nodes := h.nodes ++ [n] } i hash = h.child i hash := by
  rcases Nat.lt_trichotomy i h.nodes.length with hi | rfl | hi
  · simp [child, List.getElem?_append_left hi]
  · simp [child, hn]
  · rw [child_none hi.le, child_none]
    simpa using Nat.succ_le_of_lt hi

/-- There is a new node, which is the child of a node. -/
structure Grown (h h' : Nodes N) (i : ℕ) (name : List UInt8) (n : N) : Prop where
  valid : h'.Valid
  length : h'.nodes.length = h.nodes.length + 1
  child : ∀ j hash, h'.child j hash =
    if j = i ∧ hash = Util.String.compute_hash name then some h.nodes.length else h.child j hash
  rest : ∀ (j : ℕ) n', h'.nodes[j]? = some n' →
    ∃ n₀, (h.nodes ++ [n])[j]? = some n₀ ∧ (n' = n₀ ∨ ∃ m, n' = Parent.set_children m n₀)

theorem Valid.grow (hv : h.Valid) (hi : i < h.nodes.length)
    (hn : Parent._children n = Map.empty) :
    Ends (Nodes.add_child alloc i name h.nodes.length) { h with nodes := h.nodes ++ [n] }
      (fun _ h' => Grown h h' i name n) (fun e => e = .no_memory) := by
  have hnew : Valid { h with nodes := h.nodes ++ [n] } := hv.new (hn ▸ Map.valid_empty)
  refine ends_mono (hnew.add_child ?_) ?_
  · rw [List.length_append]
    omega
  · intro _ h' ha
    refine ⟨ha.valid, by simpa using ha.length, fun j hash => ?_, ha.rest⟩
    rw [ha.child, child_new hn]

theorem Fresh.grow (hf : h.Fresh alloc) (hv : h.Valid) (hi : i < h.nodes.length)
    (hn : Parent._children n = Map.empty) :
    Ends (Nodes.add_child alloc i name h.nodes.length) { h with nodes := h.nodes ++ [n] }
      (fun _ h' => h'.Fresh alloc ∧ h'.requests = h.requests + 1)
      (fun e => e = .no_memory ∧ ¬ Room alloc (h.requests + 1)) := by
  have hfresh : Fresh alloc { h with nodes := h.nodes ++ [n] } := by
    intro x hx a ha
    rcases List.mem_append.mp hx with hx | hx
    · exact hf x hx a ha
    · rw [List.mem_singleton.mp hx, hn] at ha
      exact absurd rfl ha
  refine hfresh.add_child (hv.new (hn ▸ Map.valid_empty)) ?_
  rw [List.length_append]
  omega

/-- What the map is no part of is as before. -/
theorem Grown.field {β : Type} {f : N → β} (hg : Grown h h' i name n)
    (hf : ∀ m n, f (Parent.set_children m n) = f n) :
    h'.nodes.map f = h.nodes.map f ++ [f n] := by
  rw [← List.map_singleton, ← List.map_append]
  refine List.ext_getElem? fun j => ?_
  rw [List.getElem?_map, List.getElem?_map]
  cases hj : h'.nodes[j]? with
  | none =>
    rw [List.getElem?_eq_none_iff, hg.length] at hj
    rw [List.getElem?_eq_none]
    simpa using hj
  | some n' =>
    obtain ⟨n₀, hn₀, rfl | ⟨m, rfl⟩⟩ := hg.rest j n' hj
    · rw [hn₀]
    · rw [hn₀, Option.map_some, Option.map_some, hf]

end Nodes

end Infos.Fs
