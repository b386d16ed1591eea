import Infos.Lib.Prog
import Infos.Lib.RedBlack

/-!
# `infos::util::Map`

A map is a red-black tree of nodes with a pointer to the parent. `left` and `right` are the sides
of a node, and what the source does on either side is one definition with a side as parameter.
-/

open Infos.Prog Infos.RedBlack

namespace Infos.Util

/-- `loops` is more turns of a loop than there can be nodes. -/
inductive Fault where
  | null
  | assertion
  | no_memory
  | loops
  deriving DecidableEq, Repr

/-- The window that all of the kernel's own memory is in. -/
def PMEM_VA_SIZE : ℕ := 0x100000000

structure MapNode (K V : Type) where
  Key : K
  Value : V
  Colour : Colour
  Parent : Option ℕ
  Left : Option ℕ
  Right : Option ℕ
  deriving DecidableEq, Repr

/-- `node` is the memory, with the nodes at their offsets in the window. -/
structure Map (K V : Type) where
  node : ℕ → Option (MapNode K V)
  _root : Option ℕ
  _count : UInt32

variable {K V : Type}

namespace MapNode

def child : Dir → MapNode K V → Option ℕ
  | .left, n => n.Left
  | .right, n => n.Right

def set_child (p : Option ℕ) : Dir → MapNode K V → MapNode K V
  | .left, n => { n with Left := p }
  | .right, n => { n with Right := p }

end MapNode

/-- The keys that are hashes or handles. -/
instance instLinearOrderUInt64 : LinearOrder UInt64 where
  le_refl := UInt64.le_refl
  le_trans _ _ _ := UInt64.le_trans
  le_antisymm _ _ := UInt64.le_antisymm
  le_total := UInt64.le_total
  lt_iff_le_not_ge a b := by
    rw [UInt64.lt_iff_toNat_lt, UInt64.le_iff_toNat_le, UInt64.le_iff_toNat_le]
    omega
  toDecidableLE := inferInstance
  toDecidableLT := inferInstance
  toDecidableEq := inferInstance

abbrev Op (K V α : Type) := StateT (Map K V) (Except Fault) α

namespace Map

def empty : Map K V := ⟨fun _ => none, none, 0⟩

/-! ## Nodes -/

def load (p : Option ℕ) : Op K V (MapNode K V) := do
  match p.bind (← get).node with
  | none => throw .null
  | some n => pure n

def put (a : ℕ) (n : Option (MapNode K V)) (m : Map K V) : Map K V :=
  { m with node := Function.update m.node a n }

def store (p : Option ℕ) (f : MapNode K V → MapNode K V) : Op K V Unit := do
  match p with
  | none => throw .null
  | some a =>
    let n ← load (some a)
    modify (put a (some (f n)))

/-- `new Node(key, value)` at the offset that the allocator answers. A node has at least the size
of its three pointers. -/
def new_node (addr : ℕ) (key : K) (value : V) : Op K V (Option ℕ) := do
  if (← get).node addr = none ∧ addr + 24 ≤ PMEM_VA_SIZE then
    modify (put addr (some ⟨key, value, .RED, none, none, none⟩))
    pure (some addr)
  else throw .no_memory

def parent (x : Option ℕ) : Op K V (Option ℕ) := do
  return (← load x).Parent

def grandparent (x : Option ℕ) : Op K V (Option ℕ) := do
  if (← parent x) = none then pure none else parent (← parent x)

def red (x : Option ℕ) : Op K V Bool := do
  return (← load x).Colour = .RED

def paint (x : Option ℕ) (colour : Colour) : Op K V Unit :=
  store x fun n => { n with Colour := colour }

/-- `i_am_left` and `i_am_right`. -/
def i_am (d : Dir) (n : Option ℕ) : Op K V Bool := do
  if (← parent n) = none then throw .assertion
  return n = (← load (← parent n)).child d

/-- `left(n)` and `right(n)`, which set the child on a side. -/
def set_child (d : Dir) (p n : Option ℕ) : Op K V Unit := do
  store p (MapNode.set_child n d)
  if n ≠ none then
    store n fun m => { m with Parent := p }

/-- The pivot takes the place of the node below its parent. -/
def replace (n pivot : Option ℕ) : Op K V Unit := do
  if (← parent n) = none then
    modify fun m => { m with _root := pivot }
    store pivot fun m => { m with Parent := none }
  else if ← i_am .left n then
    set_child .left (← parent n) pivot
  else
    set_child .right (← parent n) pivot

/-- The pivot is the child on the other side. -/
def rotate (d : Dir) (n : Option ℕ) : Op K V Unit := do
  let pivot := (← load n).child d.opposite
  if pivot = none then throw .assertion
  replace n pivot
  set_child d.opposite n ((← load pivot).child d)
  set_child d pivot n

def rotate_right (n : Option ℕ) : Op K V Unit := rotate .right n

def rotate_left (n : Option ℕ) : Op K V Unit := rotate .left n

/-- The body of the loop of `rebalance_insert`, where the parent of `x` is the child of the
grandparent on the side `d`. -/
def rebalance_turn (d : Dir) (x : Option ℕ) : Op K V (Option ℕ) := do
  let y := (← load (← grandparent x)).child d.opposite
  if ← (if y = none then pure false else red y) then
    paint (← parent x) .BLACK
    paint y .BLACK
    paint (← grandparent x) .RED
    grandparent x
  else
    let x ← if x = (← load (← parent x)).child d.opposite then do
        let x ← parent x
        rotate d x
        pure x
      else pure x
    paint (← parent x) .BLACK
    paint (← grandparent x) .RED
    rotate d.opposite (← grandparent x)
    pure x

def rebalance_loop : ℕ → Option ℕ → Op K V Unit
  | 0, _ => throw .loops
  | turns + 1, x => do
    let p ← parent x
    if ← (if p = none then pure false else red p) then
      if (← parent x) = (← load (← grandparent x)).Left then
        rebalance_loop turns (← rebalance_turn .left x)
      else
        rebalance_loop turns (← rebalance_turn .right x)
    else pure ()

def rebalance_insert (nw : Option ℕ) : Op K V Unit := do
  paint nw .RED
  rebalance_loop PMEM_VA_SIZE nw
  paint (← get)._root .BLACK

/-! ## The map -/

variable [LinearOrder K]

/-- The loop of `add`, which goes down to the `owner`. -/
def descend (key : K) : ℕ → Option ℕ → Op K V (Option ℕ)
  | 0, _ => throw .loops
  | turns + 1, owner => do
    if owner = none then pure none
    else
      let n ← load owner
      if key < n.Key then
        if n.Left = none then pure owner else descend key turns n.Left
      else if n.Key < key then
        if n.Right = none then pure owner else descend key turns n.Right
      else pure owner

def add (addr : ℕ) (key : K) (value : V) : Op K V Unit := do
  let owner ← descend key PMEM_VA_SIZE (← get)._root
  if owner = none then
    let nw ← new_node addr key value
    modify fun m => { m with _root := nw }
    paint nw .BLACK
    modify fun m => { m with _count := m._count + 1 }
  else if key = (← load owner).Key then
    store owner fun n => { n with Value := value }
  else
    let nw ← new_node addr key value
    if key < (← load owner).Key then
      set_child .left owner nw
    else
      set_child .right owner nw
    rebalance_insert nw
    modify fun m => { m with _count := m._count + 1 }

/-- `~MapNode`, and the memory is given back. -/
def delete_node : ℕ → Option ℕ → Op K V Unit
  | 0, _ => throw .loops
  | turns + 1, p => do
    match p with
    | none => throw .null
    | some a =>
      let n ← load (some a)
      if n.Left ≠ none then
        delete_node turns n.Left
      if n.Right ≠ none then
        delete_node turns n.Right
      modify (put a none)

def clear : Op K V Unit := do
  if (← get)._root ≠ none then
    delete_node PMEM_VA_SIZE (← get)._root
  modify fun m => { m with _root := none, _count := 0 }

/-- The loop of the two functions that look for a key. -/
def search (key : K) : ℕ → Option ℕ → Op K V (Option ℕ)
  | 0, _ => throw .loops
  | turns + 1, node => do
    if node = none then pure none
    else
      let n ← load node
      if key < n.Key then search key turns n.Left
      else if n.Key < key then search key turns n.Right
      else pure node

def contains_key (key : K) : Op K V Bool := do
  return (← search key PMEM_VA_SIZE (← get)._root) ≠ none

def try_get_value (key : K) : Op K V (Option V) := do
  match ← search key PMEM_VA_SIZE (← get)._root with
  | none => pure none
  | some a => return some (← load (some a)).Value

def count (m : Map K V) : UInt32 := m._count

end Map

structure MapIterator where
  _queue : List ℕ
  _current : Option ℕ
  deriving DecidableEq, Repr

namespace MapIterator

def advance (it : MapIterator) : Op K V MapIterator := do
  match it._queue with
  | [] => pure { it with _current := none }
  | a :: rest =>
    let n ← Map.load (some a)
    pure ⟨rest ++ n.Left.toList ++ n.Right.toList, some a⟩

def start (root : Option ℕ) : Op K V MapIterator :=
  match root with
  | none => pure ⟨[], none⟩
  | some a => advance ⟨[a], some a⟩

/-- `*it`, `++it` and so on up to `end()`. -/
def visit : ℕ → MapIterator → Op K V (List (K × V))
  | 0, _ => throw .loops
  | turns + 1, it => do
    if it._current = none then pure []
    else
      let n ← Map.load it._current
      return (n.Key, n.Value) :: (← visit turns (← advance it))

end MapIterator

/-- The keys and values in the order in which the iterators from `begin()` to `end()` give them. -/
def Map.iterate : Op K V (List (K × V)) := do
  MapIterator.visit PMEM_VA_SIZE (← MapIterator.start (← get)._root)

end Infos.Util
