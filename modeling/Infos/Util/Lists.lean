import Infos.Lib.Linked
import Infos.Lib.Prog
import Mathlib.Algebra.Order.Ring.Nat

/-!
# The lists of `infos/include/infos/util/list.h`

Any number of `List` objects, whose nodes are all in one memory. The addresses that `new` will come
back with are in `supply`. No address is given twice before it is given back, or the run stops.
-/

open Infos.PtrList

namespace Infos.Util.Lists

/-- `dangling` is a use of a node or of a list that there is not, or no longer. -/
inductive Fault where
  | assertion
  | dangling
  | overflow
  | endless
  | noNode
  deriving DecidableEq, Repr

structure ListNode (T : Type) where
  Next : Option UInt64
  Data : T
  deriving DecidableEq, Repr

structure ListObject where
  _elems : Option UInt64
  _count : UInt32
  deriving DecidableEq, Repr

structure Heap (κ T : Type) where
  node : UInt64 → Option (ListNode T)
  list : κ → Option ListObject
  supply : List UInt64

variable {κ T : Type} [DecidableEq κ]

abbrev Op (κ T α : Type) := StateT (Heap κ T) (Except Fault) α

def assert (cond : Bool) : Op κ T Unit := if cond then pure () else throw .assertion

/-- A loop over the nodes of a list comes to its end before the addresses are used up. -/
def ROUNDS : ℕ := 2 ^ 64 + 1

/-! ## Pointers -/

def object (k : κ) : Op κ T ListObject := do
  match (← get).list k with
  | none => throw .dangling
  | some o => pure o

def set_object (k : κ) (o : Option ListObject) : Op κ T Unit :=
  modify fun m => { m with list := Function.update m.list k o }

def deref (p : UInt64) : Op κ T (ListNode T) := do
  match (← get).node p with
  | none => throw .dangling
  | some n => pure n

def set_node (p : UInt64) (n : Option (ListNode T)) : Op κ T Unit :=
  modify fun m => { m with node := Function.update m.node p n }

def load : Slot κ UInt64 → Op κ T (Option UInt64)
  | .area k => do pure (← object k)._elems
  | .node p => do pure (← deref p).Next

def store (v : Option UInt64) : Slot κ UInt64 → Op κ T Unit
  | .area k => do set_object k (some { ← object k with _elems := v })
  | .node p => do set_node p (some { ← deref p with Next := v })

def set_data (p : UInt64) (elem : T) : Op κ T Unit := do
  set_node p (some { ← deref p with Data := elem })

def new_Node [Inhabited T] : Op κ T UInt64 := do
  let m ← get
  match m.supply with
  | [] => throw .noNode
  | p :: supply =>
    if (m.node p).isSome then throw .noNode
    else
      modify fun m => { m with supply := supply }
      set_node p (some ⟨none, default⟩)
      pure p

def delete_Node (p : UInt64) : Op κ T Unit := do
  let _ ← deref p
  set_node p none

def add_count (k : κ) (n : UInt32) : Op κ T Unit := do
  let o ← object k
  set_object k (some { o with _count := o._count + n })

/-! ## The functions of `List` -/

def construct (k : κ) : Op κ T Unit := set_object k (some ⟨none, 0⟩)

/-- `while (*slot && go((*slot)->Data)) slot = &(*slot)->Next;` -/
def seek (go : T → Bool) : (rounds : ℕ) → Slot κ UInt64 → Op κ T (Slot κ UInt64)
  | 0, _ => throw .endless
  | rounds + 1, slot => do
    match ← load slot with
    | none => pure slot
    | some p => if go (← deref p).Data then seek go rounds (.node p) else pure slot

def append [Inhabited T] (k : κ) (elem : T) : Op κ T Unit := do
  let slot ← seek (fun _ => true) ROUNDS (.area k)
  let p ← new_Node
  store (some p) slot
  set_data p elem
  store none (.node p)
  add_count k 1

def remove [DecidableEq T] (k : κ) (elem : T) : Op κ T Unit := do
  let slot ← seek (fun data => decide (data ≠ elem)) ROUNDS (.area k)
  match ← load slot with
  | none => pure ()
  | some candidate =>
    let n ← deref candidate
    assert (decide (n.Data = elem))
    store n.Next slot
    delete_Node candidate
    add_count k (-1)

def dequeue (k : κ) : Op κ T T := do
  match (← object k)._elems with
  | none => throw .assertion
  | some front =>
    let n ← deref front
    store n.Next (.area k)
    delete_Node front
    add_count k (-1)
    pure n.Data

def enqueue [Inhabited T] (k : κ) (elem : T) : Op κ T Unit := append k elem

def pop (k : κ) : Op κ T T := dequeue k

def push [Inhabited T] (k : κ) (elem : T) : Op κ T Unit := do
  let p ← new_Node
  set_data p elem
  store (← object k)._elems (.node p)
  store (some p) (.area k)
  add_count k 1

def first (k : κ) : Op κ T T := do
  match (← object k)._elems with
  | none => throw .assertion
  | some p => pure (← deref p).Data

def last_loop : (rounds : ℕ) → (last : UInt64) → Op κ T T
  | 0, _ => throw .endless
  | rounds + 1, last => do
    let n ← deref last
    match n.Next with
    | none => pure n.Data
    | some p => last_loop rounds p

def last (k : κ) : Op κ T T := do
  match (← object k)._elems with
  | none => throw .assertion
  | some p => last_loop ROUNDS p

/-- The counter is an `int`. -/
def at_loop (index : Int32) : (rounds : ℕ) → (ctr : ℤ) → (n : Option UInt64) → Op κ T T
  | 0, _, _ => throw .endless
  | rounds + 1, ctr, n =>
    match n with
    | none => throw .assertion
    | some p =>
      if ctr = index.toInt then do pure (← deref p).Data
      else do
        let n ← deref p
        if ctr = 2 ^ 31 - 1 then throw .overflow
        at_loop index rounds (ctr + 1) n.Next

def at_index (k : κ) (index : Int32) : Op κ T T := do
  at_loop index ROUNDS 0 (← object k)._elems

def count (k : κ) : Op κ T UInt32 := do pure (← object k)._count

def empty (k : κ) : Op κ T Bool := do pure ((← object k)._count == 0)

/-- Deletes the nodes from `node` on. -/
def delete_all : (rounds : ℕ) → (node : Option UInt64) → Op κ T Unit
  | 0, _ => throw .endless
  | rounds + 1, node =>
    match node with
    | none => pure ()
    | some p => do
      let n ← deref p
      delete_Node p
      delete_all rounds n.Next

def clear (k : κ) : Op κ T Unit := do
  delete_all ROUNDS (← object k)._elems
  set_object k (some ⟨none, 0⟩)

def destroy (k : κ) : Op κ T Unit := do
  delete_all ROUNDS (← object k)._elems
  set_object k none

/-- `for (const auto& elem : r) body(elem)`, from the node of the iterator on. -/
def for_each (body : T → Op κ T Unit) : (rounds : ℕ) → (_current : Option UInt64) → Op κ T Unit
  | 0, _ => throw .endless
  | rounds + 1, _current =>
    match _current with
    | none => pure ()
    | some p => do
      body (← deref p).Data
      for_each body rounds (← deref p).Next

/-- The elements that a loop from `begin` to `end` comes by. -/
def iterate : (rounds : ℕ) → (_current : Option UInt64) → Op κ T (List T)
  | 0, _ => throw .endless
  | rounds + 1, _current =>
    match _current with
    | none => pure []
    | some p => do
      let n ← deref p
      return n.Data :: (← iterate rounds n.Next)

def elements (k : κ) : Op κ T (List T) := do iterate ROUNDS (← object k)._elems

def copy [Inhabited T] (k r : κ) : Op κ T Unit := do
  construct k
  for_each (append k) ROUNDS (← object r)._elems

def move (k r : κ) : Op κ T Unit := do
  set_object k (some (← object r))
  set_object r (some ⟨none, 0⟩)

end Infos.Util.Lists
