import Infos.Lib.Prog
import Infos.Lib.Ring

/-!
# The list of `coursework/sched-rr.cpp` and `coursework/sched-fifo.cpp`

`Commons::Collections::List`, a ring of nodes with a pointer to its first one. A node is kept as
long as something points at it, so none is ever given back here, and `Pin` of a `_prev` is the
pointer itself.
-/

open Infos.Prog Infos.Ring

namespace Infos.Commons

/-- `outOfRange` is the end of a function that returns no value, or of an array. -/
inductive Fault where
  | null
  | outOfRange
  deriving DecidableEq, Repr

structure ListNode (T : Type) where
  _data : T
  _next : Option ℕ
  _prev : Option ℕ
  deriving DecidableEq, Repr

/-- `node` is the memory that the nodes are in, of which `fresh` is the first that is not used. -/
structure LinkedList (T : Type) where
  node : ℕ → Option (ListNode T)
  fresh : ℕ
  _root : Option ℕ
  _count : ℤ

variable {T : Type}

abbrev Op (T α : Type) := StateT (LinkedList T) (Except Fault) α

namespace LinkedList

def empty : LinkedList T := ⟨fun _ => none, 0, none, 0⟩

/-! ## Nodes -/

def load (p : Option ℕ) : Op T (ListNode T) := do
  match p.bind (← get).node with
  | none => throw .null
  | some n => pure n

def store (p : Option ℕ) (f : ListNode T → ListNode T) : Op T Unit := do
  let n ← load p
  modify fun m => { m with node := fun a => if p = some a then some (f n) else m.node a }

def MakeShared (elem : T) : Op T (Option ℕ) := do
  let newNode := (← get).fresh
  modify fun m => { m with
    node := fun a => if m.fresh = a then some ⟨elem, none, none⟩ else m.node a
    fresh := m.fresh + 1 }
  pure (some newNode)

def AddAfter (newNode oldNode : Option ℕ) : Op T Unit := do
  let next := (← load oldNode)._next
  store newNode fun n => { n with _next := next }
  store newNode fun n => { n with _prev := oldNode }
  store (← load oldNode)._next fun n => { n with _prev := newNode }
  store oldNode fun n => { n with _next := newNode }
  modify fun m => { m with _count := m._count + 1 }

def RemoveNode (node : Option ℕ) : Op T Unit := do
  let prev := (← load node)._prev
  store (← load node)._next fun n => { n with _prev := prev }
  let next := (← load node)._next
  store (← load node)._prev fun n => { n with _next := next }
  if node = (← get)._root then
    let next := (← load (← get)._root)._next
    modify fun m => { m with _root := next }
    if (← get)._count = 1 then
      modify fun m => { m with _root := none }
  modify fun m => { m with _count := m._count - 1 }

/-! ## The list -/

def AddToTail (elem : T) : Op T (Option ℕ) := do
  let newNode ← MakeShared elem
  match (← get)._root with
  | some root => AddAfter newNode (← load (some root))._prev
  | none =>
    store newNode fun n => { n with _next := newNode }
    store newNode fun n => { n with _prev := newNode }
    modify fun m => { m with _root := newNode, _count := m._count + 1 }
  pure newNode

def Enqueue (elem : T) : Op T Unit := do
  let _ ← AddToTail elem

/-- The nodes that go into `deleteList`, from `node` on. The array has `left` free places, and the
loop is not over before `last` comes next. -/
def deleteList [DecidableEq T] (elem : T) (last : Option ℕ) :
    (left : ℕ) → (node : Option ℕ) → Op T (List (Option ℕ))
  | 0, _ => throw .outOfRange
  | left + 1, node => do
    let n ← load node
    let rest ← if n._next = last then pure [] else deleteList elem last left n._next
    pure (if n._data = elem then node :: rest else rest)

def Remove [DecidableEq T] (elem : T) : Op T Unit := do
  match (← get)._root with
  | none => pure ()
  | some root =>
    let nodes ← deleteList elem (some root) (← get)._count.toNat (some root)
    forM nodes RemoveNode

def Count : Op T ℤ := do
  pure (← get)._count

/-- The node `n` steps on. -/
def look (step : ListNode T → Option ℕ) : (n : ℕ) → (node : Option ℕ) → Op T (Option ℕ)
  | 0, node => pure node
  | n + 1, node => do look step n (step (← load node))

def Get (index : ℤ) : Op T T := do
  let m ← get
  if 0 ≤ index ∧ index < m._count then
    pure (← load (← look ListNode._next index.toNat m._root))._data
  else if index < 0 ∧ -index ≥ -m._count then
    pure (← load (← look ListNode._prev (-index).toNat m._root))._data
  else throw .outOfRange

def Insert (elem : T) (node : Option ℕ) : Op T (Option ℕ) := do
  match node with
  | none => pure none
  | some _ =>
    let newNode ← MakeShared elem
    AddAfter newNode node
    pure newNode

def AddToHead (elem : T) : Op T (Option ℕ) := do
  let newNode ← MakeShared elem
  match (← get)._root with
  | some root => AddAfter newNode (← load (some root))._prev
  | none =>
    store newNode fun n => { n with _next := newNode }
    store newNode fun n => { n with _prev := newNode }
    modify fun m => { m with _count := m._count + 1 }
  modify fun m => { m with _root := newNode }
  pure newNode

/-- The loop of `Find`, from `node` on. The nodes come round again before `left` of them are seen. -/
def Find_loop (Invoke : T → T → Bool) (elem : T) (last : Option ℕ) :
    (left : ℕ) → (node : Option ℕ) → Op T (Option ℕ)
  | 0, _ => throw .outOfRange
  | left + 1, node => do
    let n ← load node
    if Invoke n._data elem then pure node
    else if n._next = last then pure none
    else Find_loop Invoke elem last left n._next

def Find (elem : T) (equalityComparator : Option (T → T → Bool)) : Op T (Option ℕ) := do
  match equalityComparator, (← get)._root with
  | some Invoke, some root =>
    let last := (← load (some root))._next
    Find_loop Invoke elem last (← get)._count.toNat (some root)
  | _, _ => pure none

def Contains [DecidableEq T] (elem : T) : Op T Bool := do
  pure (← Find elem (some fun x y => decide (x = y))).isSome

def Clear : Op T Unit := do
  match (← get)._root with
  | some root => store (some root) fun n => { n with _next := none }
  | none => pure ()
  modify fun m => { m with _root := none, _count := 0 }

def Dequeue : Op T T := do
  let g := (← load (← get)._root)._data
  RemoveNode (← get)._root
  pure g

/-- The original front is the new tail. -/
def Skew : Op T T := do
  let g := (← load (← get)._root)._data
  let next := (← load (← get)._root)._next
  modify fun m => { m with _root := next }
  pure g

end LinkedList

end Infos.Commons
