import Mathlib.Algebra.Order.Ring.Nat
import Mathlib.Order.CompletePartialOrder
import Infos.Lib.Prog

/-!
# The heap of `coursework/sched-rr.cpp` and `coursework/sched-fifo.cpp`

`Commons::Collections::FibHeap`, rings of nodes below one another with a pointer to the root that
is to go first, and `PriorityQueue` on top of it. As with the list, a node is never given back and
`Pin` is the pointer itself. `DummyThrow` does nothing. A recursion or a loop whose end the code
does not count takes `fuel` turns at most.
-/

open Infos.Prog

namespace Infos.Commons

namespace FibHeap

/-- `outOfRange` is an index outside of an array, `endless` a loop that is out of fuel. -/
inductive Fault where
  | null
  | outOfRange
  | thrown
  | endless
  deriving DecidableEq, Repr

structure FibNode (TKey TValue : Type) where
  key : TKey
  value : TValue
  degree : ℤ
  left : Option ℕ
  right : Option ℕ
  child : Option ℕ
  parent : Option ℕ
  marked : Bool
  minimumMarkDuringRemove : Bool
  deriving DecidableEq, Repr

def FibNode.new {TKey TValue : Type} (key : TKey) (value : TValue) : FibNode TKey TValue :=
  ⟨key, value, 0, none, none, none, none, false, false⟩

/-- A comparator that agrees with `<`. -/
structure IValueComparator (TKey : Type) [LinearOrder TKey] where
  Invoke : TKey → TKey → ℤ
  neg : ∀ a b, Invoke a b < 0 ↔ a < b
  pos : ∀ a b, 0 < Invoke a b ↔ b < a

def byDifference : IValueComparator ℕ where
  Invoke a b := a - b
  neg _ _ := by omega
  pos _ _ := by omega

end FibHeap

/-- The object, without its nodes. -/
structure FibHeap (TKey : Type) [LinearOrder TKey] where
  num : ℤ
  min : Option ℕ
  comparator : FibHeap.IValueComparator TKey

/-- `node` is the memory that the nodes are in, of which `fresh` is the first that is not used. -/
structure FibMemory (TKey TValue : Type) [LinearOrder TKey] extends FibHeap TKey where
  node : ℕ → Option (FibHeap.FibNode TKey TValue)
  fresh : ℕ

namespace FibHeap

variable {TKey TValue : Type} [LinearOrder TKey]

abbrev Op (TKey TValue α : Type) [LinearOrder TKey] := StateT (FibMemory TKey TValue) (Except Fault) α

def new (c : IValueComparator TKey) : FibHeap TKey := ⟨0, none, c⟩

def int (x : ℤ) : ℤ := x.bmod 0x100000000

/-! ## Nodes -/

def load (p : Option ℕ) : Op TKey TValue (FibNode TKey TValue) := do
  match p.bind (← get).node with
  | none => throw .null
  | some n => pure n

def store (p : Option ℕ) (f : FibNode TKey TValue → FibNode TKey TValue) : Op TKey TValue Unit := do
  let n ← load p
  modify fun m => { m with node := fun a => if p = some a then some (f n) else m.node a }

def MakeShared (key : TKey) (value : TValue) : Op TKey TValue (Option ℕ) := do
  let node := (← get).fresh
  modify fun m => { m with
    node := fun a => if m.fresh = a then some (.new key value) else m.node a
    fresh := m.fresh + 1 }
  pure (some node)

def setMin (p : Option ℕ) : Op TKey TValue Unit :=
  modify fun m => { m with min := p }

def CompareKey (a b : TKey) : Op TKey TValue ℤ := do
  pure ((← get).comparator.Invoke a b)

def CompareNode (a b : Option ℕ) : Op TKey TValue ℤ := do
  let x ← load a
  if x.minimumMarkDuringRemove then pure (-1)
  else
    let y ← load b
    if y.minimumMarkDuringRemove then pure 1
    else CompareKey x.key y.key

/-! ## Rings -/

def RemoveNode (node : Option ℕ) : Op TKey TValue Unit := do
  let right := (← load node).right
  store (← load node).left fun n => { n with right := right }
  let left := (← load node).left
  store (← load node).right fun n => { n with left := left }

def AddNode (node root : Option ℕ) : Op TKey TValue Unit := do
  let left := (← load root).left
  store node fun n => { n with left := left }
  store (← load node).left fun n => { n with right := node }
  store node fun n => { n with right := root }
  store root fun n => { n with left := node }

/-- `Insert(Shared node)`. -/
def InsertNode (node : Option ℕ) : Op TKey TValue Unit := do
  if (← get).num = 0 then
    setMin node
    store node fun n => { n with left := node }
    store node fun n => { n with right := node }
  else
    AddNode node (← get).min
    if (← load node).key < (← load (← get).min).key then
      setMin node
  modify fun m => { m with num := int (m.num + 1) }

def ConcatenateRootList (a b : Option ℕ) : Op TKey TValue Unit := do
  let t := (← load a).right
  let right := (← load b).right
  store a fun n => { n with right := right }
  store (← load b).right fun n => { n with left := a }
  store b fun n => { n with right := t }
  store t fun n => { n with left := b }

def Combine (other : Option (FibHeap TKey)) : Op TKey TValue Unit := do
  match other with
  | none => throw .thrown
  | some other =>
    if (← get).min = none then
      setMin other.min
      modify fun m => { m with num := other.num }
    else if other.min = none then pure ()
    else
      ConcatenateRootList (← get).min other.min
      if 0 < (← CompareKey (← load (← get).min).key (← load other.min).key) then
        setMin other.min
      modify fun m => { m with num := int (m.num + other.num) }

/-- The public `Insert`. -/
def Insert (key : TKey) (value : TValue) : Op TKey TValue (Option ℕ) := do
  let node ← MakeShared key value
  InsertNode node
  pure node

def ExtractMin : Op TKey TValue (Option ℕ) := do
  let p := (← get).min
  if p = (← load p).right then setMin none
  else
    RemoveNode p
    setMin (← load p).right
  store p fun n => { n with right := p }
  store p fun n => { n with left := p }
  pure p

def Minimum : Op TKey TValue (Option ℕ) := do
  pure (← get).min

/-! ## Trees -/

/-- A `SharedPointer` keeps what is assigned out of it, so that both hold `y` in the end and `temp`
is never read. -/
def Swap (_x y : Option ℕ) : Option ℕ × Option ℕ :=
  let t1 := y
  (t1, t1)

def Link (node root : Option ℕ) : Op TKey TValue Unit := do
  RemoveNode node
  if (← load root).child = none then
    store root fun n => { n with child := node }
  else AddNode node (← load root).child
  store node fun n => { n with parent := root }
  store root fun n => { n with degree := int (n.degree + 1) }
  store node fun n => { n with marked := false }

/-- The least `num` with each further value of `(int)(log(num) / log(2) + 1)`, whose logarithms are
those of the table to six digits. -/
def logSteps : List ℤ := [1, 2, 5, 9, 16, 32, 65, 128, 256, 513]

/-- The local `D` of `Consolidate`. The table ends at 900. -/
def logOf (num : ℤ) : Op TKey TValue ℕ := do
  if 0 ≤ num ∧ num ≤ 900 then pure (logSteps.countP (· ≤ num)) else throw .outOfRange

def at' (a : List (Option ℕ)) (i : ℤ) : Op TKey TValue (Option ℕ) := do
  if i < 0 then throw .outOfRange
  else
    match a[i.toNat]? with
    | none => throw .outOfRange
    | some x => pure x

/-- `while (a[d])`. -/
def linkRoots : (fuel : ℕ) → (a : List (Option ℕ)) → (x : Option ℕ) → (d : ℤ) →
    Op TKey TValue (List (Option ℕ) × Option ℕ × ℤ)
  | 0, _, _, _ => throw .endless
  | fuel + 1, a, x, d => do
    let y ← at' a d
    if y = none then pure (a, x, d)
    else
      let (x, y) := if 0 < (← CompareNode x y) then Swap x y else (x, y)
      Link y x
      linkRoots fuel (a.set d.toNat none) x (d + 1)

/-- `while (min)`. -/
def extractRoots : (fuel : ℕ) → (a : List (Option ℕ)) → Op TKey TValue (List (Option ℕ))
  | 0, _ => throw .endless
  | fuel + 1, a => do
    if (← get).min = none then pure a
    else
      let x ← ExtractMin
      let (a, x, d) ← linkRoots (fuel + 1) a x (← load x).degree
      let _ ← at' a d
      extractRoots fuel (a.set d.toNat x)

/-- The turn of the last loop for the entry `p` of the array. -/
def addRoot (p : Option ℕ) : Op TKey TValue Unit := do
  if p = none then
    if (← get).min = none then setMin p
    else
      AddNode p (← get).min
      if (← CompareNode p (← get).min) < 0 then
        setMin p

def Consolidate (fuel : ℕ) : Op TKey TValue Unit := do
  let D ← logOf (← get).num
  let a ← extractRoots (fuel + 1) (List.replicate (D + 1) none)
  setMin none
  forM (a.take D) addRoot

/-- `while (m->child)`. -/
def removeChildren (m : Option ℕ) : (fuel : ℕ) → Op TKey TValue Unit
  | 0 => throw .endless
  | fuel + 1 => do
    let child := (← load m).child
    if child ≠ none then
      RemoveNode child
      let right := (← load child).right
      if right = child then store m fun n => { n with child := none }
      else store m fun n => { n with child := right }
      removeChildren m fuel

def RemoveMin (fuel : ℕ) : Op TKey TValue Unit := do
  let m := (← get).min
  if m ≠ none then
    removeChildren m (fuel + 1)
    RemoveNode m
    let right := (← load m).right
    if right = m then setMin none
    else
      setMin right
      Consolidate fuel
    modify fun m => { m with num := int (m.num - 1) }

/-! ## Cutting -/

def RefreshDegree (degree : ℤ) : (fuel : ℕ) → (parent : Option ℕ) → Op TKey TValue Unit
  | 0, _ => throw .endless
  | fuel + 1, parent => do
    store parent fun n => { n with degree := int (n.degree - degree) }
    let next := (← load parent).parent
    if next = none then RefreshDegree degree fuel next

def Cut (fuel : ℕ) (node parent : Option ℕ) : Op TKey TValue Unit := do
  RemoveNode node
  RefreshDegree (← load node).degree (fuel + 1) parent
  let right := (← load node).right
  if node = right then store parent fun n => { n with child := none }
  else store parent fun n => { n with child := right }
  store node fun n => { n with parent := none }
  store node fun n => { n with right := node }
  store node fun n => { n with left := node }
  store node fun n => { n with marked := false }
  AddNode node (← get).min

def CascadingCut : (fuel : ℕ) → (node : Option ℕ) → Op TKey TValue Unit
  | 0, _ => throw .endless
  | fuel + 1, node => do
    let parent := (← load node).parent
    if parent = none then
      if (← load node).marked then
        Cut fuel node parent
        CascadingCut fuel parent
      else store node fun n => { n with marked := true }

def DecreaseKey (fuel : ℕ) (node : Option ℕ) (key : TKey) : Op TKey TValue Unit := do
  let _ ← CompareKey key (← load node).key
  store node fun n => { n with key := key }
  let parent := (← load node).parent
  -- the test on `parent` is the wrong way round
  if parent = none then
    if (← CompareNode node parent) < 0 then
      Cut fuel node parent
      CascadingCut (fuel + 1) parent
  if (← CompareNode node (← get).min) < 0 then
    setMin node

end FibHeap

/-! ## The queue -/

namespace PriorityQueue

open FibHeap

variable {TKey : Type} [LinearOrder TKey]

def new (c : IValueComparator TKey) : FibMemory TKey TKey :=
  { FibHeap.new c with node := fun _ => none, fresh := 0 }

def Enqueue (key : TKey) : FibHeap.Op TKey TKey Unit := do
  let _ ← Insert key key

def Front : FibHeap.Op TKey TKey TKey := do
  pure (← load (← Minimum)).value

def Dequeue : FibHeap.Op TKey TKey TKey := do
  pure (← load (← ExtractMin)).value

end PriorityQueue

end Infos.Commons
