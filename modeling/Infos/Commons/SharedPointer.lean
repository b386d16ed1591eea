import Infos.Lib.Prog
import Infos.Lib.System
import Mathlib.Algebra.Order.Ring.Nat
import Mathlib.Logic.Function.Basic

/-!
# The pointers of `coursework/Core/Memory.h`

`Commons::SharedPointer` and `Commons::WeakPointer`, which `coursework/sched-rr.cpp` and
`coursework/sched-fifo.cpp` have copies of. The three fields of a pointer are set together, so one
number stands for them: that of the object. No number is given to two objects.
-/

open Infos.Prog

namespace Infos.Commons.Pointers

/-- `freed` is the use of memory that was given back, and `loops` a call that does not end. -/
inductive Fault where
  | freed
  | loops
  | no_memory
  deriving DecidableEq, Repr

/-- An object with `*_sharedCount` and `*_weakCount`, which may be deleted before it or after. -/
structure Object where
  address : ℕ
  alive : Bool
  counts : Option (Int32 × Int32)
  deriving DecidableEq, Repr

/-- A pointer, which is a member of its owner if it has one. -/
structure Variable where
  name : ℕ
  owner : Option ℕ
  value : Option ℕ
  deriving DecidableEq, Repr

/-- `shared` are the pointers that are there, and `weak` those that do not keep an object. -/
structure Store where
  object : ℕ → Option Object
  next : ℕ
  shared : List Variable
  weak : List Variable

abbrev Op (α : Type) := StateT Store (Except Fault) α

namespace Store

def empty : Store := ⟨fun _ => none, 0, [], []⟩

def lives (h : Store) (o : ℕ) : Bool := (h.object o).any Object.alive

def update (o : ℕ) (f : Object → Object) (h : Store) : Store :=
  { h with object := Function.update h.object o ((h.object o).map f) }

/-- The memory of the object and of its members is given back. -/
def freed (o : ℕ) (h : Store) : Store where
  object := (h.update o fun b => { b with alive := false }).object
  next := h.next
  shared := h.shared.filter fun v => v.owner ≠ some o
  weak := h.weak.filter fun v => v.owner ≠ some o

/-- `_data`, which is compared where a weak pointer is assigned. -/
def data (h : Store) (v : Option ℕ) : Option ℕ := (v.bind h.object).map Object.address

end Store

def lookup (name : ℕ) (vs : List Variable) : Option Variable := vs.find? fun v => v.name = name

def assigned (name : ℕ) (value : Option ℕ) (vs : List Variable) : List Variable :=
  vs.map fun v => if v.name = name then { v with value } else v

def removed (name : ℕ) (vs : List Variable) : List Variable := vs.filter fun v => v.name ≠ name

def counts (o : ℕ) : Op (Int32 × Int32) := do
  match ((← get).object o).bind Object.counts with
  | none => throw .freed
  | some c => pure c

def set_counts (o : ℕ) (c : Option (Int32 × Int32)) : Op Unit :=
  modify (Store.update o fun b => { b with counts := c })

/-! ## `SharedPointer` -/

/-- A pointer has the size of three words, and the memory of the kernel is a window of 4 GiB. -/
def room : ℕ := 0x100000000 / 24

namespace SharedPointer

def read (name : ℕ) : Op (Option ℕ) := do
  match lookup name (← get).shared with
  | none => throw .freed
  | some v => pure v.value

def write (name : ℕ) (value : Option ℕ) : Op Unit := do
  if (lookup name (← get).shared).isNone then throw .freed
  modify fun h => { h with shared := assigned name value h.shared }

def declare (name : ℕ) (owner value : Option ℕ) : Op Unit := do
  if (← get).shared.length < room then
    modify fun h => { h with shared := h.shared ++ [⟨name, owner, value⟩] }
  else throw .no_memory

def Hold : Option ℕ → Op Unit
  | none => pure ()
  | some o => do
    let c ← counts o
    set_counts o (some (c.1 + 1, c.2))

/-- `delete _data` releases the members first. A weak pointer has no destructor of its own. -/
def Release : ℕ → Option ℕ → Op Unit
  | _, none => pure ()
  | 0, some _ => throw .loops
  | turns + 1, some o => do
    let c ← counts o
    set_counts o (some (c.1 - 1, c.2))
    if c.1 - 1 = 0 then
      forM ((← get).shared.filter fun v => v.owner = some o) fun v => Release turns v.value
      modify (Store.freed o)
      let c ← counts o
      set_counts o (some (c.1, c.2 - 1))

def release (v : Option ℕ) : Op Unit := do
  Release ((← get).shared.length + 1) v

/-- `SharedPointer(new T)`, with the memory at the address. -/
def construct (name : ℕ) (owner : Option ℕ) (address : ℕ) : Op Unit := do
  let o := (← get).next
  modify fun h => { h with
    object := Function.update h.object o (some ⟨address, true, some (1, 1)⟩)
    next := o + 1 }
  declare name owner (some o)

def copy (name : ℕ) (owner : Option ℕ) (p : ℕ) : Op Unit := do
  let v ← read p
  declare name owner v
  Hold v

def move (name : ℕ) (owner : Option ℕ) (p : ℕ) : Op Unit := do
  let v ← read p
  declare name owner v
  write p none

/-- The two operators, of which the one that moves leaves the other pointer as it is. -/
def assign (this other : ℕ) : Op Unit := do
  Hold (← read other)
  release (← read this)
  write this (← read other)

def assign_null (this : ℕ) : Op Unit := do
  release (← read this)
  write this none

def destroy (this : ℕ) : Op Unit := do
  release (← read this)
  modify fun h => { h with shared := removed this h.shared }

/-- The private constructor counts the new pointer, as `Hold` did before it. -/
def ConstructPointerAtType (name : ℕ) (owner ptr : Option ℕ) : Op Unit := do
  if ptr = none then declare name owner none
  else
    Hold ptr
    declare name owner ptr
    Hold ptr

def StaticCast (name : ℕ) (owner : Option ℕ) (p : ℕ) : Op Unit := do
  ConstructPointerAtType name owner (← read p)

/-- `derived` is whether the object is of the type. -/
def DynamicCast (derived : Bool) (name : ℕ) (owner : Option ℕ) (p : ℕ) : Op Unit := do
  let v ← read p
  ConstructPointerAtType name owner (if derived then v else none)

end SharedPointer

/-! ## `WeakPointer` -/

namespace WeakPointer

def read (name : ℕ) : Op (Option ℕ) := do
  match lookup name (← get).weak with
  | none => throw .freed
  | some v => pure v.value

def write (name : ℕ) (value : Option ℕ) : Op Unit :=
  modify fun h => { h with weak := assigned name value h.weak }

def declare (name : ℕ) (owner value : Option ℕ) : Op Unit :=
  modify fun h => { h with weak := h.weak ++ [⟨name, owner, value⟩] }

def Hold : Option ℕ → Op Unit
  | none => pure ()
  | some o => do
    let c ← counts o
    set_counts o (some (c.1, c.2 + 1))

/-- The two counts are deleted with the last weak pointer that is counted. -/
def Release : Option ℕ → Op Unit
  | none => pure ()
  | some o => do
    let c ← counts o
    set_counts o (if c.2 - 1 = 0 then none else some (c.1, c.2 - 1))

def construct (name : ℕ) (owner : Option ℕ) (p : ℕ) : Op Unit := do
  let v ← SharedPointer.read p
  declare name owner v
  Hold v

/-- The constructors that copy and move are the implicit ones, and so are the operators. -/
def copy (name : ℕ) (owner : Option ℕ) (w : ℕ) : Op Unit := do
  declare name owner (← read w)

def copy_assign (this other : ℕ) : Op Unit := do
  write this (← read other)

def assign (this p : ℕ) : Op Unit := do
  let v ← read this
  let u ← SharedPointer.read p
  if (← get).data v ≠ (← get).data u then
    Release v
    write this u
    Hold u

def assign_null (this : ℕ) : Op Unit := do
  Release (← read this)
  write this none

def destroy (this : ℕ) : Op Unit :=
  modify fun h => { h with weak := removed this h.weak }

def Pin (name : ℕ) (owner : Option ℕ) (w : ℕ) : Op Unit := do
  match ← read w with
  | none => SharedPointer.declare name owner none
  | some o =>
    let c ← counts o
    if c.1 ≠ 0 then
      SharedPointer.declare name owner (some o)
      SharedPointer.Hold (some o)
    else SharedPointer.declare name owner none

end WeakPointer

/-! ## Programs -/

/-- What is done with the pointers, one after another. The first number is that of the pointer. -/
inductive Call where
  | construct (name : ℕ) (owner : Option ℕ) (address : ℕ)
  | null (name : ℕ) (owner : Option ℕ)
  | copy (name : ℕ) (owner : Option ℕ) (p : ℕ)
  | move (name : ℕ) (owner : Option ℕ) (p : ℕ)
  | assign (this other : ℕ)
  | assign_null (this : ℕ)
  | destroy (this : ℕ)
  | StaticCast (name : ℕ) (owner : Option ℕ) (p : ℕ)
  | DynamicCast (derived : Bool) (name : ℕ) (owner : Option ℕ) (p : ℕ)
  | Pin (name : ℕ) (owner : Option ℕ) (w : ℕ)
  | weak (name : ℕ) (owner : Option ℕ) (p : ℕ)
  | weak_null (name : ℕ) (owner : Option ℕ)
  | weak_copy (name : ℕ) (owner : Option ℕ) (w : ℕ)
  | weak_copy_assign (this other : ℕ)
  | weak_assign (this p : ℕ)
  | weak_assign_null (this : ℕ)
  | weak_destroy (this : ℕ)
  deriving DecidableEq, Repr

def Call.run : Call → Op Unit
  | .construct name owner address => SharedPointer.construct name owner address
  | .null name owner => SharedPointer.declare name owner none
  | .copy name owner p => SharedPointer.copy name owner p
  | .move name owner p => SharedPointer.move name owner p
  | .assign this other => SharedPointer.assign this other
  | .assign_null this => SharedPointer.assign_null this
  | .destroy this => SharedPointer.destroy this
  | .StaticCast name owner p => SharedPointer.StaticCast name owner p
  | .DynamicCast derived name owner p => SharedPointer.DynamicCast derived name owner p
  | .Pin name owner w => WeakPointer.Pin name owner w
  | .weak name owner p => WeakPointer.construct name owner p
  | .weak_null name owner => WeakPointer.declare name owner none
  | .weak_copy name owner w => WeakPointer.copy name owner w
  | .weak_copy_assign this other => WeakPointer.copy_assign this other
  | .weak_assign this p => WeakPointer.assign this p
  | .weak_assign_null this => WeakPointer.assign_null this
  | .weak_destroy this => WeakPointer.destroy this

def names (vs : List Variable) : List ℕ := vs.map Variable.name

/-- A new pointer has a name of its own, and is on the stack or a member of an object. -/
def Fresh (h : Store) (vs : List Variable) (name : ℕ) (owner : Option ℕ) : Prop :=
  name ∉ names vs ∧ owner.all h.lives

instance (h : Store) (vs : List Variable) (name : ℕ) (owner : Option ℕ) :
    Decidable (Fresh h vs name owner) := inferInstanceAs (Decidable (_ ∧ _))

/-- A program uses the pointers that are there. -/
def Call.Allowed (h : Store) : Call → Prop
  | .construct name owner _ | .null name owner => Fresh h h.shared name owner
  | .copy name owner p | .move name owner p | .StaticCast name owner p
  | .DynamicCast _ name owner p => Fresh h h.shared name owner ∧ p ∈ names h.shared
  | .assign this other => this ∈ names h.shared ∧ other ∈ names h.shared
  | .assign_null this | .destroy this => this ∈ names h.shared
  | .Pin name owner w => Fresh h h.shared name owner ∧ w ∈ names h.weak
  | .weak name owner p => Fresh h h.weak name owner ∧ p ∈ names h.shared
  | .weak_null name owner => Fresh h h.weak name owner
  | .weak_copy name owner w => Fresh h h.weak name owner ∧ w ∈ names h.weak
  | .weak_copy_assign this other => this ∈ names h.weak ∧ other ∈ names h.weak
  | .weak_assign this p => this ∈ names h.weak ∧ p ∈ names h.shared
  | .weak_assign_null this | .weak_destroy this => this ∈ names h.weak

instance (h : Store) (c : Call) : Decidable (c.Allowed h) := by
  cases c <;> unfold Call.Allowed <;> infer_instance

/-- The programs of which every step satisfies the guard. -/
def system (guard : Store → Call → Prop) : System Store Call Fault where
  start h := h = .empty
  allowed h c := c.Allowed h ∧ guard h c
  step h c := (c.run h).map Prod.snd

end Infos.Commons.Pointers
