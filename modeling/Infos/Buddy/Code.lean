import Infos.Lib.Linked
import Infos.Lib.Prog
import Mathlib.Algebra.Order.Ring.Nat

/-!
# The buddy page allocator, as `coursework/buddy.cpp` runs it

A `PageDescriptor *` is the index of the descriptor, `NULL` is `none`. Every read and write of a
descriptor is recorded in `touched`. Descriptors past the end of the array exist in memory too
and hold whatever is there.

A loop that follows `next_free` gets `nr + 1` rounds, one more than there are descriptors. A run
that would need more goes round a cycle, and is the fault `endless`.
-/

open Infos.PtrList

namespace Infos.Buddy

inductive PageDescriptorType where
  | INVALID
  | RESERVED
  | AVAILABLE
  | ALLOCATED
  deriving DecidableEq, Repr

structure PageDescriptor where
  next_free : Option ℕ
  type : PageDescriptorType
  deriving DecidableEq, Repr

/-- What ends a run: a failed `assert`, a dereferenced `NULL`, or a loop that never ends. -/
inductive Fault where
  | assertion
  | nullDeref
  | endless
  deriving DecidableEq, Repr

structure Mem where
  pgd : ℕ → PageDescriptor
  free_areas : ℕ → Option ℕ
  touched : List ℕ

abbrev Op := StateT Mem (Except Fault)

def assert (cond : Bool) : Op Unit := if cond then pure () else throw .assertion

def deref (p : Option ℕ) : Op ℕ :=
  match p with
  | some p => pure p
  | none => throw .nullDeref

/-- The pointers in memory: the array `_free_areas` and the `next_free` fields. -/
def Mem.links (h : Mem) : Links ℕ ℕ := ⟨h.free_areas, fun p => (h.pgd p).next_free⟩

def Mem.visit (h : Mem) : Slot ℕ ℕ → Mem
  | .area _ => h
  | .node p => { h with touched := p :: h.touched }

def Mem.write (h : Mem) (v : Option ℕ) : Slot ℕ ℕ → Mem
  | .area k => { h with free_areas := Function.update h.free_areas k v }
  | .node p => { h with pgd := Function.update h.pgd p { h.pgd p with next_free := v } }

/-- Reads `*slot`, where the slot is an entry of `_free_areas` or a `next_free` field. -/
def load (slot : Slot ℕ ℕ) : Op (Option ℕ) := modifyGet fun h => (h.links.load slot, h.visit slot)

/-- `*slot = v` -/
def store (v : Option ℕ) (slot : Slot ℕ ℕ) : Op Unit := modify fun h => (h.write v slot).visit slot

/-! ## Orders -/

def MAX_ORDER : ℕ := 17

def maxOrder : ℕ := MAX_ORDER - 1

def pages_per_block (order : ℕ) : ℕ := 1 <<< order

def GetSize (order : ℕ) : ℕ := 1 <<< order

/-- The descriptors are an array, so the index is the page frame number. -/
def pgd_to_pfn (pgd : ℕ) : ℕ := pgd

def is_correct_alignment_for_order (pgd order : ℕ) : Bool :=
  pgd_to_pfn pgd % pages_per_block order == 0

section

-- `_nr_pages` of the page allocator, the length of the descriptor array
variable (nr : ℕ)

def pfn_to_pgd (pfn : ℕ) : Option ℕ := if pfn > nr then none else some pfn

def buddy_of (pgd order : ℕ) : Option ℕ :=
  if order ≥ MAX_ORDER then none
  else if !is_correct_alignment_for_order pgd order then none
  else
    let buddy_pfn :=
      if is_correct_alignment_for_order pgd (order + 1) then pgd_to_pfn pgd + pages_per_block order
      else pgd_to_pfn pgd - pages_per_block order
    pfn_to_pgd nr buddy_pfn

/-! ## Free lists -/

/-- `while (*slot && go(*slot)) slot = &(*slot)->next_free;` -/
def seek (go : ℕ → Bool) : (rounds : ℕ) → Slot ℕ ℕ → Op (Slot ℕ ℕ)
  | 0, _ => throw .endless
  | rounds + 1, slot => do
    match ← load slot with
    | none => pure slot
    | some q => if go q then seek go rounds (.node q) else pure slot

def insert_block (pgd order : ℕ) : Op (Slot ℕ ℕ) := do
  let slot ← seek (fun q => decide (pgd > q)) (nr + 1) (.area order)
  store (← load slot) (.node pgd)
  store (some pgd) slot
  pure slot

def remove_block (pgd order : ℕ) : Op Unit := do
  let slot ← seek (fun q => decide (pgd ≠ q)) (nr + 1) (.area order)
  assert ((← load slot) == some pgd)
  store (← load (.node pgd)) slot
  store none (.node pgd)

/-- `block_pointer` is only read before the first write, so it is passed by its value. -/
def split_block (block_pointer : Option ℕ) (source_order : ℕ) : Op (Option ℕ) := do
  assert block_pointer.isSome
  let copyPointer ← deref block_pointer
  assert (is_correct_alignment_for_order copyPointer source_order)
  assert (decide (source_order > 0))
  let sourceOrderMinus1 := source_order - 1
  remove_block nr copyPointer source_order
  let ret ← insert_block nr copyPointer sourceOrderMinus1
  let buddy ← deref (buddy_of nr copyPointer sourceOrderMinus1)
  store (← load (.node (← deref (← load ret)))) (.node buddy)
  store (some buddy) (.node (← deref (← load ret)))
  load ret

/-- The loop of `merge_block`: the node `block` of the list, and the one before it. -/
def merge_find (block : ℕ) : (rounds : ℕ) → (before node : Option ℕ) → Op (Option ℕ × Option ℕ)
  | 0, _, _ => throw .endless
  | _ + 1, before, none => pure (before, none)
  | rounds + 1, before, some node => do
    if node ≠ block then merge_find block rounds (some node) (← load (.node node))
    else pure (before, some node)

/-- The branch of `merge_block` that links past the pair of nodes. -/
def merge_cut (before removeNodePointer : Option ℕ) (source_order : ℕ) : Op Unit := do
  if removeNodePointer = (← load (.area source_order)) then
    let next ← deref (← load (.node (← deref removeNodePointer)))
    store (← load (.node next)) (.area source_order)
  else
    let next ← deref (← load (.node (← deref removeNodePointer)))
    store (← load (.node next)) (.node (← deref before))

/-- `block_pointer` points at a local variable of the caller, so it is passed by its value. -/
def merge_block (block_pointer : Option ℕ) (source_order : ℕ) : Op (Slot ℕ ℕ) := do
  assert block_pointer.isSome
  let block ← deref block_pointer
  assert (is_correct_alignment_for_order block source_order)
  assert (decide (source_order < MAX_ORDER))
  let sourceOrderPlus1 := source_order + 1
  let first ← load (.area source_order)
  let (before, removeNodePointer) ← merge_find block (nr + 1) first first
  merge_cut before removeNodePointer source_order
  let next ← deref (← load (.node (← deref removeNodePointer)))
  store none (.node next)
  store none (.node (← deref removeNodePointer))
  insert_block nr block sourceOrderPlus1

/-- `TryMerge` with `levels` orders left below `maxOrder`, see `TryMerge_eq`. -/
def TryMergeUp : (levels : ℕ) → (page order : ℕ) → Op Unit
  | 0, _, _ => pure ()
  | levels + 1, page, order => do
    let buddy ← deref (buddy_of nr page order)
    if (← load (.node buddy)) = some page ∧ is_correct_alignment_for_order buddy (order + 1) then
      TryMergeUp levels (← deref (← load (← merge_block nr (some buddy) order))) (order + 1)
    else if (← load (.node page)) = some buddy then
      TryMergeUp levels (← deref (← load (← merge_block nr (some page) order))) (order + 1)

def TryMerge (page order : ℕ) : Op Unit := TryMergeUp nr (maxOrder - order) page order

theorem TryMerge_eq (page order : ℕ) :
    TryMerge nr page order = if order ≥ maxOrder then pure () else (do
      let buddy ← deref (buddy_of nr page order)
      if (← load (.node buddy)) = some page ∧ is_correct_alignment_for_order buddy (order + 1) then
        TryMerge nr (← deref (← load (← merge_block nr (some buddy) order))) (order + 1)
      else if (← load (.node page)) = some buddy then
        TryMerge nr (← deref (← load (← merge_block nr (some page) order))) (order + 1)) := by
  unfold TryMerge
  split
  · rename_i h
    rw [Nat.sub_eq_zero_of_le h]
    rfl
  · rename_i h
    rw [show maxOrder - order = maxOrder - (order + 1) + 1 by omega]
    rfl

def SplitToLeft (until_ : ℕ) (ha : Option ℕ) : (order : ℕ) → Op Unit
  | 0 => assert ha.isSome
  | order + 1 => do
    assert ha.isSome
    if order + 1 > until_ then
      let _ ← split_block nr ha (order + 1)
      SplitToLeft until_ ha order

/-! ## The interface of the algorithm -/

/-- The loop of `alloc_pages` over the orders left to try. -/
def alloc_from (order : ℕ) : List ℕ → Op (Option ℕ)
  | [] => pure none
  | o :: os => do
    match ← load (.area o) with
    | none => alloc_from order os
    | some ha =>
      SplitToLeft nr order (some ha) o
      let ret ← deref (← load (.area order))
      remove_block nr ret order
      pure (some ret)

/-- The `int` is converted to `uint64_t`, so a negative order is above `maxOrder`. -/
def alloc_pages (order : Int) : Op (Option ℕ) :=
  let o := (order % 2 ^ 64).toNat
  alloc_from nr o (List.range' o (MAX_ORDER - o))

def free_pages (pgd order : ℕ) : Op Unit := do
  assert (is_correct_alignment_for_order pgd order)
  let _ ← insert_block nr pgd order
  TryMerge nr pgd order

/-- The inner loop of `reserve_page`: splits the block of the order that holds the page. -/
def reserve_scan (pgd i : ℕ) : (rounds : ℕ) → (block : Option ℕ) → Op Unit
  | 0, _ => throw .endless
  | _ + 1, none => pure ()
  | rounds + 1, some block => do
    if pgd ≥ block then
      if GetSize i + block > pgd then
        let _ ← split_block nr (some block) i
      else reserve_scan pgd i rounds (← load (.node block))

/-- The outer loop of `reserve_page`, from the order `i` down to 1. -/
def reserve_orders (pgd : ℕ) : (i : ℕ) → Op Unit
  | 0 => pure ()
  | i + 1 => do
    reserve_scan nr pgd (i + 1) (nr + 1) (← load (.area (i + 1)))
    reserve_orders pgd i

/-- The last loop of `reserve_page`, over the list of order 0. -/
def reserve_find (pgd : ℕ) : (rounds : ℕ) → (b : Option ℕ) → Op Bool
  | 0, _ => throw .endless
  | _ + 1, none => pure false
  | rounds + 1, some b => do
    if b = pgd then
      remove_block nr b 0
      pure true
    else reserve_find pgd rounds (← load (.node b))

def reserve_page (pgd : ℕ) : Op Bool := do
  reserve_orders nr pgd maxOrder
  reserve_find nr pgd (nr + 1) (← load (.area 0))

/-- The inner loop of `init`: the blocks of one order, and the last of them. -/
def init_order (order currentPageSize : ℕ) :
    (rounds : ℕ) → (page pageLeft : ℕ) → (last : Option ℕ) → Op (ℕ × ℕ × Option ℕ)
  | 0, _, _, _ => throw .endless
  | rounds + 1, page, pageLeft, last => do
    if pageLeft ≥ currentPageSize then
      match last with
      | some lastPage => store (some page) (.node lastPage)
      | none => store (some page) (.area order)
      init_order order currentPageSize rounds (page + currentPageSize)
        (pageLeft - currentPageSize) (some page)
    else pure (page, pageLeft, last)

/-- The body of the outer loop of `init`, up to the change of order. -/
def init_level (order currentPageSize page pageLeft : ℕ) : Op (ℕ × ℕ) := do
  let (page, pageLeft, lastPageOfThisOrder) ←
    init_order order currentPageSize (nr + 1) page pageLeft none
  if let some lastPage := lastPageOfThisOrder then
    store none (.node lastPage)
  pure (page, pageLeft)

def init_orders : (order : ℕ) → (currentPageSize page pageLeft : ℕ) → Op Unit
  | order, currentPageSize, page, pageLeft => do
    if pageLeft = 0 then pure ()
    else
      let (page, pageLeft) ← init_level nr order currentPageSize page pageLeft
      match order with
      -- `--order` wraps to 2^64 - 1 and the page size becomes 0.
      | 0 => if pageLeft = 0 then pure () else throw .endless
      | order + 1 => init_orders order (currentPageSize >>> 1) page pageLeft

def init : Op Bool := do
  init_orders nr maxOrder (1 <<< maxOrder) 0 nr
  pure true

end

end Infos.Buddy
