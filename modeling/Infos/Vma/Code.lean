import Infos.Lib.Bytes
import Infos.Lib.Prog
import Mathlib.Data.Set.Basic

/-!
# The address space of a process, as `infos/mm/vma.cpp` runs it

The kernel sees the first 4 GiB of physical memory through a window at `PMEM_VA_START`. A pointer
into the window is here the physical address behind it, so it is never `NULL`. Every write is
recorded in `written`, by its address and its number of bytes.
-/

open Infos.Bytes Infos.Prog

namespace Infos.Vma

/-- `noFrame` is any failure to come to a frame that the window shows. -/
inductive Fault where
  | assertion
  | outside
  | noFrame
  deriving DecidableEq, Repr

/-! ## Where frames come from -/

/-- A page allocator. A `PageDescriptor *` is the number of its page. It may fail outright, and
it may return `NULL`. -/
structure PageSource (α : Type) where
  alloc_pages : Int → α → Except Unit (Option ℕ × α)
  free : α → Set ℕ
  shrinks : ∀ {order a r a'}, alloc_pages order a = .ok (r, a') → free a' ⊆ free a
  order_le : ∀ {order a pfn a'}, alloc_pages order a = .ok (some pfn, a') → 0 ≤ order ∧ order ≤ 16
  grants : ∀ {order a pfn a'}, alloc_pages order a = .ok (some pfn, a') →
    ∀ i < 2 ^ order.toNat, pfn + i ∈ free a ∧ pfn + i ∉ free a'
  zero_kept : ∀ a, 0 ∉ free a
  physical : ∀ a, ∀ pfn ∈ free a, pfn < 2 ^ 52

structure PageAllocation where
  descriptor_base : ℕ
  allocation_order : Int
  deriving DecidableEq, Repr

structure State (α : Type) where
  mem : Memory
  written : List (ℕ × ℕ)
  pgalloc : α
  _page_allocations : List PageAllocation
  _pgt_phys_base : UInt64
  _pgt_virt_base : ℕ

variable {α : Type}

abbrev Halt (α : Type) := Stop Fault (State α)

abbrev Op (α β : Type) := StateT (State α) (Except (Halt α)) β

def assert (cond : Bool) : Op α Unit := if cond then pure () else halt .assertion

/-! ## The window -/

def PMEM_VA_START : UInt64 := 0xFFFF800000000000

def PMEM_VA_SIZE : ℕ := 0x100000000

def pa_to_vpa (pa : UInt64) : Op α ℕ := do
  assert (decide (pa.toNat < PMEM_VA_SIZE))
  pure pa.toNat

/-- The `n` bytes from `a` on, through the window. -/
@[irreducible]
def access (a n : ℕ) : Op α Unit :=
  if a + n ≤ PMEM_VA_SIZE then pure () else halt .outside

def put (m : Memory) (a n : ℕ) (s : State α) : State α :=
  { s with mem := m, written := (a, n) :: s.written }

def store_word (a : ℕ) (v : UInt64) : Op α Unit := do
  access a 8
  modify fun s => put (store64 s.mem a v) a 8 s

/-- What the window shows is copied before the page fault behind it. -/
def memcpy (dest : ℕ) (src : ℕ → UInt8) (n : ℕ) : Op α Unit := do
  let shown := min n (PMEM_VA_SIZE - dest)
  modify fun s => put (write s.mem dest shown src) dest shown s
  access dest n

/-! ## Entries of the tables -/

inductive MMUTableEntryFlags where
  | PRESENT
  | WRITABLE
  | ALLOW_USER
  | HUGE
  deriving DecidableEq, Repr

def MMUTableEntryFlags.value : MMUTableEntryFlags → UInt16
  | PRESENT => 0
  | WRITABLE => 1
  | ALLOW_USER => 2
  | HUGE => 7

def MMUTableEntryFlags.mask (idx : MMUTableEntryFlags) : UInt16 := 1 <<< idx.value

structure MMUTableEntry where
  bits : UInt64
  deriving DecidableEq, Repr

namespace MMUTableEntry

variable (e : MMUTableEntry)

def base_address : UInt64 := e.bits &&& ~~~0xfff

def set_base_address (addr : UInt64) : MMUTableEntry :=
  ⟨(e.bits &&& 0xfff) ||| (addr &&& ~~~0xfff)⟩

def flags : UInt16 := (e.bits &&& 0xfff).toUInt16

def set_flags (flags : UInt16) : MMUTableEntry :=
  ⟨(e.bits &&& ~~~0xfff) ||| (flags.toUInt64 &&& 0xfff)⟩

def get_flag (idx : MMUTableEntryFlags) : Bool := e.flags &&& idx.mask != 0

def set_flag (idx : MMUTableEntryFlags) (v : Bool) : MMUTableEntry :=
  if v then e.set_flags (e.flags ||| idx.mask) else e.set_flags (e.flags &&& ~~~idx.mask)

def present : Bool := e.get_flag .PRESENT

def huge : Bool := e.get_flag .HUGE

def set_present (v : Bool) : MMUTableEntry := e.set_flag .PRESENT v

def set_writable (v : Bool) : MMUTableEntry := e.set_flag .WRITABLE v

def set_user (v : Bool) : MMUTableEntry := e.set_flag .ALLOW_USER v

end MMUTableEntry

def load_entry (table idx : ℕ) : Op α MMUTableEntry := do
  access (table + 8 * idx) 8
  pure ⟨load64 (← get).mem (table + 8 * idx)⟩

def store_entry (table idx : ℕ) (e : MMUTableEntry) : Op α Unit :=
  store_word (table + 8 * idx) e.bits

/-! ## Frames -/

/-- `phys_addr_t` of a page. -/
def pgd_to_pa (pgd : ℕ) : UInt64 := UInt64.ofNat pgd <<< 12

/-- `shl $9` works on the low half of the register that counts quadwords. What the window shows is
zeroed before the page fault behind it. -/
def pnzero (dest n : ℕ) : Op α Unit := do
  let bytes := 8 * (n * 512 % 2 ^ 32)
  let shown := min bytes (PMEM_VA_SIZE - dest)
  modify fun s => put (zero s.mem dest shown) dest shown s
  if dest + bytes ≤ PMEM_VA_SIZE then pure () else halt .noFrame

def pgd_to_vpa (pgd : ℕ) : Op α ℕ :=
  if (pgd_to_pa pgd).toNat < PMEM_VA_SIZE then pure (pgd_to_pa pgd).toNat else halt .noFrame

def alloc_pages (P : PageSource α) (order : Int) : Op α (Option ℕ) := do
  let s ← get
  match P.alloc_pages order s.pgalloc with
  | .error _ => halt .noFrame
  | .ok (pgd, a) =>
    modify fun s => { s with pgalloc := a }
    pure pgd

/-- `1 << order` -/
def block_pages (order : Int) : ℕ := 1 <<< (order % 32).toNat

def allocate_phys (P : PageSource α) (order : Int) : Op α (Option ℕ) := do
  match ← alloc_pages P order with
  | none => pure none
  | some pgd =>
    modify fun s => { s with _page_allocations := s._page_allocations ++ [⟨pgd, order⟩] }
    pnzero (← pgd_to_vpa pgd) (block_pages order)
    pure (some pgd)

/-- `assert(pgd)` of a page that was asked for. -/
def assert_pgd : Option ℕ → Op α ℕ
  | none => halt .noFrame
  | some pgd => pure pgd

/-! ## The address space -/

def new_VMA (P : PageSource α) : Op α Unit := do
  let pgd ← assert_pgd (← allocate_phys P 0)
  let base ← pgd_to_vpa pgd
  modify fun s => { s with _pgt_phys_base := pgd_to_pa pgd, _pgt_virt_base := base }

/-- The page that `__template_pml4` points to. -/
structure Template where
  base : ℕ
  window : base + 4096 ≤ PMEM_VA_SIZE

def install_default_kernel_mapping (template_pml4 : Template) : Op α Unit := do
  let pgt := (← get)._pgt_virt_base
  store_entry pgt 0x1ff (← load_entry template_pml4.base 0x1ff)
  store_entry pgt 0x100 (← load_entry template_pml4.base 0x100)

/-- `BITS(va, start, start + 8)` -/
def BITS (va start : UInt64) : ℕ := ((va >>> start) &&& 0x1ff).toNat

def pml4_idx (va : UInt64) : ℕ := BITS va 39
def pdp_idx (va : UInt64) : ℕ := BITS va 30
def pd_idx (va : UInt64) : ℕ := BITS va 21
def pt_idx (va : UInt64) : ℕ := BITS va 12

structure MappingFlags where
  Present : Bool
  User : Bool
  Writable : Bool
  deriving DecidableEq, Repr

def MMUTableEntry.set_table (e : MMUTableEntry) (pa : UInt64) : MMUTableEntry :=
  (((e.set_base_address pa).set_present true).set_writable true).set_user true

/-- The table behind an entry, which is made first where there is none. -/
def next_table (P : PageSource α) (table idx : ℕ) : Op α ℕ := do
  let e ← load_entry table idx
  if e.base_address = 0 then
    let pgd ← assert_pgd (← allocate_phys P 0)
    store_entry table idx ((← load_entry table idx).set_table (pgd_to_pa pgd))
  pa_to_vpa (← load_entry table idx).base_address

def MMUTableEntry.set_mapping (e : MMUTableEntry) (pa : UInt64) (flags : MappingFlags) :
    MMUTableEntry :=
  let e := e.set_base_address pa
  let e := if flags.Present then e.set_present true else e
  let e := if flags.Writable then e.set_writable true else e
  if flags.User then e.set_user true else e

def insert_mapping (P : PageSource α) (va pa : UInt64) (flags : MappingFlags) : Op α Unit := do
  let pdp ← next_table P (← get)._pgt_virt_base (pml4_idx va)
  let pd ← next_table P pdp (pdp_idx va)
  let pt ← next_table P pd (pd_idx va)
  store_entry pt (pt_idx va) ((← load_entry pt (pt_idx va)).set_mapping pa flags)

def __page_offset (addr : UInt64) : UInt64 := addr &&& 0xfff

/-- The table behind an entry that is present. -/
def present_table (table idx : ℕ) : Op α (Option ℕ) := do
  let e ← load_entry table idx
  if e.present then some <$> pa_to_vpa e.base_address else pure none

def get_mapping (va : UInt64) : Op α (Option UInt64) := do
  match ← present_table (← get)._pgt_virt_base (pml4_idx va) with
  | none => pure none
  | some pdp =>
    match ← present_table pdp (pdp_idx va) with
    | none => pure none
    | some pd =>
      match ← present_table pd (pd_idx va) with
      | none => pure none
      | some pt => do
        let e ← load_entry pt (pt_idx va)
        if e.present then pure (some (e.base_address ||| __page_offset va)) else pure none

def is_mapped (va : UInt64) : Op α Bool := do
  pure (← get_mapping va).isSome

def __log2ceil (x : UInt64) : ℕ :=
  if x = 0 then 0 else x.toNat.log2 + if x &&& (x - 1) ≠ 0 then 1 else 0

/-- The pages of a block, from one on that is mapped at `vbase`. -/
def map_block (P : PageSource α) : (left : ℕ) → (vbase pbase : UInt64) → Op α Unit
  | 0, _, _ => pure ()
  | left + 1, vbase, pbase => do
    insert_mapping P vbase pbase ⟨true, true, true⟩
    map_block P left (vbase + 0x1000) (pbase + 0x1000)

def allocate_virt (P : PageSource α) (va : UInt64) (nr_pages : Int32) : Op α Bool :=
  if nr_pages = 0 then pure false
  else do
    let order : Int := __log2ceil nr_pages.toInt64.toUInt64
    match ← allocate_phys P order with
    | none => pure false
    | some pgd =>
      map_block P (block_pages order) va (pgd_to_pa pgd)
      pure true

def copy_to (dest_va : UInt64) (src : ℕ → UInt8) (size : UInt64) : Op α Bool := do
  match ← get_mapping dest_va with
  | none => pure false
  | some pa =>
    memcpy (← pa_to_vpa pa) src size.toNat
    pure true

end Infos.Vma
