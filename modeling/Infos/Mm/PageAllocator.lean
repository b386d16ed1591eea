import Infos.Buddy.Runs
import Infos.Mm.MemoryManager

/-!
# The page allocator, as `infos/mm/page-allocator.cpp` runs it

It keeps the type of every page, and leaves the choice of pages to an algorithm. The descriptors
are the ones the algorithm works on.
-/

open Infos.Blocks Infos.Prog Infos.PtrList Infos.Buddy

namespace Infos.Mm

/-- The virtual functions of an algorithm. -/
structure PageAllocatorAlgorithm where
  init (nr_page_descriptors : ℕ) : Op Bool
  reserve_page (pgd : ℕ) : Op Bool
  alloc_pages (order : Int) : Op (Option ℕ)
  free_pages (pgd order : ℕ) : Op Unit

/-- The buddy algorithm, which asks the page allocator for `_nr_pages`. -/
def BuddyPageAllocator (nr : ℕ) : PageAllocatorAlgorithm where
  init := Buddy.init
  reserve_page := Buddy.reserve_page nr
  alloc_pages := Buddy.alloc_pages nr
  free_pages := Buddy.free_pages nr

/-! ## Types of pages -/

def setType (h : Mem) (type : PageDescriptorType) (p : ℕ) : Mem :=
  { h with pgd := Function.update h.pgd p { h.pgd p with type := type } }

def load_type (p : ℕ) : Op PageDescriptorType :=
  modifyGet fun h => ((h.pgd p).type, h.visit (.node p))

def store_type (type : PageDescriptorType) (p : ℕ) : Op Unit :=
  modify fun h => (setType h type p).visit (.node p)

/-- The loops of `alloc_pages` and `free_pages`, from the page `i` of the block on. -/
def mark_block (old new : PageDescriptorType) (pgd : Option ℕ) : (left i : ℕ) → Op Unit
  | 0, _ => pure ()
  | left + 1, i => do
    let base ← deref pgd
    assert ((← load_type (base + i)) == old)
    store_type new (base + i)
    mark_block old new pgd left (i + 1)

/-- `1u << order`, of which the processor takes the count modulo 32. -/
def nr_block_pages (order : Int) : ℕ := 1 <<< (order % 32).toNat

def alloc_pages (algorithm : Option PageAllocatorAlgorithm) (order : Int) : Op (Option ℕ) :=
  match algorithm with
  | none => pure none
  | some algorithm => do
    let pgd ← algorithm.alloc_pages order
    mark_block .AVAILABLE .ALLOCATED pgd (nr_block_pages order) 0
    pure pgd

def free_pages (algorithm : Option PageAllocatorAlgorithm) (pgd order : ℕ) : Op Unit :=
  match algorithm with
  | none => pure ()
  | some algorithm => do
    algorithm.free_pages pgd order
    mark_block .ALLOCATED .AVAILABLE (some pgd) (nr_block_pages order) 0

/-! ## Initialising -/

def KERNEL_VMEM_START : UInt64 := 0xFFFFFFFF80000000

/-- The symbols of `kernel.ld`. The image starts at 1 MiB, behind the data come two stacks of
two pages each, and the heap starts where the image ends. -/
structure KernelImage where
  _STACK_START : UInt64
  aligned : 4096 ∣ _STACK_START.toNat
  in_kernel : KERNEL_VMEM_START.toNat + 0x100000 ≤ _STACK_START.toNat
  room : _STACK_START.toNat + 0x4000 < 2 ^ 64

namespace KernelImage

variable (img : KernelImage)

def _IMAGE_START : UInt64 := 0x100000

def _STACK_END : UInt64 := img._STACK_START + 0x2000

def _HEAP_START : UInt64 := img._STACK_START + 0x4000

def _IMAGE_END : UInt64 := img._HEAP_START - KERNEL_VMEM_START

end KernelImage

/-- The upper end of the range is the last address there is. -/
def kva_to_pa (va : UInt64) : Op UInt64 := do
  assert (decide (va ≥ KERNEL_VMEM_START))
  pure (va - KERNEL_VMEM_START)

def pa_to_pfn (pa : UInt64) : UInt64 := pa >>> 12

def bzero (nr : ℕ) (h : Mem) : Mem :=
  { h with pgd := fun i => if i < nr then ⟨none, .INVALID⟩ else h.pgd i }

def setup_page_descriptors (mm : MemoryManager) (img : KernelImage) : Op Bool := do
  match lookup_phys_block mm (← kva_to_pa img._HEAP_START) with
  | none => pure false
  | some _ =>
    modify (bzero mm.nr_pages.toNat)
    pure true

/-- `for (pfn = start; pfn < start + nr_pages; pfn++)` -/
def pfn_range (start : UInt64) (nr_pages : UInt32) : List ℕ :=
  List.range' start.toNat nr_pages.toNat

def mark_page_range (type : PageDescriptorType) (start : UInt64) (nr_pages : UInt32) : Op Unit :=
  forM (pfn_range start nr_pages) (store_type type)

def reserve_unavailable (algorithm : PageAllocatorAlgorithm) : (left pgd : ℕ) → Op Bool
  | 0, _ => pure true
  | left + 1, pgd => do
    if (← load_type pgd) ≠ .AVAILABLE then
      if ← algorithm.reserve_page pgd then reserve_unavailable algorithm left (pgd + 1)
      else pure false
    else reserve_unavailable algorithm left (pgd + 1)

/-- `sizeof(PageDescriptor)` -/
def sizeof_PageDescriptor : UInt64 := 16

/-- Without the self-test, which has to be asked for. -/
def init (algorithm : Option PageAllocatorAlgorithm) (mm : MemoryManager) (img : KernelImage) :
    Op Bool :=
  match algorithm with
  | none => pure false
  | some algorithm => do
    if ← setup_page_descriptors mm img then
      forM mm.normal_pfns (store_type .AVAILABLE)
      mark_page_range .RESERVED 0 1
      mark_page_range .ALLOCATED 1 6
      let image_start_pfn := pa_to_pfn KernelImage._IMAGE_START
      let image_last_pfn := pa_to_pfn img._IMAGE_END
      mark_page_range .RESERVED image_start_pfn (image_last_pfn - image_start_pfn + 1).toUInt32
      let stack_start_pfn := pa_to_pfn (← kva_to_pa img._STACK_START)
      let stack_last_pfn := pa_to_pfn (← kva_to_pa img._STACK_END)
      mark_page_range .RESERVED stack_start_pfn (stack_last_pfn - stack_start_pfn + 1).toUInt32
      let heap_start_pfn := pa_to_pfn (← kva_to_pa img._HEAP_START)
      mark_page_range .RESERVED heap_start_pfn
        (((mm.nr_pages * sizeof_PageDescriptor) >>> 12) + 1).toUInt32
      if ← algorithm.init mm.nr_pages.toNat then
        reserve_unavailable algorithm mm.nr_pages.toNat 0
      else pure false
    else pure false

end Infos.Mm
