import Infos.Lib.Bytes
import Infos.Mm.PageRuns

/-!
# The memory map of the boot loader

`mm_init` hands one entry after another to the memory manager. No page is ever allocated that no
entry reports as available, or that the kernel lies in.
-/

open Infos.Blocks Infos.Buddy Infos.Bytes Infos.Mm

namespace Infos.Arch.MemoryMap

/-! ## The map -/

def KERNEL_VMEM_SIZE : ℕ := 0x80000000

def MULTIBOOT_MEMORY_AVAILABLE : UInt32 := 1

def MULTIBOOT_MEMORY_RESERVED : UInt32 := 2

/-- Without `size`, which nothing reads. -/
structure multiboot_mmap_entry where
  addr : UInt64
  len : UInt64
  type : UInt32

def sizeof_mmap_entry : ℕ := 24

/-- The fields are packed, behind the four bytes of `size`. -/
def load_entry (mem : Memory) (pa : ℕ) : multiboot_mmap_entry :=
  ⟨load64 mem (pa + 4), load64 mem (pa + 12), UInt32.ofNat (load mem (pa + 20) 4)⟩

structure multiboot_info where
  mmap_length : UInt32
  mmap_addr : UInt32

def multiboot_info.count (info : multiboot_info) : ℕ := info.mmap_length.toNat / sizeof_mmap_entry

def multiboot_info.entry (info : multiboot_info) (mem : Memory) (i : ℕ) : multiboot_mmap_entry :=
  load_entry mem (info.mmap_addr.toNat + sizeof_mmap_entry * i)

/-- What a turn of the loop of `mm_init` does with its entry. -/
def add_entry (entry : multiboot_mmap_entry) (mm : MemoryManager) : MemoryManager :=
  if entry.len &&& ~~~0xfff = 0 then mm
  else if entry.type = MULTIBOOT_MEMORY_AVAILABLE then
    add_physical_memory mm entry.addr (entry.len >>> 12).toUInt32 .NORMAL
  else if entry.type = MULTIBOOT_MEMORY_RESERVED then
    add_physical_memory mm entry.addr (entry.len >>> 12).toUInt32 .UNUSABLE
  else mm

/-- The loop, from the entry `i` on. An entry that `pa_to_kva` cannot reach is an assertion. -/
def add_entries (mem : Memory) (info : multiboot_info) :
    (left i : ℕ) → MemoryManager → Except Fault MemoryManager
  | 0, _, mm => .ok mm
  | left + 1, i, mm =>
    if info.mmap_addr.toNat + sizeof_mmap_entry * i < KERNEL_VMEM_SIZE then
      add_entries mem info left (i + 1) (add_entry (info.entry mem i) mm)
    else .error .assertion

variable {mem : Memory} {info : multiboot_info} {mm mm' : MemoryManager} {ebx : UInt32}

/-- The page lies in an entry that reports available memory, where the entry starts with a whole
page. -/
def multiboot_mmap_entry.Reports (entry : multiboot_mmap_entry) (x : ℕ) : Prop :=
  entry.type = MULTIBOOT_MEMORY_AVAILABLE ∧
    entry.addr.toNat - entry.addr.toNat % 4096 ≤ 4096 * x ∧
    4096 * x + 4096 ≤ entry.addr.toNat - entry.addr.toNat % 4096 + entry.len.toNat

theorem mem_add_physical_memory {addr : UInt64} {nr_pages : UInt32} {type : MemoryType}
    {b : PhysicalMemoryBlock}
    (hb : b ∈ (add_physical_memory mm addr nr_pages type)._phys_mem_blocks) :
    b ∈ mm._phys_mem_blocks ∨ b.base_address = addr ∧ b.nr_pages = nr_pages ∧ b.type = type := by
  unfold add_physical_memory at hb
  split at hb
  · exact .inl hb
  split at hb
  · exact .inl hb
  · rcases List.mem_append.mp hb with hold | hnew
    · exact .inl hold
    · rw [List.mem_singleton.mp hnew]
      exact .inr ⟨rfl, rfl, rfl⟩

theorem mem_add_entry {entry : multiboot_mmap_entry} {b : PhysicalMemoryBlock}
    (hb : b ∈ (add_entry entry mm)._phys_mem_blocks) (htype : b.type = .NORMAL) :
    b ∈ mm._phys_mem_blocks ∨ entry.type = MULTIBOOT_MEMORY_AVAILABLE ∧
      b.base_address = entry.addr ∧ b.nr_pages = (entry.len >>> 12).toUInt32 := by
  unfold add_entry at hb
  split at hb
  · exact .inl hb
  split at hb
  next havailable =>
    apply (mem_add_physical_memory hb).imp_right
    rintro ⟨haddr, hpages, -⟩
    exact ⟨havailable, haddr, hpages⟩
  split at hb
  · rcases mem_add_physical_memory hb with hold | ⟨-, -, hunusable⟩
    · exact .inl hold
    · rw [hunusable] at htype
      cases htype
  · exact .inl hb

theorem reports_of_mem_pfns {entry : multiboot_mmap_entry} {b : PhysicalMemoryBlock} {x : ℕ}
    (havailable : entry.type = MULTIBOOT_MEMORY_AVAILABLE) (haddr : b.base_address = entry.addr)
    (hpages : b.nr_pages = (entry.len >>> 12).toUInt32) (hx : x ∈ b.pfns) : entry.Reports x := by
  obtain ⟨hlow, hhigh⟩ := List.mem_range'_1.mp hx
  have hcount : b.nr_pages.toNat = entry.len.toNat / 2 ^ 12 % 2 ^ 32 := by
    rw [hpages, UInt64.toNat_toUInt32, UInt64.toNat_shiftRight, Nat.shiftRight_eq_div_pow]
    rfl
  rw [b.base_pfn_toNat, haddr] at hlow hhigh
  exact ⟨havailable, by omega, by omega⟩

/-- Every page of the memory is in an entry that the loop has seen. -/
def Reported (mem : Memory) (info : multiboot_info) (n : ℕ) (mm : MemoryManager) : Prop :=
  ∀ x ∈ mm.normal_pfns, ∃ i < n, (info.entry mem i).Reports x

theorem Reported.add {n : ℕ} (h : Reported mem info n mm) :
    Reported mem info (n + 1) (add_entry (info.entry mem n) mm) := by
  intro x hx
  obtain ⟨b, hb, hin⟩ := List.mem_flatMap.mp hx
  obtain ⟨hb, htype⟩ := List.mem_filter.mp hb
  rcases mem_add_entry hb (of_decide_eq_true htype) with hold | ⟨havailable, haddr, hpages⟩
  · have hmem : x ∈ mm.normal_pfns := List.mem_flatMap.mpr ⟨b, List.mem_filter.mpr ⟨hold, htype⟩, hin⟩
    obtain ⟨i, hi, hreports⟩ := h x hmem
    exact ⟨i, by omega, hreports⟩
  · exact ⟨n, by omega, reports_of_mem_pfns havailable haddr hpages hin⟩

theorem Reported.add_entries {left i : ℕ} (h : Reported mem info i mm)
    (hr : add_entries mem info left i mm = .ok mm') : Reported mem info (i + left) mm' := by
  induction left generalizing i mm with
  | zero =>
    obtain rfl := Except.ok.inj hr
    exact h
  | succ left ih =>
    unfold MemoryMap.add_entries at hr
    split at hr
    · have hrest := ih h.add hr
      rwa [Nat.add_right_comm] at hrest
    · cases hr

/-- Nothing of the page is in the first seven pages, in the image, or in the descriptors of the
pages behind it. -/
def Clear (mm : MemoryManager) (img : KernelImage) (x : ℕ) : Prop :=
  7 ≤ x ∧ (4096 * x + 4096 ≤ KernelImage._IMAGE_START.toNat ∨
    img._IMAGE_END.toNat + 16 * mm.nr_pages.toNat ≤ 4096 * x)

end Infos.Arch.MemoryMap
