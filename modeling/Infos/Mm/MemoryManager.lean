import Mathlib.Algebra.Order.Ring.Nat
import Mathlib.Data.List.Basic
import Mathlib.Tactic.Common

/-!
# Physical memory, as `infos/mm/mm.cpp` records it

The first `_nr_phys_mem_blocks` entries of `_phys_mem_blocks` are a list. A recorded block has at
least one page, and `_last_pfn` starts as 0.
-/

namespace Infos.Mm

inductive MemoryType where
  | NORMAL
  | UNUSABLE
  deriving DecidableEq, Repr

structure PhysicalMemoryBlock where
  base_address : UInt64
  base_pfn : UInt64
  nr_pages : UInt32
  type : MemoryType
  base_pfn_eq : base_pfn = base_address >>> 12
  nr_pages_ne : nr_pages ≠ 0

def _page_size : UInt32 := 0x1000

/-- `ARRAY_SIZE(_phys_mem_blocks)` -/
def nr_phys_mem_blocks_max : ℕ := 16

structure MemoryManager where
  _last_pfn : UInt64
  _phys_mem_blocks : List PhysicalMemoryBlock
  room : _phys_mem_blocks.length ≤ nr_phys_mem_blocks_max

def MemoryManager.new : MemoryManager := ⟨0, [], Nat.zero_le _⟩

/-- The last page of a block as `add_physical_memory` works it out: the product is of two
`unsigned int`, the sum is of 64 bits. -/
def last_pfn (addr : UInt64) (nr_pages : UInt32) : UInt64 :=
  ((addr + (nr_pages * _page_size).toUInt64) >>> 12) - 1

def add_physical_memory (mm : MemoryManager) (addr : UInt64) (nr_pages : UInt32)
    (type : MemoryType) : MemoryManager :=
  if h : nr_pages = 0 then mm
  else if hroom : mm._phys_mem_blocks.length ≥ nr_phys_mem_blocks_max then mm
  else
    { _phys_mem_blocks := mm._phys_mem_blocks ++ [⟨addr, addr >>> 12, nr_pages, type, rfl, h⟩]
      _last_pfn :=
        if type = .NORMAL then
          if last_pfn addr nr_pages > mm._last_pfn then last_pfn addr nr_pages else mm._last_pfn
        else mm._last_pfn
      room := by
        rw [List.length_append, List.length_singleton]
        omega }

/-- The recorded block that holds the address. The product is again one of 32 bits. -/
def lookup_phys_block (mm : MemoryManager) (addr : UInt64) : Option PhysicalMemoryBlock :=
  mm._phys_mem_blocks.find? fun block =>
    decide (addr ≥ block.base_address) &&
      decide (addr < block.base_address + (block.nr_pages * _page_size).toUInt64)

/-- One call after another, from the start. -/
def add_all (calls : List (UInt64 × UInt32 × MemoryType)) : MemoryManager :=
  calls.foldl (fun mm c => add_physical_memory mm c.1 c.2.1 c.2.2) .new

def MemoryManager.normal (mm : MemoryManager) : List PhysicalMemoryBlock :=
  mm._phys_mem_blocks.filter fun b => decide (b.type = .NORMAL)

/-- `_nr_pages` of the page allocator -/
def MemoryManager.nr_pages (mm : MemoryManager) : UInt64 := mm._last_pfn + 1

/-- `for (pfn = pmb.base_pfn; pfn < pmb.base_pfn + pmb.nr_pages; pfn++)` -/
def PhysicalMemoryBlock.pfns (b : PhysicalMemoryBlock) : List ℕ :=
  List.range' b.base_pfn.toNat b.nr_pages.toNat

/-- The indexes that the marking loop of `PageAllocator::init` writes. -/
def MemoryManager.normal_pfns (mm : MemoryManager) : List ℕ :=
  mm.normal.flatMap PhysicalMemoryBlock.pfns

/-! ## The end of one block -/

namespace PhysicalMemoryBlock

variable (b : PhysicalMemoryBlock)

/-- The last page, counted exactly. -/
def last : ℕ := b.base_pfn.toNat + b.nr_pages.toNat - 1

/-- Less than 4 GiB, and it ends below the end of the address space. -/
def WellSized : Prop :=
  b.nr_pages.toNat < 2 ^ 20 ∧ b.base_pfn.toNat + b.nr_pages.toNat < 2 ^ 52

/-- The end that is worked out is in page zero, and the page before it is the last of all. -/
def Wraps : Prop := 2 ^ 52 ∣ b.base_pfn.toNat + b.nr_pages.toNat % 2 ^ 20

theorem base_pfn_toNat : b.base_pfn.toNat = b.base_address.toNat / 2 ^ 12 := by
  rw [b.base_pfn_eq, UInt64.toNat_shiftRight, Nat.shiftRight_eq_div_pow]
  rfl

theorem nr_pages_pos : 0 < b.nr_pages.toNat :=
  Nat.pos_of_ne_zero fun h => b.nr_pages_ne (UInt32.toNat_inj.mp h)

theorem last_lt : b.last < 2 ^ 53 := by
  have := b.base_pfn_toNat
  have := b.base_address.toNat_lt
  have := b.nr_pages.toNat_lt
  unfold last
  omega

theorem last_pfn_toNat : (last_pfn b.base_address b.nr_pages).toNat =
    ((b.base_pfn.toNat + b.nr_pages.toNat % 2 ^ 20) % 2 ^ 52 + (2 ^ 64 - 1)) % 2 ^ 64 := by
  have hsize : (b.nr_pages * _page_size).toNat = 2 ^ 12 * (b.nr_pages.toNat % 2 ^ 20) := by
    rw [UInt32.toNat_mul, _page_size]
    show b.nr_pages.toNat * 4096 % 2 ^ 32 = _
    omega
  have hlt := b.base_address.toNat_lt
  have hpages := Nat.mod_lt b.nr_pages.toNat (show 2 ^ 20 > 0 by omega)
  rw [b.base_pfn_toNat, last_pfn, UInt64.toNat_sub, UInt64.toNat_shiftRight, UInt64.toNat_add,
    UInt32.toNat_toUInt64, hsize, Nat.shiftRight_eq_div_pow]
  show (2 ^ 64 - 1 + _ % 2 ^ 64 / 2 ^ 12) % 2 ^ 64 = _
  omega

theorem last_pfn_of_wraps (h : b.Wraps) :
    (last_pfn b.base_address b.nr_pages).toNat = 2 ^ 64 - 1 := by
  rw [last_pfn_toNat, Nat.mod_eq_zero_of_dvd h]
  omega

theorem last_pfn_le (h : ¬ b.Wraps) : (last_pfn b.base_address b.nr_pages).toNat ≤ b.last := by
  have hne : (b.base_pfn.toNat + b.nr_pages.toNat % 2 ^ 20) % 2 ^ 52 ≠ 0 :=
    fun h0 => h (Nat.dvd_of_mod_eq_zero h0)
  rw [last_pfn_toNat]
  unfold last
  omega

theorem last_pfn_eq_iff :
    (last_pfn b.base_address b.nr_pages).toNat = b.last ↔ b.WellSized := by
  have hpos := b.nr_pages_pos
  have hlast := b.last_lt
  rw [last_pfn_toNat]
  unfold last WellSized at *
  omega

end PhysicalMemoryBlock

/-! ## What `_last_pfn` is -/

/-- `_last_pfn` is the highest of the ends worked out so far. -/
structure Tracks (mm : MemoryManager) : Prop where
  le : ∀ b ∈ mm.normal, (last_pfn b.base_address b.nr_pages).toNat ≤ mm._last_pfn.toNat
  attained : mm.normal = [] ∧ mm._last_pfn = 0 ∨
    ∃ b ∈ mm.normal, last_pfn b.base_address b.nr_pages = mm._last_pfn

theorem tracks_new : Tracks .new := ⟨by simp [MemoryManager.normal, MemoryManager.new],
  Or.inl ⟨rfl, rfl⟩⟩

/-- The call is ignored, or one block is recorded. -/
theorem add_physical_memory_cases (mm : MemoryManager) (addr : UInt64) (nr_pages : UInt32)
    (type : MemoryType) :
    add_physical_memory mm addr nr_pages type = mm ∨ ∃ (b : PhysicalMemoryBlock),
      (add_physical_memory mm addr nr_pages type)._phys_mem_blocks = mm._phys_mem_blocks ++ [b] ∧
      (add_physical_memory mm addr nr_pages type)._last_pfn.toNat =
        if b.type = .NORMAL then
          max mm._last_pfn.toNat (last_pfn b.base_address b.nr_pages).toNat
        else mm._last_pfn.toNat := by
  unfold add_physical_memory
  split
  · exact Or.inl rfl
  split
  · exact Or.inl rfl
  · refine Or.inr ⟨_, rfl, ?_⟩
    simp only [gt_iff_lt, UInt64.lt_iff_toNat_lt]
    split_ifs with htype hlt
    · omega
    · omega
    · rfl

theorem Tracks.add {mm : MemoryManager} (h : Tracks mm) (addr : UInt64) (nr_pages : UInt32)
    (type : MemoryType) : Tracks (add_physical_memory mm addr nr_pages type) := by
  rcases add_physical_memory_cases mm addr nr_pages type with he | ⟨b, hblocks, hlast⟩
  · rwa [he]
  generalize add_physical_memory mm addr nr_pages type = mm' at hblocks hlast
  by_cases htype : b.type = .NORMAL
  · have hn : mm'.normal = mm.normal ++ [b] := by
      simp [MemoryManager.normal, hblocks, List.filter_append, htype]
    rw [if_pos htype] at hlast
    have hle : ∀ c ∈ mm.normal, (last_pfn c.base_address c.nr_pages).toNat ≤ mm'._last_pfn.toNat :=
      fun c hc => by
        have := h.le c hc
        omega
    refine ⟨fun c hc => ?_, Or.inr ?_⟩
    · rcases List.mem_append.mp (hn ▸ hc) with hc | hc
      · exact hle c hc
      · rw [List.mem_singleton.mp hc]
        omega
    · by_cases hgt : mm._last_pfn.toNat ≤ (last_pfn b.base_address b.nr_pages).toNat
      · exact ⟨b, hn ▸ List.mem_concat_self, UInt64.toNat_inj.mp (by omega)⟩
      · rcases h.attained with ⟨-, h0⟩ | ⟨c, hc, he⟩
        · rw [h0] at hgt
          exact absurd (Nat.zero_le _) hgt
        · refine ⟨c, hn ▸ List.mem_append_left _ hc, UInt64.toNat_inj.mp ?_⟩
          rw [he]
          omega
  · have hn : mm'.normal = mm.normal := by
      simp [MemoryManager.normal, hblocks, List.filter_append, htype]
    rw [if_neg htype] at hlast
    have hl : mm'._last_pfn = mm._last_pfn := UInt64.toNat_inj.mp hlast
    refine ⟨?_, ?_⟩
    · rw [hn, hl]
      exact h.le
    · rw [hn, hl]
      exact h.attained

theorem tracks_add_all (calls : List (UInt64 × UInt32 × MemoryType)) : Tracks (add_all calls) := by
  suffices h : ∀ mm, Tracks mm →
      Tracks (calls.foldl (fun mm c => add_physical_memory mm c.1 c.2.1 c.2.2) mm) from
    h .new tracks_new
  induction calls with
  | nil => exact fun mm hmm => hmm
  | cons c calls ih => exact fun mm hmm => ih _ (hmm.add c.1 c.2.1 c.2.2)

/-! ## When the descriptors cover the memory -/

/-- The highest page of the recorded memory, 0 if there is none. -/
def MemoryManager.highest (mm : MemoryManager) : ℕ :=
  (mm.normal.map PhysicalMemoryBlock.last).max?.getD 0

theorem le_highest {mm : MemoryManager} {b : PhysicalMemoryBlock} (hb : b ∈ mm.normal) :
    b.last ≤ mm.highest := by
  have hmem : b.last ∈ mm.normal.map PhysicalMemoryBlock.last := List.mem_map_of_mem hb
  obtain ⟨m, hm⟩ := Option.isSome_iff_exists.mp (List.isSome_max?_of_mem hmem)
  rw [MemoryManager.highest, hm]
  exact (List.max?_eq_some_iff.mp hm).2 _ hmem

theorem highest_eq {mm : MemoryManager} {b : PhysicalMemoryBlock} (hb : b ∈ mm.normal)
    (hmax : ∀ c ∈ mm.normal, c.last ≤ b.last) : mm.highest = b.last := by
  have hmem : b.last ∈ mm.normal.map PhysicalMemoryBlock.last := List.mem_map_of_mem hb
  rw [MemoryManager.highest, List.max?_eq_some_iff.mpr ⟨hmem, by simpa using hmax⟩]
  rfl

theorem exists_highest {mm : MemoryManager} (hne : mm.normal ≠ []) :
    ∃ b ∈ mm.normal, mm.highest = b.last := by
  obtain ⟨m, hm⟩ := Option.isSome_iff_exists.mp
    (List.isSome_max?_iff.mpr (mt List.map_eq_nil_iff.mp hne) :
      (mm.normal.map PhysicalMemoryBlock.last).max?.isSome = true)
  obtain ⟨b, hb, rfl⟩ := List.mem_map.mp (List.max?_eq_some_iff.mp hm).1
  exact ⟨b, hb, by rw [MemoryManager.highest, hm]; rfl⟩

theorem mem_pfns {b : PhysicalMemoryBlock} {i : ℕ} (h : i ∈ b.pfns) : i ≤ b.last := by
  have := List.mem_range'_1.mp h
  unfold PhysicalMemoryBlock.last
  omega

/-- The array has a descriptor for every page of the recorded memory, and not more. -/
def Covers (mm : MemoryManager) : Prop :=
  mm._last_pfn.toNat = mm.highest ∧ ∀ i ∈ mm.normal_pfns, i < mm.nr_pages.toNat

theorem covers_of_highest {mm : MemoryManager} (h : mm._last_pfn.toNat = mm.highest) :
    Covers mm := by
  refine ⟨h, fun i hi => ?_⟩
  obtain ⟨b, hb, hib⟩ := List.mem_flatMap.mp hi
  obtain ⟨c, hc, hhigh⟩ := exists_highest (List.ne_nil_of_mem hb)
  have hle := le_highest hb
  have hi := mem_pfns hib
  have hlt := c.last_lt
  rw [MemoryManager.nr_pages, UInt64.toNat_add]
  show i < (mm._last_pfn.toNat + 1) % 2 ^ 64
  omega

/-- The array covers the memory exactly when no recorded block wraps, and one of those that end
highest is well sized. -/
theorem covers_iff (calls : List (UInt64 × UInt32 × MemoryType)) :
    Covers (add_all calls) ↔
      (∀ b ∈ (add_all calls).normal, ¬ b.Wraps) ∧
        ((add_all calls).normal = [] ∨ ∃ b ∈ (add_all calls).normal,
          (∀ c ∈ (add_all calls).normal, c.last ≤ b.last) ∧ b.WellSized) := by
  have ht := tracks_add_all calls
  generalize add_all calls = mm at ht
  constructor
  · rintro ⟨hlast, -⟩
    have hno : ∀ b ∈ mm.normal, ¬ b.Wraps := by
      intro b hb hw
      obtain ⟨c, -, hhigh⟩ := exists_highest (List.ne_nil_of_mem hb)
      have hle := ht.le b hb
      rw [b.last_pfn_of_wraps hw] at hle
      have := c.last_lt
      omega
    refine ⟨hno, ?_⟩
    rcases ht.attained with ⟨hnil, -⟩ | ⟨b, hb, he⟩
    · exact Or.inl hnil
    · have hle := b.last_pfn_le (hno b hb)
      have hhigh := le_highest hb
      rw [he] at hle
      refine Or.inr ⟨b, hb, fun c hc => ?_, b.last_pfn_eq_iff.mp ?_⟩
      · have := le_highest hc
        omega
      · rw [he]
        omega
  · rintro ⟨hno, hnil | ⟨b, hb, hmax, hw⟩⟩
    · refine covers_of_highest ?_
      rcases ht.attained with ⟨-, h0⟩ | ⟨b, hb, -⟩
      · rw [MemoryManager.highest, hnil, h0]
        rfl
      · rw [hnil] at hb
        cases hb
    · refine covers_of_highest ?_
      have he := b.last_pfn_eq_iff.mpr hw
      have hle := ht.le b hb
      rw [highest_eq hb hmax]
      refine le_antisymm ?_ (he ▸ hle)
      rcases ht.attained with ⟨hnil, -⟩ | ⟨c, hc, hce⟩
      · rw [hnil] at hb
        cases hb
      · rw [← hce]
        exact (c.last_pfn_le (hno c hc)).trans (hmax c hc)

def five_gib : MemoryManager := add_all [(0x100000000, 0x140000, .NORMAL)]

/-- Five GiB from the address 4 GiB on: the size wraps to one GiB. -/
theorem five_gib_not_covered : five_gib._last_pfn = 0x13ffff ∧ five_gib.nr_pages = 0x140000 ∧
    0x23ffff ∈ five_gib.normal_pfns ∧ ¬ Covers five_gib := by
  have hlast : five_gib._last_pfn = 0x13ffff := by decide +kernel
  have hnormal : ∃ b ∈ five_gib.normal, b.base_pfn = 0x100000 ∧ b.nr_pages = 0x140000 :=
    ⟨_, List.mem_singleton_self _, rfl, rfl⟩
  have hmarked : 0x23ffff ∈ five_gib.normal_pfns := by
    obtain ⟨b, hb, hbase, hpages⟩ := hnormal
    refine List.mem_flatMap.mpr ⟨b, hb, List.mem_range'_1.mpr ?_⟩
    rw [hbase, hpages]
    decide
  refine ⟨hlast, by decide +kernel, hmarked, fun hcov => ?_⟩
  have := hcov.2 _ hmarked
  rw [MemoryManager.nr_pages, hlast] at this
  exact absurd this (by decide)

end Infos.Mm
