import Infos.Vma.Tables

/-!
# The kernel's tables, as `infos/arch/x86/mm.cpp` makes them

Two entries of the template lead to tables that every address space shares. Their last entries
each map 2 MiB, and lead to no table.
-/

open Infos.Bytes

namespace Infos.Vma

/-! ## What the template leads to -/

/-- The tables behind the kernel's entries of the template: at level 3 the two that these entries
point to, and below each table the ones that its entries point to. -/
inductive KernelTable (mem : Memory) (template_pml4 : Template) : (level t : ℕ) → Prop where
  | top {i : ℕ} (hi : KernelIndex i) (hpresent : (entry mem template_pml4.base i).present = true) :
      KernelTable mem template_pml4 3 (entry mem template_pml4.base i).base_address.toNat
  | down {level t i : ℕ} (ht : KernelTable mem template_pml4 (level + 1) t) (hlevel : 0 < level)
      (hi : i < 512) (hpresent : (entry mem t i).present = true)
      (hhuge : (entry mem t i).huge = false) :
      KernelTable mem template_pml4 level (entry mem t i).base_address.toNat

theorem KernelTable.aligned {mem : Memory} {template_pml4 : Template} {level t : ℕ}
    (h : KernelTable mem template_pml4 level t) : 4096 ∣ t := by
  cases h <;> exact MMUTableEntry.base_aligned _

/-! ## The tables of `reinitialise_pgt` -/

def table_entry (pgd : ℕ) : UInt64 := (pgd_to_pa pgd &&& ~~~0xfff) ||| 0x003

def block_entry (addr : UInt64) : UInt64 := (addr &&& ~~~0xfff) ||| 0x083

/-- The entry `i` of the `k`-th of the sixteen pages, once all loops are done. -/
def pgt_entry (pages k i : ℕ) : UInt64 :=
  match k with
  | 0 => if i = 0x1ff then table_entry (pages + 1) else
      if i = 0x100 then table_entry (pages + 2) else 0
  | 1 => if i = 0x1fe then table_entry (pages + 3) else
      if i = 0x1ff then table_entry (pages + 4) else 0
  | 2 => if i < 4 then table_entry (pages + 5 + i) else 0
  | 3 => block_entry (UInt64.ofNat (i * 0x200000))
  | 4 => block_entry (UInt64.ofNat (i * 0x200000) + 0x40000000)
  | k + 5 => if k < 4 then block_entry (UInt64.ofNat ((k * 512 + i) * 0x200000)) else 0

/-- The memory that `reinitialise_pgt` leaves, with the tables in the pages from `pages` on. -/
def reinitialise_pgt (pages : ℕ) (m : Memory) : Memory := fun y =>
  if pages ≤ y / 4096 ∧ y / 4096 < pages + 16 then
    UInt8.ofNat ((pgt_entry pages (y / 4096 - pages) (y % 4096 / 8)).toNat / 256 ^ (y % 8))
  else m y

theorem entry_reinitialise {pages k i : ℕ} (m : Memory) (hk : k < 16) (hi : i < 512) :
    entry (reinitialise_pgt pages m) (4096 * (pages + k)) i = ⟨pgt_entry pages k i⟩ := by
  have hbytes : ∀ y, 4096 * (pages + k) + 8 * i ≤ y → y < 4096 * (pages + k) + 8 * i + 8 →
      reinitialise_pgt pages m y =
        store64 m (4096 * (pages + k) + 8 * i) (pgt_entry pages k i) y := by
    intro y hle hlt
    unfold reinitialise_pgt store64 store
    rw [if_pos (by omega), write_inside _ hle hlt, show y / 4096 - pages = k by omega,
      show y % 4096 / 8 = i by omega, show y - (4096 * (pages + k) + 8 * i) = y % 8 by omega]
  unfold entry load64
  rw [load_congr hbytes]
  exact congrArg _ (load64_store64 _ _ _)

theorem base_table_entry {pgd : ℕ} (h : pgd < 2 ^ 52) :
    (⟨table_entry pgd⟩ : MMUTableEntry).base_address.toNat = 4096 * pgd := by
  have hflags : (⟨table_entry pgd⟩ : MMUTableEntry) = (⟨pgd_to_pa pgd⟩ : MMUTableEntry).set_flags 3 :=
    rfl
  rw [hflags, MMUTableEntry.base_set_flags]
  unfold MMUTableEntry.base_address
  rw [high_of_aligned] <;> rw [pgd_to_pa_toNat h]
  exact Nat.dvd_mul_right _ _

theorem huge_block_entry (addr : UInt64) : (⟨block_entry addr⟩ : MMUTableEntry).huge = true := by
  have hflags : (⟨block_entry addr⟩ : MMUTableEntry) = (⟨addr⟩ : MMUTableEntry).set_flags 0x83 := rfl
  unfold MMUTableEntry.huge MMUTableEntry.get_flag
  rw [hflags, MMUTableEntry.flags_set_flags]
  rfl

/-- The tables are in the second to the ninth of the pages. -/
theorem kernelTable_pages {pages : ℕ} {m : Memory} {template_pml4 : Template} {level t : ℕ}
    (hpages : pages + 16 ≤ 2 ^ 20) (hbase : template_pml4.base = 4096 * pages)
    (h : KernelTable (reinitialise_pgt pages m) template_pml4 level t) :
    ∃ k, t = 4096 * (pages + k) ∧ (level = 3 ∧ 1 ≤ k ∧ k ≤ 2 ∨ level = 2 ∧ 3 ≤ k ∧ k ≤ 8) := by
  induction h with
  | @top i hi _ =>
    have hlt : i < 512 := by
      rcases hi with rfl | rfl <;> decide
    have hentry : entry (reinitialise_pgt pages m) (4096 * (pages + 0)) i =
        ⟨pgt_entry pages 0 i⟩ := entry_reinitialise m (by decide) hlt
    rw [Nat.add_zero] at hentry
    rw [hbase, hentry]
    rcases hi with rfl | rfl
    · exact ⟨2, base_table_entry (by omega), .inl ⟨rfl, by decide, by decide⟩⟩
    · exact ⟨1, base_table_entry (by omega), .inl ⟨rfl, by decide, by decide⟩⟩
  | @down level t i _ hlevel hi hpresent hhuge ih =>
    obtain ⟨k, rfl, hk⟩ := ih
    rw [entry_reinitialise m (by omega) hi] at hpresent hhuge ⊢
    rcases hk with ⟨hthree, hle, hle'⟩ | ⟨htwo, hle, hle'⟩
    · obtain rfl : level = 2 := by omega
      obtain rfl | rfl : k = 1 ∨ k = 2 := by omega
      · have hpgt : pgt_entry pages 1 i = if i = 0x1fe then table_entry (pages + 3) else
            if i = 0x1ff then table_entry (pages + 4) else 0 := rfl
        rw [hpgt] at hpresent ⊢
        split_ifs at hpresent ⊢
        · exact ⟨3, base_table_entry (by omega), .inr ⟨rfl, by decide, by decide⟩⟩
        · exact ⟨4, base_table_entry (by omega), .inr ⟨rfl, by decide, by decide⟩⟩
        · cases hpresent
      · have hpgt : pgt_entry pages 2 i = if i < 4 then table_entry (pages + 5 + i) else 0 := rfl
        rw [hpgt] at hpresent ⊢
        split_ifs at hpresent ⊢
        · exact ⟨5 + i, (base_table_entry (by omega)).trans (by omega), .inr ⟨rfl, by omega, by omega⟩⟩
        · cases hpresent
    · -- The entries of these tables map memory.
      obtain ⟨j, rfl⟩ : ∃ j, k = j + 3 := ⟨k - 3, by omega⟩
      have hblock : ∃ addr, pgt_entry pages (j + 3) i = block_entry addr := by
        match j with
        | 0 => exact ⟨_, rfl⟩
        | 1 => exact ⟨_, rfl⟩
        | j + 2 => exact ⟨_, if_pos (by omega)⟩
      obtain ⟨addr, haddr⟩ := hblock
      rw [haddr, huge_block_entry] at hhuge
      cases hhuge

end Infos.Vma
