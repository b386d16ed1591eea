import Infos.Mm.PageAllocator
import Infos.Vma.Walk

/-!
# The kernel's windows, as the processor finds them

Behind the two entries that every address space takes from the template lie the first 4 GiB of
physical memory, from `PMEM_VA_START` on, and the first 2 GiB, from `KERNEL_VMEM_START` on.
-/

open Infos.Bytes

namespace Infos.Vma

/-! ## Entries of the kernel's tables -/

namespace MMUTableEntry

theorem flags_table_entry (pgd : ℕ) : (⟨table_entry pgd⟩ : MMUTableEntry).flags = 3 := by
  have hflags : (⟨table_entry pgd⟩ : MMUTableEntry) = (⟨pgd_to_pa pgd⟩ : MMUTableEntry).set_flags 3 :=
    rfl
  rw [hflags, flags_set_flags]
  rfl

theorem flags_block_entry (addr : UInt64) :
    (⟨block_entry addr⟩ : MMUTableEntry).flags = 0x83 := by
  have hflags : (⟨block_entry addr⟩ : MMUTableEntry) = (⟨addr⟩ : MMUTableEntry).set_flags 0x83 := rfl
  rw [hflags, flags_set_flags]
  rfl

theorem frame_table_entry {pgd : ℕ} (h : pgd < 2 ^ 40) :
    4096 * (⟨table_entry pgd⟩ : MMUTableEntry).frame = 4096 * pgd := by
  have hbase := base_table_entry (h.trans (by decide))
  rw [frame_eq] <;> rw [hbase]
  omega

theorem frame_block_entry {addr : UInt64} {n : ℕ} (haddr : addr.toNat = 2 ^ 21 * n)
    (hn : n < 2 ^ 31) : 4096 * (⟨block_entry addr⟩ : MMUTableEntry).frame = 2 ^ 21 * n := by
  have hflags : (⟨block_entry addr⟩ : MMUTableEntry) = (⟨addr⟩ : MMUTableEntry).set_flags 0x83 := rfl
  have hbase : (⟨block_entry addr⟩ : MMUTableEntry).base_address = addr := by
    rw [hflags, base_set_flags]
    exact high_of_aligned (by rw [haddr]; omega)
  rw [frame_eq] <;> rw [hbase, haddr]
  omega

/-- Of a table that only the kernel may use. -/
theorem of_flags_three {e : MMUTableEntry} (h : e.flags = 3) :
    e.present = true ∧ e.huge = false ∧ e.user = false ∧ e.writable = true := by
  unfold present huge user writable get_flag
  rw [h]
  exact ⟨rfl, rfl, rfl, rfl⟩

/-- Of 2 MiB that only the kernel may use. -/
theorem of_flags_block {e : MMUTableEntry} (h : e.flags = 0x83) :
    e.present = true ∧ e.huge = true ∧ e.user = false ∧ e.writable = true := by
  unfold present huge user writable get_flag
  rw [h]
  exact ⟨rfl, rfl, rfl, rfl⟩

end MMUTableEntry

/-! ## The walk through them -/

/-- The tables of `reinitialise_pgt` are in memory. -/
def KernelTables (pages : ℕ) (mem : Memory) : Prop :=
  ∀ k < 16, ∀ i < 512, entry mem (4096 * (pages + k)) i = ⟨pgt_entry pages k i⟩

/-- The top table at `root` has the template's entries. -/
def FromTemplate (pages : ℕ) (mem : Memory) (root : ℕ) : Prop :=
  ∀ i, KernelIndex i → entry mem root i = ⟨pgt_entry pages 0 i⟩

/-- What the kernel finds behind an address: nothing, or the memory that its two windows show. -/
def kernel_pa (va : UInt64) : Option ℕ :=
  if PMEM_VA_START.toNat ≤ va.toNat ∧ va.toNat < PMEM_VA_START.toNat + PMEM_VA_SIZE then
    some (va.toNat - PMEM_VA_START.toNat)
  else if Mm.KERNEL_VMEM_START.toNat ≤ va.toNat then
    some (va.toNat - Mm.KERNEL_VMEM_START.toNat)
  else none

variable {pages : ℕ} {mem : Memory} {va : UInt64}

/-- Where an entry leads to a table that only the kernel may use. -/
theorem walk_through {level table pgd : ℕ} (hpgd : pgd < 2 ^ 40)
    (h : entry mem table (va.toNat / reach (level + 1) % 512) = ⟨table_entry pgd⟩) :
    walk_from mem va (level + 1) table =
      (walk_from mem va level (4096 * pgd)).map fun p => { p with user := false } := by
  obtain ⟨hpresent, hhuge, huser, hwritable⟩ :=
    MMUTableEntry.of_flags_three (MMUTableEntry.flags_table_entry pgd)
  rw [walk_from, h, hpresent, hhuge, if_neg (by decide), if_neg (by decide),
    MMUTableEntry.frame_table_entry hpgd]
  refine congrFun (congrArg _ (funext fun p => ?_)) _
  unfold Page.behind
  rw [huser, hwritable, Bool.false_and, Bool.true_and]

/-- Where an entry maps 2 MiB. -/
theorem walk_block {table n : ℕ} {addr : UInt64} (haddr : addr.toNat = 2 ^ 21 * n) (hn : n < 2 ^ 31)
    (h : entry mem table (va.toNat / reach 1 % 512) = ⟨block_entry addr⟩) :
    walk_from mem va 1 table = some ⟨2 ^ 21 * n + va.toNat % 2 ^ 21, false, true⟩ := by
  obtain ⟨hpresent, hhuge, huser, hwritable⟩ :=
    MMUTableEntry.of_flags_block (MMUTableEntry.flags_block_entry addr)
  have hreach : reach 1 = 2 ^ 21 := rfl
  rw [walk_from, h, hpresent, hhuge, if_neg (by decide), if_pos rfl, if_pos (by decide)]
  unfold MMUTableEntry.page
  rw [MMUTableEntry.frame_block_entry haddr hn, huser, hwritable, hreach,
    Nat.mul_div_cancel_left _ (by decide), Nat.mul_comm]

/-- Where there is no entry. -/
theorem walk_absent {level table : ℕ}
    (h : entry mem table (va.toNat / reach (level + 1) % 512) = ⟨0⟩) :
    walk_from mem va (level + 1) table = none := by
  rw [walk_from, h]
  rfl

/-- The last two levels, in the `i`-th GiB of memory. -/
theorem walk_gib (va : UInt64) (k j : ℕ) {i : ℕ} (hpages : pages + 16 ≤ 2 ^ 20) (htables : KernelTables pages mem)
    (hk : k < 16) (hi : i < 4) (hgib : ∀ n < 512, ∃ addr : UInt64,
      pgt_entry pages j n = block_entry addr ∧ addr.toNat = 2 ^ 21 * (i * 512 + n)) (hj : j < 16)
    (hentry : pgt_entry pages k (va.toNat / reach 2 % 512) = table_entry (pages + j)) :
    walk_from mem va 2 (4096 * (pages + k)) = some ⟨2 ^ 30 * i + va.toNat % 2 ^ 30, false, true⟩ := by
  have hidx₂ : va.toNat / reach 2 % 512 < 512 := Nat.mod_lt _ (by decide)
  have hidx₁ : va.toNat / reach 1 % 512 < 512 := Nat.mod_lt _ (by decide)
  have hentry₂ := htables k hk _ hidx₂
  obtain ⟨addr, hblock, haddr⟩ := hgib _ hidx₁
  have hentry₁ := htables j hj _ hidx₁
  rw [hentry] at hentry₂
  rw [hblock] at hentry₁
  have hreach : reach 1 = 2 ^ 21 := rfl
  rw [walk_through (by omega) hentry₂, walk_block haddr (by omega) hentry₁, Option.map_some, hreach]
  refine congrArg some (Page.mk.injEq _ _ _ _ _ _ |>.mpr ⟨?_, rfl, rfl⟩)
  dsimp only
  omega

/-- Each of the tables behind the windows maps a GiB. -/
theorem pgt_entry_gib (pages : ℕ) {j n : ℕ} (hn : n < 512) (hj : 3 ≤ j ∧ j < 9) :
    ∃ addr : UInt64, pgt_entry pages j n = block_entry addr ∧
      addr.toNat = 2 ^ 21 * ((if j < 5 then j - 3 else j - 5) * 512 + n) := by
  obtain rfl | rfl | ⟨k, hk, rfl⟩ : j = 3 ∨ j = 4 ∨ ∃ k < 4, j = k + 5 := by
    by_cases h₃ : j = 3
    · exact .inl h₃
    by_cases h₄ : j = 4
    · exact .inr (.inl h₄)
    · exact .inr (.inr ⟨j - 5, by omega, by omega⟩)
  · refine ⟨_, rfl, ?_⟩
    show _ = 2 ^ 21 * (0 * 512 + n)
    rw [UInt64.toNat_ofNat']
    omega
  · refine ⟨_, rfl, ?_⟩
    have hgib : (0x40000000 : UInt64).toNat = 2 ^ 30 := rfl
    show _ = 2 ^ 21 * (1 * 512 + n)
    rw [UInt64.toNat_add, UInt64.toNat_ofNat', hgib]
    omega
  · refine ⟨_, if_pos hk, ?_⟩
    rw [UInt64.toNat_ofNat', if_neg (by omega)]
    omega

/-- In every address space that has the template's entries, the processor finds behind them what
the two windows show, and never lets a program use it. -/
theorem walk_kernel {cr3 : UInt64} {root : ℕ} (hpages : pages + 16 ≤ 2 ^ 20)
    (htables : KernelTables pages mem) (htop : 4096 * (MMUTableEntry.mk cr3).frame = root)
    (hroot : FromTemplate pages mem root) (hva : KernelIndex (pml4_idx va))
    (hcanonical : Canonical va) :
    walk_pages mem cr3 va = (kernel_pa va).map fun pa => ⟨pa, false, true⟩ := by
  have hentry := hroot _ hva
  have hlt := va.toNat_lt
  have hstart : PMEM_VA_START.toNat = 2 ^ 64 - 2 ^ 47 := rfl
  have hvmem : Mm.KERNEL_VMEM_START.toNat = 2 ^ 64 - 2 ^ 31 := rfl
  have hsize : PMEM_VA_SIZE = 2 ^ 32 := rfl
  have htop_idx : va.toNat / reach 3 % 512 = va.toNat / 2 ^ 39 % 512 := rfl
  have hidx : va.toNat / reach 2 % 512 = va.toNat / 2 ^ 30 % 512 := rfl
  rw [(idx_eq va).1] at hentry hva
  have hhalf : 2 ^ 64 - 2 ^ 47 ≤ va.toNat := by
    unfold KernelIndex at hva
    unfold Canonical at hcanonical
    omega
  unfold walk_pages kernel_pa
  rw [if_pos hcanonical, htop, hstart, hvmem, hsize]
  rcases hva with hva | hva
  · have htable : pgt_entry pages 0 (va.toNat / reach 3 % 512) = table_entry (pages + 2) := by
      rw [hva]
      rfl
    rw [htable] at hentry
    rw [walk_through (by omega) hentry]
    by_cases hwindow : va.toNat / reach 2 % 512 < 4
    · have hgib := walk_gib va 2 (va.toNat / reach 2 % 512 + 5) hpages htables
        (by decide) hwindow (fun n hn => ?_) (by omega) ?_
      · rw [hgib, if_pos (by omega)]
        refine congrArg some (Page.mk.injEq _ _ _ _ _ _ |>.mpr ⟨?_, rfl, rfl⟩)
        dsimp only
        omega
      · have hgib := pgt_entry_gib pages hn (j := va.toNat / reach 2 % 512 + 5) (by omega)
        rwa [if_neg (by omega), Nat.add_sub_cancel] at hgib
      · show (if _ then _ else _) = _
        rw [if_pos hwindow, Nat.add_assoc, Nat.add_comm 5]
    · have habsent := htables 2 (by decide) (va.toNat / reach 2 % 512) (Nat.mod_lt _ (by decide))
      have hzero : pgt_entry pages 2 (va.toNat / reach 2 % 512) = 0 := if_neg hwindow
      rw [hzero] at habsent
      rw [walk_absent habsent, if_neg (by omega), if_neg (by omega)]
      rfl
  · have htable : pgt_entry pages 0 (va.toNat / reach 3 % 512) = table_entry (pages + 1) := by
      rw [hva]
      rfl
    rw [htable] at hentry
    rw [walk_through (by omega) hentry]
    by_cases hwindow : va.toNat / reach 2 % 512 < 0x1fe
    · have habsent := htables 1 (by decide) (va.toNat / reach 2 % 512) (Nat.mod_lt _ (by decide))
      have hzero : pgt_entry pages 1 (va.toNat / reach 2 % 512) = 0 := by
        show (if _ then _ else if _ then _ else _) = _
        rw [if_neg (by omega), if_neg (by omega)]
      rw [hzero] at habsent
      rw [walk_absent habsent, if_neg (by omega), if_neg (by omega)]
      rfl
    · have hgib := walk_gib va 1 (va.toNat / reach 2 % 512 - 0x1fe + 3)
        (i := va.toNat / reach 2 % 512 - 0x1fe) hpages htables (by decide) (by omega)
        (fun n hn => ?_) (by omega) ?_
      · rw [hgib, if_neg (by omega), if_pos (by omega)]
        refine congrArg some (Page.mk.injEq _ _ _ _ _ _ |>.mpr ⟨?_, rfl, rfl⟩)
        dsimp only
        omega
      · have hgib := pgt_entry_gib pages hn (j := va.toNat / reach 2 % 512 - 0x1fe + 3) (by omega)
        rwa [if_pos (by omega), Nat.add_sub_cancel] at hgib
      · obtain hlow | hhigh : va.toNat / reach 2 % 512 = 0x1fe ∨ va.toNat / reach 2 % 512 = 0x1ff := by
          omega
        · rw [hlow]
          rfl
        · rw [hhigh]
          rfl

end Infos.Vma
