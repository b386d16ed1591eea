import Infos.Vma.Code

/-!
# Entries and addresses, field by field
-/

namespace Infos.Vma

/-! ## The two parts of an address -/

theorem low_bit {i : ℕ} (hi : i < 64) : (4095#64)[i] = decide (i < 12) := by
  revert i
  decide +kernel

theorem high_bit {i : ℕ} (hi : i < 64) : (18446744073709547520#64)[i] = decide (12 ≤ i) := by
  revert i
  decide +kernel

theorem low_bit16 {i : ℕ} (hi : i < 16) : (4095#16)[i] = decide (i < 12) := by
  revert i
  decide +kernel

theorem high_bit16 {i : ℕ} (hi : i < 16) : (61440#16)[i] = decide (12 ≤ i) := by
  revert i
  decide +kernel

theorem low_toNat (x : UInt64) : (x &&& 0xfff).toNat = x.toNat % 4096 := by
  rw [UInt64.toNat_and]
  exact Nat.and_two_pow_sub_one_eq_mod x.toNat 12

theorem high_toNat (x : UInt64) : (x &&& ~~~0xfff).toNat = x.toNat / 4096 * 4096 := by
  have hshift : (x &&& ~~~0xfff : UInt64) = (x >>> 12) <<< 12 := by
    rw [← UInt64.toBitVec_inj]
    ext i hi
    simp [high_bit]
    by_cases hlow : i < 12
    · simp [hlow]
    · have hle : 12 ≤ i := by omega
      simp [hlow, hle, BitVec.getLsbD_eq_getElem hi]
  have hlt := x.toNat_lt
  rw [hshift, UInt64.toNat_shiftLeft, UInt64.toNat_shiftRight, Nat.shiftRight_eq_div_pow,
    Nat.shiftLeft_eq]
  simp
  omega

theorem join_toNat {base : UInt64} (hbase : 4096 ∣ base.toNat) (va : UInt64) :
    (base ||| __page_offset va).toNat = base.toNat + va.toNat % 4096 := by
  obtain ⟨k, hk⟩ := hbase
  rw [__page_offset, UInt64.toNat_or, low_toNat, hk]
  exact (Nat.two_pow_add_eq_or_of_lt (i := 12) (Nat.mod_lt _ (by decide)) k).symm

theorem high_of_aligned {x : UInt64} (h : 4096 ∣ x.toNat) : x &&& ~~~0xfff = x := by
  apply UInt64.toNat_inj.mp
  rw [high_toNat]
  omega

/-! ## Pages -/

theorem pgd_to_pa_toNat {pgd : ℕ} (h : pgd < 2 ^ 52) : (pgd_to_pa pgd).toNat = 4096 * pgd := by
  unfold pgd_to_pa
  rw [UInt64.toNat_shiftLeft, UInt64.toNat_ofNat', Nat.shiftLeft_eq]
  simp
  omega

/-- The number of a virtual page, of which the tables use 36 bits. -/
def page_number (va : UInt64) : ℕ := va.toNat / 4096 % 2 ^ 36

theorem BITS_eq (va : UInt64) {n : ℕ} (hn : n < 64) :
    BITS va (UInt64.ofNat n) = va.toNat / 2 ^ n % 512 := by
  unfold BITS
  rw [UInt64.toNat_and, UInt64.toNat_shiftRight, UInt64.toNat_ofNat', Nat.shiftRight_eq_div_pow,
    show n % 2 ^ 64 % 64 = n by omega]
  exact Nat.and_two_pow_sub_one_eq_mod _ 9

theorem pml4_idx_eq (va : UInt64) : pml4_idx va = page_number va / 2 ^ 27 := by
  unfold pml4_idx page_number
  rw [show (39 : UInt64) = UInt64.ofNat 39 from rfl, BITS_eq va (by decide)]
  omega

theorem pdp_idx_eq (va : UInt64) : pdp_idx va = page_number va / 2 ^ 18 % 512 := by
  unfold pdp_idx page_number
  rw [show (30 : UInt64) = UInt64.ofNat 30 from rfl, BITS_eq va (by decide)]
  omega

theorem pd_idx_eq (va : UInt64) : pd_idx va = page_number va / 2 ^ 9 % 512 := by
  unfold pd_idx page_number
  rw [show (21 : UInt64) = UInt64.ofNat 21 from rfl, BITS_eq va (by decide)]
  omega

theorem pt_idx_eq (va : UInt64) : pt_idx va = page_number va % 512 := by
  unfold pt_idx page_number
  rw [show (12 : UInt64) = UInt64.ofNat 12 from rfl, BITS_eq va (by decide)]
  omega

/-! ## Entries -/

namespace MMUTableEntry

variable (e : MMUTableEntry)

theorem base_aligned : 4096 ∣ e.base_address.toNat := by
  unfold base_address
  rw [high_toNat]
  exact Nat.dvd_mul_left _ _

theorem flags_set_flags (f : UInt16) : (e.set_flags f).flags = f &&& 0xfff := by
  unfold flags set_flags
  rw [← UInt16.toBitVec_inj]
  ext i hi
  simp [high_bit16, low_bit16]
  grind

@[simp]
theorem base_set_base (addr : UInt64) :
    (e.set_base_address addr).base_address = addr &&& ~~~0xfff := by
  unfold base_address set_base_address
  rw [← UInt64.toBitVec_inj]
  ext i hi
  simp [low_bit, high_bit]
  grind

theorem flags_set_base (addr : UInt64) : (e.set_base_address addr).flags = e.flags := by
  unfold flags set_base_address
  rw [← UInt16.toBitVec_inj]
  ext i hi
  simp [high_bit16, low_bit16]
  grind

@[simp]
theorem present_set_base (addr : UInt64) : (e.set_base_address addr).present = e.present := by
  unfold present get_flag
  rw [flags_set_base]

theorem base_set_flags (f : UInt16) : (e.set_flags f).base_address = e.base_address := by
  unfold base_address set_flags
  rw [← UInt64.toBitVec_inj]
  ext i hi
  simp [low_bit, high_bit]
  grind

@[simp]
theorem base_set_flag (idx : MMUTableEntryFlags) (v : Bool) :
    (e.set_flag idx v).base_address = e.base_address := by
  unfold set_flag
  split <;> exact base_set_flags _ _

theorem get_set_flag (f g : MMUTableEntryFlags) :
    (e.set_flag f true).get_flag g = (f == g || e.get_flag g) := by
  have hlow : 0xfff &&& g.mask = g.mask := by cases g <;> rfl
  have hpair : f.mask &&& g.mask = if f = g then g.mask else 0 := by cases f <;> cases g <;> rfl
  have hset : g.mask ≠ 0 := by cases g <;> decide
  have hdist : (e.flags ||| f.mask) &&& g.mask = e.flags &&& g.mask ||| f.mask &&& g.mask := by
    rw [← UInt16.toBitVec_inj]
    ext i hi
    simp [Bool.and_or_distrib_right]
  have habs : e.flags &&& g.mask ||| g.mask = g.mask := by
    rw [← UInt16.toBitVec_inj]
    ext i hi
    simp
  unfold get_flag set_flag
  rw [if_pos rfl, flags_set_flags, UInt16.and_assoc, hlow, hdist, hpair]
  split
  · subst_vars
    rw [habs]
    simp [hset]
  · simp [*]

@[simp]
theorem present_set_present : (e.set_present true).present = true := by
  unfold present set_present
  simp [get_set_flag]

@[simp]
theorem present_set_writable : (e.set_writable true).present = e.present := by
  unfold present set_writable
  simp [get_set_flag]

@[simp]
theorem present_set_user : (e.set_user true).present = e.present := by
  unfold present set_user
  simp [get_set_flag]

@[simp]
theorem base_set_present : (e.set_present true).base_address = e.base_address := base_set_flag _ _ _

@[simp]
theorem base_set_writable : (e.set_writable true).base_address = e.base_address :=
  base_set_flag _ _ _

@[simp]
theorem base_set_user : (e.set_user true).base_address = e.base_address := base_set_flag _ _ _

theorem base_set_table (pa : UInt64) : (e.set_table pa).base_address = pa &&& ~~~0xfff := by
  unfold set_table
  simp

theorem present_set_table (pa : UInt64) : (e.set_table pa).present = true := by
  unfold set_table
  simp

theorem base_set_mapping (pa : UInt64) (flags : MappingFlags) :
    (e.set_mapping pa flags).base_address = pa &&& ~~~0xfff := by
  unfold set_mapping
  cases flags.Present <;> cases flags.Writable <;> cases flags.User <;> simp

theorem present_set_mapping (pa : UInt64) {flags : MappingFlags} (h : flags.Present = true) :
    (e.set_mapping pa flags).present = true := by
  unfold set_mapping
  rw [h]
  cases flags.Writable <;> cases flags.User <;> simp

end MMUTableEntry

end Infos.Vma
