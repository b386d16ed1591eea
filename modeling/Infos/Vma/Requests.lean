import Infos.Lib.System
import Infos.Vma.Copies
import Infos.Vma.Virt

/-!
# Requests for virtual memory

A request is rounded up to a power of two, and the whole block is mapped.
-/

open Infos.Bytes Infos.Prog

namespace Infos.Vma

variable {α : Type} {P : PageSource α} {s s' : State α} {va : UInt64} {nr_pages : Int32}

/-! ## The address space over time -/

inductive Call
  | allocate_phys (order : Int)
  | allocate_virt (va : UInt64) (nr_pages : Int32)
  | copy_to (dest_va : UInt64) (src : ℕ → UInt8) (size : UInt64)

def Call.run (P : PageSource α) : Call → Op α Unit
  | .allocate_phys order => discard (Vma.allocate_phys P order)
  | .allocate_virt va nr_pages => discard (Vma.allocate_virt P va nr_pages)
  | .copy_to dest_va src size => discard (Vma.copy_to dest_va src size)

/-- A block keeps off the kernel's entries, and a copy goes where its range is mapped. -/
def Call.Allowed (s : State α) : Call → Prop
  | .allocate_phys _ => True
  | .allocate_virt va nr_pages => OwnPages (page_number va) (virt_pages nr_pages)
  | .copy_to dest_va _ size =>
    get_mapping dest_va s = .ok (none, s) ∨
      (∃ pa, InARow s dest_va size pa) ∧
        ∀ i < size.toNat, ¬ KernelIndex (pml4_idx (dest_va + UInt64.ofNat i))

/-- From a new address space on, with the kernel's entries or without. -/
def system (P : PageSource α) : System (State α) Call (Halt α) where
  start s := ∃ mem a kernel, build P kernel [] (start mem a) = .ok ((), s)
  allowed s c := c.Allowed s
  step s c := (c.run P s).map Prod.snd

/-- What holds of an address space at any time: besides the tables, that every page is mapped to
a frame of its own that holds no table. -/
structure Sound (P : PageSource α) (s : State α) : Prop where
  inv : Inv P s
  lands : ∀ v pa, s.translate v = some pa → pa.toNat / 4096 ∈ s.dataPages

theorem get_mapping_eq (hI : Inv P s) {v : UInt64} (hv : ¬ KernelIndex (pml4_idx v)) :
    get_mapping v s = .ok (s.translate v, s) := by
  obtain ⟨r, _, he, rfl, rfl⟩ := returns_of_ends (get_mapping_spec hI hv)
  exact he

theorem Sound.of_start (h : (system P).start s) : Sound P s := by
  obtain ⟨mem, a, kernel, he⟩ := h
  have hshows := (ends_ok (build_spec mem a kernel (List.forall_mem_nil _)) he).shows
  refine ⟨hshows.inv, fun v pa hpa => ?_⟩
  rw [hshows.translate, lookup_nil] at hpa
  cases hpa

theorem Sound.granted {order : Int} {pgd : ℕ} (h : Sound P s) (hG : Granted P s order pgd s') :
    Sound P s' where
  inv := hG.inv h.inv
  lands v pa hpa := by
    rw [h.inv.translate_eq hG.root (hG.untouched h.inv)] at hpa
    rw [hG.dataPages_eq h.inv]
    exact .inl (h.lands v pa hpa)

theorem Sound.refused (h : Sound P s) (hfree : P.free s'.pgalloc ⊆ P.free s.pgalloc)
    (hs : s' = { s with pgalloc := s'.pgalloc }) : Sound P s' := by
  generalize s'.pgalloc = a at hfree hs
  subst hs
  have hkept : ∀ p ∈ s.owned, p ∉ P.free a := fun p hp hp' => h.inv.owned_kept p hp (hfree hp')
  exact ⟨h.inv.untouched rfl (fun _ _ => rfl) subset_rfl hkept, h.lands⟩

theorem Sound.given {order pgd : ℕ} (h : Sound P s) (hg : Given P s va order pgd s') :
    Sound P s' := by
  obtain ⟨s₁, hG, hb⟩ := hg
  have h₁ := h.granted hG
  have hdata := dataPages_grows h₁.inv hb.grows
  refine ⟨hb.inv, fun v pa hpa => ?_⟩
  by_cases hin : distance (page_number va) (page_number v) < block_pages order
  · obtain ⟨pa', hpa', hto⟩ := hb.inside v hin
    obtain rfl := Option.some.inj (hpa'.symm.trans hpa)
    refine hdata ?_
    rw [hG.dataPages_eq h.inv, hto, hG.pgd_to_pa_toNat]
    exact .inr ⟨by omega, by omega⟩
  · rw [hb.outside v (by omega)] at hpa
    exact hdata (h₁.lands v pa hpa)

theorem Sound.dataWrite (h : Sound P s) (hw : DataWrite s s') : Sound P s' := by
  refine ⟨hw.inv h.inv, fun v pa hpa => ?_⟩
  rw [hw.translate_eq h.inv] at hpa
  rw [hw.dataPages_eq h.inv]
  exact h.lands v pa hpa

theorem Sound.copied_write {dest_va size pa : UInt64} (h : Sound P s) (src : ℕ → UInt8)
    (hrow : InARow s dest_va size pa)
    (hown : ∀ i < size.toNat, ¬ KernelIndex (pml4_idx (dest_va + UInt64.ofNat i))) :
    DataWrite s (put (write s.mem pa.toNat size.toNat src) pa.toNat size.toNat s) := by
  refine {
    wrote := wrote_put s (fun y hle hlt => ?_) fun y hy => write_outside _ hy
    root := rfl
    pgalloc := rfl
    allocations := rfl }
  obtain ⟨i, rfl⟩ := Nat.exists_eq_add_of_le hle
  have hi : i < size.toNat := by omega
  have hmapped := (get_mapping_eq h.inv (hown i hi)).symm.trans (hrow.rest i hi)
  have hlands := h.lands _ _ (Prod.mk.inj (Except.ok.inj hmapped)).1
  rwa [hrow.toNat_pa_add hi] at hlands

theorem Sound.step {c : Call} (h : Sound P s) (hc : c.Allowed s)
    (hs : (system P).step s c = .ok s') : Sound P s' := by
  obtain ⟨⟨_, t⟩, he, rfl⟩ := map_eq_ok hs
  have hends : Ends (c.run P) s (fun _ => Sound P) (fun _ => True) := by
    cases c with
    | allocate_phys order =>
      refine (ends_map _ _).mpr (ends_weaken (allocate_phys_spec order) (fun r t hr => ?_)
        fun _ _ => trivial)
      cases r with
      | none => exact h.refused (Drawn.of_alloc hr.1).free hr.2
      | some pgd => exact h.granted hr
    | allocate_virt va nr_pages =>
      refine (ends_map _ _).mpr (ends_weaken (allocate_virt_given h.inv hc) (fun r t hr => ?_)
        fun _ _ => trivial)
      cases r with
      | false => exact h.refused hr.1.free hr.2
      | true =>
        obtain ⟨-, pgd, hg⟩ := hr
        exact h.given hg
    | copy_to dest_va src size =>
      refine (ends_map _ _).mpr ?_
      obtain hnone | ⟨⟨pa, hrow⟩, hown⟩ := hc
      · exact (ends_of_eq (copy_to_unmapped hnone)).mpr h
      · have heq := copy_to_mapped hrow.first src size
        rw [if_pos hrow.shown, if_pos hrow.room] at heq
        exact (ends_of_eq heq).mpr (h.dataWrite (h.copied_write src hrow hown))
  have hsound := ends_ok hends he
  exact hsound

theorem reachable_sound (hs : (system P).Reachable s) : Sound P s :=
  hs.preserves (fun _ => Sound.of_start) fun _ _ _ h hc hstep => h.step hc hstep

/-! ## How far a request is rounded up -/

/-- The pages that are asked for, of an `int` that is not negative. -/
def asked (nr_pages : Int32) : ℕ := nr_pages.toInt.toNat

theorem two_pow_log2ceil {x : UInt64} (hx : x ≠ 0) :
    x.toNat ≤ 2 ^ __log2ceil x ∧ (x.toNat = 2 ^ __log2ceil x ↔ x.toNat.isPowerOfTwo) := by
  have hne : x.toNat ≠ 0 := fun h => hx (UInt64.toNat_inj.mp h)
  have hone : (1 : UInt64) ≤ x := by
    rw [UInt64.le_iff_toNat_le]
    exact Nat.one_le_iff_ne_zero.mpr hne
  have hand : x &&& (x - 1) ≠ 0 ↔ ¬x.toNat.isPowerOfTwo := by
    rw [← Nat.and_sub_one_eq_zero_iff_isPowerOfTwo hne, ne_eq, ← UInt64.toNat_inj, UInt64.toNat_and,
      UInt64.toNat_sub_of_le _ _ hone]
    rfl
  have hle := Nat.log2_self_le hne
  have hlt := Nat.lt_log2_self (n := x.toNat)
  unfold __log2ceil
  rw [if_neg hx]
  by_cases hpow : x.toNat.isPowerOfTwo
  · rw [if_neg (by rwa [hand, not_not]), Nat.add_zero]
    obtain ⟨k, hk⟩ := hpow
    rw [hk, Nat.log2_two_pow]
    exact ⟨le_rfl, iff_of_true rfl ⟨k, rfl⟩⟩
  · rw [if_pos (hand.mpr hpow)]
    exact ⟨hlt.le, iff_of_false hlt.ne hpow⟩

theorem block_pages_virt (hpos : 0 < nr_pages.toInt) (horder : virt_order nr_pages ≤ 16) :
    asked nr_pages ≤ block_pages (virt_order nr_pages) ∧
      (asked nr_pages = block_pages (virt_order nr_pages) ↔ (asked nr_pages).isPowerOfTwo) := by
  have hasked : nr_pages.toInt64.toUInt64.toNat = asked nr_pages := by
    have hle : 0 ≤ nr_pages.toInt64 := by
      rw [Int64.le_iff_toInt_le, Int32.toInt_toInt64]
      exact hpos.le
    rw [Int64.toNat_toUInt64_of_le hle, asked, Int64.toNatClampNeg, Int32.toInt_toInt64]
  have hne : nr_pages.toInt64.toUInt64 ≠ 0 := by
    intro h
    rw [h] at hasked
    unfold asked at hasked
    change 0 = _ at hasked
    omega
  rw [block_pages_eq ⟨by omega, by omega⟩, Int.toNat_natCast, ← hasked]
  exact two_pow_log2ceil hne

/-! ## What a request changes -/

/-- From `s` to `s'` the `n` pages from that of `va` on were mapped, each to a frame of its own that
was free, and no other page. The kernel's entries, and all memory that the address space was not
given, are as they were. -/
structure Only (P : PageSource α) (s : State α) (va : UInt64) (n : ℕ) (s' : State α) : Prop where
  frames : ∃ frame : ℕ → ℕ, (∀ i < n, ∀ j < n, frame i = frame j → i = j) ∧
    ∀ i < n, frame i ∈ P.free s.pgalloc ∧ frame i ∉ P.free s'.pgalloc ∧ ∃ pa,
      MappedTo s' (va + UInt64.ofNat (4096 * i)) pa ∧ pa.toNat = 4096 * frame i
  others : ∀ v, ¬ KernelIndex (pml4_idx v) → (∀ i < n, page_number v ≠ page_number va + i) →
    ∀ r, get_mapping v s' = .ok (r, s') ↔ get_mapping v s = .ok (r, s)
  kernel : ∀ i, KernelIndex i →
    entry s'.mem s'._pgt_virt_base i = entry s.mem s._pgt_virt_base i
  elsewhere : ∀ y, y / 4096 ∉ s'.owned → s'.mem y = s.mem y

/-- A range in the lower half. -/
theorem page_number_add {va : UInt64} {i n : ℕ} (haligned : 4096 ∣ va.toNat) (hi : i < n)
    (hhalf : va.toNat + 4096 * n ≤ 2 ^ 47) :
    page_number (va + UInt64.ofNat (4096 * i)) = page_number va + i ∧
      page_number va + i < 2 ^ 35 ∧ (va + UInt64.ofNat (4096 * i)).toNat % 4096 = 0 := by
  obtain ⟨k, hk⟩ := haligned
  unfold page_number
  rw [UInt64.toNat_add, UInt64.toNat_ofNat', hk]
  omega

theorem ownPages_lower {p n : ℕ} (h : p + n ≤ 2 ^ 35) : OwnPages p n := by
  intro i hi
  unfold KernelIndex
  omega

theorem not_kernel_lower {v : UInt64} (h : page_number v < 2 ^ 35) : ¬ KernelIndex (pml4_idx v) := by
  rw [pml4_idx_eq]
  unfold KernelIndex
  omega

theorem Given.only {order pgd n : ℕ} (h : Sound P s) (hg : Given P s va order pgd s')
    (haligned : 4096 ∣ va.toNat) (hn : n = block_pages order)
    (hhalf : va.toNat + 4096 * n ≤ 2 ^ 47) : Only P s va n s' := by
  have hs' := h.given hg
  obtain ⟨s₁, hG, hb⟩ := hg
  have hva : page_number va = va.toNat / 4096 := by
    unfold page_number
    omega
  subst hn
  refine ⟨⟨(pgd + ·), fun i _ j _ heq => Nat.add_left_cancel heq, fun i hi => ?_⟩,
    fun v hv hout r => ?_, fun i hi => ?_, fun y hy => ?_⟩
  · obtain ⟨hpage, hlow, hoff⟩ := page_number_add haligned hi hhalf
    obtain ⟨hfree, hnot⟩ := hG.block_free (pgd + i) (by omega) (by omega)
    have hdist : distance (page_number va) (page_number (va + UInt64.ofNat (4096 * i))) = i := by
      rw [hpage]
      unfold distance
      omega
    obtain ⟨pa, hpa, hto⟩ := hb.inside (va + UInt64.ofNat (4096 * i)) (hdist.trans_lt hi)
    refine ⟨hfree, fun hf => hnot (hb.grows.free hf), pa, ?_, ?_⟩
    · rw [MappedTo, get_mapping_eq hb.inv (not_kernel_lower (by omega)), hpa]
    · rw [hto, hG.pgd_to_pa_toNat, hdist, hoff, Nat.add_zero, ← Nat.mul_add]
  · have hsame : s'.translate v = s.translate v := by
      refine (hb.outside v ?_).trans (h.inv.translate_eq hG.root (hG.untouched h.inv) v)
      by_contra hin
      have hlt := page_number_lt v
      refine hout (distance (page_number va) (page_number v)) (by omega) ?_
      unfold distance at hin ⊢
      omega
    rw [get_mapping_eq hb.inv hv, get_mapping_eq h.inv hv, hsame]
    simp
  · have hlt : i < 512 := by
      rcases hi with rfl | rfl <;> decide
    rw [hb.grows.root, hb.grows.kernel i hi, hG.root,
      h.inv.entry_eq (hG.untouched h.inv) (root_isTable s) hlt]
  · rw [hb.grows.wrote.elsewhere y fun ht => hy (hs'.inv.tables_owned ht),
      hG.wrote.elsewhere y fun ho => hy (hb.grows.owned ho)]

/-- A page of the block that was not asked for. -/
theorem Given.not_only {order pgd n : ℕ} (h : Sound P s) (hg : Given P s va order pgd s')
    (haligned : 4096 ∣ va.toNat) (hn : n < block_pages order)
    (hhalf : va.toNat + 4096 * block_pages order ≤ 2 ^ 47) : ¬ Only P s va n s' := by
  intro honly
  obtain ⟨s₁, hG, hb⟩ := hg
  obtain ⟨hpage, hlow, hoff⟩ := page_number_add haligned hn hhalf
  have hv : ¬ KernelIndex (pml4_idx (va + UInt64.ofNat (4096 * n))) := not_kernel_lower (by omega)
  have hdist : distance (page_number va) (page_number (va + UInt64.ofNat (4096 * n))) = n := by
    rw [hpage]
    unfold distance
    omega
  obtain ⟨pa, hpa, hto⟩ := hb.inside (va + UInt64.ofNat (4096 * n)) (hdist.trans_lt hn)
  rw [hdist, hG.pgd_to_pa_toNat, hoff] at hto
  -- It would have to be mapped to the same frame before, which was free.
  have hbefore := (honly.others _ hv (fun i hi => by omega) (some pa)).mp (by
    rw [get_mapping_eq hb.inv hv, hpa])
  rw [get_mapping_eq h.inv hv] at hbefore
  have hlands := h.lands _ pa (Prod.mk.inj (Except.ok.inj hbefore)).1
  refine h.inv.owned_kept _ hlands.1 ?_
  rw [show pa.toNat / 4096 = pgd + n by omega]
  exact (hG.block_free _ (by omega) (by omega)).1

/-- A request to a new address space. -/
def request (va : UInt64) (nr_pages : Int32) : Op ℕ Bool := do
  build inOrder none []
  allocate_virt inOrder va nr_pages

theorem request_granted (va : UInt64) (nr_pages : Int32)
    (h : ((request va nr_pages (start (fun _ => 0) 1)).toOption.map Prod.fst) = some true) :
    ∃ s s', (system inOrder).Reachable s ∧
      allocate_virt inOrder va nr_pages s = .ok (true, s') := by
  unfold request at h
  rw [bind_eq] at h
  cases hbuild : build inOrder none [] (start (fun _ => 0) 1) with
  | error e =>
    rw [hbuild] at h
    cases h
  | ok r =>
    obtain ⟨_, s⟩ := r
    rw [hbuild] at h
    dsimp only at h
    cases hvirt : allocate_virt inOrder va nr_pages s with
    | error e =>
      rw [hvirt] at h
      cases h
    | ok r =>
      obtain ⟨granted, s'⟩ := r
      rw [hvirt] at h
      obtain rfl : granted = true := Option.some.inj h
      exact ⟨s, s', .of_start ⟨_, _, _, hbuild⟩, hvirt⟩

/-- A request that is granted does what it should if it is for a power of two of pages in the lower
half. If the block that is mapped for it lies in the lower half, then only so. -/
theorem allocate_virt_only (hs : (system P).Reachable s) (haligned : 4096 ∣ va.toNat)
    (hpos : 0 < nr_pages.toInt) (he : allocate_virt P va nr_pages s = .ok (true, s')) :
    ((asked nr_pages).isPowerOfTwo → va.toNat + 4096 * asked nr_pages ≤ 2 ^ 47 →
      Only P s va (asked nr_pages) s') ∧
    (va.toNat + 4096 * virt_pages nr_pages ≤ 2 ^ 47 → Only P s va (asked nr_pages) s' →
      (asked nr_pages).isPowerOfTwo) := by
  have h := reachable_sound hs
  have hlower : page_number va = va.toNat / 4096 ∨ 2 ^ 47 < va.toNat := by
    unfold page_number
    omega
  -- What is mapped, as long as it keeps off the kernel's entries.
  have hgiven (hhalf : va.toNat + 4096 * virt_pages nr_pages ≤ 2 ^ 47) :
      ∃ pgd, Given P s va (virt_order nr_pages) pgd s' ∧
        virt_pages nr_pages = block_pages (virt_order nr_pages) ∧ virt_order nr_pages ≤ 16 := by
    have hown : OwnPages (page_number va) (virt_pages nr_pages) := ownPages_lower (by omega)
    obtain ⟨hne, pgd, hg⟩ := ends_ok (allocate_virt_given h.inv hown) he
    obtain ⟨s₁, hG, hb⟩ := hg
    have horder := hG.order_bounds
    exact ⟨pgd, ⟨s₁, hG, hb⟩, hG.virt_pages_eq hne, by omega⟩
  constructor
  · intro hpow hhalf
    have hpages : virt_pages nr_pages ≤ asked nr_pages := by
      unfold virt_pages
      split
      · exact Nat.zero_le _
      next hsmall =>
        have horder := not_or.mp hsmall
        exact ((block_pages_virt hpos (by omega)).2.mpr hpow).ge
    obtain ⟨pgd, hg, -, horder⟩ := hgiven (by omega)
    exact hg.only h haligned ((block_pages_virt hpos horder).2.mpr hpow) hhalf
  · intro hhalf honly
    obtain ⟨pgd, hg, hpages, horder⟩ := hgiven hhalf
    obtain ⟨hle, hiff⟩ := block_pages_virt hpos horder
    by_contra hnot
    have hlt := lt_of_le_of_ne hle (mt hiff.mp hnot)
    exact hg.not_only h haligned hlt (hpages ▸ hhalf) honly

theorem allocate_virt_only_two : ∃ s s', (system inOrder).Reachable s ∧
    allocate_virt inOrder 0x400000 2 s = .ok (true, s') ∧
    ((asked 2).isPowerOfTwo → (0x400000 : UInt64).toNat + 4096 * asked 2 ≤ 2 ^ 47 →
      Only inOrder s 0x400000 (asked 2) s') ∧
    ((0x400000 : UInt64).toNat + 4096 * virt_pages 2 ≤ 2 ^ 47 →
      Only inOrder s 0x400000 (asked 2) s' → (asked 2).isPowerOfTwo) := by
  obtain ⟨s, s', hs, he⟩ := request_granted 0x400000 2 (by decide +kernel)
  exact ⟨s, s', hs, he, allocate_virt_only hs (by decide) (by decide) he⟩

/-- A request for three pages maps a fourth. -/
theorem fourth_page_mapped : ∃ s s', (system inOrder).Reachable s ∧
    allocate_virt inOrder 0x400000 3 s = .ok (true, s') ∧ ¬ Only inOrder s 0x400000 3 s' := by
  obtain ⟨s, s', hs, he⟩ := request_granted 0x400000 3 (by decide +kernel)
  have h := reachable_sound hs
  have hown : OwnPages (page_number 0x400000) (virt_pages 3) := ownPages_lower (by decide)
  obtain ⟨-, pgd, hg⟩ := ends_ok (allocate_virt_given h.inv hown) he
  exact ⟨s, s', hs, he, hg.not_only h (by decide) (by decide) (by decide)⟩

end Infos.Vma
