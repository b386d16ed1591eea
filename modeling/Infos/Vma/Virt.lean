import Infos.Vma.Map

/-!
# Blocks of virtual memory, and copies into them

The frames of a block are neighbours, so a copy that starts in one of its pages may run on to its
end, and no further.
-/

open Infos.Bytes Infos.Prog Infos.Radix

namespace Infos.Vma

variable {α : Type} {P : PageSource α} {s₀ s s' : State α} {E : Halt α → Prop}

/-! ## Mapping a block -/

/-- How many pages `q` is behind `p`, going round the 36 bits. -/
def distance (p q : ℕ) : ℕ := (q + 2 ^ 36 - p) % 2 ^ 36

theorem page_number_lt (va : UInt64) : page_number va < 2 ^ 36 := Nat.mod_lt _ (by decide)

theorem page_number_next (va : UInt64) :
    page_number (va + 0x1000) = (page_number va + 1) % 2 ^ 36 := by
  unfold page_number
  rw [UInt64.toNat_add]
  simp
  omega

/-- The pages `p`, `p + 1`, … of `n` pages in a row, none of which is the kernel's. -/
def OwnPages (p n : ℕ) : Prop := ∀ i < n, ¬ KernelIndex ((p + i) % 2 ^ 36 / 2 ^ 27)

/-- From `s` to `s'` the `n` pages from that of `vbase` on were mapped to the frames from that of
`pbase` on. -/
structure BlockMapped (P : PageSource α) (s : State α) (vbase pbase : UInt64) (n : ℕ)
    (s' : State α) : Prop where
  inv : Inv P s'
  grows : Grows P s s'
  inside : ∀ v, distance (page_number vbase) (page_number v) < n → ∃ pa, s'.translate v = some pa ∧
    pa.toNat = pbase.toNat + 4096 * distance (page_number vbase) (page_number v) + v.toNat % 4096
  outside : ∀ v, n ≤ distance (page_number vbase) (page_number v) →
    s'.translate v = s.translate v

theorem map_block_spec {n : ℕ} {vbase pbase : UInt64} (hI : Inv P s)
    (hown : OwnPages (page_number vbase) n) (haligned : 4096 ∣ pbase.toNat)
    (hwindow : pbase.toNat + 4096 * n ≤ PMEM_VA_SIZE) :
    Ends (map_block P n vbase pbase) s (fun _ => BlockMapped P s vbase pbase n) (Halted P s) := by
  have hsize : PMEM_VA_SIZE = 2 ^ 32 := rfl
  induction n generalizing s vbase pbase with
  | zero =>
    rw [map_block, ends_pure]
    exact {
      inv := hI
      grows := Grows.refl P s
      inside := fun v h => by omega
      outside := fun v _ => rfl }
  | succ n ih =>
    have hpage := page_number_lt vbase
    have hva : ¬ KernelIndex (pml4_idx vbase) := by
      have := hown 0 (by omega)
      rwa [Nat.add_zero, Nat.mod_eq_of_lt hpage, ← pml4_idx_eq] at this
    have hnext : (pbase + 0x1000).toNat = pbase.toNat + 4096 := by
      rw [UInt64.toNat_add]
      simp
      omega
    have hown' : OwnPages (page_number (vbase + 0x1000)) n := by
      intro i hi
      have := hown (i + 1) (by omega)
      rwa [page_number_next, show ((page_number vbase + 1) % 2 ^ 36 + i) % 2 ^ 36 =
        (page_number vbase + (i + 1)) % 2 ^ 36 by omega]
    rw [map_block, ends_bind]
    refine ends_weaken (insert_mapping_spec pbase hI hva rfl) (fun _ s₁ h₁ => ?_)
      fun _ he => he.halted
    refine ends_weaken (ih h₁.inv hown' (by omega) (by omega)) (fun _ s₂ h₂ => ?_)
      fun _ => (h₁.inv.spends h₁.grows).halted
    -- The first page is the last of all behind the second.
    have hstep : ∀ v, distance (page_number vbase) (page_number v) = 0 ∧
        page_number v = page_number vbase ∧
        n ≤ distance (page_number (vbase + 0x1000)) (page_number v) ∨
        page_number v ≠ page_number vbase ∧ distance (page_number vbase) (page_number v) =
          distance (page_number (vbase + 0x1000)) (page_number v) + 1 := by
      intro v
      have := page_number_lt v
      rw [page_number_next]
      unfold distance
      omega
    exact {
      inv := h₂.inv
      grows := h₁.grows.trans h₂.grows
      inside := fun v hv => by
        rcases hstep v with ⟨hzero, hsame, hlast⟩ | ⟨-, hdist⟩
        · refine ⟨_, (h₂.outside v hlast).trans ((h₁.translate v).trans (if_pos hsame)), ?_⟩
          rw [high_of_aligned haligned, join_toNat haligned, hzero]
          omega
        · obtain ⟨pa, hpa, hto⟩ := h₂.inside v (by omega)
          refine ⟨pa, hpa, ?_⟩
          omega
      outside := fun v hv => by
        rcases hstep v with ⟨hzero, -, -⟩ | ⟨hne, hdist⟩
        · omega
        · exact (h₂.outside v (by omega)).trans ((h₁.translate v).trans (if_neg hne)) }

/-! ## Keeping to the frames that were given -/

/-- The pages of the address space that hold no table. -/
def State.dataPages (s : State α) : Set ℕ := s.owned \ s.tablePages

/-- Since `s₀` all writes went to frames that were given. -/
structure Contained (P : PageSource α) (s₀ s : State α) : Prop where
  inv : Inv P s
  spends : Spends P s₀ s

namespace Contained

theorem free (h : Contained P s₀ s) : P.free s.pgalloc ⊆ P.free s₀.pgalloc := h.spends.free

theorem wrote (h : Contained P s₀ s) : Wrote s₀ s s.owned := h.spends.wrote

/-- Where there were no frames before, all are new. -/
theorem owned (h : Contained P s₀ s) (hnew : s₀._page_allocations = []) :
    s.owned ⊆ P.free s₀.pgalloc := by
  have hnew_owned := h.spends.new_owned
  rwa [owned_new hnew, Set.empty_union] at hnew_owned

theorem grows (h : Contained P s₀ s) (hI : Inv P s') (hg : Grows P s s') : Contained P s₀ s' :=
  ⟨hI, h.spends.trans (hI.spends hg)⟩

theorem fill {t idx : ℕ} (h : Contained P s₀ s) (hl : Leaf s t idx) (e : MMUTableEntry) :
    Contained P s₀ (s.fill t idx e) where
  inv := h.inv.fill hl e
  spends := h.spends.trans {
    drawn := .refl P _
    owned := subset_rfl
    new_owned := Set.subset_union_left
    wrote := (h.inv.wrote_fill hl e).mono h.inv.tables_owned }

end Contained

theorem Fresh.contained (h : Fresh P s₀ s) : Contained P s₀ s := ⟨h.inv, h.spends⟩

theorem dataPages_grows (hI : Inv P s) (hg : Grows P s s') : s.dataPages ⊆ s'.dataPages := by
  rintro p ⟨hp, hnot⟩
  refine ⟨hg.owned hp, fun hp' => ?_⟩
  rcases hg.new_tables hp' with ht | hfree
  · exact hnot ht
  · exact hI.owned_kept p hp hfree

section Granted

variable {order : Int} {pgd : ℕ}

theorem Granted.untouched (hG : Granted P s order pgd s') (hI : Inv P s) :
    ∀ y, y / 4096 ∈ s.tablePages → s'.mem y = s.mem y := by
  intro y hy
  refine hG.mem_elsewhere ?_
  by_contra hin
  have hfree := (hG.block_free (y / 4096) (by omega) (by omega)).1
  exact hI.owned_kept _ (hI.tables_owned hy) hfree

theorem Granted.inv (hG : Granted P s order pgd s') (hI : Inv P s) : Inv P s' := by
  refine hI.untouched hG.root (hG.untouched hI) ?_ ?_
  · rw [hG.owned_eq]
    exact Set.subset_union_left
  · rw [hG.owned_eq]
    rintro p (hp | ⟨hle, hlt⟩)
    · exact fun hfree => hI.owned_kept p hp (hG.free hfree)
    · exact (hG.block_free p hle hlt).2

theorem Granted.wrote (hG : Granted P s order pgd s') : Wrote s s' s'.owned := hG.spends.wrote

theorem Contained.granted (h : Contained P s₀ s) (hG : Granted P s order pgd s') :
    Contained P s₀ s' := ⟨hG.inv h.inv, h.spends.trans hG.spends⟩

theorem Granted.dataPages_eq (hG : Granted P s order pgd s') (hI : Inv P s) :
    s'.dataPages = s.dataPages ∪ {p | pgd ≤ p ∧ p < pgd + block_pages order} := by
  unfold State.dataPages
  rw [hI.tablePages_eq hG.root (hG.untouched hI), hG.owned_eq]
  refine Set.ext fun p => ⟨?_, ?_⟩
  · rintro ⟨hp | hp, hnot⟩
    · exact .inl ⟨hp, hnot⟩
    · exact .inr hp
  · rintro (⟨hp, hnot⟩ | hp)
    · exact ⟨.inl hp, hnot⟩
    · refine ⟨.inr hp, fun ht => ?_⟩
      exact hI.owned_kept p (hI.tables_owned ht) (hG.block_free p hp.1 hp.2).1

end Granted

/-- A write that keeps to pages without tables. -/
structure DataWrite (s : State α) (s' : State α) : Prop where
  wrote : Wrote s s' s.dataPages
  root : s'._pgt_virt_base = s._pgt_virt_base
  pgalloc : s'.pgalloc = s.pgalloc
  allocations : s'._page_allocations = s._page_allocations

namespace DataWrite

theorem owned_eq (hw : DataWrite s s') : s'.owned = s.owned := by
  unfold State.owned
  rw [hw.allocations]

theorem untouched (hw : DataWrite s s') : ∀ y, y / 4096 ∈ s.tablePages → s'.mem y = s.mem y :=
  fun y hy => hw.wrote.elsewhere y fun hdata => hdata.2 hy

theorem translate_eq (hw : DataWrite s s') (hI : Inv P s) (va : UInt64) :
    s'.translate va = s.translate va := hI.translate_eq hw.root hw.untouched va

theorem dataPages_eq (hw : DataWrite s s') (hI : Inv P s) : s'.dataPages = s.dataPages := by
  unfold State.dataPages
  rw [hw.owned_eq, hI.tablePages_eq hw.root hw.untouched]

theorem inv (hw : DataWrite s s') (hI : Inv P s) : Inv P s' := by
  refine hI.untouched hw.root hw.untouched hw.owned_eq.ge ?_
  rw [hw.owned_eq, hw.pgalloc]
  exact hI.owned_kept

theorem spends (hw : DataWrite s s') : Spends P s s' where
  drawn := by
    rw [hw.pgalloc]
    exact .refl P _
  owned := hw.owned_eq.ge
  new_owned := hw.owned_eq.le.trans Set.subset_union_left
  wrote := by
    rw [hw.owned_eq]
    exact hw.wrote.mono Set.sdiff_subset

theorem contained (hw : DataWrite s s') (h : Contained P s₀ s) : Contained P s₀ s' :=
  ⟨hw.inv h.inv, h.spends.trans hw.spends⟩

end DataWrite

/-! ## Room behind a page -/

/-- `room p` is the number of pages from the page `p` to the end of the block it is mapped in, or
zero where `p` is not mapped. -/
structure Rooms (s : State α) (room : ℕ → ℕ) : Prop where
  unmapped : ∀ v, ¬ KernelIndex (pml4_idx v) → room (page_number v) = 0 → s.translate v = none
  mapped : ∀ v, ¬ KernelIndex (pml4_idx v) → room (page_number v) ≠ 0 → ∃ pa frame,
    s.translate v = some pa ∧ pa.toNat = 4096 * frame + v.toNat % 4096 ∧
    4096 * (frame + room (page_number v)) ≤ PMEM_VA_SIZE ∧
    ∀ i < room (page_number v), frame + i ∈ s.dataPages

theorem Rooms.congr {room : ℕ → ℕ} (h : Rooms s room)
    (htranslate : ∀ v, s'.translate v = s.translate v) (hdata : s.dataPages ⊆ s'.dataPages) :
    Rooms s' room where
  unmapped v hv hroom := (htranslate v).trans (h.unmapped v hv hroom)
  mapped v hv hroom := by
    obtain ⟨pa, frame, hpa, hto, hwindow, hin⟩ := h.mapped v hv hroom
    exact ⟨pa, frame, (htranslate v).trans hpa, hto, hwindow, fun i hi => hdata (hin i hi)⟩

/-- With the block of the `n` pages from `p` on. -/
def addBlock (room : ℕ → ℕ) (p n : ℕ) : ℕ → ℕ := fun q =>
  if distance p q < n then n - distance p q else room q

theorem Rooms.addBlock {room : ℕ → ℕ} {vbase pbase : UInt64} {frame n : ℕ} (h : Rooms s room)
    (hI : Inv P s) (hb : BlockMapped P s vbase pbase n s') (hpbase : pbase.toNat = 4096 * frame)
    (hwindow : 4096 * (frame + n) ≤ PMEM_VA_SIZE) (hin : ∀ i < n, frame + i ∈ s.dataPages) :
    Rooms s' (addBlock room (page_number vbase) n) where
  unmapped v hv hroom := by
    unfold Vma.addBlock at hroom
    split at hroom
    · omega
    · rw [hb.outside v (by omega)]
      exact h.unmapped v hv hroom
  mapped v hv hroom := by
    have hdata := dataPages_grows hI hb.grows
    unfold Vma.addBlock at hroom ⊢
    split at hroom
    next hlt =>
      obtain ⟨pa, hpa, hto⟩ := hb.inside v hlt
      refine ⟨pa, frame + distance (page_number vbase) (page_number v), hpa, by omega, ?_, ?_⟩
      · rw [if_pos hlt]
        omega
      · intro i hi
        rw [if_pos hlt] at hi
        rw [Nat.add_assoc]
        exact hdata (hin _ (by omega))
    next hle =>
      obtain ⟨pa, f, hpa, hto, hwin, hin'⟩ := h.mapped v hv hroom
      rw [if_neg hle]
      exact ⟨pa, f, (hb.outside v (by omega)).trans hpa, hto, hwin, fun i hi => hdata (hin' i hi)⟩

/-! ## The functions -/

/-- What holds of an address space while a program is loaded into it. The pages of `D` hold no
table. -/
structure Loaded (P : PageSource α) (s₀ : State α) (D : Set ℕ) (room : ℕ → ℕ) (s : State α) :
    Prop where
  contained : Contained P s₀ s
  rooms : Rooms s room
  data : D ⊆ s.dataPages

variable {D : Set ℕ} {room : ℕ → ℕ}

theorem Loaded.dataWrite (h : Loaded P s₀ D room s) (hw : DataWrite s s') :
    Loaded P s₀ D room s' where
  contained := hw.contained h.contained
  rooms := h.rooms.congr (hw.translate_eq h.contained.inv) (hw.dataPages_eq h.contained.inv).ge
  data := h.data.trans (hw.dataPages_eq h.contained.inv).ge

theorem Loaded.granted {order : Int} {pgd : ℕ} (h : Loaded P s₀ D room s)
    (hG : Granted P s order pgd s') : Loaded P s₀ D room s' := by
  have hI := h.contained.inv
  have hdata : s.dataPages ⊆ s'.dataPages := by
    rw [hG.dataPages_eq hI]
    exact Set.subset_union_left
  exact {
    contained := h.contained.granted hG
    rooms := h.rooms.congr (hI.translate_eq hG.root (hG.untouched hI)) hdata
    data := h.data.trans hdata }

/-- The same address space, after the allocator refused. -/
theorem Loaded.refused (h : Loaded P s₀ D room s) (hdrawn : Drawn P s.pgalloc s'.pgalloc)
    (hs : s' = { s with pgalloc := s'.pgalloc }) : Loaded P s₀ D room s' := by
  generalize s'.pgalloc = a at hdrawn hs
  subst hs
  have hI := h.contained.inv
  have hkept : ∀ p ∈ s.owned, p ∉ P.free a := fun p hp hp' => hI.owned_kept p hp (hdrawn.free hp')
  exact {
    contained := {
      inv := hI.untouched rfl (fun _ _ => rfl) subset_rfl hkept
      spends := h.contained.spends.trans {
        drawn := hdrawn
        owned := subset_rfl
        new_owned := Set.subset_union_left
        wrote := ⟨⟨[], rfl, by simp⟩, fun _ _ => rfl⟩ } }
    rooms := h.rooms.congr (fun _ => rfl) subset_rfl
    data := h.data }

/-- What stops while a program is loaded stops behind all that was done before. -/
theorem Loaded.halted {e : Halt α} (h : Loaded P s₀ D room s) (he : Halted P s e) : Halted P s₀ e :=
  h.contained.spends.halted he

/-- The order of the block that `allocate_virt` asks for. -/
def virt_order (nr_pages : Int32) : ℕ := __log2ceil nr_pages.toInt64.toUInt64

/-- The pages of that block, if there can be one. -/
def virt_pages (nr_pages : Int32) : ℕ :=
  if nr_pages = 0 ∨ 16 < virt_order nr_pages then 0 else block_pages (virt_order nr_pages)

section Given

variable {va : UInt64} {nr_pages : Int32} {pgd : ℕ}

theorem Granted.pgd_to_pa_toNat {order : Int} (hG : Granted P s order pgd s') :
    (pgd_to_pa pgd).toNat = 4096 * pgd := by
  have hpgd := hG.block_free pgd le_rfl (Nat.lt_add_of_pos_right (block_pages_pos _))
  exact Vma.pgd_to_pa_toNat (P.physical _ _ hpgd.1)

theorem Granted.virt_pages_eq (hG : Granted P s (virt_order nr_pages) pgd s')
    (hne : nr_pages ≠ 0) : virt_pages nr_pages = block_pages (virt_order nr_pages) := by
  have horder := hG.order_bounds
  unfold virt_pages
  rw [if_neg]
  rintro (hzero | hlarge)
  · exact hne hzero
  · omega

/-- The block at `pgd` was given for a request, and is mapped. -/
def Given (P : PageSource α) (s : State α) (va : UInt64) (order pgd : ℕ) (s' : State α) : Prop :=
  ∃ s₁, Granted P s order pgd s₁ ∧ BlockMapped P s₁ va (pgd_to_pa pgd) (block_pages order) s'

theorem allocate_virt_given (hI : Inv P s)
    (hown : OwnPages (page_number va) (virt_pages nr_pages)) :
    Ends (allocate_virt P va nr_pages) s (fun r s' =>
      if r then nr_pages ≠ 0 ∧ ∃ pgd, Given P s va (virt_order nr_pages) pgd s'
      else Drawn P s.pgalloc s'.pgalloc ∧ s' = { s with pgalloc := s'.pgalloc })
      (Halted P s) := by
  unfold allocate_virt
  refine ends_ite (fun _ => ?_) fun hne => ?_
  · rw [ends_pure]
    exact ⟨.refl P _, rfl⟩
  · simp only [ends_bind]
    refine ends_weaken (allocate_phys_spec _) (fun r s₁ hr => ?_) fun _ he => he.halted
    cases r with
    | none =>
      rw [ends_pure]
      exact ⟨.of_alloc hr.1, hr.2⟩
    | some pgd =>
      have hG : Granted P s (virt_order nr_pages) pgd s₁ := hr
      have hwindow := hG.window
      rw [hG.virt_pages_eq hne] at hown
      simp only [ends_bind]
      refine ends_weaken (map_block_spec (n := block_pages (virt_order nr_pages)) (hG.inv hI)
        hown ?_ ?_) (fun _ s₂ h₂ => ?_) fun _ => hG.spends.halted
      · rw [hG.pgd_to_pa_toNat]
        exact Nat.dvd_mul_right _ _
      · rw [hG.pgd_to_pa_toNat]
        omega
      · rw [ends_pure]
        exact ⟨hne, pgd, s₁, hG, h₂⟩

end Given

theorem allocate_virt_spec {va : UInt64} {nr_pages : Int32} (h : Loaded P s₀ D room s)
    (hown : OwnPages (page_number va) (virt_pages nr_pages)) :
    Ends (allocate_virt P va nr_pages) s (fun _ s' => Loaded P s₀ D room s' ∨
      Loaded P s₀ D (addBlock room (page_number va) (virt_pages nr_pages)) s') (Halted P s₀) := by
  refine ends_weaken (allocate_virt_given h.contained.inv hown) (fun r s' hr => ?_)
    fun _ => h.halted
  cases r with
  | false => exact .inl (h.refused hr.1 hr.2)
  | true =>
    obtain ⟨hne, pgd, s₁, hG, hb⟩ := hr
    have h₁ := h.granted hG
    have hin : ∀ i < block_pages (virt_order nr_pages), pgd + i ∈ s₁.dataPages := by
      intro i hi
      rw [hG.dataPages_eq h.contained.inv]
      exact .inr ⟨by omega, by omega⟩
    rw [hG.virt_pages_eq hne]
    exact .inr {
      contained := h₁.contained.grows hb.inv hb.grows
      rooms := h₁.rooms.addBlock h₁.contained.inv hb hG.pgd_to_pa_toNat hG.window hin
      data := h₁.data.trans (dataPages_grows h₁.contained.inv hb.grows) }

/-- A copy of `size` bytes to `va` stays within the block. -/
def CopyFits (room : ℕ → ℕ) (va : UInt64) (size : ℕ) : Prop :=
  room (page_number va) = 0 ∨ va.toNat % 4096 + size ≤ 4096 * room (page_number va)

theorem copy_to_spec {va : UInt64} {size : UInt64} (src : ℕ → UInt8) (h : Loaded P s₀ D room s)
    (hva : ¬ KernelIndex (pml4_idx va)) (hfits : CopyFits room va size.toNat) :
    Ends (copy_to va src size) s (fun _ s' => Loaded P s₀ D room s') E := by
  unfold copy_to
  rw [ends_bind]
  refine ends_mono (get_mapping_spec h.contained.inv hva) ?_
  rintro r s ⟨rfl, rfl⟩
  by_cases hroom : room (page_number va) = 0
  · rw [h.rooms.unmapped va hva hroom]
    exact h
  · obtain ⟨pa, frame, hpa, hto, hwindow, hin⟩ := h.rooms.mapped va hva hroom
    have hlen := hfits.resolve_left hroom
    rw [hpa]
    simp only [ends_bind]
    rw [ends_pa_to_vpa (by omega)]
    unfold memcpy
    simp only [ends_bind, ends_modify]
    rw [ends_access (by omega), ends_pure, Nat.min_eq_left (by omega)]
    refine h.dataWrite {
      wrote := wrote_put s (fun y hle hlt => ?_) fun y hy => write_outside _ hy
      root := rfl
      pgalloc := rfl
      allocations := rfl }
    obtain ⟨i, hi⟩ : ∃ i, y / 4096 = frame + i := ⟨y / 4096 - frame, by omega⟩
    rw [hi]
    exact hin i (by omega)

end Infos.Vma
