import Infos.Exec.Confined
import Infos.Lib.Image
import Infos.Vma.Steps

/-!
# What a program finds once it is loaded

An address space shows an image of memory. Requests and copies change the image only as they say,
since every page has a frame of its own.
-/

open Infos.Bytes Infos.Prog Infos.Vma Infos.Images

namespace Infos.Exec

variable {α : Type} {P : PageSource α} {a₀ : α} {s s' : State α} {D : Set ℕ} {m m' : Image UInt8}
  {va size : UInt64} {E : Halt α → Prop}

/-! ## The image that an address space shows -/

/-- In the lower half the address space shows the image. The pages of `D` are its own, and are
mapped nowhere. What is left of the source was `a₀`. -/
structure Loading (P : PageSource α) (a₀ : α) (D : Set ℕ) (m : Image UInt8) (s : State α) :
    Prop where
  sound : Sound P s
  drawn : Drawn P a₀ s.pgalloc
  data : D ⊆ s.dataPages
  off : ∀ v pa, s.translate v = some pa → pa.toNat / 4096 ∉ D
  byte : ∀ v, v.toNat < 2 ^ 47 → (s.translate v).map (fun pa => s.mem pa.toNat) = m.byte v.toNat
  below : ∀ a b, m.byte a = some b → a < 2 ^ 47
  unmapped : ∀ v, v.toNat < 2 ^ 47 → m.row (v.toNat / 4096) = 0 → s.translate v = none
  row : ∀ p, m.row p ≠ 0 → p + m.row p ≤ 2 ^ 35 ∧ ∃ frame,
    4096 * (frame + m.row p) ≤ PMEM_VA_SIZE ∧
    ∀ v, v.toNat < 2 ^ 47 → p ≤ v.toNat / 4096 → v.toNat / 4096 < p + m.row p → ∃ pa,
      s.translate v = some pa ∧
      pa.toNat = 4096 * (frame + (v.toNat / 4096 - p)) + v.toNat % 4096
  apart : ∀ v w pa qa, v.toNat < 2 ^ 47 → w.toNat < 2 ^ 47 → s.translate v = some pa →
    s.translate w = some qa → pa.toNat / 4096 = qa.toNat / 4096 →
    v.toNat / 4096 = w.toNat / 4096

theorem page_number_lower {v : UInt64} (h : v.toNat < 2 ^ 47) :
    page_number v = v.toNat / 4096 := by
  unfold page_number
  omega

theorem not_kernel_of_lower {v : UInt64} (h : v.toNat < 2 ^ 47) : ¬ KernelIndex (pml4_idx v) := by
  apply not_kernel_lower
  rw [page_number_lower h]
  omega

namespace Loading

theorem mapped (h : Loading P a₀ D m s) {v pa : UInt64} (hv : v.toNat < 2 ^ 47)
    (hpa : s.translate v = some pa) :
    m.row (v.toNat / 4096) ≠ 0 ∧ pa.toNat % 4096 = v.toNat % 4096 := by
  have hrow : m.row (v.toNat / 4096) ≠ 0 := by
    intro hzero
    rw [h.unmapped v hv hzero] at hpa
    cases hpa
  obtain ⟨-, frame, -, hin⟩ := h.row _ hrow
  obtain ⟨pa', hpa', hto⟩ := hin v hv le_rfl (by omega)
  obtain rfl := Option.some.inj (hpa.symm.trans hpa')
  exact ⟨hrow, by omega⟩

/-- Rows may be counted shorter than they are. -/
theorem shorter (h : Loading P a₀ D m s) (hbyte : m'.byte = m.byte)
    (hrow : ∀ p, m'.row p ≤ m.row p ∧ (m'.row p = 0 → m.row p = 0)) : Loading P a₀ D m' s where
  sound := h.sound
  drawn := h.drawn
  data := h.data
  off := h.off
  byte v hv := by
    rw [hbyte]
    exact h.byte v hv
  below a b hb := h.below a b (hbyte ▸ hb)
  unmapped v hv hzero := h.unmapped v hv ((hrow _).2 hzero)
  row p hp := by
    have hle := (hrow p).1
    obtain ⟨hlt, frame, hwindow, hin⟩ := h.row p (by omega)
    exact ⟨by omega, frame, by omega, fun v hv hpv hvp => hin v hv hpv (by omega)⟩
  apart := h.apart

/-- Writes to `D` do not show. -/
theorem wrote (h : Loading P a₀ D m s) (hw : Wrote s s' D)
    (hroot : s'._pgt_virt_base = s._pgt_virt_base) (hpgalloc : s'.pgalloc = s.pgalloc)
    (hallocations : s'._page_allocations = s._page_allocations) : Loading P a₀ D m s' := by
  have hdata : DataWrite s s' := ⟨hw.mono h.data, hroot, hpgalloc, hallocations⟩
  have htranslate := hdata.translate_eq h.sound.inv
  exact {
    sound := h.sound.dataWrite hdata
    drawn := by
      rw [hpgalloc]
      exact h.drawn
    data := by
      rw [hdata.dataPages_eq h.sound.inv]
      exact h.data
    off := fun v pa hpa => h.off v pa ((htranslate v).symm.trans hpa)
    byte := fun v hv => by
      rw [htranslate, ← h.byte v hv]
      cases hpa : s.translate v with
      | none => rfl
      | some pa =>
        rw [Option.map_some, Option.map_some, hw.elsewhere _ (h.off v pa hpa)]
    below := h.below
    unmapped := fun v hv hzero => (htranslate v).trans (h.unmapped v hv hzero)
    row := fun p hp => by
      obtain ⟨hlt, frame, hwindow, hin⟩ := h.row p hp
      refine ⟨hlt, frame, hwindow, fun v hv hpv hvp => ?_⟩
      rw [htranslate]
      exact hin v hv hpv hvp
    apart := fun v w pa qa hv hw' hpa hqa => h.apart v w pa qa hv hw'
      ((htranslate v).symm.trans hpa) ((htranslate w).symm.trans hqa) }

/-! ### Blocks -/

/-- What a block that was given changes in the lower half: the `n` pages from `p` on lead to the
frames from `pgd` on, which are blank, and what was mapped before is as it was. -/
structure Brings (P : PageSource α) (s : State α) (p n pgd : ℕ) (s' : State α) : Prop where
  sound : Sound P s'
  drawn : Drawn P s.pgalloc s'.pgalloc
  data : s.dataPages ⊆ s'.dataPages
  window : 4096 * (pgd + n) ≤ PMEM_VA_SIZE
  fresh : ∀ v pa, s'.translate v = some pa →
    s.translate v = some pa ∨ pa.toNat / 4096 ∈ P.free s.pgalloc
  inside : ∀ v : UInt64, v.toNat < 2 ^ 47 → p ≤ v.toNat / 4096 → v.toNat / 4096 < p + n → ∃ pa,
    s'.translate v = some pa ∧ pa.toNat = 4096 * (pgd + (v.toNat / 4096 - p)) + v.toNat % 4096
  outside : ∀ v : UInt64, v.toNat < 2 ^ 47 → ¬ (p ≤ v.toNat / 4096 ∧ v.toNat / 4096 < p + n) →
    s'.translate v = s.translate v
  blank : ∀ y, pgd ≤ y / 4096 → y / 4096 < pgd + n → s'.mem y = 0
  old : ∀ v pa, s.translate v = some pa →
    ¬ (pgd ≤ pa.toNat / 4096 ∧ pa.toNat / 4096 < pgd + n) ∧ s'.mem pa.toNat = s.mem pa.toNat

theorem brings {order pgd : ℕ} (h : Sound P s) (hg : Given P s va order pgd s')
    (hva : va.toNat < 2 ^ 47) (hhalf : va.toNat / 4096 + block_pages order ≤ 2 ^ 35) :
    Brings P s (va.toNat / 4096) (block_pages order) pgd s' := by
  have hsound := h.given hg
  obtain ⟨s₁, hG, hb⟩ := hg
  have hto := hG.pgd_to_pa_toNat
  have hfree := hG.block_free
  have hdata : s₁.dataPages = s.dataPages ∪ {p | pgd ≤ p ∧ p < pgd + block_pages order} :=
    hG.dataPages_eq h.inv
  have hgrown := dataPages_grows (hG.inv h.inv) hb.grows
  have hbefore := h.inv.translate_eq hG.root (hG.untouched h.inv)
  -- Making tables leaves the pages that hold none as they are.
  have hkept : ∀ y, y / 4096 ∈ s₁.dataPages → s'.mem y = s₁.mem y := by
    intro y hy
    exact hb.grows.wrote.elsewhere y fun ht => (hgrown hy).2 ht
  have hwindow := hG.window
  have hmem := hG.mem
  have helsewhere : ∀ y, y / 4096 < pgd ∨ pgd + block_pages order ≤ y / 4096 → s₁.mem y = s.mem y :=
    fun y hy => hG.mem_elsewhere hy
  generalize block_pages order = n at *
  generalize hp : va.toNat / 4096 = p at *
  have hdist : ∀ v : UInt64, v.toNat < 2 ^ 47 → (distance (page_number va) (page_number v) < n ↔
      p ≤ v.toNat / 4096 ∧ v.toNat / 4096 < p + n) ∧ (p ≤ v.toNat / 4096 →
      distance (page_number va) (page_number v) = v.toNat / 4096 - p) := by
    intro v hv
    rw [page_number_lower hva, page_number_lower hv, hp]
    unfold distance
    omega
  exact {
    sound := hsound
    drawn := hG.spends.drawn.trans hb.grows.drawn
    data := by
      refine Set.Subset.trans ?_ hgrown
      rw [hdata]
      exact Set.subset_union_left
    window := hwindow
    fresh := fun v pa hpa => by
      by_cases hin : distance (page_number va) (page_number v) < n
      · obtain ⟨pa', hpa', hto'⟩ := hb.inside v hin
        obtain rfl := Option.some.inj (hpa'.symm.trans hpa)
        exact .inr (hfree _ (by omega) (by omega)).1
      · rw [hb.outside v (by omega), hbefore] at hpa
        exact .inl hpa
    inside := fun v hv hle hlt => by
      obtain ⟨pa, hpa, hto'⟩ := hb.inside v ((hdist v hv).1.mpr ⟨hle, hlt⟩)
      refine ⟨pa, hpa, ?_⟩
      rw [hto', hto, (hdist v hv).2 hle]
      omega
    outside := fun v hv hout => by
      have hfar := mt (hdist v hv).1.mp hout
      exact (hb.outside v (by omega)).trans (hbefore v)
    blank := fun y hle hlt => by
      rw [hkept y (by rw [hdata]; exact .inr ⟨hle, hlt⟩), hmem]
      exact write_inside _ (by omega) (by omega)
    old := fun v pa hpa => by
      have hlands := h.lands v pa hpa
      have hnot : ¬ (pgd ≤ pa.toNat / 4096 ∧ pa.toNat / 4096 < pgd + n) :=
        fun hin => h.inv.owned_kept _ hlands.1 (hfree _ hin.1 hin.2).1
      refine ⟨hnot, ?_⟩
      rw [hkept _ (by rw [hdata]; exact .inl hlands), helsewhere _ (by omega)] }

theorem Brings.apart {p n pgd : ℕ} (hb : Brings P s p n pgd s') (h : Loading P a₀ D m s)
    {v w pa qa : UInt64} (hv : v.toNat < 2 ^ 47) (hw : w.toNat < 2 ^ 47)
    (hpa : s'.translate v = some pa) (hqa : s'.translate w = some qa)
    (heq : pa.toNat / 4096 = qa.toNat / 4096) : v.toNat / 4096 = w.toNat / 4096 := by
  by_cases hinv : p ≤ v.toNat / 4096 ∧ v.toNat / 4096 < p + n
  · obtain ⟨pa', hpa', hto⟩ := hb.inside v hv hinv.1 hinv.2
    obtain rfl := Option.some.inj (hpa'.symm.trans hpa)
    by_cases hinw : p ≤ w.toNat / 4096 ∧ w.toNat / 4096 < p + n
    · obtain ⟨qa', hqa', hto'⟩ := hb.inside w hw hinw.1 hinw.2
      obtain rfl := Option.some.inj (hqa'.symm.trans hqa)
      omega
    · rw [hb.outside w hw hinw] at hqa
      have hnot := (hb.old w qa hqa).1
      omega
  · rw [hb.outside v hv hinv] at hpa
    have hnot := (hb.old v pa hpa).1
    by_cases hinw : p ≤ w.toNat / 4096 ∧ w.toNat / 4096 < p + n
    · obtain ⟨qa', hqa', hto'⟩ := hb.inside w hw hinw.1 hinw.2
      obtain rfl := Option.some.inj (hqa'.symm.trans hqa)
      omega
    · rw [hb.outside w hw hinw] at hqa
      exact h.apart v w pa qa hv hw hpa hqa heq

/-- A block that was given is found where it was asked for, and is blank. -/
theorem brought {p n pgd : ℕ} (h : Loading P a₀ D m s) (hb : Brings P s p n pgd s')
    (hhalf : p + n ≤ 2 ^ 35) : Loading P a₀ D (m.block 0 p n) s' where
  sound := hb.sound
  drawn := h.drawn.trans hb.drawn
  data := h.data.trans hb.data
  off v pa hpa hD := by
    rcases hb.fresh v pa hpa with hbefore | hfree
    · exact h.off v pa hbefore hD
    · exact h.sound.inv.owned_kept _ (h.data hD).1 hfree
  byte v hv := by
    unfold Image.block
    dsimp only
    split
    next hin =>
      obtain ⟨pa, hpa, hto⟩ := hb.inside v hv hin.1 hin.2
      rw [hpa, Option.map_some, hb.blank _ (by omega) (by omega)]
    next hout =>
      rw [hb.outside v hv hout, ← h.byte v hv]
      cases hpa : s.translate v with
      | none => rfl
      | some pa => rw [Option.map_some, Option.map_some, (hb.old v pa hpa).2]
  below a b hbyte := by
    unfold Image.block at hbyte
    dsimp only at hbyte
    split at hbyte
    · omega
    · exact h.below a b hbyte
  unmapped v hv hzero := by
    unfold Image.block at hzero
    dsimp only at hzero
    have hout : ¬ (p ≤ v.toNat / 4096 ∧ v.toNat / 4096 < p + n) := by
      rintro ⟨hle, hlt⟩
      rw [if_pos hle, if_pos hlt] at hzero
      omega
    rw [hb.outside v hv hout]
    apply h.unmapped v hv
    split_ifs at hzero <;> omega
  row q hq := by
    have hwindow := hb.window
    unfold Image.block at hq ⊢
    dsimp only at hq ⊢
    split_ifs at hq ⊢ with hle hlt
    · refine ⟨by omega, pgd + (q - p), by omega, fun v hv hqv hvq => ?_⟩
      obtain ⟨pa, hpa, hto⟩ := hb.inside v hv (by omega) (by omega)
      exact ⟨pa, hpa, by omega⟩
    · obtain ⟨hbound, frame, hframe, hin⟩ := h.row q hq
      refine ⟨hbound, frame, hframe, fun v hv hqv hvq => ?_⟩
      rw [hb.outside v hv (by omega)]
      exact hin v hv hqv hvq
    · obtain ⟨hbound, frame, hframe, hin⟩ := h.row q (by omega)
      refine ⟨by omega, frame, by omega, fun v hv hqv hvq => ?_⟩
      rw [hb.outside v hv (by omega)]
      exact hin v hv hqv (by omega)
  apart _ _ _ _ hv hw hpa hqa heq := hb.apart h hv hw hpa hqa heq

/-! ### Copies -/

theorem inARow (h : Loading P a₀ D m s) (hva : va.toNat < 2 ^ 47)
    (hrow : m.row (va.toNat / 4096) ≠ 0) (hfits : m.Fits va.toNat size.toNat) : ∃ pa,
    InARow s va size pa ∧ (∀ i < size.toNat, (va + UInt64.ofNat i).toNat = va.toNat + i ∧
      va.toNat + i < 2 ^ 47) ∧ ∀ i < size.toNat,
      s.translate (va + UInt64.ofNat i) = some (pa + UInt64.ofNat i) := by
  have hsize : PMEM_VA_SIZE = 2 ^ 32 := rfl
  unfold Image.Fits at hfits
  obtain ⟨hbound, frame, hwindow, hin⟩ := h.row _ hrow
  obtain ⟨pa, hpa, hto⟩ := hin va hva le_rfl (by omega)
  have haddr : ∀ i < size.toNat, (va + UInt64.ofNat i).toNat = va.toNat + i ∧
      va.toNat + i < 2 ^ 47 := by
    intro i hi
    rw [UInt64.toNat_add, UInt64.toNat_ofNat']
    omega
  have hrest : ∀ i < size.toNat,
      s.translate (va + UInt64.ofNat i) = some (pa + UInt64.ofNat i) := by
    intro i hi
    obtain ⟨heq, hlt⟩ := haddr i hi
    obtain ⟨qa, hqa, hto'⟩ := hin (va + UInt64.ofNat i) (by omega) (by omega) (by omega)
    rw [hqa]
    apply congrArg
    apply UInt64.toNat_inj.mp
    rw [hto', heq, UInt64.toNat_add, UInt64.toNat_ofNat']
    omega
  have hmapped : ∀ {v qa : UInt64}, v.toNat < 2 ^ 47 → s.translate v = some qa → MappedTo s v qa := by
    intro v qa hv hqa
    rw [MappedTo, get_mapping_eq h.sound.inv (not_kernel_of_lower hv), hqa]
  refine ⟨pa, ⟨hmapped hva hpa, by omega, by omega, fun i hi => ?_⟩, haddr, hrest⟩
  obtain ⟨heq, hlt⟩ := haddr i hi
  exact hmapped (by omega) (hrest i hi)

/-- What is outside of a range in a row is outside of the memory behind it. -/
theorem outside_row (h : Loading P a₀ D m s) {pa v qa : UInt64} (hin : InARow s va size pa)
    (haddr : ∀ i < size.toNat, (va + UInt64.ofNat i).toNat = va.toNat + i ∧ va.toNat + i < 2 ^ 47)
    (hrest : ∀ i < size.toNat, s.translate (va + UInt64.ofNat i) = some (pa + UInt64.ofNat i))
    (hv : v.toNat < 2 ^ 47) (hout : ¬ (va.toNat ≤ v.toNat ∧ v.toNat < va.toNat + size.toNat))
    (hqa : s.translate v = some qa) :
    qa.toNat < pa.toNat ∨ pa.toNat + size.toNat ≤ qa.toNat := by
  by_contra hinside
  obtain ⟨i, hi, hqi⟩ : ∃ i < size.toNat, qa.toNat = pa.toNat + i :=
    ⟨qa.toNat - pa.toNat, by omega, by omega⟩
  obtain ⟨hto, hlt⟩ := haddr i hi
  have hpa := hin.toNat_pa_add hi
  -- The frame has no other address, and the offset in the page is that of the address.
  have hpage := h.apart v _ _ _ hv (by omega) hqa (hrest i hi) (by rw [hpa, hqi])
  have hoff := (h.mapped hv hqa).2
  have hoff' := (h.mapped (by omega) (hrest i hi)).2
  omega

/-- A copy into a row is found where it was made. -/
theorem copied (h : Loading P a₀ D m s) (hva : va.toNat < 2 ^ 47)
    (hrow : m.row (va.toNat / 4096) ≠ 0) (hfits : m.Fits va.toNat size.toNat)
    (src : ℕ → UInt8) : Ends (copy_to va src size) s
      (fun r s' => r = true ∧ Loading P a₀ D (m.copy va.toNat size.toNat src) s') E := by
  obtain ⟨pa, hin, haddr, hrest⟩ := h.inARow hva hrow hfits
  have hroom := hin.room
  have hown : ∀ i < size.toNat, ¬ KernelIndex (pml4_idx (va + UInt64.ofNat i)) := by
    intro i hi
    obtain ⟨heq, hlt⟩ := haddr i hi
    exact not_kernel_of_lower (by omega)
  have heq := copy_to_mapped hin.first src size
  rw [if_pos hin.shown, if_pos hroom] at heq
  rw [ends_of_eq heq]
  have hw := h.sound.copied_write src hin hown
  have htranslate := hw.translate_eq h.sound.inv
  exact ⟨rfl, {
    sound := h.sound.dataWrite hw
    drawn := by
      rw [hw.pgalloc]
      exact h.drawn
    data := by
      rw [hw.dataPages_eq h.sound.inv]
      exact h.data
    off := fun v qa hqa => h.off v qa ((htranslate v).symm.trans hqa)
    byte := fun v hv => by
      rw [htranslate]
      unfold Image.copy
      dsimp only
      split
      next hwithin =>
        obtain ⟨i, hi, hvi⟩ : ∃ i < size.toNat, va + UInt64.ofNat i = v := by
          refine ⟨v.toNat - va.toNat, by omega, ?_⟩
          apply UInt64.toNat_inj.mp
          rw [UInt64.toNat_add, UInt64.toNat_ofNat']
          omega
        rw [← hvi, hrest i hi, Option.map_some, hin.toNat_pa_add hi, (haddr i hi).1]
        show some (write s.mem pa.toNat size.toNat src _) = _
        rw [write_inside _ (by omega) (by omega), Nat.add_sub_cancel_left, Nat.add_sub_cancel_left]
      next hout =>
        rw [← h.byte v hv]
        cases hqa : s.translate v with
        | none => rfl
        | some qa =>
          rw [Option.map_some, Option.map_some]
          apply congrArg
          exact write_outside _ (h.outside_row hin haddr hrest hv hout hqa)
    below := fun a b hb => by
      unfold Image.copy at hb
      dsimp only at hb
      split at hb
      · obtain ⟨-, hlt⟩ := haddr (a - va.toNat) (by omega)
        omega
      · exact h.below a b hb
    unmapped := fun v hv hzero => (htranslate v).trans (h.unmapped v hv hzero)
    row := fun p hp => by
      obtain ⟨hbound, frame, hwindow, hin⟩ := h.row p hp
      refine ⟨hbound, frame, hwindow, fun v hv hpv hvp => ?_⟩
      rw [htranslate]
      exact hin v hv hpv hvp
    apart := fun v w pa qa hv hw' hpa hqa => h.apart v w pa qa hv hw'
      ((htranslate v).symm.trans hpa) ((htranslate w).symm.trans hqa) }⟩

theorem copy_to (h : Loading P a₀ D m s) (hva : va.toNat < 2 ^ 47)
    (hfits : m.Fits va.toNat size.toNat) (src : ℕ → UInt8) : Ends (copy_to va src size) s
      (fun r s' => (m.row (va.toNat / 4096) ≠ 0 → r = true) ∧
        Loading P a₀ D (m.copy va.toNat size.toNat src) s') E := by
  by_cases hrow : m.row (va.toNat / 4096) = 0
  · have hzero : size.toNat = 0 := by
      unfold Image.Fits at hfits
      omega
    have hnone := get_mapping_eq h.sound.inv (not_kernel_of_lower hva)
    rw [h.unmapped va hva hrow] at hnone
    rw [ends_of_eq (copy_to_unmapped hnone), hzero, Image.copy_zero]
    exact ⟨fun hne => absurd hrow hne, h⟩
  · exact ends_mono (h.copied hva hrow hfits src) fun _ _ hr => ⟨fun _ => hr.1, hr.2⟩

theorem is_mapped (h : Loading P a₀ D m s) (hva : va.toNat < 2 ^ 47) :
    Ends (is_mapped va) s (fun r s' => (r = true ↔ m.row (va.toNat / 4096) ≠ 0) ∧ s' = s) E := by
  unfold Vma.is_mapped
  rw [ends_bind]
  apply ends_mono (get_mapping_spec h.sound.inv (not_kernel_of_lower hva))
  rintro r s ⟨rfl, rfl⟩
  rw [ends_pure]
  refine ⟨?_, rfl⟩
  cases hpa : s.translate va with
  | none =>
    simp only [Option.isSome_none, Bool.false_eq_true, false_iff, not_not]
    by_contra hrow
    obtain ⟨-, frame, -, hin⟩ := h.row _ hrow
    obtain ⟨pa, hpa', -⟩ := hin va hva le_rfl (by omega)
    rw [hpa] at hpa'
    cases hpa'
  | some pa => simp [(h.mapped hva hpa).1]

theorem refused (h : Loading P a₀ D m s) (hdrawn : Drawn P s.pgalloc s'.pgalloc)
    (hs : s' = { s with pgalloc := s'.pgalloc }) : Loading P a₀ D m s' := by
  have hsound := h.sound.refused hdrawn.free hs
  generalize s'.pgalloc = a at hdrawn hs
  subst hs
  exact ⟨hsound, h.drawn.trans hdrawn, h.data, h.off, h.byte, h.below, h.unmapped, h.row, h.apart⟩

/-- A run that stops from here on stops when the same source refuses a block. -/
theorem halted {e : Halt α} (h : Loading P a₀ D m s) (he : Halted P s e) : Refused P a₀ e := by
  obtain ⟨hfault, order, b, hdrawn, hrefuses⟩ := he.refused
  exact ⟨hfault, order, b, h.drawn.trans hdrawn, hrefuses⟩

end Loading

/-! ## Requests that are granted -/

/-- The allocator never returns `NULL`. -/
def NeverNull (P : PageSource α) : Prop := ∀ order a a', P.alloc_pages order a ≠ .ok (none, a')

/-- The buddy allocator asserts instead. -/
theorem pgalloc_neverNull (nr : ℕ) : NeverNull (pgalloc nr) := by
  intro order a a' h
  obtain ⟨pfn, hpfn, -⟩ := pgalloc_takes h
  cases hpfn

theorem allocate_phys_granted (hP : NeverNull P) (order : Int) :
    Ends (allocate_phys P order) s (fun r _ => r ≠ none) fun _ => True := by
  unfold allocate_phys alloc_pages
  simp only [ends_bind, ends_get]
  cases halloc : P.alloc_pages order s.pgalloc with
  | error _ => trivial
  | ok r =>
    obtain ⟨pgd, a⟩ := r
    cases pgd with
    | none => exact absurd halloc (hP _ _ _)
    | some pgd =>
      simp only [ends_bind, ends_modify, ends_pure]
      apply ends_any (fun _ _ => ?_) fun _ => trivial
      exact ends_any (fun _ _ => Option.some_ne_none _) fun _ => trivial

theorem allocate_virt_granted (hP : NeverNull P) (va : UInt64) (nr_pages : Int32) :
    Ends (allocate_virt P va nr_pages) s (fun r _ => r = false → nr_pages = 0) fun _ => True := by
  unfold allocate_virt
  apply ends_ite
  · intro hzero
    rw [ends_pure]
    exact fun _ => hzero
  · intro _
    simp only [ends_bind]
    apply ends_mono (allocate_phys_granted hP _)
    intro r s₁ hr
    cases r with
    | none => exact absurd rfl hr
    | some pgd =>
      simp only [ends_bind, ends_pure]
      exact ends_any (fun _ _ h => Bool.noConfusion h) fun _ => trivial

theorem Loading.allocate_virt (hP : NeverNull P) (h : Loading P a₀ D m s) (nr_pages : Int32)
    (hva : va.toNat < 2 ^ 47) (hhalf : va.toNat / 4096 + virt_pages nr_pages ≤ 2 ^ 35) :
    Ends (allocate_virt P va nr_pages) s (fun _ s' =>
      Loading P a₀ D (m.block 0 (va.toNat / 4096) (virt_pages nr_pages)) s') (Refused P a₀) := by
  have hown : OwnPages (page_number va) (virt_pages nr_pages) := by
    apply ownPages_lower
    rwa [page_number_lower hva]
  apply ends_weaken (ends_and (allocate_virt_given h.sound.inv hown)
    (allocate_virt_granted hP va nr_pages)) ?_ fun _ => h.halted
  rintro r s' ⟨hr, hzero⟩
  cases r with
  | false =>
    obtain rfl := hzero rfl
    have hpages : virt_pages 0 = 0 := if_pos (.inl rfl)
    rw [hpages]
    apply (h.refused hr.1 hr.2).shorter
    · funext a
      exact if_neg (by omega)
    · intro q
      unfold Image.block
      dsimp only
      split_ifs <;> omega
  | true =>
    obtain ⟨hne, pgd, s₁, hG, hb⟩ := hr
    rw [hG.virt_pages_eq hne] at hhalf ⊢
    exact h.brought (brings h.sound ⟨s₁, hG, hb⟩ hva hhalf) hhalf

/-! ## Loading -/

namespace ELF64ProgramHeaderEntry

/-- What a program header describes. -/
def segment (file : File) (ent : ELF64ProgramHeaderEntry) : Segment UInt8 where
  base := ent.vaddr.toNat
  size := ent.memsz.toNat
  filled := ent.filesz.toNat
  pages := ent.pages
  data := (file.pread ent.filesz ent.offset).2
  fresh := false

end ELF64ProgramHeaderEntry

section Headers

variable {file : File} {hdr : ELF64Header} {left i : ℕ}

/-- What is read for the `i`-th program header. -/
def header_at (file : File) (hdr : ELF64Header) (i : ℕ) : Int32 × Memory :=
  file.pread sizeof_ELF64ProgramHeaderEntry (hdr.phoff + UInt64.ofNat (i * hdr.phentsize.toNat))

theorem loadable_short (h : (header_at file hdr i).1 ≠ 56) :
    loadable file hdr (left + 1) i = [] := if_pos h

theorem loadable_load (h : ¬ (header_at file hdr i).1 ≠ 56)
    (htype : (ELF64ProgramHeaderEntry.ofBytes (header_at file hdr i).2).type = 1) :
    loadable file hdr (left + 1) i =
      .ofBytes (header_at file hdr i).2 :: loadable file hdr left (i + 1) :=
  (if_neg h).trans (if_pos htype)

theorem loadable_skip (h : ¬ (header_at file hdr i).1 ≠ 56)
    (htype : (ELF64ProgramHeaderEntry.ofBytes (header_at file hdr i).2).type ≠ 1) :
    loadable file hdr (left + 1) i = loadable file hdr left (i + 1) :=
  (if_neg h).trans (if_neg htype)

theorem load_segments_succ (P : PageSource α) : load_segments P file hdr (left + 1) i =
    let ent := ELF64ProgramHeaderEntry.ofBytes (header_at file hdr i).2
    if (header_at file hdr i).1 ≠ 56 then pure false
    else if ent.type = 1 then do
      load_segment P file ent
      load_segments P file hdr left (i + 1)
    else load_segments P file hdr left (i + 1) := rfl

end Headers

namespace Loading

variable {file : File} {ent : ELF64ProgramHeaderEntry}

theorem load_segment (hP : NeverNull P) (h : Loading P a₀ D m s) (hva : ent.vaddr.toNat < 2 ^ 47)
    (hhalf : m.Brings (ent.segment file) → ent.vaddr.toNat / 4096 + ent.pages ≤ 2 ^ 35)
    (hfits : (m.room 0 (ent.segment file)).Fits ent.vaddr.toNat ent.filesz.toNat) :
    Ends (load_segment P file ent) s
      (fun _ s' => Loading P a₀ D (m.add 0 (ent.segment file)) s') (Refused P a₀) := by
  have hbrings : m.Brings (ent.segment file) ↔ m.row (ent.vaddr.toNat / 4096) = 0 :=
    or_iff_right Bool.false_ne_true
  have hroom : m.room 0 (ent.segment file) =
      if m.Brings (ent.segment file) then m.block 0 (ent.vaddr.toNat / 4096) ent.pages else m := rfl
  unfold Exec.load_segment
  rw [ends_bind]
  apply ends_mono (h.is_mapped hva)
  rintro mapped s ⟨hmapped, rfl⟩
  cases mapped with
  | true =>
    simp only [Bool.not_true, Bool.false_eq_true, if_false, ends_bind, ends_pure]
    rw [if_neg (mt hbrings.mp (hmapped.mp rfl))] at hroom
    rw [hroom] at hfits
    apply ends_mono (h.copy_to hva hfits (file.pread ent.filesz ent.offset).2)
    intro _ s₁ h₁
    unfold Image.add
    rw [hroom]
    exact h₁.2
  | false =>
    simp only [Bool.not_false, if_true, ends_bind, ends_pure]
    have hrow : m.row (ent.vaddr.toNat / 4096) = 0 := by
      by_contra hne
      exact Bool.false_ne_true (hmapped.mpr hne)
    rw [if_pos (hbrings.mpr hrow)] at hroom
    apply ends_mono (h.allocate_virt hP _ hva (hhalf (hbrings.mpr hrow)))
    intro _ s₁ h₁
    rw [show virt_pages (page_count ent.memsz) = ent.pages from rfl, ← hroom] at h₁
    exact ends_mono (h₁.copy_to hva hfits _) fun _ _ h₂ => h₂.2

theorem load_segments (hP : NeverNull P) {hdr : ELF64Header} {left i : ℕ}
    (h : Loading P a₀ D m s) (hva : ∀ ent ∈ loadable file hdr left i, ent.vaddr.toNat < 2 ^ 47)
    (hfit : Image.Fitting 0 (2 ^ 35) m ((loadable file hdr left i).map (·.segment file))) :
    Ends (load_segments P file hdr left i) s (fun r s' =>
      ((∀ j < left, (header_at file hdr (i + j)).1 = 56) → r = true) ∧ Loading P a₀ D
        (((loadable file hdr left i).map (·.segment file)).foldl (Image.add 0) m) s')
      (Refused P a₀) := by
  induction left generalizing m s i with
  | zero =>
    rw [Exec.load_segments, ends_pure]
    exact ⟨fun _ => rfl, h⟩
  | succ left ih =>
    have hnext : (∀ j < left + 1, (header_at file hdr (i + j)).1 = 56) →
        ∀ j < left, (header_at file hdr (i + 1 + j)).1 = 56 := by
      intro hread j hj
      rw [show i + 1 + j = i + (j + 1) by omega]
      exact hread _ (by omega)
    rw [load_segments_succ]
    dsimp only
    by_cases hshort : (header_at file hdr i).1 ≠ 56
    · rw [loadable_short hshort, if_pos hshort, ends_pure]
      exact ⟨fun hread => absurd (hread 0 (by omega)) hshort, h⟩
    rw [if_neg hshort]
    by_cases htype : (ELF64ProgramHeaderEntry.ofBytes (header_at file hdr i).2).type = 1
    · rw [loadable_load hshort htype] at hva hfit ⊢
      simp only [List.map_cons, List.foldl_cons] at hfit ⊢
      obtain ⟨hhalf, hfits, hrest⟩ := hfit
      rw [if_pos htype, ends_bind]
      apply ends_mono (h.load_segment hP (hva _ List.mem_cons_self) hhalf hfits)
      intro _ s₁ h₁
      apply ends_mono (ih h₁ (fun ent hent => hva ent (List.mem_cons_of_mem _ hent)) hrest)
      exact fun _ _ hr => ⟨fun hread => hr.1 (hnext hread), hr.2⟩
    · rw [loadable_skip hshort htype] at hva hfit ⊢
      rw [if_neg htype]
      exact ends_mono (ih h hva hfit) fun _ _ hr => ⟨fun hread => hr.1 (hnext hread), hr.2⟩

/-! ### The stack and the command line -/

theorem store_word (h : Loading P a₀ D m s) {a : ℕ} (v : UInt64) (ha : InData D a 8) :
    Ends (store_word a v) s (fun _ => Loading P a₀ D m) E := by
  rw [ends_store_word ha.window]
  apply h.wrote (wrote_put s ha.pages fun y hy => store64_outside _ hy) rfl rfl rfl

end Loading

def CmdLine.segment (cmdline : CmdLine) : Segment UInt8 where
  base := 0x102000
  size := 4096
  filled := cmdline.length.toNat
  pages := 1
  data := cmdline.c_str
  fresh := true

namespace Loading

variable {t : ThreadContext} {cmdline : CmdLine}

end Loading

/-! ## The whole program -/

/-- The kernel's entries lead nowhere of the process's own. -/
theorem translate_kernel {v : UInt64} (hv : KernelIndex (pml4_idx v)) : s.translate v = none := by
  have hnext : next s.mem s._pgt_virt_base s._pgt_virt_base (pml4_idx v) = none := by
    apply if_neg
    rintro ⟨⟨-, -, hnot⟩, -⟩
    exact hnot ⟨rfl, hv⟩
  unfold State.translate State.table path
  rw [Radix.walk, hnext]
  rfl

/-- The byte at an address, as `get_mapping` finds it. -/
def Finds (s : State α) (a : ℕ) (b : UInt8) : Prop :=
  ∃ pa, MappedTo s (UInt64.ofNat a) pa ∧ s.mem pa.toNat = b

theorem Loading.finds_iff (h : Loading P a₀ D m s) {a : ℕ} (ha : a < 2 ^ 47) (b : UInt8) :
    Finds s a b ↔ m.byte a = some b := by
  have hto : (UInt64.ofNat a).toNat = a := by
    rw [UInt64.toNat_ofNat']
    omega
  have hget := get_mapping_eq h.sound.inv (v := UInt64.ofNat a) (not_kernel_of_lower (by omega))
  have hbyte := h.byte (UInt64.ofNat a) (by omega)
  rw [hto] at hbyte
  rw [← hbyte, Option.map_eq_some_iff]
  unfold Finds MappedTo
  rw [hget]
  simp

end Infos.Exec
