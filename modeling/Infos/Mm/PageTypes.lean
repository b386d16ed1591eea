import Infos.Mm.PageAllocator

/-!
# Types and free lists agree

After `init` a page is free in the algorithm exactly when its type says so, and every allocation
and every free keeps it that way.
-/

open Infos.Blocks Infos.Prog Infos.PtrList Infos.Buddy

namespace Infos.Mm

variable {nr : ℕ} {ty : ℕ → PageDescriptorType} {h h' : Mem} {s : State} {F : FreeSet nr maxOrder}

/-! ## Changing types -/

@[simp]
theorem links_setType (h : Mem) (type : PageDescriptorType) (p : ℕ) :
    (setType h type p).links = h.links := by
  have hnext : ∀ x, ((setType h type p).pgd x).next_free = (h.pgd x).next_free := by
    intro x
    by_cases hx : x = p
    · subst hx
      simp [setType]
    · simp [setType, hx]
  simp only [Mem.links, hnext]
  rfl

theorem type_setType (h : Mem) (type : PageDescriptorType) (p i : ℕ) :
    ((setType h type p).pgd i).type = if i = p then type else (h.pgd i).type := by
  by_cases hi : i = p
  · subst hi
    simp [setType]
  · simp [setType, hi]

@[simp]
theorem returns_load_type (p : ℕ) (h : Mem) (Q : PageDescriptorType → Mem → Prop) :
    Returns (load_type p) h Q ↔ Q (h.pgd p).type (h.visit (.node p)) := by
  constructor
  · rintro ⟨a, h', e, hq⟩
    cases e
    exact hq
  · intro hq
    exact ⟨_, _, rfl, hq⟩

@[simp]
theorem returns_store_type (type : PageDescriptorType) (p : ℕ) (h : Mem) (Q : Unit → Mem → Prop) :
    Returns (store_type type p) h Q ↔ Q () ((setType h type p).visit (.node p)) :=
  returns_modify ..

/-- The lists are untouched, and the types are `ty` now. -/
structure Retyped (h h' : Mem) (pages : ℕ → Prop) (type : PageDescriptorType) : Prop where
  links : h'.links = h.links
  types : ∀ i, pages i → (h'.pgd i).type = type
  others : ∀ i, ¬ pages i → (h'.pgd i).type = (h.pgd i).type
  touched : ∀ i ∈ h'.touched, pages i ∨ i ∈ h.touched

theorem retyped_self (h : Mem) (pages : ℕ → Prop) (type : PageDescriptorType)
    (hno : ∀ i, ¬ pages i) : Retyped h h pages type :=
  ⟨rfl, fun i hi => absurd hi (hno i), fun _ _ => rfl, fun _ hi => Or.inr hi⟩

/-- One page, and then the others. -/
theorem Retyped.cons {pages : ℕ → Prop} {type : PageDescriptorType} {p : ℕ} {k : Mem}
    (hlinks : k.links = h.links)
    (htypes : ∀ i, (k.pgd i).type = if i = p then type else (h.pgd i).type)
    (htouched : ∀ i ∈ k.touched, i = p ∨ i ∈ h.touched) (hr : Retyped k h' pages type) :
    Retyped h h' (fun i => i = p ∨ pages i) type := by
  refine ⟨hr.links.trans hlinks, fun i hi => ?_, fun i hi => ?_, fun i hi => ?_⟩
  · by_cases hpages : pages i
    · exact hr.types i hpages
    · rw [hr.others i hpages, htypes, if_pos (hi.resolve_right hpages)]
  · rw [not_or] at hi
    rw [hr.others i hi.2, htypes, if_neg hi.1]
  · rcases hr.touched i hi with hpages | hk
    · exact Or.inl (Or.inr hpages)
    · rcases htouched i hk with rfl | hh
      · exact Or.inl (Or.inl rfl)
      · exact Or.inr hh

theorem Retyped.congr {pages pages' : ℕ → Prop} {type : PageDescriptorType}
    (hr : Retyped h h' pages type) (hp : ∀ i, pages i ↔ pages' i) : Retyped h h' pages' type := by
  obtain rfl : pages = pages' := funext fun i => propext (hp i)
  exact hr

theorem store_types_spec (type : PageDescriptorType) (l : List ℕ) (h : Mem) :
    Returns (forM l (store_type type)) h fun _ h' => Retyped h h' (· ∈ l) type := by
  induction l generalizing h with
  | nil =>
    rw [List.forM_nil, returns_pure]
    exact retyped_self h _ type fun i => List.not_mem_nil
  | cons p l ih =>
    rw [List.forM_cons, returns_bind, returns_store_type]
    apply returns_mono (ih _)
    rintro - h' hr
    refine (hr.cons (h := h) (p := p) ?_ ?_ ?_).congr fun i => by rw [List.mem_cons]
    · rw [links_visit, links_setType]
    · intro i
      rw [pgd_visit, type_setType]
    · intro i hi
      exact List.mem_cons.mp hi

theorem mark_block_spec (old new : PageDescriptorType) (p left i : ℕ)
    (hold : ∀ x, p + i ≤ x → x < p + i + left → (h.pgd x).type = old) :
    Returns (mark_block old new (some p) left i) h fun _ h' =>
      Retyped h h' (fun x => p + i ≤ x ∧ x < p + i + left) new := by
  induction left generalizing i h with
  | zero =>
    rw [mark_block, returns_pure]
    exact retyped_self h _ new fun x => by omega
  | succ left ih =>
    simp only [mark_block, returns_bind, returns_deref, returns_load_type, returns_assert,
      beq_iff_eq, returns_store_type]
    refine ⟨hold _ le_rfl (by omega), ?_⟩
    have hold' : ∀ x, p + (i + 1) ≤ x → x < p + (i + 1) + left →
        (((setType (h.visit (.node (p + i))) new (p + i)).visit (.node (p + i))).pgd x).type =
          old := by
      intro x hle hlt
      rw [pgd_visit, type_setType, if_neg (by omega), pgd_visit]
      exact hold x (by omega) (by omega)
    apply returns_mono (ih (i + 1) hold')
    rintro - h' hr
    refine (hr.cons (h := h) (p := p + i) ?_ ?_ ?_).congr fun x => by omega
    · rw [links_visit, links_setType, links_visit]
    · intro x
      rw [pgd_visit, type_setType, pgd_visit]
    · intro x hx
      rcases List.mem_cons.mp hx with rfl | hx
      · exact Or.inl rfl
      · exact List.mem_cons.mp hx

theorem Retyped.rep {type : PageDescriptorType} {pages : ℕ → Prop} (hr : Retyped h h' pages type)
    (R : Rep nr ty h F) (hp : ∀ i, pages i → i < nr) : Rep nr (fun i => (h'.pgd i).type) h' F where
  list := by rw [hr.links]; exact R.list
  null := by rw [hr.links]; exact R.null
  types _ := rfl
  bounded i hi := by
    rcases hr.touched i hi with hpages | hh
    · exact Or.inl (hp i hpages)
    · exact R.bounded i hh

/-! ## Initialising -/

@[simp]
theorem returns_kva_to_pa (va : UInt64) (h : Mem) (Q : UInt64 → Mem → Prop) :
    Returns (kva_to_pa va) h Q ↔ va ≥ KERNEL_VMEM_START ∧ Q (va - KERNEL_VMEM_START) h := by
  unfold kva_to_pa
  simp only [returns_bind, returns_assert, decide_eq_true_eq, returns_pure]

namespace KernelImage

variable (img : KernelImage)

theorem start_toNat : KERNEL_VMEM_START.toNat = 0xFFFFFFFF80000000 := rfl

theorem stack_start_ge : img._STACK_START ≥ KERNEL_VMEM_START := by
  have hk := img.in_kernel
  rw [start_toNat] at hk
  rw [ge_iff_le, UInt64.le_iff_toNat_le, start_toNat]
  omega

theorem stack_end_ge : img._STACK_END ≥ KERNEL_VMEM_START := by
  have hk := img.in_kernel
  have := img.room
  rw [start_toNat] at hk
  rw [ge_iff_le, UInt64.le_iff_toNat_le, start_toNat, _STACK_END, UInt64.toNat_add]
  show _ ≤ (img._STACK_START.toNat + 0x2000) % 2 ^ 64
  omega

theorem heap_start_ge : img._HEAP_START ≥ KERNEL_VMEM_START := by
  have hk := img.in_kernel
  have := img.room
  rw [start_toNat] at hk
  rw [ge_iff_le, UInt64.le_iff_toNat_le, start_toNat, _HEAP_START, UInt64.toNat_add]
  show _ ≤ (img._STACK_START.toNat + 0x4000) % 2 ^ 64
  omega

def image_pfns : List ℕ :=
  pfn_range (pa_to_pfn _IMAGE_START) (pa_to_pfn img._IMAGE_END - pa_to_pfn _IMAGE_START + 1).toUInt32

def stack_pfns : List ℕ :=
  pfn_range (pa_to_pfn (img._STACK_START - KERNEL_VMEM_START))
    (pa_to_pfn (img._STACK_END - KERNEL_VMEM_START) -
      pa_to_pfn (img._STACK_START - KERNEL_VMEM_START) + 1).toUInt32

def heap_pfns (mm : MemoryManager) : List ℕ :=
  pfn_range (pa_to_pfn (img._HEAP_START - KERNEL_VMEM_START))
    (((mm.nr_pages * sizeof_PageDescriptor) >>> 12) + 1).toUInt32

end KernelImage

/-- Every index that `init` marks. -/
def marked (mm : MemoryManager) (img : KernelImage) : List ℕ :=
  mm.normal_pfns ++ pfn_range 0 1 ++ pfn_range 1 6 ++ img.image_pfns ++ img.stack_pfns ++
    img.heap_pfns mm

/-- What `init` marks behind the memory, and so takes out of it. -/
def kept_back (mm : MemoryManager) (img : KernelImage) : List ℕ :=
  pfn_range 0 1 ++ pfn_range 1 6 ++ img.image_pfns ++ img.stack_pfns ++ img.heap_pfns mm

theorem zeroed_bzero (hareas : ∀ k, h.free_areas k = none) (ht : h.touched = []) :
    Zeroed nr (bzero nr h) where
  areas := hareas
  next i hi := by simp [bzero, hi]
  touched := by simp [bzero, ht]

theorem Retyped.zeroed {l : List ℕ} {type : PageDescriptorType} (hr : Retyped h h' (· ∈ l) type)
    (hz : Zeroed nr h) (hl : ∀ i ∈ l, i < nr) : Zeroed nr h' where
  areas k := (congrFun (congrArg Links.area hr.links) k).trans (hz.areas k)
  next i hi := (congrFun (congrArg Links.next hr.links) i).trans (hz.next i hi)
  touched i hi := by
    rcases hr.touched i hi with hpages | hh
    · exact hl i hpages
    · exact hz.touched i hh

/-- Only `AVAILABLE` makes a page available. -/
theorem Retyped.available_iff {l : List ℕ} {type : PageDescriptorType}
    (hr : Retyped h h' (· ∈ l) type) (htype : type ≠ .AVAILABLE) (x : ℕ) :
    (h'.pgd x).type = .AVAILABLE ↔ (h.pgd x).type = .AVAILABLE ∧ x ∉ l := by
  by_cases hx : x ∈ l
  · simp [hr.types x hx, htype, hx]
  · simp [hr.others x hx, hx]

theorem setup_page_descriptors_spec {mm : MemoryManager} {img : KernelImage}
    (hfound : (lookup_phys_block mm (img._HEAP_START - KERNEL_VMEM_START)).isSome) :
    Returns (setup_page_descriptors mm img) h fun r h' =>
      r = true ∧ h' = bzero mm.nr_pages.toNat h := by
  obtain ⟨b, hb⟩ := Option.isSome_iff_exists.mp hfound
  unfold setup_page_descriptors
  simp only [returns_bind, returns_kva_to_pa, hb, returns_modify, returns_pure]
  exact ⟨img.heap_start_ge, trivial, trivial⟩

/-- The loop over the descriptors takes every page that is not available out of the lists. -/
theorem reserve_unavailable_spec (left pgd : ℕ) {res : List Block} (hsum : pgd + left = nr)
    (hi : Inv ty ⟨h, res⟩ F)
    (hres : ∀ x, (∃ b ∈ res, x ∈ b) ↔ x < pgd ∧ ty x ≠ .AVAILABLE) :
    Returns (reserve_unavailable (BuddyPageAllocator nr) left pgd) h fun r h' => r = true ∧
      ∃ (res' : List Block) (F' : FreeSet nr maxOrder), Inv ty ⟨h', res'⟩ F' ∧
        ∀ x, (∃ b ∈ res', x ∈ b) ↔ x < nr ∧ ty x ≠ .AVAILABLE := by
  induction left generalizing pgd h res F with
  | zero =>
    rw [reserve_unavailable, returns_pure]
    obtain rfl : pgd = nr := by omega
    exact ⟨rfl, res, F, hi, hres⟩
  | succ left ih =>
    have hin : SlotIn nr (.node pgd) := Or.inl (by omega)
    have hi₁ : Inv ty ⟨h.visit (.node pgd), res⟩ F := hi.of_rep (hi.rep.visit hin)
    have htype : (h.pgd pgd).type = ty pgd := hi.rep.types pgd
    simp only [reserve_unavailable, returns_bind, returns_load_type, htype]
    apply returns_ite
    · intro hne
      rw [returns_bind]
      -- No reserved block holds the page yet, so it is free.
      have hfree : pgd ∈ F.pages := by
        refine (hi.pages pgd).mpr ⟨by omega, fun b hb hx => ?_⟩
        exact lt_irrefl _ ((hres pgd).mp ⟨b, hb, hx⟩).1
      apply returns_mono (hi₁.reserve_page_spec pgd)
      rintro r h₂ ⟨hr, F₂, hi₂⟩
      obtain rfl : r = true := hr.mpr hfree
      rw [if_pos rfl] at hi₂ ⊢
      refine ih (pgd + 1) (by omega) hi₂ fun x => ?_
      have hone : x ∈ (⟨pgd, 0⟩ : Block) ↔ x = pgd := by
        simp only [Block.mem_iff, Block.stop, pow_zero]
        omega
      simp only [List.exists_mem_cons_iff, hone, hres]
      constructor
      · rintro (rfl | ⟨hx, hty⟩)
        · exact ⟨by omega, hne⟩
        · exact ⟨by omega, hty⟩
      · rintro ⟨hx, hty⟩
        by_cases hxp : x = pgd
        · exact Or.inl hxp
        · exact Or.inr ⟨by omega, hty⟩
    · intro hav
      refine ih (pgd + 1) (by omega) hi₁ fun x => ?_
      rw [hres]
      constructor
      · rintro ⟨hx, hty⟩
        exact ⟨by omega, hty⟩
      · rintro ⟨hx, hty⟩
        have hxp : x ≠ pgd := by
          rintro rfl
          exact hty (not_not.mp hav)
        exact ⟨by omega, hty⟩

/-- After `init` the free pages are those whose type is available, which are the pages of the memory
but for what is kept back. -/
theorem init_types_spec {mm : MemoryManager} {img : KernelImage} (hnr : nr = mm.nr_pages.toNat)
    (hmarked : ∀ i ∈ marked mm img, i < nr)
    (hfound : (lookup_phys_block mm (img._HEAP_START - KERNEL_VMEM_START)).isSome)
    (hareas : ∀ k, h.free_areas k = none) (ht : h.touched = []) :
    Returns (init (some (BuddyPageAllocator nr)) mm img) h fun r h' => r = true ∧
      ∃ (ty : ℕ → PageDescriptorType) (res : List Block) (F : FreeSet nr maxOrder),
        Inv ty ⟨h', res⟩ F ∧ (∀ x, (∃ b ∈ res, x ∈ b) ↔ x < nr ∧ ty x ≠ .AVAILABLE) ∧
        ∀ x < nr, ty x = .AVAILABLE ↔ x ∈ mm.normal_pfns ∧ x ∉ kept_back mm img := by
  subst hnr
  simp only [marked, List.mem_append, or_imp, forall_and] at hmarked
  obtain ⟨⟨⟨⟨⟨hnormal, hzero⟩, htables⟩, himage⟩, hstack⟩, hheap⟩ := hmarked
  have hz : Zeroed mm.nr_pages.toNat (bzero mm.nr_pages.toNat h) := zeroed_bzero hareas ht
  unfold init
  rw [returns_bind]
  apply returns_mono (setup_page_descriptors_spec hfound)
  rintro r _ ⟨rfl, rfl⟩
  rw [if_pos rfl]
  simp only [returns_bind, mark_page_range, returns_kva_to_pa]
  apply returns_mono (store_types_spec _ _ _)
  rintro - h₁ hr₁
  have hz₁ := hr₁.zeroed hz hnormal
  apply returns_mono (store_types_spec _ _ _)
  rintro - h₂ hr₂
  have hz₂ := hr₂.zeroed hz₁ hzero
  apply returns_mono (store_types_spec _ _ _)
  rintro - h₃ hr₃
  have hz₃ := hr₃.zeroed hz₂ htables
  apply returns_mono (store_types_spec _ _ _)
  rintro - h₄ hr₄
  have hz₄ := hr₄.zeroed hz₃ himage
  refine ⟨img.stack_start_ge, img.stack_end_ge, ?_⟩
  apply returns_mono (store_types_spec _ _ _)
  rintro - h₅ hr₅
  have hz₅ := hr₅.zeroed hz₄ hstack
  refine ⟨img.heap_start_ge, ?_⟩
  apply returns_mono (store_types_spec _ _ _)
  rintro - h₆ hr₆
  have hz₆ := hr₆.zeroed hz₅ hheap
  apply returns_mono (Buddy.init_spec hz₆)
  rintro r h₇ ⟨rfl, F, R, hone, hpages⟩
  rw [if_pos rfl]
  have hmemory : ∀ x < mm.nr_pages.toNat,
      (h₁.pgd x).type = .AVAILABLE ↔ x ∈ mm.normal_pfns := by
    intro x hx
    by_cases hin : x ∈ mm.normal_pfns
    · simp [hr₁.types x hin, hin]
    · simp [hr₁.others x hin, hin, bzero, hx]
  have havailable : ∀ x < mm.nr_pages.toNat,
      (h₆.pgd x).type = .AVAILABLE ↔ x ∈ mm.normal_pfns ∧ x ∉ kept_back mm img := by
    intro x hx
    rw [hr₆.available_iff (by decide), hr₅.available_iff (by decide),
      hr₄.available_iff (by decide), hr₃.available_iff (by decide),
      hr₂.available_iff (by decide), hmemory x hx]
    simp only [kept_back, KernelImage.image_pfns, KernelImage.stack_pfns, KernelImage.heap_pfns,
      List.mem_append, not_or, and_assoc]
  have hi : Inv (fun i => (h₆.pgd i).type) ⟨h₇, []⟩ F :=
    ⟨R, hone.coalesced, by simp, List.Pairwise.nil, fun x => by simp [hpages]⟩
  apply returns_mono (reserve_unavailable_spec mm.nr_pages.toNat 0 (by omega) hi (by simp))
  rintro r h₈ ⟨rfl, res, F', hi', hres⟩
  exact ⟨rfl, _, res, F', hi', hres, havailable⟩

theorem init_spec {mm : MemoryManager} {img : KernelImage} (hnr : nr = mm.nr_pages.toNat)
    (hmarked : ∀ i ∈ marked mm img, i < nr)
    (hfound : (lookup_phys_block mm (img._HEAP_START - KERNEL_VMEM_START)).isSome)
    (hareas : ∀ k, h.free_areas k = none) (ht : h.touched = []) :
    Returns (init (some (BuddyPageAllocator nr)) mm img) h fun r h' => r = true ∧
      ∃ (ty : ℕ → PageDescriptorType) (res : List Block) (F : FreeSet nr maxOrder),
        Inv ty ⟨h', res⟩ F ∧ (∀ x, (∃ b ∈ res, x ∈ b) ↔ x < nr ∧ ty x ≠ .AVAILABLE) ∧
        ty 0 ≠ .AVAILABLE := by
  apply returns_mono (init_types_spec hnr hmarked hfound hareas ht)
  rintro r h' ⟨hr, ty, res, F, hi, hres, havailable⟩
  refine ⟨hr, ty, res, F, hi, hres, fun hzero => ?_⟩
  have hin : 0 ∈ kept_back mm img := by simp [kept_back, pfn_range]
  have hlt : 0 < nr := hmarked 0 (by simp [marked, pfn_range])
  exact ((havailable 0 hlt).mp hzero).2 hin

end Infos.Mm
