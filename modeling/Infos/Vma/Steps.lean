import Infos.Vma.Requests
import Infos.Vma.Windows

/-!
# One call on the address space of a process

Every process has the kernel's entries in its top table. A call changes only memory that the
address space has, or is given by the call.
-/

open Infos.Bytes Infos.Prog Infos.Radix

namespace Infos.Vma

variable {α : Type} {P : PageSource α} {pages : ℕ} {s s' : State α}

/-! ## Plain entries stay plain -/

theorem Extends.plain {p : List ℕ} {t i pgd : ℕ} (h : Extends P s p t i pgd s') (hp : Plain s) :
    Plain s' := by
  intro q x j hq hx hf
  rw [h.root] at hf
  rw [h.table_eq hq] at hx
  split at hx
  · obtain rfl := Option.some.inj hx
    rw [h.entry_fresh hf.1]
    exact MMUTableEntry.plain_zero
  · by_cases hhere : x = t ∧ j = i
    · obtain ⟨rfl, rfl⟩ := hhere
      rw [h.entry_here]
      exact .inr (MMUTableEntry.flags_set_table (hp p x j h.short.le h.table h.follows) _)
    · rw [h.entry_other ⟨q, hq, hx⟩ hf.1 (by omega)]
      exact hp q x j hq hx hf

theorem Inv.plain_fill (hI : Inv P s) (hp : Plain s) {va : UInt64} {pt : ℕ}
    (ht : s.table (path va) = some pt) {e : MMUTableEntry} (he : e.Plain) :
    Plain (s.fill pt (pt_idx va) e) := by
  intro q x j hq hx hf
  rw [hI.table_fill (hI.leaf ht) e hq] at hx
  by_cases hhere : x = pt ∧ j = pt_idx va
  · obtain ⟨rfl, rfl⟩ := hhere
    show (entry (store64 _ _ _) _ _).Plain
    rwa [entry_store_same]
  · rw [hI.entry_fill (hI.leaf ht) e hf.2.1 hf.1 (by omega)]
    exact hp q x j hq hx hf

theorem next_table_plain {p : List ℕ} {t i : ℕ} (hI : Inv P s) (hplain : Plain s) (hp : p.length < 3)
    (ht : s.table p = some t) (hf : Follows s._pgt_virt_base t i) :
    Ends (next_table P t i) s (fun u s' => Made P s (p ++ [i]) u s' ∧ Plain s')
      fun _ => True := by
  have hmade := ends_and (next_table_spec hI hp ht hf) (next_table_cases hI hp ht hf)
  refine ends_weaken hmade ?_ fun _ _ => trivial
  rintro u s' ⟨hmade, h⟩
  refine ⟨hmade, ?_⟩
  obtain ⟨rfl, -⟩ | ⟨pgd, -, hE⟩ := h
  · exact hplain
  · exact hE.plain hplain

theorem insert_mapping_plain {va : UInt64} (pa : UInt64) (hI : Inv P s) (hplain : Plain s)
    (hva : ¬ KernelIndex (pml4_idx va)) :
    Ends (insert_mapping P va pa ⟨true, true, true⟩) s (fun _ => Plain) fun _ => True := by
  unfold insert_mapping
  simp only [ends_bind, ends_get]
  have hroot : s.table [] = some s._pgt_virt_base := rfl
  refine ends_mono (next_table_plain hI hplain (by simp) hroot (hI.follows_root hva)) ?_
  rintro pdp s₁ ⟨h₁, hplain₁⟩
  have hf₁ := h₁.inv.follows_below h₁.table (by simp) (by simp) (pdp_idx_lt va)
  refine ends_mono (next_table_plain h₁.inv hplain₁ (by simp) h₁.table hf₁) ?_
  rintro pd s₂ ⟨h₂, hplain₂⟩
  have hf₂ := h₂.inv.follows_below h₂.table (by simp) (by simp) (pd_idx_lt va)
  refine ends_mono (next_table_plain h₂.inv hplain₂ (by simp) h₂.table hf₂) ?_
  rintro pt s₃ ⟨h₃, hplain₃⟩
  have hpt : s₃.table (path va) = some pt := h₃.table
  have hwindow := h₃.inv.window ⟨path va, (path_length va).le, hpt⟩
  have hf₃ := h₃.inv.follows_below hpt (path_length va).le (by simp [path]) (pt_idx_lt va)
  rw [ends_load_entry hwindow (pt_idx_lt va), ends_store_entry hwindow (pt_idx_lt va)]
  refine h₃.inv.plain_fill hplain₃ hpt (.inr ?_)
  exact MMUTableEntry.flags_set_mapping (hplain₃ _ _ _ (path_length va).le hpt hf₃) pa

theorem OwnPages.first {vbase : UInt64} {n : ℕ} (h : OwnPages (page_number vbase) (n + 1)) :
    ¬ KernelIndex (pml4_idx vbase) := by
  have hpage := page_number_lt vbase
  have := h 0 (by omega)
  rwa [Nat.add_zero, Nat.mod_eq_of_lt hpage, ← pml4_idx_eq] at this

theorem OwnPages.rest {vbase : UInt64} {n : ℕ} (h : OwnPages (page_number vbase) (n + 1)) :
    OwnPages (page_number (vbase + 0x1000)) n := by
  intro i hi
  have := h (i + 1) (by omega)
  rwa [page_number_next, show ((page_number vbase + 1) % 2 ^ 36 + i) % 2 ^ 36 =
    (page_number vbase + (i + 1)) % 2 ^ 36 by omega]

theorem map_block_plain {n : ℕ} {vbase pbase : UInt64} (hI : Inv P s) (hplain : Plain s)
    (hown : OwnPages (page_number vbase) n) :
    Ends (map_block P n vbase pbase) s (fun _ => Plain) fun _ => True := by
  induction n generalizing s vbase pbase with
  | zero => exact hplain
  | succ n ih =>
    have hpresent : (⟨true, true, true⟩ : MappingFlags).Present = true := rfl
    have hfirst := insert_mapping_spec pbase hI hown.first hpresent
    rw [map_block, ends_bind]
    refine ends_weaken (ends_and hfirst (insert_mapping_plain pbase hI hplain hown.first)) ?_
      fun _ _ => trivial
    rintro _ s₁ ⟨h₁, hplain₁⟩
    exact ih h₁.inv hplain₁ hown.rest

theorem Inv.plain_congr (hI : Inv P s) (hp : Plain s)
    (hroot : s'._pgt_virt_base = s._pgt_virt_base)
    (htables : ∀ y, y / 4096 ∈ s.tablePages → s'.mem y = s.mem y) : Plain s' := by
  intro q x j hq hx hf
  rw [hI.table_eq hroot htables hq] at hx
  rw [hroot] at hf
  rw [hI.entry_eq htables ⟨q, hq, hx⟩ hf.1]
  exact hp q x j hq hx hf

theorem allocate_virt_plain {va : UInt64} {nr_pages : Int32} (hI : Inv P s) (hplain : Plain s)
    (hown : OwnPages (page_number va) (virt_pages nr_pages)) :
    Ends (allocate_virt P va nr_pages) s (fun _ => Plain) fun _ => True := by
  unfold allocate_virt
  refine ends_ite (fun _ => hplain) fun hne => ?_
  simp only [ends_bind]
  refine ends_weaken (allocate_phys_spec _) (fun r s₁ hr => ?_) fun _ _ => trivial
  cases r with
  | none =>
    have hs : s₁ = { s with pgalloc := s₁.pgalloc } := hr.2
    rw [ends_pure, hs]
    exact hplain
  | some pgd =>
    have hG : Granted P s (virt_order nr_pages) pgd s₁ := hr
    rw [hG.virt_pages_eq hne] at hown
    rw [ends_bind]
    have hplain₁ := hI.plain_congr hplain hG.root (hG.untouched hI)
    exact ends_mono (map_block_plain (hG.inv hI) hplain₁ hown) fun _ _ h₂ => h₂

/-! ## What no call changes -/

section Maintains

variable {I : State α → Prop}

/-- What the allocation of frames and writes to memory leave as it is, every call leaves so. -/
structure Steady (P : PageSource α) (I : State α → Prop) : Prop where
  allocate_phys : ∀ order, Maintains (Vma.allocate_phys P order) I
  put : ∀ m a n s, I s → I (put m a n s)

theorem maintains_access (a n : ℕ) : Maintains (access a n : Op α Unit) I := by
  unfold access
  exact maintains_ite (maintains_pure _) (maintains_halt _)

theorem maintains_pa_to_vpa (pa : UInt64) : Maintains (pa_to_vpa pa : Op α ℕ) I := by
  unfold pa_to_vpa assert
  exact maintains_bind (maintains_ite (maintains_pure _) (maintains_halt _)) fun _ =>
    maintains_pure _

theorem maintains_load_entry (table idx : ℕ) : Maintains (load_entry table idx : Op α _) I := by
  unfold load_entry
  exact maintains_bind (maintains_access _ _) fun _ =>
    maintains_bind maintains_get fun _ => maintains_pure _

namespace Steady

variable (h : Steady P I)

include h

theorem store_entry (table idx : ℕ) (e : MMUTableEntry) : Maintains (store_entry table idx e) I := by
  unfold Vma.store_entry store_word
  exact maintains_bind (maintains_access _ _) fun _ => maintains_modify fun s => h.put _ _ _ s

theorem next_table (table idx : ℕ) : Maintains (next_table P table idx) I := by
  unfold Vma.next_table assert_pgd
  refine maintains_bind (maintains_load_entry _ _) fun e => ?_
  have hrest : Maintains (do pa_to_vpa (← load_entry table idx).base_address : Op α ℕ) I :=
    maintains_bind (maintains_load_entry _ _) fun e => maintains_pa_to_vpa _
  split
  · refine maintains_bind (h.allocate_phys 0) fun r => ?_
    cases r with
    | none => exact maintains_bind (maintains_halt _) fun _ =>
        maintains_bind (maintains_load_entry _ _) fun e =>
          maintains_bind (h.store_entry _ _ _) fun _ => hrest
    | some pgd => exact maintains_bind (maintains_pure _) fun _ =>
        maintains_bind (maintains_load_entry _ _) fun e =>
          maintains_bind (h.store_entry _ _ _) fun _ => hrest
  · exact hrest

theorem insert_mapping (va pa : UInt64) (flags : MappingFlags) :
    Maintains (insert_mapping P va pa flags) I := by
  unfold Vma.insert_mapping
  refine maintains_bind maintains_get fun s => ?_
  refine maintains_bind (h.next_table _ _) fun pdp => ?_
  refine maintains_bind (h.next_table _ _) fun pd => ?_
  refine maintains_bind (h.next_table _ _) fun pt => ?_
  exact maintains_bind (maintains_load_entry _ _) fun e => h.store_entry _ _ _

theorem map_block (n : ℕ) (vbase pbase : UInt64) : Maintains (map_block P n vbase pbase) I := by
  induction n generalizing vbase pbase with
  | zero => exact maintains_pure _
  | succ n ih => exact maintains_bind (h.insert_mapping _ _ _) fun _ => ih _ _

theorem allocate_virt (va : UInt64) (nr_pages : Int32) :
    Maintains (allocate_virt P va nr_pages) I := by
  unfold Vma.allocate_virt
  refine maintains_ite (maintains_pure _) (maintains_bind (h.allocate_phys _) fun r => ?_)
  cases r with
  | none => exact maintains_pure _
  | some pgd => exact maintains_bind (h.map_block _ _ _) fun _ => maintains_pure _

theorem copy_to (dest_va : UInt64) (src : ℕ → UInt8) (size : UInt64) :
    Maintains (copy_to dest_va src size) I := by
  unfold Vma.copy_to memcpy
  have hget : Maintains (get_mapping dest_va : Op α _) I := fun s hs =>
    ends_mono (get_mapping_reads dest_va) fun _ s' he => he ▸ hs
  refine maintains_bind hget fun r => ?_
  cases r with
  | none => exact maintains_pure _
  | some pa =>
    refine maintains_bind (maintains_pa_to_vpa _) fun a => ?_
    exact maintains_bind (maintains_bind (maintains_modify fun s => h.put _ _ _ s) fun _ =>
      maintains_access _ _) fun _ => maintains_pure _

theorem call (c : Call) : Maintains (c.run P) I := by
  cases c with
  | allocate_phys order => exact maintains_map (h.allocate_phys order)
  | allocate_virt va nr_pages => exact maintains_map (h.allocate_virt va nr_pages)
  | copy_to dest_va src size => exact maintains_map (h.copy_to dest_va src size)

end Steady

/-- The address in CR3 is not changed. -/
theorem steady_phys (base : UInt64) : Steady P fun s => s._pgt_phys_base = base where
  allocate_phys order := by
    unfold allocate_phys alloc_pages
    refine maintains_bind (maintains_bind maintains_get fun s => ?_) fun r => ?_
    · split
      · exact maintains_halt _
      · exact maintains_bind (maintains_modify fun _ hs => hs) fun _ => maintains_pure _
    · cases r with
      | none => exact maintains_pure _
      | some pgd =>
        refine maintains_bind (maintains_modify fun _ hs => hs) fun _ => ?_
        unfold pgd_to_vpa pnzero
        refine maintains_bind (maintains_ite (maintains_pure _) (maintains_halt _)) fun a => ?_
        exact maintains_bind (maintains_bind (maintains_modify fun _ hs => hs) fun _ =>
          maintains_ite (maintains_pure _) (maintains_halt _)) fun _ => maintains_pure _
  put _ _ _ _ hs := hs

/-- All frames are in the window. -/
theorem steady_window : Steady P fun s => ∀ p ∈ s.owned, 4096 * p + 4096 ≤ PMEM_VA_SIZE where
  allocate_phys order s hs := by
    refine ends_weaken (allocate_phys_spec order) (fun r s' hr => ?_) fun _ _ => trivial
    cases r with
    | none =>
      have he : s' = { s with pgalloc := s'.pgalloc } := hr.2
      rw [he]
      exact hs
    | some pgd =>
      have hG : Granted P s order pgd s' := hr
      have hwindow := hG.window
      rw [hG.owned_eq]
      rintro p (hp | ⟨hle, hlt⟩)
      · exact hs p hp
      · omega
  put _ _ _ _ hs := hs

end Maintains

/-! ## What a call changes -/

/-- From `s` to `s'` the address space may have been given pages that were free. Memory that it does
not have is as it was, and so are the kernel's entries. What became mapped was given. -/
structure Advance (P : PageSource α) (s s' : State α) : Prop where
  phys : s'._pgt_phys_base = s._pgt_phys_base
  root : s'._pgt_virt_base = s._pgt_virt_base
  free : P.free s'.pgalloc ⊆ P.free s.pgalloc
  owned : s.owned ⊆ s'.owned
  new_owned : s'.owned ⊆ s.owned ∪ P.free s.pgalloc
  elsewhere : ∀ y, y / 4096 ∉ s'.owned → s'.mem y = s.mem y
  kernel : ∀ i, KernelIndex i →
    entry s'.mem s._pgt_virt_base i = entry s.mem s._pgt_virt_base i
  translates : ∀ v pa, s'.translate v = some pa →
    s.translate v = some pa ∨ pa.toNat / 4096 ∈ P.free s.pgalloc

/-- What holds of the address space of a process at any time. -/
structure Proper (P : PageSource α) (pages : ℕ) (s : State α) : Prop where
  sound : Sound P s
  plain : Plain s
  cr3 : s._pgt_phys_base.toNat = s._pgt_virt_base
  template : FromTemplate pages s.mem s._pgt_virt_base
  window : ∀ p ∈ s.owned, 4096 * p + 4096 ≤ PMEM_VA_SIZE

/-- A step that gives no pages, and leaves the tables alone. -/
theorem Inv.advance (hI : Inv P s) (hphys : s'._pgt_phys_base = s._pgt_phys_base)
    (hroot : s'._pgt_virt_base = s._pgt_virt_base) (hfree : P.free s'.pgalloc ⊆ P.free s.pgalloc)
    (halloc : s'._page_allocations = s._page_allocations)
    (htables : ∀ y, y / 4096 ∈ s.tablePages → s'.mem y = s.mem y)
    (helsewhere : ∀ y, y / 4096 ∉ s.owned → s'.mem y = s.mem y) : Advance P s s' := by
  have howned : s'.owned = s.owned := by
    unfold State.owned
    rw [halloc]
  exact {
    phys := hphys
    root := hroot
    free := hfree
    owned := howned.ge
    new_owned := howned.le.trans Set.subset_union_left
    elsewhere := fun y hy => helsewhere y (howned ▸ hy)
    kernel := fun i hi => hI.entry_eq htables (root_isTable s) (leaf_kernel (s := s) hi).lt
    translates := fun v pa hpa => .inl (by rwa [hI.translate_eq hroot htables] at hpa) }

theorem Granted.advance {order : Int} {pgd : ℕ} (hG : Granted P s order pgd s') (hI : Inv P s)
    (hphys : s'._pgt_phys_base = s._pgt_phys_base) : Advance P s s' where
  phys := hphys
  root := hG.root
  free := hG.free
  owned := by
    rw [hG.owned_eq]
    exact Set.subset_union_left
  new_owned := by
    rw [hG.owned_eq]
    rintro p (hp | ⟨hle, hlt⟩)
    · exact .inl hp
    · exact .inr (hG.block_free p hle hlt).1
  elsewhere := hG.wrote.elsewhere
  kernel i hi := hI.entry_eq (hG.untouched hI) (root_isTable s) (leaf_kernel (s := s) hi).lt
  translates v pa hpa := .inl (by rwa [hI.translate_eq hG.root (hG.untouched hI)] at hpa)

theorem Given.advance {va : UInt64} {order pgd : ℕ} (hg : Given P s va order pgd s') (hI : Inv P s)
    (hphys : s'._pgt_phys_base = s._pgt_phys_base) : Advance P s s' := by
  obtain ⟨s₁, hG, hb⟩ := hg
  have hgrows := hb.grows
  have howned : s'.owned ⊆ s.owned ∪ P.free s.pgalloc := by
    refine hgrows.new_owned.trans (Set.union_subset ?_ (hG.free.trans Set.subset_union_right))
    rw [hG.owned_eq]
    rintro p (hp | ⟨hle, hlt⟩)
    · exact .inl hp
    · exact .inr (hG.block_free p hle hlt).1
  exact {
    phys := hphys
    root := hgrows.root.trans hG.root
    free := hgrows.free.trans hG.free
    owned := by
      refine Set.Subset.trans ?_ hgrows.owned
      rw [hG.owned_eq]
      exact Set.subset_union_left
    new_owned := howned
    elsewhere := fun y hy => by
      rw [hgrows.wrote.elsewhere y fun ht => hy (hb.inv.tables_owned ht),
        hG.wrote.elsewhere y fun ho => hy (hgrows.owned ho)]
    kernel := fun i hi => by
      rw [← hG.root, hgrows.kernel i hi, hG.root,
        hI.entry_eq (hG.untouched hI) (root_isTable s) (leaf_kernel (s := s) hi).lt]
    translates := fun v pa hpa => by
      by_cases hin : distance (page_number va) (page_number v) < block_pages order
      · obtain ⟨pa', hpa', hto⟩ := hb.inside v hin
        obtain rfl := Option.some.inj (hpa'.symm.trans hpa)
        rw [hto, hG.pgd_to_pa_toNat]
        exact .inr (hG.block_free _ (by omega) (by omega)).1
      · rw [hb.outside v (by omega), hI.translate_eq hG.root (hG.untouched hI)] at hpa
        exact .inl hpa }

theorem Proper.advance (h : Proper P pages s) (ha : Advance P s s') (hsound : Sound P s')
    (hplain : Plain s') (hwindow : ∀ p ∈ s'.owned, 4096 * p + 4096 ≤ PMEM_VA_SIZE) :
    Proper P pages s' where
  sound := hsound
  plain := hplain
  cr3 := by
    rw [ha.phys, ha.root]
    exact h.cr3
  template i hi := by
    rw [ha.root, ha.kernel i hi]
    exact h.template i hi
  window := hwindow

/-- It is as it was, if its tables are and its pages are not free. -/
theorem Proper.congr (h : Proper P pages s) (hphys : s'._pgt_phys_base = s._pgt_phys_base)
    (hroot : s'._pgt_virt_base = s._pgt_virt_base)
    (halloc : s'._page_allocations = s._page_allocations)
    (htables : ∀ y, y / 4096 ∈ s.tablePages → s'.mem y = s.mem y)
    (hkept : ∀ p ∈ s.owned, p ∉ P.free s'.pgalloc) : Proper P pages s' := by
  have hI := h.sound.inv
  have howned : s'.owned = s.owned := by
    unfold State.owned
    rw [halloc]
  have hsound : Sound P s' := by
    refine ⟨hI.untouched hroot htables howned.ge (howned ▸ hkept), fun v pa hpa => ?_⟩
    rw [hI.translate_eq hroot htables] at hpa
    unfold State.dataPages
    rw [howned, hI.tablePages_eq hroot htables]
    exact h.sound.lands v pa hpa
  exact {
    sound := hsound
    plain := hI.plain_congr h.plain hroot htables
    cr3 := by
      rw [hphys, hroot]
      exact h.cr3
    template := fun i hi => by
      rw [hroot, hI.entry_eq htables (root_isTable s) (leaf_kernel (s := s) hi).lt]
      exact h.template i hi
    window := by
      rw [howned]
      exact h.window }

/-- Writes to pages of the process's own that hold no table. -/
theorem Proper.dataWrite (h : Proper P pages s) (hw : DataWrite s s')
    (hphys : s'._pgt_phys_base = s._pgt_phys_base) : Proper P pages s' ∧ Advance P s s' := by
  have hI := h.sound.inv
  refine ⟨h.congr hphys hw.root hw.allocations hw.untouched ?_, ?_⟩
  · rw [hw.pgalloc]
    exact hI.owned_kept
  · refine hI.advance hphys hw.root (by rw [hw.pgalloc]) hw.allocations hw.untouched fun y hy => ?_
    exact hw.wrote.elsewhere y fun hdata => hy hdata.1

/-- What the processor finds for the process's own addresses is what `get_mapping` finds. -/
theorem Proper.walk_own (h : Proper P pages s) {va : UInt64} (hva : ¬ KernelIndex (pml4_idx va))
    (hcanonical : Canonical va) : walk_pages s.mem s._pgt_phys_base va =
      (s.translate va).map fun pa => ⟨pa.toNat, true, true⟩ := by
  have hsize : PMEM_VA_SIZE = 2 ^ 32 := rfl
  refine h.sound.inv.walk_eq h.plain h.cr3 hva hcanonical fun pa hpa => ?_
  have hwindow := h.window _ (h.sound.lands va pa hpa).1
  omega

/-- The program can only use pages of its own that hold no table. -/
theorem Proper.user_page (h : Proper P pages s) (hpages : pages + 16 ≤ 2 ^ 20)
    (htables : KernelTables pages s.mem) {va : UInt64} {p : Page}
    (hwalk : walk_pages s.mem s._pgt_phys_base va = some p) (huser : p.user = true) :
    p.pa / 4096 ∈ s.dataPages ∧ ∃ pa, s.translate va = some pa ∧ pa.toNat = p.pa := by
  by_cases hcanonical : Canonical va
  · by_cases hva : KernelIndex (pml4_idx va)
    · rw [walk_kernel hpages htables (h.sound.inv.root_frame h.cr3) h.template hva hcanonical] at hwalk
      obtain ⟨pa, -, rfl⟩ := Option.map_eq_some_iff.mp hwalk
      cases huser
    · rw [h.walk_own hva hcanonical] at hwalk
      obtain ⟨pa, hpa, rfl⟩ := Option.map_eq_some_iff.mp hwalk
      exact ⟨h.sound.lands va pa hpa, pa, hpa, rfl⟩
  · rw [walk_pages, if_neg hcanonical] at hwalk
    cases hwalk

/-- After every call the address space is as it should be, whether or not the call succeeded. -/
theorem Proper.call {c : Call} (h : Proper P pages s) (hc : c.Allowed s) :
    Ends (c.run P) s (fun _ s' => Proper P pages s' ∧ Advance P s s') (Halted P s) := by
  have hI := h.sound.inv
  -- What no call changes.
  have hsteady : Ends (c.run P) s (fun _ s' => s'._pgt_phys_base = s._pgt_phys_base ∧
      ∀ p ∈ s'.owned, 4096 * p + 4096 ≤ PMEM_VA_SIZE) fun _ => True :=
    ends_and ((steady_phys _).call c s rfl) (steady_window.call c s h.window)
  have hplain : Ends (c.run P) s (fun _ s' => Sound P s' ∧ Plain s' ∧
      (s'._pgt_phys_base = s._pgt_phys_base → Advance P s s')) (Halted P s) := by
    cases c with
    | allocate_phys order =>
      refine (ends_map _ _).mpr (ends_weaken (allocate_phys_spec order) (fun r t hr => ?_)
        fun _ he => he.halted)
      cases r with
      | none =>
        obtain ⟨hnone, ht⟩ := hr
        have hfree := (Drawn.of_alloc hnone).free
        refine ⟨h.sound.refused hfree ht, ?_, fun hphys => ?_⟩
        · rw [ht]
          exact h.plain
        · refine hI.advance hphys ?_ hfree ?_ ?_ ?_ <;> rw [ht] <;> intros <;> rfl
      | some pgd =>
        have hG : Granted P s order pgd t := hr
        have hplain := hI.plain_congr h.plain hG.root (hG.untouched hI)
        exact ⟨h.sound.granted hG, hplain, hG.advance hI⟩
    | allocate_virt va nr_pages =>
      refine (ends_map _ _).mpr (ends_mono (ends_and (allocate_virt_given hI hc)
        (allocate_virt_plain hI h.plain hc)) ?_)
      rintro r t ⟨hr, hplain⟩
      cases r with
      | false =>
        have ht : t = { s with pgalloc := t.pgalloc } := hr.2
        refine ⟨h.sound.refused hr.1.free ht, hplain, fun hphys => ?_⟩
        refine hI.advance hphys ?_ hr.1.free ?_ ?_ ?_ <;> rw [ht] <;> intros <;> rfl
      | true =>
        obtain ⟨-, pgd, hg⟩ := hr
        exact ⟨h.sound.given hg, hplain, hg.advance hI⟩
    | copy_to dest_va src size =>
      refine (ends_map _ _).mpr ?_
      obtain hnone | ⟨⟨pa, hrow⟩, hown⟩ := hc
      · refine (ends_of_eq (copy_to_unmapped hnone)).mpr ⟨h.sound, h.plain, fun _ => ?_⟩
        exact hI.advance rfl rfl subset_rfl rfl (fun _ _ => rfl) fun _ _ => rfl
      · have heq := copy_to_mapped hrow.first src size
        rw [if_pos hrow.shown, if_pos hrow.room] at heq
        obtain ⟨hproper, ha⟩ := h.dataWrite (h.sound.copied_write src hrow hown) rfl
        exact (ends_of_eq heq).mpr ⟨hproper.sound, hproper.plain, fun _ => ha⟩
  refine ends_mono (ends_and hplain hsteady) ?_
  rintro _ s' ⟨⟨hsound, hplain, ha⟩, hphys, hwindow⟩
  exact ⟨h.advance (ha hphys) hsound hplain hwindow, ha hphys⟩

end Infos.Vma
