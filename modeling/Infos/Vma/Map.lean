import Infos.Vma.Insert

/-!
# The tables are a map from pages to frames
-/

open Infos.Bytes Infos.Prog Infos.Radix

namespace Infos.Vma

variable {α : Type} {P : PageSource α} {s s' : State α}

/-! ## A new address space -/

/-- Before the constructor ran. -/
def start (mem : Memory) (a : α) : State α := ⟨mem, [], a, [], 0, 0⟩

structure Fresh (P : PageSource α) (s s' : State α) : Prop where
  inv : Inv P s'
  empty : ∀ i < 512, entry s'.mem s'._pgt_virt_base i = ⟨0⟩
  root_only : ∀ t, s'.IsTable t → t = s'._pgt_virt_base
  drew : ∃ pgd, P.alloc_pages 0 s.pgalloc = .ok (some pgd, s'.pgalloc)
  spends : Spends P s s'

/-- Behind an empty table there is nothing. -/
theorem table_of_empty (hempty : ∀ i < 512, entry s.mem s._pgt_virt_base i = ⟨0⟩) {p : List ℕ}
    {t : ℕ} (ht : s.table p = some t) : p = [] ∧ t = s._pgt_virt_base := by
  unfold State.table at ht
  cases p with
  | nil => exact ⟨rfl, (Option.some.inj ht).symm⟩
  | cons i p =>
    have hnone : next s.mem s._pgt_virt_base s._pgt_virt_base i = none := by
      by_cases hi : i < 512
      · exact next_none (by rw [hempty i hi]; rfl)
      · exact if_neg fun h => hi h.1.1
    rw [walk, hnone] at ht
    cases ht

theorem isTable_of_empty (hempty : ∀ i < 512, entry s.mem s._pgt_virt_base i = ⟨0⟩) (t : ℕ) :
    s.IsTable t ↔ t = s._pgt_virt_base := by
  constructor
  · rintro ⟨p, -, hp⟩
    exact (table_of_empty hempty hp).2
  · rintro rfl
    exact root_isTable s

theorem owned_new (hnew : s._page_allocations = []) : s.owned = ∅ := by
  unfold State.owned
  simp [hnew]

theorem Granted.owned_new {pgd : ℕ} (hG : Granted P s 0 pgd s') (hnew : s._page_allocations = []) :
    s'.owned = {pgd} := by
  rw [hG.owned_eq, Vma.owned_new hnew, Set.empty_union]
  ext x
  show pgd ≤ x ∧ x < pgd + 1 ↔ x = pgd
  omega

/-- With the page it was granted for its top table, the address space is complete. -/
theorem Granted.fresh {pgd : ℕ} {s₁ : State α} (hG : Granted P s 0 pgd s₁)
    (hnew : s._page_allocations = []) (hroot : s'._pgt_virt_base = 4096 * pgd)
    (hmem : s'.mem = s₁.mem) (hwritten : s'.written = s₁.written)
    (hpgalloc : s'.pgalloc = s₁.pgalloc) (howned : s'.owned = s₁.owned) : Fresh P s s' := by
  have hfree := hG.block_free pgd le_rfl (Nat.lt_add_of_pos_right (block_pages_pos 0))
  have hzero : s'.mem = zero s.mem (4096 * pgd) 4096 := hmem.trans hG.mem
  have hwindow : 4096 * (pgd + 1) ≤ PMEM_VA_SIZE := hG.window
  have hempty : ∀ i < 512, entry s'.mem s'._pgt_virt_base i = ⟨0⟩ := by
    intro i hi
    rw [hzero, hroot, entry_zero hi]
  have hpages : s'.tablePages = {pgd} := by
    ext x
    show s'.IsTable (4096 * x) ↔ x = pgd
    rw [isTable_of_empty hempty, hroot, Nat.mul_right_inj (by decide)]
  have howner : s'.owned = {pgd} := howned.trans (hG.owned_new hnew)
  exact {
    inv := {
      unshared := fun p q t _ _ hp hq =>
        (table_of_empty hempty hp).1.trans (table_of_empty hempty hq).1.symm
      aligned := fun ht => by
        rw [(isTable_of_empty hempty _).mp ht, hroot]
        exact Nat.dvd_mul_right _ _
      window := fun ht => by
        rw [(isTable_of_empty hempty _).mp ht, hroot]
        omega
      tables_owned := by rw [hpages, howner]
      owned_kept := by
        rw [howner, hpgalloc]
        rintro x rfl
        exact hfree.2
      tidy := by
        intro p t i _ hp hf
        obtain ⟨-, rfl⟩ := table_of_empty hempty hp
        rw [hempty i hf.1]
        decide }
    empty := hempty
    root_only := fun t ht => (isTable_of_empty hempty t).mp ht
    drew := ⟨pgd, hpgalloc ▸ hG.drew⟩
    spends := hG.spends.congr hmem hwritten hpgalloc howned }

theorem new_VMA_spec (hnew : s._page_allocations = []) :
    Ends (new_VMA P) s (fun _ => Fresh P s) (Denied P s 0) := by
  unfold new_VMA
  simp only [ends_bind]
  refine ends_granted (fun pgd s₁ hG => ?_) fun _ he => he
  rw [ends_pgd_to_vpa hG.pgd_lt hG.pgd_window, ends_modify]
  exact hG.fresh hnew rfl rfl rfl rfl rfl

theorem Fresh.translate (h : Fresh P s s') (va : UInt64) : s'.translate va = none := by
  unfold State.translate
  cases hx : s'.table (path va) with
  | none => rw [Option.bind_none]
  | some t => exact absurd (h.root_only t ⟨path va, (path_length va).le, hx⟩) (h.inv.ne_root hx)

/-- The state once the kernel's entries were copied. -/
def State.install (s : State α) (template_pml4 : Template) : State α :=
  let s₁ := s.fill s._pgt_virt_base 0x1ff (entry s.mem template_pml4.base 0x1ff)
  s₁.fill s._pgt_virt_base 0x100 (entry s₁.mem template_pml4.base 0x100)

theorem install_spec {E : Halt α → Prop} (hI : Inv P s) (template_pml4 : Template) :
    Ends (install_default_kernel_mapping template_pml4) s
      (fun _ s' => s' = s.install template_pml4) E := by
  have hroot := hI.window (root_isTable s)
  have htemplate := template_pml4.window
  unfold install_default_kernel_mapping
  simp only [ends_bind, ends_get]
  rw [ends_load_entry htemplate (by decide), ends_store_entry hroot (by decide),
    ends_load_entry htemplate (by decide), ends_store_entry hroot (by decide)]
  rfl

theorem Inv.install (hI : Inv P s) (template_pml4 : Template) : Inv P (s.install template_pml4) :=
  (hI.fill (leaf_kernel (.inr rfl)) _).fill (leaf_kernel (.inl rfl)) _

theorem Inv.translate_install (hI : Inv P s) (template_pml4 : Template) (va : UInt64) :
    (s.install template_pml4).translate va = s.translate va :=
  ((hI.fill (leaf_kernel (.inr rfl)) _).translate_kernel (.inl rfl) _ va).trans
    (hI.translate_kernel (.inr rfl) _ va)

theorem Inv.table_install (hI : Inv P s) (template_pml4 : Template) {q : List ℕ} (hq : q.length ≤ 3) :
    (s.install template_pml4).table q = s.table q := by
  have hI₁ := hI.fill (leaf_kernel (.inr rfl)) (entry s.mem template_pml4.base 0x1ff)
  exact (hI₁.table_fill (leaf_kernel (.inl rfl)) _ hq).trans
    (hI.table_fill (leaf_kernel (.inr rfl)) _ hq)

/-! ## Any insertions -/

structure Insertion where
  va : UInt64
  pa : UInt64
  flags : MappingFlags

/-- Present, and not in the kernel's part. -/
def Insertion.Allowed (c : Insertion) : Prop :=
  c.flags.Present = true ∧ ¬ KernelIndex (pml4_idx c.va)

/-- A new address space, with the kernel's entries or without, and the insertions into it. -/
def build (P : PageSource α) (kernel : Option Template) (calls : List Insertion) : Op α Unit := do
  new_VMA P
  match kernel with
  | none => pure ()
  | some template_pml4 => install_default_kernel_mapping template_pml4
  forM calls fun c => insert_mapping P c.va c.pa c.flags

/-- The frame of the last insertion for the page of `v`, and the offset of `v`. -/
def lookup (calls : List Insertion) (v : UInt64) : Option UInt64 :=
  (calls.reverse.find? fun c => page_number c.va == page_number v).map fun c =>
    (c.pa &&& ~~~0xfff) ||| __page_offset v

theorem lookup_nil (v : UInt64) : lookup [] v = none := by
  unfold lookup
  rw [List.reverse_nil, List.find?_nil, Option.map_none]

theorem lookup_concat (calls : List Insertion) (c : Insertion) (v : UInt64) :
    lookup (calls ++ [c]) v =
      if page_number v = page_number c.va then some ((c.pa &&& ~~~0xfff) ||| __page_offset v)
      else lookup calls v := by
  unfold lookup
  rw [List.reverse_append, List.reverse_singleton, List.singleton_append, List.find?_cons]
  split_ifs with h
  · simp [h]
  · rw [beq_false_of_ne fun he => h he.symm]

/-- What holds after the insertions `calls`. -/
structure Shows (P : PageSource α) (kernel : Option Template) (calls : List Insertion)
    (s : State α) : Prop where
  inv : Inv P s
  translate : ∀ v, s.translate v = lookup calls v
  bare : kernel = none → ∀ i, KernelIndex i → entry s.mem s._pgt_virt_base i = ⟨0⟩

/-- The paths of the tables that the insertions need: the top table's, and those that lead to their
pages. -/
def tables_for (calls : List Insertion) : Finset (List ℕ) :=
  insert [] (calls.flatMap fun c => ways c.va).toFinset

theorem tables_for_concat (calls : List Insertion) (c : Insertion) :
    tables_for (calls ++ [c]) = tables_for calls ∪ (ways c.va).toFinset := by
  unfold tables_for
  rw [List.flatMap_append, List.toFinset_append, Finset.insert_union]
  simp

theorem mem_tables_for {calls : List Insertion} {c : Insertion} {q : List ℕ} (hc : c ∈ calls)
    (hq : q ∈ ways c.va) : q ∈ tables_for calls := by
  refine Finset.mem_insert_of_mem (List.mem_toFinset.mpr ?_)
  exact List.mem_flatMap.mpr ⟨c, hc, hq⟩

/-- A new address space has its top table only. -/
theorem Fresh.supplied (h : Fresh P s s') {F : Finset (List ℕ)} (hroot : [] ∈ F)
    (hyields : Yields P F.card s.pgalloc) : Supplied P F (tables_for []) s' where
  tables q hq := by
    cases hx : s'.table q with
    | none =>
      have hne : q ≠ [] := by
        rintro rfl
        cases hx
      simp [tables_for, hne]
    | some t =>
      obtain ⟨rfl, -⟩ := table_of_empty h.empty hx
      simp [tables_for]
  subset := by
    rintro q hq
    obtain rfl : q = [] := by simpa [tables_for] using hq
    exact hroot
  yields := by
    obtain ⟨pgd, hdrew⟩ := h.drew
    have hpos := Finset.card_pos.mpr ⟨_, hroot⟩
    rw [show F.card = F.card - 1 + 1 by omega] at hyields
    exact hyields.next hdrew

/-- While the source has pages for all tables of `F`, so has it for those that are missing. -/
structure Building (P : PageSource α) (a : α) (kernel : Option Template) (F : Finset (List ℕ))
    (calls : List Insertion) (s : State α) : Prop where
  shows : Shows P kernel calls s
  supplied : Yields P F.card a → Supplied P F (tables_for calls) s

theorem Shows.insert_spec {kernel : Option Template} {calls : List Insertion} {c : Insertion}
    (h : Shows P kernel calls s) (hc : c.Allowed) :
    Ends (insert_mapping P c.va c.pa c.flags) s
      (fun _ s' => Shows P kernel (calls ++ [c]) s' ∧ Mapped P s c.va c.pa s')
      (Starved P s (ways c.va)) := by
  refine ends_mono (insert_mapping_spec c.pa h.inv hc.2 hc.1) fun _ s' hs' => ⟨?_, hs'⟩
  exact {
    inv := hs'.inv
    translate := fun v => by rw [hs'.translate, lookup_concat, h.translate]
    bare := fun hk i hi => by rw [hs'.grows.root, hs'.grows.kernel i hi, h.bare hk i hi] }

theorem Building.insert_spec {a : α} {kernel : Option Template} {F : Finset (List ℕ)}
    {calls : List Insertion} {c : Insertion} (h : Building P a kernel F calls s) (hc : c.Allowed)
    (hin : ∀ q ∈ ways c.va, q ∈ F) :
    Ends (insert_mapping P c.va c.pa c.flags) s (fun _ => Building P a kernel F (calls ++ [c]))
      fun _ => ¬ Yields P F.card a := by
  refine ends_weaken (h.shows.insert_spec hc) (fun _ s' hs' => ⟨hs'.1, fun hyields => ?_⟩)
    fun e he hyields => he.not_supplied hin (h.supplied hyields)
  rw [tables_for_concat]
  exact hs'.2.supplied hin (h.supplied hyields)

theorem build_spec (mem : Memory) (a : α) (kernel : Option Template) {calls : List Insertion}
    (hcalls : ∀ c ∈ calls, c.Allowed) :
    Ends (build P kernel calls) (start mem a)
      (fun _ => Building P a kernel (tables_for calls) calls)
      fun _ => ¬ Yields P (tables_for calls).card a := by
  have hroot : [] ∈ tables_for calls := Finset.mem_insert_self _ _
  unfold build
  simp only [ends_bind]
  refine ends_weaken (new_VMA_spec rfl) (fun _ s hs => ?_) fun e he hyields => ?_
  · have hloop : ∀ {s : State α}, Building P a kernel (tables_for calls) [] s →
        Ends (forM calls fun c => insert_mapping P c.va c.pa c.flags) s
          (fun _ => Building P a kernel (tables_for calls) calls)
          fun _ => ¬ Yields P (tables_for calls).card a :=
      ends_forM (fun _ c _ hc h => h.insert_spec (hcalls c hc) fun _ => mem_tables_for hc) []
    cases kernel with
    | none =>
      refine hloop {
        shows := {
          inv := hs.inv
          translate := fun v => by rw [hs.translate, lookup_nil]
          bare := fun _ i hi => hs.empty i (leaf_kernel (s := s) hi).lt }
        supplied := hs.supplied hroot }
    | some template_pml4 =>
      simp only [ends_bind]
      refine ends_mono (install_spec hs.inv template_pml4) ?_
      rintro _ _ rfl
      refine hloop {
        shows := {
          inv := hs.inv.install template_pml4
          translate := fun v => by rw [hs.inv.translate_install, hs.translate, lookup_nil]
          bare := fun hk => by cases hk }
        supplied := fun hyields => (hs.supplied hroot hyields).congr
          (fun q hq => hs.inv.table_install template_pml4 hq) rfl }
  · rw [show (tables_for calls).card = (tables_for calls).card - 1 + 1 by
      have hpos := Finset.card_pos.mpr ⟨_, hroot⟩
      omega] at hyields
    exact hyields.not_refuses he.refuses

/-- A part of the top table without the kernel's entries translates nothing. -/
theorem get_mapping_bare {E : Halt α → Prop} {v : UInt64} (hI : Inv P s)
    (hv : KernelIndex (pml4_idx v))
    (hbare : entry s.mem s._pgt_virt_base (pml4_idx v) = ⟨0⟩) :
    Ends (get_mapping v) s (fun r s' => r = none ∧ s' = s) E := by
  unfold get_mapping present_table
  simp only [ends_bind, ends_get]
  rw [ends_load_entry (hI.window (root_isTable s)) (leaf_kernel (s := s) hv).lt, hbare]
  exact ⟨rfl, rfl⟩

theorem lookup_kernel {calls : List Insertion} (hcalls : ∀ c ∈ calls, c.Allowed) {v : UInt64}
    (hv : KernelIndex (pml4_idx v)) : lookup calls v = none := by
  unfold lookup
  rw [List.find?_eq_none.mpr, Option.map_none]
  intro c hc hpage
  rw [beq_iff_eq] at hpage
  rw [pml4_idx_eq, ← hpage, ← pml4_idx_eq] at hv
  exact (hcalls c (List.mem_reverse.mp hc)).2 hv

/-- The part of the addresses that a process has for itself. -/
def Own (kernel : Option Template) (v : UInt64) : Prop :=
  kernel = none ∨ ¬ KernelIndex (pml4_idx v)

theorem Shows.get_mapping_spec {kernel : Option Template} {calls : List Insertion} {v : UInt64}
    (h : Shows P kernel calls s) (hcalls : ∀ c ∈ calls, c.Allowed) (hv : Own kernel v) :
    Returns (get_mapping v) s fun r s' => r = lookup calls v ∧ s' = s := by
  refine returns_of_ends ?_
  by_cases hk : KernelIndex (pml4_idx v)
  · have hnone : kernel = none := hv.resolve_right fun h => h hk
    rw [lookup_kernel hcalls hk]
    exact get_mapping_bare h.inv hk (h.bare hnone _ hk)
  · rw [← h.translate]
    exact Vma.get_mapping_spec h.inv hk

/-- As long as the allocator has a frame below 4 GiB for each table that is needed, any insertions
of present pages outside the kernel's part succeed, and after them `get_mapping` finds the last
insertion for the page, and nothing for a page that was never inserted. One more insertion succeeds
too, and changes what it finds for one page only. -/
theorem tables_are_map (P : PageSource α) (mem : Memory) (a : α) (kernel : Option Template)
    (calls : List Insertion) (hcalls : ∀ c ∈ calls, c.Allowed)
    (hframes : Yields P (tables_for calls).card a) :
    Returns (build P kernel calls) (start mem a) fun _ s =>
      (∀ v, Own kernel v →
        Returns (get_mapping v) s fun r s' => r = lookup calls v ∧ s' = s) ∧
      ∀ c : Insertion, c.Allowed →
        Yields P ((tables_for (calls ++ [c])).card - (tables_for calls).card) s.pgalloc →
        Returns (insert_mapping P c.va c.pa c.flags) s fun _ s' =>
          ∀ v, Own kernel v → page_number v ≠ page_number c.va →
            Returns (get_mapping v) s' fun r _ => Returns (get_mapping v) s fun r' _ => r = r' := by
  refine returns_of_ends (ends_weaken (build_spec mem a kernel hcalls) (fun _ s hs => ⟨?_, ?_⟩)
    fun _ hstarved => hstarved hframes)
  · exact fun v hv => hs.shows.get_mapping_spec hcalls hv
  · intro c hc hmore
    have hall : ∀ d ∈ calls ++ [c], d.Allowed := by
      simpa [or_imp, forall_and] using ⟨hcalls, hc⟩
    have hsupplied : Supplied P (tables_for (calls ++ [c])) (tables_for calls) s := {
      tables := (hs.supplied hframes).tables
      subset := by
        rw [tables_for_concat]
        exact Finset.subset_union_left
      yields := hmore }
    refine returns_of_ends (ends_weaken (hs.shows.insert_spec hc) (fun _ s' hs' v hv hpage => ?_)
      fun e he => he.not_supplied (fun q => mem_tables_for (by simp)) hsupplied)
    refine returns_mono (hs'.1.get_mapping_spec hall hv) ?_
    rintro r _ ⟨rfl, -⟩
    refine returns_mono (hs.shows.get_mapping_spec hcalls hv) ?_
    rintro r' _ ⟨rfl, -⟩
    rw [lookup_concat, if_neg hpage]

/-- Hands out the frames below 4 GiB in order. -/
def inOrder : PageSource ℕ where
  alloc_pages order a :=
    if 0 ≤ order ∧ order ≤ 16 ∧ 0 < a ∧ a + 2 ^ order.toNat ≤ 2 ^ 20 then
      .ok (some a, a + 2 ^ order.toNat)
    else .ok (none, a)
  free a := {p | 0 < a ∧ a ≤ p ∧ p < 2 ^ 20}
  shrinks := by
    intro order a r a' h
    split at h <;> cases h
    · have := Nat.two_pow_pos order.toNat
      rintro p ⟨hpos, hle, hlt⟩
      exact ⟨by omega, by omega, hlt⟩
    · exact subset_rfl
  order_le := by
    intro order a pfn a' h
    split at h <;> cases h
    exact ⟨by omega, by omega⟩
  grants := by
    intro order a pfn a' h
    split at h <;> cases h
    intro i hi
    refine ⟨⟨by omega, by omega, by omega⟩, ?_⟩
    rintro ⟨-, hle, -⟩
    omega
  zero_kept a := by
    rintro ⟨hpos, hle, -⟩
    omega
  physical a p hp := by
    have := hp.2.2
    omega

/-- Two insertions for one page, the second of which counts. -/
def twice : List Insertion :=
  [⟨0x400000, 0x7000, ⟨true, true, true⟩⟩, ⟨0x400000, 0x9000, ⟨true, true, false⟩⟩]

theorem tables_are_map_twice :
    Returns (do build inOrder none twice; get_mapping 0x400123) (start (fun _ => 0) 1)
      fun r _ => r = some 0x9123 := by
  have hcalls : ∀ c ∈ twice, c.Allowed := by
    unfold twice Insertion.Allowed
    decide +kernel
  have hframes : Yields inOrder (tables_for twice).card 1 := by
    rw [show (tables_for twice).card = 4 by decide +kernel]
    exact ⟨1, 2, rfl, by decide, 2, 3, rfl, by decide, 3, 4, rfl, by decide, 4, 5, rfl, by decide,
      trivial⟩
  rw [returns_bind]
  refine returns_mono (tables_are_map inOrder (fun _ => 0) 1 none twice hcalls hframes) ?_
  rintro _ s ⟨hlookup, -⟩
  refine returns_mono (hlookup 0x400123 (.inl rfl)) ?_
  rintro r _ ⟨rfl, -⟩
  decide +kernel

end Infos.Vma
