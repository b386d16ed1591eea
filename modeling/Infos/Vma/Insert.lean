import Infos.Vma.NewTable

/-!
# Specs of the functions that make and read mappings
-/

open Infos.Bytes Infos.Prog Infos.Radix

namespace Infos.Vma

variable {α : Type} {P : PageSource α} {s s' : State α} {E : Halt α → Prop}

/-! ## The functions of `VMA` -/

/-- From `s` to `s'` no translation changed, and now `q` leads to `u`. -/
structure Made (P : PageSource α) (s : State α) (q : List ℕ) (u : ℕ) (s' : State α) : Prop where
  inv : Inv P s'
  grows : Grows P s s'
  table : s'.table q = some u
  translate : ∀ va, s'.translate va = s.translate va
  supplied : ∀ {F T : Finset (List ℕ)}, q ∈ F → Supplied P F T s → Supplied P F (insert q T) s'

/-- The source had no page for one of the tables at the paths of `qs`. -/
structure Starved (P : PageSource α) (s : State α) (qs : List (List ℕ)) (e : Halt α) : Prop where
  halted : Halted P s e
  not_supplied : ∀ {F T : Finset (List ℕ)}, (∀ q ∈ qs, q ∈ F) → ¬ Supplied P F T s

theorem Inv.step_table {p : List ℕ} {t i : ℕ} (hI : Inv P s) (hp : p.length < 3)
    (ht : s.table p = some t) (hf : Follows s._pgt_virt_base t i)
    (hne : (entry s.mem t i).base_address ≠ 0) :
    s.table (p ++ [i]) = some (entry s.mem t i).base_address.toNat ∧
      (entry s.mem t i).base_address.toNat < PMEM_VA_SIZE := by
  have hstep : s.table (p ++ [i]) = some (entry s.mem t i).base_address.toNat := by
    unfold State.table at ht ⊢
    rw [walk_concat, ht]
    exact next_eq hf hne
  have hwindow := hI.window ⟨p ++ [i], by simp; omega, hstep⟩
  exact ⟨hstep, by omega⟩

/-- Behind the entry there is a table already, or a fresh page becomes the table behind it. Only
where there is none a page may be refused. -/
theorem next_table_cases {p : List ℕ} {t i : ℕ} (hI : Inv P s) (hp : p.length < 3)
    (ht : s.table p = some t) (hf : Follows s._pgt_virt_base t i) :
    Ends (next_table P t i) s (fun u s' =>
      s' = s ∧ s.table (p ++ [i]) = some u ∨ ∃ pgd, u = 4096 * pgd ∧ Extends P s p t i pgd s')
      fun e => s.table (p ++ [i]) = none ∧ Denied P s 0 e := by
  have htable : s.IsTable t := ⟨p, hp.le, ht⟩
  have hwindow := hI.window htable
  unfold next_table
  rw [ends_bind, ends_load_entry hwindow hf.1]
  split
  next hempty =>
    have hnone : s.table (p ++ [i]) = none := by
      unfold State.table at ht ⊢
      rw [walk_concat, ht]
      exact next_none hempty
    simp only [ends_bind]
    refine ends_granted (fun pgd s₁ hG => ?_) fun e he => ⟨hnone, he⟩
    have hmem : s₁.mem = zero s.mem (4096 * pgd) 4096 := hG.mem
    have hfree : pgd ∈ P.free s.pgalloc ∧ pgd ∉ P.free s₁.pgalloc :=
      hG.block_free pgd le_rfl (Nat.lt_add_of_pos_right (block_pages_pos 0))
    have hsame : entry s₁.mem t i = entry s.mem t i := by
      have hpgd : t / 4096 ≠ pgd := by
        rintro rfl
        exact hI.not_free htable hfree.1
      refine entry_congr (fun y hy hlt => hG.mem_elsewhere ?_) hf.1
      rw [hI.page_of htable hy hlt]
      show t / 4096 < pgd ∨ pgd + 1 ≤ t / 4096
      omega
    simp only [ends_load_entry hwindow hf.1, ends_store_entry hwindow hf.1, hsame]
    set s' := put (store64 s₁.mem (t + 8 * i)
      ((entry s.mem t i).set_table (pgd_to_pa pgd)).bits) (t + 8 * i) 8 s₁ with hs'
    have hlimit : 4096 * (pgd + 1) ≤ PMEM_VA_SIZE := hG.window
    have hE : Extends P s p t i pgd s' := {
      inv := hI
      short := hp
      table := ht
      follows := hf
      empty := hempty
      drew := hG.drew
      window := by omega
      mem := by rw [← hmem]; rfl
      written := congrArg _ hG.written
      owned := by
        refine hG.owned_eq.trans (congrArg _ (Set.ext fun x => ?_))
        show pgd ≤ x ∧ x < pgd + 1 ↔ x = pgd
        omega
      root := hG.root }
    rw [ends_pa_to_vpa]
    · rw [hE.entry_here, hE.base_toNat]
      exact .inr ⟨pgd, rfl, hE⟩
    · rw [hE.entry_here, hE.base_toNat]
      omega
  next hne =>
    obtain ⟨hstep, hlt⟩ := hI.step_table hp ht hf hne
    simp only [ends_bind, ends_load_entry hwindow hf.1]
    rw [ends_pa_to_vpa hlt]
    exact .inl ⟨rfl, hstep⟩

theorem Extends.supplied {p : List ℕ} {t i pgd : ℕ} {F T : Finset (List ℕ)}
    (h : Extends P s p t i pgd s') (hin : p ++ [i] ∈ F) (hs : Supplied P F T s) :
    Supplied P F (insert (p ++ [i]) T) s' := by
  have hlen : (p ++ [i]).length ≤ 3 := by
    have := h.short
    simp
    omega
  have hmissing : p ++ [i] ∉ T := by
    rw [← hs.tables _ hlen, h.table_before]
    simp
  obtain ⟨hsubset, hcard⟩ := hs.missing hin hmissing
  refine {
    tables := fun q hq => ?_
    subset := hsubset
    yields := ?_ }
  · rw [h.table_eq hq, Finset.mem_insert, ← hs.tables q hq]
    split <;> simp [*]
  · have hyields := hs.yields
    rw [hcard] at hyields
    exact hyields.next h.drew

theorem next_table_spec {p : List ℕ} {t i : ℕ} (hI : Inv P s) (hp : p.length < 3)
    (ht : s.table p = some t) (hf : Follows s._pgt_virt_base t i) :
    Ends (next_table P t i) s (Made P s (p ++ [i])) (Starved P s [p ++ [i]]) := by
  have hlen : (p ++ [i]).length ≤ 3 := by
    simp
    omega
  refine ends_weaken (next_table_cases hI hp ht hf) (fun u s' h => ?_) fun e he => ?_
  · obtain ⟨rfl, hstep⟩ | ⟨pgd, rfl, hE⟩ := h
    · exact {
        inv := hI
        grows := Grows.refl P s'
        table := hstep
        translate := fun _ => rfl
        supplied := fun {F T} _ hs => by
          have hmem : p ++ [i] ∈ T := (hs.tables _ hlen).mp (by rw [hstep]; rfl)
          rwa [Finset.insert_eq_of_mem hmem] }
    · exact {
        inv := hE.inv'
        grows := hE.grows
        table := hE.table_here
        translate := hE.translate_eq
        supplied := hE.supplied }
  · obtain ⟨hnone, hdenied⟩ := he
    refine ⟨hdenied.halted, fun {F T} hin hs => ?_⟩
    have hmissing : p ++ [i] ∉ T := by
      rw [← hs.tables _ hlen, hnone]
      simp
    have hyields := hs.yields
    rw [(hs.missing (hin _ List.mem_cons_self) hmissing).2] at hyields
    exact hyields.not_refuses hdenied.refuses

/-- What stopped behind a step that made a table stopped behind all that was before it. -/
theorem Made.starved {q : List ℕ} {u : ℕ} {qs : List (List ℕ)} {e : Halt α} (h : Made P s q u s')
    (he : Starved P s' qs e) : Starved P s (q :: qs) e where
  halted := (h.inv.spends h.grows).halted he.halted
  not_supplied := fun hin hs => he.not_supplied (fun q hq => hin q (List.mem_cons_of_mem _ hq))
    (h.supplied (hin _ List.mem_cons_self) hs)

theorem Starved.mono {qs qs' : List (List ℕ)} {e : Halt α} (h : Starved P s qs e)
    (hqs : ∀ q ∈ qs, q ∈ qs') : Starved P s qs' e where
  halted := h.halted
  not_supplied := fun hin => h.not_supplied fun q hq => hin q (hqs q hq)

theorem Inv.follows_root (hI : Inv P s) {va : UInt64} (hva : ¬ KernelIndex (pml4_idx va)) :
    Follows s._pgt_virt_base s._pgt_virt_base (pml4_idx va) := by
  refine ⟨?_, hI.aligned (root_isTable s), fun h => hva h.2⟩
  rw [pml4_idx_eq, page_number]
  omega

/-- Below the top all entries are the process's own. -/
theorem Inv.follows_below (hI : Inv P s) {p : List ℕ} {t i : ℕ} (ht : s.table p = some t)
    (hp : p.length ≤ 3) (hne : p ≠ []) (hi : i < 512) : Follows s._pgt_virt_base t i := by
  refine ⟨hi, hI.aligned ⟨p, hp, ht⟩, ?_⟩
  rintro ⟨rfl, -⟩
  exact hne (hI.unshared p [] _ hp (by simp) ht rfl)

theorem pdp_idx_lt (va : UInt64) : pdp_idx va < 512 := by
  rw [pdp_idx_eq]
  omega

theorem pd_idx_lt (va : UInt64) : pd_idx va < 512 := by
  rw [pd_idx_eq]
  omega

section Fill

variable {va : UInt64} {t pt idx : ℕ}

/-- An entry that no path follows: a page's, or one of the kernel's. -/
structure Leaf (s : State α) (t idx : ℕ) : Prop where
  isTable : s.IsTable t
  lt : idx < 512
  unread : ∀ q, q.length < 3 → s.table q = some t → ¬ Follows s._pgt_virt_base t idx

theorem Inv.leaf (hI : Inv P s) (ht : s.table (path va) = some pt) : Leaf s pt (pt_idx va) where
  isTable := ⟨path va, (path_length va).le, ht⟩
  lt := pt_idx_lt va
  unread q hq hx := by
    have := congrArg List.length (hI.unshared q (path va) pt hq.le (path_length va).le hx ht)
    rw [path_length] at this
    omega

theorem leaf_kernel (hidx : KernelIndex idx) : Leaf s s._pgt_virt_base idx where
  isTable := root_isTable s
  lt := by rcases hidx with rfl | rfl <;> decide
  unread _ _ _ hf := hf.2.2 ⟨rfl, hidx⟩

def State.fill (s : State α) (t idx : ℕ) (e : MMUTableEntry) : State α :=
  put (store64 s.mem (t + 8 * idx) e.bits) (t + 8 * idx) 8 s

theorem Inv.entry_fill (hI : Inv P s) (hl : Leaf s t idx) (e : MMUTableEntry) {x j : ℕ}
    (hx : 4096 ∣ x) (hj : j < 512) (hne : x ≠ t ∨ j ≠ idx) :
    entry (s.fill t idx e).mem x j = entry s.mem x j :=
  entry_store_other e (hI.aligned hl.isTable) hx hl.lt hj hne

theorem Inv.entry_read (hI : Inv P s) (hl : Leaf s t idx) (e : MMUTableEntry) {q : List ℕ}
    {x j : ℕ} (hq : q.length < 3) (hx : s.table q = some x) (hf : Follows s._pgt_virt_base x j) :
    entry (s.fill t idx e).mem x j = entry s.mem x j := by
  refine hI.entry_fill hl e hf.2.1 hf.1 ?_
  by_contra hc
  simp only [not_or, not_not] at hc
  obtain ⟨rfl, rfl⟩ := hc
  exact hl.unread q hq hx hf

theorem Inv.table_fill (hI : Inv P s) (hl : Leaf s t idx) (e : MMUTableEntry) {q : List ℕ}
    (hq : q.length ≤ 3) : (s.fill t idx e).table q = s.table q :=
  walk_same (fun _ _ hr hx _ => next_congr fun hf => hI.entry_read hl e hr hx hf) q hq

theorem Inv.isTable_fill (hI : Inv P s) (hl : Leaf s t idx) (e : MMUTableEntry) (x : ℕ) :
    (s.fill t idx e).IsTable x ↔ s.IsTable x := by
  refine exists_congr fun q => and_congr_right fun hq => ?_
  rw [hI.table_fill hl e hq]

theorem Inv.tablePages_fill (hI : Inv P s) (hl : Leaf s t idx) (e : MMUTableEntry) :
    (s.fill t idx e).tablePages = s.tablePages := Set.ext fun _ => hI.isTable_fill hl e _

theorem Inv.fill (hI : Inv P s) (hl : Leaf s t idx) (e : MMUTableEntry) :
    Inv P (s.fill t idx e) where
  unshared := unshared_congr hI.unshared fun _ hq => hI.table_fill hl e hq
  aligned hx := hI.aligned ((hI.isTable_fill hl e _).mp hx)
  window hx := hI.window ((hI.isTable_fill hl e _).mp hx)
  tables_owned x hx := hI.tables_owned ((hI.isTable_fill hl e _).mp hx)
  owned_kept := hI.owned_kept
  tidy q x j hq hx hf := by
    rw [hI.table_fill hl e hq.le] at hx
    rw [hI.entry_read hl e hq hx hf]
    exact hI.tidy q x j hq hx hf

theorem Inv.wrote_fill (hI : Inv P s) (hl : Leaf s t idx) (e : MMUTableEntry) :
    Wrote s (s.fill t idx e) s.tablePages := by
  have hlt := hl.lt
  refine wrote_put s (fun y hy hy' => ?_) fun y hy => store64_outside _ hy
  rw [hI.page_of hl.isTable (by omega) (by omega)]
  exact hI.page_mem hl.isTable

theorem Inv.ne_root (hI : Inv P s) (ht : s.table (path va) = some pt) : pt ≠ s._pgt_virt_base := by
  rintro rfl
  have := congrArg List.length (hI.unshared (path va) [] _ (path_length va).le (by simp) ht rfl)
  rw [path_length, List.length_nil] at this
  omega

theorem Inv.grows_fill (hI : Inv P s) (ht : s.table (path va) = some pt) (e : MMUTableEntry) :
    Grows P s (s.fill pt (pt_idx va) e) where
  root := rfl
  drawn := .refl P _
  owned := subset_rfl
  new_owned := Set.subset_union_left
  tables := (hI.tablePages_fill (hI.leaf ht) e).ge
  new_tables := (hI.tablePages_fill (hI.leaf ht) e).le.trans Set.subset_union_left
  wrote := (hI.wrote_fill (hI.leaf ht) e).mono (hI.tablePages_fill (hI.leaf ht) e).ge
  kernel _ hj := hI.entry_fill (hI.leaf ht) e (hI.aligned (root_isTable s)) (leaf_kernel (s := s) hj).lt
    (.inl (hI.ne_root ht).symm)

/-- The entry is not one that the translation of `v` reads. -/
theorem Inv.translate_other (hI : Inv P s) (hl : Leaf s t idx) (e : MMUTableEntry) (v : UInt64)
    (hne : ∀ x, s.table (path v) = some x → x ≠ t ∨ pt_idx v ≠ idx) :
    (s.fill t idx e).translate v = s.translate v := by
  unfold State.translate
  rw [hI.table_fill hl e (path_length v).le]
  cases hx : s.table (path v) with
  | none => rw [Option.bind_none, Option.bind_none]
  | some x =>
    have hxt : s.IsTable x := ⟨path v, (path_length v).le, hx⟩
    rw [Option.bind_some, Option.bind_some, hI.entry_fill hl e (hI.aligned hxt) (pt_idx_lt v)
      (hne x hx)]

/-- The translation of one page is new, the others are what they were. -/
theorem Inv.translate_fill (hI : Inv P s) (ht : s.table (path va) = some pt) (e : MMUTableEntry)
    (v : UInt64) : (s.fill pt (pt_idx va) e).translate v =
      if page_number v = page_number va then e.translation v else s.translate v := by
  split
  next hpage =>
    obtain ⟨hpath, hidx⟩ := (page_number_eq_iff va v).mp hpage
    unfold State.translate
    rw [hI.table_fill (hI.leaf ht) e (path_length v).le, hpath, ht, Option.bind_some, hidx]
    exact congrArg (fun e => MMUTableEntry.translation e v) (entry_store_same e)
  next hpage =>
    refine hI.translate_other (hI.leaf ht) e v fun x hx => ?_
    by_contra hc
    simp only [not_or, not_not] at hc
    obtain ⟨rfl, hidx⟩ := hc
    have hpath := hI.unshared _ _ x (path_length v).le (path_length va).le hx ht
    exact hpage ((page_number_eq_iff va v).mpr ⟨hpath, hidx⟩)

theorem Inv.translate_kernel (hI : Inv P s) (hidx : KernelIndex idx) (e : MMUTableEntry)
    (v : UInt64) : (s.fill s._pgt_virt_base idx e).translate v = s.translate v :=
  hI.translate_other (leaf_kernel hidx) e v fun _ hx => .inl (hI.ne_root hx)

end Fill

/-- The paths of the tables that lead to the page of `va`, below the top. -/
def ways (va : UInt64) : List (List ℕ) := [[pml4_idx va], [pml4_idx va, pdp_idx va], path va]

/-- From `s` to `s'` the page of `va` was mapped to the frame of `pa`. -/
structure Mapped (P : PageSource α) (s : State α) (va pa : UInt64) (s' : State α) : Prop where
  inv : Inv P s'
  grows : Grows P s s'
  translate : ∀ v, s'.translate v =
    if page_number v = page_number va then some ((pa &&& ~~~0xfff) ||| __page_offset v)
    else s.translate v
  supplied : ∀ {F T : Finset (List ℕ)}, (∀ q ∈ ways va, q ∈ F) → Supplied P F T s →
    Supplied P F (T ∪ (ways va).toFinset) s'

theorem insert_mapping_spec {va : UInt64} (pa : UInt64) {flags : MappingFlags} (hI : Inv P s)
    (hva : ¬ KernelIndex (pml4_idx va)) (hflags : flags.Present = true) :
    Ends (insert_mapping P va pa flags) s (fun _ => Mapped P s va pa) (Starved P s (ways va)) := by
  unfold insert_mapping
  simp only [ends_bind, ends_get]
  have hroot : s.table [] = some s._pgt_virt_base := rfl
  refine ends_weaken (next_table_spec hI (by simp) hroot (hI.follows_root hva))
    (fun pdp s₁ h₁ => ?_) fun e he => he.mono (by simp [ways])
  have hf₁ := h₁.inv.follows_below h₁.table (by simp) (by simp) (pdp_idx_lt va)
  refine ends_weaken (next_table_spec h₁.inv (by simp) h₁.table hf₁) (fun pd s₂ h₂ => ?_)
    fun e he => (h₁.starved he).mono (by simp [ways])
  have hf₂ := h₂.inv.follows_below h₂.table (by simp) (by simp) (pd_idx_lt va)
  refine ends_weaken (next_table_spec h₂.inv (by simp) h₂.table hf₂) (fun pt s₃ h₃ => ?_)
    fun e he => h₁.starved (h₂.starved he)
  have hpt : s₃.table (path va) = some pt := h₃.table
  have hwindow := h₃.inv.window ⟨path va, (path_length va).le, hpt⟩
  rw [ends_load_entry hwindow (pt_idx_lt va), ends_store_entry hwindow (pt_idx_lt va)]
  set e := (entry s₃.mem pt (pt_idx va)).set_mapping pa flags
  show Mapped P s va pa (s₃.fill pt (pt_idx va) e)
  exact {
    inv := h₃.inv.fill (h₃.inv.leaf hpt) e
    grows := h₁.grows.trans (h₂.grows.trans (h₃.grows.trans (h₃.inv.grows_fill hpt e)))
    translate := fun v => by
      rw [h₃.inv.translate_fill hpt, h₃.translate, h₂.translate, h₁.translate,
        MMUTableEntry.translation, MMUTableEntry.present_set_mapping _ _ hflags,
        MMUTableEntry.base_set_mapping, if_pos rfl]
    supplied := fun {F T} hin hs => by
      have hs₁ := h₁.supplied (hin _ (by simp [ways])) hs
      have hs₂ := h₂.supplied (hin _ (by simp [ways])) hs₁
      have hs₃ := h₃.supplied (hin _ (by simp [ways, path])) hs₂
      have hall : T ∪ (ways va).toFinset = insert ([] ++ [pml4_idx va] ++ [pdp_idx va] ++ [pd_idx va])
          (insert ([] ++ [pml4_idx va] ++ [pdp_idx va]) (insert ([] ++ [pml4_idx va]) T)) := by
        ext q
        simp only [ways, path, Finset.mem_union, List.mem_toFinset, List.mem_cons, List.not_mem_nil,
          or_false, Finset.mem_insert, List.nil_append, List.cons_append]
        tauto
      rw [hall]
      exact hs₃.congr (fun q hq => h₃.inv.table_fill (h₃.inv.leaf hpt) e hq) rfl }

/-! ## Looking a page up -/

theorem present_table_spec {p : List ℕ} {t i : ℕ} (hI : Inv P s) (hp : p.length < 3)
    (ht : s.table p = some t) (hf : Follows s._pgt_virt_base t i) :
    Ends (present_table t i) s (fun r s' => r = s.table (p ++ [i]) ∧ s' = s) E := by
  have hwindow := hI.window ⟨p, hp.le, ht⟩
  unfold present_table
  rw [ends_bind, ends_load_entry hwindow hf.1]
  split
  next hpresent =>
    have hne := (hI.tidy p t i hp ht hf).mp hpresent
    obtain ⟨hstep, hlt⟩ := hI.step_table hp ht hf hne
    rw [ends_map, ends_pa_to_vpa hlt]
    exact ⟨hstep.symm, rfl⟩
  next habsent =>
    have hempty : (entry s.mem t i).base_address = 0 := by
      by_contra hne
      exact habsent ((hI.tidy p t i hp ht hf).mpr hne)
    rw [ends_pure]
    refine ⟨?_, rfl⟩
    unfold State.table at ht ⊢
    rw [walk_concat, ht]
    exact (next_none hempty).symm

theorem table_of_none {p q : List ℕ} (h : s.table p = none) : s.table (p ++ q) = none := by
  unfold State.table at h ⊢
  rw [walk_append, h]
  rfl

theorem get_mapping_spec {va : UInt64} (hI : Inv P s) (hva : ¬ KernelIndex (pml4_idx va)) :
    Ends (get_mapping va) s (fun r s' => r = s.translate va ∧ s' = s) E := by
  unfold get_mapping
  simp only [ends_bind, ends_get]
  have hroot : s.table [] = some s._pgt_virt_base := rfl
  refine ends_mono (present_table_spec hI (by simp) hroot (hI.follows_root hva)) ?_
  rintro r₁ s ⟨hr₁, rfl⟩
  unfold State.translate
  cases r₁ with
  | none =>
    rw [show path va = ([] ++ [pml4_idx va]) ++ [pdp_idx va, pd_idx va] from rfl,
      table_of_none hr₁.symm]
    exact ⟨rfl, rfl⟩
  | some pdp =>
    have hf₁ := hI.follows_below hr₁.symm (by simp) (by simp) (pdp_idx_lt va)
    simp only [ends_bind]
    refine ends_mono (present_table_spec hI (by simp) hr₁.symm hf₁) ?_
    rintro r₂ s ⟨hr₂, rfl⟩
    cases r₂ with
    | none =>
      rw [show path va = ([] ++ [pml4_idx va] ++ [pdp_idx va]) ++ [pd_idx va] from rfl,
        table_of_none hr₂.symm]
      exact ⟨rfl, rfl⟩
    | some pd =>
      have hf₂ := hI.follows_below hr₂.symm (by simp) (by simp) (pd_idx_lt va)
      simp only [ends_bind]
      refine ends_mono (present_table_spec hI (by simp) hr₂.symm hf₂) ?_
      rintro r₃ s ⟨hr₃, rfl⟩
      have hpath : s.table (path va) = r₃ := hr₃.symm
      rw [hpath]
      cases r₃ with
      | none => exact ⟨rfl, rfl⟩
      | some pt =>
        have hwindow := hI.window ⟨path va, (path_length va).le, hpath⟩
        rw [ends_bind, ends_load_entry hwindow (pt_idx_lt va), Option.bind_some,
          MMUTableEntry.translation]
        split <;> exact ⟨rfl, rfl⟩

end Infos.Vma
