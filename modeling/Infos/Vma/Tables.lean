import Infos.Lib.Radix
import Infos.Vma.Entries
import Infos.Vma.Supply
import Mathlib.Data.Finset.Card

/-!
# The tables in memory as a tree

The entries 0x100 and 0x1ff of the top table are the kernel's, and lead nowhere here.
-/

open Infos.Bytes Infos.Prog Infos.Radix

namespace Infos.Vma

variable {α : Type}

/-! ## Entries in memory -/

def entry (m : Memory) (table idx : ℕ) : MMUTableEntry := ⟨load64 m (table + 8 * idx)⟩

variable {m m' : Memory} {t u x i j : ℕ}

theorem entry_congr (h : ∀ y, t ≤ y → y < t + 4096 → m' y = m y) (hi : i < 512) :
    entry m' t i = entry m t i := by
  unfold entry load64
  rw [load_congr fun y hy hlt => h y (by omega) (by omega)]

theorem entry_zero (hi : i < 512) : entry (zero m t 4096) t i = ⟨0⟩ := by
  unfold entry
  rw [load64_zero (by omega) (by omega)]

theorem entry_store_same (e : MMUTableEntry) : entry (store64 m (t + 8 * i) e.bits) t i = e := by
  unfold entry
  rw [load64_store64]

theorem entry_store_other (e : MMUTableEntry) (ht : 4096 ∣ t) (hx : 4096 ∣ x) (hi : i < 512)
    (hj : j < 512) (hne : x ≠ t ∨ j ≠ i) :
    entry (store64 m (t + 8 * i) e.bits) x j = entry m x j := by
  unfold entry
  rw [load64_store64_apart]
  obtain ⟨a, rfl⟩ := ht
  obtain ⟨b, rfl⟩ := hx
  omega

/-! ## Tables and translations -/

def KernelIndex (idx : ℕ) : Prop := idx = 0x100 ∨ idx = 0x1ff

instance (idx : ℕ) : Decidable (KernelIndex idx) := inferInstanceAs (Decidable (_ ∨ _))

/-- The indexes through which a process has tables of its own. -/
def Follows (root t idx : ℕ) : Prop := idx < 512 ∧ 4096 ∣ t ∧ ¬ (t = root ∧ KernelIndex idx)

instance (root t idx : ℕ) : Decidable (Follows root t idx) :=
  inferInstanceAs (Decidable (_ ∧ _ ∧ _))

def next (m : Memory) (root t idx : ℕ) : Option ℕ :=
  if Follows root t idx ∧ (entry m t idx).base_address ≠ 0 then
    some (entry m t idx).base_address.toNat
  else none

def path (va : UInt64) : List ℕ := [pml4_idx va, pdp_idx va, pd_idx va]

def MMUTableEntry.translation (e : MMUTableEntry) (va : UInt64) : Option UInt64 :=
  if e.present then some (e.base_address ||| __page_offset va) else none

namespace State

variable (s : State α)

/-- The table that a path from the top leads to. -/
def table (p : List ℕ) : Option ℕ := walk (next s.mem s._pgt_virt_base) s._pgt_virt_base p

def translate (va : UInt64) : Option UInt64 :=
  (s.table (path va)).bind fun pt => (entry s.mem pt (pt_idx va)).translation va

def IsTable (t : ℕ) : Prop := ∃ p, p.length ≤ 3 ∧ s.table p = some t

/-- The pages of the tables. -/
def tablePages : Set ℕ := {p | s.IsTable (4096 * p)}

/-- The pages that the address space was given. -/
def owned : Set ℕ := {p | ∃ a ∈ s._page_allocations,
  a.descriptor_base ≤ p ∧ p < a.descriptor_base + block_pages a.allocation_order}

end State

/-- What holds of an address space at any time. -/
structure Inv (P : PageSource α) (s : State α) : Prop where
  unshared : Unshared (next s.mem s._pgt_virt_base) s._pgt_virt_base 3
  aligned : ∀ {t}, s.IsTable t → 4096 ∣ t
  window : ∀ {t}, s.IsTable t → t + 4096 ≤ PMEM_VA_SIZE
  tables_owned : s.tablePages ⊆ s.owned
  owned_kept : ∀ p ∈ s.owned, p ∉ P.free s.pgalloc
  tidy : ∀ p t i, p.length < 3 → s.table p = some t → Follows s._pgt_virt_base t i →
    ((entry s.mem t i).present = true ↔ (entry s.mem t i).base_address ≠ 0)

/-- Every write from `s` to `s'` is on the pages of `S`. -/
structure Wrote (s s' : State α) (S : Set ℕ) : Prop where
  recorded : ∃ l, s'.written = l ++ s.written ∧
    ∀ r ∈ l, ∀ y, r.1 ≤ y → y < r.1 + r.2 → y / 4096 ∈ S
  elsewhere : ∀ y, y / 4096 ∉ S → s'.mem y = s.mem y

/-- What making tables and filling them may change. -/
structure Grows (P : PageSource α) (s s' : State α) : Prop where
  root : s'._pgt_virt_base = s._pgt_virt_base
  drawn : Drawn P s.pgalloc s'.pgalloc
  owned : s.owned ⊆ s'.owned
  new_owned : s'.owned ⊆ s.owned ∪ P.free s.pgalloc
  tables : s.tablePages ⊆ s'.tablePages
  new_tables : s'.tablePages ⊆ s.tablePages ∪ P.free s.pgalloc
  wrote : Wrote s s' s'.tablePages
  kernel : ∀ i, KernelIndex i →
    entry s'.mem s._pgt_virt_base i = entry s.mem s._pgt_virt_base i

theorem Wrote.refl (s : State α) (S : Set ℕ) : Wrote s s S := ⟨⟨[], rfl, by simp⟩, fun _ _ => rfl⟩

theorem Wrote.trans {s s' s'' : State α} {S S' : Set ℕ} (h : Wrote s s' S) (h' : Wrote s' s'' S')
    (hS : S ⊆ S') : Wrote s s'' S' := by
  obtain ⟨l, hl, hin⟩ := h.recorded
  obtain ⟨l', hl', hin'⟩ := h'.recorded
  refine ⟨⟨l' ++ l, by rw [hl', hl, List.append_assoc], fun r hr y hy hlt => ?_⟩, fun y hy => ?_⟩
  · rcases List.mem_append.mp hr with hr | hr
    · exact hin' r hr y hy hlt
    · exact hS (hin r hr y hy hlt)
  · rw [h'.elsewhere y hy, h.elsewhere y fun hy' => hy (hS hy')]

theorem Wrote.mono {s s' : State α} {S S' : Set ℕ} (h : Wrote s s' S) (hS : S ⊆ S') :
    Wrote s s' S' := h.trans (Wrote.refl s' S') hS

theorem wrote_put (s : State α) {m : Memory} {a n : ℕ} {S : Set ℕ}
    (hin : ∀ y, a ≤ y → y < a + n → y / 4096 ∈ S) (hm : ∀ y, y < a ∨ a + n ≤ y → m y = s.mem y) :
    Wrote s (put m a n s) S := by
  refine ⟨⟨[(a, n)], rfl, ?_⟩, fun y hy => hm y ?_⟩
  · simpa using hin
  · by_contra hy'
    exact hy (hin y (by omega) (by omega))

theorem Grows.free {P : PageSource α} {s s' : State α} (h : Grows P s s') :
    P.free s'.pgalloc ⊆ P.free s.pgalloc := h.drawn.free

theorem Grows.refl (P : PageSource α) (s : State α) : Grows P s s where
  root := rfl
  drawn := .refl P _
  owned := subset_rfl
  new_owned := Set.subset_union_left
  tables := subset_rfl
  new_tables := Set.subset_union_left
  wrote := Wrote.refl s _
  kernel _ _ := rfl

theorem Grows.trans {P : PageSource α} {s s' s'' : State α} (h : Grows P s s')
    (h' : Grows P s' s'') : Grows P s s'' where
  root := h'.root.trans h.root
  drawn := h.drawn.trans h'.drawn
  owned := h.owned.trans h'.owned
  new_owned := h'.new_owned.trans
    (Set.union_subset h.new_owned (h.free.trans Set.subset_union_right))
  tables := h.tables.trans h'.tables
  new_tables := h'.new_tables.trans
    (Set.union_subset h.new_tables (h.free.trans Set.subset_union_right))
  wrote := h.wrote.trans h'.wrote h'.tables
  kernel i hi := by
    rw [← h.kernel i hi, ← h.root]
    exact h'.kernel i hi

/-! ## What asking for pages changes -/

/-- From `s` to `s'` pages were asked for, and nothing was written but pages that were given. -/
structure Spends (P : PageSource α) (s s' : State α) : Prop where
  drawn : Drawn P s.pgalloc s'.pgalloc
  owned : s.owned ⊆ s'.owned
  new_owned : s'.owned ⊆ s.owned ∪ P.free s.pgalloc
  wrote : Wrote s s' s'.owned

/-- The run stopped when the source, which had been `a`, refused a block. -/
def Refused (P : PageSource α) (a : α) (e : Halt α) : Prop :=
  e.fault = .noFrame ∧ ∃ order b, Drawn P a b ∧ Refuses P order b e.state.pgalloc

/-- A run from `s` that stopped because a block was refused. -/
structure Halted (P : PageSource α) (s : State α) (e : Halt α) : Prop where
  spends : Spends P s e.state
  refused : Refused P s.pgalloc e

namespace Spends

variable {P : PageSource α} {s s' s'' : State α} {e : Halt α}

theorem free (h : Spends P s s') : P.free s'.pgalloc ⊆ P.free s.pgalloc := h.drawn.free

theorem refl (P : PageSource α) (s : State α) : Spends P s s where
  drawn := .refl P _
  owned := subset_rfl
  new_owned := Set.subset_union_left
  wrote := Wrote.refl s _

theorem trans (h : Spends P s s') (h' : Spends P s' s'') : Spends P s s'' where
  drawn := h.drawn.trans h'.drawn
  owned := h.owned.trans h'.owned
  new_owned := h'.new_owned.trans
    (Set.union_subset h.new_owned (h.free.trans Set.subset_union_right))
  wrote := h.wrote.trans h'.wrote h'.owned

theorem halted (h : Spends P s s') (he : Halted P s' e) : Halted P s e where
  spends := h.trans he.spends
  refused := by
    obtain ⟨hfault, order, b, hdrawn, hrefuses⟩ := he.refused
    exact ⟨hfault, order, b, h.drawn.trans hdrawn, hrefuses⟩

theorem congr (h : Spends P s s') (hmem : s''.mem = s'.mem) (hwritten : s''.written = s'.written)
    (hpgalloc : s''.pgalloc = s'.pgalloc) (howned : s''.owned = s'.owned) : Spends P s s'' where
  drawn := by
    rw [hpgalloc]
    exact h.drawn
  owned := by
    rw [howned]
    exact h.owned
  new_owned := by
    rw [howned]
    exact h.new_owned
  wrote := by
    rw [howned]
    refine ⟨?_, fun y hy => ?_⟩
    · rw [hwritten]
      exact h.wrote.recorded
    · rw [hmem]
      exact h.wrote.elsewhere y hy

end Spends

/-- There are the tables at the paths of `T`, and the source has a page for each that is yet
missing of those at the paths of `F`. -/
structure Supplied (P : PageSource α) (F T : Finset (List ℕ)) (s : State α) : Prop where
  tables : ∀ q, q.length ≤ 3 → ((s.table q).isSome = true ↔ q ∈ T)
  subset : T ⊆ F
  yields : Yields P (F.card - T.card) s.pgalloc

theorem Supplied.congr {P : PageSource α} {F T : Finset (List ℕ)} {s s' : State α}
    (h : Supplied P F T s) (htable : ∀ q, q.length ≤ 3 → s'.table q = s.table q)
    (hpgalloc : s'.pgalloc = s.pgalloc) : Supplied P F T s' where
  tables q hq := by
    rw [htable q hq]
    exact h.tables q hq
  subset := h.subset
  yields := by
    rw [hpgalloc]
    exact h.yields

/-- A missing table takes one of the pages. -/
theorem Supplied.missing {P : PageSource α} {F T : Finset (List ℕ)} {s : State α} {q : List ℕ}
    (h : Supplied P F T s) (hq : q ∈ F) (hmissing : q ∉ T) :
    insert q T ⊆ F ∧ F.card - T.card = F.card - (insert q T).card + 1 := by
  have hsubset : insert q T ⊆ F := Finset.insert_subset hq h.subset
  have hle := Finset.card_le_card hsubset
  rw [Finset.card_insert_of_notMem hmissing] at hle ⊢
  exact ⟨hsubset, by omega⟩

/-! ## Reading the tree -/

theorem next_congr {root : ℕ} (h : Follows root t i → entry m' t i = entry m t i) :
    next m' root t i = next m root t i := by
  unfold next
  by_cases hf : Follows root t i
  · rw [h hf]
  · simp [hf]

theorem next_eq {root : ℕ} (hf : Follows root t i) (h : (entry m t i).base_address ≠ 0) :
    next m root t i = some (entry m t i).base_address.toNat := by
  unfold next
  rw [if_pos ⟨hf, h⟩]

theorem next_none {root : ℕ} (h : (entry m t i).base_address = 0) : next m root t i = none := by
  unfold next
  simp [h]

theorem page_number_eq_iff (va v : UInt64) :
    page_number v = page_number va ↔ path v = path va ∧ pt_idx v = pt_idx va := by
  unfold path
  simp only [pml4_idx_eq, pdp_idx_eq, pd_idx_eq, pt_idx_eq, List.cons.injEq, and_true]
  omega

theorem path_length (va : UInt64) : (path va).length = 3 := rfl

theorem pt_idx_lt (va : UInt64) : pt_idx va < 512 := by
  rw [pt_idx_eq]
  omega

theorem root_isTable (s : State α) : s.IsTable s._pgt_virt_base := ⟨[], by simp, rfl⟩

namespace Inv

variable {P : PageSource α} {s s' : State α}

theorem page_mem (hI : Inv P s) (ht : s.IsTable t) : t / 4096 ∈ s.tablePages := by
  show s.IsTable (4096 * (t / 4096))
  rwa [Nat.mul_div_cancel' (hI.aligned ht)]

theorem not_free (hI : Inv P s) (ht : s.IsTable t) : t / 4096 ∉ P.free s.pgalloc :=
  hI.owned_kept _ (hI.tables_owned (hI.page_mem ht))

/-- An entry has its table's page around it. -/
theorem page_of (hI : Inv P s) (ht : s.IsTable t) {y : ℕ} (hy : t ≤ y) (hlt : y < t + 4096) :
    y / 4096 = t / 4096 := by
  obtain ⟨k, rfl⟩ := hI.aligned ht
  omega

/-! ## Leaving the tables alone -/

theorem entry_eq (hI : Inv P s) (hmem : ∀ y, y / 4096 ∈ s.tablePages → s'.mem y = s.mem y)
    (ht : s.IsTable t) (hi : i < 512) : entry s'.mem t i = entry s.mem t i := by
  refine entry_congr (fun y hy hlt => hmem y ?_) hi
  rw [hI.page_of ht hy hlt]
  exact hI.page_mem ht

theorem table_eq (hI : Inv P s) (hroot : s'._pgt_virt_base = s._pgt_virt_base)
    (hmem : ∀ y, y / 4096 ∈ s.tablePages → s'.mem y = s.mem y) {p : List ℕ} (hp : p.length ≤ 3) :
    s'.table p = s.table p := by
  unfold State.table
  rw [hroot]
  refine walk_same (fun q x hq hx j => next_congr fun hf => ?_) p hp
  exact hI.entry_eq hmem ⟨q, by omega, hx⟩ hf.1

theorem translate_eq (hI : Inv P s) (hroot : s'._pgt_virt_base = s._pgt_virt_base)
    (hmem : ∀ y, y / 4096 ∈ s.tablePages → s'.mem y = s.mem y) (va : UInt64) :
    s'.translate va = s.translate va := by
  unfold State.translate
  rw [hI.table_eq hroot hmem (path_length va).le]
  cases ht : s.table (path va) with
  | none => rw [Option.bind_none, Option.bind_none]
  | some pt =>
    have hpt : s.IsTable pt := ⟨path va, (path_length va).le, ht⟩
    rw [Option.bind_some, Option.bind_some, hI.entry_eq hmem hpt (pt_idx_lt va)]

theorem isTable_iff (hI : Inv P s) (hroot : s'._pgt_virt_base = s._pgt_virt_base)
    (hmem : ∀ y, y / 4096 ∈ s.tablePages → s'.mem y = s.mem y) (t : ℕ) :
    s'.IsTable t ↔ s.IsTable t := by
  unfold State.IsTable
  refine exists_congr fun p => and_congr_right fun hp => ?_
  rw [hI.table_eq hroot hmem hp]

theorem tablePages_eq (hI : Inv P s) (hroot : s'._pgt_virt_base = s._pgt_virt_base)
    (hmem : ∀ y, y / 4096 ∈ s.tablePages → s'.mem y = s.mem y) : s'.tablePages = s.tablePages :=
  Set.ext fun _ => hI.isTable_iff hroot hmem _

theorem spends (hI : Inv P s') (h : Grows P s s') : Spends P s s' :=
  ⟨h.drawn, h.owned, h.new_owned, h.wrote.mono hI.tables_owned⟩

theorem untouched (hI : Inv P s) (hroot : s'._pgt_virt_base = s._pgt_virt_base)
    (hmem : ∀ y, y / 4096 ∈ s.tablePages → s'.mem y = s.mem y) (howned : s.owned ⊆ s'.owned)
    (hkept : ∀ p ∈ s'.owned, p ∉ P.free s'.pgalloc) : Inv P s' where
  unshared := by
    rw [hroot]
    refine unshared_congr hI.unshared fun q hq => ?_
    have h := hI.table_eq hroot hmem hq
    unfold State.table at h
    rwa [hroot] at h
  aligned ht := hI.aligned ((hI.isTable_iff hroot hmem _).mp ht)
  window ht := hI.window ((hI.isTable_iff hroot hmem _).mp ht)
  tables_owned := by
    rw [hI.tablePages_eq hroot hmem]
    exact hI.tables_owned.trans howned
  owned_kept := hkept
  tidy p t i hp ht hf := by
    rw [hI.table_eq hroot hmem hp.le] at ht
    rw [hroot] at hf
    rw [hI.entry_eq hmem ⟨p, hp.le, ht⟩ hf.1]
    exact hI.tidy p t i hp ht hf

end Inv

end Infos.Vma
