import Infos.Vma.Tables

/-!
# Frames, and the tables made of them
-/

open Infos.Bytes Infos.Prog Infos.Radix

namespace Infos.Vma

variable {α : Type} {P : PageSource α} {s s' : State α} {E : Halt α → Prop}

/-! ## Entries through the window -/

theorem ends_access {a n : ℕ} (h : a + n ≤ PMEM_VA_SIZE) {Q : Unit → State α → Prop} :
    Ends (access a n) s Q E ↔ Q () s := by
  unfold access
  rw [if_pos h, ends_pure]

theorem ends_load_entry {t i : ℕ} (ht : t + 4096 ≤ PMEM_VA_SIZE) (hi : i < 512)
    {Q : MMUTableEntry → State α → Prop} :
    Ends (load_entry t i) s Q E ↔ Q (entry s.mem t i) s := by
  unfold load_entry
  rw [ends_bind, ends_access (by omega)]
  simp [entry]

theorem ends_store_word {a : ℕ} (ha : a + 8 ≤ PMEM_VA_SIZE) (v : UInt64)
    {Q : Unit → State α → Prop} :
    Ends (store_word a v) s Q E ↔ Q () (put (store64 s.mem a v) a 8 s) := by
  unfold store_word
  rw [ends_bind, ends_access ha, ends_modify]

theorem ends_store_entry {t i : ℕ} (ht : t + 4096 ≤ PMEM_VA_SIZE) (hi : i < 512) (e : MMUTableEntry)
    {Q : Unit → State α → Prop} :
    Ends (store_entry t i e) s Q E ↔
      Q () (put (store64 s.mem (t + 8 * i) e.bits) (t + 8 * i) 8 s) := by
  unfold store_entry
  rw [ends_store_word (by omega)]

theorem ends_pa_to_vpa {pa : UInt64} (h : pa.toNat < PMEM_VA_SIZE) {Q : ℕ → State α → Prop} :
    Ends (pa_to_vpa pa) s Q E ↔ Q pa.toNat s := by
  unfold pa_to_vpa assert
  simp [h]

/-! ## Frames -/

/-- The block at `pgd` was free, and is now zeroed and belongs to the address space. -/
structure Granted (P : PageSource α) (s : State α) (order : Int) (pgd : ℕ) (s' : State α) : Prop where
  drew : P.alloc_pages order s.pgalloc = .ok (some pgd, s'.pgalloc)
  window : 4096 * (pgd + block_pages order) ≤ PMEM_VA_SIZE
  mem : s'.mem = zero s.mem (4096 * pgd) (4096 * block_pages order)
  written : s'.written = (4096 * pgd, 4096 * block_pages order) :: s.written
  allocations : s'._page_allocations = s._page_allocations ++ [⟨pgd, order⟩]
  root : s'._pgt_virt_base = s._pgt_virt_base

/-- The block was refused. What was written, if it lies behind the window, is a part of it. -/
structure Denied (P : PageSource α) (s : State α) (order : Int) (e : Halt α) : Prop where
  fault : e.fault = .noFrame
  refuses : Refuses P order s.pgalloc e.state.pgalloc
  spends : Spends P s e.state

theorem Denied.halted {order : Int} {e : Halt α} (h : Denied P s order e) : Halted P s e where
  spends := h.spends
  refused := ⟨h.fault, order, _, .refl P _, h.refuses⟩

theorem block_pages_eq {order : Int} (h : 0 ≤ order ∧ order ≤ 16) :
    block_pages order = 2 ^ order.toNat := by
  unfold block_pages
  rw [Nat.shiftLeft_eq, Nat.one_mul, show order % 32 = order by omega]

theorem block_pages_pos (order : Int) : 0 < block_pages order := by
  unfold block_pages
  rw [Nat.shiftLeft_eq, Nat.one_mul]
  exact Nat.two_pow_pos _

theorem block_pages_le {order : Int} (h : 0 ≤ order ∧ order ≤ 16) : block_pages order ≤ 2 ^ 16 := by
  rw [block_pages_eq h]
  exact Nat.pow_le_pow_right (by decide) (by omega)

section Given

variable {order : Int} {pgd : ℕ} {a b : α}

/-- The pages of a block that was given were free. -/
theorem block_given (h : P.alloc_pages order a = .ok (some pgd, b)) :
    (0 ≤ order ∧ order ≤ 16) ∧ ∀ p, pgd ≤ p → p < pgd + block_pages order →
      p ∈ P.free a ∧ p ∉ P.free b := by
  have horder := P.order_le h
  refine ⟨horder, fun p hp hlt => ?_⟩
  rw [block_pages_eq horder] at hlt
  have hgrants := P.grants h (p - pgd) (by omega)
  rwa [show pgd + (p - pgd) = p by omega] at hgrants

/-- The same address space, with what is left of the source. -/
theorem spends_asked {r : Option ℕ} (h : P.alloc_pages order s.pgalloc = .ok (r, a)) :
    Spends P s { s with pgalloc := a } where
  drawn := .of_alloc h
  owned := subset_rfl
  new_owned := Set.subset_union_left
  wrote := ⟨⟨[], rfl, by simp⟩, fun _ _ => rfl⟩

theorem owned_append (h : s'._page_allocations = s._page_allocations ++ [⟨pgd, order⟩]) :
    s'.owned = s.owned ∪ {p | pgd ≤ p ∧ p < pgd + block_pages order} := by
  unfold State.owned
  rw [h]
  ext p
  simp only [Set.mem_ofPred_eq, List.mem_append, List.mem_singleton, Set.mem_union, or_and_right,
    exists_or, exists_eq_left]

/-- With a block that was given, of which nothing but pages of its own was written. -/
theorem spends_block (h : P.alloc_pages order s.pgalloc = .ok (some pgd, s'.pgalloc))
    (halloc : s'._page_allocations = s._page_allocations ++ [⟨pgd, order⟩])
    (hwrote : Wrote s s' {p | pgd ≤ p ∧ p < pgd + block_pages order}) : Spends P s s' where
  drawn := .of_alloc h
  owned := by
    rw [owned_append halloc]
    exact Set.subset_union_left
  new_owned := by
    rw [owned_append halloc]
    exact Set.union_subset_union_right _ fun p hp => ((block_given h).2 p hp.1 hp.2).1
  wrote := by
    rw [owned_append halloc]
    exact hwrote.mono Set.subset_union_right

/-- Zeroes within the block. -/
theorem wrote_zero (s : State α) (pgd : ℕ) {n : ℕ} (hn : n ≤ 4096 * block_pages order) :
    Wrote s (put (zero s.mem (4096 * pgd) n) (4096 * pgd) n s)
      {p | pgd ≤ p ∧ p < pgd + block_pages order} :=
  wrote_put s (fun y hy hlt => ⟨by omega, by omega⟩) fun y hy => write_outside _ hy

end Given

theorem pnzero_spec (dest : ℕ) {n : ℕ} (hn : n ≤ 2 ^ 16) :
    Ends (pnzero dest n) s
      (fun _ s' => dest + 4096 * n ≤ PMEM_VA_SIZE ∧
        s' = put (zero s.mem dest (4096 * n)) dest (4096 * n) s)
      fun e => PMEM_VA_SIZE < dest + 4096 * n ∧ ∃ shown ≤ 4096 * n,
        e = ⟨.noFrame, put (zero s.mem dest shown) dest shown s⟩ := by
  unfold pnzero
  simp only [show 8 * (n * 512 % 2 ^ 32) = 4096 * n by omega, ends_bind, ends_modify]
  refine ends_ite (fun h => ?_) fun h => ?_
  · rw [ends_pure, Nat.min_eq_left (by omega)]
    exact ⟨h, rfl⟩
  · rw [ends_halt]
    exact ⟨by omega, _, Nat.min_le_left _ _, rfl⟩

theorem ends_pgd_to_vpa {pgd : ℕ} (hpgd : pgd < 2 ^ 52) (h : 4096 * pgd < PMEM_VA_SIZE)
    {Q : ℕ → State α → Prop} : Ends (pgd_to_vpa pgd) s Q E ↔ Q (4096 * pgd) s := by
  unfold pgd_to_vpa
  rw [pgd_to_pa_toNat hpgd, if_pos h, ends_pure]

theorem allocate_phys_spec (order : Int) :
    Ends (allocate_phys P order) s (fun r s' => match r with
      | none => P.alloc_pages order s.pgalloc = .ok (none, s'.pgalloc) ∧
          s' = { s with pgalloc := s'.pgalloc }
      | some pgd => Granted P s order pgd s') (Denied P s order) := by
  unfold allocate_phys alloc_pages
  simp only [ends_bind, ends_get]
  cases halloc : P.alloc_pages order s.pgalloc with
  | error _ => exact ⟨rfl, refuses_of_error halloc, .refl P s⟩
  | ok r =>
    obtain ⟨pgd, a⟩ := r
    simp only [ends_bind, ends_modify, ends_pure]
    cases pgd with
    | none => exact ⟨rfl, rfl⟩
    | some pgd =>
      obtain ⟨horder, hblock⟩ := block_given halloc
      have hpos := block_pages_pos order
      have hpgd : pgd < 2 ^ 52 := P.physical _ _ (hblock pgd le_rfl (by omega)).1
      -- What was given may not be in the window.
      have hdenied : ∀ {n} {e : Halt α}, n ≤ 4096 * block_pages order →
          PMEM_VA_SIZE < 4096 * (pgd + block_pages order) →
          e = ⟨.noFrame, put (zero s.mem (4096 * pgd) n) (4096 * pgd) n { s with
            pgalloc := a, _page_allocations := s._page_allocations ++ [⟨pgd, order⟩] }⟩ →
          Denied P s order e := by
        rintro n e hn hwindow rfl
        have hwrote := wrote_zero s pgd hn
        exact ⟨rfl, refuses_of_outside halloc hwindow,
          spends_block halloc rfl ⟨hwrote.recorded, hwrote.elsewhere⟩⟩
      simp only [ends_bind, ends_modify]
      unfold pgd_to_vpa
      rw [pgd_to_pa_toNat hpgd]
      refine ends_ite (fun hshown => ?_) fun hshown => ?_
      · rw [ends_pure]
        refine ends_weaken (pnzero_spec _ (block_pages_le horder)) ?_ ?_
        · rintro _ s' ⟨hwindow, rfl⟩
          exact {
            drew := halloc
            window := by rwa [Nat.mul_add]
            mem := rfl
            written := rfl
            allocations := rfl
            root := rfl }
        · rintro e ⟨hlt, n, hn, rfl⟩
          exact hdenied hn (by rwa [Nat.mul_add]) rfl
      · rw [ends_halt]
        refine ⟨rfl, refuses_of_outside halloc (by omega), spends_block halloc rfl ?_⟩
        exact ⟨⟨[], rfl, by simp⟩, fun _ _ => rfl⟩

/-- A block that is asked for, and asserted. -/
theorem ends_granted {order : Int} {Q : ℕ → State α → Prop}
    (hgranted : ∀ pgd s', Granted P s order pgd s' → Q pgd s')
    (hdenied : ∀ e, Denied P s order e → E e) :
    Ends (allocate_phys P order) s (fun r s' => Ends (assert_pgd r) s' Q E) E := by
  refine ends_weaken (allocate_phys_spec order) (fun r s' hr => ?_) hdenied
  unfold assert_pgd
  cases r with
  | none =>
    obtain ⟨hnone, hs'⟩ := hr
    rw [ends_halt]
    refine hdenied _ ⟨rfl, refuses_of_none hnone, ?_⟩
    rw [hs']
    exact spends_asked hnone
  | some pgd =>
    rw [ends_pure]
    exact hgranted pgd s' hr

namespace Granted

variable {order : Int} {pgd : ℕ}

theorem order_bounds (h : Granted P s order pgd s') : 0 ≤ order ∧ order ≤ 16 :=
  (block_given h.drew).1

theorem block_free (h : Granted P s order pgd s') : ∀ p, pgd ≤ p → p < pgd + block_pages order →
    p ∈ P.free s.pgalloc ∧ p ∉ P.free s'.pgalloc := (block_given h.drew).2

theorem free (h : Granted P s order pgd s') : P.free s'.pgalloc ⊆ P.free s.pgalloc :=
  P.shrinks h.drew

theorem pgd_lt (h : Granted P s order pgd s') : pgd < 2 ^ 52 :=
  P.physical _ _ (h.block_free pgd le_rfl (Nat.lt_add_of_pos_right (block_pages_pos order))).1

theorem pgd_window (h : Granted P s order pgd s') : 4096 * pgd < PMEM_VA_SIZE := by
  have hpos := block_pages_pos order
  have hwindow := h.window
  omega

theorem owned_eq (h : Granted P s order pgd s') :
    s'.owned = s.owned ∪ {p | pgd ≤ p ∧ p < pgd + block_pages order} := owned_append h.allocations

theorem spends (h : Granted P s order pgd s') : Spends P s s' := by
  have hwrote := wrote_zero s pgd (le_refl (4096 * block_pages order))
  refine spends_block h.drew h.allocations ⟨?_, fun y hy => ?_⟩
  · rw [h.written]
    exact hwrote.recorded
  · rw [h.mem]
    exact hwrote.elsewhere y hy

theorem mem_elsewhere (h : Granted P s order pgd s') {y : ℕ}
    (hy : y / 4096 < pgd ∨ pgd + block_pages order ≤ y / 4096) : s'.mem y = s.mem y := by
  rw [h.mem]
  exact write_outside _ (by omega)

end Granted

/-! ## Linking a fresh table -/

section Link

variable {m : Memory} {root t i pgd : ℕ} {e : MMUTableEntry}

theorem entry_link_other (ht : 4096 ∣ t) (hi : i < 512) {x j : ℕ} (hx : 4096 ∣ x)
    (hxu : x ≠ 4096 * pgd) (hj : j < 512) (hne : x ≠ t ∨ j ≠ i) :
    entry (store64 (zero m (4096 * pgd) 4096) (t + 8 * i) e.bits) x j = entry m x j := by
  rw [entry_store_other e ht hx hi hj hne]
  refine entry_congr (fun y hy hlt => write_outside _ ?_) hj
  obtain ⟨k, rfl⟩ := hx
  omega

theorem entry_link_fresh (ht : 4096 ∣ t) (hi : i < 512) (htu : t ≠ 4096 * pgd) {j : ℕ} (hj : j < 512) :
    entry (store64 (zero m (4096 * pgd) 4096) (t + 8 * i) e.bits) (4096 * pgd) j = ⟨0⟩ := by
  rw [entry_store_other e ht (Nat.dvd_mul_right _ _) hi hj (.inl htu.symm), entry_zero hj]

theorem next_link (hf : Follows root t i) (htu : t ≠ 4096 * pgd)
    (hbase : e.base_address.toNat = 4096 * pgd) (hpos : pgd ≠ 0) :
    Link (next m root) (next (store64 (zero m (4096 * pgd) 4096) (t + 8 * i) e.bits) root) t i
      (4096 * pgd) where
  here := by
    have hne : e.base_address ≠ 0 := by
      intro h
      rw [h, UInt64.toNat_zero] at hbase
      omega
    rw [next_eq hf] <;> rw [entry_store_same]
    · rw [hbase]
    · exact hne
  beside j hj := next_congr fun hf' => entry_link_other hf.2.1 hf.1 hf'.2.1 htu hf'.1 (.inr hj)
  fresh j := by
    by_cases hj : j < 512
    · exact next_none (by rw [entry_link_fresh hf.2.1 hf.1 htu hj]; rfl)
    · exact if_neg fun h => hj h.1.1
  others x hxt hxu j := next_congr fun hf' =>
    entry_link_other hf.2.1 hf.1 hf'.2.1 hxu hf'.1 (.inl hxt)

end Link

/-- From `s` to `s'` a page was asked for, and `pgd` became the table behind the empty entry `i` of
`t`. -/
structure Extends (P : PageSource α) (s : State α) (p : List ℕ) (t i pgd : ℕ) (s' : State α) :
    Prop where
  inv : Inv P s
  short : p.length < 3
  table : s.table p = some t
  follows : Follows s._pgt_virt_base t i
  empty : (entry s.mem t i).base_address = 0
  drew : P.alloc_pages 0 s.pgalloc = .ok (some pgd, s'.pgalloc)
  window : 4096 * pgd + 4096 ≤ PMEM_VA_SIZE
  mem : s'.mem = store64 (zero s.mem (4096 * pgd) 4096) (t + 8 * i)
    ((entry s.mem t i).set_table (pgd_to_pa pgd)).bits
  written : s'.written = (t + 8 * i, 8) :: (4096 * pgd, 4096) :: s.written
  owned : s'.owned = s.owned ∪ {pgd}
  root : s'._pgt_virt_base = s._pgt_virt_base

namespace Extends

variable {p : List ℕ} {t i pgd : ℕ}

theorem taken (h : Extends P s p t i pgd s') : pgd ∈ P.free s.pgalloc ∧ pgd ∉ P.free s'.pgalloc :=
  (block_given h.drew).2 pgd le_rfl (Nat.lt_add_of_pos_right (block_pages_pos 0))

theorem free (h : Extends P s p t i pgd s') : pgd ∈ P.free s.pgalloc := h.taken.1

theorem isTable (h : Extends P s p t i pgd s') : s.IsTable t := ⟨p, h.short.le, h.table⟩

theorem ne_of_isTable (h : Extends P s p t i pgd s') {x : ℕ} (hx : s.IsTable x) :
    x ≠ 4096 * pgd := by
  rintro rfl
  have hfree := h.inv.not_free hx
  rw [Nat.mul_div_cancel_left _ (by decide)] at hfree
  exact hfree h.free

theorem base_eq (h : Extends P s p t i pgd s') :
    ((entry s.mem t i).set_table (pgd_to_pa pgd)).base_address = pgd_to_pa pgd := by
  rw [MMUTableEntry.base_set_table]
  refine high_of_aligned ?_
  rw [pgd_to_pa_toNat (P.physical _ _ h.free)]
  exact Nat.dvd_mul_right _ _

theorem pgd_pos (h : Extends P s p t i pgd s') : pgd ≠ 0 := by
  rintro rfl
  exact P.zero_kept _ h.free

theorem base_toNat (h : Extends P s p t i pgd s') :
    ((entry s.mem t i).set_table (pgd_to_pa pgd)).base_address.toNat = 4096 * pgd := by
  rw [h.base_eq, pgd_to_pa_toNat (P.physical _ _ h.free)]

theorem base_ne_zero (h : Extends P s p t i pgd s') :
    ((entry s.mem t i).set_table (pgd_to_pa pgd)).base_address ≠ 0 := by
  intro hzero
  have hbase := h.base_toNat
  have hpos := h.pgd_pos
  rw [hzero, UInt64.toNat_zero] at hbase
  omega

theorem link (h : Extends P s p t i pgd s') :
    Link (next s.mem s._pgt_virt_base) (next s'.mem s._pgt_virt_base) t i (4096 * pgd) := by
  rw [h.mem]
  exact next_link h.follows (h.ne_of_isTable h.isTable) h.base_toNat h.pgd_pos

theorem entry_here (h : Extends P s p t i pgd s') :
    entry s'.mem t i = (entry s.mem t i).set_table (pgd_to_pa pgd) := by
  rw [h.mem, entry_store_same]

theorem entry_other (h : Extends P s p t i pgd s') {x j : ℕ} (hx : s.IsTable x) (hj : j < 512)
    (hne : x ≠ t ∨ j ≠ i) : entry s'.mem x j = entry s.mem x j := by
  rw [h.mem]
  exact entry_link_other h.follows.2.1 h.follows.1 (h.inv.aligned hx) (h.ne_of_isTable hx) hj hne

theorem entry_fresh (h : Extends P s p t i pgd s') {j : ℕ} (hj : j < 512) :
    entry s'.mem (4096 * pgd) j = ⟨0⟩ := by
  rw [h.mem]
  exact entry_link_fresh h.follows.2.1 h.follows.1 (h.ne_of_isTable h.isTable) hj

theorem new_path (h : Extends P s p t i pgd s') (q : List ℕ) (hq : q.length ≤ 3) :
    s.table q ≠ some (4096 * pgd) := fun hx => h.ne_of_isTable ⟨q, hq, hx⟩ rfl

theorem table_eq (h : Extends P s p t i pgd s') {q : List ℕ} (hq : q.length ≤ 3) :
    s'.table q = if q = p ++ [i] then some (4096 * pgd) else s.table q := by
  unfold State.table
  rw [h.root]
  exact walk_link h.inv.unshared h.short h.table (next_none h.empty) h.new_path h.link q hq

theorem table_here (h : Extends P s p t i pgd s') : s'.table (p ++ [i]) = some (4096 * pgd) := by
  have := h.short
  rw [h.table_eq (by simp; omega), if_pos rfl]

theorem table_before (h : Extends P s p t i pgd s') : s.table (p ++ [i]) = none := by
  have ht := h.table
  unfold State.table at ht ⊢
  rw [walk_concat, ht]
  exact next_none h.empty

theorem isTable_iff (h : Extends P s p t i pgd s') (x : ℕ) :
    s'.IsTable x ↔ s.IsTable x ∨ x = 4096 * pgd := by
  constructor
  · rintro ⟨q, hq, hx⟩
    rw [h.table_eq hq] at hx
    split at hx
    · exact .inr (Option.some.inj hx).symm
    · exact .inl ⟨q, hq, hx⟩
  · rintro (⟨q, hq, hx⟩ | rfl)
    · refine ⟨q, hq, ?_⟩
      rw [h.table_eq hq, if_neg, hx]
      -- The path to the new table led nowhere.
      rintro rfl
      rw [h.table_before] at hx
      cases hx
    · have := h.short
      exact ⟨p ++ [i], by simp; omega, h.table_here⟩

theorem tablePages_eq (h : Extends P s p t i pgd s') :
    s'.tablePages = s.tablePages ∪ {pgd} := by
  ext x
  show s'.IsTable (4096 * x) ↔ s.IsTable (4096 * x) ∨ x = pgd
  rw [h.isTable_iff, Nat.mul_right_inj (by decide)]

/-- The new table is empty, so no translation is new. -/
theorem translate_eq (h : Extends P s p t i pgd s') (va : UInt64) :
    s'.translate va = s.translate va := by
  unfold State.translate
  rw [h.table_eq (path_length va).le]
  split
  next hpath =>
    rw [hpath, h.table_before, Option.bind_some, Option.bind_none, h.entry_fresh (pt_idx_lt va)]
    rfl
  next =>
    cases hx : s.table (path va) with
    | none => rw [Option.bind_none, Option.bind_none]
    | some x =>
      have hne : x ≠ t := by
        rintro rfl
        have := congrArg List.length
          (h.inv.unshared p (path va) x h.short.le (path_length va).le h.table hx)
        have := h.short
        rw [path_length] at *
        omega
      have hxt : s.IsTable x := ⟨path va, (path_length va).le, hx⟩
      rw [Option.bind_some, Option.bind_some, h.entry_other hxt (pt_idx_lt va) (.inl hne)]

theorem tidy (h : Extends P s p t i pgd s') (q : List ℕ) (x j : ℕ) (hq : q.length < 3)
    (hx : s'.table q = some x) (hf : Follows s._pgt_virt_base x j) :
    (entry s'.mem x j).present = true ↔ (entry s'.mem x j).base_address ≠ 0 := by
  rw [h.table_eq hq.le] at hx
  split at hx
  · obtain rfl := Option.some.inj hx
    rw [h.entry_fresh hf.1]
    decide
  · by_cases hhere : x = t ∧ j = i
    · obtain ⟨rfl, rfl⟩ := hhere
      rw [h.entry_here]
      exact iff_of_true (MMUTableEntry.present_set_table _ _) h.base_ne_zero
    · rw [h.entry_other ⟨q, hq.le, hx⟩ hf.1 (by omega)]
      exact h.inv.tidy q x j hq hx hf

theorem inv' (h : Extends P s p t i pgd s') : Inv P s' where
  unshared := by
    rw [h.root]
    exact unshared_link h.inv.unshared h.short h.table (next_none h.empty) h.new_path h.link
  aligned ht := by
    rcases (h.isTable_iff _).mp ht with ht | rfl
    · exact h.inv.aligned ht
    · exact Nat.dvd_mul_right _ _
  window ht := by
    rcases (h.isTable_iff _).mp ht with ht | rfl
    · exact h.inv.window ht
    · exact h.window
  tables_owned := by
    rw [h.tablePages_eq, h.owned]
    exact Set.union_subset_union_left _ h.inv.tables_owned
  owned_kept x hx := by
    rw [h.owned] at hx
    rcases hx with hx | rfl
    · exact fun hx' => h.inv.owned_kept x hx (P.shrinks h.drew hx')
    · exact h.taken.2
  tidy q x j hq hx hf := by
    rw [h.root] at hf
    exact h.tidy q x j hq hx hf

theorem grows (h : Extends P s p t i pgd s') : Grows P s s' where
  root := h.root
  drawn := .of_alloc h.drew
  owned := h.owned ▸ Set.subset_union_left
  new_owned := by
    rw [h.owned]
    exact Set.union_subset_union_right _ (Set.singleton_subset_iff.mpr h.free)
  tables := h.tablePages_eq ▸ Set.subset_union_left
  new_tables := by
    rw [h.tablePages_eq]
    exact Set.union_subset_union_right _ (Set.singleton_subset_iff.mpr h.free)
  wrote := by
    have hin : ∀ y, t + 8 * i ≤ y → y < t + 8 * i + 8 → y / 4096 ∈ s.tablePages := by
      intro y hy hlt
      have := h.follows.1
      rw [h.inv.page_of h.isTable (by omega) (by omega)]
      exact h.inv.page_mem h.isTable
    rw [h.tablePages_eq]
    refine ⟨⟨[(t + 8 * i, 8), (4096 * pgd, 4096)], h.written, ?_⟩, fun y hy => ?_⟩
    · simp only [List.mem_cons, List.not_mem_nil, or_false, forall_eq_or_imp, forall_eq]
      refine ⟨fun y hy hlt => .inl (hin y hy hlt), fun y hy hlt => .inr ?_⟩
      show y / 4096 = pgd
      omega
    · rw [h.mem, store64_outside, zero, write_outside]
      · have : y / 4096 ≠ pgd := fun he => hy (.inr he)
        omega
      · have : ¬ (t + 8 * i ≤ y ∧ y < t + 8 * i + 8) := by
          rintro ⟨hle, hlt⟩
          exact hy (.inl (hin y hle hlt))
        omega
  kernel j hj := by
    have hlt : j < 512 := by
      rcases hj with rfl | rfl <;> decide
    refine h.entry_other (root_isTable s) hlt ?_
    by_contra hc
    have := h.follows.2.2
    simp only [not_or, not_not] at hc
    exact this ⟨hc.1.symm, hc.2 ▸ hj⟩

end Extends

end Infos.Vma
