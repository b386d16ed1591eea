import Mathlib.Order.CompletePartialOrder
import Infos.Vma.Steps

/-!
# The processes of a machine and the memory they share

Processes are made one after another, and the kernel's calls for them, the stores of their programs
and the rest of the kernel come in any order.
-/

open Infos.Bytes Infos.Prog

namespace Infos.Vma

variable {α : Type} {P : PageSource α}

/-! ## The machine -/

/-- The fields of a `VMA`. -/
structure Space where
  _page_allocations : List PageAllocation
  _pgt_phys_base : UInt64
  _pgt_virt_base : ℕ

/-- The pages that the address space was given. -/
def Space.owned (v : Space) : Set ℕ := {p | ∃ a ∈ v._page_allocations,
  a.descriptor_base ≤ p ∧ p < a.descriptor_base + block_pages a.allocation_order}

def State.space (s : State α) : Space :=
  ⟨s._page_allocations, s._pgt_phys_base, s._pgt_virt_base⟩

structure Machine (α : Type) where
  mem : Memory
  pgalloc : α
  spaces : List Space

/-- The sixteen pages of `reinitialise_pgt`, all in the window. -/
structure KernelPages where
  first : ℕ
  window : first + 16 ≤ 2 ^ 20

def KernelPages.template (K : KernelPages) : Template where
  base := 4096 * K.first
  window := by
    have hsize : PMEM_VA_SIZE = 2 ^ 32 := rfl
    have := K.window
    omega

def KernelPages.pages (K : KernelPages) : Set ℕ := {p | K.first ≤ p ∧ p < K.first + 16}

/-- The address space of a new `Process`. -/
def new_process (P : PageSource α) (template_pml4 : Template) : Op α Unit := do
  new_VMA P
  install_default_kernel_mapping template_pml4

namespace Machine

variable (m : Machine α)

def state (v : Space) : State α :=
  ⟨m.mem, [], m.pgalloc, v._page_allocations, v._pgt_phys_base, v._pgt_virt_base⟩

/-- With `spaces`, in what `s` left of the memory. -/
def left (s : State α) (spaces : List Space) : Machine α := ⟨s.mem, s.pgalloc, spaces⟩

def create (P : PageSource α) (K : KernelPages) : Except (Halt α) (Machine α) :=
  (new_process P K.template (start m.mem m.pgalloc)).map fun r => left r.2 (m.spaces ++ [r.2.space])

def call (P : PageSource α) (i : ℕ) (c : Call) : Except (Halt α) (Machine α) :=
  match m.spaces[i]? with
  | none => .ok m
  | some v => (c.run P (m.state v)).map fun r => left r.2 (m.spaces.set i r.2.space)

/-- What the processor finds for an address of the process. -/
def sees (v : Space) (va : UInt64) : Option Page := walk_pages m.mem v._pgt_phys_base va

/-- A byte that the program of process `i` stores, unless that is a page fault. -/
def user_store (i : ℕ) (va : UInt64) (b : UInt8) : Machine α :=
  match m.spaces[i]? with
  | none => m
  | some v =>
    match m.sees v va with
    | none => m
    | some p => if p.user && p.writable then { m with mem := write m.mem p.pa 1 fun _ => b } else m

end Machine

inductive Event (α : Type)
  | create
  | call (i : ℕ) (c : Call)
  | user_store (i : ℕ) (va : UInt64) (b : UInt8)
  | kernel (mem : Memory) (a : α)

def Event.step (P : PageSource α) (K : KernelPages) (m : Machine α) :
    Event α → Except (Halt α) (Machine α)
  | .create => m.create P K
  | .call i c => m.call P i c
  | .user_store i va b => .ok (m.user_store i va b)
  | .kernel mem a => .ok { m with mem := mem, pgalloc := a }

/-- The rest of the kernel writes to no table, and frees no page that a process was given. It may
write to the pages of the processes, and take pages and free its own. -/
def Event.Allowed (P : PageSource α) (K : KernelPages) (m : Machine α) : Event α → Prop
  | .create => True
  | .call i c => ∀ v, m.spaces[i]? = some v → c.Allowed (m.state v)
  | .user_store _ _ _ => True
  | .kernel mem a =>
    (∀ y, y / 4096 ∈ K.pages → mem y = m.mem y) ∧
    (∀ v ∈ m.spaces, ∀ y, y / 4096 ∈ (m.state v).tablePages → mem y = m.mem y) ∧
    (∀ p ∈ P.free a, p ∉ K.pages) ∧ ∀ v ∈ m.spaces, ∀ p ∈ v.owned, p ∉ P.free a

/-- From the kernel's own tables on, before there are processes. -/
def machines (P : PageSource α) (K : KernelPages) : System (Machine α) (Event α) (Halt α) where
  start m := m.spaces = [] ∧ ∃ mem a, P.alloc_pages 4 a = .ok (some K.first, m.pgalloc) ∧
    m.mem = reinitialise_pgt K.first mem
  allowed m e := e.Allowed P K m
  step m e := e.step P K m

/-! ## What holds at any time -/

structure Safe (P : PageSource α) (K : KernelPages) (m : Machine α) : Prop where
  proper : ∀ v ∈ m.spaces, Proper P K.first (m.state v)
  apart : ∀ {i j : ℕ} {v w : Space}, i ≠ j → m.spaces[i]? = some v → m.spaces[j]? = some w →
    Disjoint v.owned w.owned
  tables : KernelTables K.first m.mem
  tables_apart : ∀ v ∈ m.spaces, Disjoint v.owned K.pages
  tables_kept : ∀ p ∈ K.pages, p ∉ P.free m.pgalloc

variable {K : KernelPages} {m m' : Machine α} {s s' : State α} {i j : ℕ} {v w : Space}

theorem KernelTables.congr {mem mem' : Memory} (h : KernelTables K.first mem)
    (hmem : ∀ y, y / 4096 ∈ K.pages → mem' y = mem y) : KernelTables K.first mem' := by
  intro k hk n hn
  rw [← h k hk n hn]
  refine entry_congr (fun y hle hlt => hmem y ?_) hn
  show K.first ≤ y / 4096 ∧ y / 4096 < K.first + 16
  omega

namespace Safe

theorem of_start (h : (machines P K).start m) : Safe P K m := by
  obtain ⟨hnone, mem, a, halloc, hmem⟩ := h
  exact {
    proper := by simp [hnone]
    apart := by simp [hnone]
    tables := fun k hk n hn => by
      rw [hmem]
      exact entry_reinitialise mem hk hn
    tables_apart := by simp [hnone]
    tables_kept := fun p hp => by
      have hgrants := P.grants halloc (p - K.first) (by
        have h16 : 2 ^ (4 : Int).toNat = 16 := rfl
        have hlt : p < K.first + 16 := hp.2
        omega)
      have hle : K.first ≤ p := hp.1
      rw [Nat.add_sub_cancel' hle] at hgrants
      exact hgrants.2 }

/-- What one address space did to its memory, and with the free pages, leaves another alone. -/
theorem others (h : Safe P K m) (hw : w ∈ m.spaces) {owned : Set ℕ}
    (hfree : P.free s'.pgalloc ⊆ P.free m.pgalloc) (hapart : Disjoint owned w.owned)
    (helsewhere : ∀ y, y / 4096 ∉ owned → s'.mem y = m.mem y) (spaces : List Space) :
    Proper P K.first ((Machine.left s' spaces).state w) := by
  have hproper := h.proper w hw
  refine hproper.congr rfl rfl rfl (fun y hy => helsewhere y fun hin => ?_) fun p hp hf => ?_
  · exact Set.disjoint_left.mp hapart hin (hproper.sound.inv.tables_owned hy)
  · exact hproper.sound.inv.owned_kept p hp (hfree hf)

theorem not_free (h : Safe P K m) (hv : v ∈ m.spaces) : Disjoint (P.free m.pgalloc) v.owned :=
  Set.disjoint_left.mpr fun p hp ho => (h.proper v hv).sound.inv.owned_kept p ho hp

theorem tables_of_elsewhere (h : Safe P K m) {owned : Set ℕ} (hapart : Disjoint owned K.pages)
    (helsewhere : ∀ y, y / 4096 ∉ owned → s'.mem y = m.mem y) : KernelTables K.first s'.mem :=
  h.tables.congr fun y hy => helsewhere y fun hin => Set.disjoint_left.mp hapart hin hy

/-- One address space takes a step of its own. -/
theorem update (h : Safe P K m) (hv : m.spaces[i]? = some v) (hproper : Proper P K.first s')
    (ha : Advance P (m.state v) s') :
    Safe P K (Machine.left s' (m.spaces.set i s'.space)) := by
  have hmem := List.mem_of_getElem? hv
  have hlt : i < m.spaces.length := (List.getElem?_eq_some_iff.mp hv).1
  -- The pages it has now are apart from those of all others.
  have hnew : ∀ {j w}, j ≠ i → m.spaces[j]? = some w → Disjoint s'.owned w.owned := by
    intro j w hj hw
    refine Set.disjoint_of_subset_left ha.new_owned (Set.disjoint_union_left.mpr ⟨?_, ?_⟩)
    · exact h.apart hj.symm hv hw
    · exact h.not_free (List.mem_of_getElem? hw)
  have hkernel : Disjoint s'.owned K.pages := by
    refine Set.disjoint_of_subset_left ha.new_owned (Set.disjoint_union_left.mpr ⟨?_, ?_⟩)
    · exact h.tables_apart v hmem
    · exact Set.disjoint_left.mpr fun p hp hk => h.tables_kept p hk hp
  have hspace : ∀ {j w}, (m.spaces.set i s'.space)[j]? = some w →
      j = i ∧ w = s'.space ∨ j ≠ i ∧ m.spaces[j]? = some w := by
    intro j w hw
    by_cases hj : j = i
    · subst hj
      rw [List.getElem?_set_self hlt] at hw
      exact .inl ⟨rfl, (Option.some.inj hw).symm⟩
    · rw [List.getElem?_set_ne (Ne.symm hj)] at hw
      exact .inr ⟨hj, hw⟩
  refine {
    proper := fun w hw => ?_
    apart := fun {j k w x} hjk hw hx => ?_
    tables := h.tables_of_elsewhere hkernel ha.elsewhere
    tables_apart := fun w hw => ?_
    tables_kept := fun p hp hf => h.tables_kept p hp (ha.free hf) }
  · obtain ⟨j, hj⟩ := List.mem_iff_getElem?.mp hw
    obtain ⟨-, rfl⟩ | ⟨hne, hold⟩ := hspace hj
    · exact hproper.congr rfl rfl rfl (fun _ _ => rfl) hproper.sound.inv.owned_kept
    · exact h.others (List.mem_of_getElem? hold) ha.free (hnew hne hold) ha.elsewhere _
  · obtain ⟨rfl, rfl⟩ | ⟨hne, hold⟩ := hspace hw
    · obtain ⟨rfl, -⟩ | ⟨hne', hold'⟩ := hspace hx
      · exact absurd rfl hjk
      · exact hnew hne' hold'
    · obtain ⟨rfl, rfl⟩ | ⟨hne', hold'⟩ := hspace hx
      · exact (hnew hne hold).symm
      · exact h.apart hjk hold hold'
  · obtain ⟨j, hj⟩ := List.mem_iff_getElem?.mp hw
    obtain ⟨-, rfl⟩ | ⟨-, hold⟩ := hspace hj
    · exact hkernel
    · exact h.tables_apart w (List.mem_of_getElem? hold)

end Safe

/-! ## A new process -/

/-- A new address space maps nothing but the kernel's windows. -/
structure Created (P : PageSource α) (K : KernelPages) (mem : Memory) (a : α) (s : State α) :
    Prop where
  proper : Proper P K.first s
  contained : Contained P (start mem a) s
  empty : ∀ va, s.translate va = none

theorem new_VMA_cr3 : Ends (new_VMA P) s
    (fun _ s' => s'._pgt_phys_base.toNat = s'._pgt_virt_base) fun _ => True := by
  unfold new_VMA pgd_to_vpa
  simp only [ends_bind]
  refine ends_weaken (allocate_phys_spec 0) (fun r s₁ _ => ?_) fun _ _ => trivial
  cases r with
  | none => exact trivial
  | some pgd =>
    rw [assert_pgd, ends_pure]
    apply ends_ite
    · intro _
      rw [ends_pure, ends_modify]
    · exact fun _ => trivial

theorem new_VMA_window (h : ∀ p ∈ s.owned, 4096 * p + 4096 ≤ PMEM_VA_SIZE) :
    Ends (new_VMA P) s (fun _ s' => ∀ p ∈ s'.owned, 4096 * p + 4096 ≤ PMEM_VA_SIZE)
      fun _ => True := by
  unfold new_VMA pgd_to_vpa
  simp only [ends_bind]
  refine ends_mono (steady_window.allocate_phys 0 s h) fun r s₁ h₁ => ?_
  cases r with
  | none => exact trivial
  | some pgd =>
    rw [assert_pgd, ends_pure]
    apply ends_ite
    · intro _
      rw [ends_pure, ends_modify]
      exact h₁
    · exact fun _ => trivial

section Install

variable (hI : Inv P s) (T : Template)

include hI

theorem Inv.entry_install_own {x j : ℕ} (hf : Follows s._pgt_virt_base x j) :
    entry (s.install T).mem x j = entry s.mem x j := by
  have hI₁ := hI.fill (leaf_kernel (.inr rfl)) (entry s.mem T.base 0x1ff)
  have hj : ∀ k, KernelIndex k → x ≠ s._pgt_virt_base ∨ j ≠ k := by
    intro k hk
    by_contra hc
    simp only [not_or, not_not] at hc
    exact hf.2.2 ⟨hc.1, hc.2 ▸ hk⟩
  exact (hI₁.entry_fill (leaf_kernel (.inl rfl)) _ hf.2.1 hf.1 (hj _ (.inl rfl))).trans
    (hI.entry_fill (leaf_kernel (.inr rfl)) _ hf.2.1 hf.1 (hj _ (.inr rfl)))

/-- The template's page is copied whole, as far as the kernel's entries go. -/
theorem Inv.entry_install {i : ℕ} (hT : 4096 ∣ T.base) (hi : KernelIndex i) :
    entry (s.install T).mem s._pgt_virt_base i = entry s.mem T.base i := by
  have hI₁ := hI.fill (leaf_kernel (.inr rfl)) (entry s.mem T.base 0x1ff)
  have hroot := hI.aligned (root_isTable s)
  rcases hi with rfl | rfl
  · refine (entry_store_same _).trans ?_
    exact hI.entry_fill (leaf_kernel (.inr rfl)) _ hT (by decide) (.inr (by decide))
  · refine (hI₁.entry_fill (leaf_kernel (.inl rfl)) _ hroot (by decide) (.inr (by decide))).trans ?_
    exact entry_store_same _

end Install

theorem Fresh.plain_install (h : Fresh P s s') (T : Template) : Plain (s'.install T) := by
  intro q x j hq hx hf
  have hroot : (s'.install T)._pgt_virt_base = s'._pgt_virt_base := rfl
  rw [h.inv.table_install T hq] at hx
  rw [hroot] at hf
  obtain ⟨-, rfl⟩ := table_of_empty h.empty hx
  rw [h.inv.entry_install_own T hf, h.empty j hf.1]
  exact MMUTableEntry.plain_zero

theorem Contained.install (h : Contained P s s') (T : Template) : Contained P s (s'.install T) :=
  (h.fill (leaf_kernel (.inr rfl)) _).fill (leaf_kernel (.inl rfl)) _

theorem new_process_spec {mem : Memory} {a : α} (htables : KernelTables K.first mem)
    (hkept : ∀ p ∈ K.pages, p ∉ P.free a) :
    Ends (new_process P K.template) (start mem a) (fun _ => Created P K mem a)
      (Halted P (start mem a)) := by
  have hnone : ∀ p ∈ (start mem a).owned, 4096 * p + 4096 ≤ PMEM_VA_SIZE := by
    rintro p ⟨x, hx, -⟩
    cases hx
  have hfirst : K.first ∈ K.pages := ⟨le_rfl, by omega⟩
  unfold new_process
  rw [ends_bind]
  refine ends_weaken (ends_and (new_VMA_spec rfl) (ends_and new_VMA_cr3 (new_VMA_window hnone))) ?_
    fun _ he => he.halted
  rintro _ s ⟨hfresh, hcr3, hwindow⟩
  have hI := hfresh.inv
  have hcontained := hfresh.contained
  refine ends_mono (install_spec hI K.template) ?_
  rintro _ _ rfl
  have hempty : ∀ va, (s.install K.template).translate va = none := fun va =>
    (hI.translate_install _ va).trans (hfresh.translate va)
  refine ⟨{
    sound := ⟨hI.install _, fun v pa hpa => by rw [hempty] at hpa; cases hpa⟩
    plain := hfresh.plain_install _
    cr3 := hcr3
    template := fun i hi => ?_
    window := hwindow }, hcontained.install _, hempty⟩
  have hbase : K.template.base = 4096 * (K.first + 0) := rfl
  have hlt : i < 512 := (leaf_kernel (s := s) hi).lt
  refine (hI.entry_install K.template (hbase ▸ Nat.dvd_mul_right _ _) hi).trans ?_
  rw [hbase, ← htables 0 (by decide) i hlt]
  -- The template's page was not free, so it is not a page of the new address space.
  refine entry_congr (fun y hle hlt => hcontained.wrote.elsewhere y fun hy => ?_) hlt
  refine hkept K.first hfirst (?_ : K.first ∈ P.free a)
  rw [show K.first = y / 4096 by omega]
  exact hcontained.owned rfl hy

/-! ## One event -/

/-- What an event makes of the `i`-th address space. It keeps its pages, and what became mapped was
not among them. -/
structure Moves (m : Machine α) (v : Space) (m' : Machine α) (v' : Space) : Prop where
  owned : v.owned ⊆ v'.owned
  translates : ∀ va pa, (m'.state v').translate va = some pa →
    (m.state v).translate va = some pa ∨ pa.toNat / 4096 ∉ v.owned

namespace Safe

theorem create (h : Safe P K m) (hc : Created P K m.mem m.pgalloc s) :
    Safe P K (Machine.left s (m.spaces ++ [s.space])) := by
  have hfree : P.free s.pgalloc ⊆ P.free m.pgalloc := hc.contained.free
  have howned : s.owned ⊆ P.free m.pgalloc := hc.contained.owned rfl
  have hproper := hc.proper
  have hnew : ∀ w ∈ m.spaces, Disjoint s.owned w.owned := fun w hw =>
    Set.disjoint_of_subset_left howned (h.not_free hw)
  have hkernel : Disjoint s.owned K.pages :=
    Set.disjoint_left.mpr fun p hp hk => h.tables_kept p hk (howned hp)
  have hspace : ∀ {j w}, (m.spaces ++ [s.space])[j]? = some w →
      m.spaces[j]? = some w ∨ j = m.spaces.length ∧ w = s.space := by
    intro j w hw
    rw [List.getElem?_append] at hw
    split at hw
    · exact .inl hw
    · rw [List.getElem?_singleton] at hw
      split at hw
      · exact .inr ⟨by omega, (Option.some.inj hw).symm⟩
      · cases hw
  refine {
    proper := fun w hw => ?_
    apart := fun {j k w x} hjk hw hx => ?_
    tables := h.tables_of_elsewhere hkernel hc.contained.wrote.elsewhere
    tables_apart := fun w hw => ?_
    tables_kept := fun p hp hf => h.tables_kept p hp (hfree hf) }
  · rcases List.mem_append.mp hw with hw | hw
    · exact h.others hw hfree (hnew w hw) hc.contained.wrote.elsewhere _
    · obtain rfl := List.mem_singleton.mp hw
      exact hproper.congr rfl rfl rfl (fun _ _ => rfl) hproper.sound.inv.owned_kept
  · obtain hw | ⟨rfl, rfl⟩ := hspace hw
    · obtain hx | ⟨rfl, rfl⟩ := hspace hx
      · exact h.apart hjk hw hx
      · exact (hnew w (List.mem_of_getElem? hw)).symm
    · obtain hx | ⟨rfl, rfl⟩ := hspace hx
      · exact hnew x (List.mem_of_getElem? hx)
      · exact absurd rfl hjk
  · rcases List.mem_append.mp hw with hw | hw
    · exact h.tables_apart w hw
    · obtain rfl := List.mem_singleton.mp hw
      exact hkernel

theorem kernel (h : Safe P K m) {mem : Memory} {a : α} (ha : (Event.kernel mem a).Allowed P K m) :
    Safe P K { m with mem := mem, pgalloc := a } := by
  obtain ⟨hpages, htables, hfree, hkept⟩ := ha
  exact {
    proper := fun v hv => (h.proper v hv).congr rfl rfl rfl (htables v hv) (hkept v hv)
    apart := h.apart
    tables := h.tables.congr hpages
    tables_apart := h.tables_apart
    tables_kept := fun p hp hf => hfree p hf hp }

/-- A store that is no page fault goes to a page of the process's own without a table. -/
theorem stored (h : Safe P K m) (hv : m.spaces[i]? = some v) {va : UInt64} {p : Page} (b : UInt8)
    (hsees : m.sees v va = some p) (huser : p.user = true) :
    DataWrite (m.state v) (put (write m.mem p.pa 1 fun _ => b) p.pa 1 (m.state v)) := by
  have hproper := h.proper v (List.mem_of_getElem? hv)
  obtain ⟨hdata, -⟩ := hproper.user_page K.window h.tables hsees huser
  refine {
    wrote := wrote_put (m.state v) (fun y hle hlt => ?_) fun y hy => write_outside _ hy
    root := rfl
    pgalloc := rfl
    allocations := rfl }
  rwa [show y = p.pa by omega]

theorem user_store_cases (h : Safe P K m) (hv : m.spaces[i]? = some v) (va : UInt64) (b : UInt8) :
    m.user_store i va b = m ∨ ∃ s, DataWrite (m.state v) s ∧ s.space = v ∧
      m.user_store i va b = Machine.left s (m.spaces.set i s.space) := by
  have hset : m.spaces.set i v = m.spaces := by
    obtain ⟨hlt, rfl⟩ := List.getElem?_eq_some_iff.mp hv
    exact List.set_getElem_self hlt
  unfold Machine.user_store
  rw [hv]
  dsimp only
  cases hsees : m.sees v va with
  | none => exact .inl rfl
  | some p =>
    dsimp only
    split
    next huse =>
      have huser : p.user = true := (Bool.and_eq_true_iff.mp huse).1
      refine .inr ⟨_, h.stored hv b hsees huser, rfl, ?_⟩
      show _ = Machine.left _ (m.spaces.set i v)
      rw [hset]
      rfl
    next => exact .inl rfl

/-- The machine after an event, from what the event did. -/
theorem step_cases (h : Safe P K m) {e : Event α} (ha : e.Allowed P K m)
    (hs : e.step P K m = .ok m') :
    (∃ s, e = .create ∧ Created P K m.mem m.pgalloc s ∧
      m' = Machine.left s (m.spaces ++ [s.space])) ∨
    (∃ i v s, ((∃ c, e = .call i c) ∨ ∃ va b, e = .user_store i va b) ∧ m.spaces[i]? = some v ∧
      Proper P K.first s ∧ Advance P (m.state v) s ∧
      m' = Machine.left s (m.spaces.set i s.space)) ∨
    (((∃ i c, e = .call i c) ∨ ∃ i va b, e = .user_store i va b) ∧ m' = m) ∨
    ∃ mem a, e = .kernel mem a ∧ m' = { m with mem := mem, pgalloc := a } := by
  cases e with
  | create =>
    obtain ⟨⟨_, s⟩, he, rfl⟩ := map_eq_ok hs
    have hends := new_process_spec h.tables h.tables_kept
    have hc := ends_ok hends he
    exact .inl ⟨s, rfl, hc, rfl⟩
  | call i c =>
    change m.call P i c = _ at hs
    unfold Machine.call at hs
    cases hv : m.spaces[i]? with
    | none =>
      rw [hv] at hs
      cases hs
      exact .inr (.inr (.inl ⟨.inl ⟨i, c, rfl⟩, rfl⟩))
    | some v =>
      rw [hv] at hs
      obtain ⟨⟨_, s⟩, he, rfl⟩ := map_eq_ok hs
      have hproper := h.proper v (List.mem_of_getElem? hv)
      obtain ⟨hs', hadv⟩ := ends_ok (hproper.call (ha v hv)) he
      exact .inr (.inl ⟨i, v, s, .inl ⟨c, rfl⟩, hv, hs', hadv, rfl⟩)
  | user_store i va b =>
    obtain rfl := Except.ok.inj hs
    cases hv : m.spaces[i]? with
    | none =>
      refine .inr (.inr (.inl ⟨.inr ⟨i, va, b, rfl⟩, ?_⟩))
      unfold Machine.user_store
      rw [hv]
    | some v =>
      obtain hsame | ⟨s, hw, hspace, hstore⟩ := h.user_store_cases hv va b
      · exact .inr (.inr (.inl ⟨.inr ⟨i, va, b, rfl⟩, hsame⟩))
      · have hproper := h.proper v (List.mem_of_getElem? hv)
        have hphys : s._pgt_phys_base = (m.state v)._pgt_phys_base :=
          congrArg Space._pgt_phys_base hspace
        obtain ⟨hs', hadv⟩ := hproper.dataWrite hw hphys
        exact .inr (.inl ⟨i, v, s, .inr ⟨va, b, rfl⟩, hv, hs', hadv, hstore⟩)
  | kernel mem a =>
    cases hs
    exact .inr (.inr (.inr ⟨mem, a, rfl, rfl⟩))

theorem step (h : Safe P K m) {e : Event α} (ha : e.Allowed P K m)
    (hs : e.step P K m = .ok m') : Safe P K m' := by
  obtain ⟨s, -, hc, rfl⟩ | ⟨i, v, s, -, hv, hproper, hadv, rfl⟩ | ⟨-, rfl⟩ | ⟨mem, a, rfl, rfl⟩ :=
    h.step_cases ha hs
  · exact h.create hc
  · exact h.update hv hproper hadv
  · exact h
  · exact h.kernel ha

/-- One address space and the memory of its pages, across an event. -/
theorem step_space (h : Safe P K m) {e : Event α} (ha : e.Allowed P K m)
    (hs : e.step P K m = .ok m') (hv : m.spaces[i]? = some v) :
    ∃ v', m'.spaces[i]? = some v' ∧ Moves m v m' v' := by
  have hmem := List.mem_of_getElem? hv
  have hI := (h.proper v hmem).sound.inv
  have hlt : i < m.spaces.length := (List.getElem?_eq_some_iff.mp hv).1
  -- As long as its tables are not written, it is as it was.
  have hsame : ∀ m' : Machine α,
      (∀ y, y / 4096 ∈ (m.state v).tablePages → m'.mem y = m.mem y) → Moves m v m' v := by
    intro m' htables
    refine ⟨subset_rfl, fun va pa hpa => .inl ?_⟩
    have hroot : (m'.state v)._pgt_virt_base = (m.state v)._pgt_virt_base := rfl
    rwa [hI.translate_eq hroot htables] at hpa
  have hothers : ∀ {s : State α} {owned : Set ℕ} {spaces : List Space}, Disjoint owned v.owned →
      (∀ y, y / 4096 ∉ owned → s.mem y = m.mem y) → Moves m v (Machine.left s spaces) v := by
    intro s owned spaces hapart helsewhere
    refine hsame _ fun y hy => helsewhere y fun hin => ?_
    exact Set.disjoint_left.mp hapart hin (hI.tables_owned hy)
  obtain ⟨s, -, hc, rfl⟩ | ⟨j, w, s, -, hw, hproper, hadv, rfl⟩ | ⟨-, rfl⟩ | ⟨mem, a, rfl, rfl⟩ :=
    h.step_cases ha hs
  · refine ⟨v, ?_, hothers ?_ hc.contained.wrote.elsewhere⟩
    · show (m.spaces ++ [s.space])[i]? = some v
      rwa [List.getElem?_append_left hlt]
    · exact Set.disjoint_of_subset_left (hc.contained.owned rfl) (h.not_free hmem)
  · by_cases hij : j = i
    · subst hij
      obtain rfl : w = v := Option.some.inj (hw.symm.trans hv)
      refine ⟨s.space, List.getElem?_set_self hlt, hadv.owned, fun va pa hpa => ?_⟩
      refine (hadv.translates va pa hpa).imp_right fun hf ho => ?_
      exact hI.owned_kept _ ho hf
    · refine ⟨v, (List.getElem?_set_ne hij).trans hv, hothers ?_ hadv.elsewhere⟩
      refine Set.disjoint_of_subset_left hadv.new_owned (Set.disjoint_union_left.mpr ⟨?_, ?_⟩)
      · exact h.apart hij hw hv
      · exact h.not_free hmem
  · exact ⟨v, hv, hsame _ fun _ _ => rfl⟩
  · exact ⟨v, hv, hsame _ (ha.2.1 v hmem)⟩

end Safe

theorem reachable_safe (hm : (machines P K).Reachable m) : Safe P K m :=
  hm.preserves (fun _ => Safe.of_start) fun _ _ _ h ha hs => h.step ha hs

end Infos.Vma
