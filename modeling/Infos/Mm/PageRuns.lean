import Infos.Mm.PageTypes

/-!
# Runs of the page allocator

A run starts with `init` and goes on with `alloc_pages`, and `free_pages` of what was allocated.
-/

open Infos.Blocks Infos.Prog Infos.PtrList Infos.Buddy

namespace Infos.Mm

variable {nr : ℕ} {ty ty₀ : ℕ → PageDescriptorType} {h h' : Mem} {s s' t : State}
  {res : List Block} {F : FreeSet nr maxOrder}

inductive PageCall where
  | alloc_pages (order : Int)
  | free_pages (b : Block)
  deriving DecidableEq, Repr

def page_step (nr : ℕ) (s : State) : PageCall → Except Fault State
  | .alloc_pages order =>
    (alloc_pages (some (BuddyPageAllocator nr)) order s.mem).map fun (r, mem) =>
      match r with
      | some p => ⟨mem, ⟨p, order.toNat⟩ :: s.outstanding⟩
      | none => ⟨mem, s.outstanding⟩
  | .free_pages b =>
    (free_pages (some (BuddyPageAllocator nr)) b.base b.order s.mem).map fun (_, mem) =>
      ⟨mem, s.outstanding.erase b⟩

def PageAllowed (s : State) : PageCall → Prop
  | .alloc_pages order => -2 ^ 31 ≤ order ∧ order < 2 ^ 31
  | .free_pages b => b ∈ s.outstanding

def pageSystem (mm : MemoryManager) (img : KernelImage) : System State PageCall Fault where
  start s := ∃ h, (∀ k, h.free_areas k = none) ∧ h.touched = [] ∧
    init (some (BuddyPageAllocator mm.nr_pages.toNat)) mm img h = .ok (true, s.mem) ∧
    s.outstanding = []
  allowed := PageAllowed
  step := page_step mm.nr_pages.toNat

/-! ## The invariant -/

/-- The blocks `res` are the pages that were not available at the start, when the types were
`ty₀`. They are never given back. -/
structure Typed (ty₀ ty : ℕ → PageDescriptorType) (s : State) (res : List Block)
    (F : FreeSet nr maxOrder) : Prop where
  inv : Inv ty ⟨s.mem, s.outstanding ++ res⟩ F
  available : ∀ x < nr, ty x = .AVAILABLE ↔ x ∈ F.pages
  allocated : ∀ b ∈ s.outstanding, ∀ x ∈ b, ty x = .ALLOCATED
  reserved : ∀ x < nr, ty₀ x ≠ .AVAILABLE → ∃ b ∈ res, x ∈ b

theorem Typed.handed_out (ht : Typed ty₀ ty s res F) {b : Block} (hb : b ∈ s.outstanding) {x : ℕ}
    (hx : x ∈ b) : ty₀ x = .AVAILABLE := by
  by_contra hne
  have hlt : x < nr :=
    lt_of_lt_of_le hx.2 (ht.inv.sound b (List.mem_append_left _ hb)).2.2
  obtain ⟨c, hc, hxc⟩ := ht.reserved x hlt hne
  exact ((List.pairwise_append.mp ht.inv.apart).2.2 b hb c hc).not_mem hx hxc

theorem Typed.free (ht : Typed ty₀ ty s res F) {x : ℕ} (hx : FreePage s.mem x) :
    x < nr ∧ ty₀ x = .AVAILABLE := by
  rw [ht.inv.rep.freePage_iff, ht.inv.pages] at hx
  refine ⟨hx.1, ?_⟩
  by_contra hne
  obtain ⟨b, hb, hin⟩ := ht.reserved x hx.1 hne
  exact hx.2 b (List.mem_append_right _ hb) hin

/-- What one more outstanding block takes from the free pages. -/
theorem pages_cons {out : List Block} {b : Block} {ty' : ℕ → PageDescriptorType}
    {G : FreeSet nr maxOrder} (hi : Inv ty ⟨h, out⟩ F) (hi' : Inv ty' ⟨h', b :: out⟩ G) (x : ℕ) :
    (x ∈ b → x ∈ F.pages ∧ x ∉ G.pages) ∧ (x ∉ b → (x ∈ G.pages ↔ x ∈ F.pages)) := by
  have hap := (List.pairwise_cons.mp hi'.apart).1
  rw [hi.pages, hi'.pages]
  simp only [List.forall_mem_cons]
  refine ⟨fun hx => ⟨⟨?_, fun c hc => (hap c hc).not_mem hx⟩, fun hno => hno.2.1 hx⟩, ?_⟩
  · exact lt_of_lt_of_le hx.2 (hi'.sound b List.mem_cons_self).2.2
  · intro hx
    tauto

/-! ## Allocating -/

theorem mark_block_null (old new : PageDescriptorType) {left : ℕ} (hl : 0 < left) (i : ℕ)
    (h : Mem) : mark_block old new none left i h = .error .nullDeref := by
  obtain ⟨n, rfl⟩ : ∃ n, left = n + 1 := ⟨left - 1, by omega⟩
  rfl

theorem nr_block_pages_pos (order : Int) : 0 < nr_block_pages order := by
  rw [nr_block_pages, Nat.one_shiftLeft]
  exact Nat.two_pow_pos _

theorem nr_block_pages_eq {order : Int} (hpos : 0 ≤ order) (hk : order.toNat ≤ maxOrder) :
    nr_block_pages order = 2 ^ order.toNat := by
  have hmax : maxOrder = 16 := rfl
  rw [nr_block_pages, Nat.one_shiftLeft, Int.emod_eq_of_lt hpos (by omega)]

/-- The first page of a block that is not there is dereferenced all the same. -/
theorem alloc_pages_null {algorithm : PageAllocatorAlgorithm} {order : Int}
    (hnull : algorithm.alloc_pages order h = .ok (none, h')) :
    alloc_pages (some algorithm) order h = .error .nullDeref := by
  simp only [alloc_pages, bind_eq, hnull, mark_block_null _ _ (nr_block_pages_pos order)]

/-- Handing out a block of free pages, and marking it. -/
theorem Typed.take (ht : Typed ty₀ ty s res F) {b : Block} {G : FreeSet nr maxOrder} {h₁ h₂ : Mem}
    (hi : Inv ty ⟨h₁, b :: (s.outstanding ++ res)⟩ G)
    (hr : Retyped h₁ h₂ (fun x => b.base ≤ x ∧ x < b.stop) .ALLOCATED) :
    Typed ty₀ (fun x => (h₂.pgd x).type) ⟨h₂, b :: s.outstanding⟩ res G := by
  have hstop := (hi.sound b List.mem_cons_self).2.2
  have hsame : ∀ x, x ∉ b → (h₂.pgd x).type = ty x := fun x hx =>
    (hr.others x hx).trans (hi.rep.types x)
  have hap := (List.pairwise_cons.mp hi.apart).1
  refine ⟨hi.of_rep (hr.rep hi.rep fun x hx => lt_of_lt_of_le hx.2 hstop), fun x hlt => ?_, ?_,
    ht.reserved⟩
  · have hpages := pages_cons ht.inv hi x
    by_cases hx : x ∈ b
    · simp [hr.types x hx, (hpages.1 hx).2]
    · rw [hsame x hx, ht.available x hlt, hpages.2 hx]
  · rintro c (_ | ⟨_, hc⟩) x hx
    · exact hr.types x hx
    · rw [hsame x fun hxb => (hap c (List.mem_append_left _ hc)).not_mem hxb hx]
      exact ht.allocated c hc x hx

theorem Typed.alloc_pages_spec (ht : Typed ty₀ ty s res F) {order : Int} (hlo : -2 ^ 31 ≤ order)
    (hhi : order < 2 ^ 31) :
    (alloc_pages (some (BuddyPageAllocator nr)) order s.mem = .error .nullDeref) ∨
      Returns (alloc_pages (some (BuddyPageAllocator nr)) order) s.mem fun r h' =>
        ∃ p, r = some p ∧ 0 ≤ order ∧ ∃ (ty' : ℕ → PageDescriptorType) (G : FreeSet nr maxOrder),
          Typed ty₀ ty' ⟨h', ⟨p, order.toNat⟩ :: s.outstanding⟩ res G := by
  obtain ⟨r, h₁, he, hpost⟩ := ht.inv.alloc_pages_spec hlo hhi
  rcases r with _ | p
  · exact Or.inl (alloc_pages_null he)
  · right
    obtain ⟨hpos, G, hi, -⟩ := hpost
    obtain ⟨hk, -, hstop⟩ := hi.sound _ List.mem_cons_self
    have hpages : nr_block_pages order = 2 ^ order.toNat := nr_block_pages_eq hpos hk
    unfold alloc_pages
    rw [returns_bind]
    refine returns_of_eq he ?_
    rw [returns_bind, hpages]
    -- The algorithm has not changed the types, and the block was free before.
    have hold : ∀ x, p + 0 ≤ x → x < p + 0 + 2 ^ order.toNat →
        (h₁.pgd x).type = .AVAILABLE := by
      intro x hle hlt
      have hx : x ∈ (⟨p, order.toNat⟩ : Block) := ⟨hle, hlt⟩
      rw [hi.rep.types, ht.available x (lt_of_lt_of_le hx.2 hstop)]
      exact ((pages_cons ht.inv hi x).1 hx).1
    apply returns_mono (mark_block_spec _ _ p _ 0 hold)
    rintro - h₂ hr
    rw [returns_pure]
    exact ⟨p, rfl, hpos, _, G, ht.take hi hr⟩

/-! ## Freeing -/

theorem Typed.give (ht : Typed ty₀ ty s res F) {b : Block} (hb : b ∈ s.outstanding)
    {G : FreeSet nr maxOrder} {h₁ h₂ : Mem} (hi : Inv ty ⟨h₁, s.outstanding.erase b ++ res⟩ G)
    (hr : Retyped h₁ h₂ (fun x => b.base ≤ x ∧ x < b.stop) .AVAILABLE) :
    Typed ty₀ (fun x => (h₂.pgd x).type) ⟨h₂, s.outstanding.erase b⟩ res G := by
  have hperm : (s.outstanding ++ res).Perm (b :: (s.outstanding.erase b ++ res)) :=
    (List.perm_cons_erase hb).append_right res
  have hib := ht.inv.perm hperm
  have hap := (List.pairwise_cons.mp hib.apart).1
  have hstop := (hib.sound b List.mem_cons_self).2.2
  have hsame : ∀ x, x ∉ b → (h₂.pgd x).type = ty x := fun x hx =>
    (hr.others x hx).trans (hi.rep.types x)
  refine ⟨hi.of_rep (hr.rep hi.rep fun x hx => lt_of_lt_of_le hx.2 hstop), fun x hlt => ?_,
    fun c hc x hx => ?_, ht.reserved⟩
  · have hpages := pages_cons hi hib x
    by_cases hx : x ∈ b
    · simp [hr.types x hx, (hpages.1 hx).1]
    · rw [hsame x hx, ht.available x hlt, hpages.2 hx]
  · rw [hsame x fun hxb => (hap c (List.mem_append_left _ hc)).not_mem hxb hx]
    exact ht.allocated c (List.mem_of_mem_erase hc) x hx

theorem Typed.free_pages_spec (ht : Typed ty₀ ty s res F) {b : Block} (hb : b ∈ s.outstanding) :
    Returns (free_pages (some (BuddyPageAllocator nr)) b.base b.order) s.mem fun _ h' =>
      ∃ (ty' : ℕ → PageDescriptorType) (G : FreeSet nr maxOrder),
        Typed ty₀ ty' ⟨h', s.outstanding.erase b⟩ res G := by
  have hmem : b ∈ s.outstanding ++ res := List.mem_append_left _ hb
  have hk := (ht.inv.sound b hmem).1
  have hpages : nr_block_pages b.order = 2 ^ b.order := nr_block_pages_eq (by omega) hk
  unfold free_pages
  rw [returns_bind]
  apply returns_mono (ht.inv.free_pages_spec hmem)
  rintro - h₁ ⟨G, hi⟩
  rw [List.erase_append_left _ hb] at hi
  rw [hpages]
  have hold : ∀ x, b.base + 0 ≤ x → x < b.base + 0 + 2 ^ b.order →
      (h₁.pgd x).type = .ALLOCATED := by
    intro x hle hlt
    rw [hi.rep.types]
    exact ht.allocated b hb x ⟨hle, hlt⟩
  apply returns_mono (mark_block_spec _ _ b.base _ 0 hold)
  rintro - h₂ hr
  exact ⟨_, G, ht.give hb hi hr⟩

/-! ## Whole runs -/

/-- A call that is allowed comes back, or it is an allocation that gets nothing. -/
theorem Typed.step (ht : Typed ty₀ ty s res F) {c : PageCall} (hc : PageAllowed s c) :
    (page_step nr s c = .error .nullDeref ∧ ∃ order, c = .alloc_pages order) ∨
      ∃ s', page_step nr s c = .ok s' ∧
        ∃ (ty' : ℕ → PageDescriptorType) (G : FreeSet nr maxOrder), Typed ty₀ ty' s' res G := by
  cases c with
  | alloc_pages order =>
    rcases ht.alloc_pages_spec hc.1 hc.2 with he | ⟨_, h', he, p, rfl, -, ht'⟩
    · simp only [page_step, he, Except.map]
      exact Or.inl ⟨trivial, order, rfl⟩
    · simp only [page_step, he, Except.map]
      exact Or.inr ⟨_, rfl, ht'⟩
  | free_pages b =>
    obtain ⟨_, h', he, ht'⟩ := ht.free_pages_spec hc
    simp only [page_step, he, Except.map]
    exact Or.inr ⟨_, rfl, ht'⟩

theorem start_typed {mm : MemoryManager} {img : KernelImage}
    (hmarked : ∀ i ∈ marked mm img, i < mm.nr_pages.toNat)
    (hfound : (lookup_phys_block mm (img._HEAP_START - KERNEL_VMEM_START)).isSome)
    (hs : (pageSystem mm img).start s) :
    ∃ (ty : ℕ → PageDescriptorType) (res : List Block) (F : FreeSet mm.nr_pages.toNat maxOrder),
      Typed (fun x => (s.mem.pgd x).type) ty s res F ∧ (s.mem.pgd 0).type ≠ .AVAILABLE := by
  obtain ⟨h, hareas, ht, hinit, hout⟩ := hs
  obtain ⟨-, ty, res, F, hi, hres, hzero⟩ := returns_ok (init_spec rfl hmarked hfound hareas ht) hinit
  have hty : ∀ x, (s.mem.pgd x).type = ty x := hi.rep.types
  refine ⟨ty, res, F, ⟨?_, fun x hlt => ?_, ?_, fun x hlt hne => ?_⟩, (hty 0) ▸ hzero⟩
  · rw [hout]
    exact hi
  · rw [hi.pages]
    constructor
    · intro hav
      exact ⟨hlt, fun b hb hx => ((hres x).mp ⟨b, hb, hx⟩).2 hav⟩
    · rintro ⟨-, hno⟩
      by_contra hne
      obtain ⟨b, hb, hx⟩ := (hres x).mpr ⟨hlt, hne⟩
      exact hno b hb hx
  · simp [hout]
  · exact (hres x).mpr ⟨hlt, (hty x) ▸ hne⟩

theorem run_typed {mm : MemoryManager} {img : KernelImage} {cs : List PageCall}
    {F : FreeSet mm.nr_pages.toNat maxOrder} (hr : (pageSystem mm img).Run s cs t)
    (ht : Typed ty₀ ty s res F) :
    ∃ (ty' : ℕ → PageDescriptorType) (G : FreeSet mm.nr_pages.toNat maxOrder),
      Typed ty₀ ty' t res G := by
  refine hr.preserves (I := fun s => ∃ (ty' : ℕ → PageDescriptorType)
    (G : FreeSet mm.nr_pages.toNat maxOrder), Typed ty₀ ty' s res G) ⟨ty, F, ht⟩ ?_
  rintro s c s' ⟨ty', G, ht'⟩ hc hs
  have hs : page_step mm.nr_pages.toNat s c = .ok s' := hs
  rcases ht'.step hc with ⟨he, -⟩ | ⟨s'', he, ht''⟩
  · rw [hs] at he
    cases he
  · obtain rfl : s' = s'' := Except.ok.inj (hs.symm.trans he)
    exact ht''

/-! ## Types and free lists -/

/-- The types and the free lists agree in every state, so no assertion fails, and what was not
available at the start is never handed out. -/
theorem types_agree (mm : MemoryManager) (img : KernelImage)
    (hmarked : ∀ i ∈ marked mm img, i < mm.nr_pages.toNat)
    (hfound : (lookup_phys_block mm (img._HEAP_START - KERNEL_VMEM_START)).isSome) :
    (∀ h : Mem, (∀ k, h.free_areas k = none) → h.touched = [] →
      ∃ h', init (some (BuddyPageAllocator mm.nr_pages.toNat)) mm img h = .ok (true, h')) ∧
    ∀ s₀ cs s, (pageSystem mm img).start s₀ → (pageSystem mm img).Run s₀ cs s →
      (∀ x < mm.nr_pages.toNat, (s.mem.pgd x).type = .AVAILABLE ↔ FreePage s.mem x) ∧
      (∀ c, PageAllowed s c → page_step mm.nr_pages.toNat s c ≠ .error .assertion) ∧
      (∀ b ∈ s.outstanding, ∃ s', page_step mm.nr_pages.toNat s (.free_pages b) = .ok s') ∧
      ∀ b ∈ s.outstanding, ∀ x ∈ b, (s₀.mem.pgd x).type = .AVAILABLE := by
  refine ⟨fun h hareas ht => ?_, fun s₀ cs s h0 hr => ?_⟩
  · obtain ⟨r, h', he, rfl, -⟩ := init_spec rfl hmarked hfound hareas ht
    exact ⟨h', he⟩
  · obtain ⟨ty, res, F, ht₀, -⟩ := start_typed hmarked hfound h0
    obtain ⟨ty', G, ht⟩ := run_typed hr ht₀
    refine ⟨fun x hlt => ?_, fun c hc he => ?_, fun b hb => ?_, fun b hb x hx => ?_⟩
    · rw [ht.inv.rep.types, ht.available x hlt]
      exact (ht.inv.rep.freePage_iff x).symm
    · rcases ht.step hc with ⟨he', -⟩ | ⟨s', he', -⟩
      all_goals
        rw [he'] at he
        cases he
    · rcases ht.step (c := .free_pages b) hb with ⟨-, order, he⟩ | ⟨s', he, -⟩
      · cases he
      · exact ⟨s', he⟩
    · exact ht.handed_out hb hx

/-- Two MiB of memory, in one block. -/
def two_mib : MemoryManager := add_all [(0, 0x200, .NORMAL)]

/-- A kernel with its stacks at 0x150000, so that its heap starts at 0x154000. -/
def image : KernelImage where
  _STACK_START := 0xFFFFFFFF80150000
  aligned := by decide
  in_kernel := by decide
  room := by decide

theorem two_mib_marked : ∀ i ∈ marked two_mib image, i < two_mib.nr_pages.toNat := by
  have hall : (marked two_mib image).all (· < two_mib.nr_pages.toNat) = true := by decide +kernel
  intro i hi
  simpa using List.all_eq_true.mp hall i hi

theorem two_mib_found :
    (lookup_phys_block two_mib (image._HEAP_START - KERNEL_VMEM_START)).isSome := by
  decide +kernel

theorem types_agree_two_mib : ∃ h', init (some (BuddyPageAllocator 0x200)) two_mib image blank =
    .ok (true, h') ∧ ∀ x < 0x200, (h'.pgd x).type = .AVAILABLE ↔ FreePage h' x := by
  have hnr : two_mib.nr_pages.toNat = 0x200 := by decide +kernel
  obtain ⟨hinit, hruns⟩ := types_agree two_mib image two_mib_marked two_mib_found
  obtain ⟨h', he⟩ := hinit blank (fun _ => rfl) rfl
  rw [hnr] at he hruns
  refine ⟨h', he, (hruns ⟨h', []⟩ [] ⟨h', []⟩ ?_ (.nil _)).1⟩
  refine ⟨blank, fun _ => rfl, rfl, ?_, rfl⟩
  rw [hnr]
  exact he

theorem init_not_found {algorithm : PageAllocatorAlgorithm} {mm : MemoryManager}
    {img : KernelImage}
    (hnone : lookup_phys_block mm (img._HEAP_START - KERNEL_VMEM_START) = none) :
    init (some algorithm) mm img h = .ok (false, h) := by
  have hkva : kva_to_pa img._HEAP_START h = .ok (img._HEAP_START - KERNEL_VMEM_START, h) := by
    obtain ⟨_, _, he, rfl, rfl⟩ := (returns_kva_to_pa img._HEAP_START h
      fun pa h' => pa = img._HEAP_START - KERNEL_VMEM_START ∧ h' = h).mpr
      ⟨img.heap_start_ge, rfl, rfl⟩
    exact he
  have hsetup : setup_page_descriptors mm img h = .ok (false, h) := by
    simp only [setup_page_descriptors, bind_eq, hkva, hnone]
    rfl
  simp only [init, bind_eq, hsetup]
  rfl

/-- The heap starts between two blocks of memory. -/
def two_blocks : MemoryManager := add_all [(0, 0xa0, .NORMAL), (0x200000, 0x200, .NORMAL)]

/-- Everything that is marked is inside the array, but the descriptors have no place. -/
theorem init_fails_between_blocks :
    (∀ i ∈ marked two_blocks image, i < two_blocks.nr_pages.toNat) ∧
    init (some (BuddyPageAllocator two_blocks.nr_pages.toNat)) two_blocks image blank =
      .ok (false, blank) := by
  have hall : (marked two_blocks image).all (· < two_blocks.nr_pages.toNat) = true := by
    decide +kernel
  have hnone : (lookup_phys_block two_blocks (image._HEAP_START - KERNEL_VMEM_START)).isNone =
      true := by decide +kernel
  refine ⟨fun i hi => ?_, init_not_found (Option.isNone_iff_eq_none.mp hnone)⟩
  simpa using List.all_eq_true.mp hall i hi

/-! ## Running out of memory -/

/-- The block that is not there is never reported: its first page is dereferenced. -/
theorem out_of_memory_not_reported (algorithm : PageAllocatorAlgorithm) (order : Int) (h h' : Mem)
    (hnull : algorithm.alloc_pages order h = .ok (none, h')) :
    alloc_pages (some algorithm) order h = .error .nullDeref ∧
      ¬ ∃ h'', alloc_pages (some algorithm) order h = .ok (none, h'') := by
  have he := alloc_pages_null hnull
  refine ⟨he, ?_⟩
  rintro ⟨h'', hok⟩
  rw [he] at hok
  cases hok

/-- An order above the largest one, from any state. -/
theorem alloc_pages_above (nr : ℕ) (h : Mem) :
    (BuddyPageAllocator nr).alloc_pages 17 h = .ok (none, h) := rfl

theorem out_of_memory_not_reported_two_mib : ∃ h',
    init (some (BuddyPageAllocator 0x200)) two_mib image blank = .ok (true, h') ∧
    alloc_pages (some (BuddyPageAllocator 0x200)) 17 h' = .error .nullDeref := by
  have hnr : two_mib.nr_pages.toNat = 0x200 := by decide +kernel
  obtain ⟨r, h', he, rfl, -⟩ := init_spec (h := blank) hnr.symm (hnr ▸ two_mib_marked)
    two_mib_found (fun _ => rfl) rfl
  exact ⟨h', he, (out_of_memory_not_reported _ 17 h' h' (alloc_pages_above _ h')).1⟩

/-- From the state that `init` leaves the algorithm returns `NULL`, and the call does not. -/
theorem out_of_memory_faults : ∃ h',
    init (some (BuddyPageAllocator 0x200)) two_mib image blank = .ok (true, h') ∧
    (BuddyPageAllocator 0x200).alloc_pages 17 h' = .ok (none, h') ∧
    ¬ ∃ h'', alloc_pages (some (BuddyPageAllocator 0x200)) 17 h' = .ok (none, h'') := by
  have hnr : two_mib.nr_pages.toNat = 0x200 := by decide +kernel
  obtain ⟨r, h', he, rfl, -⟩ := init_spec (h := blank) hnr.symm (hnr ▸ two_mib_marked)
    two_mib_found (fun _ => rfl) rfl
  refine ⟨h', he, alloc_pages_above _ h', ?_⟩
  rw [alloc_pages_null (alloc_pages_above _ h')]
  rintro ⟨h'', hok⟩
  cases hok

end Infos.Mm
