import Infos.Mm.PageRuns
import Infos.Vma.Code

/-!
# The page allocator as a source of frames
-/

open Infos.Blocks Infos.Prog Infos.Buddy Infos.Mm

namespace Infos.Vma

variable {nr : ℕ}

/-- What holds of the page allocator of a machine with `nr` pages at any time after `init`. -/
def Running (nr : ℕ) (s : Buddy.State) : Prop :=
  nr ≤ 2 ^ 52 ∧ ∃ (ty₀ ty : ℕ → PageDescriptorType) (res : List Block) (F : FreeSet nr maxOrder),
    Typed ty₀ ty s res F ∧ ty₀ 0 ≠ .AVAILABLE

theorem running_of_run {mm : MemoryManager} {img : KernelImage} {s₀ s : Buddy.State}
    {cs : List PageCall} (hmarked : ∀ i ∈ marked mm img, i < mm.nr_pages.toNat)
    (hfound : (lookup_phys_block mm (img._HEAP_START - KERNEL_VMEM_START)).isSome)
    (hphysical : mm.nr_pages.toNat ≤ 2 ^ 52) (hs : (pageSystem mm img).start s₀)
    (hr : (pageSystem mm img).Run s₀ cs s) : Running mm.nr_pages.toNat s := by
  obtain ⟨ty, res, F, ht, hzero⟩ := start_typed hmarked hfound hs
  obtain ⟨ty', G, ht'⟩ := run_typed hr ht
  exact ⟨hphysical, _, ty', res, G, ht', hzero⟩

/-- What one allocation does to the free pages. -/
structure Takes (nr : ℕ) (s : Buddy.State) (order : Int) (pfn : ℕ) (s' : Buddy.State) : Prop where
  running : Running nr s'
  order_bounds : 0 ≤ order ∧ order ≤ 16
  free : ∀ x, FreePage s'.mem x → FreePage s.mem x
  block : ∀ i < 2 ^ order.toNat, FreePage s.mem (pfn + i) ∧ ¬ FreePage s'.mem (pfn + i)

theorem Running.takes {s : Buddy.State} (hs : Running nr s) {order : Int} (hlo : -2 ^ 31 ≤ order)
    (hhi : order < 2 ^ 31) {r : Option ℕ} {h : Mem}
    (he : Mm.alloc_pages (some (BuddyPageAllocator nr)) order s.mem = .ok (r, h)) :
    ∃ pfn, r = some pfn ∧ Takes nr s order pfn ⟨h, ⟨pfn, order.toNat⟩ :: s.outstanding⟩ := by
  obtain ⟨hphysical, ty₀, ty, res, F, ht, hzero⟩ := hs
  rcases ht.alloc_pages_spec hlo hhi with hnull | hreturns
  · rw [he] at hnull
    cases hnull
  · obtain ⟨pfn, rfl, hpos, ty', G, ht'⟩ := returns_ok hreturns he
    have hfree : ∀ x, FreePage s.mem x ↔ x ∈ F.pages := ht.inv.rep.freePage_iff
    have hfree' : ∀ x, FreePage h x ↔ x ∈ G.pages := ht'.inv.rep.freePage_iff
    have hpages := pages_cons ht.inv ht'.inv
    have hmax : maxOrder = 16 := rfl
    have hsound : order.toNat ≤ maxOrder :=
      (ht'.inv.sound ⟨pfn, order.toNat⟩ List.mem_cons_self).1
    refine ⟨pfn, rfl, {
      running := ⟨hphysical, ty₀, ty', res, G, ht', hzero⟩
      order_bounds := ⟨hpos, by omega⟩
      free := fun x hx => ?_
      block := fun i hi => ?_ }⟩
    · rw [hfree'] at hx
      rw [hfree]
      by_cases hb : x ∈ (⟨pfn, order.toNat⟩ : Block)
      · exact ((hpages x).1 hb).1
      · exact ((hpages x).2 hb).mp hx
    · rw [hfree, hfree']
      exact (hpages (pfn + i)).1 ⟨Nat.le_add_right _ _, Nat.add_lt_add_left hi _⟩

theorem Running.freePage {s : Buddy.State} (hs : Running nr s) {x : ℕ} (hx : FreePage s.mem x) :
    x ≠ 0 ∧ x < 2 ^ 52 := by
  obtain ⟨hphysical, ty₀, ty, res, F, ht, hzero⟩ := hs
  rw [ht.inv.rep.freePage_iff, ht.inv.pages] at hx
  refine ⟨?_, by omega⟩
  rintro rfl
  obtain ⟨b, hb, hin⟩ := ht.reserved 0 hx.1 hzero
  exact hx.2 b (List.mem_append_right _ hb) hin

abbrev Pgalloc (nr : ℕ) := {s : Buddy.State // Running nr s}

/-- An order is an `int`. -/
def pgalloc_alloc (order : Int) (a : Pgalloc nr) : Except Unit (Option ℕ × Pgalloc nr) :=
  if ho : -2 ^ 31 ≤ order ∧ order < 2 ^ 31 then
    match he : Mm.alloc_pages (some (BuddyPageAllocator nr)) order a.1.mem with
    | .error _ => .error ()
    | .ok (none, _) => .ok (none, a)
    | .ok (some pfn, h) => .ok (some pfn, ⟨⟨h, ⟨pfn, order.toNat⟩ :: a.1.outstanding⟩, by
        obtain ⟨_, hr, htakes⟩ := a.2.takes ho.1 ho.2 he
        cases hr
        exact htakes.running⟩)
  else .error ()

theorem pgalloc_takes {order : Int} {a a' : Pgalloc nr} {r : Option ℕ}
    (h : pgalloc_alloc order a = .ok (r, a')) : ∃ pfn, r = some pfn ∧ Takes nr a.1 order pfn a'.1 := by
  unfold pgalloc_alloc at h
  split at h
  next ho =>
    split at h
    next => cases h
    next he =>
      obtain ⟨_, hr, -⟩ := a.2.takes ho.1 ho.2 he
      cases hr
    next pfn mem he =>
      obtain ⟨_, hr, htakes⟩ := a.2.takes ho.1 ho.2 he
      cases hr
      cases h
      exact ⟨pfn, rfl, htakes⟩
  next => cases h

/-- `sys.mm().pgalloc()`, with the buddy algorithm. -/
def pgalloc (nr : ℕ) : PageSource (Pgalloc nr) where
  alloc_pages := pgalloc_alloc
  free a := {x | FreePage a.1.mem x}
  shrinks h := by
    obtain ⟨pfn, -, htakes⟩ := pgalloc_takes h
    exact htakes.free
  order_le h := by
    obtain ⟨pfn, -, htakes⟩ := pgalloc_takes h
    exact htakes.order_bounds
  grants h := by
    obtain ⟨pfn, hr, htakes⟩ := pgalloc_takes h
    cases hr
    exact htakes.block
  zero_kept a h := (a.2.freePage h).1 rfl
  physical a _ h := (a.2.freePage h).2

end Infos.Vma
