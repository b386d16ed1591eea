import Infos.Mm.PageTypes

/-!
# The simple page allocator, as `infos/mm/simple-page-alloc.cpp` runs it

Its loops only read the types. A turn of the outer loop begins behind the descriptor that spoiled
the last one.
-/

open Infos.Prog Infos.Buddy

namespace Infos.Mm

namespace SimplePageAllocator

/-- `1 << order` is an `int`, which is widened with its sign. -/
def nr_pages (order : Int) : UInt64 := (Int32.ofNat (nr_block_pages order)).toInt64.toUInt64

/-- The inner loop of `alloc_pages`, with so many descriptors left, to one that is not available. -/
def scan : (left subidx : ℕ) → Op (Option ℕ)
  | 0, _ => pure none
  | left + 1, subidx => do
    if (← load_type subidx) ≠ .AVAILABLE then pure (some subidx) else scan left (subidx + 1)

def alloc_loop (_nr_pgds : ℕ) (nr_pages : UInt64) : (rounds idx : ℕ) → Op (Option ℕ)
  | 0, _ => throw .endless
  | rounds + 1, idx => do
    if idx < _nr_pgds then
      match ← scan ((idx + nr_pages.toNat) % 2 ^ 64 - idx) idx with
      | none => pure (some idx)
      | some subidx => alloc_loop _nr_pgds nr_pages rounds (subidx + 1)
    else pure none

def alloc_pages (_nr_pgds : ℕ) (order : Int) : Op (Option ℕ) :=
  alloc_loop _nr_pgds (nr_pages order) (_nr_pgds + 1) 0

def check_block (base : ℕ) : (left i : ℕ) → Op Unit
  | 0, _ => pure ()
  | left + 1, i => do
    assert ((← load_type (base + i)) == .ALLOCATED)
    check_block base left (i + 1)

def free_pages (pgd order : ℕ) : Op Unit := check_block pgd (nr_block_pages order) 0

def reserve_page (pgd : ℕ) : Op Bool := do
  assert ((← load_type pgd) != .AVAILABLE)
  pure true

end SimplePageAllocator

def SimplePageAllocator (nr : ℕ) : PageAllocatorAlgorithm where
  init _ := pure true
  reserve_page := SimplePageAllocator.reserve_page
  alloc_pages := SimplePageAllocator.alloc_pages nr
  free_pages := SimplePageAllocator.free_pages

namespace SimplePageAllocator

/-! ## First fit -/

/-- The `n` descriptors from `i` on lie in the array and are available. -/
def Fits (ty : ℕ → PageDescriptorType) (nr n i : ℕ) : Prop :=
  i + n ≤ nr ∧ ∀ j, i ≤ j → j < i + n → ty j = .AVAILABLE

/-- The lowest place where the `n` descriptors fit, if there is one. -/
def FirstFit (ty : ℕ → PageDescriptorType) (nr n : ℕ) : Option ℕ → Prop
  | some i => Fits ty nr n i ∧ ∀ j < i, ¬Fits ty nr n j
  | none => ∀ i, ¬Fits ty nr n i

def types (h : Mem) (i : ℕ) : PageDescriptorType := (h.pgd i).type

variable {h h' : Mem} {ty : ℕ → PageDescriptorType} {nr n i j idx subidx left : ℕ}

/-- From `h` to `h'` nothing happened but that the descriptors from `lo` up to `hi` were read. -/
structure Reads (h h' : Mem) (lo hi : ℕ) : Prop where
  pgd : h'.pgd = h.pgd
  touched : ∀ i, i ∈ h'.touched ↔ i ∈ h.touched ∨ (lo ≤ i ∧ i < hi)

/-- The scan stops at the first descriptor that is not available. -/
def Scanned (h : Mem) (lo hi : ℕ) (r : Option ℕ) (h' : Mem) : Prop :=
  match r with
  | none => Reads h h' lo hi ∧ ∀ j, lo ≤ j → j < hi → types h j = .AVAILABLE
  | some k => Reads h h' lo (k + 1) ∧ lo ≤ k ∧ k < hi ∧ types h k ≠ .AVAILABLE ∧
      ∀ j, lo ≤ j → j < k → types h j = .AVAILABLE

theorem scan_spec (h : Mem) (left subidx : ℕ) :
    Returns (scan left subidx) h (Scanned h subidx (subidx + left)) := by
  induction left generalizing h subidx with
  | zero =>
    rw [scan, returns_pure]
    exact ⟨⟨rfl, fun i => ⟨.inl, fun hi => hi.resolve_right (by omega)⟩⟩, fun j _ _ => by omega⟩
  | succ left ih =>
    have htouched : ∀ i, i ∈ (h.visit (.node subidx)).touched ↔ i = subidx ∨ i ∈ h.touched :=
      fun i => List.mem_cons
    rw [scan, returns_bind, returns_load_type]
    refine returns_ite (fun hspoiled => ?_) fun hav => ?_
    · rw [returns_pure]
      refine ⟨⟨rfl, fun i => ?_⟩, le_rfl, by omega, hspoiled, fun j _ _ => by omega⟩
      rw [htouched, or_comm, show i = subidx ↔ subidx ≤ i ∧ i < subidx + 1 by omega]
    · have hhere : types h subidx = .AVAILABLE := not_not.mp hav
      refine returns_mono (ih _ (subidx + 1)) fun r h' hr => ?_
      -- What was read before the rest of the scan is the first descriptor.
      have hreads : ∀ {hi}, subidx < hi → Reads (h.visit (.node subidx)) h' (subidx + 1) hi →
          Reads h h' subidx hi := by
        refine fun {hi} hlt hR => ⟨hR.pgd, fun i => ?_⟩
        have hsplit : subidx ≤ i ∧ i < hi ↔ i = subidx ∨ subidx + 1 ≤ i ∧ i < hi := by omega
        rw [hR.touched, htouched, hsplit]
        tauto
      have hfirst : ∀ {hi}, (∀ j, subidx + 1 ≤ j → j < hi → types h j = .AVAILABLE) →
          ∀ j, subidx ≤ j → j < hi → types h j = .AVAILABLE := by
        intro hi hall j hle hlt
        obtain rfl | hne := Nat.eq_or_lt_of_le hle
        · exact hhere
        · exact hall j hne hlt
      cases r with
      | none =>
        obtain ⟨hR, hall⟩ := hr
        rw [show subidx + 1 + left = subidx + (left + 1) by omega] at hR hall
        exact ⟨hreads (by omega) hR, hfirst hall⟩
      | some k =>
        obtain ⟨hR, hle, hlt, hspoiled, hall⟩ := hr
        exact ⟨hreads (by omega) hR, by omega, by omega, hspoiled, hfirst hall⟩

/-- No place up to a descriptor that is not available fits, from so far before it on. -/
theorem not_fits (hj : ty j ≠ .AVAILABLE) (hle : i ≤ j) (hlt : j < i + n) : ¬Fits ty nr n i :=
  fun hfits => hj (hfits.2 j hle hlt)

/-- Where the last descriptor of the array is available but nothing fits, the scan runs over. -/
def RunsOver (ty : ℕ → PageDescriptorType) (nr n : ℕ) : Prop :=
  (∀ i, ¬Fits ty nr n i) ∧ 0 < nr ∧ ty (nr - 1) = .AVAILABLE

/-- What `alloc_pages` comes back with from memory `h`. -/
structure Allocates (h : Mem) (nr n : ℕ) (r : Option ℕ) (h' : Mem) : Prop where
  kept : ∀ i ∈ h.touched, i ∈ h'.touched
  fits : ¬RunsOver (types h) nr n → FirstFit (types h) nr n r
  inside : ¬RunsOver (types h) nr n → ∀ i ∈ h'.touched, i ∈ h.touched ∨ i < nr
  runs_over : RunsOver (types h) nr n → nr ∈ h'.touched

/-- An array whose end is available, with no place that fits up to where its end begins. -/
theorem runsOver (hlow : ∀ i < idx, ¬Fits ty nr n i) (hlt : idx < nr) (hshort : nr < idx + n)
    (hend : ∀ j, idx ≤ j → j < nr → ty j = .AVAILABLE) : RunsOver ty nr n := by
  refine ⟨fun i hfits => ?_, by omega, hend _ (by omega) (by omega)⟩
  have hroom := hfits.1
  exact hlow i (by omega) hfits

/-- The turns before found no place that fits, and one that ran over is the last. -/
theorem alloc_loop_spec (h : Mem) {nr_pages : UInt64} {rounds : ℕ} (idx : ℕ) (hpages : 0 < nr_pages.toNat)
    (hmem : nr + nr_pages.toNat ≤ 2 ^ 64) (hpos : 0 < rounds) (hrounds : nr < rounds + idx)
    (hlow : ∀ i < idx, ¬Fits (types h) nr nr_pages.toNat i)
    (hover : RunsOver (types h) nr nr_pages.toNat → idx < nr ∨ nr ∈ h.touched) :
    Returns (alloc_loop nr nr_pages rounds idx) h (Allocates h nr nr_pages.toNat) := by
  generalize hn : nr_pages.toNat = n at *
  induction rounds generalizing h idx with
  | zero => omega
  | succ rounds ih =>
    unfold alloc_loop
    refine returns_ite (fun hlt => ?_) fun hge => ?_
    · rw [returns_bind, hn, show (idx + n) % 2 ^ 64 - idx = n by omega]
      refine returns_mono (scan_spec h n idx) fun r h₁ hr => ?_
      cases r with
      | none =>
        obtain ⟨hR, hall⟩ := hr
        have hkept : ∀ i ∈ h.touched, i ∈ h₁.touched := fun i hi => (hR.touched i).mpr (.inl hi)
        rw [returns_pure]
        by_cases hin : idx + n ≤ nr
        · have hfits : Fits (types h) nr n idx := ⟨hin, hall⟩
          refine ⟨hkept, fun _ => ⟨hfits, hlow⟩, ?_, ?_⟩
          · intro _ i hi
            exact ((hR.touched i).mp hi).imp_right fun hi => by omega
          · intro hov
            exact absurd hfits (hov.1 idx)
        · have hov : RunsOver (types h) nr n :=
            runsOver hlow hlt (by omega) fun j hle hj => hall j hle (by omega)
          refine ⟨hkept, fun hnot => absurd hov hnot, fun hnot => absurd hov hnot, fun _ => ?_⟩
          exact (hR.touched nr).mpr (.inr ⟨by omega, by omega⟩)
      | some k =>
        obtain ⟨hR, hle, hk, hspoiled, hall⟩ := hr
        have htypes : types h₁ = types h := by
          unfold types
          rw [hR.pgd]
        have hlow₁ : ∀ i < k + 1, ¬Fits (types h) nr n i := by
          intro i hi
          by_cases hidx : i < idx
          · exact hlow i hidx
          · exact not_fits hspoiled (by omega) (by omega)
        have hover₁ : RunsOver (types h) nr n → k + 1 < nr ∨ nr ∈ h₁.touched := by
          rintro ⟨-, -, hlast⟩
          have hne : k ≠ nr - 1 := fun heq => hspoiled (heq ▸ hlast)
          by_cases hin : k < nr
          · exact .inl (by omega)
          · exact .inr ((hR.touched nr).mpr (.inr ⟨by omega, by omega⟩))
        have hin : ¬RunsOver (types h) nr n → k < nr := by
          intro hnot
          by_contra hout
          exact hnot (runsOver hlow hlt (by omega) fun j hlo hj => hall j hlo (by omega))
        obtain ⟨r, h', he, hpost⟩ := ih h₁ (k + 1) (by omega) (by omega)
          (by rwa [htypes]) (by rwa [htypes])
        obtain ⟨hkept, hfits, hinside, hov⟩ := hpost
        rw [htypes] at hfits hinside hov
        refine ⟨r, h', he, fun i hi => hkept i ((hR.touched i).mpr (.inl hi)), hfits, ?_, hov⟩
        intro hnot i hi
        have hklt := hin hnot
        obtain hi | hi := hinside hnot i hi
        · exact ((hR.touched i).mp hi).imp_right fun hi => by omega
        · exact .inr hi
    · rw [returns_pure]
      refine ⟨fun _ => id, fun _ i hfits => ?_, fun _ i hi => .inl hi, fun hov => ?_⟩
      · have hroom := hfits.1
        exact hlow i (by omega) hfits
      · exact (hover hov).resolve_left hge

theorem nr_pages_toNat {order : ℕ} (horder : order < 31) : (nr_pages order).toNat = 2 ^ order := by
  have hall : ∀ order : Fin 31, (nr_pages (order : ℕ)).toNat = 2 ^ (order : ℕ) := by decide
  exact hall ⟨order, horder⟩

/-- A descriptor takes 16 bytes. -/
theorem first_fit_iff {order : ℕ} (horder : order < 31) (hmem : 16 * nr ≤ 2 ^ 64)
    (pgd : ℕ → PageDescriptor) (free_areas : ℕ → Option ℕ) :
    Returns ((SimplePageAllocator nr).alloc_pages order) ⟨pgd, free_areas, []⟩ (fun r h' =>
      FirstFit (fun i => (pgd i).type) nr (2 ^ order) r ∧ ∀ i ∈ h'.touched, i < nr) ↔
    (∃ i, Fits (fun i => (pgd i).type) nr (2 ^ order) i) ∨ nr = 0 ∨
      (pgd (nr - 1)).type ≠ .AVAILABLE := by
  have hpages := nr_pages_toNat horder
  have hle : 2 ^ order ≤ 2 ^ 30 := Nat.pow_le_pow_right (by decide) (by omega)
  have hret : Returns (alloc_loop nr (nr_pages order) (nr + 1) 0) ⟨pgd, free_areas, []⟩
      (Allocates ⟨pgd, free_areas, []⟩ nr (nr_pages order).toNat) :=
    alloc_loop_spec _ 0 (by rw [hpages]; exact Nat.two_pow_pos order) (by omega) (by omega)
      (by omega) (by omega) fun hov => .inl hov.2.1
  obtain ⟨r, h', he, hpost⟩ := hret
  rw [hpages] at hpost
  obtain ⟨-, hfits, hinside, hov⟩ := hpost
  have hiff : ¬RunsOver (types ⟨pgd, free_areas, []⟩) nr (2 ^ order) ↔
      (∃ i, Fits (fun i => (pgd i).type) nr (2 ^ order) i) ∨ nr = 0 ∨
        (pgd (nr - 1)).type ≠ .AVAILABLE := by
    unfold RunsOver types
    rw [not_and_or, not_and_or, not_forall_not, Nat.not_lt, Nat.le_zero]
  rw [← hiff]
  constructor
  · rintro hret hov'
    have hlt := (returns_ok hret he).2 nr (hov hov')
    exact Nat.lt_irrefl nr hlt
  · intro hnot
    refine ⟨r, h', he, hfits hnot, fun i hi => ?_⟩
    exact (hinside hnot i hi).resolve_left (by simp)

theorem first_fit_iff_two :
    Returns ((SimplePageAllocator 3).alloc_pages (1 : ℕ))
      ⟨fun _ => ⟨none, .AVAILABLE⟩, fun _ => none, []⟩ (fun r h' =>
        FirstFit (fun _ => .AVAILABLE) 3 (2 ^ 1) r ∧ ∀ i ∈ h'.touched, i < 3) ↔
    (∃ i, Fits (fun _ => .AVAILABLE) 3 (2 ^ 1) i) ∨ 3 = 0 ∨
      (PageDescriptorType.AVAILABLE ≠ .AVAILABLE) :=
  first_fit_iff (by decide) (by decide) _ _

/-- Two pages are asked for, and the only one there is is available. -/
theorem not_first_fit : ¬Returns ((SimplePageAllocator 1).alloc_pages (1 : ℕ))
    ⟨fun i => ⟨none, if i = 0 then .AVAILABLE else .INVALID⟩, fun _ => none, []⟩
    (fun r h' => FirstFit (fun i => if i = 0 then .AVAILABLE else .INVALID) 1 (2 ^ 1) r ∧
      ∀ i ∈ h'.touched, i < 1) := by
  rintro ⟨r, h', he, -, hinside⟩
  have htouched : ((SimplePageAllocator 1).alloc_pages (1 : ℕ)
      ⟨fun i => ⟨none, if i = 0 then .AVAILABLE else .INVALID⟩, fun _ => none, []⟩).toOption.map
        (fun p => p.2.touched) = some [1, 0] := by decide
  rw [he] at htouched
  have h1 : (1 : ℕ) ∈ h'.touched := by
    rw [show h'.touched = [1, 0] from Option.some.inj htouched]
    decide
  exact absurd (hinside 1 h1) (by decide)

end SimplePageAllocator

end Infos.Mm
