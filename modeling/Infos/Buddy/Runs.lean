import Infos.Buddy.Interface
import Infos.Lib.System

/-!
# Runs of the algorithm

A run starts with `init` on zeroed descriptors. What is outstanding is what `alloc_pages` and
`reserve_page` gave out and `free_pages` has not taken back.
-/

open Infos.Blocks Infos.Prog Infos.PtrList

namespace Infos.Buddy

inductive Call where
  | alloc_pages (order : Int)
  | reserve_page (pgd : ℕ)
  | free_pages (b : Block)
  deriving DecidableEq, Repr

structure State where
  mem : Mem
  outstanding : List Block

def step (nr : ℕ) (s : State) : Call → Except Fault State
  | .alloc_pages order =>
    (alloc_pages nr order s.mem).map fun (r, mem) =>
      match r with
      | some p => ⟨mem, ⟨p, order.toNat⟩ :: s.outstanding⟩
      | none => ⟨mem, s.outstanding⟩
  | .reserve_page pgd =>
    (reserve_page nr pgd s.mem).map fun (r, mem) =>
      ⟨mem, if r then ⟨pgd, 0⟩ :: s.outstanding else s.outstanding⟩
  | .free_pages b =>
    (free_pages nr b.base b.order s.mem).map fun (_, mem) => ⟨mem, s.outstanding.erase b⟩

/-- An order is an `int`. Freed is only what is outstanding, and at the order it was given out. -/
def Allowed (s : State) : Call → Prop
  | .alloc_pages order => -2 ^ 31 ≤ order ∧ order < 2 ^ 31
  | .reserve_page _ => True
  | .free_pages b => b ∈ s.outstanding

def system (nr : ℕ) : System State Call Fault where
  start s := ∃ h, Zeroed nr h ∧ init nr h = .ok (true, s.mem) ∧ s.outstanding = []
  allowed := Allowed
  step := step nr

/-- Memory as the loader leaves it. -/
def blank : Mem := ⟨fun _ => ⟨none, .INVALID⟩, fun _ => none, []⟩

theorem zeroed_blank (nr : ℕ) : Zeroed nr blank := ⟨fun _ => rfl, fun _ _ => rfl, by simp [blank]⟩

instance (s : State) : (c : Call) → Decidable (Allowed s c)
  | .alloc_pages order => inferInstanceAs (Decidable (-2 ^ 31 ≤ order ∧ order < 2 ^ 31))
  | .reserve_page _ => isTrue trivial
  | .free_pages b => inferInstanceAs (Decidable (b ∈ s.outstanding))

instance (nr : ℕ) (s : State) (c : Call) : Decidable ((system nr).allowed s c) :=
  inferInstanceAs (Decidable (Allowed s c))

/-- The state after `init` and the calls, started from blank memory. -/
def boot (nr : ℕ) (cs : List Call) : Option State :=
  match init nr blank with
  | .ok (true, h) => (system nr).exec ⟨h, []⟩ cs
  | _ => none

/-! ## What the lists hold -/

/-- The block is an entry of the list of its order. -/
def FreeBlock (h : Mem) (b : Block) : Prop :=
  b.order < MAX_ORDER ∧ ∃ l, HasList h.links b.order l ∧ b.base ∈ l

def FreePage (h : Mem) (x : ℕ) : Prop := ∃ b, FreeBlock h b ∧ x ∈ b

variable {nr : ℕ} {ty : ℕ → PageDescriptorType} {h : Mem} {F : FreeSet nr maxOrder}

theorem Rep.freeBlock_iff (R : Rep nr ty h F) (b : Block) : FreeBlock h b ↔ b ∈ F := by
  constructor
  · rintro ⟨-, l, hl, hb⟩
    exact ((R.of_hasList hl).2 b.base).mp hb
  · intro hb
    obtain ⟨l, hl, -, hm⟩ := R.list b.order
    have := F.order_le b hb
    have := maxOrder_lt
    exact ⟨by omega, l, hl, (hm b.base).mpr hb⟩

theorem Rep.freePage_iff (R : Rep nr ty h F) (x : ℕ) : FreePage h x ↔ x ∈ F.pages := by
  simp only [FreePage, R.freeBlock_iff, FreeSet.mem_pages]

/-! ## The invariant -/

/-- What a block given out is like. -/
def Sound (nr : ℕ) (b : Block) : Prop := b.order ≤ maxOrder ∧ b.Aligned ∧ b.stop ≤ nr

/-- The free pages are those that no outstanding block covers, and no two buddies are free. -/
structure Inv (ty : ℕ → PageDescriptorType) (s : State) (F : FreeSet nr maxOrder) : Prop where
  rep : Rep nr ty s.mem F
  coalesced : F.Coalesced
  sound : ∀ b ∈ s.outstanding, Sound nr b
  apart : s.outstanding.Pairwise Block.Apart
  pages : ∀ x, x ∈ F.pages ↔ x < nr ∧ ∀ b ∈ s.outstanding, x ∉ b

variable {s s' t : State}

theorem Inv.fits (hi : Inv ty s F) {b : Block} (hb : b ∈ s.outstanding) : F.Fits b := by
  obtain ⟨hk, ha, hin⟩ := hi.sound b hb
  refine ⟨hk, ha, hin, fun a haF => Block.apart_of_disjoint fun x hx => ?_⟩
  exact ((hi.pages x).mp ⟨a, haF, hx⟩).2 b hb

/-- Only the lists and the types matter. -/
theorem Inv.of_rep (hi : Inv ty s F) {ty' : ℕ → PageDescriptorType} {h' : Mem}
    (R : Rep nr ty' h' F) : Inv ty' ⟨h', s.outstanding⟩ F :=
  ⟨R, hi.coalesced, hi.sound, hi.apart, hi.pages⟩

/-- Blocks may be listed in any order. -/
theorem Inv.perm (hi : Inv ty s F) {out : List Block} (hp : s.outstanding.Perm out) :
    Inv ty ⟨s.mem, out⟩ F := by
  refine ⟨hi.rep, hi.coalesced, fun b hb => hi.sound b (hp.mem_iff.mpr hb), ?_, fun x => ?_⟩
  · exact (hp.pairwise_iff fun h => h.symm).mp hi.apart
  · simp only [hi.pages, hp.mem_iff]

/-- Giving out a block of free pages. -/
theorem Inv.take (hi : Inv ty s F) {h' : Mem} {F' : FreeSet nr maxOrder} {b : Block}
    (R : Rep nr ty h' F') (hF : F'.Coalesced) (hb : Sound nr b) (hfree : ∀ x ∈ b, x ∈ F.pages)
    (hpages : ∀ x, x ∈ F'.pages ↔ x ∈ F.pages ∧ x ∉ b) :
    Inv ty ⟨h', b :: s.outstanding⟩ F' := by
  refine ⟨R, hF, ?_, ?_, fun x => ?_⟩
  · rintro c (_ | ⟨_, hc⟩)
    · exact hb
    · exact hi.sound c hc
  · refine List.pairwise_cons.mpr ⟨fun c hc => Block.apart_of_disjoint fun x hx => ?_, hi.apart⟩
    exact ((hi.pages x).mp (hfree x hx)).2 c hc
  · rw [hpages, hi.pages]
    simp only [List.forall_mem_cons]
    tauto

/-- Taking a block back. -/
theorem Inv.give {out : List Block} {b : Block} (hi : Inv ty ⟨h, b :: out⟩ F) {h' : Mem}
    {F' : FreeSet nr maxOrder} (R : Rep nr ty h' F') (hF : F'.Coalesced)
    (hpages : ∀ x, x ∈ F'.pages ↔ x ∈ b ∨ x ∈ F.pages) : Inv ty ⟨h', out⟩ F' := by
  have hap := List.pairwise_cons.mp hi.apart
  obtain ⟨-, -, hstop⟩ := hi.sound b List.mem_cons_self
  refine ⟨R, hF, fun c hc => hi.sound c (List.mem_cons_of_mem b hc), hap.2, fun x => ?_⟩
  rw [hpages, hi.pages]
  simp only [List.forall_mem_cons]
  constructor
  · rintro (hx | ⟨hx, -, hout⟩)
    · exact ⟨lt_of_lt_of_le hx.2 hstop, fun c hc => (hap.1 c hc).not_mem hx⟩
    · exact ⟨hx, hout⟩
  · rintro ⟨hx, hout⟩
    by_cases hxb : x ∈ b
    · exact Or.inl hxb
    · exact Or.inr ⟨hx, hxb, hout⟩

/-! ## One call -/

/-- What `alloc_pages` gives, over the invariant. -/
def Allocated (ty : ℕ → PageDescriptorType) (s : State) (F : FreeSet nr maxOrder) (order : Int)
    (r : Option ℕ) (h' : Mem) : Prop :=
  match r with
  | none => h' = s.mem ∧ ∀ b ∈ F, 0 ≤ order → (b.order : Int) < order
  | some p => 0 ≤ order ∧ ∃ F' : FreeSet nr maxOrder,
      Inv ty ⟨h', ⟨p, order.toNat⟩ :: s.outstanding⟩ F' ∧
      ∃ b ∈ F, b.base = p ∧ order ≤ b.order ∧ ∀ c ∈ F, order ≤ c.order → b.order ≤ c.order

theorem Inv.alloc_pages_spec (hi : Inv ty s F) {order : Int} (hlo : -2 ^ 31 ≤ order)
    (hhi : order < 2 ^ 31) :
    Returns (alloc_pages nr order) s.mem (Allocated ty s F order) := by
  by_cases hneg : order < 0
  · rw [alloc_pages_neg order hneg hlo, returns_pure]
    exact ⟨rfl, fun b _ hpos => by omega⟩
  · obtain ⟨k, rfl⟩ := Int.eq_ofNat_of_zero_le (not_lt.mp hneg)
    apply returns_mono (Buddy.alloc_pages_spec k hi.rep hi.coalesced (by omega))
    rintro (_ | p) h' hpost
    · obtain ⟨rfl, hsmall⟩ := hpost
      exact ⟨rfl, fun b hb _ => by exact_mod_cast hsmall b hb⟩
    · obtain ⟨F', R', hF', hpages, hfree, ha, hk, hin, b, hb, hbp, hle, hmin⟩ := hpost
      refine ⟨by omega, F', hi.take R' hF' ⟨hk, ha, hin⟩ hfree hpages, b, hb, hbp, by omega, ?_⟩
      intro c hc hkc
      exact hmin c hc (by omega)

theorem Inv.reserve_page_spec (hi : Inv ty s F) (pgd : ℕ) :
    Returns (reserve_page nr pgd) s.mem fun r h' => (r = true ↔ pgd ∈ F.pages) ∧
      ∃ F' : FreeSet nr maxOrder,
        Inv ty ⟨h', if r then ⟨pgd, 0⟩ :: s.outstanding else s.outstanding⟩ F' := by
  apply returns_mono (Buddy.reserve_page_spec pgd hi.rep hi.coalesced)
  have hone : ∀ x, x ∈ (⟨pgd, 0⟩ : Block) ↔ x = pgd := by
    intro x
    simp only [Block.mem_iff, Block.stop, pow_zero]
    omega
  rintro (_ | _) h' hpost
  · obtain ⟨hp, -, R'⟩ := hpost
    exact ⟨by simp [hp], F, hi.of_rep R'⟩
  · obtain ⟨hp, F', R', hF', hpages⟩ := hpost
    have hlt := ((hi.pages pgd).mp hp).1
    refine ⟨by simp [hp], F', hi.take R' hF' ⟨Nat.zero_le _, one_dvd _, hlt⟩ ?_ ?_⟩
    · intro x hx
      exact (hone x).mp hx ▸ hp
    · intro x
      rw [hpages, hone]

theorem Inv.free_pages_spec (hi : Inv ty s F) {b : Block} (hb : b ∈ s.outstanding) :
    Returns (free_pages nr b.base b.order) s.mem fun _ h' => ∃ F' : FreeSet nr maxOrder,
      Inv ty ⟨h', s.outstanding.erase b⟩ F' := by
  apply returns_mono (Buddy.free_pages_spec hi.rep hi.coalesced (hi.fits hb))
  rintro - h' ⟨F', R', hF', hpages⟩
  exact ⟨F', (hi.perm (List.perm_cons_erase hb)).give R' hF' hpages⟩

/-- Every allowed call comes back, and with the invariant. -/
theorem Inv.step (hi : Inv ty s F) {c : Call} (hc : Allowed s c) :
    ∃ s', step nr s c = .ok s' ∧ ∃ F' : FreeSet nr maxOrder, Inv ty s' F' := by
  cases c with
  | alloc_pages order =>
    obtain ⟨r, h', he, hpost⟩ := hi.alloc_pages_spec hc.1 hc.2
    simp only [Buddy.step, he, Except.map]
    cases r with
    | none =>
      obtain ⟨rfl, -⟩ := hpost
      exact ⟨_, rfl, F, hi⟩
    | some p =>
      obtain ⟨-, F', hi', -⟩ := hpost
      exact ⟨_, rfl, F', hi'⟩
  | reserve_page pgd =>
    obtain ⟨r, h', he, -, hpost⟩ := hi.reserve_page_spec pgd
    simp only [Buddy.step, he, Except.map]
    exact ⟨_, rfl, hpost⟩
  | free_pages b =>
    obtain ⟨r, h', he, hpost⟩ := hi.free_pages_spec hc
    simp only [Buddy.step, he, Except.map]
    exact ⟨_, rfl, hpost⟩

/-! ## Whole runs -/

theorem init_starts (hz : Zeroed nr h) :
    ∃ h', init nr h = .ok (true, h') ∧ (system nr).start ⟨h', []⟩ := by
  obtain ⟨r, h', he, rfl, -⟩ := init_spec hz
  exact ⟨h', he, h, hz, he, rfl⟩

theorem boot_reachable {cs : List Call} (hb : boot nr cs = some s) : (system nr).Reachable s := by
  obtain ⟨h, he, hs⟩ := init_starts (zeroed_blank nr)
  simp only [boot, he] at hb
  exact (System.Reachable.of_start hs).run (System.run_of_exec hb)

theorem start_inv (hs : (system nr).start s) : ∃ (ty : ℕ → PageDescriptorType)
    (F : FreeSet nr maxOrder), Inv ty s F ∧ OneEach F ∧ s.outstanding = [] := by
  obtain ⟨h, hz, hinit, hout⟩ := hs
  obtain ⟨-, F, R, hone, hp⟩ := returns_ok (init_spec hz) hinit
  refine ⟨_, F, ⟨R, hone.coalesced, ?_, ?_, fun x => ?_⟩, hone, hout⟩
  · simp [hout]
  · simp [hout]
  · simp [hout, hp]

theorem run_inv {cs : List Call} (hr : (system nr).Run s cs t) (hi : Inv ty s F) :
    ∃ F' : FreeSet nr maxOrder, Inv ty t F' := by
  refine hr.preserves (I := fun s => ∃ F' : FreeSet nr maxOrder, Inv ty s F') ⟨F, hi⟩ ?_
  rintro s c s' ⟨F', hi'⟩ hc hs
  obtain ⟨s'', hs'', F'', hi''⟩ := hi'.step hc
  obtain rfl : s' = s'' := Except.ok.inj (hs.symm.trans hs'')
  exact ⟨F'', hi''⟩

theorem reachable_inv (hs : (system nr).Reachable s) :
    ∃ (ty : ℕ → PageDescriptorType) (F : FreeSet nr maxOrder), Inv ty s F := by
  obtain ⟨s₀, cs, h0, hr⟩ := hs
  obtain ⟨ty, F, hi, -⟩ := start_inv h0
  exact ⟨ty, run_inv hr hi⟩

/-! ## Reserving a page -/

/-- The page is taken from the free ones, or, where it was not free, no pointer changes. -/
theorem reserves_one_page (hs : (system nr).Reachable s) (pgd : ℕ) :
    ∃ r h', reserve_page nr pgd s.mem = .ok (r, h') ∧ (r = true ↔ FreePage s.mem pgd) ∧
      (r = true → ∀ x, FreePage h' x ↔ FreePage s.mem x ∧ x ≠ pgd) ∧
      (r = false → h'.links = s.mem.links) := by
  obtain ⟨ty, F, hi⟩ := reachable_inv hs
  obtain ⟨r, h', he, hpost⟩ := Buddy.reserve_page_spec pgd hi.rep hi.coalesced
  refine ⟨r, h', he, ?_⟩
  simp only [hi.rep.freePage_iff]
  cases r with
  | true =>
    obtain ⟨hfree, F', R', -, hpages⟩ := hpost
    refine ⟨by simp [hfree], fun _ x => ?_, by simp⟩
    rw [R'.freePage_iff, hpages]
  | false =>
    obtain ⟨hnot, hlinks, -⟩ := hpost
    exact ⟨by simp [hnot], by simp, fun _ => hlinks⟩

theorem reserves_one_page_three : ∃ s, boot 3 [.alloc_pages 1] = some s ∧
    ∃ r h', reserve_page 3 2 s.mem = .ok (r, h') ∧ (r = true ↔ FreePage s.mem 2) ∧
      (r = true → ∀ x, FreePage h' x ↔ FreePage s.mem x ∧ x ≠ 2) ∧
      (r = false → h'.links = s.mem.links) := by
  have hb : (boot 3 [.alloc_pages 1]).isSome := by decide +kernel
  obtain ⟨s, hs⟩ := Option.isSome_iff_exists.mp hb
  exact ⟨s, hs, reserves_one_page (boot_reachable hs) 2⟩

end Infos.Buddy
