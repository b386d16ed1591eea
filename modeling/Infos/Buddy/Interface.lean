import Infos.Buddy.Merge

/-! # The four operations of the algorithm -/

open Infos.Blocks Infos.Prog Infos.PtrList

namespace Infos.Buddy

variable {nr : ℕ} {ty : ℕ → PageDescriptorType} {h : Mem} {F : FreeSet nr maxOrder}

/-! ## Freeing -/

theorem free_pages_spec {b : Block} (R : Rep nr ty h F) (hF : F.Coalesced) (hb : F.Fits b) :
    Returns (free_pages nr b.base b.order) h fun _ h' =>
      ∃ F' : FreeSet nr maxOrder, Rep nr ty h' F' ∧ F'.Coalesced ∧
        ∀ x, x ∈ F'.pages ↔ x ∈ b ∨ x ∈ F.pages := by
  unfold free_pages
  simp only [returns_bind, returns_assert]
  refine ⟨(aligned_iff ..).mpr hb.aligned, ?_⟩
  apply returns_mono (insert_block_spec R hb)
  rintro - h₁ ⟨-, -, R₁⟩
  apply returns_mono (TryMerge_spec R₁ (Or.inl rfl) (FreeSet.coalescedBut_add hF))
  rintro - h₂ ⟨F', R', hF', hp⟩
  exact ⟨F', R', hF', fun x => by rw [hp, FreeSet.pages_add]⟩

/-! ## Allocating -/

/-- `b` is the first block of its order. -/
def First (F : FreeSet nr maxOrder) (b : Block) : Prop :=
  b ∈ F ∧ ∀ c ∈ F, c.order = b.order → b.base ≤ c.base

theorem Rep.area_eq (R : Rep nr ty h F) {b : Block} (hb : First F b) :
    h.links.load (.area b.order) = some b.base := by
  obtain ⟨l, hl, hs, hm⟩ := R.list b.order
  have hbl := (hm b.base).mpr hb.1
  cases l with
  | nil => simp at hbl
  | cons x l =>
    have hx := hb.2 ⟨x, b.order⟩ ((hm x).mp (by simp)) rfl
    have : x = b.base := by
      rcases List.mem_cons.mp hbl with e | hbl
      · exact e.symm
      · have := (List.pairwise_cons.mp hs).1 _ hbl
        simp only at hx
        omega
    rw [← this]
    exact hl.1

theorem Rep.first_of_area (R : Rep nr ty h F) {k p : ℕ}
    (hp : h.links.load (.area k) = some p) : First F ⟨p, k⟩ := by
  obtain ⟨l, hl, hs, hm⟩ := R.list k
  have hhead : some p = l.head? := hp.symm.trans hl.1
  cases l with
  | nil => cases hhead
  | cons x l =>
    obtain rfl : p = x := by simpa using hhead
    refine ⟨(hm p).mp (by simp), fun c hc hck => ?_⟩
    have hcl : c.base ∈ p :: l := (hm c.base).mpr (by
      rwa [show (⟨c.base, k⟩ : Block) = c from Block.ext rfl hck.symm])
    rcases List.mem_cons.mp hcl with e | hcl
    · exact e.ge
    · exact ((List.pairwise_cons.mp hs).1 _ hcl).le

theorem Rep.no_block_of_area (R : Rep nr ty h F) {k : ℕ} (hp : h.links.load (.area k) = none) :
    ∀ c ∈ F, c.order ≠ k := by
  obtain ⟨l, hl, -, hm⟩ := R.list k
  have hhead : none = l.head? := hp.symm.trans hl.1
  rintro c hc rfl
  have := (hm c.base).mpr hc
  cases l with
  | nil => simp at this
  | cons x l => cases hhead

/-- Splitting all the way down leaves the left end of the block, in front of its list. -/
theorem SplitToLeft_spec (until_ order : ℕ) {b : Block} (hk : b.order = order) (hu : until_ ≤ order)
    (R : Rep nr ty h F) (hb : First F b) (hc : F.CoalescedBut b)
    (hgap : ∀ c ∈ F, until_ ≤ c.order → order ≤ c.order) :
    Returns (SplitToLeft nr until_ (some b.base) order) h fun _ h' =>
      ∃ F' : FreeSet nr maxOrder, Rep nr ty h' F' ∧ First F' ⟨b.base, until_⟩ ∧
        F'.CoalescedBut ⟨b.base, until_⟩ ∧ F'.pages = F.pages := by
  induction order generalizing b F h with
  | zero =>
    obtain rfl : until_ = 0 := by omega
    rw [SplitToLeft, returns_assert]
    have hb0 : b = ⟨b.base, 0⟩ := Block.ext rfl hk
    rw [hb0] at hb hc
    exact ⟨rfl, F, R, hb, hc, rfl⟩
  | succ order ih =>
    simp only [SplitToLeft, returns_bind, returns_assert, Option.isSome_some, true_and]
    by_cases hlt : order + 1 > until_
    · rw [if_pos hlt, returns_bind]
      have h0 : 0 < b.order := by omega
      have hbF := hb.1
      have hsplit := split_block_spec R hbF h0
      rw [hk] at hsplit
      apply returns_mono hsplit
      rintro - h₁ R₁
      have hone : ∀ c ∈ F.split b hbF h0, c.order = order → b.base ≤ c.base := by
        rintro c (rfl | rfl | ⟨hcF, -⟩) hck
        · have := Block.stop_left b
          have := b.left.base_lt_stop
          rw [Block.base_left] at this
          omega
        · exact le_rfl
        · have := hgap c hcF (by omega)
          omega
      have hgap' : ∀ c ∈ F.split b hbF h0, until_ ≤ c.order → order ≤ c.order := by
        rintro c (rfl | rfl | ⟨hcF, -⟩) hck
        · simp [hk]
        · simp [hk]
        · have := hgap c hcF hck
          omega
      have hbl : First (F.split b hbF h0) b.left := by
        refine ⟨Or.inr (Or.inl rfl), fun c hc hck => hone c hc ?_⟩
        rw [hck, Block.order_left]
        omega
      have := ih (b := b.left) (by rw [Block.order_left]; omega) (by omega) R₁ hbl
        (FreeSet.coalescedBut_split hbF h0 hc) hgap'
      rwa [FreeSet.pages_split] at this
    · obtain rfl : until_ = order + 1 := by omega
      rw [if_neg (by omega), returns_pure]
      have hb' : b = ⟨b.base, order + 1⟩ := Block.ext rfl hk
      rw [hb'] at hb hc
      exact ⟨F, R, hb, hc, rfl⟩

/-- What `alloc_pages` gives: no block is large enough, or the front of one of the smallest that
are. -/
def AllocPost (ty : ℕ → PageDescriptorType) (h : Mem) (F : FreeSet nr maxOrder) (order : ℕ)
    (r : Option ℕ) (h' : Mem) : Prop :=
  match r with
  | none => h' = h ∧ ∀ b ∈ F, b.order < order
  | some p => ∃ F' : FreeSet nr maxOrder, Rep nr ty h' F' ∧ F'.Coalesced ∧
      (∀ x, x ∈ F'.pages ↔ x ∈ F.pages ∧ x ∉ (⟨p, order⟩ : Block)) ∧
      (∀ x ∈ (⟨p, order⟩ : Block), x ∈ F.pages) ∧ (⟨p, order⟩ : Block).Aligned ∧
      order ≤ maxOrder ∧ (⟨p, order⟩ : Block).stop ≤ nr ∧
      ∃ b ∈ F, b.base = p ∧ order ≤ b.order ∧ ∀ c ∈ F, order ≤ c.order → b.order ≤ c.order

theorem alloc_from_spec (order n o : ℕ) (hn : o + n = MAX_ORDER) (ho : order ≤ o)
    (R : Rep nr ty h F) (hF : F.Coalesced) (hgap : ∀ c ∈ F, order ≤ c.order → o ≤ c.order) :
    Returns (alloc_from nr order (List.range' o n)) h (AllocPost ty h F order) := by
  induction n generalizing o with
  | zero =>
    simp only [List.range'_zero, alloc_from, returns_pure]
    refine ⟨rfl, fun b hb => ?_⟩
    have := F.order_le b hb
    have := maxOrder_lt
    have := hgap b hb
    omega
  | succ n ih =>
    simp only [List.range'_succ, alloc_from, returns_bind, returns_load, Mem.visit]
    cases harea : h.links.load (.area o) with
    | none =>
      simp only
      refine ih (o + 1) (by omega) (by omega) fun c hc hck => ?_
      have := hgap c hc hck
      have := R.no_block_of_area harea c hc
      omega
    | some ha =>
      simp only [returns_bind]
      have hb := R.first_of_area harea
      apply returns_mono (SplitToLeft_spec order o (b := ⟨ha, o⟩) rfl ho R hb (hF.but _) hgap)
      rintro - h₁ ⟨F₁, R₁, hb₁, hc₁, hp₁⟩
      have harea₁ : h₁.links.load (.area order) = some ha := R₁.area_eq hb₁
      simp only [returns_load, harea₁, returns_deref, Mem.visit]
      apply returns_mono (remove_block_spec (b := ⟨ha, order⟩) R₁ hb₁.1)
      rintro - h₂ R₂
      rw [returns_pure]
      refine ⟨_, R₂, FreeSet.coalesced_remove hc₁, fun x => ?_, fun x hx => ?_,
        F₁.aligned _ hb₁.1, F₁.order_le _ hb₁.1, F₁.inside _ hb₁.1, ⟨ha, o⟩, hb.1, rfl, ho, hgap⟩
      · rw [FreeSet.pages_remove hb₁.1, hp₁]
      · rw [← hp₁]
        exact ⟨_, hb₁.1, hx⟩

theorem alloc_pages_spec (order : ℕ) (R : Rep nr ty h F) (hF : F.Coalesced)
    (hk : order < 2 ^ 64) : Returns (alloc_pages nr order) h (AllocPost ty h F order) := by
  have ho : ((order : Int) % 2 ^ 64).toNat = order := by omega
  unfold alloc_pages
  simp only [ho]
  by_cases hmax : order ≤ MAX_ORDER
  · exact alloc_from_spec order _ order (by omega) le_rfl R hF fun c _ hc => hc
  · rw [Nat.sub_eq_zero_of_le (by omega), List.range'_zero, alloc_from, returns_pure]
    refine ⟨rfl, fun b hb => ?_⟩
    have := F.order_le b hb
    have := maxOrder_lt
    omega

/-- A negative order is converted to one above `maxOrder`. -/
theorem alloc_pages_neg (order : Int) (hlt : order < 0) (hle : -2 ^ 31 ≤ order) :
    alloc_pages nr order = pure none := by
  have : MAX_ORDER - (order % 2 ^ 64).toNat = 0 := by
    unfold MAX_ORDER
    omega
  unfold alloc_pages
  simp only [this, List.range'_zero, alloc_from]

/-! ## Reserving one page -/

theorem getSize_eq (i : ℕ) : GetSize i = 2 ^ i := Nat.one_shiftLeft i

/-- The scan over an order none of whose blocks holds the page only reads. -/
theorem reserve_scan_miss (pgd i rounds : ℕ) (a b : List ℕ) (R : Rep nr ty h F)
    (hl : HasList h.links i (a ++ b)) (hr : b.length < rounds)
    (hno : ∀ c ∈ F, c.order = i → pgd ∉ c) :
    Returns (reserve_scan nr pgd i rounds b.head?) h fun _ h' =>
      h'.links = h.links ∧ Rep nr ty h' F := by
  induction b generalizing rounds a h with
  | nil =>
    obtain ⟨rounds, rfl⟩ : ∃ r, rounds = r + 1 := ⟨rounds - 1, by grind⟩
    rw [List.head?_nil, reserve_scan, returns_pure]
    exact ⟨rfl, R⟩
  | cons x b ih =>
    obtain ⟨rounds, rfl⟩ : ∃ r, rounds = r + 1 := ⟨rounds - 1, by grind⟩
    have hl' : HasList h.links i ((a ++ [x]) ++ b) := by simpa using hl
    have hload : h.links.load (.node x) = b.head? := by simpa using load_slotAfter hl'
    have hin : SlotIn nr (.node x) := by simpa using R.slotIn hl'
    have hx := hno ⟨x, i⟩ (((R.of_hasList hl).2 x).mp (by simp)) rfl
    rw [Block.mem_iff] at hx
    simp only [List.head?_cons, reserve_scan]
    apply returns_ite
    · intro hge
      rw [if_neg (by rw [getSize_eq]; simp only [Block.stop] at hx; omega)]
      simp only [returns_bind, returns_load, hload]
      have := ih rounds (a ++ [x]) (R.visit hin) (by simpa using hl') (by simpa using hr)
      simpa using this
    · intro _
      rw [returns_pure]
      exact ⟨rfl, R⟩

/-- The scan over the order of the block that holds the page splits this block. -/
theorem reserve_scan_hit (pgd rounds : ℕ) {c : Block} (a b : List ℕ) (R : Rep nr ty h F)
    (hc : c ∈ F) (h0 : 0 < c.order) (hp : pgd ∈ c) (hl : HasList h.links c.order (a ++ b))
    (hr : b.length < rounds) (hcb : c.base ∈ b) :
    Returns (reserve_scan nr pgd c.order rounds b.head?) h fun _ h' =>
      Rep nr ty h' (F.split c hc h0) := by
  induction b generalizing rounds a h with
  | nil => simp at hcb
  | cons x b ih =>
    obtain ⟨rounds, rfl⟩ : ∃ r, rounds = r + 1 := ⟨rounds - 1, by grind⟩
    rw [Block.mem_iff] at hp
    simp only [List.head?_cons, reserve_scan]
    by_cases hx : x = c.base
    · subst hx
      rw [if_pos hp.1, if_pos (by rw [getSize_eq, Nat.add_comm]; exact hp.2)]
      rw [returns_bind]
      apply returns_mono (split_block_spec R hc h0)
      rintro - h₁ R₁
      rwa [returns_pure]
    · have hcb' : c.base ∈ b := by
        rcases List.mem_cons.mp hcb with e | hcb
        · exact absurd e.symm hx
        · exact hcb
      obtain ⟨hs, hm⟩ := R.of_hasList hl
      rw [List.pairwise_append, List.pairwise_cons] at hs
      have hlt : x < c.base := hs.2.1.1 _ hcb'
      have hxF : (⟨x, c.order⟩ : Block) ∈ F := (hm x).mp (by simp)
      have hap := F.apart _ hxF c hc fun e => hx (congrArg Block.base e)
      have hl' : HasList h.links c.order ((a ++ [x]) ++ b) := by simpa using hl
      have hload : h.links.load (.node x) = b.head? := by simpa using load_slotAfter hl'
      have hin : SlotIn nr (.node x) := by simpa using R.slotIn hl'
      have hstop : x + 2 ^ c.order ≤ c.base := by
        have := c.base_lt_stop
        simp only [Block.Apart, Block.stop] at *
        omega
      rw [if_pos (by omega), if_neg (by rw [getSize_eq]; omega)]
      simp only [returns_bind, returns_load, hload]
      exact ih rounds (a ++ [x]) (R.visit hin) (by simpa using hl') (by simpa using hr) hcb'

/-- From order `i` down, the block that holds the page is split until it is the page alone. -/
theorem reserve_orders_hit (pgd i : ℕ) {c : Block} (R : Rep nr ty h F) (hc : c ∈ F)
    (hp : pgd ∈ c) (hi : c.order ≤ i) (hbut : F.CoalescedBut c) :
    Returns (reserve_orders nr pgd i) h fun _ h' =>
      ∃ F' : FreeSet nr maxOrder, Rep nr ty h' F' ∧ ⟨pgd, 0⟩ ∈ F' ∧ F'.CoalescedBut ⟨pgd, 0⟩ ∧
        F'.pages = F.pages := by
  induction i generalizing c F h with
  | zero =>
    have hck : c.order = 0 := by omega
    have hcp : c = ⟨pgd, 0⟩ := by
      have h1 := hp.1
      have h2 := hp.2
      rw [Block.stop, hck] at h2
      exact Block.ext (by simp only; omega) hck
    subst hcp
    rw [reserve_orders, returns_pure]
    exact ⟨F, R, hc, hbut, rfl⟩
  | succ i ih =>
    obtain ⟨l, hl, -, hm⟩ := R.list (i + 1)
    have hlen := R.length_le hl
    have harea : h.links.load (.area (i + 1)) = l.head? := hl.1
    simp only [reserve_orders, returns_bind, returns_load, harea, Mem.visit]
    by_cases hci : c.order = i + 1
    · have h0 : 0 < c.order := by omega
      have hhit := reserve_scan_hit pgd (nr + 1) [] l R hc h0 hp (by rwa [hci]) (by omega)
        ((hm c.base).mpr (by rw [← hci]; exact hc))
      rw [hci] at hhit
      apply returns_mono hhit
      rintro - h₁ R₁
      have hpages := FreeSet.pages_split hc h0
      have hleft := FreeSet.coalescedBut_split hc h0 hbut
      rw [← hpages]
      -- The page is in one of the halves, and either of them names the only pair of buddies.
      rcases (Block.mem_halves h0 pgd).mp hp with hpl | hpr
      · exact ih R₁ (Or.inr (Or.inl rfl)) hpl (by rw [Block.order_left]; omega) hleft
      · have hright := hleft.of_buddy
        rw [Block.buddy_left (F.aligned c hc) h0] at hright
        exact ih R₁ (Or.inl rfl) hpr (by rw [Block.order_right]; omega) hright
    · have hno : ∀ d ∈ F, d.order = i + 1 → pgd ∉ d := by
        rintro d hd hdi hpd
        rw [FreeSet.eq_of_mem hd hc hpd hp] at hdi
        exact hci hdi
      apply returns_mono (reserve_scan_miss pgd (i + 1) (nr + 1) [] l R hl (by omega) hno)
      rintro - h₁ ⟨-, R₁⟩
      exact ih R₁ hc hp (by omega) hbut

theorem reserve_orders_miss (pgd i : ℕ) (R : Rep nr ty h F) (hp : pgd ∉ F.pages) :
    Returns (reserve_orders nr pgd i) h fun _ h' => h'.links = h.links ∧ Rep nr ty h' F := by
  induction i generalizing h with
  | zero =>
    rw [reserve_orders, returns_pure]
    exact ⟨rfl, R⟩
  | succ i ih =>
    obtain ⟨l, hl, -, hm⟩ := R.list (i + 1)
    have hlen := R.length_le hl
    have harea : h.links.load (.area (i + 1)) = l.head? := hl.1
    simp only [reserve_orders, returns_bind, returns_load, harea, Mem.visit]
    apply returns_mono (reserve_scan_miss pgd (i + 1) (nr + 1) [] l R hl (by omega)
      fun c hc _ hpc => hp ⟨c, hc, hpc⟩)
    rintro - h₁ ⟨hlinks, R₁⟩
    apply returns_mono (ih R₁)
    rintro - h₂ ⟨hlinks₂, R₂⟩
    exact ⟨hlinks₂.trans hlinks, R₂⟩

theorem reserve_find_spec (pgd rounds : ℕ) (a b : List ℕ) (R : Rep nr ty h F)
    (hl : HasList h.links 0 (a ++ b)) (hr : b.length < rounds) :
    Returns (reserve_find nr pgd rounds b.head?) h fun r h' =>
      if pgd ∈ b then r = true ∧ Rep nr ty h' (F.remove ⟨pgd, 0⟩)
      else r = false ∧ h'.links = h.links ∧ Rep nr ty h' F := by
  induction b generalizing rounds a h with
  | nil =>
    obtain ⟨rounds, rfl⟩ : ∃ r, rounds = r + 1 := ⟨rounds - 1, by grind⟩
    rw [List.head?_nil, reserve_find, returns_pure, if_neg (by simp)]
    exact ⟨rfl, rfl, R⟩
  | cons x b ih =>
    obtain ⟨rounds, rfl⟩ : ∃ r, rounds = r + 1 := ⟨rounds - 1, by grind⟩
    have hl' : HasList h.links 0 ((a ++ [x]) ++ b) := by simpa using hl
    have hload : h.links.load (.node x) = b.head? := by simpa using load_slotAfter hl'
    have hin : SlotIn nr (.node x) := by simpa using R.slotIn hl'
    have hxF : (⟨x, 0⟩ : Block) ∈ F := ((R.of_hasList hl).2 x).mp (by simp)
    simp only [List.head?_cons, reserve_find]
    by_cases hx : x = pgd
    · subst hx
      rw [if_pos rfl, returns_bind]
      apply returns_mono (remove_block_spec (b := ⟨x, 0⟩) R hxF)
      rintro - h₁ R₁
      rw [returns_pure, if_pos List.mem_cons_self]
      exact ⟨rfl, R₁⟩
    · rw [if_neg hx]
      simp only [returns_bind, returns_load, hload]
      have := ih rounds (a ++ [x]) (R.visit hin) (by simpa using hl') (by simpa using hr)
      simpa [Ne.symm hx] using this

/-- The last loop of `reserve_page` finds the page if it is a block of its own. -/
theorem reserve_single_spec (pgd : ℕ) (R : Rep nr ty h F) :
    Returns (do reserve_find nr pgd (nr + 1) (← load (.area 0))) h fun r h' =>
      ((⟨pgd, 0⟩ : Block) ∈ F → r = true ∧ Rep nr ty h' (F.remove ⟨pgd, 0⟩)) ∧
      ((⟨pgd, 0⟩ : Block) ∉ F → r = false ∧ h'.links = h.links ∧ Rep nr ty h' F) := by
  obtain ⟨l, hl, -, hm⟩ := R.list 0
  have hlen := R.length_le hl
  have harea : h.links.load (.area 0) = l.head? := hl.1
  simp only [returns_bind, returns_load, harea, Mem.visit]
  apply returns_mono (reserve_find_spec pgd (nr + 1) [] l R hl (by omega))
  rintro r h' hr
  rw [← hm]
  constructor
  · intro hF
    rwa [if_pos hF] at hr
  · intro hF
    rwa [if_neg hF] at hr

/-- What `reserve_page` gives: the page taken out, or nothing changed. -/
def ReservePost (ty : ℕ → PageDescriptorType) (h : Mem) (F : FreeSet nr maxOrder) (pgd : ℕ)
    (r : Bool) (h' : Mem) : Prop :=
  match r with
  | true => pgd ∈ F.pages ∧ ∃ F' : FreeSet nr maxOrder, Rep nr ty h' F' ∧ F'.Coalesced ∧
      ∀ x, x ∈ F'.pages ↔ x ∈ F.pages ∧ x ≠ pgd
  | false => pgd ∉ F.pages ∧ h'.links = h.links ∧ Rep nr ty h' F

theorem reserve_page_spec (pgd : ℕ) (R : Rep nr ty h F) (hF : F.Coalesced) :
    Returns (reserve_page nr pgd) h (ReservePost ty h F pgd) := by
  unfold reserve_page
  rw [returns_bind]
  by_cases hp : pgd ∈ F.pages
  · obtain ⟨c, hc, hpc⟩ := hp
    apply returns_mono (reserve_orders_hit pgd maxOrder R hc hpc (F.order_le c hc) (hF.but c))
    rintro - h₁ ⟨F₁, R₁, hF₁, hbut, hpages⟩
    apply returns_mono (reserve_single_spec pgd R₁)
    rintro r h₂ ⟨hr, -⟩
    obtain ⟨rfl, R₂⟩ := hr hF₁
    refine ⟨⟨c, hc, hpc⟩, _, R₂, FreeSet.coalesced_remove hbut, fun x => ?_⟩
    rw [FreeSet.pages_remove hF₁, hpages]
    simp only [Block.mem_iff, Block.stop, pow_zero]
    have : x ≠ pgd ↔ ¬ (pgd ≤ x ∧ x < pgd + 1) := by omega
    rw [this]
  · apply returns_mono (reserve_orders_miss pgd maxOrder R hp)
    rintro - h₁ ⟨hlinks, R₁⟩
    apply returns_mono (reserve_single_spec pgd R₁)
    rintro r h₂ ⟨-, hr⟩
    obtain ⟨rfl, hlinks₂, R₂⟩ := hr fun hF => hp ⟨_, hF, Block.base_mem ⟨pgd, 0⟩⟩
    exact ⟨hp, hlinks₂.trans hlinks, R₂⟩

/-! ## Initialising -/

/-- The memory a new allocator starts from: cleared areas and zeroed descriptors. -/
structure Zeroed (nr : ℕ) (h : Mem) : Prop where
  areas : ∀ k, h.free_areas k = none
  next : ∀ i < nr, (h.pgd i).next_free = none
  touched : ∀ i ∈ h.touched, i < nr

theorem rep_zeroed (hz : Zeroed nr h) :
    Rep nr (fun i => (h.pgd i).type) h (FreeSet.empty : FreeSet nr maxOrder) where
  list k := ⟨[], ⟨hz.areas k, trivial⟩, List.Pairwise.nil, by simp⟩
  null i hi _ := hz.next i hi
  types _ := rfl
  bounded i hi := Or.inl (hz.touched i hi)

theorem write_eq_self {v : Option ℕ} {slot : Slot ℕ ℕ} (hv : h.links.load slot = v) :
    h.write v slot = h := by
  subst hv
  cases slot with
  | area k => simp [Mem.write, Mem.links, Links.load]
  | node p => simp [Mem.write, Mem.links, Links.load]

/-- Below the largest order there is at most one block of each order. -/
def OneEach (F : FreeSet nr maxOrder) : Prop :=
  ∀ b ∈ F, ∀ c ∈ F, b.order = c.order → b.order < maxOrder → b = c

theorem OneEach.coalesced (hF : OneEach F) : F.Coalesced := fun b hb hk hbud =>
  FreeSet.buddy_ne (F.aligned b hb) (hF _ hbud b hb (Block.order_buddy b) (by simpa using hk))

/-- The first `page` pages have been carved into blocks of at least this order. -/
structure Carved (F : FreeSet nr maxOrder) (order page : ℕ) : Prop where
  pages : ∀ x, x ∈ F.pages ↔ x < page
  dvd : 2 ^ order ∣ page
  order_le : ∀ c ∈ F, order ≤ c.order
  oneEach : OneEach F

theorem Carved.mono {order order' page : ℕ} (hC : Carved F order page) (hle : order' ≤ order) :
    Carved F order' page :=
  ⟨hC.pages, (pow_dvd_pow 2 hle).trans hC.dvd, fun c hc => hle.trans (hC.order_le c hc), hC.oneEach⟩

theorem Carved.stop_le {order page : ℕ} (hC : Carved F order page) {c : Block} (hc : c ∈ F) :
    c.stop ≤ page := by
  have hlt := c.base_lt_stop
  have := (hC.pages (c.stop - 1)).mp ⟨c, hc, by omega, by omega⟩
  omega

theorem Carved.fits {order page : ℕ} (hC : Carved F order page) (hk : order ≤ maxOrder)
    (hi : page + 2 ^ order ≤ nr) : F.Fits ⟨page, order⟩ where
  order_le := hk
  aligned := hC.dvd
  inside := hi
  apart _ ha := Or.inl (hC.stop_le ha)

theorem Carved.add {order page : ℕ} (hC : Carved F order page) (hb : F.Fits ⟨page, order⟩)
    (hone : order < maxOrder → ∀ c ∈ F, c.order ≠ order) :
    Carved (F.add ⟨page, order⟩ hb) order (page + 2 ^ order) where
  pages x := by
    have := Nat.two_pow_pos order
    rw [FreeSet.pages_add, hC.pages, Block.mem_iff]
    simp only [Block.stop]
    omega
  dvd := dvd_add hC.dvd (dvd_refl _)
  order_le := by
    rintro c (rfl | hc)
    · exact le_rfl
    · exact hC.order_le c hc
  oneEach := by
    rintro b (rfl | hb') c (rfl | hc) hbc hk
    · rfl
    · exact absurd hbc.symm (hone hk c hc)
    · exact absurd hbc (hone (lt_of_eq_of_lt hbc.symm hk) b hb')
    · exact hC.oneEach b hb' c hc hbc hk

theorem getLast_of_max {l : List ℕ} {p : ℕ} (hs : l.Pairwise (· < ·)) (hp : p ∈ l)
    (hmax : ∀ x ∈ l, x ≤ p) : l.getLast? = some p := by
  rcases List.eq_nil_or_concat' l with rfl | ⟨a, y, rfl⟩
  · simp at hp
  · have hy := hmax y (by simp)
    rw [List.pairwise_append] at hs
    rcases List.mem_append.mp hp with hpa | hpy
    · have := hs.2.2 p hpa y (by simp)
      omega
    · rw [List.mem_singleton] at hpy
      rw [hpy, List.getLast?_concat]

/-- Appending the next block to its list. Its own pointer is not written, it is still zero. -/
theorem Rep.append_block {order page : ℕ} {l : List ℕ} (R : Rep nr ty h F)
    (hC : Carved F order page) (hb : F.Fits ⟨page, order⟩) (hl : HasList h.links order l) :
    Rep nr ty (h.write (some page) (slotAfter order l)) (F.add ⟨page, order⟩ hb) ∧
      ∃ l', HasList (h.write (some page) (slotAfter order l)).links order l' ∧
        l'.getLast? = some page := by
  obtain ⟨hs, hm⟩ := R.of_hasList hl
  have hlt : ∀ x ∈ l, x < page := by
    intro x hx
    have := hC.stop_le ((hm x).mp hx)
    have := Block.base_lt_stop ⟨x, order⟩
    simp only at this
    omega
  have hnone : h.links.load (.node page) = none := by
    refine R.null page (lt_of_lt_of_le (Block.base_lt_stop ⟨page, order⟩) hb.inside) fun k hk => ?_
    have := hC.stop_le hk
    have := Block.base_lt_stop ⟨page, k⟩
    simp only at this
    omega
  have R' := R.link_in hb (a := l) (c := []) (by simpa using hl) hlt (by simp)
  rw [List.head?_nil, write_eq_self hnone] at R'
  refine ⟨R', ?_⟩
  obtain ⟨l', hl', hs', hm'⟩ := R'.list order
  refine ⟨l', hl', getLast_of_max hs' ((hm' page).mpr (Or.inl rfl)) fun x hx => ?_⟩
  rcases (hm' x).mp hx with e | hxF
  · exact (congrArg Block.base e).le
  · exact (hlt x ((hm x).mpr hxF)).le

theorem init_order_spec (order rounds page pageLeft : ℕ) (l : List ℕ) (R : Rep nr ty h F)
    (hC : Carved F order page) (hl : HasList h.links order l) (hr : pageLeft < rounds)
    (hsum : page + pageLeft = nr) (hk : order ≤ maxOrder)
    (hone : order < maxOrder → pageLeft < 2 ^ order ∨
      pageLeft < 2 * 2 ^ order ∧ ∀ c ∈ F, c.order ≠ order) :
    Returns (init_order order (2 ^ order) rounds page pageLeft l.getLast?) h fun r h' =>
      ∃ F' : FreeSet nr maxOrder, Rep nr ty h' F' ∧ Carved F' order r.1 ∧
        (∃ l', HasList h'.links order l' ∧ r.2.2 = l'.getLast?) ∧ r.1 + r.2.1 = nr ∧
        r.2.1 < 2 ^ order := by
  induction rounds generalizing page pageLeft l F h with
  | zero => omega
  | succ rounds ih =>
    have hpos := Nat.two_pow_pos order
    rw [init_order]
    by_cases hge : pageLeft ≥ 2 ^ order
    · rw [if_pos hge]
      have hone' : order < maxOrder → ∀ c ∈ F, c.order ≠ order := by
        intro hlt
        rcases hone hlt with h1 | h1
        · omega
        · exact h1.2
      have hb := hC.fits hk (by omega)
      have hslot : SlotIn nr (slotAfter order l) := R.slotIn (b := []) (by simpa using hl)
      obtain ⟨R', l', hl', hlast⟩ := R.append_block hC hb hl
      have hrec := ih (page + 2 ^ order) (pageLeft - 2 ^ order) l' (R'.visit hslot)
        (hC.add hb hone') (by simpa using hl') (by omega) (by omega) (fun hlt => by
          rcases hone hlt with h1 | h1 <;> omega)
      rw [hlast] at hrec
      rcases List.eq_nil_or_concat' l with rfl | ⟨a, x, rfl⟩
      · rw [List.getLast?_nil]
        simpa only [returns_bind, returns_store, slotAfter_nil] using hrec
      · rw [List.getLast?_concat]
        simpa only [returns_bind, returns_store, slotAfter_concat] using hrec
    · rw [if_neg hge, returns_pure]
      exact ⟨F, R, hC, ⟨l, hl, rfl⟩, hsum, Nat.lt_of_not_le hge⟩

theorem init_level_spec (order page pageLeft : ℕ) (R : Rep nr ty h F)
    (hC : Carved F (order + 1) page) (hsum : page + pageLeft = nr) (hk : order ≤ maxOrder)
    (hroom : order < maxOrder → pageLeft < 2 ^ (order + 1)) :
    Returns (init_level nr order (2 ^ order) page pageLeft) h fun r h' =>
      ∃ F' : FreeSet nr maxOrder, Rep nr ty h' F' ∧ Carved F' order r.1 ∧ r.1 + r.2 = nr ∧
        r.2 < 2 ^ order := by
  obtain ⟨l, hl, -, hm⟩ := R.list order
  -- No block of this order is there yet.
  have hempty : l = [] := by
    refine List.eq_nil_iff_forall_not_mem.mpr fun x hx => ?_
    have := hC.order_le _ ((hm x).mp hx)
    simp only at this
    omega
  subst hempty
  have hone : order < maxOrder → pageLeft < 2 ^ order ∨
      pageLeft < 2 * 2 ^ order ∧ ∀ c ∈ F, c.order ≠ order := by
    intro hlt
    refine Or.inr ⟨?_, fun c hc => ?_⟩
    · have := hroom hlt
      rw [pow_succ] at this
      omega
    · have := hC.order_le c hc
      omega
  unfold init_level
  rw [returns_bind]
  apply returns_mono (init_order_spec order (nr + 1) page pageLeft [] R (hC.mono (by omega)) hl
    (by omega) hsum hk hone)
  rintro ⟨page', pageLeft', last⟩ h₁ ⟨F', R', hC', ⟨l', hl', rfl⟩, hsum', hlt⟩
  rcases List.eq_nil_or_concat' l' with rfl | ⟨a, x, rfl⟩
  · simp only [List.getLast?_nil, returns_pure]
    exact ⟨F', R', hC', hsum', hlt⟩
  · simp only [List.getLast?_concat, returns_bind, returns_store, returns_pure]
    have hnone : h₁.links.load (.node x) = none := next_of_append (b := []) (by simpa using hl')
    have hin : SlotIn nr (.node x) := Or.inl (R'.lt_of_mem hl' (by simp))
    rw [write_eq_self hnone]
    exact ⟨F', R'.visit hin, hC', hsum', hlt⟩

theorem init_orders_spec (order page pageLeft : ℕ) (R : Rep nr ty h F)
    (hC : Carved F (order + 1) page) (hsum : page + pageLeft = nr) (hk : order ≤ maxOrder)
    (hroom : order < maxOrder → pageLeft < 2 ^ (order + 1)) :
    Returns (init_orders nr order (2 ^ order) page pageLeft) h fun _ h' =>
      ∃ F' : FreeSet nr maxOrder, Rep nr ty h' F' ∧ Carved F' 0 nr := by
  induction order generalizing page pageLeft F h with
  | zero =>
    rw [init_orders]
    apply returns_ite
    · intro h0
      rw [returns_pure]
      obtain rfl : page = nr := by omega
      exact ⟨F, R, hC.mono (by omega)⟩
    · intro _
      rw [returns_bind]
      apply returns_mono (init_level_spec 0 page pageLeft R hC hsum hk hroom)
      rintro ⟨page', pageLeft'⟩ h₁ ⟨F', R', hC', hsum', hlt⟩
      obtain rfl : pageLeft' = 0 := by simpa using hlt
      obtain rfl : page' = nr := by simpa using hsum'
      simp only [if_true, returns_pure]
      exact ⟨F', R', hC'⟩
  | succ order ih =>
    rw [init_orders]
    apply returns_ite
    · intro h0
      rw [returns_pure]
      obtain rfl : page = nr := by omega
      exact ⟨F, R, hC.mono (by omega)⟩
    · intro _
      rw [returns_bind]
      apply returns_mono (init_level_spec (order + 1) page pageLeft R hC hsum hk hroom)
      rintro ⟨page', pageLeft'⟩ h₁ ⟨F', R', hC', hsum', hlt⟩
      have hhalf : 2 ^ (order + 1) >>> 1 = 2 ^ order := by
        rw [Nat.shiftRight_one, pow_succ]
        omega
      simp only [hhalf]
      exact ih page' pageLeft' R' hC' hsum' (by omega) fun _ => hlt

theorem init_spec (hz : Zeroed nr h) :
    Returns (init nr) h fun r h' => r = true ∧ ∃ F : FreeSet nr maxOrder,
      Rep nr (fun i => (h.pgd i).type) h' F ∧ OneEach F ∧ ∀ x, x ∈ F.pages ↔ x < nr := by
  have hC : Carved (FreeSet.empty : FreeSet nr maxOrder) (maxOrder + 1) 0 := by
    refine ⟨fun x => ?_, dvd_zero _, fun c hc => ?_, fun b hb => ?_⟩
    · simp [FreeSet.mem_pages]
    · exact absurd hc (FreeSet.not_mem_empty c)
    · exact absurd hb (FreeSet.not_mem_empty b)
  unfold init
  rw [returns_bind, Nat.one_shiftLeft]
  apply returns_mono (init_orders_spec maxOrder 0 nr (rep_zeroed hz) hC (Nat.zero_add nr) le_rfl
    fun hlt => absurd hlt (lt_irrefl _))
  rintro - h₁ ⟨F, R, hC'⟩
  rw [returns_pure]
  exact ⟨rfl, F, R, hC'.oneEach, hC'.pages⟩

end Infos.Buddy
