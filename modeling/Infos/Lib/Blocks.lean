import Mathlib.Algebra.Order.Ring.Nat
import Mathlib.Algebra.Ring.Divisibility.Basic
import Mathlib.Algebra.Ring.Parity
import Mathlib.Data.Set.Basic
import Mathlib.Tactic.Common
import Mathlib.Tactic.Linarith
import Mathlib.Tactic.Ring

/-!
# Aligned blocks of pages, and free sets of them

A block of order `k` is a run of `2 ^ k` pages that starts at a multiple of `2 ^ k`. Two such
blocks are nested or apart. A `FreeSet` is a set of blocks, apart from each other, below a
largest order. Once no two buddies are left in it, it is determined by the pages it covers.
-/

namespace Infos.Blocks

@[ext]
structure Block where
  base : ℕ
  order : ℕ
  deriving DecidableEq, Repr

namespace Block

/-- The first page after the block. -/
def stop (b : Block) : ℕ := b.base + 2 ^ b.order

def Aligned (b : Block) : Prop := 2 ^ b.order ∣ b.base

def Apart (a b : Block) : Prop := a.stop ≤ b.base ∨ b.stop ≤ a.base

instance : Membership ℕ Block := ⟨fun b x => b.base ≤ x ∧ x < b.stop⟩

instance (b : Block) : Decidable b.Aligned := inferInstanceAs (Decidable (2 ^ b.order ∣ b.base))

instance (a b : Block) : Decidable (a.Apart b) :=
  inferInstanceAs (Decidable (a.stop ≤ b.base ∨ b.stop ≤ a.base))

theorem mem_iff (b : Block) (x : ℕ) : x ∈ b ↔ b.base ≤ x ∧ x < b.stop := Iff.rfl

theorem base_lt_stop (b : Block) : b.base < b.stop :=
  Nat.lt_add_of_pos_right (Nat.two_pow_pos _)

theorem base_mem (b : Block) : b.base ∈ b := ⟨le_refl _, b.base_lt_stop⟩

theorem Apart.symm {a b : Block} (h : a.Apart b) : b.Apart a := Or.symm h

theorem Apart.not_mem {a b : Block} (h : a.Apart b) {x : ℕ} (ha : x ∈ a) : x ∉ b := by
  rw [mem_iff] at *
  unfold Apart at h
  omega

theorem apart_of_disjoint {a b : Block} (h : ∀ x ∈ a, x ∉ b) : a.Apart b := by
  have ha := h a.base a.base_mem
  have hb := mt (h b.base) (not_not.mpr b.base_mem)
  have := a.base_lt_stop
  have := b.base_lt_stop
  rw [mem_iff] at *
  unfold Apart
  omega

/-! ## Alignment -/

/-- Between two multiples of `d` there is room for `d`. -/
theorem add_le_of_dvd {d p e : ℕ} (hp : d ∣ p) (he : d ∣ e) (h : p < e) : p + d ≤ e := by
  obtain ⟨a, rfl⟩ := hp
  obtain ⟨b, rfl⟩ := he
  have hab : a + 1 ≤ b := lt_of_mul_lt_mul_left h (Nat.zero_le d)
  calc d * a + d = d * (a + 1) := by ring
    _ ≤ d * b := Nat.mul_le_mul_left d hab

theorem Aligned.dvd_base {b : Block} (h : b.Aligned) {k : ℕ} (hk : k ≤ b.order) : 2 ^ k ∣ b.base :=
  (pow_dvd_pow 2 hk).trans h

theorem Aligned.dvd_stop {b : Block} (h : b.Aligned) {k : ℕ} (hk : k ≤ b.order) : 2 ^ k ∣ b.stop :=
  dvd_add (h.dvd_base hk) (pow_dvd_pow 2 hk)

/-- Two aligned blocks that meet are nested, the one of the smaller order inside. -/
theorem nested {a b : Block} (ha : a.Aligned) (hb : b.Aligned) (hk : a.order ≤ b.order)
    (h : ¬ a.Apart b) : b.base ≤ a.base ∧ a.stop ≤ b.stop := by
  simp only [Apart, not_or, not_le] at h
  have hstop : a.base + 2 ^ a.order ≤ b.stop := add_le_of_dvd ha (hb.dvd_stop hk) h.2
  have hbase : b.base + 2 ^ a.order ≤ a.stop :=
    add_le_of_dvd (hb.dvd_base hk) (ha.dvd_stop le_rfl) h.1
  simp only [stop] at *
  omega

theorem eq_of_nested {a b : Block} (ha : a.Aligned) (hb : b.Aligned) (hk : a.order = b.order)
    (h : ¬ a.Apart b) : a = b := by
  have h1 := nested ha hb hk.le h
  have h2 := nested hb ha hk.ge (mt Apart.symm h)
  exact Block.ext (le_antisymm h2.1 h1.1) hk

/-! ## Halves, buddies and parents -/

def left (b : Block) : Block := ⟨b.base, b.order - 1⟩

def right (b : Block) : Block := ⟨b.base + 2 ^ (b.order - 1), b.order - 1⟩

/-- The block that makes up a block of the next order together with `b`. -/
def buddy (b : Block) : Block :=
  if 2 ^ (b.order + 1) ∣ b.base then ⟨b.base + 2 ^ b.order, b.order⟩
  else ⟨b.base - 2 ^ b.order, b.order⟩

def parent (b : Block) : Block :=
  if 2 ^ (b.order + 1) ∣ b.base then ⟨b.base, b.order + 1⟩
  else ⟨b.base - 2 ^ b.order, b.order + 1⟩

@[simp]
theorem order_left (b : Block) : b.left.order = b.order - 1 := rfl

@[simp]
theorem order_right (b : Block) : b.right.order = b.order - 1 := rfl

@[simp]
theorem order_buddy (b : Block) : b.buddy.order = b.order := by
  unfold buddy; split <;> rfl

@[simp]
theorem order_parent (b : Block) : b.parent.order = b.order + 1 := by
  unfold parent; split <;> rfl

@[simp]
theorem base_left (b : Block) : b.left.base = b.base := rfl

theorem stop_left (b : Block) : b.left.stop = b.right.base := rfl

theorem stop_right {b : Block} (h : 0 < b.order) : b.right.stop = b.stop := by
  obtain ⟨k, hk⟩ : ∃ k, b.order = k + 1 := ⟨b.order - 1, by omega⟩
  simp only [stop, right, hk, Nat.add_sub_cancel, pow_succ]
  omega

theorem aligned_left {b : Block} (h : b.Aligned) : b.left.Aligned := h.dvd_base (Nat.sub_le ..)

theorem aligned_right {b : Block} (h : b.Aligned) : b.right.Aligned :=
  dvd_add (h.dvd_base (Nat.sub_le ..)) (dvd_refl _)

theorem mem_halves {b : Block} (h : 0 < b.order) (x : ℕ) : x ∈ b ↔ x ∈ b.left ∨ x ∈ b.right := by
  have := stop_left b
  have := stop_right h
  have := b.left.base_lt_stop
  have := b.right.base_lt_stop
  simp only [mem_iff, base_left] at *
  omega

theorem left_apart_right (b : Block) : b.left.Apart b.right := Or.inl (stop_left b).le

theorem dvd_left {b : Block} (h : b.Aligned) (h0 : 0 < b.order) :
    2 ^ (b.left.order + 1) ∣ b.left.base := by
  rw [order_left, Nat.sub_add_cancel h0]
  exact h

theorem buddy_left {b : Block} (h : b.Aligned) (h0 : 0 < b.order) : b.left.buddy = b.right := by
  unfold buddy
  rw [if_pos (dvd_left h h0)]
  rfl

theorem not_dvd_right {b : Block} (h : b.Aligned) (h0 : 0 < b.order) :
    ¬ 2 ^ (b.right.order + 1) ∣ b.right.base := by
  have h' : 2 ^ (b.order - 1 + 1) ∣ b.base := dvd_left h h0
  simp only [right]
  rw [Nat.dvd_add_right h', Nat.pow_dvd_pow_iff_le_right (by omega)]
  omega

theorem buddy_right {b : Block} (h : b.Aligned) (h0 : 0 < b.order) : b.right.buddy = b.left := by
  unfold buddy
  rw [if_neg (not_dvd_right h h0)]
  simp [right, left]

theorem aligned_parent {b : Block} (h : b.Aligned) : b.parent.Aligned := by
  unfold parent
  split
  · assumption
  · rename_i hn
    obtain ⟨m, hm⟩ := h
    obtain ⟨j, rfl | rfl⟩ := Nat.even_or_odd' m
    · exact absurd ⟨j, by rw [hm, pow_succ]; ring⟩ hn
    · refine ⟨j, ?_⟩
      simp only [hm, pow_succ]
      rw [show 2 ^ b.order * (2 * j + 1) = 2 ^ b.order * 2 * j + 2 ^ b.order by ring]
      omega

/-- A block and its buddy are the two halves of the parent. -/
theorem halves_of_parent {b : Block} (h : b.Aligned) :
    (2 ^ (b.order + 1) ∣ b.base ∧ b = b.parent.left ∧ b.buddy = b.parent.right) ∨
      (¬ 2 ^ (b.order + 1) ∣ b.base ∧ b = b.parent.right ∧ b.buddy = b.parent.left) := by
  unfold buddy parent
  split
  · left
    refine ⟨‹_›, rfl, rfl⟩
  · right
    rename_i hn
    have hpos : 2 ^ b.order ≤ b.base := by
      refine Nat.le_of_dvd (Nat.pos_of_ne_zero ?_) h
      intro h0
      exact hn (h0 ▸ dvd_zero _)
    refine ⟨hn, ?_, rfl⟩
    ext
    · simp only [right, Nat.add_sub_cancel]
      omega
    · rfl

theorem buddy_buddy {b : Block} (h : b.Aligned) : b.buddy.buddy = b := by
  have hp := aligned_parent h
  have h0 : 0 < b.parent.order := by simp
  rcases halves_of_parent h with ⟨-, e, e'⟩ | ⟨-, e, e'⟩
  · rw [e', buddy_right hp h0, ← e]
  · rw [e', buddy_left hp h0, ← e]

theorem apart_buddy {b : Block} (h : b.Aligned) : b.Apart b.buddy := by
  have hp := left_apart_right b.parent
  rcases halves_of_parent h with ⟨-, e, e'⟩ | ⟨-, e, e'⟩
  · rwa [← e, ← e'] at hp
  · rw [← e, ← e'] at hp
    exact hp.symm

theorem mem_parent {b : Block} (h : b.Aligned) (x : ℕ) : x ∈ b.parent ↔ x ∈ b ∨ x ∈ b.buddy := by
  rw [mem_halves (by simp)]
  rcases halves_of_parent h with ⟨-, e, e'⟩ | ⟨-, e, e'⟩
  · rw [← e, ← e']
  · rw [← e, ← e', or_comm]

end Block

/-! ## Free sets -/

/-- Blocks of at most order `K` below page `nr`, no two of which share a page. -/
structure FreeSet (nr K : ℕ) where
  blocks : Set Block
  order_le : ∀ b ∈ blocks, b.order ≤ K
  aligned : ∀ b ∈ blocks, b.Aligned
  inside : ∀ b ∈ blocks, b.stop ≤ nr
  apart : ∀ a ∈ blocks, ∀ b ∈ blocks, a ≠ b → a.Apart b

namespace FreeSet

variable {nr K : ℕ}

instance : Membership Block (FreeSet nr K) := ⟨fun F b => b ∈ F.blocks⟩

theorem ext_mem {F G : FreeSet nr K} (h : ∀ b, b ∈ F ↔ b ∈ G) : F = G := by
  have : F.blocks = G.blocks := Set.ext h
  cases F
  cases G
  simpa using this

/-- The pages that the blocks cover. -/
def pages (F : FreeSet nr K) : Set ℕ := {x | ∃ b ∈ F, x ∈ b}

theorem mem_pages (F : FreeSet nr K) (x : ℕ) : x ∈ F.pages ↔ ∃ b ∈ F, x ∈ b := Iff.rfl

theorem eq_of_mem {F : FreeSet nr K} {a b : Block} (ha : a ∈ F) (hb : b ∈ F) {x : ℕ}
    (hxa : x ∈ a) (hxb : x ∈ b) : a = b := by
  by_contra hne
  exact (F.apart a ha b hb hne).not_mem hxa hxb

def empty : FreeSet nr K := ⟨∅, by simp, by simp, by simp, by simp⟩

@[simp]
theorem not_mem_empty (b : Block) : b ∉ (empty : FreeSet nr K) := id

/-- What a block needs to be added. -/
structure Fits (F : FreeSet nr K) (b : Block) : Prop where
  order_le : b.order ≤ K
  aligned : b.Aligned
  inside : b.stop ≤ nr
  apart : ∀ a ∈ F, a.Apart b

theorem Fits.not_mem {F : FreeSet nr K} {b : Block} (h : F.Fits b) : b ∉ F := fun hb =>
  (h.apart b hb).not_mem b.base_mem b.base_mem

def add (F : FreeSet nr K) (b : Block) (h : F.Fits b) : FreeSet nr K where
  blocks := {a | a = b ∨ a ∈ F}
  order_le := by
    rintro a (rfl | ha)
    · exact h.order_le
    · exact F.order_le a ha
  aligned := by
    rintro a (rfl | ha)
    · exact h.aligned
    · exact F.aligned a ha
  inside := by
    rintro a (rfl | ha)
    · exact h.inside
    · exact F.inside a ha
  apart := by
    rintro a (rfl | ha) c (rfl | hc) hne
    · exact absurd rfl hne
    · exact (h.apart c hc).symm
    · exact h.apart a ha
    · exact F.apart a ha c hc hne

@[simp]
theorem mem_add {F : FreeSet nr K} {a b : Block} {h : F.Fits b} : a ∈ F.add b h ↔ a = b ∨ a ∈ F :=
  Iff.rfl

theorem pages_add {F : FreeSet nr K} {b : Block} {h : F.Fits b} {x : ℕ} :
    x ∈ (F.add b h).pages ↔ x ∈ b ∨ x ∈ F.pages := by
  simp [mem_pages]

def remove (F : FreeSet nr K) (b : Block) : FreeSet nr K where
  blocks := {a | a ∈ F ∧ a ≠ b}
  order_le a ha := F.order_le a ha.1
  aligned a ha := F.aligned a ha.1
  inside a ha := F.inside a ha.1
  apart a ha c hc := F.apart a ha.1 c hc.1

@[simp]
theorem mem_remove {F : FreeSet nr K} {a b : Block} : a ∈ F.remove b ↔ a ∈ F ∧ a ≠ b := Iff.rfl

theorem pages_remove {F : FreeSet nr K} {b : Block} (hb : b ∈ F) {x : ℕ} :
    x ∈ (F.remove b).pages ↔ x ∈ F.pages ∧ x ∉ b := by
  constructor
  · rintro ⟨a, ⟨ha, hne⟩, hx⟩
    exact ⟨⟨a, ha, hx⟩, (F.apart a ha b hb hne).not_mem hx⟩
  · rintro ⟨⟨a, ha, hx⟩, hxb⟩
    refine ⟨a, ⟨ha, ?_⟩, hx⟩
    rintro rfl
    exact hxb hx

/-! ## Splitting and merging -/

/-- The left half fits where the whole block was. -/
theorem fits_left {F : FreeSet nr K} {b : Block} (hb : b ∈ F) (h0 : 0 < b.order) :
    (F.remove b).Fits b.left where
  order_le := (Nat.sub_le ..).trans (F.order_le b hb)
  aligned := Block.aligned_left (F.aligned b hb)
  inside := by
    have := b.right.base_lt_stop
    have := F.inside b hb
    rw [Block.stop_right h0] at *
    rw [Block.stop_left]
    omega
  apart a ha := Block.apart_of_disjoint fun x hx hl =>
    (F.apart a ha.1 b hb ha.2).not_mem hx ((Block.mem_halves h0 x).mpr (Or.inl hl))

/-- And the right half beside it. -/
theorem fits_right {F : FreeSet nr K} {b : Block} (hb : b ∈ F) (h0 : 0 < b.order) :
    ((F.remove b).add b.left (fits_left hb h0)).Fits b.right where
  order_le := (Nat.sub_le ..).trans (F.order_le b hb)
  aligned := Block.aligned_right (F.aligned b hb)
  inside := (Block.stop_right h0).le.trans (F.inside b hb)
  apart := by
    rintro a (rfl | ha)
    · exact Block.left_apart_right b
    · exact Block.apart_of_disjoint fun x hx hr =>
        (F.apart a ha.1 b hb ha.2).not_mem hx ((Block.mem_halves h0 x).mpr (Or.inr hr))

def split (F : FreeSet nr K) (b : Block) (hb : b ∈ F) (h0 : 0 < b.order) : FreeSet nr K :=
  ((F.remove b).add b.left (fits_left hb h0)).add b.right (fits_right hb h0)

@[simp]
theorem mem_split {F : FreeSet nr K} {a b : Block} {hb : b ∈ F} {h0 : 0 < b.order} :
    a ∈ F.split b hb h0 ↔ a = b.right ∨ a = b.left ∨ a ∈ F ∧ a ≠ b := Iff.rfl

theorem pages_split {F : FreeSet nr K} {b : Block} (hb : b ∈ F) (h0 : 0 < b.order) :
    (F.split b hb h0).pages = F.pages := by
  ext x
  rw [split, pages_add, pages_add, pages_remove hb, ← or_assoc, or_comm (a := x ∈ b.right),
    ← Block.mem_halves h0]
  have : x ∈ b → x ∈ F.pages := fun hx => ⟨b, hb, hx⟩
  tauto

/-- The parent fits where a block and its buddy were. -/
theorem fits_parent {F : FreeSet nr K} {b : Block} (hb : b ∈ F) (hbud : b.buddy ∈ F)
    (hk : b.order < K) : ((F.remove b).remove b.buddy).Fits b.parent where
  order_le := by
    rw [Block.order_parent]
    exact hk
  aligned := Block.aligned_parent (F.aligned b hb)
  inside := by
    rcases Block.halves_of_parent (F.aligned b hb) with ⟨-, e, e'⟩ | ⟨-, e, e'⟩
    all_goals rw [← Block.stop_right (by simp)]
    · exact e' ▸ F.inside _ hbud
    · exact e ▸ F.inside _ hb
  apart a ha := Block.apart_of_disjoint fun x hx hp => by
    rcases (Block.mem_parent (F.aligned b hb) x).mp hp with h | h
    · exact (F.apart a ha.1.1 b hb ha.1.2).not_mem hx h
    · exact (F.apart a ha.1.1 _ hbud ha.2).not_mem hx h

def merge (F : FreeSet nr K) (b : Block) (hb : b ∈ F) (hbud : b.buddy ∈ F) (hk : b.order < K) :
    FreeSet nr K :=
  ((F.remove b).remove b.buddy).add b.parent (fits_parent hb hbud hk)

@[simp]
theorem mem_merge {F : FreeSet nr K} {a b : Block} {hb : b ∈ F} {hbud : b.buddy ∈ F}
    {hk : b.order < K} :
    a ∈ F.merge b hb hbud hk ↔ a = b.parent ∨ (a ∈ F ∧ a ≠ b) ∧ a ≠ b.buddy := Iff.rfl

theorem buddy_ne {b : Block} (h : b.Aligned) : b.buddy ≠ b := by
  intro e
  have hb := (Block.apart_buddy h).not_mem b.base_mem
  rw [e] at hb
  exact hb b.base_mem

theorem pages_merge {F : FreeSet nr K} {b : Block} (hb : b ∈ F) (hbud : b.buddy ∈ F)
    (hk : b.order < K) : (F.merge b hb hbud hk).pages = F.pages := by
  have hbud' : b.buddy ∈ F.remove b := ⟨hbud, buddy_ne (F.aligned b hb)⟩
  ext x
  rw [merge, pages_add, pages_remove hbud', pages_remove hb, Block.mem_parent (F.aligned b hb)]
  have : x ∈ b → x ∈ F.pages := fun hx => ⟨b, hb, hx⟩
  have : x ∈ b.buddy → x ∈ F.pages := fun hx => ⟨_, hbud, hx⟩
  tauto

/-! ## No two buddies -/

/-- No block below the largest order is free together with its buddy. -/
def Coalesced (F : FreeSet nr K) : Prop := ∀ b ∈ F, b.order < K → b.buddy ∉ F

/-- The only free buddies are `c` and its own buddy. -/
def CoalescedBut (F : FreeSet nr K) (c : Block) : Prop :=
  ∀ b ∈ F, b.order < K → b.buddy ∈ F → b = c ∨ b.buddy = c

theorem Coalesced.but {F : FreeSet nr K} (h : F.Coalesced) (c : Block) : F.CoalescedBut c :=
  fun b hb hk hbud => absurd hbud (h b hb hk)

theorem CoalescedBut.coalesced {F : FreeSet nr K} {c : Block} (hc : c.Aligned)
    (h : F.CoalescedBut c) (hno : c.order < K → c ∈ F → c.buddy ∉ F) : F.Coalesced := by
  intro b hb hk hbud
  rcases h b hb hk hbud with rfl | rfl
  · exact hno hk hb hbud
  · rw [Block.order_buddy] at hno
    rw [Block.buddy_buddy (F.aligned b hb)] at hno
    exact hno hk hbud hb

theorem CoalescedBut.of_buddy {F : FreeSet nr K} {c : Block} (h : F.CoalescedBut c) :
    F.CoalescedBut c.buddy := by
  intro b hb hk hbud
  rcases h b hb hk hbud with rfl | rfl
  · exact Or.inr rfl
  · exact Or.inl (Block.buddy_buddy (F.aligned b hb)).symm

theorem coalescedBut_add {F : FreeSet nr K} {b : Block} {hb : F.Fits b} (h : F.Coalesced) :
    (F.add b hb).CoalescedBut b := by
  rintro a (rfl | ha) hk hbud
  · exact Or.inl rfl
  · rcases hbud with e | hbud
    · exact Or.inr e
    · exact absurd hbud (h a ha hk)

theorem coalesced_remove {F : FreeSet nr K} {b : Block} (h : F.CoalescedBut b) :
    (F.remove b).Coalesced := by
  rintro a ⟨ha, hne⟩ hk ⟨hbud, hne'⟩
  rcases h a ha hk hbud with e | e
  · exact hne e
  · exact hne' e

/-- Splitting the one block that may have a free buddy leaves its two halves as the only pair. -/
theorem coalescedBut_split {F : FreeSet nr K} {b : Block} (hb : b ∈ F) (h0 : 0 < b.order)
    (h : F.CoalescedBut b) : (F.split b hb h0).CoalescedBut b.left := by
  have hal := F.aligned b hb
  have hl := Block.buddy_left hal h0
  have hr := Block.buddy_right hal h0
  rintro a (rfl | rfl | ⟨ha, hne⟩) hk hbud
  · exact Or.inr hr
  · exact Or.inl rfl
  · rcases hbud with e | e | ⟨hbud, hne'⟩
    · left
      rw [← Block.buddy_buddy (F.aligned a ha), e, hr]
    · exact Or.inr e
    · rcases h a ha hk hbud with e | e
      · exact absurd e hne
      · exact absurd e hne'

theorem coalescedBut_merge {F : FreeSet nr K} {b : Block} {hb : b ∈ F} {hbud : b.buddy ∈ F}
    {hk : b.order < K} (h : F.CoalescedBut b) : (F.merge b hb hbud hk).CoalescedBut b.parent := by
  rintro a (rfl | ⟨⟨ha, hne⟩, hne'⟩) hka hba
  · exact Or.inl rfl
  · rcases hba with e | ⟨⟨hba, hneb⟩, -⟩
    · exact Or.inr e
    · rcases h a ha hka hba with e | e
      · exact absurd e hne
      · exact absurd e hneb

/-- In a coalesced free set an aligned run of free pages lies in one free block. -/
theorem Coalesced.covers {F : FreeSet nr K} (h : F.Coalesced) (B : Block) (ha : B.Aligned)
    (hk : B.order ≤ K) (hB : ∀ x ∈ B, x ∈ F.pages) :
    ∃ c ∈ F, B.order ≤ c.order ∧ c.base ≤ B.base ∧ B.stop ≤ c.stop := by
  obtain ⟨p, k⟩ := B
  induction k generalizing p with
  | zero =>
    obtain ⟨c, hc, hx⟩ := hB p (Block.base_mem ⟨p, 0⟩)
    exact ⟨c, hc, Nat.zero_le _, hx.1, hx.2⟩
  | succ k ih =>
    set B : Block := ⟨p, k + 1⟩ with hBdef
    have h0 : 0 < B.order := Nat.succ_pos k
    have hkK : k + 1 ≤ K := hk
    obtain ⟨c, hc, hck, hcl⟩ := ih B.left.base (Block.aligned_left ha) (Nat.le_of_succ_le hkK)
      fun x hx => hB x ((Block.mem_halves h0 x).mpr (Or.inl hx))
    obtain ⟨d, hd, hdk, hdr⟩ := ih B.right.base (Block.aligned_right ha) (Nat.le_of_succ_le hkK)
      fun x hx => hB x ((Block.mem_halves h0 x).mpr (Or.inr hx))
    simp only at hck hdk
    have hcB : ¬ B.Apart c := fun hap => hap.not_mem B.base_mem
      ⟨hcl.1, lt_of_lt_of_le (Block.base_lt_stop B.left) hcl.2⟩
    have hdB : ¬ B.Apart d := fun hap => hap.not_mem
      ((Block.mem_halves h0 _).mpr (Or.inr B.right.base_mem))
      ⟨hdr.1, lt_of_lt_of_le (Block.base_lt_stop B.right) hdr.2⟩
    by_cases hc' : k + 1 ≤ c.order
    · exact ⟨c, hc, hc', Block.nested ha (F.aligned c hc) hc' hcB⟩
    by_cases hd' : k + 1 ≤ d.order
    · exact ⟨d, hd, hd', Block.nested ha (F.aligned d hd) hd' hdB⟩
    -- Both halves are free blocks, so they are free buddies.
    have hcl' : c = B.left := (Block.eq_of_nested (Block.aligned_left ha) (F.aligned c hc)
      (by simp [hBdef]; omega) fun hap => hap.not_mem B.left.base_mem
        ⟨hcl.1, lt_of_lt_of_le (Block.base_lt_stop B.left) hcl.2⟩).symm
    have hdr' : d = B.right := (Block.eq_of_nested (Block.aligned_right ha) (F.aligned d hd)
      (by simp [hBdef]; omega) fun hap => hap.not_mem B.right.base_mem
        ⟨hdr.1, lt_of_lt_of_le (Block.base_lt_stop B.right) hdr.2⟩).symm
    refine absurd ?_ (h c hc (by omega))
    rw [hcl', Block.buddy_left ha h0, ← hdr']
    exact hd

theorem mem_of_pages_subset {F G : FreeSet nr K} (hF : F.Coalesced) (hG : G.Coalesced)
    (h : F.pages = G.pages) {b : Block} (hb : b ∈ F) : b ∈ G := by
  obtain ⟨c, hc, hbc, hbc'⟩ := hG.covers b (F.aligned b hb) (F.order_le b hb)
    fun x hx => h ▸ ⟨b, hb, hx⟩
  obtain ⟨d, hd, hcd, hcd'⟩ := hF.covers c (G.aligned c hc) (G.order_le c hc)
    fun x hx => h ▸ ⟨c, hc, hx⟩
  have hbd : b = d := eq_of_mem hb hd b.base_mem
    ⟨by omega, by have := b.base_lt_stop; omega⟩
  subst hbd
  have hcb : c = b := by
    ext
    · omega
    · omega
  exact hcb ▸ hc

/-- Coalesced free sets of the same pages are the same set of blocks. -/
theorem eq_of_pages {F G : FreeSet nr K} (hF : F.Coalesced) (hG : G.Coalesced)
    (h : F.pages = G.pages) : F = G :=
  ext_mem fun _ => ⟨mem_of_pages_subset hF hG h, mem_of_pages_subset hG hF h.symm⟩

end FreeSet

end Infos.Blocks
