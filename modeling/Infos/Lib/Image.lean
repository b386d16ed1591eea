import Mathlib.Order.Basic
import Mathlib.Tactic.Common

/-!
# Images of memory

What is found at each address, and how far the pages from a page on lie one after another in the
memory behind them. An image is built from blocks of pages and from copies.
-/

namespace Infos.Images

variable {β : Type}

/-- `row p` is the number of pages from `p` on that lie in a row, or zero where there is none. -/
structure Image (β : Type) where
  byte : ℕ → Option β
  row : ℕ → ℕ

namespace Image

variable (m : Image β)

def empty : Image β := ⟨fun _ => none, fun _ => 0⟩

/-- With the `n` pages from `p` on, which take the place of what was there. -/
def block (z : β) (p n : ℕ) : Image β where
  byte a := if p ≤ a / 4096 ∧ a / 4096 < p + n then some z else m.byte a
  row q := if p ≤ q then if q < p + n then p + n - q else m.row q else min (m.row q) (p - q)

/-- With `n` bytes from `a` on. -/
def copy (a n : ℕ) (src : ℕ → β) : Image β :=
  { m with byte := fun b => if a ≤ b ∧ b < a + n then some (src (b - a)) else m.byte b }

/-- The `n` bytes from `a` on, where there are any, are in pages in a row. -/
def Fits (a n : ℕ) : Prop := n = 0 ∨ a % 4096 + n ≤ 4096 * m.row (a / 4096)

/-- Where pages are in a row, there is something at each address. -/
structure Solid (m : Image β) : Prop where
  found : ∀ a, m.row (a / 4096) ≠ 0 → (m.byte a).isSome
  next : ∀ p, m.row p ≤ m.row (p + 1) + 1

theorem solid_empty : Solid (empty : Image β) where
  found _ h := absurd rfl h
  next _ := Nat.zero_le _

variable {m}

theorem Solid.block (h : m.Solid) (z : β) (p n : ℕ) : (m.block z p n).Solid where
  found a hrow := by
    unfold Image.block at hrow ⊢
    dsimp only at hrow ⊢
    split
    · rfl
    · apply h.found
      split_ifs at hrow <;> omega
  next q := by
    have hnext := h.next q
    unfold Image.block
    dsimp only
    split_ifs <;> omega

theorem Solid.row_add (h : m.Solid) (p k : ℕ) : m.row p ≤ m.row (p + k) + k := by
  induction k with
  | zero => simp
  | succ k ih =>
    have hnext := h.next (p + k)
    show m.row p ≤ m.row (p + k + 1) + (k + 1)
    omega

instance (a n : ℕ) : Decidable (m.Fits a n) := inferInstanceAs (Decidable (_ ∨ _))

/-- There is something at each address of a range that fits. -/
theorem Solid.found_of_fits (h : m.Solid) {a n b : ℕ} (hfits : m.Fits a n) (hle : a ≤ b)
    (hlt : b < a + n) : (m.byte b).isSome := by
  apply h.found
  unfold Fits at hfits
  have hrow := h.row_add (a / 4096) (b / 4096 - a / 4096)
  rw [show a / 4096 + (b / 4096 - a / 4096) = b / 4096 by omega] at hrow
  omega

theorem copy_zero (a : ℕ) (src : ℕ → β) : m.copy a 0 src = m := by
  unfold Image.copy
  congr
  funext b
  exact if_neg (by omega)

theorem Solid.copy (h : m.Solid) (a n : ℕ) (src : ℕ → β) : (m.copy a n src).Solid where
  found b hrow := by
    unfold Image.copy at hrow ⊢
    dsimp only at hrow ⊢
    split
    · rfl
    · exact h.found b hrow
  next := h.next

end Image

/-! ## Segments -/

/-- The first `filled` of `size` bytes from `base` on are those of `data`, and the rest are blank.
The segment brings its own pages if it is `fresh`, and else where nothing is at the base. -/
structure Segment (β : Type) where
  base : ℕ
  size : ℕ
  filled : ℕ
  pages : ℕ
  data : ℕ → β
  fresh : Bool

namespace Segment

variable (g d : Segment β)

def Within (a : ℕ) : Prop := g.base ≤ a ∧ a < g.base + g.size

/-- The page is one of those that `g` brings, where it brings any. -/
def Block (p : ℕ) : Prop := g.base / 4096 ≤ p ∧ p < g.base / 4096 + g.pages

def Apart : Prop := ∀ a, g.Within a → ¬ d.Within a

/-- No page of the block of `g` has a byte of `d`. -/
def BlockApart : Prop := ∀ a, d.Within a → ¬ g.Block (a / 4096)

variable {g d}

theorem apart_iff : g.Apart d ↔
    g.size = 0 ∨ d.size = 0 ∨ g.base + g.size ≤ d.base ∨ d.base + d.size ≤ g.base := by
  unfold Apart Within
  constructor
  · intro h
    have hlow := h g.base
    have hhigh := h d.base
    omega
  · intro h a
    omega

theorem blockApart_iff : g.BlockApart d ↔ d.size = 0 ∨ g.pages = 0 ∨
    d.base + d.size ≤ 4096 * (g.base / 4096) ∨ 4096 * (g.base / 4096 + g.pages) ≤ d.base := by
  unfold BlockApart Within Block
  constructor
  · intro h
    have hlow := h d.base
    have hhigh := h (4096 * (g.base / 4096))
    omega
  · intro h a
    omega

instance (p : ℕ) : Decidable (g.Block p) := inferInstanceAs (Decidable (_ ∧ _))

instance : Decidable (g.Apart d) := decidable_of_iff _ apart_iff.symm

instance : Decidable (g.BlockApart d) := decidable_of_iff _ blockApart_iff.symm

end Segment

namespace Image

variable {m : Image β} {z : β} {g d : Segment β} {done gs : List (Segment β)}

def Brings (m : Image β) (g : Segment β) : Prop := g.fresh ∨ m.row (g.base / 4096) = 0

instance : Decidable (m.Brings g) := inferInstanceAs (Decidable (_ ∨ _))

/-- With the pages of a segment, where it brings any. -/
def room (m : Image β) (z : β) (g : Segment β) : Image β :=
  if m.Brings g then m.block z (g.base / 4096) g.pages else m

def add (z : β) (m : Image β) (g : Segment β) : Image β :=
  (m.room z g).copy g.base g.filled g.data

/-- A segment that fits its room, and leaves those before it as they are. -/
structure Placed (m : Image β) (z : β) (done : List (Segment β)) (g : Segment β) : Prop where
  filled : g.filled ≤ g.size
  fits : (m.room z g).Fits g.base g.size
  apart : ∀ d ∈ done, g.Apart d
  block : m.Brings g → ∀ d ∈ done, g.BlockApart d

theorem placed_iff : m.Placed z done g ↔ g.filled ≤ g.size ∧ (m.room z g).Fits g.base g.size ∧
    (∀ d ∈ done, g.Apart d) ∧ (m.Brings g → ∀ d ∈ done, g.BlockApart d) :=
  ⟨fun h => ⟨h.filled, h.fits, h.apart, h.block⟩, fun h => ⟨h.1, h.2.1, h.2.2.1, h.2.2.2⟩⟩

instance : Decidable (m.Placed z done g) := decidable_of_iff _ placed_iff.symm

def LaidOut (z : β) : (m : Image β) → (done gs : List (Segment β)) → Prop
  | _, _, [] => True
  | m, done, g :: gs => m.Placed z done g ∧ LaidOut z (m.add z g) (done ++ [g]) gs

instance decidableLaidOut (z : β) : (m : Image β) → (done gs : List (Segment β)) →
    Decidable (LaidOut z m done gs)
  | _, _, [] => .isTrue trivial
  | m, done, g :: gs =>
    have := decidableLaidOut z (m.add z g) (done ++ [g]) gs
    inferInstanceAs (Decidable (_ ∧ _))

/-- The image of the segments: each has its bytes, and all other bytes that are found are blank. -/
structure Shows (m : Image β) (z : β) (done : List (Segment β)) : Prop where
  solid : m.Solid
  segments : ∀ g ∈ done, ∀ i < g.size,
    m.byte (g.base + i) = some (if i < g.filled then g.data i else z)
  blank : ∀ a b, m.byte a = some b → (∀ g ∈ done, ¬ g.Within a) → b = z

theorem shows_empty : (empty : Image β).Shows z [] where
  solid := solid_empty
  segments := by simp
  blank _ _ h := by cases h

theorem Shows.room (h : m.Shows z done) (hg : m.Placed z done g) : (m.room z g).Shows z done := by
  unfold Image.room
  split
  next hbrings =>
    refine ⟨h.solid.block z _ _, fun d hd i hi => ?_, fun a b hb hout => ?_⟩
    · have hwithin : d.Within (d.base + i) := ⟨by omega, by omega⟩
      rw [← h.segments d hd i hi]
      exact if_neg (hg.block hbrings d hd _ hwithin)
    · unfold Image.block at hb
      dsimp only at hb
      split at hb
      · exact (Option.some.inj hb).symm
      · exact h.blank a b hb hout
  next => exact h

theorem Shows.add (h : m.Shows z done) (hg : m.Placed z done g) :
    (m.add z g).Shows z (done ++ [g]) := by
  have hroom := h.room hg
  have hfilled := hg.filled
  refine ⟨hroom.solid.copy _ _ _, fun d hd i hi => ?_, fun a b hb hout => ?_⟩
  · have hwithin : d.Within (d.base + i) := ⟨by omega, by omega⟩
    unfold Image.add copy
    dsimp only
    rw [List.mem_append, List.mem_singleton] at hd
    rcases hd with hd | rfl
    · rw [if_neg fun hin => hg.apart d hd _ ⟨hin.1, by omega⟩ hwithin]
      exact hroom.segments d hd i hi
    · by_cases hlt : i < d.filled
      · rw [if_pos (by omega), if_pos hlt, Nat.add_sub_cancel_left]
      · rw [if_neg (by omega), if_neg hlt]
        -- The byte was blank before, since no segment before had it.
        have hsome := hroom.solid.found_of_fits hg.fits (b := d.base + i) (by omega) (by omega)
        obtain ⟨b, hb⟩ := Option.isSome_iff_exists.mp hsome
        rw [hb, hroom.blank _ b hb]
        exact fun e he hin => hg.apart e he _ hwithin hin
  · have hnot := hout g (List.mem_append_right _ (List.mem_singleton_self g))
    unfold Segment.Within at hnot
    unfold Image.add copy at hb
    dsimp only at hb
    rw [if_neg (by omega)] at hb
    exact hroom.blank a b hb fun d hd => hout d (List.mem_append_left _ hd)

/-- Segments that are laid out are found as they are described. -/
theorem Shows.all (h : m.Shows z done) (hgs : LaidOut z m done gs) :
    (gs.foldl (Image.add z) m).Shows z (done ++ gs) := by
  induction gs generalizing m done with
  | nil =>
    rw [List.append_nil]
    exact h
  | cons g gs ih =>
    obtain ⟨hg, hrest⟩ := hgs
    have hall := ih (h.add hg) hrest
    rwa [List.append_assoc] at hall

/-! ## Segments that need not be laid out -/

/-- The copies of the segments fit the rows they go to, and their blocks end at the page `limit`. -/
def Fitting (z : β) (limit : ℕ) : (m : Image β) → (gs : List (Segment β)) → Prop
  | _, [] => True
  | m, g :: gs => (m.Brings g → g.base / 4096 + g.pages ≤ limit) ∧
      (m.room z g).Fits g.base g.filled ∧ Fitting z limit (m.add z g) gs

instance decidableFitting (z : β) (limit : ℕ) : (m : Image β) → (gs : List (Segment β)) →
    Decidable (Fitting z limit m gs)
  | _, [] => .isTrue trivial
  | m, g :: gs =>
    have := decidableFitting z limit (m.add z g) gs
    inferInstanceAs (Decidable (_ ∧ _ ∧ _))

variable {limit p : ℕ}

/-- One of the segments brings a block that has the page `p`. -/
def Covered (z : β) (p : ℕ) : (m : Image β) → (gs : List (Segment β)) → Prop
  | _, [] => False
  | m, g :: gs => (m.Brings g ∧ g.Block p) ∨ Covered z p (m.add z g) gs

instance decidableCovered (z : β) (p : ℕ) : (m : Image β) → (gs : List (Segment β)) →
    Decidable (Covered z p m gs)
  | _, [] => .isFalse id
  | m, g :: gs =>
    have := decidableCovered z p (m.add z g) gs
    inferInstanceAs (Decidable (_ ∨ _))

theorem covered_cons : Covered z p m (g :: gs) ↔
    (m.Brings g ∧ g.Block p) ∨ Covered z p (m.add z g) gs := Iff.rfl

theorem byte_add {a : ℕ} (hout : ¬ (g.base ≤ a ∧ a < g.base + g.filled)) : (m.add z g).byte a =
    if m.Brings g ∧ g.Block (a / 4096) then some z else m.byte a := by
  unfold add copy
  dsimp only
  rw [if_neg hout]
  unfold room
  by_cases hbrings : m.Brings g
  · rw [if_pos hbrings]
    simp [hbrings, block, Segment.Block]
  · rw [if_neg hbrings, if_neg fun h => hbrings h.1]

/-- Where no copy goes to, there is what was there before the last block. -/
theorem byte_all {a : ℕ} (hout : ∀ g ∈ gs, ¬ (g.base ≤ a ∧ a < g.base + g.filled)) :
    (gs.foldl (add z) m).byte a =
      if Covered z (a / 4096) m gs then some z else m.byte a := by
  induction gs generalizing m with
  | nil => exact (if_neg id).symm
  | cons g gs ih =>
    rw [List.foldl_cons, ih fun d hd => hout d (List.mem_cons_of_mem _ hd),
      byte_add (hout g List.mem_cons_self)]
    by_cases hrest : Covered z (a / 4096) (m.add z g) gs
    · rw [if_pos hrest, if_pos (covered_cons.mpr (.inr hrest))]
    · rw [if_neg hrest]
      apply if_congr _ rfl rfl
      rw [covered_cons, or_iff_left hrest]

/-- Blocks have every page that has a blank byte of a segment, and none that takes the place of
another byte of one before. -/
structure Kept (z : β) (gs : List (Segment β)) : Prop where
  covered : ∀ g ∈ gs, ∀ i, g.filled ≤ i → i < g.size → Covered z ((g.base + i) / 4096) .empty gs
  spared : ∀ done g rest, gs = done ++ g :: rest → ∀ i < g.filled,
    Covered z ((g.base + i) / 4096) ((done ++ [g]).foldl (add z) .empty) rest → g.data i = z

section Apart

variable {rest : List (Segment β)} {i : ℕ}

/-- No copy of another segment goes to a byte of a segment. -/
theorem not_filled (hfilled : ∀ d ∈ done ++ g :: rest, d.filled ≤ d.size)
    (hapart : (done ++ g :: rest).Pairwise Segment.Apart) (hi : i < g.size) :
    ∀ d, d ∈ done ∨ d ∈ rest → ¬ (d.base ≤ g.base + i ∧ g.base + i < d.base + d.filled) := by
  obtain ⟨-, hrest, hdone⟩ := List.pairwise_append.mp hapart
  have hwithin : g.Within (g.base + i) := ⟨by omega, by omega⟩
  rintro d (hd | hd) ⟨hle, hlt⟩
  · have hsize := hfilled d (List.mem_append_left _ hd)
    exact hdone d hd g List.mem_cons_self _ ⟨hle, by omega⟩ hwithin
  · have hsize := hfilled d (List.mem_append_right _ (List.mem_cons_of_mem _ hd))
    exact (List.pairwise_cons.mp hrest).1 d hd _ hwithin ⟨hle, by omega⟩

theorem byte_blank (hfilled : ∀ d ∈ done ++ g :: rest, d.filled ≤ d.size)
    (hapart : (done ++ g :: rest).Pairwise Segment.Apart) (hlow : g.filled ≤ i) (hi : i < g.size) :
    ((done ++ g :: rest).foldl (add z) .empty).byte (g.base + i) =
      if Covered z ((g.base + i) / 4096) .empty (done ++ g :: rest) then some z else none := by
  have hothers := not_filled hfilled hapart hi
  apply byte_all
  intro d hd
  rcases List.mem_append.mp hd with hd | hd
  · exact hothers d (.inl hd)
  · rcases List.mem_cons.mp hd with rfl | hd
    · omega
    · exact hothers d (.inr hd)

theorem byte_filled (hfilled : ∀ d ∈ done ++ g :: rest, d.filled ≤ d.size)
    (hapart : (done ++ g :: rest).Pairwise Segment.Apart) (hi : i < g.filled) :
    ((done ++ g :: rest).foldl (add z) .empty).byte (g.base + i) =
      if Covered z ((g.base + i) / 4096) ((done ++ [g]).foldl (add z) .empty) rest then some z
      else some (g.data i) := by
  have hsize := hfilled g (List.mem_append_right _ List.mem_cons_self)
  have hothers := not_filled hfilled hapart (i := i) (by omega)
  have hcopied : ((done ++ [g]).foldl (add z) .empty).byte (g.base + i) = some (g.data i) := by
    rw [List.foldl_append, List.foldl_cons, List.foldl_nil]
    unfold add copy
    dsimp only
    rw [if_pos (by omega), Nat.add_sub_cancel_left]
  rw [← hcopied, ← byte_all fun d hd => hothers d (.inr hd), ← List.foldl_append,
    List.append_assoc, List.singleton_append]

end Apart

/-- Segments that are apart are found as they are described exactly if the blocks keep them. -/
theorem kept_iff (hfilled : ∀ g ∈ gs, g.filled ≤ g.size) (hapart : gs.Pairwise Segment.Apart) :
    (∀ g ∈ gs, ∀ i < g.size, (gs.foldl (add z) .empty).byte (g.base + i) =
      some (if i < g.filled then g.data i else z)) ↔ Kept z gs := by
  constructor
  · intro h
    refine ⟨fun g hg i hlow hi => ?_, ?_⟩
    · obtain ⟨done, rest, rfl⟩ := List.append_of_mem hg
      have hbyte := h g hg i hi
      rw [byte_blank hfilled hapart hlow hi] at hbyte
      by_contra hnot
      rw [if_neg hnot] at hbyte
      cases hbyte
    · rintro done g rest rfl i hi hcovered
      have hg : g ∈ done ++ g :: rest := List.mem_append_right _ List.mem_cons_self
      have hbyte := h g hg i (by have := hfilled g hg; omega)
      rw [byte_filled hfilled hapart hi, if_pos hcovered, if_pos hi] at hbyte
      exact (Option.some.inj hbyte).symm
  · rintro ⟨hcovered, hspared⟩ g hg i hi
    obtain ⟨done, rest, rfl⟩ := List.append_of_mem hg
    by_cases hlt : i < g.filled
    · rw [byte_filled hfilled hapart hlt, if_pos hlt]
      split_ifs with hlater
      · rw [hspared done g rest rfl i hlt hlater]
      · rfl
    · rw [byte_blank hfilled hapart (by omega) hi, if_neg hlt]
      exact if_pos (hcovered g hg i (by omega) hi)

end Image

end Infos.Images
