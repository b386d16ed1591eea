import Mathlib.Algebra.Order.Ring.Nat
import Mathlib.Data.List.Nodup
import Mathlib.Tactic.Common
import Mathlib.Tactic.Ring

/-!
# Red-black trees

A tree with a hole is a path from the hole up to the root. An insertion puts a red node into the
hole of the tree, and `rebalance` goes up the path from there.
-/

namespace Infos.RedBlack

inductive Colour where
  | RED
  | BLACK
  deriving DecidableEq, Repr

inductive Dir where
  | left
  | right
  deriving DecidableEq, Repr

def Dir.opposite : Dir → Dir
  | left => right
  | right => left

@[simp] theorem Dir.opposite_opposite (d : Dir) : d.opposite.opposite = d := by cases d <;> rfl

theorem Dir.eq_opposite {d e : Dir} (h : e ≠ d) : e = d.opposite := by
  cases d <;> cases e <;> first | rfl | exact absurd rfl h

inductive RBTree (α : Type) where
  | leaf
  | node (c : Colour) (l : RBTree α) (x : α) (r : RBTree α)
  deriving DecidableEq, Repr

/-- A node above the hole, which is in its subtree on the side `dir`. -/
structure Step (α : Type) where
  dir : Dir
  colour : Colour
  elem : α
  sibling : RBTree α

variable {α : Type}

namespace RBTree

/-- The node with `t` on the side `d` and `s` on the other. -/
def join (d : Dir) (c : Colour) (t : RBTree α) (x : α) (s : RBTree α) : RBTree α :=
  match d with
  | .left => node c t x s
  | .right => node c s x t

def toList : RBTree α → List α
  | leaf => []
  | node _ l x r => l.toList ++ x :: r.toList

def size : RBTree α → ℕ
  | leaf => 0
  | node _ l _ r => l.size + r.size + 1

def height : RBTree α → ℕ
  | leaf => 0
  | node _ l _ r => max l.height r.height + 1

def colour : RBTree α → Colour
  | leaf => .BLACK
  | node c _ _ _ => c

def root : RBTree α → Option α
  | leaf => none
  | node _ _ x _ => some x

def blacken : RBTree α → RBTree α
  | leaf => leaf
  | node _ l x r => node .BLACK l x r

/-- No red node has a red child. -/
def NoRedRed : RBTree α → Prop
  | leaf => True
  | node c l _ r => (c = .RED → l.colour = .BLACK ∧ r.colour = .BLACK) ∧ l.NoRedRed ∧ r.NoRedRed

/-- Each way from the root down to a leaf passes `n` black nodes. -/
def BlackHeight : ℕ → RBTree α → Prop
  | n, leaf => n = 0
  | n, node .RED l _ r => l.BlackHeight n ∧ r.BlackHeight n
  | n, node .BLACK l _ r => ∃ k, n = k + 1 ∧ l.BlackHeight k ∧ r.BlackHeight k

/-- The tree with `t` in its hole. -/
def fill (t : RBTree α) : List (Step α) → RBTree α
  | [] => t
  | s :: p => fill (join s.dir s.colour t s.elem s.sibling) p

/-- The elements that come before those of the hole. -/
def before : List (Step α) → List α
  | [] => []
  | s :: p => match s.dir with
    | .left => before p
    | .right => before p ++ s.sibling.toList ++ [s.elem]

def after : List (Step α) → List α
  | [] => []
  | s :: p => match s.dir with
    | .left => s.elem :: s.sibling.toList ++ after p
    | .right => after p

/-- The subtree on a side of the root. -/
def child (d : Dir) : RBTree α → RBTree α
  | leaf => leaf
  | node _ l _ r => match d with
    | .left => l
    | .right => r

variable {t l r s : RBTree α} {c : Colour} {d : Dir} {x : α} {p : List (Step α)} {n : ℕ}

@[simp] theorem colour_join : (join d c t x s).colour = c := by cases d <;> rfl

@[simp] theorem root_join : (join d c t x s).root = some x := by cases d <;> rfl

@[simp] theorem size_toList (t : RBTree α) : t.toList.length = t.size := by
  induction t with
  | leaf => rfl
  | node c l x r hl hr =>
    simp only [toList, size, List.length_append, List.length_cons, hl, hr]
    omega

theorem length_le_size_fill (p : List (Step α)) (t : RBTree α) :
    p.length + t.size ≤ (fill t p).size := by
  induction p generalizing t with
  | nil => simp [fill]
  | cons s p ih =>
    have := ih (join s.dir s.colour t s.elem s.sibling)
    have hs : t.size + 1 ≤ (join s.dir s.colour t s.elem s.sibling).size := by
      cases s.dir <;> simp [join, size]
    simp only [List.length_cons, fill]
    omega

theorem height_le_size (t : RBTree α) : t.height ≤ t.size := by
  induction t with
  | leaf => exact le_rfl
  | node c l x r hl hr =>
    simp only [height, size]
    omega

theorem toList_fill (p : List (Step α)) (t : RBTree α) :
    (fill t p).toList = before p ++ t.toList ++ after p := by
  induction p generalizing t with
  | nil => simp [fill, before, after]
  | cons s p ih =>
    obtain ⟨d, c, x, sib⟩ := s
    rw [fill, ih]
    cases d <;> simp [join, toList, before, after]

/-- What is in the tree depends on the elements of the subtree in the hole only. -/
theorem toList_fill_congr (h : t.toList = s.toList) : (fill t p).toList = (fill s p).toList := by
  rw [toList_fill, toList_fill, h]

/-- A node is what its sides make it. -/
theorem join_child (d : Dir) : join d c ((node c l x r).child d) x ((node c l x r).child d.opposite)
    = node c l x r := by
  cases d <;> rfl

@[simp] theorem toList_blacken : t.blacken.toList = t.toList := by cases t <;> rfl

@[simp] theorem noRedRed_join : (join d c t x s).NoRedRed ↔
    (c = .RED → t.colour = .BLACK ∧ s.colour = .BLACK) ∧ t.NoRedRed ∧ s.NoRedRed := by
  cases d
  · rfl
  · simp only [join, NoRedRed]
    tauto

@[simp] theorem blackHeight_join_red :
    (join d .RED t x s).BlackHeight n ↔ t.BlackHeight n ∧ s.BlackHeight n := by
  cases d
  · rfl
  · exact And.comm

@[simp] theorem blackHeight_join_black : (join d .BLACK t x s).BlackHeight n ↔
    ∃ k, n = k + 1 ∧ t.BlackHeight k ∧ s.BlackHeight k := by
  cases d
  · rfl
  · simp only [join, BlackHeight, and_comm]

/-! ## The hole -/

/-- The tree around a hole that a subtree with the root colour `c` and the black height `n` fits
into. -/
def Fits : List (Step α) → Colour → ℕ → Prop
  | [], _, _ => True
  | s :: p, c, n => s.sibling.NoRedRed ∧ s.sibling.BlackHeight n ∧
    match s.colour with
    | .RED => c = .BLACK ∧ s.sibling.colour = .BLACK ∧ Fits p .RED n
    | .BLACK => Fits p .BLACK (n + 1)

theorem Fits.black (h : Fits p c n) : Fits p .BLACK n := by
  cases p with
  | nil => trivial
  | cons s p =>
    obtain ⟨hs, hn, hrest⟩ := h
    refine ⟨hs, hn, ?_⟩
    cases hc : s.colour with
    | RED =>
      rw [hc] at hrest
      exact ⟨rfl, hrest.2⟩
    | BLACK =>
      rw [hc] at hrest
      exact hrest

theorem fits_fill (hp : Fits p t.colour n) (ht : t.NoRedRed) (hn : t.BlackHeight n) :
    (fill t p).NoRedRed ∧ ∃ k, (fill t p).BlackHeight k := by
  induction p generalizing t n with
  | nil => exact ⟨ht, n, hn⟩
  | cons s p ih =>
    obtain ⟨hs, hsn, hrest⟩ := hp
    cases hc : s.colour with
    | RED =>
      rw [hc] at hrest
      obtain ⟨hct, hcs, hp⟩ := hrest
      rw [fill, hc]
      exact ih (by simpa using hp) (by simp [*]) (by simp [*])
    | BLACK =>
      rw [hc] at hrest
      rw [fill, hc]
      exact ih (by simpa using hrest) (by simp [*]) (by simp [*])

/-- A hole in a balanced tree. -/
theorem fits_of_fill (ht : (fill t p).NoRedRed) (hn : (fill t p).BlackHeight n) :
    ∃ k, Fits p t.colour k ∧ t.NoRedRed ∧ t.BlackHeight k := by
  induction p generalizing t with
  | nil => exact ⟨n, trivial, ht, hn⟩
  | cons s p ih =>
    obtain ⟨k, hp, hj, hk⟩ := ih ht hn
    rw [noRedRed_join] at hj
    obtain ⟨hred, htr, hsr⟩ := hj
    cases hc : s.colour with
    | RED =>
      rw [hc] at hp hk hred
      rw [colour_join] at hp
      rw [blackHeight_join_red] at hk
      refine ⟨k, ⟨hsr, hk.2, ?_⟩, htr, hk.1⟩
      rw [hc]
      exact ⟨(hred rfl).1, (hred rfl).2, hp⟩
    | BLACK =>
      rw [hc] at hp hk
      rw [colour_join] at hp
      rw [blackHeight_join_black] at hk
      obtain ⟨j, rfl, hjt, hjs⟩ := hk
      refine ⟨j, ⟨hsr, hjs, ?_⟩, htr, hjt⟩
      rw [hc]
      exact hp

/-! ## Rebalancing -/

/-- What becomes of two red nodes in a row, when the sibling of the upper one is black. -/
def rotated (t : RBTree α) (s g : Step α) : RBTree α :=
  if s.dir = g.dir then
    join g.dir .BLACK t s.elem (join g.dir .RED s.sibling g.elem g.sibling)
  else match t with
    | leaf => join g.dir .BLACK (join g.dir .RED s.sibling s.elem leaf) g.elem g.sibling
    | node c l x r =>
      join g.dir .BLACK (join g.dir .RED s.sibling s.elem ((node c l x r).child g.dir)) x
        (join g.dir .RED ((node c l x r).child g.dir.opposite) g.elem g.sibling)

/-- The tree with the red `t` in its hole, rebalanced from there up. -/
def rebalance : RBTree α → List (Step α) → RBTree α
  | t, s :: g :: p =>
    if s.colour = .BLACK then fill t (s :: g :: p)
    else if g.sibling.colour = .RED then
      rebalance (join g.dir .RED (join s.dir .BLACK t s.elem s.sibling) g.elem g.sibling.blacken) p
    else fill (rotated t s g) p
  | t, p => fill t p

theorem toList_rotated (t : RBTree α) (s g : Step α) :
    (rotated t s g).toList = (fill t [s, g]).toList := by
  obtain ⟨d, c, y, u⟩ := s
  obtain ⟨e, c', z, v⟩ := g
  cases t <;> cases d <;> cases e <;> simp [rotated, fill, join, toList, child, Dir.opposite]

theorem toList_rebalance (t : RBTree α) (p : List (Step α)) :
    (rebalance t p).toList = (fill t p).toList := by
  induction t, p using rebalance.induct with
  | case1 t s g p hs => rw [rebalance, if_pos hs]
  | case2 t s g p hs hg ih =>
    rw [rebalance, if_neg hs, if_pos hg, ih]
    refine toList_fill_congr ?_
    obtain ⟨d, c, y, u⟩ := s
    obtain ⟨e, c', z, v⟩ := g
    cases d <;> cases e <;> simp [join, toList]
  | case3 t s g p hs hg =>
    rw [rebalance, if_neg hs, if_neg hg]
    exact toList_fill_congr (toList_rotated t s g)
  | case4 t p hp => rw [rebalance.eq_2 t p hp]

theorem noRedRed_blacken (h : t.NoRedRed) : t.blacken.NoRedRed := by
  cases t with
  | leaf => trivial
  | node c l x r => exact ⟨nofun, h.2⟩

theorem blackHeight_blacken (h : t.BlackHeight n) : ∃ k, t.blacken.BlackHeight k := by
  cases t with
  | leaf => exact ⟨n, h⟩
  | node c l x r =>
    cases c with
    | RED => exact ⟨n + 1, n, rfl, h⟩
    | BLACK => exact ⟨n, h⟩

theorem blackHeight_blacken_red (hc : t.colour = .RED) (h : t.BlackHeight n) :
    t.blacken.BlackHeight (n + 1) := by
  cases t with
  | leaf => cases hc
  | node c l x r =>
    cases hc
    exact ⟨n, rfl, h⟩

@[simp] theorem colour_blacken : t.blacken.colour = .BLACK := by cases t <;> rfl

theorem rotated_balanced {s g : Step α} (hc : t.colour = .RED) (ht : t.NoRedRed)
    (hn : t.BlackHeight n) (hs : s.sibling.NoRedRed) (hsn : s.sibling.BlackHeight n)
    (hsc : s.sibling.colour = .BLACK) (hg : g.sibling.NoRedRed) (hgn : g.sibling.BlackHeight n)
    (hgc : g.sibling.colour = .BLACK) :
    (rotated t s g).colour = .BLACK ∧ (rotated t s g).NoRedRed ∧
      (rotated t s g).BlackHeight (n + 1) := by
  unfold rotated
  by_cases hd : s.dir = g.dir
  · simp [*]
  · cases t with
    | leaf => cases hc
    | node c l x r =>
      cases hc
      obtain ⟨hred, hl, hr⟩ := ht
      obtain ⟨hlc, hrc⟩ := hred rfl
      obtain ⟨hln, hrn⟩ := hn
      cases hdir : g.dir <;> simp [*, child, Dir.opposite] <;> rw [if_neg (hdir ▸ hd)] <;> simp [*]

/-- Above a red node there is a black one. -/
theorem above {s g : Step α} (hp : Fits (s :: g :: p) .BLACK n) (hs : s.colour ≠ .BLACK) :
    (s.sibling.NoRedRed ∧ s.sibling.BlackHeight n ∧ s.sibling.colour = .BLACK) ∧
      g.sibling.NoRedRed ∧ g.sibling.BlackHeight n ∧ g.colour = .BLACK ∧
      Fits p .BLACK (n + 1) := by
  obtain ⟨hsr, hsn, hrest⟩ := hp
  cases hc : s.colour with
  | BLACK => exact absurd hc hs
  | RED =>
    rw [hc] at hrest
    obtain ⟨-, hsc, hgr, hgn, hrest⟩ := hrest
    cases hgc : g.colour with
    | RED =>
      rw [hgc] at hrest
      cases hrest.1
    | BLACK =>
      rw [hgc] at hrest
      exact ⟨⟨hsr, hsn, hsc⟩, hgr, hgn, rfl, hrest⟩

/-- A red node put into a hole leaves a balanced tree, once the root is black. -/
theorem rebalance_balanced (hp : Fits p .BLACK n) (hc : t.colour = .RED) (ht : t.NoRedRed)
    (hn : t.BlackHeight n) :
    (rebalance t p).blacken.NoRedRed ∧ ∃ k, (rebalance t p).blacken.BlackHeight k := by
  have hfill : ∀ {t : RBTree α} {p n}, Fits p t.colour n → t.NoRedRed → t.BlackHeight n →
      (fill t p).blacken.NoRedRed ∧ ∃ k, (fill t p).blacken.BlackHeight k := by
    intro t p n hp ht hn
    obtain ⟨hr, k, hk⟩ := fits_fill hp ht hn
    exact ⟨noRedRed_blacken hr, blackHeight_blacken hk⟩
  induction t, p using rebalance.induct generalizing n with
  | case1 t s g p hs =>
    rw [rebalance, if_pos hs]
    refine hfill (n := n) ?_ ht hn
    obtain ⟨hsr, hsn, hrest⟩ := hp
    refine ⟨hsr, hsn, ?_⟩
    rw [hs] at hrest ⊢
    exact hrest
  | case2 t s g p hs hg ih =>
    rw [rebalance, if_neg hs, if_pos hg]
    obtain ⟨⟨hsr, hsn, hsc⟩, hgr, hgn, -, hfits⟩ := above hp hs
    refine ih hfits (by simp) ?_ ?_
    · simp [*, noRedRed_blacken]
    · simp [*, blackHeight_blacken_red]
  | case3 t s g p hs hg =>
    rw [rebalance, if_neg hs, if_neg hg]
    obtain ⟨⟨hsr, hsn, hsc⟩, hgr, hgn, -, hfits⟩ := above hp hs
    have hgc : g.sibling.colour = .BLACK := by
      cases hc : g.sibling.colour with
      | RED => exact absurd hc hg
      | BLACK => rfl
    obtain ⟨hrc, hrr, hrn⟩ := rotated_balanced hc ht hn hsr hsn hsc hgr hgn hgc
    exact hfill (by rwa [hrc]) hrr hrn
  | case4 t p hnil =>
    rw [rebalance.eq_2 t p hnil]
    cases p with
    | nil => exact ⟨noRedRed_blacken ht, blackHeight_blacken hn⟩
    | cons s p =>
      obtain ⟨hsr, hsn, -⟩ := hp
      cases p with
      | cons g p => exact absurd rfl (hnil s g p)
      | nil =>
        obtain ⟨d, c, y, u⟩ := s
        refine ⟨?_, n + 1, ?_⟩ <;> cases d <;>
          simp_all [fill, join, blacken, NoRedRed, BlackHeight]

/-! ## Height -/

theorem two_pow_le_size (h : t.BlackHeight n) : 2 ^ n ≤ t.size + 1 := by
  induction t generalizing n with
  | leaf =>
    obtain rfl : n = 0 := h
    simp
  | node c l x r hl hr =>
    cases c with
    | RED =>
      have := hl h.1
      simp only [size]
      omega
    | BLACK =>
      obtain ⟨k, rfl, hlk, hrk⟩ := h
      have := hl hlk
      have := hr hrk
      simp only [size, pow_succ]
      omega

theorem height_le (ht : t.NoRedRed) (h : t.BlackHeight n) :
    t.height ≤ 2 * n + 1 ∧ (t.colour = .BLACK → t.height ≤ 2 * n) := by
  induction t generalizing n with
  | leaf => simp [height]
  | node c l x r hl hr =>
    obtain ⟨hred, hlr, hrr⟩ := ht
    cases c with
    | RED =>
      obtain ⟨hlc, hrc⟩ := hred rfl
      have hl' := (hl hlr h.1).2 hlc
      have hr' := (hr hrr h.2).2 hrc
      refine ⟨?_, nofun⟩
      simp only [height]
      omega
    | BLACK =>
      obtain ⟨k, rfl, hlk, hrk⟩ := h
      have hl' := (hl hlr hlk).1
      have hr' := (hr hrr hrk).1
      simp only [height]
      omega

/-- The height is at most twice the binary logarithm of the size plus one. -/
theorem two_pow_height_le (ht : t.NoRedRed) (hc : t.colour = .BLACK) (h : t.BlackHeight n) :
    2 ^ t.height ≤ (t.size + 1) ^ 2 := by
  have hle := (height_le ht h).2 hc
  calc 2 ^ t.height ≤ 2 ^ (2 * n) := Nat.pow_le_pow_right (by omega) hle
    _ = (2 ^ n) ^ 2 := by ring
    _ ≤ (t.size + 1) ^ 2 := Nat.pow_le_pow_left (two_pow_le_size h) 2

/-! ## Searching -/

variable {κ : Type} [LinearOrder κ] (key : α → κ) (k : κ)

def find : RBTree α → Option α
  | leaf => none
  | node _ l x r => if k < key x then l.find else if key x < k then r.find else some x

/-- The way down to the node with the key, or to the hole where it would be. -/
def locate : RBTree α → List (Step α) → RBTree α × List (Step α)
  | leaf, p => (leaf, p)
  | node c l x r, p =>
    if k < key x then l.locate (⟨.left, c, x, r⟩ :: p)
    else if key x < k then r.locate (⟨.right, c, x, l⟩ :: p)
    else (node c l x r, p)

def Sorted (t : RBTree α) : Prop := t.toList.Pairwise fun x y => key x < key y

theorem fill_locate (t : RBTree α) (p : List (Step α)) :
    fill (t.locate key k p).1 (t.locate key k p).2 = fill t p := by
  induction t generalizing p with
  | leaf => rfl
  | node c l x r hl hr =>
    unfold locate
    split
    · rw [hl]
      rfl
    · split
      · rw [hr]
        rfl
      · rfl

variable {key k}

theorem fill_of_locate {s : RBTree α} {p : List (Step α)} (h : t.locate key k [] = (s, p)) :
    fill s p = t := by
  have hfill := fill_locate key k t []
  rwa [h] at hfill

theorem Sorted.node (h : (node c l x r).Sorted key) :
    l.Sorted key ∧ r.Sorted key ∧ (∀ y ∈ l.toList, key y < key x) ∧
      ∀ y ∈ r.toList, key x < key y := by
  unfold Sorted toList at h
  rw [List.pairwise_append, List.pairwise_cons] at h
  exact ⟨h.1, h.2.1.2, fun y hy => h.2.2 y hy x List.mem_cons_self, h.2.1.1⟩

theorem find_mem (h : t.find key k = some x) : x ∈ t.toList ∧ key x = k := by
  induction t with
  | leaf => cases h
  | node c l y r hl hr =>
    unfold find at h
    rw [toList, List.mem_append, List.mem_cons]
    split at h
    · exact ⟨.inl (hl h).1, (hl h).2⟩
    · split at h
      · exact ⟨.inr (.inr (hr h).1), (hr h).2⟩
      next hnlt hngt =>
        cases h
        exact ⟨.inr (.inl rfl), le_antisymm (not_lt.mp hnlt) (not_lt.mp hngt)⟩

theorem find_eq (h : t.Sorted key) : t.find key k = t.toList.find? fun x => key x = k := by
  induction t with
  | leaf => rfl
  | node c l x r hl hr =>
    obtain ⟨hls, hrs, hlx, hxr⟩ := h.node
    have hnone : ∀ {s : RBTree α}, (∀ y ∈ s.toList, key y ≠ k) →
        s.toList.find? (fun x => key x = k) = none := by
      intro s hs
      simpa using hs
    unfold find toList
    rw [List.find?_append, List.find?_cons]
    split
    next hlt =>
      rw [hl hls, decide_eq_false hlt.ne', hnone fun y hy => (hlt.trans (hxr y hy)).ne']
      simp
    next hnlt =>
      have hleft : l.toList.find? (fun x => key x = k) = none :=
        hnone fun y hy => ((hlx y hy).trans_le (not_lt.mp hnlt)).ne
      rw [hleft, Option.none_or]
      split
      next hlt => rw [hr hrs, decide_eq_false hlt.ne]
      next hngt => rw [decide_eq_true (le_antisymm (not_lt.mp hnlt) (not_lt.mp hngt))]

theorem key_locate (h : (t.locate key k p).1 = node c l x r) : key x = k := by
  induction t generalizing p with
  | leaf => cases h
  | node c l x r hl hr =>
    unfold locate at h
    split at h
    · exact hl h
    · split at h
      · exact hr h
      next hnlt hngt =>
        cases h
        exact le_antisymm (not_lt.mp hnlt) (not_lt.mp hngt)

theorem find_eq_some (h : t.Sorted key) : t.find key k = some x ↔ x ∈ t.toList ∧ key x = k := by
  refine ⟨find_mem, ?_⟩
  rintro ⟨hx, rfl⟩
  induction t with
  | leaf => cases hx
  | node c l y r hl hr =>
    obtain ⟨hls, hrs, hly, hyr⟩ := h.node
    rw [toList, List.mem_append, List.mem_cons] at hx
    unfold find
    rcases hx with hx | rfl | hx
    · rw [if_pos (hly x hx)]
      exact hl hls hx
    · rw [if_neg (lt_irrefl _), if_neg (lt_irrefl _)]
    · rw [if_neg (hyr x hx).asymm, if_pos (hyr x hx)]
      exact hr hrs hx

theorem Sorted.of_fill (h : (fill t p).Sorted key) : t.Sorted key := by
  unfold Sorted at h ⊢
  rw [toList_fill] at h
  exact (List.pairwise_append.mp (List.pairwise_append.mp h).1).2.1

/-- The elements before and after the hole where the key would be. -/
theorem locate_between (h : (fill t p).Sorted key) (hb : ∀ y ∈ before p, key y < k)
    (ha : ∀ y ∈ after p, k < key y) : (∀ y ∈ before (t.locate key k p).2, key y < k) ∧
      ∀ y ∈ after (t.locate key k p).2, k < key y := by
  induction t generalizing p with
  | leaf => exact ⟨hb, ha⟩
  | node c l x r hl hr =>
    obtain ⟨-, -, hlx, hxr⟩ := h.of_fill.node
    unfold locate
    split
    next hlt =>
      refine hl h hb fun y hy => ?_
      simp only [after, List.cons_append, List.mem_cons, List.mem_append] at hy
      rcases hy with rfl | hy | hy
      · exact hlt
      · exact hlt.trans (hxr y hy)
      · exact ha y hy
    next =>
      split
      next hlt =>
        refine hr h (fun y hy => ?_) ha
        simp only [before, List.mem_append, List.mem_singleton] at hy
        rcases hy with (hy | hy) | rfl
        · exact hb y hy
        · exact (hlx y hy).trans hlt
        · exact hlt
      · exact ⟨hb, ha⟩

theorem between_of_locate {s : RBTree α} (ht : t.Sorted key) (h : t.locate key k [] = (s, p)) :
    (∀ y ∈ before p, key y < k) ∧ ∀ y ∈ after p, k < key y := by
  have hbetween := locate_between (t := t) (p := []) (k := k) ht (by simp [before])
    (by simp [after])
  rwa [h] at hbetween

end RBTree

end Infos.RedBlack
