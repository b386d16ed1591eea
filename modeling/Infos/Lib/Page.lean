import Mathlib.Algebra.Order.Ring.Nat
import Mathlib.Tactic.Common

/-!
# Pages of text

A page is a list of rows, of which the last one is still written to. A screen of `h` rows of `w`
cells shows the last rows of the page, one row of cells after the other.
-/

namespace Infos

structure Page (α : Type) where
  done : List (List α)
  current : List α
  deriving DecidableEq, Repr

namespace Page

variable {α : Type} [DecidableEq α]

def empty : Page α := ⟨[], []⟩

def rows (p : Page α) : List (List α) := p.done ++ [p.current]

def put (p : Page α) (c : α) : Page α := { p with current := p.current ++ [c] }

def new_row (p : Page α) : Page α := ⟨p.done ++ [p.current], []⟩

/-- A row is done at a newline, or once it is full. -/
def type (w : ℕ) (newline : α) (p : Page α) (c : α) : Page α :=
  if c = newline then p.new_row
  else if p.current.length + 1 < w then p.put c
  else (p.put c).new_row

def layout (w : ℕ) (newline : α) (text : List α) : Page α := text.foldl (type w newline) empty

/-- What stands in the row `r` of the last `h` rows. -/
def shown (h : ℕ) (p : Page α) (r i : ℕ) : Option α :=
  p.rows[p.rows.length - h + r]?.bind (·[i]?)

/-- The cursor of a screen stands at the end of the page, and the screen has the last rows of it. -/
structure Shows (w h : ℕ) (p : Page α) (x y : ℕ) (char : ℕ → α) : Prop where
  column : x = p.current.length
  row : y = min p.done.length (h - 1)
  width : ∀ row ∈ p.rows, row.length ≤ w
  char : ∀ r i c, r < h → p.shown h r i = some c → char (w * r + i) = c

/-- The cursor goes to the next row, and the screen moves up if there is none. -/
inductive LineFeed (w h : ℕ) (y : ℕ) (char : ℕ → α) : ℕ → (ℕ → α) → Prop
  | room (hy : y + 1 < h) : LineFeed w h y char (y + 1) char
  | scroll {char' : ℕ → α} (hy : y + 1 = h) (hmove : ∀ j < w * (h - 1), char' j = char (j + w)) :
      LineFeed w h y char y char'

omit [DecidableEq α]

variable {w h x y y' r i : ℕ} {p : Page α} {c : α} {char char' : ℕ → α}

theorem getElem?_rows (p : Page α) (k : ℕ) : p.rows[k]? =
    if k < p.done.length then p.done[k]? else if k = p.done.length then some p.current else none := by
  unfold rows
  rw [List.getElem?_append]
  split_ifs with hlt heq
  · rfl
  · simp [heq]
  · exact List.getElem?_eq_none (by simp only [List.length_singleton]; omega)

theorem length_rows (p : Page α) : p.rows.length = p.done.length + 1 := List.length_append

theorem shown_eq (h : ℕ) (p : Page α) (r i : ℕ) : p.shown h r i =
    (if p.done.length + 1 - h + r < p.done.length then p.done[p.done.length + 1 - h + r]?
      else if p.done.length + 1 - h + r = p.done.length then some p.current else none).bind (·[i]?) := by
  unfold shown
  rw [length_rows, getElem?_rows]

theorem shown_put (hr : r < h) : (p.put c).shown h r i =
    if r = min p.done.length (h - 1) ∧ i = p.current.length then some c else p.shown h r i := by
  rw [shown_eq, shown_eq]
  unfold put
  dsimp only
  split_ifs with hlt hhere hlast hhere
  · omega
  · rfl
  · simp [hhere.2]
  · have hi : i ≠ p.current.length := fun hi => hhere ⟨by omega, hi⟩
    simp only [Option.bind_some, List.getElem?_append]
    split_ifs
    · rfl
    · rw [List.getElem?_eq_none (by simp only [List.length_singleton]; omega),
        List.getElem?_eq_none (by omega)]
  · omega
  · rfl

theorem shown_new_row (h : ℕ) (p : Page α) (r i : ℕ) : p.new_row.shown h r i =
    (if p.done.length + 2 - h + r < p.done.length then p.done[p.done.length + 2 - h + r]?
      else if p.done.length + 2 - h + r = p.done.length then some p.current else none).bind (·[i]?) := by
  rw [shown_eq]
  show (if p.rows.length + 1 - h + r < p.rows.length then p.rows[p.rows.length + 1 - h + r]?
    else if p.rows.length + 1 - h + r = p.rows.length then some [] else none).bind _ = _
  rw [length_rows, getElem?_rows]
  split_ifs <;> first | rfl | omega

theorem shown_new_row_room (hroom : p.done.length + 1 < h) :
    p.new_row.shown h r i = p.shown h r i := by
  rw [shown_new_row, shown_eq, show p.done.length + 2 - h = p.done.length + 1 - h by omega]

theorem shown_new_row_scroll (hfull : h ≤ p.done.length + 1) :
    p.new_row.shown h r i = p.shown h (r + 1) i := by
  rw [shown_new_row, shown_eq,
    show p.done.length + 2 - h + r = p.done.length + 1 - h + (r + 1) by omega]

/-- Nothing stands below the last row. -/
theorem shown_below (hfull : h ≤ p.done.length + 1) (hr : h ≤ r) : p.shown h r i = none := by
  rw [shown_eq]
  split_ifs
  · omega
  · omega
  · rfl

theorem shown_lt (hw : ∀ row ∈ p.rows, row.length ≤ w) (hc : p.shown h r i = some c) : i < w := by
  obtain ⟨row, hrow, hi⟩ := Option.bind_eq_some_iff.mp hc
  exact (List.getElem?_eq_some_iff.mp hi).1.trans_le (hw row (List.mem_of_getElem? hrow))

/-! ## What a screen shows after a step -/

theorem place_inj {r y i x : ℕ} (hi : i < w) (hx : x < w) (h : w * r + i = w * y + x) :
    r = y ∧ i = x := by
  have hw : 0 < w := Nat.zero_lt_of_lt hi
  have hdiv := congrArg (· / w) h
  have hmod := congrArg (· % w) h
  simp only [Nat.mul_add_div hw, Nat.div_eq_of_lt hi, Nat.div_eq_of_lt hx, Nat.add_zero] at hdiv
  simp only [Nat.mul_add_mod, Nat.mod_eq_of_lt hi, Nat.mod_eq_of_lt hx] at hmod
  exact ⟨hdiv, hmod⟩

theorem Shows.put (hs : Shows w h p x y char) (hx : x < w) (hc : char' (w * y + x) = c)
    (hrest : ∀ j, j ≠ w * y + x → char' j = char j) : Shows w h (p.put c) (x + 1) y char' := by
  obtain ⟨rfl, rfl, hw, hchar⟩ := hs
  refine ⟨by simp [Page.put], rfl, ?_, fun r i d hr hd => ?_⟩
  · unfold rows at hw ⊢
    simp only [List.forall_mem_append, List.forall_mem_singleton] at hw ⊢
    exact ⟨hw.1, by simpa [Page.put] using Nat.succ_le_of_lt hx⟩
  · rw [shown_put hr] at hd
    split_ifs at hd with hhere
    · rw [hhere.1, hhere.2, hc]
      exact Option.some.inj hd
    · have hi := shown_lt hw hd
      rw [hrest, hchar r i d hr hd]
      exact fun heq => hhere (place_inj hi hx heq)

theorem Shows.new_row (hs : Shows w h p x y char) (hl : LineFeed w h y char y' char') :
    Shows w h p.new_row 0 y' char' := by
  obtain ⟨rfl, hy, hw, hchar⟩ := hs
  have hwidth : ∀ row ∈ p.new_row.rows, row.length ≤ w := by
    show ∀ row ∈ p.rows ++ [[]], row.length ≤ w
    exact List.forall_mem_append.mpr ⟨hw, List.forall_mem_singleton.mpr (Nat.zero_le _)⟩
  have hlength : p.new_row.done.length = p.done.length + 1 := length_rows p
  cases hl with
  | room hroom =>
    refine ⟨rfl, by omega, hwidth, fun r i c hr hc => hchar r i c hr ?_⟩
    rwa [shown_new_row_room (by omega)] at hc
  | scroll hfull hmove =>
    refine ⟨rfl, by omega, hwidth, fun r i c hr hc => ?_⟩
    rw [shown_new_row_scroll (by omega)] at hc
    have hlt : r + 1 < h := by
      by_contra hle
      rw [shown_below (by omega) (by omega)] at hc
      cases hc
    have hi := shown_lt hw hc
    rw [hmove, ← hchar (r + 1) i c hlt hc]
    · rw [Nat.mul_succ, Nat.add_right_comm]
    · calc w * r + i < w * r + w := by omega
        _ = w * (r + 1) := rfl
        _ ≤ w * (h - 1) := Nat.mul_le_mul_left w (by omega)

end Page

end Infos
