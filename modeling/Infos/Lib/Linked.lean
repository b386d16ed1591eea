import Mathlib.Data.List.Basic
import Mathlib.Data.List.Induction
import Mathlib.Logic.Function.Basic
import Mathlib.Order.Basic
import Mathlib.Tactic.Common

/-!
# Singly linked lists in memory

Some headers and some nodes, each holding one pointer. A pointer is stored either in a header or
in a node, which is what a pointer to a pointer can point at: `Slot`. `HasList m k l` says that
following the pointers from the header `k` visits exactly `l` and ends at the null pointer.
-/

namespace Infos.PtrList

variable {κ α : Type}

/-- Where a pointer is stored. -/
inductive Slot (κ α : Type) where
  | area (key : κ)
  | node (x : α)
  deriving DecidableEq, Repr

/-- The pointers of a memory. -/
structure Links (κ α : Type) where
  area : κ → Option α
  next : α → Option α

/-! ## Chains of nodes -/

/-- The nodes of `l` point to each other in turn, and the last one to `q`. -/
def LinkedTo (next : α → Option α) (q : Option α) : List α → Prop
  | [] => True
  | x :: l => next x = l.head?.or q ∧ LinkedTo next q l

@[simp]
theorem linkedTo_nil (next : α → Option α) (q : Option α) : LinkedTo next q [] := trivial

@[simp]
theorem linkedTo_cons (next : α → Option α) (q : Option α) (x : α) (l : List α) :
    LinkedTo next q (x :: l) ↔ next x = l.head?.or q ∧ LinkedTo next q l := Iff.rfl

theorem linkedTo_append (next : α → Option α) (q : Option α) (a b : List α) :
    LinkedTo next q (a ++ b) ↔ LinkedTo next (b.head?.or q) a ∧ LinkedTo next q b := by
  induction a with
  | nil => simp
  | cons x a ih =>
    rw [List.cons_append, linkedTo_cons, linkedTo_cons, ih, List.head?_append, Option.or_assoc,
      and_assoc]

/-- A chain is untouched by stores into other nodes. -/
theorem linkedTo_congr {next next' : α → Option α} {q : Option α} {l : List α}
    (h : LinkedTo next q l) (hc : ∀ x ∈ l, next' x = next x) : LinkedTo next' q l := by
  induction l with
  | nil => trivial
  | cons x l ih =>
    obtain ⟨hx, hl⟩ := h
    refine ⟨?_, ih hl fun y hy => hc y (List.mem_cons_of_mem _ hy)⟩
    rw [hc x List.mem_cons_self, hx]

/-! ## Lists -/

/-- The list of the header `k` is `l`. -/
def HasList (m : Links κ α) (k : κ) (l : List α) : Prop :=
  m.area k = l.head? ∧ LinkedTo m.next none l

theorem hasList_congr {m m' : Links κ α} {k : κ} {l : List α} (h : HasList m k l)
    (ha : m'.area k = m.area k) (hn : ∀ x ∈ l, m'.next x = m.next x) : HasList m' k l :=
  ⟨ha.trans h.1, linkedTo_congr h.2 hn⟩

theorem linkedTo_unique {next : α → Option α} {l m : List α} (hl : LinkedTo next none l)
    (hm : LinkedTo next none m) (h : l.head? = m.head?) : l = m := by
  induction l generalizing m with
  | nil =>
    cases m with
    | nil => rfl
    | cons y m => simp at h
  | cons x l ih =>
    cases m with
    | nil => simp at h
    | cons y m =>
      obtain rfl : x = y := by simpa using h
      simp only [linkedTo_cons, Option.or_none] at hl hm
      rw [ih hl.2 hm.2 (hl.1.symm.trans hm.1)]

/-- A header has at most one list. -/
theorem hasList_unique {m : Links κ α} {k : κ} {l l' : List α} (h : HasList m k l)
    (h' : HasList m k l') : l = l' :=
  linkedTo_unique h.2 h'.2 (h.1.symm.trans h'.1)

/-- The pointer of a node, by the place of the node in its list. -/
theorem next_of_append {m : Links κ α} {k : κ} {a b : List α} {x : α}
    (h : HasList m k (a ++ x :: b)) : m.next x = b.head? := by
  have := ((linkedTo_append ..).mp h.2).2
  rw [linkedTo_cons] at this
  simpa using this.1

/-! ## Slots -/

/-- The pointer in a slot. -/
def Links.load (m : Links κ α) : Slot κ α → Option α
  | .area k => m.area k
  | .node x => m.next x

/-- The slot with the pointer to what comes after `a`, in the list of the header `k`. -/
def slotAfter (k : κ) (a : List α) : Slot κ α :=
  match a.getLast? with
  | none => .area k
  | some x => .node x

@[simp]
theorem slotAfter_nil (k : κ) : slotAfter k ([] : List α) = .area k := rfl

@[simp]
theorem slotAfter_concat (k : κ) (a : List α) (x : α) : slotAfter k (a ++ [x]) = .node x := by
  simp [slotAfter]

theorem slotAfter_eq_node {k : κ} {a : List α} {x : α} (h : slotAfter k a = .node x) : x ∈ a := by
  induction a using List.reverseRecOn with
  | nil => cases h
  | append_singleton a y _ =>
    rw [slotAfter_concat] at h
    cases h
    simp

theorem load_slotAfter {m : Links κ α} {k : κ} {a b : List α} (h : HasList m k (a ++ b)) :
    m.load (slotAfter k a) = b.head? := by
  induction a using List.reverseRecOn with
  | nil => exact h.1
  | append_singleton a x _ =>
    rw [slotAfter_concat]
    rw [List.append_assoc] at h
    exact next_of_append h

/-- The one rule for editing a list: between `a` and `b`, the nodes `c` give way to `d`. Only the
slot after `a` and the pointers of `d` have to be right, and all other slots unchanged. -/
theorem hasList_relink {m m' : Links κ α} {k : κ} {a b c d : List α}
    (h : HasList m k (a ++ c ++ b)) (hc : (a ++ c ++ b).Nodup) (hd : (a ++ d ++ b).Nodup)
    (hslot : m'.load (slotAfter k a) = (d ++ b).head?)
    (hlinked : LinkedTo m'.next b.head? d)
    (hother : ∀ s, s ≠ slotAfter k a → (∀ x ∈ c, s ≠ .node x) → (∀ x ∈ d, s ≠ .node x) →
      m'.load s = m.load s) : HasList m' k (a ++ d ++ b) := by
  obtain ⟨hh, hl⟩ := h
  rw [linkedTo_append] at hl
  have hnode : ∀ x, x ∈ a ++ b → slotAfter k a ≠ .node x → m'.next x = m.next x := by
    intro x hx hne
    refine hother (.node x) hne.symm ?_ ?_
    · grind
    · grind
  have hb : ∀ x ∈ b, m'.next x = m.next x := by
    intro x hx
    refine hnode x (by simp [hx]) fun e => ?_
    have := slotAfter_eq_node e
    grind
  have hdb : LinkedTo m'.next none (d ++ b) := by
    rw [linkedTo_append]
    exact ⟨by simpa using hlinked, linkedTo_congr hl.2 hb⟩
  rw [List.append_assoc]
  rcases List.eq_nil_or_concat' a with rfl | ⟨a, x, rfl⟩
  · exact ⟨by simpa [Links.load] using hslot, hdb⟩
  rw [slotAfter_concat] at hslot hother hnode
  refine ⟨?_, (linkedTo_append ..).mpr ⟨?_, hdb⟩⟩
  · have := hother (.area k) (by simp) (by simp) (by simp)
    simp only [Links.load] at this
    rw [this, hh]
    simp [List.head?_append]
  · have hax := (linkedTo_append ..).mp hl.1
    rw [linkedTo_append] at hax ⊢
    refine ⟨linkedTo_congr hax.1.1 fun y hy => hnode y (by simp [hy]) ?_, ?_⟩
    · grind
    · simpa [Links.load] using hslot

end Infos.PtrList
