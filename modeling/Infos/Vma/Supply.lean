import Infos.Vma.Code
import Mathlib.Logic.Relation

/-!
# What a source of frames gives, and what it refuses
-/

namespace Infos.Vma

variable {α : Type} {P : PageSource α} {a b c : α} {order : Int} {r : Option ℕ} {n : ℕ}

/-- `b` is what is left of `a` after any requests, whatever it answered. -/
def Drawn (P : PageSource α) : α → α → Prop :=
  Relation.ReflTransGen fun a b => ∃ order r, P.alloc_pages order a = .ok (r, b)

/-- Asked for a block of this order, `a` gives none that the window shows, and is left as `b`. -/
def Refuses (P : PageSource α) (order : Int) (a b : α) : Prop :=
  match P.alloc_pages order a with
  | .error _ => b = a
  | .ok (none, a') => b = a'
  | .ok (some pgd, a') => b = a' ∧ PMEM_VA_SIZE < 4096 * (pgd + block_pages order)

/-- Asked for `n` single pages, one after another, `a` gives them all, and in the window. -/
def Yields (P : PageSource α) : ℕ → α → Prop
  | 0, _ => True
  | n + 1, a => ∃ pgd b, P.alloc_pages 0 a = .ok (some pgd, b) ∧ 4096 * (pgd + 1) ≤ PMEM_VA_SIZE ∧
    Yields P n b

theorem Drawn.refl (P : PageSource α) (a : α) : Drawn P a a := Relation.ReflTransGen.refl

theorem Drawn.trans (h : Drawn P a b) (h' : Drawn P b c) : Drawn P a c :=
  Relation.ReflTransGen.trans h h'

theorem Drawn.of_alloc (h : P.alloc_pages order a = .ok (r, b)) : Drawn P a b :=
  .single ⟨order, r, h⟩

theorem Drawn.free (h : Drawn P a b) : P.free b ⊆ P.free a := by
  induction h with
  | refl => exact subset_rfl
  | tail _ hstep ih =>
    obtain ⟨order, r, he⟩ := hstep
    exact (P.shrinks he).trans ih

theorem refuses_of_error {u : Unit} (h : P.alloc_pages order a = .error u) : Refuses P order a a := by
  unfold Refuses
  rw [h]

theorem refuses_of_none (h : P.alloc_pages order a = .ok (none, b)) : Refuses P order a b := by
  unfold Refuses
  rw [h]

theorem refuses_of_outside {pgd : ℕ} (h : P.alloc_pages order a = .ok (some pgd, b))
    (hpgd : PMEM_VA_SIZE < 4096 * (pgd + block_pages order)) : Refuses P order a b := by
  unfold Refuses
  rw [h]
  exact ⟨rfl, hpgd⟩

theorem Yields.not_refuses (h : Yields P (n + 1) a) : ¬ Refuses P 0 a b := by
  obtain ⟨pgd, c, he, hwindow, -⟩ := h
  unfold Refuses
  rw [he]
  rintro ⟨-, hlt⟩
  have hone : block_pages 0 = 1 := rfl
  omega

theorem Yields.next (h : Yields P (n + 1) a) (he : P.alloc_pages 0 a = .ok (r, b)) :
    Yields P n b := by
  obtain ⟨pgd, c, he', -, hrest⟩ := h
  rw [he] at he'
  cases he'
  exact hrest

end Infos.Vma
