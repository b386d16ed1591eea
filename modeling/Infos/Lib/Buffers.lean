import Infos.Lib.Prog

/-!
# Buffers on a heap

Buffers are made, written to and given back. Each has a number of its own, and each is shorter than
the heap's limit.
-/

namespace Infos.Buffers

open Prog

inductive Fault (ε : Type)
  | no_memory
  | dangling
  | outside
  | other (e : ε)

structure Heap (α : Type) (limit : ℕ) where
  cells : ℕ → Option (List α)
  next : ℕ
  fresh : ∀ p, next ≤ p → cells p = none
  fits : ∀ p c, cells p = some c → c.length < limit

abbrev Op (α : Type) (limit : ℕ) (ε : Type) := StateT (Heap α limit) (Except (Fault ε))

variable {α ε : Type} {limit : ℕ} {h h' h₀ h₁ : Heap α limit} {n off p : ℕ} {bs c d : List α}
  {o : Option ℕ}

/-- The cell `p` becomes `c`. -/
def Heap.set (h : Heap α limit) (p : ℕ) (c : Option (List α)) (hc : ∀ d, c = some d → d.length < limit) :
    Heap α limit where
  cells := Function.update h.cells p c
  next := max h.next (p + 1)
  fresh q hq := by
    rw [Function.update_of_ne (by omega)]
    exact h.fresh q (by omega)
  fits q d hq := by
    by_cases heq : q = p
    · rw [heq, Function.update_self] at hq
      exact hc d hq
    · rw [Function.update_of_ne heq] at hq
      exact h.fits q d hq

/-- A new buffer of `n` items. -/
def new (n : ℕ) (a : α) : Op α limit ε ℕ := fun h =>
  if hn : n < limit then
    .ok (h.next, h.set h.next (some (List.replicate n a)) (by rintro _ ⟨⟩; simpa using hn))
  else .error .no_memory

/-- Nothing is done for a null pointer. -/
def delete : Option ℕ → Op α limit ε Unit
  | none => pure ()
  | some p => fun h =>
    if (h.cells p).isSome then .ok ((), h.set p none (by simp)) else .error .dangling

def load (p off n : ℕ) : Op α limit ε (List α) := fun h =>
  match h.cells p with
  | none => .error .dangling
  | some c => if off + n ≤ c.length then .ok ((c.drop off).take n, h) else .error .outside

def store (p off : ℕ) (bs : List α) : Op α limit ε Unit := fun h =>
  match hp : h.cells p with
  | none => .error .dangling
  | some c =>
    if hin : off + bs.length ≤ c.length then
      .ok ((), h.set p (some (c.take off ++ bs ++ c.drop (off + bs.length))) (by
        rintro _ ⟨⟩
        have := h.fits p c hp
        simp only [List.length_append, List.length_take, List.length_drop]
        omega))
    else .error .outside

theorem Heap.lt_next (hp : h.cells p = some c) : p < h.next := by
  by_contra hle
  rw [h.fresh p (by omega)] at hp
  cases hp

/-! ## One buffer more -/

/-- There is one more buffer, with `d` in it. -/
structure Made (h h' : Heap α limit) (d : List α) : Prop where
  cells : h'.cells = Function.update h.cells h.next (some d)
  next : h'.next = h.next + 1

theorem Made.old (hm : Made h h' d) (hp : p < h.next) : h'.cells p = h.cells p := by
  rw [hm.cells, Function.update_of_ne (by omega)]

theorem Made.new (hm : Made h h' d) : h'.cells h.next = some d := by
  rw [hm.cells, Function.update_self]

theorem returns_new (hn : n < limit) (a : α) : Returns (new n a : Op α limit ε ℕ) h fun p h' =>
    p = h.next ∧ Made h h' (List.replicate n a) := by
  refine returns_of_eq (dif_pos hn) ⟨rfl, rfl, ?_⟩
  show max h.next (h.next + 1) = h.next + 1
  omega

/-- The new buffer is written to. -/
theorem Made.store (hm : Made h h₁ c) (hin : off + bs.length ≤ c.length)
    (hd : c.take off ++ bs ++ c.drop (off + bs.length) = d) :
    Returns (store h.next off bs : Op α limit ε Unit) h₁ fun _ h' => Made h h' d := by
  have hnew := hm.new
  subst hd
  unfold Buffers.store Returns
  beta_reduce
  split
  next hnone => simp [hnone] at hnew
  next e he =>
    obtain rfl : c = e := Option.some.inj (hnew.symm.trans he)
    rw [dif_pos hin]
    refine ⟨_, _, rfl, ?_, ?_⟩
    · show Function.update h₁.cells h.next _ = _
      rw [hm.cells, Function.update_idem]
    · show max h₁.next (h.next + 1) = h.next + 1
      rw [hm.next, Nat.max_self]

theorem Made.store_outside (hm : Made h h₁ c) (hout : c.length < off + bs.length) :
    (Buffers.store h.next off bs : Op α limit ε Unit) h₁ = .error .outside := by
  have hnew := hm.new
  unfold Buffers.store
  split
  next hnone => simp [hnone] at hnew
  next e he =>
    obtain rfl : c = e := Option.some.inj (hnew.symm.trans he)
    rw [dif_neg (by omega)]

theorem load_eq (hp : h.cells p = some c) (hin : off + n ≤ c.length) :
    (load p off n : Op α limit ε (List α)) h = .ok ((c.drop off).take n, h) := by
  unfold load
  rw [hp]
  exact if_pos hin

/-! ## One buffer less -/

/-- The buffer of a pointer is gone. -/
structure Freed (h h' : Heap α limit) (o : Option ℕ) : Prop where
  gone : ∀ p, o = some p → h'.cells p = none
  kept : ∀ p, o ≠ some p → h'.cells p = h.cells p
  next : h'.next = h.next

theorem returns_delete (ho : ∀ p, o = some p → (h.cells p).isSome) :
    Returns (delete o : Op α limit ε Unit) h fun _ h' => Freed h h' o := by
  cases o with
  | none => exact returns_of_eq rfl ⟨by simp, fun _ _ => rfl, rfl⟩
  | some p =>
    have hp := ho p rfl
    obtain ⟨c, hc⟩ := Option.isSome_iff_exists.mp hp
    have hlt := Heap.lt_next hc
    refine returns_of_eq (if_pos hp) ⟨?_, ?_, ?_⟩
    · rintro q ⟨⟩
      exact Function.update_self ..
    · intro q hq
      exact Function.update_of_ne (fun heq => hq (congrArg some heq.symm)) ..
    · show max h.next (p + 1) = h.next
      omega

/-! ## Who owns the buffers -/

/-- The buffers that were made since `h₀` and are still there are those that `l` points to, each
once. -/
structure Owns (h₀ h : Heap α limit) (l : List (Option ℕ)) : Prop where
  live : ∀ p, some p ∈ l → (h.cells p).isSome
  distinct : (l.filterMap id).Nodup
  owned : ∀ p, h₀.next ≤ p → (h.cells p).isSome → some p ∈ l
  recent : ∀ p, some p ∈ l → h₀.next ≤ p
  old : ∀ p < h₀.next, h.cells p = h₀.cells p
  next : h₀.next ≤ h.next

variable {l m : List (Option ℕ)}

theorem Owns.nil (h : Heap α limit) : Owns h h [] where
  live := by simp
  distinct := by simp
  owned p hp hsome := by
    rw [h.fresh p hp] at hsome
    cases hsome
  recent := by simp
  old _ _ := rfl
  next := Nat.le_refl _

theorem Owns.perm (ho : Owns h₀ h l) (hp : l.Perm m) : Owns h₀ h m where
  live p hmem := ho.live p (hp.mem_iff.mpr hmem)
  distinct := (hp.filterMap _).nodup_iff.mp ho.distinct
  owned p hle hsome := hp.mem_iff.mp (ho.owned p hle hsome)
  recent p hmem := ho.recent p (hp.mem_iff.mpr hmem)
  old := ho.old
  next := ho.next

theorem nodup_pointers_cons : ((o :: l).filterMap id).Nodup ↔
    (∀ p, o = some p → some p ∉ l) ∧ (l.filterMap id).Nodup := by
  cases o <;> simp

theorem Owns.apart (ho : Owns h₀ h (o :: l)) (hp : some p ∈ l) : o ≠ some p := fun heq =>
  (nodup_pointers_cons.mp ho.distinct).1 p heq hp

theorem Owns.made (ho : Owns h₀ h l) (hm : Made h h' d) : Owns h₀ h' (some h.next :: l) := by
  have hlt : ∀ p, some p ∈ l → p < h.next := by
    intro p hp
    obtain ⟨c, hc⟩ := Option.isSome_iff_exists.mp (ho.live p hp)
    exact Heap.lt_next hc
  refine ⟨?_, ?_, ?_, ?_, ?_, ?_⟩
  · intro p hp
    rcases List.mem_cons.mp hp with heq | hp
    · cases heq
      rw [hm.new]
      rfl
    · rw [hm.old (hlt p hp)]
      exact ho.live p hp
  · rw [nodup_pointers_cons]
    refine ⟨?_, ho.distinct⟩
    rintro _ ⟨⟩ hmem
    exact Nat.lt_irrefl _ (hlt _ hmem)
  · intro p hle hsome
    by_cases heq : p = h.next
    · exact heq ▸ List.mem_cons_self
    · rw [hm.cells, Function.update_of_ne heq] at hsome
      exact List.mem_cons_of_mem _ (ho.owned p hle hsome)
  · intro p hp
    rcases List.mem_cons.mp hp with heq | hp
    · cases heq
      exact ho.next
    · exact ho.recent p hp
  · intro p hp
    rw [hm.old (Nat.lt_of_lt_of_le hp ho.next), ho.old p hp]
  · rw [hm.next]
    exact Nat.le_succ_of_le ho.next

theorem Owns.freed (ho : Owns h₀ h (o :: l)) (hf : Freed h h' o) : Owns h₀ h' l := by
  refine ⟨?_, (nodup_pointers_cons.mp ho.distinct).2, ?_, ?_, ?_, ?_⟩
  · intro p hp
    rw [hf.kept p (ho.apart hp)]
    exact ho.live p (List.mem_cons_of_mem _ hp)
  · intro p hle hsome
    by_cases hp : o = some p
    · rw [hf.gone p hp] at hsome
      cases hsome
    · rw [hf.kept p hp] at hsome
      exact (List.mem_cons.mp (ho.owned p hle hsome)).resolve_left (Ne.symm hp)
  · intro p hp
    exact ho.recent p (List.mem_cons_of_mem _ hp)
  · intro p hp
    rw [hf.kept p ?_, ho.old p hp]
    rintro rfl
    exact Nat.not_le_of_lt hp (ho.recent p List.mem_cons_self)
  · rw [hf.next]
    exact ho.next

end Infos.Buffers
