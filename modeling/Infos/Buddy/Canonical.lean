import Infos.Buddy.Runs
import Mathlib.Data.List.Sort

/-!
# The lists depend only on what is outstanding

The outstanding blocks determine the free pages, these the free blocks, and these every pointer
of the allocator. So the order in which blocks are freed does not show in the lists.
-/

open Infos.Blocks Infos.Prog Infos.PtrList

namespace Infos.Buddy

variable {nr : ℕ} {ty ty' : ℕ → PageDescriptorType} {h h' : Mem} {s t u : State}
  {F G : FreeSet nr maxOrder}

/-- The same lists, pointer for pointer. -/
def SameLists (nr : ℕ) (h h' : Mem) : Prop :=
  h.free_areas = h'.free_areas ∧ ∀ i < nr, (h.pgd i).next_free = (h'.pgd i).next_free

theorem Rep.list_eq (R : Rep nr ty h F) (R' : Rep nr ty' h' F) (k : ℕ) :
    ∃ l, HasList h.links k l ∧ HasList h'.links k l ∧ ∀ p, p ∈ l ↔ ⟨p, k⟩ ∈ F := by
  obtain ⟨l, hl, hs, hm⟩ := R.list k
  obtain ⟨l', hl', hs', hm'⟩ := R'.list k
  obtain rfl : l = l' := hs.eq_of_mem_iff hs' fun p => (hm p).trans (hm' p).symm
  exact ⟨l, hl, hl', hm⟩

theorem Rep.sameLists (R : Rep nr ty h F) (R' : Rep nr ty' h' F) : SameLists nr h h' := by
  refine ⟨funext fun k => ?_, fun i hi => ?_⟩
  · obtain ⟨l, hl, hl', -⟩ := R.list_eq R' k
    exact hl.1.trans hl'.1.symm
  · by_cases hfree : ∃ k, (⟨i, k⟩ : Block) ∈ F
    · obtain ⟨k, hk⟩ := hfree
      obtain ⟨l, hl, hl', hm⟩ := R.list_eq R' k
      obtain ⟨a, c, rfl⟩ := List.append_of_mem ((hm i).mpr hk)
      exact (next_of_append hl).trans (next_of_append hl').symm
    · have hno : ∀ k, (⟨i, k⟩ : Block) ∉ F := fun k hk => hfree ⟨k, hk⟩
      exact (R.null i hi hno).trans (R'.null i hi hno).symm

theorem Inv.sameLists (hi : Inv ty s F) (hi' : Inv ty' t G)
    (hout : s.outstanding.Perm t.outstanding) : SameLists nr s.mem t.mem := by
  have hpages : F.pages = G.pages := by
    refine Set.ext fun x => ?_
    rw [hi.pages, hi'.pages]
    simp only [hout.mem_iff]
  obtain rfl := FreeSet.eq_of_pages hi.coalesced hi'.coalesced hpages
  exact hi.rep.sameLists hi'.rep

/-- Any part of what is outstanding can be freed, in any order. -/
theorem Inv.free_all (bs : List Block) (hi : Inv ty s F) (hbs : bs.Subperm s.outstanding) :
    ∃ t, (system nr).Run s (bs.map Call.free_pages) t ∧ t.outstanding = s.outstanding.diff bs ∧
      ∃ G : FreeSet nr maxOrder, Inv ty t G := by
  induction bs generalizing s F with
  | nil => exact ⟨s, .nil s, rfl, F, hi⟩
  | cons b bs ih =>
    have hb : b ∈ s.outstanding := hbs.subset List.mem_cons_self
    obtain ⟨_, h', he, F', hi'⟩ := hi.free_pages_spec hb
    have hbs' : bs.Subperm (s.outstanding.erase b) := by
      have := hbs.erase b
      rwa [List.erase_cons_head] at this
    obtain ⟨t, hr, hout, hG⟩ := ih hi' hbs'
    refine ⟨t, .cons hb ?_ hr, ?_, hG⟩
    · show (free_pages nr b.base b.order s.mem).map _ = _
      rw [he]
      rfl
    · rw [hout, List.diff_cons]

theorem Inv.free_perm (hi : Inv ty s F) {bs cs : List Block} (hp : bs.Perm cs)
    (hbs : bs.Subperm s.outstanding) :
    ∃ t u, (system nr).Run s (bs.map Call.free_pages) t ∧
      (system nr).Run s (cs.map Call.free_pages) u ∧ SameLists nr t.mem u.mem := by
  obtain ⟨t, hrt, hout, G, hG⟩ := hi.free_all bs hbs
  obtain ⟨u, hru, hout', G', hG'⟩ := hi.free_all cs (hp.symm.subperm.trans hbs)
  refine ⟨t, u, hrt, hru, hG.sameLists hG' ?_⟩
  rw [hout, hout', List.Perm.diff_left _ hp]

theorem Inv.free_allocated (hi : Inv ty s F) {order : Int} {p : ℕ} (hlo : -2 ^ 31 ≤ order)
    (hhi : order < 2 ^ 31) (he : alloc_pages nr order s.mem = .ok (some p, h')) :
    ∃ h'', free_pages nr p order.toNat h' = .ok ((), h'') ∧ SameLists nr s.mem h'' := by
  obtain ⟨-, F', hi', -⟩ := returns_ok (hi.alloc_pages_spec hlo hhi) he
  obtain ⟨_, h'', he', F'', hi''⟩ := hi'.free_pages_spec List.mem_cons_self
  refine ⟨h'', he', hi.sameLists hi'' ?_⟩
  simp

/-- After a run from the start, reserved pages included. -/
theorem free_everything {cs : List Call} {bs : List Block} (hs : (system nr).start s)
    (hr : (system nr).Run s cs t) (hbs : bs.Perm t.outstanding) :
    ∃ u, (system nr).Run t (bs.map Call.free_pages) u ∧ SameLists nr s.mem u.mem := by
  obtain ⟨ty, F, hi, -, hout⟩ := start_inv hs
  obtain ⟨F', hi'⟩ := run_inv hr hi
  obtain ⟨u, hru, hout', G, hG⟩ := hi'.free_all bs hbs.subperm
  refine ⟨u, hru, hi.sameLists hG ?_⟩
  have hrest : t.outstanding.diff bs = [] := by
    have := (List.subperm_append_diff_self_of_count_le fun x _ => (hbs.count_eq x).le).length_eq
    rw [List.length_append, hbs.length_eq] at this
    exact List.eq_nil_of_length_eq_zero (by omega)
  rw [hout, hout', hrest]

theorem free_order_independent (nr : ℕ) :
    (∀ s, (system nr).Reachable s → ∀ bs cs : List Block, bs.Perm cs →
      bs.Subperm s.outstanding → ∃ t u, (system nr).Run s (bs.map Call.free_pages) t ∧
        (system nr).Run s (cs.map Call.free_pages) u ∧ SameLists nr t.mem u.mem) ∧
    (∀ s, (system nr).Reachable s → ∀ order p h', -2 ^ 31 ≤ order → order < 2 ^ 31 →
      alloc_pages nr order s.mem = .ok (some p, h') →
      ∃ h'', free_pages nr p order.toNat h' = .ok ((), h'') ∧ SameLists nr s.mem h'') ∧
    ∀ s₀ cs s, (system nr).start s₀ → (system nr).Run s₀ cs s → ∀ bs : List Block,
      bs.Perm s.outstanding →
      ∃ t, (system nr).Run s (bs.map Call.free_pages) t ∧ SameLists nr s₀.mem t.mem := by
  refine ⟨fun s hs bs cs hp hbs => ?_, fun s hs order p h' hlo hhi he => ?_, ?_⟩
  · obtain ⟨ty, F, hi⟩ := reachable_inv hs
    exact hi.free_perm hp hbs
  · obtain ⟨ty, F, hi⟩ := reachable_inv hs
    exact hi.free_allocated hlo hhi he
  · intro s₀ cs s h0 hr bs hbs
    exact free_everything h0 hr hbs

theorem free_order_three : ∃ s t u, boot 3 [.alloc_pages 0, .alloc_pages 1] = some s ∧
    (system 3).Run s [.free_pages ⟨2, 0⟩, .free_pages ⟨0, 1⟩] t ∧
    (system 3).Run s [.free_pages ⟨0, 1⟩, .free_pages ⟨2, 0⟩] u ∧ SameLists 3 t.mem u.mem := by
  have hout : (boot 3 [.alloc_pages 0, .alloc_pages 1]).map State.outstanding =
      some [⟨0, 1⟩, ⟨2, 0⟩] := by decide +kernel
  obtain ⟨s, hs, hb⟩ := Option.map_eq_some_iff.mp hout
  have hswap : List.Perm [⟨2, 0⟩, ⟨0, 1⟩] [(⟨0, 1⟩ : Block), ⟨2, 0⟩] := List.Perm.swap ..
  obtain ⟨t, u, ht, hu, hsame⟩ := (free_order_independent 3).1 s (boot_reachable hs) _ _ hswap
    (by rw [hb]; exact hswap.subperm)
  exact ⟨s, t, u, hs, ht, hu, hsame⟩

end Infos.Buddy
