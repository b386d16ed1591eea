import Infos.Kernel.Algorithms

/-!
# Every entity gets its turn

Between two picks of one entity the others are picked once each. Of two entities in the run queue,
the one that was picked last stands behind the other.
-/

namespace Infos.Kernel.RoundRobinScheduler

open Infos.Commons

variable {T : Type} [DecidableEq T]

inductive Call (T : Type) where
  | add_to_runqueue (entity : T)
  | remove_from_runqueue (entity : T)
  | pick_next_entity
  deriving DecidableEq

/-- One call, with the entity that it picks. -/
def call : Call T → RingList T → Option T × RingList T
  | .add_to_runqueue entity, q => (none, (RoundRobinScheduler T).add entity q)
  | .remove_from_runqueue entity, q => (none, (RoundRobinScheduler T).remove entity q)
  | .pick_next_entity, q => (RoundRobinScheduler T).pick q

def after : List (Call T) → RingList T → RingList T
  | [], q => q
  | c :: cs, q => after cs (call c q).2

/-- The entities that are picked, in order. -/
def picks : List (Call T) → RingList T → List T
  | [], _ => []
  | c :: cs, q => (call c q).1.toList ++ picks cs (call c q).2

theorem after_append (cs ds : List (Call T)) (q : RingList T) :
    after (cs ++ ds) q = after ds (after cs q) := by
  induction cs generalizing q with
  | nil => rfl
  | cons c cs ih => exact ih _

theorem call_pick (q : RingList T) :
    (call .pick_next_entity q).1 = q.toList.head? ∧
      (call .pick_next_entity q).2.toList = q.toList.rotate 1 :=
  (RoundRobinScheduler T).pick_toList q

/-! ## Turns -/

/-- `x` and `e` are queued, and `x` comes first, once it has been picked `n` times. -/
def Turn (x e : T) (q : RingList T) (n : ℕ) : Prop :=
  ([x, e].Sublist q.toList ∧ n = 0) ∨ ([e, x].Sublist q.toList ∧ n = 1)

variable {x e y : T} {q : RingList T} {n : ℕ}

theorem turn_add (h : Turn x e q n) : Turn x e ((RoundRobinScheduler T).add y q) n := by
  unfold Turn at *
  rw [(RoundRobinScheduler T).add_toList]
  exact h.imp (.imp_left fun h => h.trans (List.sublist_append_left _ _))
    (.imp_left fun h => h.trans (List.sublist_append_left _ _))

theorem turn_remove (h : Turn x e q n) (hx : x ≠ y) (he : e ≠ y) :
    Turn x e ((RoundRobinScheduler T).remove y q) n := by
  unfold Turn at *
  rw [(RoundRobinScheduler T).remove_toList]
  unfold without
  refine h.imp (.imp_left fun h => ?_) (.imp_left fun h => ?_)
  · simpa [hx, he] using h.filter fun z => z ≠ y
  · simpa [hx, he] using h.filter fun z => z ≠ y

/-- Where the one that is picked is not `e`. -/
theorem turn_pick (h : Turn x e q n) (hnd : q.toList.Nodup) (hxe : x ≠ e)
    (he : (call .pick_next_entity q).1 ≠ some e) :
    Turn x e (call .pick_next_entity q).2
      ((call .pick_next_entity q).1.toList.count x + n) := by
  obtain ⟨hp, hq⟩ := call_pick q
  unfold Turn at *
  rw [hp] at he ⊢
  rw [hq]
  cases hl : q.toList with
  | nil => simp [hl] at h
  | cons f l =>
    rw [hl] at h hnd he
    rw [List.nodup_cons] at hnd
    simp only [List.head?_cons, ne_eq, Option.some.injEq] at he
    simp only [List.head?_cons, Option.toList_some, List.count_singleton, beq_iff_eq,
      List.rotate_cons_succ, List.rotate_zero]
    rcases h with ⟨hs, rfl⟩ | ⟨hs, rfl⟩
    · cases hs with
      | cons _ hs =>
        have hfx : f ≠ x := by
          rintro rfl
          exact hnd.1 (hs.subset (by simp))
        exact .inl ⟨hs.trans (List.sublist_append_left _ _), by simp [hfx]⟩
      | cons_cons _ hs =>
        exact .inr ⟨hs.append (List.Sublist.refl [x]), by simp⟩
    · cases hs with
      | cons _ hs =>
        have hfx : f ≠ x := by
          rintro rfl
          exact hnd.1 (hs.subset (by simp))
        exact .inr ⟨hs.trans (List.sublist_append_left _ _), by simp [hfx]⟩
      | cons_cons _ hs => exact absurd rfl he

/-- The turn over a history that neither picks `e` nor removes one of the two. -/
theorem turn_after {cs : List (Call T)} (h : Turn x e q n) (hxe : x ≠ e)
    (hnd : ∀ ds, ds <+: cs → (after ds q).toList.Nodup) (hpick : e ∉ picks cs q)
    (hx : ∀ ds, ds <+: cs → x ∈ (after ds q).toList)
    (he : .remove_from_runqueue e ∉ cs) : Turn x e (after cs q) ((picks cs q).count x + n) := by
  induction cs generalizing q n with
  | nil => simpa [picks, after] using h
  | cons c cs ih =>
    unfold picks at hpick ⊢
    rw [List.mem_append, not_or] at hpick
    rw [List.mem_cons, not_or] at he
    have hstep : Turn x e (call c q).2 ((call c q).1.toList.count x + n) := by
      cases c with
      | add_to_runqueue y => simpa [call] using turn_add h
      | remove_from_runqueue y =>
        have hxy : x ≠ y := by
          rintro rfl
          have := hx [.remove_from_runqueue x] (by simp)
          simp only [after, call, (RoundRobinScheduler T).remove_toList, without] at this
          simp at this
        have hey : e ≠ y := by
          rintro rfl
          exact he.1 rfl
        simpa [call] using turn_remove h hxy hey
      | pick_next_entity =>
        refine turn_pick h (hnd [] (List.nil_prefix)) hxe fun heq => hpick.1 ?_
        rw [heq]
        exact List.mem_singleton_self e
    rw [List.count_append, Nat.add_comm (List.count x _), Nat.add_assoc]
    exact ih hstep (fun ds hds => hnd (c :: ds) (List.cons_prefix_cons.mpr ⟨rfl, hds⟩)) hpick.2
      (fun ds hds => hx (c :: ds) (List.cons_prefix_cons.mpr ⟨rfl, hds⟩)) he.2

/-- Every entity that is queued is picked once between two picks of another. -/
theorem picked_once {before between : List (Call T)} {e x : T} (hxe : x ≠ e)
    (once : ∀ cs, cs <+: before ++ .pick_next_entity :: (between ++ [.pick_next_entity]) →
      (after cs RingList.empty).toList.Nodup)
    (first : (call .pick_next_entity (after before RingList.empty)).1 = some e)
    (last : (call .pick_next_entity
      (after (before ++ .pick_next_entity :: between) RingList.empty)).1 = some e)
    (consecutive : e ∉ picks between (after (before ++ [.pick_next_entity]) RingList.empty))
    (never_removed : .remove_from_runqueue e ∉ between)
    (stays : ∀ cs, cs <+: between →
      x ∈ (after (before ++ .pick_next_entity :: cs) RingList.empty).toList) :
    (picks between (after (before ++ [.pick_next_entity]) RingList.empty)).count x = 1 := by
  have hafter : ∀ cs, after (before ++ .pick_next_entity :: cs) RingList.empty =
      after cs (after (before ++ [.pick_next_entity]) RingList.empty) := by
    intro cs
    rw [← after_append, List.append_assoc, List.singleton_append]
  have hprefix : ∀ cs, cs <+: between ++ [.pick_next_entity] →
      (after cs (after (before ++ [.pick_next_entity]) RingList.empty)).toList.Nodup := by
    intro cs hcs
    rw [← hafter]
    exact once _ ((List.prefix_append_right_inj _).mpr (List.cons_prefix_cons.mpr ⟨rfl, hcs⟩))
  -- `e` is the last of the queue now, behind `x`
  obtain ⟨hp, hq⟩ := call_pick (after before RingList.empty)
  have hturn : Turn x e (after (before ++ [.pick_next_entity]) RingList.empty) 0 := by
    refine .inl ⟨?_, rfl⟩
    have hx := stays [] (List.nil_prefix)
    rw [after_append] at hx ⊢
    simp only [after, hq] at hx ⊢
    rw [hp] at first
    cases hl : (after before RingList.empty).toList with
    | nil => simp [hl] at hx
    | cons f l =>
      rw [hl] at first hx
      obtain rfl : f = e := by simpa using first
      rw [List.rotate_cons_succ, List.rotate_zero] at hx ⊢
      have hxl : x ∈ l := by simpa [hxe] using hx
      exact (List.singleton_sublist.mpr hxl).append (List.Sublist.refl [f])
  have hend := turn_after hturn hxe
    (fun cs hcs => hprefix cs (hcs.trans (List.prefix_append _ _))) consecutive
    (fun cs hcs => by
      rw [← hafter]
      exact stays cs hcs) never_removed
  rw [hafter] at last
  have hnd := hprefix between (List.prefix_append _ _)
  generalize after between (after (before ++ [.pick_next_entity]) RingList.empty) = q at *
  rcases hend with ⟨hs, -⟩ | ⟨-, hn⟩
  · -- `e` is picked before its turn
    rw [(call_pick q).1] at last
    cases hl : q.toList with
    | nil => simp [hl] at last
    | cons f l =>
      rw [hl] at hs last hnd
      obtain rfl : f = e := by simpa using last
      cases hs with
      | cons _ hs => exact absurd (hs.subset (by simp)) (List.nodup_cons.mp hnd).1
      | cons_cons _ hs => exact absurd rfl hxe
  · exact hn

theorem picked_once_of_two : (picks [.pick_next_entity] (after [.add_to_runqueue 0,
    .add_to_runqueue 1, .pick_next_entity] (RingList.empty : RingList ℕ))).count 1 = 1 := by
  refine @picked_once ℕ _ [.add_to_runqueue 0, .add_to_runqueue 1] [.pick_next_entity] 0 1
    (by decide) ?_ (by decide) (by decide) (by decide) (by decide) ?_
  · simp only [← List.mem_inits]
    decide
  · simp only [← List.mem_inits]
    decide

end Infos.Kernel.RoundRobinScheduler
