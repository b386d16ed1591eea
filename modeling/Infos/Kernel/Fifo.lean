import Infos.Kernel.RoundRobin

/-!
# First in, first run

What the history of the calls says about the run queue, and that the entity that came first is
picked until it is removed.
-/

namespace Infos.Kernel.FIFOScheduler

open Infos.Commons
open RoundRobinScheduler (Call)

variable {T : Type}

/-! ## The history -/

/-- `x` is queued, and the call number `k` is its latest `add_to_runqueue`. -/
def Arrived (cs : List (Call T)) (x : T) (k : ℕ) : Prop :=
  cs[k]? = some (.add_to_runqueue x) ∧ ∀ j, k < j →
    cs[j]? ≠ some (.add_to_runqueue x) ∧ cs[j]? ≠ some (.remove_from_runqueue x)

/-- No entity is added while it is queued. -/
def Once (cs : List (Call T)) : Prop :=
  ∀ ds x, ds ++ [.add_to_runqueue x] <+: cs → ∀ k, ¬Arrived ds x k

/-- The queued entity whose latest `add_to_runqueue` is the earliest. -/
def Earliest (cs : List (Call T)) (e : T) : Prop :=
  ∃ k, Arrived cs e k ∧ ∀ x j, Arrived cs x j → k ≤ j

variable {cs : List (Call T)} {c : Call T} {x e : T} {j k : ℕ} {l l' : List T}

theorem Arrived.lt (h : Arrived cs x k) : k < cs.length :=
  (List.getElem?_eq_some_iff.mp h.1).1

theorem Arrived.unique (h : Arrived cs x j) (h' : Arrived cs x k) : j = k := by
  rcases Nat.lt_trichotomy j k with hlt | heq | hlt
  · exact absurd h'.1 (h.2 k hlt).1
  · exact heq
  · exact absurd h.1 (h'.2 j hlt).1

theorem not_arrived_nil (k : ℕ) : ¬Arrived [] x k := by
  unfold Arrived
  simp

theorem arrived_append : Arrived (cs ++ [c]) x k ↔
    (c = .add_to_runqueue x ∧ k = cs.length) ∨
      (Arrived cs x k ∧ c ≠ .add_to_runqueue x ∧ c ≠ .remove_from_runqueue x) := by
  unfold Arrived
  constructor
  · rintro ⟨hk, hlater⟩
    rcases Nat.lt_trichotomy k cs.length with hlt | rfl | hgt
    · rw [List.getElem?_append_left hlt] at hk
      have hc := hlater cs.length hlt
      simp only [List.getElem?_concat_length, ne_eq, Option.some.injEq] at hc
      refine .inr ⟨⟨hk, fun j hj => ?_⟩, hc⟩
      have hj := hlater j hj
      rcases Nat.lt_or_ge j cs.length with hlen | hlen
      · rwa [List.getElem?_append_left hlen] at hj
      · simp [List.getElem?_eq_none hlen]
    · exact .inl ⟨by simpa using hk, rfl⟩
    · rw [List.getElem?_eq_none (by simp; omega)] at hk
      cases hk
  · rintro (⟨rfl, rfl⟩ | ⟨⟨hk, hlater⟩, hc⟩)
    · refine ⟨by simp, fun j hj => ?_⟩
      rw [List.getElem?_eq_none (by simp; omega)]
      simp
    · have hlt := (List.getElem?_eq_some_iff.mp hk).1
      refine ⟨by rwa [List.getElem?_append_left hlt], fun j hj => ?_⟩
      rcases Nat.lt_trichotomy j cs.length with hlen | rfl | hlen
      · rw [List.getElem?_append_left hlen]
        exact hlater j hj
      · simpa using hc
      · rw [List.getElem?_eq_none (by simp; omega)]
        simp

theorem once_nil : Once ([] : List (Call T)) := by
  intro ds x hds
  simp at hds

theorem once_append : Once (cs ++ [c]) ↔
    Once cs ∧ ∀ x, c = .add_to_runqueue x → ∀ k, ¬Arrived cs x k := by
  unfold Once
  simp only [List.prefix_concat_iff, List.append_singleton_inj]
  constructor
  · intro h
    refine ⟨fun ds x hds => h ds x (.inr hds), ?_⟩
    rintro x rfl
    exact h cs x (.inl ⟨rfl, rfl⟩)
  · rintro ⟨h, hc⟩ ds x (⟨rfl, rfl⟩ | hds)
    · exact hc x rfl
    · exact h ds x hds

theorem Once.of_prefix {ds : List (Call T)} (h : Once cs) (hds : ds <+: cs) : Once ds :=
  fun before x hx => h before x (hx.trans hds)

/-! ## The run queue of a history -/

/-- `l` holds the queued entities, those that came earlier first. -/
structure InOrder (cs : List (Call T)) (l : List T) : Prop where
  mem : ∀ x, x ∈ l ↔ ∃ k, Arrived cs x k
  order : l.Pairwise fun x y => ∀ j k, Arrived cs x j → Arrived cs y k → j < k

theorem inOrder_nil : InOrder ([] : List (Call T)) [] where
  mem x := by simp [not_arrived_nil]
  order := .nil

theorem inOrder_add (h : InOrder cs l) (hx : ∀ k, ¬Arrived cs x k) :
    InOrder (cs ++ [.add_to_runqueue x]) (l ++ [x]) := by
  have hne : ∀ y ∈ l, x ≠ y := by
    rintro y hy rfl
    obtain ⟨k, hk⟩ := (h.mem x).mp hy
    exact hx k hk
  -- those that were queued before keep their places, and `x` comes behind them
  have hold : ∀ y ∈ l, ∀ j, Arrived (cs ++ [.add_to_runqueue x]) y j ↔ Arrived cs y j := by
    intro y hy j
    rw [arrived_append]
    simp [hne y hy]
  have hnew : ∀ k, Arrived (cs ++ [.add_to_runqueue x]) x k ↔ k = cs.length := by
    intro k
    rw [arrived_append]
    simp [hx]
  refine ⟨fun y => ?_, List.pairwise_append.mpr ⟨?_, List.pairwise_singleton _ _, ?_⟩⟩
  · rw [List.mem_append, List.mem_singleton, h.mem]
    simp only [arrived_append]
    constructor
    · rintro (⟨k, hk⟩ | rfl)
      · exact ⟨k, .inr ⟨hk, by simpa using hne y ((h.mem y).mpr ⟨k, hk⟩), by simp⟩⟩
      · exact ⟨_, .inl ⟨rfl, rfl⟩⟩
    · rintro ⟨k, ⟨heq, -⟩ | ⟨hk, -⟩⟩
      · cases heq
        exact .inr rfl
      · exact .inl ⟨k, hk⟩
  · refine h.order.imp_of_mem fun hy hz hyz j k => ?_
    rw [hold _ hy, hold _ hz]
    exact hyz j k
  · simp only [List.mem_singleton]
    rintro y hy _ rfl j k
    rw [hold y hy, hnew]
    rintro hj rfl
    exact hj.lt

/-- A call that adds nothing leaves the rest of the entities as they stood. -/
theorem inOrder_sublist (h : InOrder cs l) (hl : l'.Sublist l)
    (hadd : ∀ x, c ≠ .add_to_runqueue x)
    (hmem : ∀ x, x ∈ l' ↔ x ∈ l ∧ c ≠ .remove_from_runqueue x) : InOrder (cs ++ [c]) l' := by
  have hiff : ∀ x k, Arrived (cs ++ [c]) x k ↔ Arrived cs x k ∧ c ≠ .remove_from_runqueue x := by
    intro x k
    rw [arrived_append]
    simp [hadd]
  refine ⟨fun x => ?_, (h.order.sublist hl).imp fun hxy j k => ?_⟩
  · simp only [hmem, h.mem, hiff]
    simp
  · rw [hiff, hiff]
    rintro ⟨hj, -⟩ ⟨hk, -⟩
    exact hxy j k hj hk

theorem InOrder.head_iff (h : InOrder cs l) : l.head? = some e ↔ Earliest cs e := by
  unfold Earliest
  constructor
  · intro he
    obtain ⟨l, rfl⟩ := List.head?_eq_some_iff.mp he
    obtain ⟨k, hk⟩ := (h.mem e).mp List.mem_cons_self
    refine ⟨k, hk, fun x j hj => ?_⟩
    rcases List.mem_cons.mp ((h.mem x).mpr ⟨j, hj⟩) with rfl | hx
    · exact (hk.unique hj).le
    · exact (List.rel_of_pairwise_cons h.order hx k j hk hj).le
  · rintro ⟨k, hk, hmin⟩
    have he := (h.mem e).mpr ⟨k, hk⟩
    cases l with
    | nil => simp at he
    | cons f l =>
      rcases List.mem_cons.mp he with rfl | he
      · rfl
      · obtain ⟨j, hj⟩ := (h.mem f).mp List.mem_cons_self
        have hlt := List.rel_of_pairwise_cons h.order he j k hj hk
        have hle := hmin f j hj
        omega

theorem InOrder.null_iff (h : InOrder cs l) : l.head? = none ↔ ∀ x k, ¬Arrived cs x k := by
  rw [List.head?_eq_none_iff, List.eq_nil_iff_forall_not_mem]
  simp only [h.mem, not_exists]

/-! ## The scheduler -/

variable [DecidableEq T] {q : RingList T}

/-- One call, with the entity that it picks. -/
def call : Call T → RingList T → Option T × RingList T
  | .add_to_runqueue entity, q => (none, (FIFOScheduler T).add entity q)
  | .remove_from_runqueue entity, q => (none, (FIFOScheduler T).remove entity q)
  | .pick_next_entity, q => (FIFOScheduler T).pick q

def after : List (Call T) → RingList T → RingList T
  | [], q => q
  | c :: cs, q => after cs (call c q).2

/-- What `pick_next_entity` returns after these calls on a new scheduler. -/
def picked (cs : List (Call T)) : Option T :=
  (call .pick_next_entity (after cs RingList.empty)).1

structure InArrivalOrder (cs : List (Call T)) : Prop where
  earliest : ∀ ds, ds ++ [.pick_next_entity] <+: cs → ∀ e, picked ds = some e ↔ Earliest ds e
  null : ∀ ds, ds ++ [.pick_next_entity] <+: cs → (picked ds = none ↔ ∀ x k, ¬Arrived ds x k)
  keeps : ∀ ds between e, ds ++ .pick_next_entity :: (between ++ [.pick_next_entity]) <+: cs →
    picked ds = some e → .remove_from_runqueue e ∉ between →
    picked (ds ++ .pick_next_entity :: between) = some e

theorem after_append (cs ds : List (Call T)) (q : RingList T) :
    after (cs ++ ds) q = after ds (after cs q) := by
  induction cs generalizing q with
  | nil => rfl
  | cons c cs ih => exact ih _

theorem call_pick (q : RingList T) :
    (call .pick_next_entity q).1 = q.toList.head? ∧
      (call .pick_next_entity q).2.toList = q.toList :=
  (FIFOScheduler T).pick_toList q

theorem inOrder_call (h : InOrder cs q.toList)
    (hc : ∀ x, c = .add_to_runqueue x → ∀ k, ¬Arrived cs x k) :
    InOrder (cs ++ [c]) (call c q).2.toList := by
  cases c with
  | add_to_runqueue x =>
    unfold call
    rw [(FIFOScheduler T).add_toList]
    exact inOrder_add h (hc x rfl)
  | remove_from_runqueue x =>
    unfold call
    rw [(FIFOScheduler T).remove_toList]
    unfold without
    refine inOrder_sublist h List.filter_sublist (by simp) fun y => ?_
    simp [@eq_comm _ x]
  | pick_next_entity =>
    rw [(call_pick q).2]
    exact inOrder_sublist h (List.Sublist.refl _) (by simp) (by simp)

/-- The run queue is what the history says. -/
theorem inOrder_after (once : Once cs) : InOrder cs (after cs RingList.empty).toList := by
  induction cs using List.reverseRecOn with
  | nil => exact inOrder_nil
  | append_singleton cs c ih =>
    obtain ⟨once, hc⟩ := once_append.mp once
    rw [after_append]
    exact inOrder_call (ih once) hc

/-- The first entity stays the first one until it is removed. -/
theorem head_call (h : q.toList.head? = some e) (hc : c ≠ .remove_from_runqueue e) :
    (call c q).2.toList.head? = some e := by
  obtain ⟨l, hl⟩ := List.head?_eq_some_iff.mp h
  cases c with
  | add_to_runqueue x =>
    unfold call
    rw [(FIFOScheduler T).add_toList, hl]
    rfl
  | remove_from_runqueue x =>
    have hx : e ≠ x := by
      rintro rfl
      exact hc rfl
    unfold call
    rw [(FIFOScheduler T).remove_toList, hl]
    unfold without
    rw [List.filter_cons_of_pos (by simpa using hx)]
    rfl
  | pick_next_entity =>
    rw [(call_pick q).2]
    exact h

theorem head_after (h : q.toList.head? = some e) (hcs : .remove_from_runqueue e ∉ cs) :
    (after cs q).toList.head? = some e := by
  induction cs generalizing q with
  | nil => exact h
  | cons c cs ih =>
    rw [List.mem_cons, not_or] at hcs
    exact ih (head_call h (Ne.symm hcs.1)) hcs.2

/-- The entity that came first runs until it is removed. -/
theorem arrival_order (once : Once cs) : InArrivalOrder cs where
  earliest ds hds e := by
    unfold picked
    rw [(call_pick _).1]
    exact (inOrder_after (once.of_prefix ((List.prefix_append _ _).trans hds))).head_iff
  null ds hds := by
    unfold picked
    rw [(call_pick _).1]
    exact (inOrder_after (once.of_prefix ((List.prefix_append _ _).trans hds))).null_iff
  keeps ds between e _ he hbetween := by
    unfold picked at he ⊢
    rw [(call_pick _).1] at he ⊢
    rw [after_append]
    exact head_after he (by simpa using hbetween)

/-- The first entity goes and comes back behind the second one. -/
theorem arrival_order_again : picked [.add_to_runqueue 1, .add_to_runqueue 2, .pick_next_entity,
      .remove_from_runqueue 1, .add_to_runqueue 1] = some 2 ∧
    InArrivalOrder [.add_to_runqueue 1, .add_to_runqueue 2, .pick_next_entity,
      .remove_from_runqueue 1, .add_to_runqueue 1, .pick_next_entity] := by
  refine ⟨by decide, arrival_order ?_⟩
  have h := @once_nil ℕ
  have h := (once_append (c := .add_to_runqueue 1)).mpr ⟨h, fun x _ => not_arrived_nil⟩
  have h := (once_append (c := .add_to_runqueue 2)).mpr ⟨h, by
    rintro x ⟨⟩ k
    simp only [arrived_append, not_arrived_nil k]
    simp⟩
  have h := (once_append (c := .pick_next_entity)).mpr ⟨h, by simp⟩
  have h := (once_append (c := .remove_from_runqueue 1)).mpr ⟨h, by simp⟩
  have h := (once_append (c := .add_to_runqueue 1)).mpr ⟨h, by
    rintro x ⟨⟩ k
    simp only [arrived_append, not_arrived_nil k]
    simp⟩
  exact (once_append (c := .pick_next_entity)).mpr ⟨h, by simp⟩

end Infos.Kernel.FIFOScheduler
