import Infos.Lib.System
import Infos.Util.ListEdits

/-!
# Lists are sequences

Whatever is done with any number of lists, each answers as a sequence does, no node is used that was
given back, and every node in use is in a list.
-/

open Infos.Prog Infos.PtrList

namespace Infos.Util.Lists

variable {κ T : Type} {m m' : Heap κ T} {k r : κ} {cells a b : List (Cell T)} {c : Cell T}
  {E : Fault → Prop}

/-! ## Cells and sequences -/

/-- The elements of the cells. -/
def view (C : κ → Option (List (Cell T))) : κ → Option (List T) :=
  fun k => (C k).map (List.map Prod.snd)

variable {C : κ → Option (List (Cell T))}

theorem view_some (h : C k = some cells) : view C k = some (cells.map Prod.snd) := by
  unfold view
  rw [h, Option.map_some]

theorem Holds.some_of (h : Holds m C) (hk : (m.list k).isSome) : ∃ cells, C k = some cells := by
  have hhas := h.has k
  cases hC : C k with
  | none =>
    rw [hC] at hhas
    rw [hhas] at hk
    cases hk
  | some cells => exact ⟨cells, rfl⟩

theorem Holds.none_of (h : Holds m C) (hk : m.list k = none) : C k = none := by
  have hhas := h.has k
  cases hC : C k with
  | none => rfl
  | some cells =>
    rw [hC] at hhas
    have hsome := hhas.1.object
    rw [hk] at hsome
    cases hsome

/-! ## Reading a list -/

theorem iterate_spec (hl : IsList m k (a ++ b)) {rounds : ℕ} (hrounds : b.length < rounds) :
    Ends (iterate rounds (b.map Prod.fst).head?) m
      (fun l m' => l = b.map Prod.snd ∧ m' = m) E := by
  induction b generalizing a rounds with
  | nil =>
    obtain ⟨rounds, rfl⟩ := Nat.exists_eq_succ_of_ne_zero (Nat.pos_iff_ne_zero.mp hrounds)
    exact ⟨rfl, rfl⟩
  | cons c b ih =>
    obtain ⟨rounds, rfl⟩ := Nat.exists_eq_succ_of_ne_zero (Nat.ne_zero_of_lt hrounds)
    have hhead : ((c :: b).map Prod.fst).head? = some c.1 := rfl
    rw [hhead]
    unfold iterate
    dsimp only
    rw [ends_bind, ends_deref hl.node, ends_bind]
    refine ends_mono (ih (a := a ++ [c]) (by simpa using hl) (Nat.lt_of_succ_lt_succ hrounds)) ?_
    rintro l _ ⟨rfl, rfl⟩
    exact ⟨rfl, rfl⟩

theorem last_loop_spec (hl : IsList m k (a ++ c :: b)) {rounds : ℕ} (hrounds : b.length < rounds) :
    Ends (last_loop rounds c.1) m
      (fun x m' => ((c :: b).map Prod.snd).getLast? = some x ∧ m' = m) E := by
  induction b generalizing a c rounds with
  | nil =>
    obtain ⟨rounds, rfl⟩ := Nat.exists_eq_succ_of_ne_zero (Nat.pos_iff_ne_zero.mp hrounds)
    unfold last_loop
    rw [ends_bind, ends_deref hl.node]
    exact ⟨rfl, rfl⟩
  | cons d b ih =>
    obtain ⟨rounds, rfl⟩ := Nat.exists_eq_succ_of_ne_zero (Nat.ne_zero_of_lt hrounds)
    have hhead : ((d :: b).map Prod.fst).head? = some d.1 := rfl
    unfold last_loop
    rw [ends_bind, ends_deref hl.node, hhead]
    refine ends_mono (ih (a := a ++ [c]) (by simpa using hl) (Nat.lt_of_succ_lt_succ hrounds)) ?_
    rintro x _ ⟨hx, rfl⟩
    refine ⟨?_, rfl⟩
    rw [List.map_cons, List.map_cons, List.getLast?_cons_cons]
    exact hx

/-- What is `index` behind the place that the loop is at. -/
def ahead (l : List T) (index : ℤ) : Option T := if 0 ≤ index then l[index.toNat]? else none

theorem at_loop_spec (index : Int32) (hl : IsList m k (a ++ b)) {rounds : ℕ}
    (hrounds : b.length < rounds) (ctr : ℤ) :
    Ends (at_loop index rounds ctr (b.map Prod.fst).head?) m
      (fun x m' => ahead (b.map Prod.snd) (index.toInt - ctr) = some x ∧ m' = m)
      (fun e => ahead (b.map Prod.snd) (index.toInt - ctr) = none ∧
        (e = .assertion ∨ e = .overflow)) := by
  have hmax : index.toInt < 2 ^ 31 := index.toInt_lt
  induction b generalizing a rounds ctr with
  | nil =>
    obtain ⟨rounds, rfl⟩ := Nat.exists_eq_succ_of_ne_zero (Nat.pos_iff_ne_zero.mp hrounds)
    refine ⟨?_, .inl rfl⟩
    unfold ahead
    split <;> rfl
  | cons c b ih =>
    obtain ⟨rounds, rfl⟩ := Nat.exists_eq_succ_of_ne_zero (Nat.ne_zero_of_lt hrounds)
    have hhead : ((c :: b).map Prod.fst).head? = some c.1 := rfl
    rw [hhead]
    unfold at_loop
    refine ends_ite (fun hhere => ?_) fun hnot => ?_
    · rw [ends_bind, ends_deref hl.node, hhere, Int.sub_self]
      exact ⟨rfl, rfl⟩
    · -- One step on, the index is one less far behind.
      have hstep : ahead ((c :: b).map Prod.snd) (index.toInt - ctr) =
          ahead (b.map Prod.snd) (index.toInt - (ctr + 1)) := by
        unfold ahead
        by_cases hle : 0 ≤ index.toInt - (ctr + 1)
        · rw [if_pos (by omega), if_pos hle,
            show (index.toInt - ctr).toNat = (index.toInt - (ctr + 1)).toNat + 1 by omega]
          rfl
        · rw [if_neg (by omega), if_neg hle]
      rw [hstep, ends_bind, ends_deref hl.node]
      by_cases hover : ctr = 2 ^ 31 - 1
      · rw [if_pos hover]
        refine ⟨?_, .inr rfl⟩
        unfold ahead
        exact if_neg (by omega)
      · rw [if_neg hover]
        exact ih (a := a ++ [c]) (by simpa using hl) (Nat.lt_of_succ_lt_succ hrounds) _

theorem first_spec (h : Has m k (some cells)) : Ends (first k) m
    (fun x m' => (cells.map Prod.snd).head? = some x ∧ m' = m)
    (fun e => (cells.map Prod.snd).head? = none ∧ (e = .assertion ∨ e = .overflow)) := by
  obtain ⟨o, ho, helems⟩ := h.1.elems
  unfold first
  rw [ends_bind, ends_object ho, helems]
  cases cells with
  | nil => exact ⟨rfl, .inl rfl⟩
  | cons c cells =>
    have hfront : IsList m k ([] ++ c :: cells) := h.1
    show Ends (do pure (← deref c.1).Data) m _ _
    rw [ends_bind, ends_deref hfront.node]
    exact ⟨rfl, rfl⟩

theorem last_spec (h : Has m k (some cells)) : Ends (last k) m
    (fun x m' => (cells.map Prod.snd).getLast? = some x ∧ m' = m)
    (fun e => (cells.map Prod.snd).getLast? = none ∧ (e = .assertion ∨ e = .overflow)) := by
  obtain ⟨o, ho, helems⟩ := h.1.elems
  unfold last
  rw [ends_bind, ends_object ho, helems]
  cases cells with
  | nil => exact ⟨rfl, .inl rfl⟩
  | cons c cells =>
    have hfront : IsList m k ([] ++ c :: cells) := h.1
    exact last_loop_spec hfront (Nat.lt_of_succ_lt h.1.rounds)

theorem at_index_spec (index : Int32) (h : Has m k (some cells)) : Ends (at_index k index) m
    (fun x m' => ahead (cells.map Prod.snd) index.toInt = some x ∧ m' = m)
    (fun e => ahead (cells.map Prod.snd) index.toInt = none ∧ (e = .assertion ∨ e = .overflow)) := by
  obtain ⟨o, ho, helems⟩ := h.1.elems
  have hall : IsList m k ([] ++ cells) := h.1
  have hloop := at_loop_spec index hall h.1.rounds 0
  rw [Int.sub_zero] at hloop
  unfold at_index
  rw [ends_bind, ends_object ho, helems]
  exact hloop

theorem count_spec (h : Has m k (some cells)) : Ends (count k) m
    (fun n m' => some (UInt32.ofNat cells.length) = some n ∧ m' = m) E := by
  obtain ⟨o, ho, -⟩ := h.1.elems
  have hcount := h.2
  rw [ho] at hcount
  unfold count
  rw [ends_bind, ends_object ho]
  exact ⟨hcount.symm, rfl⟩

theorem empty_spec (h : Has m k (some cells)) : Ends (empty k) m
    (fun b m' => some (UInt32.ofNat cells.length == 0) = some b ∧ m' = m) E := by
  obtain ⟨o, ho, -⟩ := h.1.elems
  have hcount := h.2
  rw [ho] at hcount
  unfold empty
  rw [ends_bind, ends_object ho]
  exact ⟨congrArg _ (congrArg (· == 0) (Option.some.inj hcount).symm), rfl⟩

theorem elements_spec (h : Has m k (some cells)) : Ends (elements k) m
    (fun l m' => some (cells.map Prod.snd) = some l ∧ m' = m) E := by
  obtain ⟨o, ho, helems⟩ := h.1.elems
  have hall : IsList m k ([] ++ cells) := h.1
  unfold elements
  rw [ends_bind, ends_object ho, helems]
  refine ends_mono (iterate_spec hall h.1.rounds) ?_
  rintro l _ ⟨rfl, rfl⟩
  exact ⟨rfl, rfl⟩

/-! ## Deleting and copying a list -/

/-- The nodes of the list, and no others, are given back. -/
theorem delete_all_spec (hchain : LinkedTo m.links.next none (cells.map Prod.fst))
    (hnodup : (cells.map Prod.fst).Nodup) (hsome : ∀ c ∈ cells, (m.node c.1).isSome) {rounds : ℕ}
    (hrounds : cells.length < rounds) : Ends (delete_all rounds (cells.map Prod.fst).head?) m
      (fun _ m' => (∀ p ∈ cells.map Prod.fst, m'.node p = none) ∧
        (∀ p ∉ cells.map Prod.fst, m'.node p = m.node p) ∧ m'.list = m.list) E := by
  induction cells generalizing m rounds with
  | nil =>
    obtain ⟨rounds, rfl⟩ := Nat.exists_eq_succ_of_ne_zero (Nat.pos_iff_ne_zero.mp hrounds)
    exact ⟨by simp, fun _ _ => rfl, rfl⟩
  | cons c cells ih =>
    obtain ⟨rounds, rfl⟩ := Nat.exists_eq_succ_of_ne_zero (Nat.ne_zero_of_lt hrounds)
    have hhead : ((c :: cells).map Prod.fst).head? = some c.1 := rfl
    obtain ⟨n, hn⟩ := Option.isSome_iff_exists.mp (hsome c List.mem_cons_self)
    obtain ⟨hnext, hrest⟩ := hchain
    obtain ⟨hnot, hnodup⟩ := List.nodup_cons.mp hnodup
    have hnext : (m.node c.1).bind ListNode.Next = (cells.map Prod.fst).head? :=
      hnext.trans (Option.or_none)
    rw [hn] at hnext
    have hnext : n.Next = (cells.map Prod.fst).head? := hnext
    rw [hhead]
    unfold delete_all
    dsimp only
    rw [ends_bind, ends_deref hn, ends_bind, hnext]
    refine ends_mono (delete_Node_spec hn) fun _ m₁ h₁ => ?_
    have hne : ∀ p ∈ cells.map Prod.fst, p ≠ c.1 := fun p hp he => hnot (he ▸ hp)
    refine ends_mono (ih (m := m₁) ?_ hnodup ?_ (Nat.lt_of_succ_lt_succ hrounds)) ?_
    · refine linkedTo_congr hrest fun p hp => ?_
      show (m₁.node p).bind _ = _
      rw [h₁.others p (hne p hp)]
      rfl
    · intro x hx
      rw [h₁.others _ (hne _ (List.mem_map_of_mem hx))]
      exact hsome x (List.mem_cons_of_mem _ hx)
    · rintro _ m₂ ⟨hgone, hkept, hlist⟩
      refine ⟨fun p hp => ?_, fun p hp => ?_, hlist.trans h₁.list⟩
      · by_cases hin : p ∈ cells.map Prod.fst
        · exact hgone p hin
        · obtain rfl : p = c.1 := (List.mem_cons.mp hp).resolve_right hin
          rw [hkept _ hin, h₁.here]
      · obtain ⟨hpc, hin⟩ := not_or.mp (List.mem_cons.not.mp hp)
        rw [hkept p hin, h₁.others p hpc]

theorem has_empty (h : m.list k = some ⟨none, 0⟩) : Has m k (some []) := by
  refine ⟨⟨?_, ⟨?_, trivial⟩, List.nodup_nil, by simp⟩, ?_⟩
  · rw [h]
    rfl
  · show (m.list k).bind _ = _
    rw [h]
    rfl
  · rw [h]
    rfl

variable [DecidableEq κ]

theorem view_update (cells : List (Cell T)) : view (Function.update C k (some cells)) =
    Function.update (view C) k (some (cells.map Prod.snd)) := by
  funext l
  unfold view
  by_cases hl : l = k
  · subst hl
    rw [Function.update_self, Function.update_self, Option.map_some]
  · rw [Function.update_of_ne hl, Function.update_of_ne hl]

theorem view_update_none : view (Function.update C k none) = Function.update (view C) k none := by
  funext l
  unfold view
  by_cases hl : l = k
  · subst hl
    rw [Function.update_self, Function.update_self, Option.map_none]
  · rw [Function.update_of_ne hl, Function.update_of_ne hl]

/-- After its nodes the list gets an empty object, or none. -/
theorem free_spec (h : Has m k (some cells)) (o : Option ListObject) (ho : ∀ x ∈ o, x = ⟨none, 0⟩) :
    Ends (do
      delete_all ROUNDS (← object k)._elems
      set_object k o : Op κ T Unit) m
      (fun _ m' => Becomes m k (some cells) (o.map fun _ => []) m') E := by
  obtain ⟨hl, -⟩ := h
  obtain ⟨x, hx, helems⟩ := hl.elems
  rw [ends_bind, ends_object hx, ends_bind, helems]
  refine ends_mono (delete_all_spec hl.chain.2 hl.nodup (fun c hc => ?_) hl.rounds) ?_
  · have hdata := hl.data c hc
    cases hn : m.node c.1 with
    | none =>
      rw [hn] at hdata
      cases hdata
    | some n => rfl
  · rintro _ m₁ ⟨hgone, hkept, hlist⟩
    rw [ends_set_object]
    have hnone : nodes (o.map fun _ => ([] : List (Cell T))) = [] := by cases o <;> rfl
    refine ⟨?_, fun l hl => ?_, fun p hp _ => hkept p hp, fun p hp => ?_, fun p hp _ => hgone p hp⟩
    · cases o with
      | none => exact Function.update_self _ _ _
      | some x =>
        obtain rfl := ho x rfl
        exact has_empty (Function.update_self _ _ _)
    · exact (Function.update_of_ne hl _ _).trans (congrFun hlist l)
    · rw [hnone] at hp
      cases hp

theorem construct_spec : Ends (construct k : Op κ T Unit) m
    (fun _ m' => Becomes m k none (some []) m' ∧ ∀ n, m'.Ready n ↔ m.Ready n) E := by
  unfold construct
  rw [ends_set_object]
  exact ⟨⟨has_empty (Function.update_self _ _ _), fun l hl => Function.update_of_ne hl _ _,
    fun _ _ _ => rfl, by simp [nodes], by simp [nodes]⟩, fun _ => Iff.rfl⟩

/-- The elements from a place in the one list on go behind those of the other. -/
theorem copy_loop_spec [Inhabited T] {S : κ → Option (List (Cell T))} (h : Holds m S) (hkr : k ≠ r)
    {done : List (Cell T)} (hk : S k = some done) (hr : S r = some (a ++ b)) {rounds : ℕ}
    (hrounds : b.length < rounds) :
    Ends (for_each (append k) rounds (b.map Prod.fst).head?) m (fun _ m' => ∃ cells,
      cells.map Prod.snd = done.map Prod.snd ++ b.map Prod.snd ∧
        Holds m' (Function.update S k (some cells)))
      (fun e => e = .noNode ∧ ¬m.Ready b.length) := by
  induction b generalizing m S a done rounds with
  | nil =>
    obtain ⟨rounds, rfl⟩ := Nat.exists_eq_succ_of_ne_zero (Nat.pos_iff_ne_zero.mp hrounds)
    refine ⟨done, (List.append_nil _).symm, ?_⟩
    rwa [← hk, Function.update_eq_self]
  | cons c b ih =>
    obtain ⟨rounds, rfl⟩ := Nat.exists_eq_succ_of_ne_zero (Nat.ne_zero_of_lt hrounds)
    have hhead : ((c :: b).map Prod.fst).head? = some c.1 := rfl
    have hsource : IsList m r (a ++ c :: b) := by
      have := h.has r
      rw [hr] at this
      exact this.1
    have htarget : Has m k (some done) := hk ▸ h.has k
    rw [hhead]
    unfold for_each
    dsimp only
    rw [ends_bind, ends_deref hsource.node, ends_bind]
    refine ends_weaken (append_spec c.2 htarget) ?_ fun e he =>
      ⟨he.1, fun hready => he.2 (hready.mono (Nat.le_add_left 1 _))⟩
    rintro _ m₁ ⟨p, hsupply, hb⟩
    have hfree : ∀ q, q ≠ p → m.node q = none → m₁.node q = none :=
      fun q hq hnone => hb.free htarget hq hnone
    rw [← hk] at hb
    have h₁ := h.becomes hb
    have hr₁ : Function.update S k (some (done ++ [(p, c.2)])) r = some (a ++ c :: b) := by
      rw [Function.update_of_ne (Ne.symm hkr), hr]
    have hsource₁ : IsList m₁ r (a ++ c :: b) := by
      have := h₁.has r
      rw [hr₁] at this
      exact this.1
    rw [ends_bind, ends_deref hsource₁.node]
    refine ends_weaken (ih h₁ (a := a ++ [c]) (Function.update_self _ _ _) (by simpa using hr₁)
      (Nat.lt_of_succ_lt_succ hrounds)) ?_ fun e he =>
        ⟨he.1, fun hready => he.2 (hready.next hsupply hfree)⟩
    rintro _ m₂ ⟨cells, hcells, h₂⟩
    rw [Function.update_idem] at h₂
    refine ⟨cells, ?_, h₂⟩
    rw [hcells, List.map_append, List.append_assoc]
    rfl

/-- The nodes of the one list become those of the other. -/
theorem move_spec {S : κ → Option (List (Cell T))} (h : Holds m S) (hk : S k = none)
    (hr : S r = some cells) : Ends (move k r : Op κ T Unit) m (fun _ m' =>
      Holds m' (Function.update (Function.update S k (some cells)) r (some []))) E := by
  have hkr : k ≠ r := by
    rintro rfl
    cases hk.symm.trans hr
  have hhas : Has m r (some cells) := hr ▸ h.has r
  obtain ⟨o, ho, helems⟩ := hhas.1.elems
  unfold move
  rw [ends_bind, ends_object ho, ends_bind, ends_set_object, ends_set_object]
  have hlist : ∀ l, l ≠ k → l ≠ r → Function.update (Function.update m.list k (some o)) r
      (some ⟨none, 0⟩) l = m.list l := fun l hl hl' => by
    rw [Function.update_of_ne hl', Function.update_of_ne hl]
  have hseq : ∀ l, l ≠ k → l ≠ r →
      Function.update (Function.update S k (some cells)) r (some []) l = S l := fun l hl hl' => by
    rw [Function.update_of_ne hl', Function.update_of_ne hl]
  have hseqk : Function.update (Function.update S k (some cells)) r (some []) k = some cells := by
    rw [Function.update_of_ne hkr, Function.update_self]
  have hmemk : Function.update (Function.update m.list k (some o)) r (some ⟨none, 0⟩) k = some o := by
    rw [Function.update_of_ne hkr, Function.update_self]
  -- The nodes of `l` afterwards are nodes of one list before.
  have hfrom : ∀ l, ∃ l', nodes (Function.update (Function.update S k (some cells)) r (some []) l) ⊆
      nodes (S l') ∧ (l' = l ∨ l' = r ∧ l = k) := by
    intro l
    by_cases hlr : l = r
    · subst hlr
      rw [Function.update_self]
      exact ⟨l, by simp [nodes], .inl rfl⟩
    · by_cases hlk : l = k
      · subst hlk
        rw [hseqk]
        exact ⟨r, by rw [hr]; exact List.Subset.refl _, .inr ⟨rfl, rfl⟩⟩
      · rw [hseq l hlk hlr]
        exact ⟨l, List.Subset.refl _, .inl rfl⟩
  constructor
  · intro l
    by_cases hlr : l = r
    · subst hlr
      rw [Function.update_self]
      exact has_empty (Function.update_self _ _ _)
    · by_cases hlk : l = k
      · subst hlk
        rw [hseqk]
        refine ⟨⟨?_, ⟨?_, hhas.1.chain.2⟩, hhas.1.nodup, hhas.1.data⟩, ?_⟩
        · show (Function.update (Function.update m.list l _) r _ l).isSome
          rw [hmemk]
          rfl
        · show (Function.update (Function.update m.list l _) r _ l).bind _ = _
          rw [hmemk]
          exact helems
        · show (Function.update (Function.update m.list l _) r _ l).map _ = _
          rw [hmemk, ← ho]
          exact hhas.2
      · rw [hseq l hlk hlr]
        exact (h.has l).congr (hlist l hlk hlr) fun _ _ => rfl
  · intro l l' hll p hp hp'
    obtain ⟨x, hx, hxl⟩ := hfrom l
    obtain ⟨x', hx', hxl'⟩ := hfrom l'
    by_cases hxx : x = x'
    · subst hxx
      obtain rfl | ⟨rfl, rfl⟩ := hxl
      · obtain rfl | ⟨rfl, rfl⟩ := hxl'
        · exact hll rfl
        · rw [Function.update_self] at hp
          cases hp
      · obtain rfl | ⟨-, rfl⟩ := hxl'
        · rw [Function.update_self] at hp'
          cases hp'
        · exact hll rfl
    · exact h.apart x x' hxx p (hx hp) (hx' hp')
  · intro p hp
    obtain ⟨l, hl⟩ := h.used p hp
    by_cases hlr : l = r
    · subst hlr
      exact ⟨k, by rwa [hseqk, ← hr]⟩
    · have hlk : l ≠ k := by
        rintro rfl
        rw [hk] at hl
        cases hl
      exact ⟨l, by rwa [hseq l hlk hlr]⟩

/-! ## Any calls -/

inductive ListCall (κ T : Type) where
  | construct (k : κ)
  | copy (k r : κ)
  | move (k r : κ)
  | destroy (k : κ)
  | append (k : κ) (elem : T)
  | remove (k : κ) (elem : T)
  | dequeue (k : κ)
  | push (k : κ) (elem : T)
  | first (k : κ)
  | last (k : κ)
  | at_index (k : κ) (index : Int32)
  | count (k : κ)
  | empty (k : κ)
  | clear (k : κ)
  | elements (k : κ)

inductive Answer (T : Type) where
  | done
  | elem (x : T)
  | number (n : UInt32)
  | flag (b : Bool)
  | elems (l : List T)
  deriving DecidableEq, Repr

section Calls

variable [DecidableEq T] [Inhabited T]

def ListCall.run : ListCall κ T → Op κ T (Answer T)
  | .construct k => (fun _ => .done) <$> Lists.construct k
  | .copy k r => (fun _ => .done) <$> Lists.copy k r
  | .move k r => (fun _ => .done) <$> Lists.move k r
  | .destroy k => (fun _ => .done) <$> Lists.destroy k
  | .append k elem => (fun _ => .done) <$> Lists.append k elem
  | .remove k elem => (fun _ => .done) <$> Lists.remove k elem
  | .dequeue k => .elem <$> Lists.dequeue k
  | .push k elem => (fun _ => .done) <$> Lists.push k elem
  | .first k => .elem <$> Lists.first k
  | .last k => .elem <$> Lists.last k
  | .at_index k index => .elem <$> Lists.at_index k index
  | .count k => .number <$> Lists.count k
  | .empty k => .flag <$> Lists.empty k
  | .clear k => (fun _ => .done) <$> Lists.clear k
  | .elements k => .elems <$> Lists.elements k

/-- A list is constructed in a place where there is none. All other calls are on lists there are. -/
def ListCall.Allowed (m : Heap κ T) : ListCall κ T → Prop
  | .construct k => m.list k = none
  | .copy k r | .move k r => m.list k = none ∧ (m.list r).isSome
  | .destroy k | .append k _ | .remove k _ | .dequeue k | .push k _ | .first k | .last k
  | .at_index k _ | .count k | .empty k | .clear k | .elements k => (m.list k).isSome

/-- What the call does to sequences, unless it has to fail. -/
def ListCall.spec (S : κ → Option (List T)) :
    ListCall κ T → Option (Answer T × (κ → Option (List T)))
  | .construct k => some (.done, Function.update S k (some []))
  | .copy k r => (S r).map fun l => (.done, Function.update S k (some l))
  | .move k r => (S r).map fun l =>
    (.done, Function.update (Function.update S k (some l)) r (some []))
  | .destroy k => (S k).map fun _ => (.done, Function.update S k none)
  | .append k elem => (S k).map fun l => (.done, Function.update S k (some (l ++ [elem])))
  | .remove k elem => (S k).map fun l => (.done, Function.update S k (some (l.erase elem)))
  | .dequeue k => (S k).bind fun l => l.head?.map fun x =>
    (.elem x, Function.update S k (some l.tail))
  | .push k elem => (S k).map fun l => (.done, Function.update S k (some (elem :: l)))
  | .first k => (S k).bind fun l => l.head?.map fun x => (.elem x, S)
  | .last k => (S k).bind fun l => l.getLast?.map fun x => (.elem x, S)
  | .at_index k index => (S k).bind fun l => (ahead l index.toInt).map fun x => (.elem x, S)
  | .count k => (S k).map fun l => (.number (UInt32.ofNat l.length), S)
  | .empty k => (S k).map fun l => (.flag (UInt32.ofNat l.length == 0), S)
  | .clear k => (S k).map fun _ => (.done, Function.update S k (some []))
  | .elements k => (S k).map fun l => (.elems l, S)

/-- How many nodes the call takes from `new`. -/
def ListCall.new_nodes (S : κ → Option (List T)) : ListCall κ T → ℕ
  | .append _ _ | .push _ _ => 1
  | .copy _ r => ((S r).getD []).length
  | _ => 0

/-- The answer of the call is that of the sequences, and the lists hold them. It only fails if it has
to, or if it needs more nodes than `new` is ready to give. -/
def Answers (m : Heap κ T) (C : κ → Option (List (Cell T))) (c : ListCall κ T) : Prop :=
  Ends c.run m (fun x m' => ∃ C', c.spec (view C) = some (x, view C') ∧ Holds m' C')
    (fun e => e = .noNode ∧ ¬m.Ready (c.new_nodes (view C)) ∨
      c.spec (view C) = none ∧ (e = .assertion ∨ e = .overflow))

/-- How a call that only reads answers. -/
theorem answers_read {α : Type} {x : Op κ T α} {f : α → Answer T} {c : ListCall κ T} {o : Option α}
    (h : Holds m C) (hrun : c.run = f <$> x)
    (hspec : Ends x m (fun y m' => o = some y ∧ m' = m)
      (fun e => o = none ∧ (e = .assertion ∨ e = .overflow)))
    (hc : c.spec (view C) = o.map fun y => (f y, view C)) : Answers m C c := by
  unfold Answers
  rw [hrun, ends_map]
  refine ends_weaken hspec ?_ ?_
  · rintro y _ ⟨rfl, rfl⟩
    exact ⟨C, hc, h⟩
  · rintro e ⟨rfl, he⟩
    exact .inr ⟨hc, he⟩

/-- How a call that may change the list `k` answers. -/
theorem answers_changed {α : Type} {x : Op κ T α} {f : α → Answer T} {c : ListCall κ T}
    {E : Fault → Prop} (h : Holds m C) (hk : C k = some cells) (hrun : c.run = f <$> x)
    (hspec : Ends x m (fun y m' => ∃ cells', Becomes m k (some cells) (some cells') m' ∧
      c.spec (view C) = some (f y, Function.update (view C) k (some (cells'.map Prod.snd)))) E)
    (hE : ∀ e, E e → e = .noNode ∧ ¬m.Ready (c.new_nodes (view C))) : Answers m C c := by
  unfold Answers
  rw [hrun, ends_map]
  refine ends_weaken hspec ?_ fun e he => .inl (hE e he)
  rintro y m' ⟨cells', hb, hc⟩
  refine ⟨Function.update C k (some cells'), ?_, h.becomes (hk ▸ hb)⟩
  rw [hc, view_update]

/-! ### Constructors and the destructor -/

theorem answers_construct (h : Holds m C) (ha : (ListCall.construct k).Allowed m) :
    Answers m C (.construct k) := by
  refine (ends_map _ _).mpr (ends_mono construct_spec fun _ m' hb => ?_)
  refine ⟨_, ?_, h.becomes (h.none_of ha ▸ hb.1)⟩
  rw [view_update]
  rfl

theorem answers_copy (h : Holds m C) (ha : (ListCall.copy k r).Allowed m) :
    Answers m C (.copy k r) := by
  obtain ⟨hnone, hsome⟩ := ha
  have hk := h.none_of hnone
  obtain ⟨source, hr⟩ := h.some_of hsome
  have hkr : k ≠ r := by
    rintro rfl
    cases hk.symm.trans hr
  refine (ends_map _ _).mpr ?_
  unfold copy
  rw [ends_bind]
  refine ends_mono construct_spec ?_
  rintro _ m₁ ⟨hb, hready⟩
  have h₁ := h.becomes (hk ▸ hb)
  have hr₁ : Function.update C k (some []) r = some ([] ++ source) := by
    rw [Function.update_of_ne (Ne.symm hkr), hr, List.nil_append]
  have hsource : Has m₁ r (some source) := by
    have hhas := h₁.has r
    rwa [hr₁] at hhas
  obtain ⟨o, ho, helems⟩ := hsource.1.elems
  rw [ends_bind, ends_object ho, helems]
  refine ends_weaken (copy_loop_spec h₁ hkr (Function.update_self _ _ _) hr₁ hsource.1.rounds) ?_ ?_
  · rintro _ m₂ ⟨cells, hcells, h₂⟩
    rw [Function.update_idem] at h₂
    refine ⟨_, ?_, h₂⟩
    rw [view_update, hcells]
    show (view C r).map _ = _
    rw [view_some hr]
    rfl
  · rintro e ⟨rfl, hfew⟩
    refine .inl ⟨rfl, fun hfull => hfew ((hready _).mpr ?_)⟩
    have hneeds : (ListCall.copy k r).new_nodes (view C) = ((view C r).getD []).length := rfl
    rwa [hneeds, view_some hr, Option.getD_some, List.length_map] at hfull

theorem answers_move (h : Holds m C) (ha : (ListCall.move k r).Allowed m) :
    Answers m C (.move k r) := by
  obtain ⟨hnone, hsome⟩ := ha
  obtain ⟨source, hr⟩ := h.some_of hsome
  refine (ends_map _ _).mpr (ends_mono (move_spec h (h.none_of hnone) hr) fun _ m' h' => ?_)
  refine ⟨_, ?_, h'⟩
  rw [view_update, view_update]
  show (view C r).map _ = _
  rw [view_some hr]
  rfl

theorem answers_destroy (h : Holds m C) (hk : C k = some cells) : Answers m C (.destroy k) := by
  refine (ends_map _ _).mpr (ends_mono (free_spec (hk ▸ h.has k) none (by simp)) fun _ m' hb => ?_)
  refine ⟨_, ?_, h.becomes (hk ▸ hb)⟩
  rw [Option.map_none, view_update_none]
  show (view C k).map _ = _
  rw [view_some hk]
  rfl

/-! ### Calls that change a list -/

theorem answers_append (h : Holds m C) (hk : C k = some cells) (elem : T) :
    Answers m C (.append k elem) := by
  refine answers_changed h hk rfl (ends_mono (append_spec elem (hk ▸ h.has k)) ?_) fun _ he => he
  rintro _ m' ⟨p, -, hb⟩
  refine ⟨_, hb, ?_⟩
  show (view C k).map _ = _
  rw [view_some hk, List.map_append]
  rfl

theorem answers_push (h : Holds m C) (hk : C k = some cells) (elem : T) :
    Answers m C (.push k elem) := by
  refine answers_changed h hk rfl (ends_mono (push_spec elem (hk ▸ h.has k)) ?_) fun _ he => he
  rintro _ m' ⟨p, -, hb⟩
  refine ⟨_, hb, ?_⟩
  show (view C k).map _ = _
  rw [view_some hk]
  rfl

theorem answers_remove (h : Holds m C) (hk : C k = some cells) (elem : T) :
    Answers m C (.remove k elem) := by
  refine answers_changed h hk rfl (ends_mono (remove_spec elem (hk ▸ h.has k)) ?_) fun _ he => he
  rintro _ m' ⟨cells', hcells, hb⟩
  refine ⟨_, hb, ?_⟩
  show (view C k).map _ = _
  rw [view_some hk, hcells]
  rfl

theorem answers_dequeue (h : Holds m C) (hk : C k = some cells) : Answers m C (.dequeue k) := by
  cases cells with
  | nil =>
    have hhas : Has m k (some []) := hk ▸ h.has k
    obtain ⟨o, ho, helems⟩ := hhas.1.elems
    refine (ends_map _ _).mpr ?_
    unfold dequeue
    rw [ends_bind, ends_object ho, helems]
    refine .inr ⟨?_, .inl rfl⟩
    show (view C k).bind _ = _
    rw [view_some hk]
    rfl
  | cons c cells =>
    refine answers_changed h hk rfl (ends_mono (dequeue_spec (hk ▸ h.has k)) ?_) fun _ he => he
    rintro x m' ⟨rfl, hb⟩
    refine ⟨_, hb, ?_⟩
    show (view C k).bind _ = _
    rw [view_some hk]
    rfl

theorem answers_clear (h : Holds m C) (hk : C k = some cells) : Answers m C (.clear k) := by
  refine answers_changed h hk rfl
    (ends_mono (free_spec (hk ▸ h.has k) (some ⟨none, 0⟩) (by simp)) ?_) fun _ he => he
  rintro _ m' hb
  refine ⟨_, hb, ?_⟩
  show (view C k).map _ = _
  rw [view_some hk]
  rfl

/-! ### Calls that read a list -/

theorem answers_first (h : Holds m C) (hk : C k = some cells) : Answers m C (.first k) := by
  refine answers_read h rfl (first_spec (hk ▸ h.has k)) ?_
  show (view C k).bind _ = _
  rw [view_some hk]
  rfl

theorem answers_last (h : Holds m C) (hk : C k = some cells) : Answers m C (.last k) := by
  refine answers_read h rfl (last_spec (hk ▸ h.has k)) ?_
  show (view C k).bind _ = _
  rw [view_some hk]
  rfl

theorem answers_at_index (h : Holds m C) (hk : C k = some cells) (index : Int32) :
    Answers m C (.at_index k index) := by
  refine answers_read h rfl (at_index_spec index (hk ▸ h.has k)) ?_
  show (view C k).bind _ = _
  rw [view_some hk]
  rfl

theorem answers_count (h : Holds m C) (hk : C k = some cells) : Answers m C (.count k) := by
  refine answers_read h rfl (count_spec (hk ▸ h.has k)) ?_
  show (view C k).map _ = _
  rw [view_some hk, Option.map_some, List.length_map]
  rfl

theorem answers_empty (h : Holds m C) (hk : C k = some cells) : Answers m C (.empty k) := by
  refine answers_read h rfl (empty_spec (hk ▸ h.has k)) ?_
  show (view C k).map _ = _
  rw [view_some hk, Option.map_some, List.length_map]
  rfl

theorem answers_elements (h : Holds m C) (hk : C k = some cells) : Answers m C (.elements k) := by
  refine answers_read h rfl (elements_spec (hk ▸ h.has k)) ?_
  show (view C k).map _ = _
  rw [view_some hk]

/-! ### Runs of calls -/

/-- Whatever call is made, the answer is that of the sequences. -/
theorem call_spec (h : Holds m C) (c : ListCall κ T) (ha : c.Allowed m) : Answers m C c := by
  cases c with
  | construct k => exact answers_construct h ha
  | copy k r => exact answers_copy h ha
  | move k r => exact answers_move h ha
  | destroy k => exact answers_destroy h (h.some_of ha).choose_spec
  | append k elem => exact answers_append h (h.some_of ha).choose_spec elem
  | remove k elem => exact answers_remove h (h.some_of ha).choose_spec elem
  | dequeue k => exact answers_dequeue h (h.some_of ha).choose_spec
  | push k elem => exact answers_push h (h.some_of ha).choose_spec elem
  | clear k => exact answers_clear h (h.some_of ha).choose_spec
  | first k => exact answers_first h (h.some_of ha).choose_spec
  | last k => exact answers_last h (h.some_of ha).choose_spec
  | at_index k index => exact answers_at_index h (h.some_of ha).choose_spec index
  | count k => exact answers_count h (h.some_of ha).choose_spec
  | empty k => exact answers_empty h (h.some_of ha).choose_spec
  | elements k => exact answers_elements h (h.some_of ha).choose_spec

instance (m : Heap κ T) (c : ListCall κ T) : Decidable (c.Allowed m) := by
  cases c <;> unfold ListCall.Allowed <;> infer_instance

/-- Calls in any order, with the answers so far. -/
def lists (κ T : Type) [DecidableEq κ] [DecidableEq T] [Inhabited T] :
    System (Heap κ T × List (Answer T)) (ListCall κ T) Fault where
  start s := (∀ p, s.1.node p = none) ∧ (∀ k, s.1.list k = none) ∧ s.2 = []
  allowed s c := c.Allowed s.1
  step s c := (c.run s.1).map fun r => (r.2, s.2 ++ [r.1])

instance (s : Heap κ T × List (Answer T)) (c : ListCall κ T) : Decidable ((lists κ T).allowed s c) :=
  inferInstanceAs (Decidable (c.Allowed s.1))

/-- The same calls on sequences. -/
def sequences : List (ListCall κ T) → (κ → Option (List T)) × List (Answer T) →
    Option ((κ → Option (List T)) × List (Answer T))
  | [], s => some s
  | c :: cs, s => (c.spec s.1).bind fun r => sequences cs (r.2, s.2 ++ [r.1])

theorem run_sequences {s t : Heap κ T × List (Answer T)} {cs : List (ListCall κ T)}
    (hr : (lists κ T).Run s cs t) (h : Holds s.1 C) :
    ∃ C', sequences cs (view C, s.2) = some (view C', t.2) ∧ Holds t.1 C' := by
  induction hr generalizing C with
  | nil s => exact ⟨C, rfl, h⟩
  | @cons s t u c cs hc hs _ ih =>
    obtain ⟨⟨x, m'⟩, he, rfl⟩ := map_eq_ok hs
    obtain ⟨C₁, hspec, h₁⟩ := ends_ok (call_spec h c hc) he
    obtain ⟨C₂, hseq, h₂⟩ := ih h₁
    refine ⟨C₂, ?_, h₂⟩
    unfold sequences
    rw [hspec]
    exact hseq

/-- Whatever calls are made, the lists hold and answer what sequences would. The nodes in use are those
of the lists, each of one only, so that none is lost. The next call can only fail if it has to, as
with the first element of an empty list, or if `new` is not ready to give it the nodes it needs. -/
theorem lists_are_sequences {s t : Heap κ T × List (Answer T)} {cs : List (ListCall κ T)}
    (hs : (lists κ T).start s) (hr : (lists κ T).Run s cs t) :
    ∃ C, sequences cs (fun _ => none, []) = some (view C, t.2) ∧
      (∀ p, (t.1.node p).isSome ↔ ∃ k, p ∈ nodes (C k)) ∧
      (∀ k l, k ≠ l → ∀ p ∈ nodes (C k), p ∉ nodes (C l)) ∧
      ∀ c : ListCall κ T, c.Allowed t.1 → ∀ e, c.run t.1 = .error e →
        e = .noNode ∧ ¬t.1.Ready (c.new_nodes (view C)) ∨
          c.spec (view C) = none ∧ (e = .assertion ∨ e = .overflow) := by
  obtain ⟨hnode, hlist, hanswers⟩ := hs
  have hstart : Holds s.1 (fun _ => none) := by
    refine ⟨hlist, by simp [nodes], fun p hp => ?_⟩
    rw [hnode] at hp
    cases hp
  obtain ⟨C, hseq, h⟩ := run_sequences hr hstart
  rw [hanswers] at hseq
  refine ⟨C, hseq, fun p => ⟨h.used p, ?_⟩, h.apart, fun c hc e he => ?_⟩
  · rintro ⟨k, hk⟩
    exact (h.has k).in_use hk
  · exact (ends_of_error he).mp (call_spec h c hc)

/-- The second list is a copy of the first, which is then emptied. -/
def copied : List (ListCall Bool ℕ) :=
  [.construct true, .append true 5, .push true 3, .append true 5, .copy false true, .remove false 5,
    .dequeue true, .clear true, .elements false, .at_index false 1]

def emptyHeap : Heap Bool ℕ × List (Answer ℕ) := (⟨fun _ => none, fun _ => none, [8, 16, 24, 32, 40, 48]⟩, [])

theorem lists_are_sequences_copied : ∃ t C, (lists Bool ℕ).Run emptyHeap copied t ∧
    sequences copied (fun _ => none, []) = some (view C, t.2) := by
  have hruns : ((lists Bool ℕ).exec emptyHeap copied).isSome = true := by decide +kernel
  obtain ⟨t, ht⟩ := Option.isSome_iff_exists.mp hruns
  have hr := System.run_of_exec ht
  obtain ⟨C, hseq, -⟩ := lists_are_sequences ⟨fun _ => rfl, fun _ => rfl, rfl⟩ hr
  exact ⟨t, C, hr, hseq⟩

end Calls

end Infos.Util.Lists
