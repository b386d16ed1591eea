import Infos.Commons.SharedPointer
import Mathlib.Data.List.Count

/-!
# Counting the shared pointers

The shared count of an object is the number of the pointers to it, as long as no pointer is cast,
none is stored in an object that goes away while it is assigned, and no more weak pointers are taken
back than were counted.
-/

open Infos.Prog

namespace Infos.Commons.Pointers

/-- Each object as often as there are pointers to it. -/
def targets (vs : List Variable) : List ℕ := vs.filterMap Variable.value

/-- The counts are those of the pointers, and an object is there as long as there are some. -/
def Exact (h : Store) : Prop := ∀ o b, h.object o = some b →
  (b.alive = true ↔ 0 < (targets h.shared).count o) ∧ (b.alive = true → b.counts ≠ none) ∧
  ∀ c, b.counts = some c → c.1.toInt = (targets h.shared).count o

def value (name : ℕ) (vs : List Variable) : Option ℕ := (lookup name vs).bind Variable.value

/-- The pointers to the object are `this`, which lets go of it, and members of objects that go away
with it. What is in `hold` is held by another pointer. -/
inductive Dies (vs : List Variable) (this : ℕ) (hold : Option ℕ) : ℕ → Prop
  | mk (o : ℕ) (hh : hold ≠ some o)
      (hmember : ∀ v ∈ vs, v.value = some o → v.name ≠ this → v.owner ≠ none)
      (howner : ∀ v ∈ vs, v.value = some o → v.name ≠ this → ∀ x, v.owner = some x →
        Dies vs this hold x) : Dies vs this hold o

/-- The pointer is not stored in an object that goes away when `this` lets go of its own. -/
def Keeps (vs : List Variable) (this : ℕ) (hold : Option ℕ) (name : ℕ) : Prop :=
  ∀ v ∈ vs, v.name = name → ∀ x, v.owner = some x → ¬ Dies vs this hold x

/-- The counts of the weak pointer are there, and stay if it is taken back while they are in use. -/
def Spare (h : Store) (w : ℕ) : Prop := ∀ o, value w h.weak = some o →
  ∃ b c, h.object o = some b ∧ b.counts = some c ∧ (b.alive = true → c.2 ≠ 1)

/-- The steps that keep the counts. -/
def Counts (h : Store) : Call → Prop
  | .StaticCast _ _ p => value p h.shared = none
  | .DynamicCast derived _ _ p => derived = true → value p h.shared = none
  | .assign this other => Keeps h.shared this (value other h.shared) this ∧
      Keeps h.shared this (value other h.shared) other
  | .assign_null this | .destroy this => Keeps h.shared this none this
  | .Pin _ _ w => ∀ o, value w h.weak = some o → ∃ b, h.object o = some b ∧ b.counts ≠ none
  | .weak_assign w p => h.data (value w h.weak) ≠ h.data (value p h.shared) → Spare h w
  | .weak_assign_null w => Spare h w
  | _ => True

/-! ## Units -/

/-- What is counted are the units `U`, and the objects `D` are being deleted. -/
structure Counted (h : Store) (U D : List ℕ) : Prop where
  counts : ∀ o b, h.object o = some b → (b.alive = true ↔ 0 < U.count o ∨ o ∈ D) ∧
    (b.alive = true → b.counts ≠ none) ∧ ∀ c, b.counts = some c → c.1 = Int32.ofNat (U.count o)
  known : ∀ o, 0 < U.count o ∨ o ∈ D → ∃ b, h.object o = some b
  owners : ∀ v ∈ h.shared, ∀ x, v.owner = some x → h.lives x = true
  fresh : ∀ o, h.next ≤ o → h.object o = none

variable {h h' : Store} {U U' D P : List ℕ} {o x this : ℕ} {b : Object} {k : Int32 × Int32}
  {c : Option (Int32 × Int32)} {hold : Option ℕ} {vs ms : List Variable} {v : Variable}

theorem returns_counts {Q : Int32 × Int32 → Store → Prop} (hb : h.object o = some b)
    (hk : b.counts = some k) : Returns (counts o) h Q ↔ Q k h := by
  unfold Pointers.counts
  rw [returns_bind, returns_get, hb, Option.bind_some, hk, returns_pure]

@[simp] theorem returns_set_counts {Q : Unit → Store → Prop} :
    Returns (set_counts o c) h Q ↔ Q () (h.update o fun b => { b with counts := c }) :=
  returns_modify ..

theorem object_update (f : Object → Object) :
    (h.update o f).object x = if x = o then (h.object o).map f else h.object x :=
  Function.update_apply ..

theorem lives_set_counts : (h.update o fun b => { b with counts := c }).lives x = h.lives x := by
  unfold Store.lives
  rw [object_update]
  split
  · subst x
    cases h.object o <;> rfl
  · rfl

theorem Counted.congr (hc : Counted h U D) (hU : ∀ x, U'.count x = U.count x) : Counted h U' D := by
  refine ⟨fun o b hb => ?_, fun o ho => ?_, hc.owners, hc.fresh⟩
  · rw [hU]
    exact hc.counts o b hb
  · rw [hU] at ho
    exact hc.known o ho

/-- Other counts for one of the objects. -/
theorem Counted.set_counts {D' : List ℕ} (hc : Counted h U D) (hb : h.object o = some b)
    (hU : ∀ x ≠ o, U'.count x = U.count x) (hD : ∀ x ≠ o, x ∈ D' ↔ x ∈ D)
    (halive : b.alive = true ↔ 0 < U'.count o ∨ o ∈ D') (hsome : b.alive = true → c ≠ none)
    (hk : ∀ k, c = some k → k.1 = Int32.ofNat (U'.count o)) :
    Counted (h.update o fun b => { b with counts := c }) U' D' := by
  refine ⟨fun x y hy => ?_, fun x hx => ?_, fun v hv x hx => ?_, fun x hx => ?_⟩
  · rw [object_update] at hy
    split at hy
    · subst x
      rw [hb] at hy
      cases hy
      exact ⟨halive, hsome, hk⟩
    · rename_i hxo
      rw [hU x hxo, hD x hxo]
      exact hc.counts x y hy
  · rw [object_update]
    split
    · rw [hb]
      exact ⟨_, rfl⟩
    · rename_i hxo
      rw [hU x hxo, hD x hxo] at hx
      exact hc.known x hx
  · rw [lives_set_counts]
    exact hc.owners v hv x hx
  · rw [object_update]
    split
    · subst x
      rw [hc.fresh o hx]
      rfl
    · exact hc.fresh x hx

/-- A pointer to an object that has one is one more. -/
theorem Counted.held (hc : Counted h U D) (hb : h.object o = some b) (hk : b.counts = some k)
    (ho : 0 < U.count o) :
    Counted (h.update o fun b => { b with counts := some (k.1 + 1, k.2) }) (o :: U) D := by
  obtain ⟨halive, -, hval⟩ := hc.counts o b hb
  refine hc.set_counts hb (fun x hx => List.count_cons_of_ne hx.symm) (fun _ _ => Iff.rfl) ?_
    (fun _ => Option.some_ne_none _) ?_
  · rw [List.count_cons_self]
    exact ⟨fun _ => Or.inl (Nat.succ_pos _), fun _ => halive.mpr (Or.inl ho)⟩
  · rintro - ⟨⟩
    rw [List.count_cons_self, Int32.ofNat_add, hval k hk]
    rfl

/-- One less, and if it was the last then the object is to be deleted. -/
theorem Counted.drop {D' : List ℕ} (hc : Counted h (o :: U) D) (hb : h.object o = some b)
    (hk : b.counts = some k) (hD : ∀ x ≠ o, x ∈ D' ↔ x ∈ D) (ho : 0 < U.count o ∨ o ∈ D') :
    Counted (h.update o fun b => { b with counts := some (k.1 - 1, k.2) }) U D' := by
  obtain ⟨halive, -, hval⟩ := hc.counts o b hb
  refine hc.set_counts hb (fun x hx => (List.count_cons_of_ne hx.symm).symm) hD ?_
    (fun _ => Option.some_ne_none _) ?_
  · rw [List.count_cons_self] at halive
    exact ⟨fun _ => ho, fun _ => halive.mpr (Or.inl (Nat.succ_pos _))⟩
  · rintro - ⟨⟩
    dsimp only
    rw [hval k hk, List.count_cons_self, Int32.ofNat_add]
    exact Int32.add_sub_cancel _ 1

theorem Counted.exists_counts (hc : Counted h U D) (ho : 0 < U.count o ∨ o ∈ D)
    (hb : h.object o = some b) : ∃ k, b.counts = some k := by
  obtain ⟨halive, hsome, -⟩ := hc.counts o b hb
  exact Option.ne_none_iff_exists'.mp (hsome (halive.mpr ho))

/-- The memory of an object without pointers, with that of its members. -/
theorem Counted.free (hc : Counted h U (o :: D)) (hb : h.object o = some b) (hU : U.count o = 0)
    (hD : o ∉ D) : Counted (h.freed o) U D := by
  refine ⟨fun x y hy => ?_, fun x hx => ?_, fun v hv x hx => ?_, fun x hx => ?_⟩
  · rw [Store.freed, object_update] at hy
    split at hy
    · subst x
      rw [hb] at hy
      cases hy
      refine ⟨?_, nofun, (hc.counts o b hb).2.2⟩
      rw [hU]
      simp [hD]
    · rename_i hxo
      have := hc.counts x y hy
      rwa [List.mem_cons, or_iff_right hxo] at this
  · rw [Store.freed, object_update]
    split
    · rw [hb]
      exact ⟨_, rfl⟩
    · exact hc.known x (hx.imp_right (List.mem_cons_of_mem _))
  · obtain ⟨hv, ho⟩ := List.mem_filter.mp hv
    have hxo : x ≠ o := by
      rintro rfl
      simp [hx] at ho
    have := hc.owners v hv x hx
    unfold Store.lives at this ⊢
    rwa [Store.freed, object_update, if_neg hxo]
  · rw [Store.freed, object_update]
    split
    · subst x
      rw [hc.fresh o hx]
      rfl
    · exact hc.fresh x hx

/-! ## Letting go -/

/-- The pointer is counted in its own right. That of `this` and those in objects that are being
deleted are among the debts. -/
def live (this : ℕ) (D : List ℕ) (v : Variable) : Bool :=
  decide (v.name ≠ this ∧ ∀ x ∈ D, v.owner ≠ some x)

def units (vs : List Variable) (this : ℕ) (D P : List ℕ) : List ℕ :=
  targets (vs.filter (live this D)) ++ P

/-- In the course of a release that was started with the pointers `vs`, the units `P` are still to
be let go or held by `hold`. -/
structure Debt (vs : List Variable) (this : ℕ) (hold : Option ℕ) (turns : ℕ) (h : Store)
    (D P : List ℕ) : Prop where
  counted : Counted h (units h.shared this D P) D
  sub : h.shared.Sublist vs
  removed : ∀ v ∈ vs, v ∉ h.shared → ∃ x, v.owner = some x ∧ Dies vs this hold x
  dying : ∀ x ∈ D, Dies vs this hold x
  idle : ∀ x ∈ D, (units h.shared this D P).count x = 0
  few : (units h.shared this D P).length ≤ turns

theorem targets_cons : targets (v :: vs) = v.value.toList ++ targets vs := by
  unfold targets
  rw [List.filterMap_cons]
  cases v.value <;> rfl

theorem mem_targets : o ∈ targets vs ↔ ∃ v ∈ vs, v.value = some o := List.mem_filterMap

theorem live_cons : live this (o :: D) v = (decide (v.owner ≠ some o) && live this D v) := by
  unfold live
  rw [← Bool.decide_and]
  simp only [List.forall_mem_cons]
  congr 1
  rw [eq_iff_iff]
  tauto

/-- The members of an object that is deleted are debts. -/
theorem units_enter (hthis : ∀ v ∈ vs, v.owner = some o → v.name ≠ this) (ho : o ∉ D) :
    (units vs this (o :: D) (targets (vs.filter fun v => v.owner = some o) ++ P)).Perm
      (units vs this D P) := by
  have hperm := List.filter_append_perm (fun v : Variable => decide (v.owner ≠ some o))
    (vs.filter (live this D))
  have hrest : (vs.filter (live this D)).filter (fun v => decide (v.owner ≠ some o)) =
      vs.filter (live this (o :: D)) := by
    rw [List.filter_filter]
    exact List.filter_congr fun v _ => live_cons.symm
  have hmembers : (vs.filter (live this D)).filter (fun v => !decide (v.owner ≠ some o)) =
      vs.filter fun v => v.owner = some o := by
    rw [List.filter_filter]
    refine List.filter_congr fun v hv => ?_
    by_cases hvo : v.owner = some o
    · have hlive : live this D v = true := by
        refine decide_eq_true ⟨hthis v hv hvo, fun x hx hvx => ho ?_⟩
        rw [hvo] at hvx
        cases hvx
        exact hx
      simp [hvo, hlive]
    · simp [hvo]
  rw [hrest, hmembers] at hperm
  unfold units
  rw [← List.append_assoc]
  refine List.Perm.append_right P ?_
  unfold targets
  rw [← List.filterMap_append]
  exact hperm.filterMap _

theorem ofNat_eq_zero {n : ℕ} (hn : n < 2 ^ 31) : Int32.ofNat n = 0 ↔ n = 0 := by
  rw [← Int32.toInt_inj, Int32.toInt_ofNat_of_lt hn]
  simp

/-- What pointed to the object has let go, or goes away itself. -/
theorem dies_of_count (hremoved : ∀ v ∈ vs, v ∉ ms → ∃ x, v.owner = some x ∧ Dies vs this hold x)
    (hdying : ∀ x ∈ D, Dies vs this hold x) (hP : ∀ o, hold = some o → o ∈ P)
    (ho : (units ms this D P).count o = 0) : Dies vs this hold o := by
  rw [List.count_eq_zero] at ho
  unfold units at ho
  rw [List.mem_append, not_or] at ho
  have hgone : ∀ v ∈ vs, v.value = some o → v.name ≠ this →
      ∃ x, v.owner = some x ∧ Dies vs this hold x := by
    intro v hv hvo hne
    by_cases hms : v ∈ ms
    · by_contra hno
      have hlive : live this D v = true :=
        decide_eq_true ⟨hne, fun x hx hvx => hno ⟨x, hvx, hdying x hx⟩⟩
      exact ho.1 (mem_targets.mpr ⟨v, List.mem_filter.mpr ⟨hms, hlive⟩, hvo⟩)
    · exact hremoved v hv hms
  refine .mk o (fun hh => ho.2 (hP o hh)) (fun v hv hvo hne => ?_) fun v hv hvo hne x hx => ?_
  · obtain ⟨x, hx, -⟩ := hgone v hv hvo hne
    rw [hx]
    exact Option.some_ne_none x
  · obtain ⟨y, hy, hdies⟩ := hgone v hv hvo hne
    rw [hx] at hy
    cases hy
    exact hdies

/-- The end of a deletion. -/
theorem Debt.free {turns : ℕ} (hd : Debt vs this hold turns h (o :: D) P) (hoD : o ∉ D) :
    Returns (modify (Store.freed o) >>= fun _ => Pointers.counts o >>= fun c =>
      Pointers.set_counts o (some (c.1, c.2 - 1))) h
      fun _ h' => Debt vs this hold (turns + 1) h' D P := by
  have hzero := hd.idle o List.mem_cons_self
  have hsame : (h.shared.filter fun v => v.owner ≠ some o).filter (live this D) =
      h.shared.filter (live this (o :: D)) := by
    rw [List.filter_filter]
    exact List.filter_congr fun v _ => (Bool.and_comm ..).trans live_cons.symm
  have hunits : units (h.shared.filter fun v => v.owner ≠ some o) this D P =
      units h.shared this (o :: D) P := congrArg (fun l => targets l ++ P) hsame
  obtain ⟨b, hb⟩ := hd.counted.known o (Or.inr List.mem_cons_self)
  obtain ⟨k, hk⟩ := hd.counted.exists_counts (Or.inr List.mem_cons_self) hb
  have hval := (hd.counted.counts o b hb).2.2 k hk
  have hb' : (h.freed o).object o =
      some { b with alive := false } := by
    rw [Store.freed, object_update, if_pos rfl, hb]
    rfl
  rw [returns_bind, returns_modify, returns_bind, returns_counts hb' hk, returns_set_counts]
  refine ⟨?_, List.filter_sublist.trans hd.sub, fun v hv hno => ?_,
    fun x hx => hd.dying x (List.mem_cons_of_mem _ hx), fun x hx => ?_, ?_⟩
  · have hset : Counted ((h.freed o).update o fun b => { b with counts := some (k.1, k.2 - 1) })
        (units h.shared this (o :: D) P) D := by
      refine (hd.counted.free hb hzero hoD).set_counts hb' (fun _ _ => rfl) (fun _ _ => Iff.rfl) ?_
        nofun ?_
      · rw [hzero]
        simp [hoD]
      · rintro - ⟨⟩
        exact hval
    rwa [← hunits] at hset
  · by_cases hin : v ∈ h.shared
    · refine ⟨o, ?_, hd.dying o List.mem_cons_self⟩
      by_contra hne
      exact hno (List.mem_filter.mpr ⟨hin, decide_eq_true hne⟩)
    · exact hd.removed v hv hin
  · exact hunits ▸ hd.idle x (List.mem_cons_of_mem _ hx)
  · exact hunits ▸ Nat.le_succ_of_le hd.few

theorem Debt.members {turns : ℕ} (ih : ∀ {h : Store} {D P : List ℕ} {v : Option ℕ},
      Debt vs this hold turns h D (v.toList ++ P) → (∀ o, hold = some o → o ∈ P) →
      Returns (SharedPointer.Release turns v) h fun _ h' => Debt vs this hold turns h' D P)
    (hd : Debt vs this hold turns h D (targets ms ++ P)) (hP : ∀ o, hold = some o → o ∈ P) :
    Returns (forM ms fun m => SharedPointer.Release turns m.value) h
      fun _ h' => Debt vs this hold turns h' D P := by
  induction ms generalizing h with
  | nil => exact returns_of_eq rfl hd
  | cons m ms ihm =>
    rw [targets_cons, List.append_assoc] at hd
    rw [List.forM_cons, returns_bind]
    refine returns_mono (ih hd fun o ho => List.mem_append_right _ (hP o ho)) ?_
    exact fun _ h' hd' => ihm hd'

theorem Debt.release {turns : ℕ} (hthis : Keeps vs this hold this) (hturns : turns < 2 ^ 31)
    {v : Option ℕ} (hd : Debt vs this hold turns h D (v.toList ++ P))
    (hP : ∀ o, hold = some o → o ∈ P) :
    Returns (SharedPointer.Release turns v) h fun _ h' => Debt vs this hold turns h' D P := by
  induction turns generalizing h D P v with
  | zero =>
    cases v with
    | none => exact returns_of_eq rfl hd
    | some o =>
      have := hd.few
      simp [units] at this
  | succ turns ih =>
    cases v with
    | none => exact returns_of_eq rfl hd
    | some o =>
      have hperm : (units h.shared this D ((some o).toList ++ P)).Perm
          (o :: units h.shared this D P) := List.perm_middle
      have hcounted := hd.counted.congr fun x => (hperm.count_eq x).symm
      have hpos : 0 < (o :: units h.shared this D P).count o := by
        rw [List.count_cons_self]
        exact Nat.succ_pos _
      have hlen : (units h.shared this D P).length ≤ turns := by
        have := hd.few
        rw [hperm.length_eq, List.length_cons] at this
        omega
      have hoD : o ∉ D := by
        intro ho
        have := hd.idle o ho
        rw [hperm.count_eq] at this
        omega
      obtain ⟨b, hb⟩ := hcounted.known o (Or.inl hpos)
      obtain ⟨k, hk⟩ := hcounted.exists_counts (Or.inl hpos) hb
      have hzero : k.1 - 1 = 0 ↔ (units h.shared this D P).count o = 0 := by
        have hval := (hcounted.counts o b hb).2.2 k hk
        rw [List.count_cons_self, Int32.ofNat_add] at hval
        rw [hval, show Int32.ofNat 1 = 1 from rfl, Int32.add_sub_cancel]
        refine ofNat_eq_zero ?_
        have := List.count_le_length (a := o) (l := units h.shared this D P)
        omega
      unfold SharedPointer.Release
      rw [returns_bind, returns_counts hb hk, returns_bind, returns_set_counts]
      refine returns_ite (fun hz => ?_) fun hz => ?_
      · rw [hzero] at hz
        have hdies : Dies vs this hold o := dies_of_count hd.removed hd.dying hP hz
        have henter : (units h.shared this (o :: D)
            (targets (h.shared.filter fun v => v.owner = some o) ++ P)).Perm
              (units h.shared this D P) :=
          units_enter (fun v hv hvo hname => hthis v (hd.sub.subset hv) hname o hvo hdies) hoD
        have hd₁ : Debt vs this hold turns
            (h.update o fun b => { b with counts := some (k.1 - 1, k.2) }) (o :: D)
            (targets (h.shared.filter fun v => v.owner = some o) ++ P) := by
          refine ⟨?_, hd.sub, hd.removed, List.forall_mem_cons.mpr ⟨hdies, hd.dying⟩, ?_, ?_⟩
          · refine (hcounted.drop hb hk ?_ ?_).congr fun x => henter.count_eq x
            · intro x hx
              rw [List.mem_cons, or_iff_right hx]
            · exact Or.inr List.mem_cons_self
          · intro x hx
            refine (henter.count_eq x).trans ?_
            rcases List.mem_cons.mp hx with rfl | hx
            · exact hz
            · have := hd.idle x hx
              rw [hperm.count_eq] at this
              exact Nat.eq_zero_of_le_zero (this ▸ List.count_le_count_cons)
          · exact Nat.le_trans (Nat.le_of_eq henter.length_eq) hlen
        rw [returns_bind, returns_get, returns_bind]
        refine returns_mono (hd₁.members (fun hd hP => ih (by omega) hd hP) hP) ?_
        rintro - h₂ hd₂
        exact hd₂.free hoD
      · rw [hzero] at hz
        refine returns_of_eq rfl ⟨?_, hd.sub, hd.removed, hd.dying, fun x hx => ?_,
          Nat.le_succ_of_le hlen⟩
        · exact hcounted.drop hb hk (fun _ _ => Iff.rfl) (Or.inl (Nat.pos_of_ne_zero hz))
        · have := hd.idle x hx
          rw [hperm.count_eq] at this
          exact Nat.eq_zero_of_le_zero (this ▸ List.count_le_count_cons)

end Infos.Commons.Pointers
