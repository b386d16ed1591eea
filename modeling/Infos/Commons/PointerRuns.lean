import Infos.Commons.Counts
import Mathlib.Data.List.Nodup

/-!
# Programs with shared pointers

Every step that keeps the counts leaves them exact, and comes back if there is memory.
-/

open Infos.Prog

namespace Infos.Commons.Pointers

variable {h h' : Store} {U : List ℕ} {o x this name : ℕ} {b : Object} {k : Int32 × Int32}
  {hold owner u : Option ℕ} {vs : List Variable} {v w : Variable} {c : Call}

/-! ## The pointers by name -/

theorem perm_removed (hn : (names vs).Nodup) (hv : v ∈ vs) :
    vs.Perm (v :: removed v.name vs) := by
  induction vs with
  | nil => cases hv
  | cons w vs ih =>
    obtain ⟨hw, hn⟩ := List.nodup_cons.mp hn
    have hne : ∀ u ∈ vs, u.name ≠ w.name := fun u hu heq => hw (List.mem_map.mpr ⟨u, hu, heq⟩)
    unfold removed at ih ⊢
    rcases List.mem_cons.mp hv with rfl | hv
    · have hself : vs.filter (fun u => decide (u.name ≠ v.name)) = vs :=
        List.filter_eq_self.mpr fun u hu => decide_eq_true (hne u hu)
      rw [List.filter_cons_of_neg (by simp), hself]
    · rw [List.filter_cons_of_pos (by simpa using (hne v hv).symm)]
      exact ((ih hn hv).cons w).trans (List.Perm.swap ..)

theorem removed_assigned :
    removed name (assigned name u vs) = removed name vs := by
  induction vs with
  | nil => rfl
  | cons w vs ih =>
    unfold removed assigned at ih ⊢
    by_cases hw : w.name = name
    · simpa [hw] using ih
    · simpa [hw] using ih

theorem names_assigned : names (assigned name u vs) = names vs := by
  unfold names assigned
  rw [List.map_map]
  refine List.map_congr_left fun v _ => ?_
  dsimp only [Function.comp_apply]
  split <;> rfl

theorem mem_assigned (hv : v ∈ vs) :
    { v with value := u } ∈ assigned v.name u vs :=
  List.mem_map.mpr ⟨v, hv, if_pos rfl⟩

theorem owner_assigned (hv : v ∈ assigned name u vs) :
    ∃ w ∈ vs, w.owner = v.owner := by
  obtain ⟨w, hw, rfl⟩ := List.mem_map.mp hv
  refine ⟨w, hw, ?_⟩
  split <;> rfl

theorem lookup_eq (hn : (names vs).Nodup) (hv : v ∈ vs) : lookup v.name vs = some v := by
  unfold lookup
  cases hf : vs.find? fun w => decide (w.name = v.name) with
  | none =>
    have := List.find?_eq_none.mp hf v hv
    simp at this
  | some w =>
    have hw := List.find?_some hf
    rw [List.inj_on_of_nodup_map hn (List.mem_of_find?_eq_some hf) hv (of_decide_eq_true hw)]

theorem targets_perm (hn : (names vs).Nodup) (hv : v ∈ vs) :
    (targets vs).Perm (v.value.toList ++ targets (removed v.name vs)) := by
  rw [← targets_cons]
  exact (perm_removed hn hv).filterMap _

theorem targets_assigned (hn : (names vs).Nodup) (hv : v ∈ vs) :
    (targets (assigned v.name u vs)).Perm (u.toList ++ targets (removed v.name vs)) := by
  have hn' : (names (assigned v.name u vs)).Nodup := by rwa [names_assigned]
  have := targets_perm hn' (mem_assigned hv)
  rwa [removed_assigned] at this

/-! ## What a step preserves -/

/-- A pointer has its own name, and the counts are those of the pointers. -/
structure Inv (h : Store) : Prop where
  counted : Counted h (targets h.shared) []
  nodup : (names h.shared).Nodup
  few : h.shared.length ≤ room

theorem inv_empty : Inv .empty where
  counted := ⟨nofun, fun _ ho => (Nat.lt_irrefl 0 (ho.resolve_right (by simp))).elim, nofun, fun _ _ => rfl⟩
  nodup := List.nodup_nil
  few := Nat.zero_le _

theorem ends_read {Q : Option ℕ → Store → Prop} {E : Fault → Prop}
    (hv : lookup name h.shared = some v) :
    Ends (SharedPointer.read name) h Q E ↔ Q v.value h := by
  unfold SharedPointer.read
  rw [ends_bind, ends_get, hv, ends_pure]

theorem ends_write {Q : Unit → Store → Prop} {E : Fault → Prop}
    (hv : lookup name h.shared = some v) : Ends (SharedPointer.write name u) h Q E ↔
      Q () { h with shared := assigned name u h.shared } := by
  unfold SharedPointer.write
  rw [ends_bind, ends_get, hv]
  rfl

theorem ends_declare {Q : Unit → Store → Prop}
    (hq : h.shared.length < room → Q () { h with shared := h.shared ++ [⟨name, owner, u⟩] }) :
    Ends (SharedPointer.declare name owner u) h Q (· = .no_memory) := by
  unfold SharedPointer.declare
  rw [ends_bind, ends_get]
  exact ends_ite hq fun _ => rfl

theorem Counted.Hold (hc : Counted h U []) (hu : ∀ o, u = some o → 0 < U.count o) :
    Returns (SharedPointer.Hold u) h fun _ h' =>
      Counted h' (u.toList ++ U) [] ∧ h'.shared = h.shared := by
  cases u with
  | none => exact returns_of_eq rfl ⟨hc, rfl⟩
  | some o =>
    obtain ⟨b, hb⟩ := hc.known o (Or.inl (hu o rfl))
    obtain ⟨k, hk⟩ := hc.exists_counts (Or.inl (hu o rfl)) hb
    unfold SharedPointer.Hold
    rw [returns_bind, returns_counts hb hk, returns_set_counts]
    exact ⟨hc.held hb hk (hu o rfl), rfl⟩

/-- Where the store has other pointers, with owners that are there. -/
theorem Counted.with_shared {D : List ℕ} (hc : Counted h U D)
    (hvs : ∀ v ∈ vs, ∀ x, v.owner = some x → h.lives x = true) :
    Counted { h with shared := vs } U D :=
  ⟨hc.counts, hc.known, hvs, hc.fresh⟩

theorem Counted.with_weak (hc : Counted h U []) : Counted { h with weak := vs } U [] :=
  ⟨hc.counts, hc.known, hc.owners, hc.fresh⟩

theorem exists_lookup (hn : name ∈ names vs) : ∃ v, lookup name vs = some v := by
  obtain ⟨v, hv, rfl⟩ := List.mem_map.mp hn
  refine Option.isSome_iff_exists.mp ?_
  unfold lookup
  rw [List.find?_isSome]
  exact ⟨v, hv, by simp⟩

theorem value_eq (hv : lookup name vs = some v) : value name vs = v.value := by
  unfold value
  rw [hv, Option.bind_some]

theorem mem_of_lookup (hv : lookup name vs = some v) : v ∈ vs ∧ v.name = name :=
  ⟨List.mem_of_find?_eq_some hv, of_decide_eq_true (List.find?_some hv :)⟩

theorem count_targets (hv : v ∈ vs) (ho : v.value = some o) : 0 < (targets vs).count o :=
  List.count_pos_iff.mpr (mem_targets.mpr ⟨v, hv, ho⟩)

theorem targets_concat : targets (vs ++ [⟨name, owner, u⟩]) = targets vs ++ u.toList := by
  unfold targets
  rw [List.filterMap_append]
  cases u <;> rfl

/-- There is one more pointer, which is not counted yet. -/
theorem Counted.concat (hc : Counted h U []) (hf : Fresh h h.shared name owner) :
    Counted { h with shared := h.shared ++ [⟨name, owner, u⟩] } U [] := by
  refine hc.with_shared fun v hv x hx => ?_
  rcases List.mem_append.mp hv with hv | hv
  · exact hc.owners v hv x hx
  · obtain rfl := List.mem_singleton.mp hv
    dsimp only at hx
    have := hf.2
    rwa [hx, Option.all_some] at this

theorem nodup_concat (hn : (names vs).Nodup) (hname : name ∉ names vs) :
    (names (vs ++ [⟨name, owner, u⟩])).Nodup := by
  unfold names at hn hname ⊢
  rw [List.map_append, List.map_singleton, ← List.concat_eq_append]
  exact hn.concat hname

theorem Inv.null (hi : Inv h) (hf : Fresh h h.shared name owner) :
    Ends (SharedPointer.declare name owner none) h (fun _ h' => Inv h') (· = .no_memory) := by
  refine ends_declare fun hlen => ⟨?_, nodup_concat hi.nodup hf.1, ?_⟩
  · dsimp only
    rw [targets_concat, Option.toList_none, List.append_nil]
    exact hi.counted.concat hf
  · rw [List.length_append]
    exact hlen

/-- A new pointer to what has one. -/
theorem Inv.share (hi : Inv h) (hf : Fresh h h.shared name owner)
    (hu : ∀ o, u = some o → 0 < (targets h.shared).count o) :
    Ends (SharedPointer.declare name owner u >>= fun _ => SharedPointer.Hold u) h
      (fun _ h' => Inv h') (· = .no_memory) := by
  rw [ends_bind]
  refine ends_declare fun hlen => ?_
  refine ends_of_returns (returns_mono ((hi.counted.concat hf).Hold hu) ?_)
  rintro - h' ⟨hc, hshared⟩
  refine ⟨?_, ?_, ?_⟩
  · refine hc.congr fun x => ?_
    rw [hshared, targets_concat, List.count_append, List.count_append, Nat.add_comm]
  · rw [hshared]
    exact nodup_concat hi.nodup hf.1
  · rw [hshared]
    rw [List.length_append]
    exact hlen

theorem Inv.copy (hi : Inv h) (hf : Fresh h h.shared name owner) (hv : lookup x h.shared = some v) :
    Ends (SharedPointer.copy name owner x) h (fun _ h' => Inv h') (· = .no_memory) := by
  unfold SharedPointer.copy
  rw [ends_bind, ends_read hv]
  exact hi.share hf fun o ho => count_targets (mem_of_lookup hv).1 ho

theorem Inv.construct {address : ℕ} (hi : Inv h) (hf : Fresh h h.shared name owner) :
    Ends (SharedPointer.construct name owner address) h (fun _ h' => Inv h') (· = .no_memory) := by
  have hc := hi.counted
  have hnone : h.object h.next = none := hc.fresh _ (Nat.le_refl _)
  have hzero : (targets h.shared).count h.next = 0 := by
    by_contra hne
    obtain ⟨b, hb⟩ := hc.known _ (Or.inl (Nat.pos_of_ne_zero hne))
    rw [hnone] at hb
    cases hb
  have hlives : ∀ x, h.lives x = true → Store.lives { h with
      object := Function.update h.object h.next (some ⟨address, true, some (1, 1)⟩)
      next := h.next + 1 } x = true := by
    intro x hx
    have hne : x ≠ h.next := by
      rintro rfl
      rw [Store.lives, hnone] at hx
      cases hx
    unfold Store.lives at hx ⊢
    dsimp only
    rwa [Function.update_of_ne hne]
  have hnew : Counted { h with
      object := Function.update h.object h.next (some ⟨address, true, some (1, 1)⟩)
      next := h.next + 1 } (h.next :: targets h.shared) [] := by
    refine ⟨fun o b hb => ?_, fun o ho => ?_, fun v hv x hx => hlives x (hc.owners v hv x hx),
      fun o ho => ?_⟩
    · dsimp only at hb
      rw [Function.update_apply] at hb
      split at hb
      · subst o
        cases hb
        rw [List.count_cons_self, hzero]
        simp
      · rename_i hne
        rw [List.count_cons_of_ne (Ne.symm hne)]
        exact hc.counts o b hb
    · dsimp only
      rw [Function.update_apply]
      split
      · exact ⟨_, rfl⟩
      · rename_i hne
        rw [List.count_cons_of_ne (Ne.symm hne)] at ho
        exact hc.known o ho
    · dsimp only at ho ⊢
      rw [Function.update_of_ne (by omega)]
      exact hc.fresh o (by omega)
  unfold SharedPointer.construct
  rw [ends_bind, ends_get, ends_bind, ends_modify]
  refine ends_declare fun hlen => ⟨?_, nodup_concat hi.nodup hf.1, ?_⟩
  · have hall := hf.2
    refine (hnew.concat ⟨hf.1, ?_⟩).congr fun x => ?_
    · cases owner with
      | none => rfl
      | some x => exact hlives x hall
    · rw [targets_concat, List.count_append, Nat.add_comm, ← List.count_append]
      rfl
  · rw [List.length_append]
    exact hlen

theorem Inv.move (hi : Inv h) (hf : Fresh h h.shared name owner) (hv : lookup x h.shared = some v) :
    Ends (SharedPointer.move name owner x) h (fun _ h' => Inv h') (· = .no_memory) := by
  obtain ⟨hmem, rfl⟩ := mem_of_lookup hv
  unfold SharedPointer.move
  rw [ends_bind, ends_read hv, ends_bind]
  refine ends_declare fun hlen => ?_
  have hn : (names (h.shared ++ [⟨name, owner, v.value⟩])).Nodup := nodup_concat hi.nodup hf.1
  have hmem' : v ∈ h.shared ++ [⟨name, owner, v.value⟩] := List.mem_append_left _ hmem
  rw [ends_write (lookup_eq hn hmem')]
  refine ⟨?_, ?_, ?_⟩
  · have hold := targets_perm hn hmem'
    have hnew := targets_assigned (u := none) hn hmem'
    refine ((hi.counted.concat hf).with_shared fun w hw x hx => ?_).congr fun x => ?_
    · obtain ⟨w', hw', how⟩ := owner_assigned hw
      exact (hi.counted.concat hf).owners w' hw' x (how.trans hx)
    · have h₁ := hold.count_eq x
      have h₂ := hnew.count_eq x
      rw [targets_concat, List.count_append, List.count_append] at h₁
      rw [Option.toList_none, List.nil_append] at h₂
      dsimp only
      omega
  · dsimp only
    rwa [names_assigned]
  · unfold assigned
    rw [List.length_map, List.length_append]
    exact hlen

/-! ## Letting go of a pointer -/

theorem removed_eq_filter : removed this vs = vs.filter (live this []) := by
  unfold removed live
  simp

/-- The pointer `this` lets go of its object, and only then is it given another. -/
theorem Counted.let_go (hc : Counted h (hold.toList ++ targets h.shared) [])
    (hn : (names h.shared).Nodup) (hlen : h.shared.length ≤ room) (hv : v ∈ h.shared)
    (hkeep : Keeps h.shared v.name hold v.name) :
    Returns (SharedPointer.release v.value) h fun _ h' =>
      Counted h' (hold.toList ++ targets (removed v.name h'.shared)) [] ∧
      h'.shared.Sublist h.shared ∧
      ∀ w ∈ h.shared, Keeps h.shared v.name hold w.name → w ∈ h'.shared := by
  have hperm := targets_perm hn hv
  have hroom : room < 2 ^ 31 - 1 := by decide
  have hdebt : Debt h.shared v.name hold (h.shared.length + 1) h [] (v.value.toList ++ hold.toList) := by
    refine ⟨hc.congr fun x => ?_, List.Sublist.refl _, fun w hw hno => absurd hw hno, nofun, nofun, ?_⟩
    · unfold units
      have := hperm.count_eq x
      rw [← removed_eq_filter]
      simp only [List.count_append] at this ⊢
      omega
    · unfold units
      have hone := (perm_removed hn hv).length_eq
      have htargets : (targets (removed v.name h.shared)).length ≤ (removed v.name h.shared).length :=
        List.length_filterMap_le ..
      rw [← removed_eq_filter, List.length_append, List.length_append]
      rw [List.length_cons] at hone
      have hle : ∀ u : Option ℕ, u.toList.length ≤ 1 := fun u => by cases u <;> simp
      have := hle v.value
      have := hle hold
      omega
  unfold SharedPointer.release
  rw [returns_bind, returns_get]
  refine returns_mono (hdebt.release hkeep (by omega) fun o ho => by simp [ho]) ?_
  rintro - h' hd
  refine ⟨hd.counted.congr fun x => ?_, hd.sub, fun w hw hkw => ?_⟩
  · unfold units
    rw [← removed_eq_filter, List.count_append, List.count_append, Nat.add_comm]
  · by_contra hno
    obtain ⟨x, hx, hdies⟩ := hd.removed w hw hno
    exact hkw w hw rfl x hx hdies

theorem Inv.destroy (hi : Inv h) (hv : lookup this h.shared = some v)
    (hkeep : Keeps h.shared this none this) :
    Ends (SharedPointer.destroy this) h (fun _ h' => Inv h') (· = .no_memory) := by
  obtain ⟨hmem, rfl⟩ := mem_of_lookup hv
  unfold SharedPointer.destroy
  rw [ends_bind, ends_read hv, ends_bind]
  have hc : Counted h ((none : Option ℕ).toList ++ targets h.shared) [] := hi.counted
  refine ends_of_returns (returns_mono (hc.let_go hi.nodup hi.few hmem hkeep) ?_)
  rintro - h' ⟨hc, hsub, -⟩
  have hsub' : (removed v.name h'.shared).Sublist h.shared := List.filter_sublist.trans hsub
  refine ⟨?_, hi.nodup.sublist (hsub'.map _), Nat.le_trans hsub'.length_le hi.few⟩
  exact hc.with_shared fun w hw => hc.owners w (List.mem_filter.mp hw).1

/-- The end of an assignment. -/
theorem Inv.write (hc : Counted h' (u.toList ++ targets (removed v.name h'.shared)) [])
    (hsub : h'.shared.Sublist h.shared) (hi : Inv h) (hv : v ∈ h'.shared) :
    Ends (SharedPointer.write v.name u) h' (fun _ h' => Inv h') (· = .no_memory) := by
  have hn : (names h'.shared).Nodup := hi.nodup.sublist (hsub.map _)
  rw [ends_write (lookup_eq hn hv)]
  refine ⟨?_, ?_, ?_⟩
  · refine (hc.with_shared fun w hw x hx => ?_).congr fun x =>
      (targets_assigned hn hv).count_eq x
    obtain ⟨w', hw', how⟩ := owner_assigned hw
    exact hc.owners w' hw' x (how.trans hx)
  · dsimp only
    rwa [names_assigned]
  · unfold assigned
    rw [List.length_map]
    exact Nat.le_trans hsub.length_le hi.few

theorem Inv.assign_null (hi : Inv h) (hv : lookup this h.shared = some v)
    (hkeep : Keeps h.shared this none this) :
    Ends (SharedPointer.assign_null this) h (fun _ h' => Inv h') (· = .no_memory) := by
  obtain ⟨hmem, rfl⟩ := mem_of_lookup hv
  unfold SharedPointer.assign_null
  rw [ends_bind, ends_read hv, ends_bind]
  have hc : Counted h ((none : Option ℕ).toList ++ targets h.shared) [] := hi.counted
  refine ends_of_returns (returns_mono (hc.let_go hi.nodup hi.few hmem hkeep) ?_)
  rintro - h' ⟨hc, hsub, hstays⟩
  exact Inv.write (u := none) hc hsub hi (hstays v hmem hkeep)

theorem Inv.assign (hi : Inv h) (hv : lookup this h.shared = some v)
    (hw : lookup name h.shared = some w) (hthis : Keeps h.shared this w.value this)
    (hother : Keeps h.shared this w.value name) :
    Ends (SharedPointer.assign this name) h (fun _ h' => Inv h') (· = .no_memory) := by
  obtain ⟨hvmem, rfl⟩ := mem_of_lookup hv
  obtain ⟨hwmem, rfl⟩ := mem_of_lookup hw
  unfold SharedPointer.assign
  rw [ends_bind, ends_read hw, ends_bind]
  refine ends_of_returns (returns_mono
    (hi.counted.Hold fun o ho => count_targets hwmem ho) ?_)
  rintro - h₁ ⟨hc₁, hshared⟩
  rw [← hshared] at hv hvmem hwmem hthis hother hc₁
  have hn : (names h₁.shared).Nodup := hshared ▸ hi.nodup
  have hfew : h₁.shared.length ≤ room := hshared ▸ hi.few
  rw [ends_bind, ends_read hv, ends_bind]
  refine ends_of_returns (returns_mono (hc₁.let_go hn hfew hvmem hthis) ?_)
  rintro - h₂ ⟨hc₂, hsub, hstays⟩
  have hw₂ := hstays w hwmem hother
  have hn₂ : (names h₂.shared).Nodup := hn.sublist (hsub.map _)
  rw [ends_bind, ends_read (lookup_eq hn₂ hw₂)]
  exact Inv.write hc₂ (hshared ▸ hsub) hi (hstays v hvmem hthis)

/-! ## Weak pointers -/

theorem ends_weak_read {Q : Option ℕ → Store → Prop} {E : Fault → Prop}
    (hv : lookup name h.weak = some v) :
    Ends (WeakPointer.read name) h Q E ↔ Q v.value h := by
  unfold WeakPointer.read
  rw [ends_bind, ends_get, hv, ends_pure]

/-- A pointer to what is there is a pointer like others, else it is null. -/
theorem Inv.Pin (hi : Inv h) (hf : Fresh h h.shared name owner) (hv : lookup x h.weak = some v)
    (hcounts : ∀ o, v.value = some o → ∃ b, h.object o = some b ∧ b.counts ≠ none) :
    Ends (WeakPointer.Pin name owner x) h (fun _ h' => Inv h') (· = .no_memory) := by
  unfold WeakPointer.Pin
  rw [ends_bind, ends_weak_read hv]
  cases ho : v.value with
  | none => exact hi.null hf
  | some o =>
    obtain ⟨b, hb, hne⟩ := hcounts o ho
    obtain ⟨k, hk⟩ := Option.ne_none_iff_exists'.mp hne
    dsimp only
    rw [ends_bind]
    refine ends_of_returns ((returns_counts hb hk).mpr ?_)
    refine ends_ite (fun hpos => ?_) fun _ => hi.null hf
    refine hi.share hf fun o' ho' => ?_
    obtain rfl := Option.some.inj ho'
    refine Nat.pos_of_ne_zero fun hzero => hpos ?_
    rw [(hi.counted.counts o b hb).2.2 k hk, hzero]
    rfl

theorem Inv.weak_Hold (hi : Inv h) (hu : ∀ o, u = some o → 0 < (targets h.shared).count o) :
    Returns (WeakPointer.Hold u) h fun _ h' => Inv h' := by
  cases u with
  | none => exact returns_of_eq rfl hi
  | some o =>
    obtain ⟨b, hb⟩ := hi.counted.known o (Or.inl (hu o rfl))
    obtain ⟨k, hk⟩ := hi.counted.exists_counts (Or.inl (hu o rfl)) hb
    obtain ⟨halive, -, hval⟩ := hi.counted.counts o b hb
    unfold WeakPointer.Hold
    rw [returns_bind, returns_counts hb hk, returns_set_counts]
    refine ⟨?_, hi.nodup, hi.few⟩
    refine hi.counted.set_counts hb (fun _ _ => rfl) (fun _ _ => Iff.rfl) halive nofun ?_
    rintro - ⟨⟩
    exact hval k hk

theorem Inv.weak_Release (hi : Inv h) (hspare : ∀ o, u = some o →
      ∃ b c, h.object o = some b ∧ b.counts = some c ∧ (b.alive = true → c.2 ≠ 1)) :
    Returns (WeakPointer.Release u) h fun _ h' => Inv h' ∧ h'.shared = h.shared := by
  cases u with
  | none => exact returns_of_eq rfl ⟨hi, rfl⟩
  | some o =>
    obtain ⟨b, k, hb, hk, hone⟩ := hspare o rfl
    obtain ⟨halive, -, hval⟩ := hi.counted.counts o b hb
    unfold WeakPointer.Release
    rw [returns_bind, returns_counts hb hk, returns_set_counts]
    refine ⟨⟨?_, hi.nodup, hi.few⟩, rfl⟩
    refine hi.counted.set_counts hb (fun _ _ => rfl) (fun _ _ => Iff.rfl) halive ?_ ?_
    · intro hlive hnone
      have hzero : k.2 - 1 = 0 := by
        by_contra hne
        rw [if_neg hne] at hnone
        cases hnone
      refine hone hlive ?_
      have := Int32.sub_add_cancel k.2 1
      rw [hzero, Int32.zero_add] at this
      exact this.symm
    · intro k' hk'
      split at hk'
      · cases hk'
      · cases hk'
        exact hval k hk

theorem Inv.with_weak (hi : Inv h) : Inv { h with weak := vs } :=
  ⟨hi.counted.with_weak, hi.nodup, hi.few⟩

theorem Inv.weak (hi : Inv h) (hv : lookup x h.shared = some v) :
    Ends (WeakPointer.construct name owner x) h (fun _ h' => Inv h') (· = .no_memory) := by
  unfold WeakPointer.construct WeakPointer.declare
  rw [ends_bind, ends_read hv, ends_bind, ends_modify]
  exact ends_of_returns (hi.with_weak.weak_Hold fun o ho => count_targets (mem_of_lookup hv).1 ho)

theorem Inv.weak_assign (hi : Inv h) (hv : lookup this h.weak = some v)
    (hw : lookup name h.shared = some w) (hspare : h.data v.value ≠ h.data w.value →
      ∀ o, v.value = some o → ∃ b c, h.object o = some b ∧ b.counts = some c ∧
        (b.alive = true → c.2 ≠ 1)) :
    Ends (WeakPointer.assign this name) h (fun _ h' => Inv h') (· = .no_memory) := by
  unfold WeakPointer.assign WeakPointer.write
  rw [ends_bind, ends_weak_read hv, ends_bind, ends_read hw, ends_bind, ends_get, ends_bind, ends_get]
  refine ends_ite (fun hne => ?_) fun _ => hi
  rw [ends_bind]
  refine ends_of_returns (returns_mono (hi.weak_Release (hspare hne)) ?_)
  rintro - h' ⟨hi', hshared⟩
  rw [ends_bind, ends_modify]
  refine ends_of_returns (hi'.with_weak.weak_Hold fun o ho => ?_)
  dsimp only
  rw [hshared]
  exact count_targets (mem_of_lookup hw).1 ho

/-! ## Main results -/

/-- A step that keeps the counts comes back, or there is no memory for a pointer. -/
theorem Inv.step (hi : Inv h) (ha : c.Allowed h) (hg : Counts h c) :
    Ends c.run h (fun _ h' => Inv h') (· = .no_memory) := by
  cases c with
  | construct name owner address => exact hi.construct ha
  | null name owner => exact hi.null ha
  | copy name owner p =>
    obtain ⟨v, hv⟩ := exists_lookup ha.2
    exact hi.copy ha.1 hv
  | move name owner p =>
    obtain ⟨v, hv⟩ := exists_lookup ha.2
    exact hi.move ha.1 hv
  | assign this other =>
    obtain ⟨v, hv⟩ := exists_lookup ha.1
    obtain ⟨w, hw⟩ := exists_lookup ha.2
    dsimp only [Counts] at hg
    rw [value_eq hw] at hg
    exact hi.assign hv hw hg.1 hg.2
  | assign_null this =>
    obtain ⟨v, hv⟩ := exists_lookup ha
    exact hi.assign_null hv hg
  | destroy this =>
    obtain ⟨v, hv⟩ := exists_lookup ha
    exact hi.destroy hv hg
  | StaticCast name owner p =>
    obtain ⟨v, hv⟩ := exists_lookup ha.2
    dsimp only [Counts] at hg
    rw [value_eq hv] at hg
    unfold Call.run SharedPointer.StaticCast SharedPointer.ConstructPointerAtType
    rw [ends_bind, ends_read hv, if_pos hg]
    exact hi.null ha.1
  | DynamicCast derived name owner p =>
    obtain ⟨v, hv⟩ := exists_lookup ha.2
    dsimp only [Counts] at hg
    rw [value_eq hv] at hg
    have hnone : (if derived = true then v.value else none) = none := by
      split
      · exact hg ‹_›
      · rfl
    unfold Call.run SharedPointer.DynamicCast SharedPointer.ConstructPointerAtType
    rw [ends_bind, ends_read hv, if_pos hnone]
    exact hi.null ha.1
  | Pin name owner w =>
    obtain ⟨v, hv⟩ := exists_lookup ha.2
    dsimp only [Counts] at hg
    rw [value_eq hv] at hg
    exact hi.Pin ha.1 hv hg
  | weak name owner p =>
    obtain ⟨v, hv⟩ := exists_lookup ha.2
    exact hi.weak hv
  | weak_null name owner => exact hi.with_weak
  | weak_copy name owner w =>
    obtain ⟨v, hv⟩ := exists_lookup ha.2
    unfold Call.run WeakPointer.copy
    rw [ends_bind, ends_weak_read hv]
    exact hi.with_weak
  | weak_copy_assign this other =>
    obtain ⟨v, hv⟩ := exists_lookup ha.2
    unfold Call.run WeakPointer.copy_assign
    rw [ends_bind, ends_weak_read hv]
    exact hi.with_weak
  | weak_assign this p =>
    obtain ⟨v, hv⟩ := exists_lookup ha.1
    obtain ⟨w, hw⟩ := exists_lookup ha.2
    dsimp only [Counts, Spare] at hg
    rw [value_eq hv, value_eq hw] at hg
    exact hi.weak_assign hv hw hg
  | weak_assign_null this =>
    obtain ⟨v, hv⟩ := exists_lookup ha
    dsimp only [Counts, Spare] at hg
    rw [value_eq hv] at hg
    unfold Call.run WeakPointer.assign_null
    rw [ends_bind, ends_weak_read hv, ends_bind]
    refine ends_of_returns (returns_mono (hi.weak_Release hg) ?_)
    rintro - h' ⟨hi', -⟩
    exact hi'.with_weak
  | weak_destroy this => exact hi.with_weak

theorem Inv.reachable (hr : (system Counts).Reachable h) : Inv h := by
  refine hr.preserves (fun h hh => hh ▸ inv_empty) fun h c h' hi ha hs => ?_
  obtain ⟨⟨_, _⟩, hx, rfl⟩ := map_eq_ok hs
  exact ends_ok (hi.step ha.1 ha.2) hx

theorem Inv.exact (hi : Inv h) : Exact h := by
  intro o b hb
  obtain ⟨halive, hsome, hval⟩ := hi.counted.counts o b hb
  refine ⟨by simpa using halive, hsome, fun c hc => ?_⟩
  have hle : (targets h.shared).count o ≤ h.shared.length :=
    Nat.le_trans List.count_le_length (List.length_filterMap_le ..)
  have hroom : room < 2 ^ 31 := by decide
  have := hi.few
  rw [hval c hc, Int32.toInt_ofNat_of_lt (by omega)]

/-- In every run of steps that keep the counts these are exact, and no step goes wrong but for want of
memory. -/
theorem exact_of_counts (hr : (system Counts).Reachable h) : Exact h ∧
    ∀ c e, (system Counts).allowed h c → (system Counts).step h c = .error e → e = .no_memory := by
  have hi := Inv.reachable hr
  refine ⟨hi.exact, fun c e ha he => ?_⟩
  have := hi.step ha.1 ha.2
  unfold Ends at this
  rw [map_eq_error he] at this
  exact this

theorem keeps_local (hl : ∀ v ∈ vs, v.name = name → v.owner = none) : Keeps vs this hold name := by
  intro v hv hn x hx
  rw [hl v hv hn] at hx
  cases hx

/-- An object that goes away with a pointer to another, of which there is a copy. -/
theorem exact_of_counts_member : ∃ h, (system Counts).Reachable h ∧ h.lives 0 = false ∧
    h.lives 1 = true ∧ Exact h := by
  have hr : (system Counts).Reachable _ := ⟨.empty, [.construct 0 none 100, .construct 1 (some 0) 200,
    .copy 2 none 1, .destroy 0], rfl, .cons ⟨by decide, trivial⟩ rfl (.cons ⟨by decide, trivial⟩ rfl
    (.cons ⟨by decide, trivial⟩ rfl (.cons ⟨by decide, keeps_local (by decide)⟩ rfl (.nil _))))⟩
  exact ⟨_, hr, by decide, by decide, (exact_of_counts hr).1⟩

instance (h : Store) (c : Call) : Decidable ((system fun _ _ => True).allowed h c) :=
  inferInstanceAs (Decidable (_ ∧ True))

/-- A pointer that was cast leaves the object behind. A pointer cannot be given what is stored in the
object that it keeps, as the node of a list has the next one. And a copy of a weak pointer takes back
what it was not counted for. -/
theorem miscounts :
    (¬ ∀ h, (system fun _ _ => True).Reachable h → Exact h) ∧
    (∃ h, (system fun _ _ => True).Run .empty [.construct 0 none 100, .construct 1 (some 0) 200] h ∧
      (system fun _ _ => True).step h (.assign 0 1) = .error .freed) ∧
    ∃ h, (system fun _ _ => True).Run .empty [.construct 0 none 100, .weak 0 none 0,
        .weak_copy 1 none 0, .weak_assign_null 0, .weak_assign_null 1] h ∧
      (system fun _ _ => True).step h (.copy 1 none 0) = .error .freed := by
  refine ⟨fun hall => ?_, ?_, ?_⟩
  · have hrun : ((system fun _ _ => True).exec .empty [.construct 0 none 100, .StaticCast 1 none 0,
        .destroy 0, .destroy 1]).map (fun h => (h.shared, h.object 0)) =
        some ([], some ⟨100, true, some (1, 1)⟩) := by decide +kernel
    obtain ⟨h, hh, heq⟩ := Option.map_eq_some_iff.mp hrun
    obtain ⟨hshared, hobject⟩ := Prod.mk.inj heq
    have := (hall h ⟨_, _, rfl, System.run_of_exec hh⟩ 0 _ hobject).1.mp rfl
    rw [hshared] at this
    cases this
  · exact ⟨_, .cons ⟨by decide, trivial⟩ rfl (.cons ⟨by decide, trivial⟩ rfl (.nil _)), rfl⟩
  · exact ⟨_, .cons ⟨by decide, trivial⟩ rfl (.cons ⟨by decide, trivial⟩ rfl
      (.cons ⟨by decide, trivial⟩ rfl (.cons ⟨by decide, trivial⟩ rfl
        (.cons ⟨by decide, trivial⟩ rfl (.nil _))))), rfl⟩

end Infos.Commons.Pointers
