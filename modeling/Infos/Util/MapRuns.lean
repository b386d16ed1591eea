import Infos.Lib.System
import Infos.Util.MapCalls
import Mathlib.Data.List.Dedup

/-!
# Runs of calls on a map

Every sequence of `add` and `clear` leaves a balanced tree, which holds what was added last.
-/

open Infos.Prog Infos.RedBlack Infos.RedBlack.RBTree

namespace Infos.Util.Map

/-- `addr` is where the allocator has memory for a new node. -/
inductive Call (K V : Type) where
  | add (addr : ℕ) (key : K) (value : V)
  | clear
  deriving DecidableEq, Repr

variable {K V : Type}

/-- What was added by the calls since the last `clear`. -/
def added : List (K × V) → List (Call K V) → List (K × V)
  | es, [] => es
  | es, .add _ key value :: cs => added (es ++ [(key, value)]) cs
  | _, .clear :: cs => added [] cs

variable [LinearOrder K]

def Call.run : Call K V → Op K V Unit
  | .add addr key value => Map.add addr key value
  | .clear => Map.clear

/-- There is no room for a new node where the call would have one. -/
def Call.Refused (m : Map K V) : Call K V → Prop
  | .add addr _ _ => ¬(m.node addr = none ∧ addr + 24 ≤ PMEM_VA_SIZE)
  | .clear => False

/-- A map, which starts empty. -/
def system (K V : Type) [LinearOrder K] : System (Map K V) (Call K V) Fault where
  start m := m = empty
  allowed _ _ := True
  step m c := (c.run m).map Prod.snd

instance (m : Map K V) (d : Call K V) : Decidable ((system K V).allowed m d) :=
  inferInstanceAs (Decidable True)

/-- The value that was added last with the key. -/
def last (k : K) (es : List (K × V)) : Option V :=
  (es.reverse.find? fun e => e.1 = k).map Prod.snd

/-- `t` is a red-black tree that holds what was added. -/
structure Holds (es : List (K × V)) (m : Map K V) (t : RBTree (Cell K V)) : Prop where
  rep : Rep m t
  sorted : t.Sorted Cell.key
  root : t.colour = .BLACK
  red : t.NoRedRed
  black : ∃ n, t.BlackHeight n
  count : m._count = UInt32.ofNat t.size
  value : ∀ k, (t.find Cell.key k).map Cell.value = last k es

variable {m m' : Map K V} {t l r : RBTree (Cell K V)} {c : Colour} {x : Cell K V} {k k₁ : K} {v : V}
  {p : List (Step (Cell K V))} {es : List (K × V)} {cs : List (Call K V)} {addr : ℕ}

@[simp] theorem last_nil : last k ([] : List (K × V)) = none := rfl

theorem last_append : last k₁ (es ++ [(k, v)]) = if k₁ = k then some v else last k₁ es := by
  unfold last
  rw [List.reverse_append, List.reverse_singleton, List.singleton_append, List.find?_cons]
  by_cases h : k = k₁
  · simp [h]
  · simp [h, Ne.symm h]

theorem last_eq_none : last k es = none ↔ k ∉ es.map Prod.fst := by
  unfold last
  simp only [Option.map_eq_none_iff, List.find?_eq_none, List.mem_map, List.mem_reverse,
    decide_eq_true_eq, not_exists, not_and]

theorem mem_of_last (h : last k es = some v) : (k, v) ∈ es := by
  unfold last at h
  obtain ⟨⟨k₁, v₁⟩, hf, rfl⟩ := Option.map_eq_some_iff.mp h
  have hk := List.find?_some hf
  obtain rfl : k₁ = k := by simpa using hk
  exact List.mem_reverse.mp (List.mem_of_find?_eq_some hf)

theorem last_eq_some (hn : (es.map Prod.fst).Nodup) (h : (k, v) ∈ es) : last k es = some v := by
  cases hl : last k es with
  | none => exact absurd (List.mem_map_of_mem h) (last_eq_none.mp hl)
  | some v₁ => exact congrArg some (Prod.ext_iff.mp
      (List.inj_on_of_nodup_map hn (mem_of_last hl) h rfl)).2

/-! ## The tree after a call -/

/-- `t` with `x` for the cell of the same key, if there is one. -/
structure Placed (t s : RBTree (Cell K V)) (x : Cell K V) (bs as : List (Cell K V))
    (old : Option (Cell K V)) : Prop where
  toList : s.toList = bs ++ x :: as
  from_list : t.toList = bs ++ old.toList ++ as
  same : ∀ y ∈ old, y.key = x.key
  below : ∀ y ∈ bs, y.key < x.key
  above : ∀ y ∈ as, x.key < y.key

variable {s : RBTree (Cell K V)} {bs as : List (Cell K V)} {old : Option (Cell K V)}

theorem Placed.sorted (h : Placed t s x bs as old) (ht : t.Sorted Cell.key) :
    s.Sorted Cell.key := by
  unfold Sorted at ht ⊢
  rw [h.from_list, List.append_assoc, List.pairwise_append] at ht
  obtain ⟨hbs, hrest, hcross⟩ := ht
  rw [h.toList, List.pairwise_append, List.pairwise_cons]
  refine ⟨hbs, ⟨h.above, (List.pairwise_append.mp hrest).2.1⟩, fun y hy z hz => ?_⟩
  rcases List.mem_cons.mp hz with rfl | hz
  · exact h.below y hy
  · exact (h.below y hy).trans (h.above z hz)

theorem Placed.find (h : Placed t s x bs as old) (ht : t.Sorted Cell.key) :
    (s.find Cell.key k).map Cell.value =
      if k = x.key then some x.value else (t.find Cell.key k).map Cell.value := by
  rw [find_eq (h.sorted ht), find_eq ht, h.toList, h.from_list, List.find?_append, List.find?_cons,
    List.find?_append, List.find?_append]
  by_cases hk : k = x.key
  · have : bs.find? (fun y => y.key = k) = none := by
      simp only [List.find?_eq_none, decide_eq_true_eq]
      intro y hy he
      exact (h.below y hy).ne (he.trans hk)
    rw [this]
    simp [hk]
  · have : old.toList.find? (fun y => y.key = k) = none := by
      simp only [List.find?_eq_none, Option.mem_toList, decide_eq_true_eq]
      intro y hy he
      exact hk (he.symm.trans (h.same y hy))
    rw [this]
    simp [hk, Ne.symm hk]

theorem placed_value (ht : t.Sorted Cell.key) (hl : t.locate Cell.key k [] = (.node c l x r, p)) :
    Placed t (fill (.node c l { x with value := v } r) p) ⟨x.addr, k, v⟩ (before p ++ l.toList)
      (r.toList ++ after p) (some x) := by
  have hk : x.key = k := key_locate (congrArg Prod.fst hl)
  obtain ⟨hb, ha⟩ := between_of_locate ht hl
  rw [← fill_of_locate hl] at ht ⊢
  obtain ⟨-, -, hlx, hxr⟩ := ht.of_fill.node
  subst hk
  refine ⟨by simp [toList_fill, toList], by simp [toList_fill, toList], by simp, ?_, ?_⟩
  · intro y hy
    rcases List.mem_append.mp hy with hy | hy
    · exact hb y hy
    · exact hlx y hy
  · intro y hy
    rcases List.mem_append.mp hy with hy | hy
    · exact hxr y hy
    · exact ha y hy

theorem placed_new (addr : ℕ) (v : V) (ht : t.Sorted Cell.key) (hl : t.locate Cell.key k [] = (.leaf, p))
    (hs : s.toList = before p ++ [⟨addr, k, v⟩] ++ after p) :
    Placed t s ⟨addr, k, v⟩ (before p) (after p) none := by
  obtain ⟨hb, ha⟩ := between_of_locate ht hl
  refine ⟨by simpa using hs, ?_, by simp, hb, ha⟩
  rw [← fill_of_locate hl, toList_fill]
  rfl

theorem Placed.size (h : Placed t s x bs as old) : s.size + old.toList.length = t.size + 1 := by
  have hs := congrArg List.length h.toList
  have ht := congrArg List.length h.from_list
  simp only [size_toList, List.length_append, List.length_cons] at hs ht
  omega

theorem Placed.mem_addrs {a : ℕ} (h : Placed t s x bs as old) (ha : a ∈ addrs s) :
    a = x.addr ∨ a ∈ addrs t := by
  unfold addrs at ha ⊢
  rw [h.toList, List.map_append, List.map_cons, List.mem_append, List.mem_cons] at ha
  simp only [h.from_list, List.map_append, List.mem_append]
  tauto

/-! ## Calls -/

theorem Holds.placed {n : ℕ} (h : Holds es m t) (hp : Placed t s ⟨addr, k, v⟩ bs as old)
    (hrep : Rep m' s) (hroot : s.colour = .BLACK) (hred : s.NoRedRed) (hblack : s.BlackHeight n)
    (hcount : m'._count = UInt32.ofNat s.size) : Holds (es ++ [(k, v)]) m' s := by
  refine ⟨hrep, hp.sorted h.sorted, hroot, hred, ⟨n, hblack⟩, hcount, fun k₁ => ?_⟩
  rw [hp.find h.sorted, last_append, h.value]

theorem Holds.add_spec (h : Holds es m t) :
    Ends (add addr k v) m (fun _ m' => (∃ s, Holds (es ++ [(k, v)]) m' s) ∧
        ∀ a, m'.node a ≠ none → a = addr ∨ m.node a ≠ none)
      fun e => e = .no_memory ∧ ¬ (m.node addr = none ∧ addr + 24 ≤ PMEM_VA_SIZE) := by
  cases hl : t.locate Cell.key k [] with
  | mk u p =>
    have hfill := fill_of_locate hl
    obtain ⟨n, hn⟩ := h.black
    obtain ⟨j, hfits, hu, huj⟩ := fits_of_fill (p := p) (t := u) (by rw [hfill]; exact h.red)
      (by rw [hfill]; exact hn)
    cases u with
    | node c l x r =>
      refine ends_of_returns (returns_mono (add_value_spec h.rep hl) ?_)
      rintro - m' ⟨hrep, hcount⟩
      have hplaced := placed_value (v := v) h.sorted hl
      have hcol : (fill (.node c l { x with value := v } r) p).colour = t.colour := by
        rw [← show fill _ p = t from hfill]
        cases p with
        | nil => rfl
        | cons s p => exact colour_fill (by simp)
      obtain ⟨hred, i, hi⟩ := fits_fill (t := .node c l { x with value := v } r) hfits hu
        (by cases c <;> exact huj)
      refine ⟨⟨_, h.placed hplaced hrep (hcol.trans h.root) hred hi ?_⟩, fun a ha => Or.inr ?_⟩
      · rw [hcount, h.count]
        have := hplaced.size
        simp only [Option.toList_some, List.length_singleton] at this
        congr 1
        omega
      · rcases hplaced.mem_addrs (hrep.only a ha) with rfl | ha
        · refine h.rep.ne_none (List.mem_map.mpr ⟨x, ?_, rfl⟩)
          rw [hplaced.from_list]
          simp
        · exact h.rep.ne_none ha
    | leaf =>
      by_cases hfree : m.node addr = none ∧ addr + 24 ≤ PMEM_VA_SIZE
      · refine ends_of_returns
          (returns_mono (add_new_spec h.rep h.sorted h.root hfree.1 hfree.2 hl) ?_)
        rintro - m' ⟨hrep, hcount⟩
        obtain ⟨hred, i, hi⟩ := rebalance_balanced (t := .node .RED .leaf ⟨addr, k, v⟩ .leaf)
          hfits rfl (by simp [NoRedRed, colour]) ⟨huj, huj⟩
        have hplaced := placed_new addr v h.sorted hl
          (s := (rebalance (.node .RED .leaf ⟨addr, k, v⟩ .leaf) p).blacken)
          (by rw [toList_blacken, toList_rebalance, toList_fill]; rfl)
        refine ⟨⟨_, h.placed hplaced hrep colour_blacken hred hi ?_⟩, fun a ha => ?_⟩
        · have hsize := hplaced.size
          rw [Option.toList_none, List.length_nil, Nat.add_zero] at hsize
          rw [hcount, h.count, hsize, UInt32.ofNat_add]
          rfl
        · exact (hplaced.mem_addrs (hrep.only a ha)).imp_right h.rep.ne_none
      · refine ends_weaken (add_no_memory h.rep hl h.sorted hfree) (fun _ _ h => h.elim) ?_
        rintro e rfl
        exact ⟨rfl, hfree⟩

theorem holds_empty : Holds ([] : List (K × V)) empty .leaf where
  rep := ⟨rfl, trivial, by simp, fun a ha => absurd rfl ha, by simp⟩
  sorted := List.Pairwise.nil
  root := rfl
  red := trivial
  black := ⟨0, rfl⟩
  count := rfl
  value _ := rfl

/-- A call leaves the tree of what has been added by then, or the allocator has no memory for it. -/
theorem Holds.call (h : Holds es m t) (d : Call K V) :
    Ends d.run m (fun _ m' => ∃ s, Holds (added es [d]) m' s)
      fun e => e = .no_memory ∧ d.Refused m := by
  cases d with
  | add addr key value => exact ends_weaken h.add_spec (fun _ _ h => h.1) fun _ h => h
  | clear =>
    refine ends_of_returns (returns_mono (clear_spec h.rep) ?_)
    rintro - m' rfl
    exact ⟨.leaf, holds_empty⟩

omit [LinearOrder K] in
theorem added_cons (d : Call K V) : added es (d :: cs) = added (added es [d]) cs := by
  cases d <;> rfl

theorem Holds.run (hr : (system K V).Run m cs m') (h : Holds es m t) :
    ∃ s, Holds (added es cs) m' s := by
  induction hr generalizing es t with
  | nil => exact ⟨t, h⟩
  | @cons _ _ _ d _ _ hs _ ih =>
    obtain ⟨⟨_, m₁⟩, hx, rfl⟩ := map_eq_ok hs
    obtain ⟨s, hs⟩ := ends_ok (h.call d) hx
    rw [added_cons]
    exact ih hs

theorem Holds.reachable (hr : (system K V).Reachable m) : ∃ es t, Holds (V := V) es m t := by
  obtain ⟨m₀, cs, rfl, hr⟩ := hr
  obtain ⟨t, ht⟩ := holds_empty.run hr
  exact ⟨_, t, ht⟩

theorem Holds.step_error (h : Holds es m t) {d : Call K V} {e : Fault}
    (he : (system K V).step m d = .error e) : e = .no_memory ∧ d.Refused m := by
  have hcall := h.call d
  unfold Ends at hcall
  rwa [map_eq_error he] at hcall

theorem Holds.count_eq (h : Holds es m t) : (Map.count m).toNat = t.size := by
  have := h.rep.size_lt
  have hlt : t.size < UInt32.size := by
    unfold PMEM_VA_SIZE at this
    unfold UInt32.size
    omega
  unfold Map.count
  rw [h.count, UInt32.toNat_ofNat_of_lt' hlt]

/-! ## What a map holds -/

theorem Holds.mem_entries (h : Holds es m t) : (k, v) ∈ entries t ↔ last k es = some v := by
  unfold entries
  rw [← h.value, Option.map_eq_some_iff, List.mem_map]
  simp only [find_eq_some h.sorted, Prod.mk.injEq, and_assoc]

theorem Holds.nodup (h : Holds es m t) : ((entries t).map Prod.fst).Nodup := by
  unfold entries
  rw [List.map_map, List.Nodup, List.pairwise_map]
  exact h.sorted.imp fun hlt => hlt.ne

theorem Holds.perm_dedup (h : Holds es m t) :
    ((entries t).map Prod.fst).Perm (es.map Prod.fst).dedup := by
  rw [List.perm_ext_iff_of_nodup h.nodup (List.nodup_dedup _)]
  intro k
  have hlast : last k es = none ↔ k ∉ es.map Prod.fst := last_eq_none
  rw [List.mem_dedup, ← not_iff_not (b := k ∈ es.map Prod.fst), ← hlast,
    Option.eq_none_iff_forall_ne_some]
  simp only [List.mem_map, Prod.exists, exists_and_right, exists_eq_right, not_exists, ne_eq,
    h.mem_entries]

theorem Holds.size_eq (h : Holds es m t) (hn : (es.map Prod.fst).Nodup) : t.size = es.length := by
  have := h.perm_dedup.length_eq
  rw [hn.dedup] at this
  simpa [entries] using this

theorem Holds.isSome_find (h : Holds es m t) :
    (t.find Cell.key k).isSome = decide (k ∈ es.map Prod.fst) := by
  rw [Bool.eq_iff_iff, decide_eq_true_iff, ← Option.isSome_map (f := Cell.value), h.value,
    Option.isSome_iff_ne_none, ne_eq, last_eq_none, not_not]

/-! ## Main results -/

/-- The pointers of a map are those of a balanced search tree, and no call on it goes wrong but an
`add` that has no room for its node. -/
theorem balanced (hr : (system K V).Reachable m) :
    (∃ t, Rep m t ∧ t.Sorted Cell.key ∧ t.colour = .BLACK ∧ t.NoRedRed ∧ (∃ n, t.BlackHeight n) ∧
      2 ^ t.height ≤ ((count m).toNat + 1) ^ 2) ∧
    ∀ d e, (system K V).step m d = .error e → e = .no_memory ∧ d.Refused m := by
  obtain ⟨es, t, h⟩ := Holds.reachable hr
  refine ⟨⟨t, h.rep, h.sorted, h.root, h.red, h.black, ?_⟩, fun d e he => h.step_error he⟩
  obtain ⟨n, hn⟩ := h.black
  rw [h.count_eq]
  exact two_pow_height_le h.red h.root hn

/-- Three keys in falling order, of which the first is given another value. -/
def three_keys : List (Call ℕ ℕ) := [.add 0 5 50, .add 64 3 30, .add 128 1 10, .add 192 5 55]

theorem run_three_keys : ∃ m, (system ℕ ℕ).Run empty three_keys m := by
  have hsome : ((system ℕ ℕ).exec empty three_keys).isSome := by decide +kernel
  obtain ⟨m, hm⟩ := Option.isSome_iff_exists.mp hsome
  exact ⟨m, System.run_of_exec hm⟩

theorem balanced_three_keys : ∃ m, (system ℕ ℕ).Run empty three_keys m ∧
    ∃ t, Rep m t ∧ t.colour = .BLACK ∧ 2 ^ t.height ≤ ((count m).toNat + 1) ^ 2 := by
  obtain ⟨m, hm⟩ := run_three_keys
  obtain ⟨⟨t, hrep, -, hroot, -, -, hheight⟩, -⟩ := balanced ⟨empty, three_keys, rfl, hm⟩
  exact ⟨m, hm, t, hrep, hroot, hheight⟩

/-- After any calls, the map is the finite map of what they have added since the last `clear`. A
further call goes wrong only if it has no room for its node. -/
theorem finite_map (hr : (system K V).Run empty cs m) :
    (∀ k, try_get_value k m = .ok (last k (added [] cs), m)) ∧
    (∀ k, contains_key k m = .ok (decide (k ∈ (added [] cs).map Prod.fst), m)) ∧
    (count m).toNat = ((added [] cs).map Prod.fst).dedup.length ∧
    (∃ es, iterate m = .ok (es, m) ∧ (es.map Prod.fst).Nodup ∧
      (∀ k v, (k, v) ∈ es ↔ last k (added [] cs) = some v) ∧ es.length = (count m).toNat) ∧
    ∀ d e, (system K V).step m d = .error e → e = .no_memory ∧ d.Refused m := by
  obtain ⟨t, h⟩ := holds_empty.run hr
  have hlen : (entries t).length = (count m).toNat := by
    rw [h.count_eq, entries, List.length_map, size_toList]
  refine ⟨fun k => ?_, fun k => ?_, ?_, ?_, fun d e he => h.step_error he⟩
  · obtain ⟨o, m', ho, rfl, rfl⟩ := try_get_value_spec (k := k) h.rep
    rw [ho, h.value]
  · obtain ⟨b, m', hb, rfl, rfl⟩ := contains_key_spec (k := k) h.rep
    rw [hb, h.isSome_find]
  · rw [← h.perm_dedup.length_eq, List.length_map, hlen]
  · obtain ⟨es, m', hes, rfl, hperm⟩ := iterate_spec h.rep
    refine ⟨es, hes, (hperm.map _).nodup_iff.mpr h.nodup, fun k v => ?_, ?_⟩
    · rw [hperm.mem_iff, h.mem_entries]
    · rw [hperm.length_eq, hlen]

theorem finite_map_three_keys : ∃ m, (system ℕ ℕ).Run empty three_keys m ∧
    try_get_value 5 m = .ok (some 55, m) ∧ try_get_value 4 m = .ok (none, m) ∧
      contains_key 3 m = .ok (true, m) ∧ (count m).toNat = 3 := by
  obtain ⟨m, hm⟩ := run_three_keys
  obtain ⟨hvalue, hkey, hcount, -⟩ := finite_map hm
  exact ⟨m, hm, hvalue 5, hvalue 4, hkey 3, hcount⟩

end Infos.Util.Map
