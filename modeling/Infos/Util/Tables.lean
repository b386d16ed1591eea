import Infos.Util.MapRuns

/-!
# Maps as finite functions

What a map that was made by calls answers for a key, and what its calls change of that.
-/

open Infos.Prog

namespace Infos.Util.Map

variable {K V : Type} [LinearOrder K] {m m' : Map K V} {k k' : K} {v : V} {addr : ℕ}

theorem last_cons {es : List (K × V)} :
    last k' ((k, v) :: es) = (last k' es).or (if k' = k then some v else none) := by
  unfold last
  rw [List.reverse_cons, List.find?_append, Option.map_or, List.find?_singleton]
  by_cases h : k = k'
  · simp [h]
  · simp [h, Ne.symm h]

/-- The map is a balanced tree of what was added. -/
def Valid (m : Map K V) : Prop := ∃ es t, Holds es m t

/-- The value that is found with the key. -/
def get (k : K) (m : Map K V) : Option V := (try_get_value k m).toOption.bind Prod.fst

theorem Holds.get {es : List (K × V)} {t : RedBlack.RBTree (Cell K V)} (h : Holds es m t) :
    m.get k = last k es := by
  obtain ⟨o, m', ho, rfl, rfl⟩ := try_get_value_spec (k := k) h.rep
  unfold Map.get
  rw [ho, ← h.value]
  rfl

theorem Valid.try_get_value (h : m.Valid) : Map.try_get_value k m = .ok (m.get k, m) := by
  obtain ⟨es, t, h⟩ := h
  obtain ⟨o, m', ho, rfl, rfl⟩ := try_get_value_spec (k := k) h.rep
  rw [h.get, ho, h.value]

theorem valid_empty : (empty : Map K V).Valid := ⟨[], .leaf, holds_empty⟩

@[simp]
theorem get_empty : (empty : Map K V).get k = none := holds_empty.get

/-- An `add` changes the value of its key, and nothing else. A new node is at the address that the
allocator answered. -/
theorem Valid.add (h : m.Valid) : Ends (Map.add addr k v) m
    (fun _ m' => m'.Valid ∧ (∀ k', m'.get k' = if k' = k then some v else m.get k') ∧
      ∀ a, m'.node a ≠ none → a = addr ∨ m.node a ≠ none)
    (fun e => e = .no_memory ∧ ¬ (m.node addr = none ∧ addr + 24 ≤ PMEM_VA_SIZE)) := by
  obtain ⟨es, t, h⟩ := h
  refine ends_mono h.add_spec ?_
  rintro - m' ⟨⟨s, hs⟩, hnodes⟩
  refine ⟨⟨_, s, hs⟩, fun k' => ?_, hnodes⟩
  rw [hs.get, last_append, h.get]

theorem Valid.clear (h : m.Valid) : Returns Map.clear m fun _ m' => m' = Map.empty := by
  obtain ⟨es, t, h⟩ := h
  exact clear_spec h.rep

/-- The iterators give each key once, with its value. -/
theorem Valid.iterate (h : m.Valid) : ∃ es, Map.iterate m = .ok (es, m) ∧
    (es.map Prod.fst).Nodup ∧ (∀ k v, (k, v) ∈ es ↔ m.get k = some v) ∧
    es.length = (Map.count m).toNat := by
  obtain ⟨es, t, h⟩ := h
  obtain ⟨ks, m', hks, rfl, hperm⟩ := iterate_spec h.rep
  refine ⟨ks, hks, (hperm.map _).nodup_iff.mpr h.nodup, fun k v => ?_, ?_⟩
  · rw [hperm.mem_iff, h.mem_entries, h.get]
  · rw [hperm.length_eq, h.count_eq, entries, List.length_map, RedBlack.RBTree.size_toList]

end Infos.Util.Map
