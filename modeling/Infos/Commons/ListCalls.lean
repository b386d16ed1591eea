import Infos.Commons.Rings
import Infos.Lib.System

/-!
# The list is a sequence

Every call on a list comes back, and does to the ring what it does to the sequence of its nodes and their
elements.
-/

open Infos.Prog Infos.Ring

namespace Infos.Commons.LinkedList

variable {T : Type} {m m' : LinkedList T} {cells a b : List (ℕ × T)} {c : ℕ × T}

/-! ## The functions of the list -/

theorem Insert_spec (elem : T) (h : Holds m (a ++ c :: b)) :
    Returns (Insert elem (some c.1)) m fun r m' => ∃ w, r = some w ∧
      Holds m' (a ++ c :: (w, elem) :: b) := by
  unfold Insert
  dsimp only
  rw [returns_bind]
  refine returns_mono (MakeShared_spec elem h) ?_
  rintro _ m₁ ⟨rfl, hw, h₁⟩
  rw [returns_bind]
  refine returns_mono (h₁.insert_spec hw h.fresh_not_mem) fun _ m₂ h₂ => ?_
  rw [returns_pure]
  exact ⟨m.fresh, rfl, h₂⟩

theorem AddToHead_spec (elem : T) (h : Holds m cells) :
    Returns (AddToHead elem) m fun r m' => ∃ w, r = some w ∧ Holds m' ((w, elem) :: cells) := by
  unfold AddToHead
  rw [returns_bind]
  refine returns_mono (MakeShared_spec elem h) ?_
  rintro _ m₁ ⟨rfl, hw, h₁⟩
  have hnot := h.fresh_not_mem
  generalize m.fresh = w at hw hnot
  rw [returns_bind, returns_get, h₁.root]
  cases cells with
  | nil =>
    simp only [List.head?_nil, Option.map_none]
    have halone := alone_spec h₁ hw
    rw [returns_bind] at halone ⊢
    refine returns_mono halone fun _ m₂ h₂ => ?_
    rw [returns_bind]
    refine returns_mono h₂ fun _ m₃ h₃ => ?_
    simp only [returns_bind, returns_modify, returns_pure]
    exact ⟨w, rfl, h₃⟩
  | cons c l =>
    simp only [List.head?_cons, Option.map_some]
    have hlast := after_last_spec h₁ hw hnot
    rw [returns_bind] at hlast ⊢
    refine returns_mono hlast fun _ m₂ h₂ => ?_
    rw [returns_bind]
    refine returns_mono h₂ fun _ m₃ h₃ => ?_
    simp only [returns_bind, returns_modify, returns_pure]
    exact ⟨w, rfl, h₃.turn⟩

theorem Dequeue_spec (h : Holds m (c :: cells)) :
    Returns (Dequeue : Op T T) m fun r m' => r = c.2 ∧ Holds m' cells := by
  unfold Dequeue
  simp only [returns_bind, returns_get, h.root, List.head?_cons, Option.map_some]
  refine returns_mono (load_spec (h.data c List.mem_cons_self)) ?_
  rintro n m ⟨rfl, hn, -⟩
  rw [h.root]
  refine returns_mono (Holds.node_spec (a := []) h) fun _ m₁ h₁ => ?_
  rw [returns_pure]
  exact ⟨hn, h₁⟩

theorem Clear_spec (h : Holds m cells) : Returns (Clear : Op T Unit) m fun _ m' => Holds m' [] := by
  have hempty : ∀ m' : LinkedList T, (∀ a, m'.data a = m.data a) → m'.fresh = m.fresh →
      Holds { m' with _root := none, _count := 0 } [] := fun m' hdata hfresh =>
    ⟨ring_nil _, List.nodup_nil, fun _ hc => absurd hc List.not_mem_nil, rfl, rfl,
      fun a ha => (hdata a).trans (h.fresh a (hfresh ▸ ha))⟩
  unfold Clear
  rw [returns_bind, returns_get, h.root]
  cases cells with
  | nil =>
    simp only [List.head?_nil, Option.map_none, returns_modify]
    exact hempty m (fun _ => rfl) rfl
  | cons c l =>
    simp only [List.head?_cons, Option.map_some]
    rw [returns_bind]
    refine returns_mono (store_next_spec (h.data c List.mem_cons_self) _) ?_
    rintro - m₁ ⟨hk, -⟩
    rw [returns_modify]
    exact hempty m₁ hk.data hk.fresh

/-! ## The nodes of a list -/

/-- The nodes, from a node on. -/
def nodes_from (m : LinkedList T) : (n : ℕ) → (node : Option ℕ) → List ℕ
  | n + 1, some a => a :: nodes_from m n (m.links.next a)
  | _, _ => []

def nodes (m : LinkedList T) : List ℕ := nodes_from m m._count.toNat m._root

/-- The sequence that a list stands for. -/
def sequence (m : LinkedList T) : List (ℕ × T) := m.nodes.zip m.toList

theorem nodes_from_eq (h : Holds m (a ++ c :: b)) :
    nodes_from m (b.length + 1) (some c.1) = (c :: b).map Prod.fst := by
  induction b generalizing a c with
  | nil =>
    unfold nodes_from nodes_from
    rfl
  | cons d b ih =>
    have hnext := h.next
    rw [List.cons_append, List.head?_cons, Option.map_some] at hnext
    have h' : Holds m ((a ++ [c]) ++ d :: b) := by simpa using h
    unfold nodes_from
    rw [hnext, List.length_cons, ih h', List.map_cons, List.map_cons, List.map_cons]

theorem Holds.nodes_eq (h : Holds m cells) : m.nodes = cells.map Prod.fst := by
  unfold nodes
  rw [h.count, h.root, Int.toNat_natCast]
  cases cells with
  | nil => rfl
  | cons c b => exact nodes_from_eq (a := []) h

theorem Holds.sequence_eq (h : Holds m cells) : m.sequence = cells := by
  unfold sequence
  rw [h.nodes_eq, h.toList_eq]
  exact (List.zip_of_prod rfl rfl).symm

theorem Holds.exists_cons (h : Holds m cells) (hne : m.toList ≠ []) : ∃ c l, cells = c :: l := by
  cases cells with
  | nil => exact absurd h.toList_eq hne
  | cons c l => exact ⟨c, l, rfl⟩

/-- The next pointers from the root are a cycle of as many nodes as are counted, and the pointers back are
its inverse. -/
structure Cyclic (m : LinkedList T) : Prop where
  ring : IsRing m.links m.nodes
  nodup : m.nodes.Nodup
  root : m._root = m.nodes.head?
  count : m._count = m.nodes.length

theorem Holds.cyclic (h : Holds m cells) : m.Cyclic := by
  constructor
  · rw [h.nodes_eq]
    exact h.ring
  · rw [h.nodes_eq]
    exact h.nodup
  · rw [h.nodes_eq, List.head?_map]
    exact h.root
  · rw [h.nodes_eq, List.length_map]
    exact h.count

/-! ## Calls -/

inductive Call (T : Type) where
  | AddToTail (elem : T)
  | AddToHead (elem : T)
  | Insert (elem : T) (node : ℕ)
  | Remove (elem : T)
  | Dequeue
  | Skew
  | Get (index : ℤ)
  | Clear
deriving DecidableEq, Repr

/-- `Insert` into a sequence, behind a node. -/
def insert_after (node : ℕ) (x : ℕ × T) : List (ℕ × T) → List (ℕ × T)
  | [] => []
  | c :: cells => if c.1 = node then c :: x :: cells else c :: insert_after node x cells

theorem insert_after_eq (x : ℕ × T) (h : c.1 ∉ a.map Prod.fst) :
    insert_after c.1 x (a ++ c :: b) = a ++ c :: x :: b := by
  induction a with
  | nil => exact if_pos rfl
  | cons d a ih =>
    rw [List.map_cons, List.mem_cons, not_or] at h
    have hne : d.1 ≠ c.1 := Ne.symm h.1
    rw [List.cons_append]
    unfold insert_after
    rw [if_neg hne, ih h.2, List.cons_append]

variable [DecidableEq T]

namespace Call

/-- A call, with the element that it returns, if any. -/
def run : Call T → Op T (Option T)
  | AddToTail elem => do let _ ← LinkedList.AddToTail elem; pure none
  | AddToHead elem => do let _ ← LinkedList.AddToHead elem; pure none
  | Insert elem node => do let _ ← LinkedList.Insert elem (some node); pure none
  | Remove elem => do LinkedList.Remove elem; pure none
  | Dequeue => some <$> LinkedList.Dequeue
  | Skew => some <$> LinkedList.Skew
  | Get index => some <$> LinkedList.Get index
  | Clear => do LinkedList.Clear; pure none

def allowed (m : LinkedList T) : Call T → Prop
  | Insert _ node => node ∈ m.nodes
  | Dequeue | Skew => m.toList ≠ []
  | Get index => 0 ≤ index ∧ index < m._count
  | _ => True

/-- The same call on a sequence. A new node is `w`. -/
def on_sequence (w : ℕ) (cells : List (ℕ × T)) : Call T → Option T × List (ℕ × T)
  | AddToTail elem => (none, cells ++ [(w, elem)])
  | AddToHead elem => (none, (w, elem) :: cells)
  | Insert elem node => (none, insert_after node (w, elem) cells)
  | Remove elem => (none, cells.filter fun c => c.2 ≠ elem)
  | Dequeue => (cells.head?.map Prod.snd, cells.tail)
  | Skew => (cells.head?.map Prod.snd, cells.tail ++ cells.head?.toList)
  | Get index => (cells[index.toNat]?.map Prod.snd, cells)
  | Clear => (none, [])

theorem run_spec (h : Holds m cells) (call : Call T) (hallowed : call.allowed m) :
    Returns call.run m fun r m' => ∃ w, r = (call.on_sequence w cells).1 ∧
      Holds m' (call.on_sequence w cells).2 := by
  cases call with
  | AddToTail elem =>
    unfold run
    rw [returns_bind]
    refine returns_mono (AddToTail_spec elem h) ?_
    rintro - m' ⟨w, -, h'⟩
    rw [returns_pure]
    exact ⟨w, rfl, h'⟩
  | AddToHead elem =>
    unfold run
    rw [returns_bind]
    refine returns_mono (AddToHead_spec elem h) ?_
    rintro - m' ⟨w, -, h'⟩
    rw [returns_pure]
    exact ⟨w, rfl, h'⟩
  | Insert elem node =>
    have hmem : node ∈ cells.map Prod.fst := h.nodes_eq ▸ hallowed
    obtain ⟨c, hc, rfl⟩ := List.mem_map.mp hmem
    obtain ⟨a, b, rfl⟩ := List.append_of_mem hc
    have hnd := h.nodup
    rw [List.map_append, List.map_cons, List.nodup_middle, List.nodup_cons, List.mem_append,
      not_or] at hnd
    unfold run
    rw [returns_bind]
    refine returns_mono (Insert_spec elem h) ?_
    rintro - m' ⟨w, -, h'⟩
    rw [returns_pure]
    refine ⟨w, rfl, ?_⟩
    show Holds m' (insert_after c.1 (w, elem) (a ++ c :: b))
    rwa [insert_after_eq _ hnd.1.1]
  | Remove elem =>
    unfold run
    rw [returns_bind]
    refine returns_mono (Remove_spec elem h) fun _ m' h' => ?_
    rw [returns_pure]
    exact ⟨0, rfl, h'⟩
  | Dequeue =>
    obtain ⟨c, l, rfl⟩ := h.exists_cons hallowed
    unfold run
    rw [returns_map]
    refine returns_mono (Dequeue_spec h) ?_
    rintro _ m' ⟨rfl, h'⟩
    exact ⟨0, rfl, h'⟩
  | Skew =>
    obtain ⟨c, l, rfl⟩ := h.exists_cons hallowed
    unfold run
    rw [returns_map]
    refine returns_mono (Skew_spec h) ?_
    rintro _ m' ⟨rfl, h'⟩
    exact ⟨0, rfl, h'⟩
  | Get index =>
    obtain ⟨hpos, hlt⟩ := hallowed
    rw [h.count] at hlt
    obtain ⟨i, rfl⟩ := Int.eq_ofNat_of_zero_le hpos
    have hi : i < cells.length := by omega
    unfold run
    rw [returns_map]
    refine returns_mono (Get_spec h hi) ?_
    rintro _ m ⟨rfl, rfl⟩
    refine ⟨0, ?_, h⟩
    show some cells[i].2 = cells[(i : ℤ).toNat]?.map Prod.snd
    rw [Int.toNat_natCast, List.getElem?_eq_getElem hi]
    rfl
  | Clear =>
    unfold run
    rw [returns_bind]
    refine returns_mono (Clear_spec h) fun _ m' h' => ?_
    rw [returns_pure]
    exact ⟨0, rfl, h'⟩

end Call

instance (m : LinkedList T) : ∀ call : Call T, Decidable (call.allowed m)
  | .Insert _ node => inferInstanceAs (Decidable (node ∈ m.nodes))
  | .Dequeue | .Skew => inferInstanceAs (Decidable (m.toList ≠ []))
  | .Get index => inferInstanceAs (Decidable (0 ≤ index ∧ index < m._count))
  | .AddToTail _ | .AddToHead _ | .Remove _ | .Clear => inferInstanceAs (Decidable True)

def system (T : Type) [DecidableEq T] : System (LinkedList T) (Call T) Fault where
  start m := m = empty
  allowed m call := call.allowed m
  step m call := (call.run m).map Prod.snd

theorem reachable_holds (h : (system T).Reachable m) : ∃ cells, Holds m cells := by
  refine h.preserves (I := fun m => ∃ cells, Holds m cells) (fun m hm => ?_) fun m call m' hm hallowed hstep => ?_
  · exact ⟨[], hm ▸ holds_empty⟩
  · obtain ⟨cells, hm⟩ := hm
    obtain ⟨⟨r, m''⟩, hx, rfl⟩ := map_eq_ok hstep
    obtain ⟨w, -, h'⟩ := returns_ok (call.run_spec hm hallowed) hx
    exact ⟨_, h'⟩

/-- After any calls, the nodes are one cycle, the count is their number, and each further call comes back
and does to the sequence what it is meant to do. -/
theorem behaves_as_sequence (h : (system T).Reachable m) :
    m.Cyclic ∧ (Count : Op T ℤ) m = .ok ((m.sequence.length : ℤ), m) ∧
      ∀ call : Call T, call.allowed m → ∃ w m',
        call.run m = .ok ((call.on_sequence w m.sequence).1, m') ∧
          m'.sequence = (call.on_sequence w m.sequence).2 := by
  obtain ⟨cells, hm⟩ := reachable_holds h
  rw [hm.sequence_eq]
  refine ⟨hm.cyclic, ?_, fun call hallowed => ?_⟩
  · obtain ⟨r, m', hx, rfl, rfl⟩ := Count_spec hm
    exact hx
  · obtain ⟨r, m', hx, w, rfl, h'⟩ := call.run_spec hm hallowed
    exact ⟨w, m', hx, h'.sequence_eq⟩

instance (m : LinkedList T) (call : Call T) : Decidable ((system T).allowed m call) :=
  inferInstanceAs (Decidable (call.allowed m))

/-- A list that was turned once. -/
theorem behaves_as_sequence_turned : ∃ m : LinkedList ℕ, m.toList = [8, 9, 7] ∧ m.Cyclic := by
  have hlist : ((system ℕ).exec empty [.AddToTail 7, .AddToTail 9, .Insert 8 0, .Skew]).map toList =
      some [8, 9, 7] := by decide
  obtain ⟨m, hm, hl⟩ := Option.map_eq_some_iff.mp hlist
  exact ⟨m, hl, (behaves_as_sequence ⟨empty, _, rfl, System.run_of_exec hm⟩).1⟩

end Infos.Commons.LinkedList
