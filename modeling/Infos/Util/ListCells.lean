import Infos.Util.Lists
import Mathlib.Data.List.Nodup
import Mathlib.Data.List.Perm.Subperm

/-!
# What the lists hold

The nodes of all lists are different, each list is null-terminated, and no other node is in use.
-/

open Infos.Prog Infos.PtrList

namespace Infos.Util.Lists

variable {κ T : Type} {m m' : Heap κ T} {k : κ} {E : Fault → Prop}

/-- A node with the data in it. -/
abbrev Cell (T : Type) := UInt64 × T

/-- The pointers in memory. -/
def Heap.links (m : Heap κ T) : Links κ UInt64 where
  area k := (m.list k).bind ListObject._elems
  next p := (m.node p).bind ListNode.Next

/-- The object `k` is a list of the cells. -/
structure IsList (m : Heap κ T) (k : κ) (cells : List (Cell T)) : Prop where
  object : (m.list k).isSome
  chain : HasList m.links k (cells.map Prod.fst)
  nodup : (cells.map Prod.fst).Nodup
  data : ∀ c ∈ cells, (m.node c.1).map ListNode.Data = some c.2

/-- The object `k` is a list of the cells and has counted them, or there is no such object. -/
def Has (m : Heap κ T) (k : κ) : Option (List (Cell T)) → Prop
  | none => m.list k = none
  | some cells => IsList m k cells ∧
    (m.list k).map ListObject._count = some (UInt32.ofNat cells.length)

def nodes (o : Option (List (Cell T))) : List UInt64 := (o.getD []).map Prod.fst

/-- The lists there are, each with its cells. -/
structure Holds (m : Heap κ T) (S : κ → Option (List (Cell T))) : Prop where
  has : ∀ k, Has m k (S k)
  apart : ∀ k l, k ≠ l → ∀ p ∈ nodes (S k), p ∉ nodes (S l)
  used : ∀ p, (m.node p).isSome → ∃ k, p ∈ nodes (S k)

/-- The next `n` addresses that come from `new` are different and not in use. -/
def Heap.Ready (m : Heap κ T) (n : ℕ) : Prop :=
  n ≤ m.supply.length ∧ (m.supply.take n).Nodup ∧ ∀ p ∈ m.supply.take n, m.node p = none

theorem Heap.Ready.mono {n i : ℕ} (h : m.Ready n) (hi : i ≤ n) : m.Ready i := by
  have hsub : (m.supply.take i).Sublist (m.supply.take n) := List.take_sublist_take_left hi
  exact ⟨hi.trans h.1, hsub.nodup h.2.1, fun p hp => h.2.2 p (hsub.subset hp)⟩

/-! ## Rounds -/

theorem length_le_of_nodup {l : List UInt64} (h : l.Nodup) : l.length < ROUNDS := by
  have hmap : (l.map UInt64.toNat).Nodup := List.Nodup.map (fun _ _ hab => UInt64.toNat_inj.mp hab) h
  have hsub : (l.map UInt64.toNat) ⊆ List.range (2 ^ 64) := by
    intro x hx
    obtain ⟨p, -, rfl⟩ := List.mem_map.mp hx
    exact List.mem_range.mpr p.toNat_lt
  have hle := (hmap.subperm hsub).length_le
  rw [List.length_map, List.length_range] at hle
  exact Nat.lt_succ_of_le hle

theorem IsList.rounds {cells : List (Cell T)} (h : IsList m k cells) : cells.length < ROUNDS := by
  have hle := length_le_of_nodup h.nodup
  rwa [List.length_map] at hle

/-! ## One rule for each access -/

section Access

variable {Q : ListObject → Heap κ T → Prop} {R : Unit → Heap κ T → Prop}
  {N : ListNode T → Heap κ T → Prop}

theorem ends_object {o : ListObject} (h : m.list k = some o) : Ends (object k) m Q E ↔ Q o m := by
  unfold object
  rw [ends_bind, ends_get, h]
  rfl

theorem ends_deref {p : UInt64} {n : ListNode T} (h : m.node p = some n) :
    Ends (deref p) m N E ↔ N n m := by
  unfold deref
  rw [ends_bind, ends_get, h]
  rfl

theorem ends_set_node (p : UInt64) (n : Option (ListNode T)) : Ends (set_node p n) m R E ↔
    R () { m with node := Function.update m.node p n } := Iff.rfl

theorem ends_set_data {p : UInt64} {n : ListNode T} (elem : T) (h : m.node p = some n) :
    Ends (set_data p elem) m R E ↔
      R () { m with node := Function.update m.node p (some { n with Data := elem }) } := by
  unfold set_data
  rw [ends_bind, ends_deref h, ends_set_node]

theorem ends_delete_Node {p : UInt64} {n : ListNode T} (h : m.node p = some n) :
    Ends (delete_Node p) m R E ↔ R () { m with node := Function.update m.node p none } := by
  unfold delete_Node
  rw [ends_bind, ends_deref h, ends_set_node]

variable [DecidableEq κ]

theorem ends_set_object (o : Option ListObject) : Ends (set_object k o) m R E ↔
    R () { m with list := Function.update m.list k o } := Iff.rfl

theorem ends_add_count {o : ListObject} (n : UInt32) (h : m.list k = some o) :
    Ends (add_count k n) m R E ↔
      R () { m with list := Function.update m.list k (some { o with _count := o._count + n }) } := by
  unfold add_count
  rw [ends_bind, ends_object h, ends_set_object]

end Access

theorem new_Node_spec [Inhabited T] : Ends (new_Node : Op κ T UInt64) m (fun p m' =>
    m.supply = p :: m'.supply ∧ m.node p = none ∧
      m'.node = Function.update m.node p (some ⟨none, default⟩) ∧ m'.list = m.list)
    (fun e => e = .noNode ∧ ¬m.Ready 1) := by
  unfold new_Node
  rw [ends_bind, ends_get]
  cases hsupply : m.supply with
  | nil =>
    refine ⟨rfl, fun hready => ?_⟩
    simpa [hsupply] using hready.1
  | cons p supply =>
    refine ends_ite (fun hused => ⟨rfl, fun hready => ?_⟩) fun hnone => ?_
    · have hfree := hready.2.2 p (by simp [hsupply])
      rw [hfree] at hused
      cases hused
    · exact ⟨rfl, by simpa using hnone, rfl, rfl⟩

/-- Once the next address is given out, one less is ready. -/
theorem Heap.Ready.next {p : UInt64} {n : ℕ} (h : m.Ready (n + 1)) (hsupply : m.supply = p :: m'.supply)
    (hnode : ∀ q, q ≠ p → m.node q = none → m'.node q = none) : m'.Ready n := by
  obtain ⟨hlen, hnodup, hfree⟩ := h
  rw [hsupply, List.length_cons] at hlen
  rw [hsupply, List.take_succ_cons, List.nodup_cons] at hnodup
  rw [hsupply, List.take_succ_cons] at hfree
  refine ⟨Nat.le_of_succ_le_succ hlen, hnodup.2, fun q hq => ?_⟩
  refine hnode q ?_ (hfree q (List.mem_cons_of_mem p hq))
  rintro rfl
  exact hnodup.1 hq

/-! ## Walking along a list -/

variable {cells a b : List (Cell T)} {c : Cell T}

theorem IsList.node (h : IsList m k (a ++ c :: b)) :
    m.node c.1 = some ⟨(b.map Prod.fst).head?, c.2⟩ := by
  have hdata := h.data c (by simp)
  have hchain := h.chain
  rw [List.map_append, List.map_cons] at hchain
  have hnext : (m.node c.1).bind ListNode.Next = (b.map Prod.fst).head? := next_of_append hchain
  cases hn : m.node c.1 with
  | none =>
    rw [hn] at hdata
    cases hdata
  | some n =>
    rw [hn] at hdata hnext
    obtain ⟨next, data⟩ := n
    have hnext : next = _ := hnext
    have hdata : data = c.2 := Option.some.inj hdata
    rw [hnext, hdata]

theorem IsList.elems (h : IsList m k cells) :
    ∃ o, m.list k = some o ∧ o._elems = (cells.map Prod.fst).head? := by
  obtain ⟨o, ho⟩ := Option.isSome_iff_exists.mp h.object
  have hhead : (m.list k).bind ListObject._elems = _ := h.chain.1
  rw [ho] at hhead
  exact ⟨o, ho, hhead⟩

/-- The slot behind some of the cells. -/
def behind (k : κ) (a : List (Cell T)) : Slot κ UInt64 := slotAfter k (a.map Prod.fst)

theorem IsList.load_spec (h : IsList m k (a ++ b)) {Q : Option UInt64 → Heap κ T → Prop} :
    Ends (load (behind k a)) m Q E ↔ Q (b.map Prod.fst).head? m := by
  have hload : m.links.load (behind k a) = (b.map Prod.fst).head? := by
    have hchain := h.chain
    rw [List.map_append] at hchain
    exact load_slotAfter hchain
  rcases List.eq_nil_or_concat' a with rfl | ⟨a, c, rfl⟩
  · obtain ⟨o, ho, helems⟩ := h.elems
    show Ends (load (.area k)) m Q E ↔ _
    unfold load
    rw [ends_bind, ends_object ho, ends_pure, helems, List.nil_append]
  · have hslot : behind k (a ++ [c]) = .node c.1 := by
      unfold behind
      rw [List.map_append]
      exact slotAfter_concat _ _ _
    rw [List.append_assoc] at h
    rw [hslot]
    unfold load
    rw [ends_bind, ends_deref h.node, ends_pure]
    rfl

/-- The loop stops behind the cells that it goes past. -/
theorem IsList.seek_spec {go : T → Bool} (h : IsList m k (a ++ b ++ cells)) {rounds : ℕ}
    (hrounds : b.length < rounds) (hgo : ∀ c ∈ b, go c.2 = true)
    (hstop : ∀ c ∈ cells.head?, go c.2 = false) {Q : Slot κ UInt64 → Heap κ T → Prop} :
    Ends (seek go rounds (behind k a)) m Q E ↔ Q (behind k (a ++ b)) m := by
  induction b generalizing a rounds with
  | nil =>
    obtain ⟨rounds, rfl⟩ := Nat.exists_eq_succ_of_ne_zero (Nat.pos_iff_ne_zero.mp hrounds)
    rw [List.append_nil] at h ⊢
    unfold seek
    rw [ends_bind, h.load_spec]
    cases cells with
    | nil => exact Iff.rfl
    | cons c cells =>
      have hhead : ((c :: cells).map Prod.fst).head? = some c.1 := rfl
      rw [hhead]
      dsimp only
      rw [ends_bind, ends_deref h.node, hstop c rfl]
      exact Iff.rfl
  | cons c b ih =>
    obtain ⟨rounds, rfl⟩ := Nat.exists_eq_succ_of_ne_zero (Nat.ne_zero_of_lt hrounds)
    rw [List.append_assoc] at h
    have hslot : behind k (a ++ [c]) = .node c.1 := by
      unfold behind
      rw [List.map_append]
      exact slotAfter_concat _ _ _
    have hrest := ih (a := a ++ [c]) (by simpa using h) (Nat.lt_of_succ_lt_succ hrounds)
      fun d hd => hgo d (List.mem_cons_of_mem _ hd)
    rw [hslot, List.append_assoc, List.singleton_append] at hrest
    unfold seek
    rw [ends_bind, h.load_spec]
    have hhead : ((c :: b ++ cells).map Prod.fst).head? = some c.1 := rfl
    rw [hhead]
    dsimp only
    rw [ends_bind, ends_deref h.node, hgo c List.mem_cons_self]
    exact hrest

/-! ## Editing a list -/

/-- From `m` to `m'` the pointer in the slot `s` became `v`, the node `p` became `n`, and the count of
the list `k` went up by `d`. -/
structure Edit (m : Heap κ T) (k : κ) (s : Slot κ UInt64) (v : Option UInt64) (p : UInt64)
    (n : Option (ListNode T)) (d : UInt32) (m' : Heap κ T) : Prop where
  here : m'.node p = n
  others : ∀ q, q ≠ p → s ≠ .node q → m'.node q = m.node q
  slot : ∀ q, s = .node q → q ≠ p → m'.node q = (m.node q).map fun x => { x with Next := v }
  lists : ∀ l, l ≠ k → m'.list l = m.list l
  list : m'.list k = (m.list k).map fun o =>
    ⟨match s with | .area _ => v | .node _ => o._elems, o._count + d⟩

theorem IsList.behind_cases (h : IsList m k (a ++ b)) : behind k a = .area k ∨
    ∃ c ∈ a, behind k a = .node c.1 ∧ (m.node c.1).isSome := by
  rcases List.eq_nil_or_concat' a with rfl | ⟨a, c, rfl⟩
  · exact .inl rfl
  · refine .inr ⟨c, by simp, ?_, ?_⟩
    · unfold behind
      rw [List.map_append]
      exact slotAfter_concat _ _ _
    · rw [List.append_assoc] at h
      rw [h.node]
      rfl

namespace Edit

variable {s : Slot κ UInt64} {v : Option UInt64} {p : UInt64} {n : Option (ListNode T)} {d : UInt32}

theorem data (h : Edit m k s v p n d m') {q : UInt64} (hq : q ≠ p) :
    (m'.node q).map ListNode.Data = (m.node q).map ListNode.Data := by
  by_cases hs : s = .node q
  · rw [h.slot q hs hq, Option.map_map]
    rfl
  · rw [h.others q hq hs]

theorem load_slot (h : Edit m k (behind k a) v p n d m') (hl : IsList m k (a ++ b))
    (hp : ∀ c ∈ a, c.1 ≠ p) : m'.links.load (behind k a) = v := by
  obtain hslot | ⟨c, hc, hslot, hsome⟩ := hl.behind_cases
  · obtain ⟨o, ho, -⟩ := hl.elems
    have hlist := h.list
    rw [hslot, ho] at hlist
    rw [hslot]
    show (m'.list k).bind _ = v
    rw [hlist]
    rfl
  · obtain ⟨x, hx⟩ := Option.isSome_iff_exists.mp hsome
    have hnode := h.slot c.1 hslot (hp c hc)
    rw [hx] at hnode
    rw [hslot]
    show (m'.node c.1).bind _ = v
    rw [hnode]
    rfl

theorem load_other (h : Edit m k (behind k a) v p n d m') (hl : IsList m k (a ++ b))
    {t : Slot κ UInt64} (ht : t ≠ behind k a) (hp : t ≠ .node p) :
    m'.links.load t = m.links.load t := by
  cases t with
  | area l =>
    by_cases hlk : l = k
    · subst hlk
      obtain hslot | ⟨c, hc, hslot, -⟩ := hl.behind_cases
      · exact absurd hslot.symm ht
      · have hlist := h.list
        rw [hslot] at hlist
        show (m'.list l).bind _ = (m.list l).bind _
        rw [hlist]
        cases m.list l <;> rfl
    · show (m'.list l).bind _ = (m.list l).bind _
      rw [h.lists l hlk]
  | node q =>
    show (m'.node q).bind _ = (m.node q).bind _
    rw [h.others q (fun he => hp (he ▸ rfl)) fun he => ht he.symm]

theorem object (h : Edit m k s v p n d m') (hl : (m.list k).isSome) : (m'.list k).isSome := by
  rw [h.list, Option.isSome_map]
  exact hl

theorem count (h : Edit m k s v p n d m') : (m'.list k).map ListObject._count =
    ((m.list k).map ListObject._count).map (· + d) := by
  rw [h.list, Option.map_map, Option.map_map]
  rfl

end Edit

/-- A new node between `a` and `b`. -/
theorem IsList.insert {p : UInt64} {elem : T} {d : UInt32} (h : IsList m k (a ++ b))
    (hp : m.node p = none)
    (he : Edit m k (behind k a) (some p) p (some ⟨(b.map Prod.fst).head?, elem⟩) d m') :
    IsList m' k (a ++ (p, elem) :: b) := by
  have hfresh : ∀ c ∈ a ++ b, c.1 ≠ p := by
    rintro c hc rfl
    have hdata := h.data c hc
    rw [hp] at hdata
    cases hdata
  have hnodup : (a.map Prod.fst ++ [p] ++ b.map Prod.fst).Nodup := by
    have hold := h.nodup
    rw [List.map_append] at hold
    rw [List.append_assoc, List.singleton_append, List.nodup_middle, List.nodup_cons]
    refine ⟨fun hin => ?_, hold⟩
    rw [← List.map_append] at hin
    obtain ⟨c, hc, hcp⟩ := List.mem_map.mp hin
    exact hfresh c hc hcp
  have hchain : HasList m.links k (a.map Prod.fst ++ [] ++ b.map Prod.fst) := by
    have hchain := h.chain
    rwa [List.map_append, ← List.append_nil (a.map Prod.fst)] at hchain
  have hold : (a.map Prod.fst ++ [] ++ b.map Prod.fst).Nodup := by
    rw [List.append_nil, ← List.map_append]
    exact h.nodup
  have hnext : m'.links.next p = (b.map Prod.fst).head? := by
    show (m'.node p).bind _ = _
    rw [he.here]
    rfl
  have hnew := hasList_relink (d := [p]) hchain hold hnodup
    (he.load_slot h fun c hc => hfresh c (List.mem_append_left _ hc))
    ⟨by simpa using hnext, trivial⟩
    fun t ht _ hd => he.load_other h ht (hd p List.mem_cons_self)
  have hmap : (a ++ (p, elem) :: b).map Prod.fst = a.map Prod.fst ++ [p] ++ b.map Prod.fst := by
    rw [List.map_append, List.map_cons, List.append_assoc, List.singleton_append]
  refine ⟨he.object h.object, hmap ▸ hnew, hmap ▸ hnodup, fun c hc => ?_⟩
  rcases List.mem_append.mp hc with hc | hc
  · have hin := List.mem_append_left b hc
    rw [he.data (hfresh c hin), h.data c hin]
  · rcases List.mem_cons.mp hc with rfl | hc
    · rw [he.here]
      rfl
    · have hin := List.mem_append_right a hc
      rw [he.data (hfresh c hin), h.data c hin]

/-- The node between `a` and `b` goes. -/
theorem IsList.remove {d : UInt32} (h : IsList m k (a ++ c :: b))
    (he : Edit m k (behind k a) (b.map Prod.fst).head? c.1 none d m') : IsList m' k (a ++ b) := by
  have hold := h.nodup
  rw [List.map_append, List.map_cons, List.nodup_middle, List.nodup_cons] at hold
  have hgone : ∀ x ∈ a ++ b, x.1 ≠ c.1 := by
    rintro x hx hxc
    refine hold.1 ?_
    rw [← hxc, ← List.map_append]
    exact List.mem_map_of_mem hx
  have hchain : HasList m.links k (a.map Prod.fst ++ [c.1] ++ b.map Prod.fst) := by
    have hchain := h.chain
    rwa [List.map_append, List.map_cons, ← List.singleton_append, ← List.append_assoc] at hchain
  have hnodup : (a.map Prod.fst ++ [c.1] ++ b.map Prod.fst).Nodup := by
    rw [List.append_assoc, List.singleton_append, List.nodup_middle, List.nodup_cons]
    exact hold
  have hnew := hasList_relink (d := []) hchain hnodup (by rw [List.append_nil]; exact hold.2)
    (he.load_slot h fun x hx => hgone x (List.mem_append_left _ hx)) trivial
    fun t ht hc _ => he.load_other h ht (hc c.1 List.mem_cons_self)
  have hmap : (a ++ b).map Prod.fst = a.map Prod.fst ++ [] ++ b.map Prod.fst := by
    rw [List.map_append, List.append_nil]
  refine ⟨he.object h.object, hmap ▸ hnew, ?_, fun x hx => ?_⟩
  · rw [List.map_append]
    exact hold.2
  · rw [he.data (hgone x hx)]
    refine h.data x ?_
    rcases List.mem_append.mp hx with hx | hx
    · exact List.mem_append_left _ hx
    · exact List.mem_append_right _ (List.mem_cons_of_mem _ hx)

end Infos.Util.Lists
