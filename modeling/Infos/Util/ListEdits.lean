import Infos.Util.ListCells

/-!
# What the functions do to one list

A node comes in, or a node goes. All other lists are as they were.
-/

open Infos.Prog Infos.PtrList

namespace Infos.Util.Lists

variable {κ T : Type} {m m' m'' : Heap κ T} {k r : κ}
  {cells a b : List (Cell T)} {c : Cell T} {elem : T} {E : Fault → Prop}

/-! ## What a call makes of one list -/

/-- From `m` to `m'` the list `k` became `o'`. Only nodes of it were touched, or nodes that were not
in use. -/
structure Becomes (m : Heap κ T) (k : κ) (o o' : Option (List (Cell T))) (m' : Heap κ T) : Prop where
  has : Has m' k o'
  lists : ∀ l, l ≠ k → m'.list l = m.list l
  others : ∀ p, p ∉ nodes o → p ∉ nodes o' → m'.node p = m.node p
  new : ∀ p ∈ nodes o', p ∈ nodes o ∨ m.node p = none
  gone : ∀ p ∈ nodes o, p ∉ nodes o' → m'.node p = none

theorem Has.congr {o : Option (List (Cell T))} (h : Has m k o) (hlist : m'.list k = m.list k)
    (hnodes : ∀ p ∈ nodes o, m'.node p = m.node p) : Has m' k o := by
  cases o with
  | none => exact hlist.trans h
  | some cells =>
    obtain ⟨hl, hcount⟩ := h
    refine ⟨⟨hlist ▸ hl.object, ?_, hl.nodup, fun c hc => ?_⟩, hlist ▸ hcount⟩
    · refine hasList_congr hl.chain ?_ fun p hp => ?_
      · show (m'.list k).bind _ = _
        rw [hlist]
        rfl
      · show (m'.node p).bind _ = _
        rw [hnodes p hp]
        rfl
    · rw [hnodes c.1 (List.mem_map_of_mem hc)]
      exact hl.data c hc

theorem Has.in_use {o : Option (List (Cell T))} (h : Has m k o) {p : UInt64} (hp : p ∈ nodes o) :
    (m.node p).isSome := by
  cases o with
  | none => cases hp
  | some cells =>
    obtain ⟨c, hc, rfl⟩ := List.mem_map.mp hp
    have hdata := h.1.data c hc
    cases hn : m.node c.1 with
    | none =>
      rw [hn] at hdata
      cases hdata
    | some n => rfl

/-- Behind a new node, what was not in use is still not. -/
theorem Becomes.free {p q : UInt64} (hb : Becomes m k (some cells) (some (cells ++ [(p, elem)])) m')
    (h : Has m k (some cells)) (hq : q ≠ p) (hnone : m.node q = none) : m'.node q = none := by
  have hold : q ∉ nodes (some cells) := fun hin => by
    have huse := h.in_use hin
    rw [hnone] at huse
    cases huse
  rw [hb.others q hold fun hin => ?_, hnone]
  unfold nodes at hin hold
  rw [Option.getD_some, List.map_append, List.mem_append] at hin
  exact hin.elim hold fun hin => hq (List.mem_singleton.mp hin)

theorem Holds.becomes [DecidableEq κ] {S : κ → Option (List (Cell T))} {o' : Option (List (Cell T))}
    (h : Holds m S) (hb : Becomes m k (S k) o' m') : Holds m' (Function.update S k o') := by
  -- The nodes of the other lists are not touched.
  have hapart : ∀ l, l ≠ k → ∀ p ∈ nodes (S l), p ∉ nodes (S k) ∧ p ∉ nodes o' := by
    intro l hl p hp
    have hold := h.apart l k hl p hp
    refine ⟨hold, fun hnew => ?_⟩
    rcases hb.new p hnew with hin | hnone
    · exact hold hin
    · have huse := (h.has l).in_use hp
      rw [hnone] at huse
      cases huse
  constructor
  · intro l
    by_cases hl : l = k
    · subst hl
      rw [Function.update_self]
      exact hb.has
    · rw [Function.update_of_ne hl]
      refine (h.has l).congr (hb.lists l hl) fun p hp => ?_
      exact hb.others p (hapart l hl p hp).1 (hapart l hl p hp).2
  · intro l l' hll p hp
    by_cases hl : l = k
    · subst hl
      rw [Function.update_self] at hp
      rw [Function.update_of_ne (Ne.symm hll)]
      exact fun hp' => (hapart l' (Ne.symm hll) p hp').2 hp
    · rw [Function.update_of_ne hl] at hp
      by_cases hl' : l' = k
      · subst hl'
        rw [Function.update_self]
        exact (hapart l hl p hp).2
      · rw [Function.update_of_ne hl']
        exact h.apart l l' hll p hp
  · intro p hp
    by_cases hnew : p ∈ nodes o'
    · exact ⟨k, by rwa [Function.update_self]⟩
    · by_cases hold : p ∈ nodes (S k)
      · rw [hb.gone p hold hnew] at hp
        cases hp
      · rw [hb.others p hold hnew] at hp
        obtain ⟨l, hl⟩ := h.used p hp
        refine ⟨l, ?_⟩
        rw [Function.update_of_ne]
        · exact hl
        · rintro rfl
          exact hold hl

theorem Becomes.trans {o o' o'' : Option (List (Cell T))} (h : Becomes m k o o' m')
    (h' : Becomes m' k o' o'' m'') (hgrow : nodes o ⊆ nodes o') (hgrow' : nodes o' ⊆ nodes o'') :
    Becomes m k o o'' m'' where
  has := h'.has
  lists l hl := (h'.lists l hl).trans (h.lists l hl)
  others p hp hp'' := by
    have hp' : p ∉ nodes o' := fun hin => hp'' (hgrow' hin)
    rw [h'.others p hp' hp'', h.others p hp hp']
  new p hp := by
    by_cases hin' : p ∈ nodes o'
    · exact h.new p hin'
    · by_cases hin : p ∈ nodes o
      · exact .inl hin
      · refine .inr ?_
        rw [← h.others p hin hin']
        exact (h'.new p hp).resolve_left hin'
  gone p hp hp'' := absurd (hgrow' (hgrow hp)) hp''

theorem mem_nodes_insert {p q : UInt64} : q ∈ nodes (some (a ++ (p, elem) :: b)) ↔
    q = p ∨ q ∈ nodes (some (a ++ b)) := by
  unfold nodes
  simp only [Option.getD_some, List.map_append, List.map_cons, List.mem_append, List.mem_cons]
  tauto

theorem Edit.becomes_insert {p : UInt64} (hl : IsList m k (a ++ b))
    (hcount : (m.list k).map ListObject._count = some (UInt32.ofNat (a ++ b).length))
    (hp : m.node p = none)
    (he : Edit m k (behind k a) (some p) p (some ⟨(b.map Prod.fst).head?, elem⟩) 1 m') :
    Becomes m k (some (a ++ b)) (some (a ++ (p, elem) :: b)) m' where
  has := by
    refine ⟨hl.insert hp he, ?_⟩
    have hlen : (a ++ (p, elem) :: b).length = (a ++ b).length + 1 := by
      rw [List.length_append, List.length_append, List.length_cons, Nat.add_assoc]
    rw [he.count, hcount, hlen, UInt32.ofNat_add]
    rfl
  lists := he.lists
  others q hq hq' := by
    rw [mem_nodes_insert] at hq'
    refine he.others q (fun he => hq' (.inl he)) fun hs => hq ?_
    obtain hslot | ⟨c, hc, hslot, -⟩ := hl.behind_cases
    · cases hslot.symm.trans hs
    · cases hslot.symm.trans hs
      exact List.mem_map_of_mem (List.mem_append_left b hc)
  new q hq := by
    rcases mem_nodes_insert.mp hq with rfl | hin
    · exact .inr hp
    · exact .inl hin
  gone q hq hq' := absurd (mem_nodes_insert.mpr (.inr hq)) hq'

theorem Edit.becomes_remove (hl : IsList m k (a ++ c :: b))
    (hcount : (m.list k).map ListObject._count = some (UInt32.ofNat (a ++ c :: b).length))
    (he : Edit m k (behind k a) (b.map Prod.fst).head? c.1 none (-1) m') :
    Becomes m k (some (a ++ c :: b)) (some (a ++ b)) m' where
  has := by
    refine ⟨hl.remove he, ?_⟩
    have hlen : (a ++ c :: b).length = (a ++ b).length + 1 := by
      rw [List.length_append, List.length_append, List.length_cons, Nat.add_assoc]
    rw [he.count, hcount, hlen, UInt32.ofNat_add, Option.map_some, ← UInt32.sub_eq_add_neg]
    exact congrArg some (UInt32.add_sub_cancel _ 1)
  lists := he.lists
  others q hq hq' := by
    have hne := mem_nodes_insert.not.mp hq
    refine he.others q (fun he => hne (.inl he)) fun hs => hq ?_
    obtain hslot | ⟨d, hd, hslot, -⟩ := hl.behind_cases
    · cases hslot.symm.trans hs
    · cases hslot.symm.trans hs
      exact List.mem_map_of_mem (List.mem_append_left _ hd)
  new q hq := .inl (mem_nodes_insert.mpr (.inr hq))
  gone q hq hq' := by
    rcases mem_nodes_insert.mp hq with rfl | hin
    · exact he.here
    · exact absurd hin hq'

/-! ## Storing into a slot -/

variable [DecidableEq κ]

/-- The memory after `*slot = v`. -/
def Heap.put (m : Heap κ T) (v : Option UInt64) : Slot κ UInt64 → Heap κ T
  | .area k => { m with
    list := Function.update m.list k ((m.list k).map fun o => { o with _elems := v }) }
  | .node p => { m with
    node := Function.update m.node p ((m.node p).map fun n => { n with Next := v }) }

def Heap.Valid (m : Heap κ T) : Slot κ UInt64 → Prop
  | .area k => (m.list k).isSome
  | .node p => (m.node p).isSome

omit [DecidableEq κ] in
theorem IsList.valid (h : IsList m k (a ++ b)) : m.Valid (behind k a) := by
  obtain hslot | ⟨c, -, hslot, hsome⟩ := h.behind_cases
  · rw [hslot]
    exact h.object
  · rw [hslot]
    exact hsome

theorem put_supply (m : Heap κ T) (v : Option UInt64) (s : Slot κ UInt64) :
    (m.put v s).supply = m.supply := by
  cases s <;> rfl

theorem ends_store {s : Slot κ UInt64} (v : Option UInt64) (h : m.Valid s)
    {R : Unit → Heap κ T → Prop} : Ends (store v s) m R E ↔ R () (m.put v s) := by
  cases s with
  | area k =>
    obtain ⟨o, ho⟩ := Option.isSome_iff_exists.mp h
    unfold store Heap.put
    rw [ends_bind, ends_object ho, ends_set_object]
    dsimp only
    rw [ho]
    rfl
  | node p =>
    obtain ⟨n, hn⟩ := Option.isSome_iff_exists.mp h
    unfold store Heap.put
    rw [ends_bind, ends_deref hn, ends_set_node]
    dsimp only
    rw [hn]
    rfl

/-- From `m` to `m'` the node `p` became `n`. -/
structure Sets (m : Heap κ T) (p : UInt64) (n : Option (ListNode T)) (m' : Heap κ T) : Prop where
  here : m'.node p = n
  others : ∀ q, q ≠ p → m'.node q = m.node q
  list : m'.list = m.list

section Sets

omit [DecidableEq κ]

variable {p : UInt64} {n n' : Option (ListNode T)} {x : ListNode T}

theorem Sets.refl (h : m.node p = n) : Sets m p n m := ⟨h, fun _ _ => rfl, rfl⟩

theorem Sets.trans (h : Sets m p n m') (h' : Sets m' p n' m'') : Sets m p n' m'' :=
  ⟨h'.here, fun q hq => (h'.others q hq).trans (h.others q hq), h'.list.trans h.list⟩

theorem sets_update (m : Heap κ T) (p : UInt64) (n : Option (ListNode T)) :
    Sets m p n { m with node := Function.update m.node p n } :=
  ⟨Function.update_self _ _ _, fun _ hq => Function.update_of_ne hq _ _, rfl⟩

theorem set_data_spec (elem : T) (h : m.node p = some x) :
    Ends (set_data p elem) m (fun _ m' => Sets m p (some { x with Data := elem }) m' ∧
      m'.supply = m.supply) E := by
  rw [ends_set_data elem h]
  exact ⟨sets_update _ _ _, rfl⟩

theorem delete_Node_spec (h : m.node p = some x) :
    Ends (delete_Node p) m (fun _ => Sets m p none) E := by
  rw [ends_delete_Node h]
  exact sets_update _ _ _

theorem new_Node_sets [Inhabited T] : Ends (new_Node : Op κ T UInt64) m
    (fun p m' => m.supply = p :: m'.supply ∧ m.node p = none ∧ Sets m p (some ⟨none, default⟩) m')
    (fun e => e = .noNode ∧ ¬m.Ready 1) := by
  refine ends_mono new_Node_spec ?_
  rintro p m' ⟨hsupply, hp, hnode, hlist⟩
  refine ⟨hsupply, hp, ?_, fun q hq => ?_, hlist⟩
  · rw [hnode, Function.update_self]
  · rw [hnode, Function.update_of_ne hq]

end Sets

theorem store_node_spec {p : UInt64} {x : ListNode T} (v : Option UInt64) (h : m.node p = some x) :
    Ends (store v (.node p)) m (fun _ m' => Sets m p (some { x with Next := v }) m' ∧
      m'.supply = m.supply) E := by
  unfold store
  rw [ends_bind, ends_deref h, ends_set_node]
  exact ⟨sets_update _ _ _, rfl⟩

/-- A node is made ready, the slot stored, the node given back perhaps, and the cells counted. -/
theorem edit_of_put {p : UInt64} {n₁ n : Option (ListNode T)} {v : Option UInt64} {d : UInt32}
    {o : ListObject} {m₁ m₂ : Heap κ T} (hl : IsList m k (a ++ b)) (h₁ : Sets m p n₁ m₁)
    (h₂ : Sets (m₁.put v (behind k a)) p n m₂) (ho : m₂.list k = some o) :
    Edit m k (behind k a) v p n d { m₂ with
      list := Function.update m₂.list k (some { o with _count := o._count + d }) } := by
  obtain ⟨hp, hothers, hlist⟩ := h₂
  rw [hlist] at ho ⊢
  obtain hslot | ⟨c, -, hslot, -⟩ := hl.behind_cases
  · rw [hslot] at ho hothers ⊢
    refine ⟨hp, fun q hq _ => (hothers q hq).trans (h₁.others q hq), fun q hs => ?_, fun l hl => ?_,
      ?_⟩
    · cases hs
    · refine (Function.update_of_ne hl _ _).trans ?_
      show Function.update _ k _ l = _
      rw [Function.update_of_ne hl, h₁.list]
    · have hsome : Function.update m₁.list k _ k = some o := ho
      rw [Function.update_self, h₁.list] at hsome
      refine (Function.update_self _ _ _).trans ?_
      cases hk : m.list k with
      | none =>
        rw [hk] at hsome
        cases hsome
      | some o₀ =>
        rw [hk] at hsome
        obtain rfl := Option.some.inj hsome
        rfl
  · rw [hslot] at ho hothers ⊢
    refine ⟨hp, fun q hq hs => ?_, fun q hs hq => ?_, fun l hl => ?_, ?_⟩
    · refine (hothers q hq).trans (Eq.trans ?_ (h₁.others q hq))
      exact Function.update_of_ne (fun he => hs (congrArg _ he.symm)) _ _
    · cases hs
      refine (hothers _ hq).trans ?_
      rw [← h₁.others _ hq]
      exact Function.update_self _ _ _
    · refine (Function.update_of_ne hl _ _).trans ?_
      show m₁.list l = _
      rw [h₁.list]
    · have hsome : m₁.list k = some o := ho
      refine (Function.update_self _ _ _).trans ?_
      rw [← h₁.list, hsome]
      rfl

theorem IsList.put_object (h : IsList m k (a ++ b)) {m₁ : Heap κ T} (hlist : m₁.list = m.list)
    (v : Option UInt64) : ∃ o, (m₁.put v (behind k a)).list k = some o := by
  obtain ⟨o, ho, -⟩ := h.elems
  obtain hslot | ⟨c, -, hslot, -⟩ := h.behind_cases
  · refine ⟨{ o with _elems := v }, ?_⟩
    rw [hslot]
    show Function.update m₁.list k _ k = _
    rw [Function.update_self, hlist, ho]
    rfl
  · refine ⟨o, ?_⟩
    rw [hslot]
    show m₁.list k = _
    rw [hlist, ho]

/-! ## The functions -/

omit [DecidableEq κ] in
theorem IsList.slot_ne (h : IsList m k (a ++ b)) {p : UInt64} (hp : m.node p = none) :
    behind k a ≠ .node p := by
  obtain hslot | ⟨c, -, hslot, hsome⟩ := h.behind_cases
  · rw [hslot]
    simp
  · rw [hslot]
    intro he
    cases he
    rw [hp] at hsome
    cases hsome

theorem append_spec [Inhabited T] (elem : T) (h : Has m k (some cells)) : Ends (append k elem) m
    (fun _ m' => ∃ p, m.supply = p :: m'.supply ∧
      Becomes m k (some cells) (some (cells ++ [(p, elem)])) m')
    (fun e => e = .noNode ∧ ¬m.Ready 1) := by
  obtain ⟨hl, hcount⟩ := h
  have hseek : IsList m k ([] ++ cells ++ []) := by rwa [List.append_nil]
  have hend : IsList m k (cells ++ []) := by rwa [List.append_nil]
  unfold append
  rw [ends_bind]
  refine (hseek.seek_spec hl.rounds (fun _ _ => rfl) (by simp)).mpr ?_
  rw [List.nil_append, ends_bind]
  refine ends_mono new_Node_sets ?_
  rintro p m₁ ⟨hsupply, hp, h₁⟩
  have hslot := hend.slot_ne hp
  obtain ⟨o, ho⟩ := hend.put_object h₁.list (some p)
  have hvalid : m₁.Valid (behind k cells) := by
    have hvalid := hend.valid
    cases hs : behind k cells with
    | area l =>
      rw [hs] at hvalid
      show (m₁.list l).isSome
      rw [h₁.list]
      exact hvalid
    | node q =>
      rw [hs] at hvalid hslot
      show (m₁.node q).isSome
      rw [h₁.others q fun he => hslot (congrArg _ he)]
      exact hvalid
  have hfresh : (m₁.put (some p) (behind k cells)).node p = some ⟨none, default⟩ := by
    rw [← h₁.here]
    cases hs : behind k cells with
    | area l => rfl
    | node q => exact Function.update_of_ne (fun he => hslot (hs.trans (congrArg _ he.symm))) _ _
  rw [ends_bind, ends_store (some p) hvalid, ends_bind]
  refine ends_mono (set_data_spec elem hfresh) ?_
  rintro _ m₂ ⟨h₂, hsupply₂⟩
  rw [ends_bind]
  refine ends_mono (store_node_spec none h₂.here) ?_
  rintro _ m₃ ⟨h₃, hsupply₃⟩
  have h₃ := h₂.trans h₃
  rw [hsupply₂, put_supply] at hsupply₃
  have ho' : m₃.list k = some o := h₃.list ▸ ho
  rw [ends_add_count 1 ho']
  have he := edit_of_put (d := 1) hend h₁ h₃ ho'
  have hb := he.becomes_insert hend (by rwa [List.append_nil]) hp
  rw [List.append_nil] at hb
  refine ⟨p, ?_, hb⟩
  rw [hsupply, ← hsupply₃]

theorem push_spec [Inhabited T] (elem : T) (h : Has m k (some cells)) : Ends (push k elem) m
    (fun _ m' => ∃ p, m.supply = p :: m'.supply ∧
      Becomes m k (some cells) (some ((p, elem) :: cells)) m')
    (fun e => e = .noNode ∧ ¬m.Ready 1) := by
  obtain ⟨hl, hcount⟩ := h
  obtain ⟨o, ho, helems⟩ := hl.elems
  have hend : IsList m k ([] ++ cells) := hl
  unfold push
  rw [ends_bind]
  refine ends_mono new_Node_sets ?_
  rintro p m₁ ⟨hsupply, hp, h₁⟩
  rw [ends_bind]
  refine ends_mono (set_data_spec elem h₁.here) ?_
  rintro _ m₂ ⟨h₂, hsupply₂⟩
  have h₂ := h₁.trans h₂
  have ho₂ : m₂.list k = some o := h₂.list ▸ ho
  rw [ends_bind, ends_object ho₂, helems, ends_bind]
  refine ends_mono (store_node_spec _ h₂.here) ?_
  rintro _ m₃ ⟨h₃, hsupply₃⟩
  have h₃ := h₂.trans h₃
  have hvalid : m₃.Valid (.area k) := by
    show (m₃.list k).isSome
    rw [h₃.list, ho]
    rfl
  obtain ⟨o', ho'⟩ := hend.put_object h₃.list (some p)
  rw [ends_bind, ends_store (some p) hvalid]
  refine (ends_add_count 1 ho').mpr ?_
  have hready : Sets (m₃.put (some p) (.area k)) p _ (m₃.put (some p) (.area k)) := .refl h₃.here
  have he := edit_of_put (d := 1) hend h₃ hready ho'
  rw [hsupply, ← hsupply₂, ← hsupply₃]
  exact ⟨p, rfl, he.becomes_insert hend hcount hp⟩

/-- A cell is taken out by its slot. -/
theorem IsList.take_out (hl : IsList m k (a ++ c :: b))
    (hcount : (m.list k).map ListObject._count = some (UInt32.ofNat (a ++ c :: b).length))
    {Q : Heap κ T → Prop} (h : ∀ m', Becomes m k (some (a ++ c :: b)) (some (a ++ b)) m' → Q m') :
    Ends (store (b.map Prod.fst).head? (behind k a)) m (fun _ m => Ends (delete_Node c.1) m
      (fun _ m => Ends (add_count k (-1)) m (fun _ => Q) E) E) E := by
  have hslot : behind k a ≠ .node c.1 := by
    have hold := hl.nodup
    rw [List.map_append, List.map_cons, List.nodup_middle, List.nodup_cons] at hold
    obtain hslot | ⟨x, hx, hslot, -⟩ := hl.behind_cases
    · rw [hslot]
      simp
    · rw [hslot]
      intro he
      have hxc : x.1 = c.1 := Slot.node.inj he
      rw [← hxc] at hold
      exact hold.1 (List.mem_append_left _ (List.mem_map_of_mem hx))
  obtain ⟨o, ho⟩ := hl.put_object rfl (b.map Prod.fst).head?
  have hnode : (m.put (b.map Prod.fst).head? (behind k a)).node c.1 = m.node c.1 := by
    cases hs : behind k a with
    | area l => rfl
    | node q => exact Function.update_of_ne (fun he => hslot (hs.trans (congrArg _ he.symm))) _ _
  rw [ends_store _ hl.valid]
  refine ends_mono (delete_Node_spec (hnode.trans hl.node)) fun _ m₂ h₂ => ?_
  have ho' : m₂.list k = some o := h₂.list ▸ ho
  rw [ends_add_count _ ho']
  have he := edit_of_put (d := -1) hl (.refl hl.node) h₂ ho'
  exact h _ (he.becomes_remove hl hcount)

theorem remove_spec [DecidableEq T] (elem : T) (h : Has m k (some cells)) : Ends (remove k elem) m
    (fun _ m' => ∃ cells', cells'.map Prod.snd = (cells.map Prod.snd).erase elem ∧
      Becomes m k (some cells) (some cells') m') E := by
  obtain ⟨hl, hcount⟩ := h
  unfold remove
  rw [ends_bind]
  by_cases hin : elem ∈ cells.map Prod.snd
  · -- The cells before the first that holds the element.
    obtain ⟨a, c, b, rfl, hbefore, hc⟩ : ∃ a c b, cells = a ++ c :: b ∧
        (∀ x ∈ a, decide (x.2 ≠ elem) = true) ∧ c.2 = elem := by
      clear hl hcount
      induction cells with
      | nil => cases hin
      | cons x l ih =>
        by_cases hx : x.2 = elem
        · exact ⟨[], x, l, rfl, by simp, hx⟩
        · have hrest : elem ∈ l.map Prod.snd := by simpa [Ne.symm hx] using hin
          obtain ⟨a, c, b, rfl, hbefore, hc⟩ := ih hrest
          refine ⟨x :: a, c, b, rfl, ?_, hc⟩
          simpa [hx] using hbefore
    have hseek : IsList m k ([] ++ a ++ c :: b) := hl
    have hlen := hl.rounds
    rw [List.length_append] at hlen
    refine (hseek.seek_spec (by omega) hbefore (by simp [hc])).mpr ?_
    rw [List.nil_append, ends_bind, hl.load_spec]
    have hhead : ((c :: b).map Prod.fst).head? = some c.1 := rfl
    rw [hhead]
    dsimp only
    simp only [ends_bind, ends_deref hl.node]
    unfold assert
    rw [hc, decide_eq_true rfl, if_pos rfl, ends_pure]
    refine hl.take_out hcount fun m' hb => ⟨a ++ b, ?_, hb⟩
    have hnot : elem ∉ a.map Prod.snd := by
      rintro hmem
      obtain ⟨x, hx, rfl⟩ := List.mem_map.mp hmem
      simpa using hbefore x hx
    rw [List.map_append, List.map_append, List.map_cons, hc, List.erase_append_right _ hnot,
      List.erase_cons_head]
  · have hseek : IsList m k ([] ++ cells ++ []) := by rwa [List.append_nil]
    have hend : IsList m k (cells ++ []) := by rwa [List.append_nil]
    have hbefore : ∀ c ∈ cells, decide (c.2 ≠ elem) = true := by
      intro c hc
      rw [decide_eq_true_iff]
      rintro rfl
      exact hin (List.mem_map_of_mem hc)
    refine (hseek.seek_spec hl.rounds hbefore (by simp)).mpr ?_
    rw [List.nil_append, ends_bind, hend.load_spec]
    refine ⟨cells, (List.erase_of_not_mem hin).symm, ⟨hl, hcount⟩, fun _ _ => rfl,
      fun _ _ _ => rfl, fun _ hp => .inl hp, fun _ hp hp' => absurd hp hp'⟩

theorem dequeue_spec (h : Has m k (some (c :: cells))) : Ends (dequeue k) m
    (fun r m' => r = c.2 ∧ Becomes m k (some (c :: cells)) (some cells) m') E := by
  obtain ⟨hl, hcount⟩ := h
  obtain ⟨o, ho, helems⟩ := hl.elems
  have hfront : IsList m k ([] ++ c :: cells) := hl
  have hhead : ((c :: cells).map Prod.fst).head? = some c.1 := rfl
  unfold dequeue
  rw [ends_bind, ends_object ho, helems, hhead]
  dsimp only
  simp only [ends_bind, ends_deref hfront.node, ends_pure]
  exact hfront.take_out hcount fun m' hb => ⟨trivial, hb⟩

end Infos.Util.Lists
