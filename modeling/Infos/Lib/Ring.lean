import Mathlib.Data.List.Chain
import Mathlib.Data.List.Nodup
import Mathlib.Logic.Relation
import Mathlib.Tactic.Common

/-!
# Rings of doubly linked nodes

Each node points at the next one and back at the one before, and the last node is before the
first. `IsRing m l` says that the nodes of `l` are linked so, in this order.
-/

namespace Infos.Ring

variable {α : Type}

/-- The pointers of the nodes. -/
structure Links (α : Type) where
  next : α → Option α
  prev : α → Option α

/-- `x` and `y` point at each other, `y` behind `x`. -/
def Links.Joins (m : Links α) (x y : α) : Prop := m.next x = some y ∧ m.prev y = some x

/-- The nodes of `l` are a ring. -/
def IsRing (m : Links α) (l : List α) : Prop :=
  l.IsChain m.Joins ∧ ∀ x ∈ l.getLast?, ∀ y ∈ l.head?, m.Joins x y

variable {m m' : Links α} {l a b : List α} {w x y : α}

theorem ring_nil (m : Links α) : IsRing m [] := ⟨.nil, by simp⟩

theorem ring_singleton : IsRing m [x] ↔ m.Joins x x := by
  unfold IsRing
  simp

/-- A ring has no distinguished node. -/
theorem ring_swap (h : IsRing m (a ++ b)) : IsRing m (b ++ a) := by
  obtain ⟨hchain, hclose⟩ := h
  obtain ⟨ha, hb, hab⟩ := List.isChain_append.mp hchain
  rcases eq_or_ne a [] with rfl | hna
  · exact ⟨by simpa using hb, by simpa using hclose⟩
  rcases eq_or_ne b [] with rfl | hnb
  · exact ⟨by simpa using ha, by simpa using hclose⟩
  rw [List.getLast?_append_of_ne_nil a hnb, List.head?_append_of_ne_nil a hna] at hclose
  refine ⟨List.isChain_append.mpr ⟨hb, ha, hclose⟩, ?_⟩
  rwa [List.getLast?_append_of_ne_nil b hna, List.head?_append_of_ne_nil b hnb]

theorem ring_first (h : IsRing m (x :: l)) : ∃ y ∈ (l ++ [x]).head?, m.Joins x y := by
  cases l with
  | nil => exact ⟨x, rfl, ring_singleton.mp h⟩
  | cons y l => exact ⟨y, rfl, (List.isChain_cons_cons.mp h.1).1⟩

theorem ring_last (h : IsRing m (x :: l)) : ∃ y ∈ (x :: l).getLast?, m.Joins y x :=
  ⟨_, List.getLast?_cons, h.2 _ List.getLast?_cons x rfl⟩

/-! ## Nodes that carry something -/

section
variable {β : Type} {f : β → α} {c : β} {cells : List β}

theorem last_map {e : β} (h : e ∈ cells.getLast?) : f e ∈ (cells.map f).getLast? := by
  rw [List.getLast?_map]
  exact Option.mem_map_of_mem f h

/-- The last node points at the first. -/
theorem ring_last_map (h : IsRing m ((c :: cells).map f)) :
    ∃ d ∈ (c :: cells).getLast?, m.Joins (f d) (f c) :=
  ⟨_, List.getLast?_cons, h.2 _ (last_map List.getLast?_cons) (f c) rfl⟩

end

/-! ## Editing -/

/-- A chain does not see the pointer behind its last node, nor the one before its first. -/
theorem chain_congr (h : l.IsChain m.Joins) (hl : l.Nodup)
    (hnext : ∀ x ∈ l, x ∉ l.getLast? → m'.next x = m.next x)
    (hprev : ∀ x ∈ l, x ∉ l.head? → m'.prev x = m.prev x) : l.IsChain m'.Joins := by
  induction l with
  | nil => exact .nil
  | cons x l ih =>
    cases l with
    | nil => exact .singleton x
    | cons y l =>
      obtain ⟨hxy, hchain⟩ := List.isChain_cons_cons.mp h
      obtain ⟨hx, hnd⟩ := List.nodup_cons.mp hl
      have hlast : (x :: y :: l).getLast? = (y :: l).getLast? := List.getLast?_cons_cons
      rw [hlast] at hnext
      refine List.isChain_cons_cons.mpr ⟨⟨?_, ?_⟩, ih hchain hnd ?_ ?_⟩
      · rw [hnext x List.mem_cons_self fun hm => hx (List.mem_of_getLast? hm), hxy.1]
      · have hne : y ∉ (x :: y :: l).head? := by
          rintro heq
          obtain rfl : x = y := by simpa using heq
          exact hx List.mem_cons_self
        rw [hprev y (List.mem_cons_of_mem _ List.mem_cons_self) hne, hxy.2]
      · exact fun z hz => hnext z (List.mem_cons_of_mem _ hz)
      · intro z hz _
        refine hprev z (List.mem_cons_of_mem _ hz) fun heq => hx ?_
        obtain rfl : x = z := by simpa using heq
        exact hz

/-- A new node between the last and the first. -/
theorem ring_insert (h : IsRing m (x :: l)) (hnd : (x :: l).Nodup) (hlast : y ∈ (x :: l).getLast?)
    (hyw : m'.Joins y w) (hwx : m'.Joins w x)
    (hnext : ∀ z ∈ x :: l, z ≠ y → m'.next z = m.next z)
    (hprev : ∀ z ∈ x :: l, z ≠ x → m'.prev z = m.prev z) : IsRing m' (x :: l ++ [w]) := by
  have hchain : (x :: l).IsChain m'.Joins := by
    refine chain_congr h.1 hnd (fun z hz hne => hnext z hz ?_) fun z hz hne => hprev z hz ?_
    · rintro rfl
      exact hne hlast
    · rintro rfl
      exact hne rfl
  refine ⟨hchain.append (.singleton w) ?_, ?_⟩
  · intro u hu v hv
    obtain rfl : y = u := Option.mem_unique hlast hu
    obtain rfl : w = v := by simpa using hv
    exact hyw
  · intro u hu v hv
    obtain rfl : w = u := Option.mem_unique List.getLast?_concat hu
    obtain rfl : x = v := by simpa using hv
    exact hwx

/-- The first node is taken out, and those beside it are joined. -/
theorem ring_erase (h : IsRing m (w :: x :: l)) (hnd : (x :: l).Nodup)
    (hlast : y ∈ (x :: l).getLast?) (hyx : m'.Joins y x)
    (hnext : ∀ z ∈ x :: l, z ≠ y → m'.next z = m.next z)
    (hprev : ∀ z ∈ x :: l, z ≠ x → m'.prev z = m.prev z) : IsRing m' (x :: l) := by
  refine ⟨chain_congr (List.isChain_cons_cons.mp h.1).2 hnd (fun z hz hne => hnext z hz ?_)
    fun z hz hne => hprev z hz ?_, ?_⟩
  · rintro rfl
    exact hne hlast
  · rintro rfl
    exact hne rfl
  · intro u hu v hv
    obtain rfl : y = u := Option.mem_unique hlast hu
    obtain rfl : x = v := by simpa using hv
    exact hyx

/-- The same, by the two pointers that change. -/
theorem ring_unlink (h : IsRing m (w :: x :: l)) (hnd : (x :: l).Nodup)
    (hlast : y ∈ (x :: l).getLast?) [DecidableEq α] :
    IsRing ⟨fun z => if y = z then some x else m.next z,
      fun z => if x = z then some y else m.prev z⟩ (x :: l) := by
  refine ring_erase h hnd hlast ⟨if_pos rfl, if_pos rfl⟩ (fun z _ hzy => ?_) fun z _ hzx => ?_
  · exact if_neg hzy.symm
  · exact if_neg hzx.symm

/-- A ring is a chain that comes back to its first node. -/
theorem ring_iff_chain : IsRing m (x :: l) ↔ (x :: (l ++ [x])).IsChain m.Joins := by
  rw [← List.cons_append, List.isChain_append]
  constructor
  · rintro ⟨hchain, hclose⟩
    exact ⟨hchain, .singleton x, hclose⟩
  · rintro ⟨hchain, -, hclose⟩
    exact ⟨hchain, hclose⟩

/-- Two rings are made one, the second put in behind the first node of the first. -/
theorem ring_join {v : α} {l' : List α} (h : IsRing m (x :: l)) (h' : IsRing m (y :: l'))
    (hnd : (x :: l ++ y :: l').Nodup) (hv : v ∈ (l ++ [x]).head?) (hw : w ∈ (l' ++ [y]).head?)
    (hxw : m'.Joins x w) (hyv : m'.Joins y v)
    (hnext : ∀ z, z ≠ x → z ≠ y → m'.next z = m.next z)
    (hprev : ∀ z, z ≠ w → z ≠ v → m'.prev z = m.prev z) : IsRing m' (x :: (l' ++ y :: l)) := by
  have hl := (List.isChain_cons.mp (ring_iff_chain.mp h)).2
  have hl' := (List.isChain_cons.mp (ring_iff_chain.mp h')).2
  obtain ⟨hndl, hndl', hdisj⟩ := List.nodup_append'.mp hnd
  have hperm : (l ++ [x]).Perm (x :: l) := List.perm_append_singleton x l
  have hperm' : (l' ++ [y]).Perm (y :: l') := List.perm_append_singleton y l'
  have hdiff : ∀ a ∈ l ++ [x], ∀ b ∈ l' ++ [y], a ≠ b := by
    rintro a ha b hb rfl
    exact hdisj (hperm.mem_iff.mp ha) (hperm'.mem_iff.mp hb)
  have hc : (l ++ [x]).IsChain m'.Joins := by
    refine chain_congr hl (hperm.nodup_iff.mpr hndl) (fun z hz hne => hnext z ?_ ?_)
      fun z hz hne => hprev z ?_ ?_
    · rintro rfl
      exact hne List.getLast?_concat
    · exact hdiff z hz y (by simp)
    · exact hdiff z hz w (List.mem_of_head? hw)
    · rintro rfl
      exact hne hv
  have hc' : (l' ++ [y]).IsChain m'.Joins := by
    refine chain_congr hl' (hperm'.nodup_iff.mpr hndl') (fun z hz hne => hnext z ?_ ?_)
      fun z hz hne => hprev z ?_ ?_
    · exact (hdiff x (by simp) z hz).symm
    · rintro rfl
      exact hne List.getLast?_concat
    · rintro rfl
      exact hne hw
    · exact (hdiff v (List.mem_of_head? hv) z hz).symm
  rw [ring_iff_chain, List.append_assoc, List.cons_append, List.append_cons, List.isChain_cons]
  refine ⟨fun a ha => ?_, hc'.append hc fun a ha b hb => ?_⟩
  · rw [List.head?_append_of_ne_nil _ (by simp)] at ha
    rwa [Option.mem_unique ha hw]
  · obtain rfl : y = a := Option.mem_unique List.getLast?_concat ha
    rwa [Option.mem_unique hb hv]

/-- What is come to from the first node, by the pointers to the next. -/
theorem ring_reach (h : IsRing m (x :: l)) :
    Relation.ReflTransGen (fun a b => m.next a = some b) x y ↔ y ∈ x :: l := by
  constructor
  · intro hxy
    induction hxy with
    | refl => exact List.mem_cons_self
    | @tail b c _ hbc ih =>
      obtain ⟨a, a', hl⟩ := List.mem_iff_append.mp ih
      have hswap : IsRing m (b :: (a' ++ a)) := ring_swap (hl ▸ h)
      obtain ⟨d, hd, hbd⟩ := ring_first hswap
      obtain rfl : d = c := Option.some.inj (hbd.1.symm.trans hbc)
      have hmem := List.mem_of_head? hd
      rw [hl]
      simp only [List.mem_append, List.mem_cons] at hmem ⊢
      tauto
  · intro hy
    have hchain : (x :: l).IsChain (Relation.ReflTransGen fun a b => m.next a = some b) :=
      h.1.imp fun _ _ hab => .single hab.1
    rcases List.mem_cons.mp hy with rfl | hy
    · exact .refl
    · exact List.rel_of_pairwise_cons hchain.pairwise hy

theorem ring_congr (h : IsRing m l) (hnext : ∀ x ∈ l, m'.next x = m.next x)
    (hprev : ∀ x ∈ l, m'.prev x = m.prev x) : IsRing m' l := by
  have hjoins : ∀ x ∈ l, ∀ y ∈ l, m.Joins x y → m'.Joins x y := by
    rintro x hx y hy ⟨hxy, hyx⟩
    exact ⟨(hnext x hx).trans hxy, (hprev y hy).trans hyx⟩
  refine ⟨h.1.imp_of_mem_imp fun x y hx hy => hjoins x hx y hy, fun x hx y hy => ?_⟩
  exact hjoins x (List.mem_of_getLast? hx) y (List.mem_of_head? hy) (h.2 x hx y hy)

end Infos.Ring
