import Infos.Buddy.Code
import Infos.Lib.Blocks
import Mathlib.Data.List.Perm.Subperm

/-!
# The free lists hold a set of free blocks

`Rep nr ty h F` says that the memory `h` represents the free set `F`. Each helper of the allocator
is specified by the free set it leaves.
-/

open Infos.Blocks Infos.Prog Infos.PtrList

namespace Infos.Buddy

/-! ## Loads and stores -/

@[simp]
theorem links_visit (h : Mem) (slot : Slot ℕ ℕ) : (h.visit slot).links = h.links := by
  cases slot <;> rfl

@[simp]
theorem pgd_visit (h : Mem) (slot : Slot ℕ ℕ) : (h.visit slot).pgd = h.pgd := by
  cases slot <;> rfl

@[simp]
theorem load_write (h : Mem) (v : Option ℕ) (s t : Slot ℕ ℕ) :
    (h.write v s).links.load t = if t = s then v else h.links.load t := by
  cases s with
  | area k =>
    cases t with
    | area j => simp [Mem.write, Mem.links, Links.load, Function.update_apply]
    | node x => simp [Mem.write, Mem.links, Links.load]
  | node p =>
    cases t with
    | area j => simp [Mem.write, Mem.links, Links.load]
    | node x =>
      by_cases hx : x = p
      · subst hx
        simp [Mem.write, Mem.links, Links.load]
      · simp [Mem.write, Mem.links, Links.load, hx]

@[simp]
theorem type_write (h : Mem) (v : Option ℕ) (slot : Slot ℕ ℕ) (i : ℕ) :
    ((h.write v slot).pgd i).type = (h.pgd i).type := by
  cases slot with
  | area k => rfl
  | node p =>
    by_cases hi : i = p
    · subst hi
      simp [Mem.write]
    · simp [Mem.write, hi]

@[simp]
theorem touched_write (h : Mem) (v : Option ℕ) (slot : Slot ℕ ℕ) :
    (h.write v slot).touched = h.touched := by
  cases slot <;> rfl

/-- Reads can be counted after the writes. -/
@[simp]
theorem write_visit (h : Mem) (v : Option ℕ) (s t : Slot ℕ ℕ) :
    (h.visit s).write v t = (h.write v t).visit s := by
  cases s <;> cases t <;> rfl

@[simp]
theorem returns_load (slot : Slot ℕ ℕ) (h : Mem) (Q : Option ℕ → Mem → Prop) :
    Returns (load slot) h Q ↔ Q (h.links.load slot) (h.visit slot) := by
  constructor
  · rintro ⟨a, h', e, hq⟩
    cases e
    exact hq
  · intro hq
    exact ⟨_, _, rfl, hq⟩

@[simp]
theorem returns_store (v : Option ℕ) (slot : Slot ℕ ℕ) (h : Mem) (Q : Unit → Mem → Prop) :
    Returns (store v slot) h Q ↔ Q () ((h.write v slot).visit slot) := returns_modify ..

@[simp]
theorem returns_assert (c : Bool) (h : Mem) (Q : Unit → Mem → Prop) :
    Returns (assert c) h Q ↔ c = true ∧ Q () h := by
  unfold assert
  cases c <;> simp

@[simp]
theorem returns_deref (p : ℕ) (h : Mem) (Q : ℕ → Mem → Prop) :
    Returns (deref (some p)) h Q ↔ Q p h := returns_pure ..

/-! ## The represented set -/

/-- The descriptors the allocator may touch. The one past the end is touched for some lengths. -/
def Touchable (nr i : ℕ) : Prop := i < nr ∨ i = nr ∧ ¬ 2 ^ maxOrder ∣ nr

def SlotIn (nr : ℕ) : Slot ℕ ℕ → Prop
  | .area _ => True
  | .node p => Touchable nr p

/-- The list of each order holds the free blocks of that order in ascending order, and the
descriptors of all other pages hold `NULL`. -/
structure Rep (nr : ℕ) (ty : ℕ → PageDescriptorType) (h : Mem) (F : FreeSet nr maxOrder) : Prop where
  list : ∀ k, ∃ l, HasList h.links k l ∧ l.Pairwise (· < ·) ∧ ∀ p, p ∈ l ↔ ⟨p, k⟩ ∈ F
  null : ∀ i < nr, (∀ k, ⟨i, k⟩ ∉ F) → h.links.next i = none
  types : ∀ i, (h.pgd i).type = ty i
  bounded : ∀ i ∈ h.touched, Touchable nr i

variable {nr : ℕ} {ty : ℕ → PageDescriptorType} {h : Mem} {F : FreeSet nr maxOrder}

theorem mem_lt (F : FreeSet nr maxOrder) {b : Block} (hb : b ∈ F) : b.base < nr :=
  lt_of_lt_of_le b.base_lt_stop (F.inside b hb)

theorem order_eq (F : FreeSet nr maxOrder) {p j k : ℕ} (hj : (⟨p, j⟩ : Block) ∈ F)
    (hk : (⟨p, k⟩ : Block) ∈ F) : j = k :=
  congrArg Block.order (FreeSet.eq_of_mem hj hk (Block.base_mem _) (Block.base_mem ⟨p, k⟩))

/-- What is known of any list of the representation. -/
theorem Rep.of_hasList (R : Rep nr ty h F) {k : ℕ} {l : List ℕ} (hl : HasList h.links k l) :
    l.Pairwise (· < ·) ∧ ∀ p, p ∈ l ↔ ⟨p, k⟩ ∈ F := by
  obtain ⟨l', hl', hs, hm⟩ := R.list k
  rw [hasList_unique hl hl']
  exact ⟨hs, hm⟩

theorem Rep.lt_of_mem (R : Rep nr ty h F) {k : ℕ} {l : List ℕ} (hl : HasList h.links k l) {p : ℕ}
    (hp : p ∈ l) : p < nr := mem_lt F (((R.of_hasList hl).2 p).mp hp)

/-- A list is never longer than the array, so a loop over it ends in time. -/
theorem Rep.length_le (R : Rep nr ty h F) {k : ℕ} {l : List ℕ} (hl : HasList h.links k l) :
    l.length ≤ nr := by
  have hn : l.Nodup := (R.of_hasList hl).1.imp fun h => h.ne
  have hsub : l ⊆ List.range nr := fun p hp => List.mem_range.mpr (R.lt_of_mem hl hp)
  simpa using (hn.subperm hsub).length_le

theorem bounded_visit {slot : Slot ℕ ℕ} (hb : ∀ i ∈ h.touched, Touchable nr i)
    (hs : SlotIn nr slot) : ∀ i ∈ (h.visit slot).touched, Touchable nr i := by
  cases slot with
  | area k => exact hb
  | node p =>
    intro i hi
    rcases List.mem_cons.mp hi with rfl | hi
    · exact hs
    · exact hb i hi

theorem Rep.visit (R : Rep nr ty h F) {slot : Slot ℕ ℕ} (hs : SlotIn nr slot) :
    Rep nr ty (h.visit slot) F where
  list := by simpa using R.list
  null := by simpa using R.null
  types := by simpa using R.types
  bounded := bounded_visit R.bounded hs

theorem Rep.slotIn (R : Rep nr ty h F) {k : ℕ} {a b : List ℕ} (hl : HasList h.links k (a ++ b)) :
    SlotIn nr (slotAfter k a) := by
  induction a using List.reverseRecOn with
  | nil => trivial
  | append_singleton a x _ =>
    rw [slotAfter_concat]
    exact Or.inl (R.lt_of_mem hl (by simp))

theorem sorted_nodup {l : List ℕ} (h : l.Pairwise (· < ·)) : l.Nodup := h.imp fun h => h.ne

/-- One edit of one list, between the nodes `a` and `b`: the nodes `c` go out, `d` come in. -/
theorem Rep.relink (R : Rep nr ty h F) {h' : Mem} {F' : FreeSet nr maxOrder} {k : ℕ}
    {a b c d : List ℕ} (hl : HasList h.links k (a ++ c ++ b))
    (hslot : h'.links.load (slotAfter k a) = (d ++ b).head?)
    (hlinked : LinkedTo h'.links.next b.head? d)
    (hnull : ∀ x ∈ c, x ∉ d → h'.links.next x = none)
    (hother : ∀ s, s ≠ slotAfter k a → (∀ x ∈ c, s ≠ .node x) → (∀ x ∈ d, s ≠ .node x) →
      h'.links.load s = h.links.load s)
    (hnew : ∀ x ∈ d, ∀ j, ⟨x, j⟩ ∉ F)
    (hsorted : (a ++ d ++ b).Pairwise (· < ·))
    (hmem : ∀ p j, ⟨p, j⟩ ∈ F' ↔ if j = k then p ∈ a ++ d ++ b else ⟨p, j⟩ ∈ F)
    (htypes : ∀ i, (h'.pgd i).type = (h.pgd i).type)
    (hbounded : ∀ i ∈ h'.touched, Touchable nr i) : Rep nr ty h' F' := by
  obtain ⟨hls, hlm⟩ := R.of_hasList hl
  have hslotk : ∀ x, slotAfter k a = .node x → x ∈ a := fun x => slotAfter_eq_node
  refine ⟨?_, ?_, fun i => (htypes i).trans (R.types i), hbounded⟩
  · intro j
    by_cases hj : j = k
    · subst hj
      exact ⟨a ++ d ++ b, hasList_relink hl (sorted_nodup hls) (sorted_nodup hsorted) hslot hlinked
        hother, hsorted, fun p => by simp [hmem]⟩
    · obtain ⟨l, hjl, hjs, hjm⟩ := R.list j
      refine ⟨l, hasList_congr hjl ?_ ?_, hjs, fun p => by simp [hmem, hj, hjm]⟩
      · refine hother (.area j) (fun e => hj ?_) (by simp) (by simp)
        rcases List.eq_nil_or_concat' a with rfl | ⟨a, x, rfl⟩
        · simpa using e
        · simp at e
      · intro x hx
        have hxF : (⟨x, j⟩ : Block) ∈ F := (hjm x).mp hx
        -- A node of this list is in no other list.
        have hout : x ∉ a ++ c ++ b := fun hm => hj (order_eq F hxF ((hlm x).mp hm))
        refine hother (.node x) (fun e => ?_) ?_ ?_
        · have := hslotk x e.symm
          grind
        · grind
        · intro y hy e
          cases e
          exact hnew x hy j hxF
  · intro i hi hno
    have hno' : i ∉ a ++ d ++ b := fun hm => hno k ((hmem i k).mpr (by simpa using hm))
    by_cases hc : i ∈ c
    · exact hnull i hc (by grind)
    · have hsame : h'.links.next i = h.links.next i := by
        refine hother (.node i) (fun e => ?_) (by grind) (by grind)
        have := hslotk i e.symm
        grind
      rw [hsame]
      refine R.null i hi fun j hj => ?_
      by_cases hjk : j = k
      · have := (hlm i).mpr (hjk ▸ hj)
        grind
      · exact hno j ((hmem i j).mpr (by simpa [hjk] using hj))

/-- Writing a block into the list after `a`: its own pointer first, then the slot. -/
theorem Rep.link_in (R : Rep nr ty h F) {b : Block} (hb : F.Fits b) {a c : List ℕ}
    (hl : HasList h.links b.order (a ++ c)) (ha : ∀ x ∈ a, x < b.base) (hc : ∀ x ∈ c, b.base < x) :
    Rep nr ty ((h.write c.head? (.node b.base)).write (some b.base) (slotAfter b.order a))
      (F.add b hb) := by
  obtain ⟨hls, hlm⟩ := R.of_hasList hl
  have hnew : ∀ j, (⟨b.base, j⟩ : Block) ∉ F := fun j hj =>
    (hb.apart _ hj).not_mem (Block.base_mem ⟨b.base, j⟩) b.base_mem
  have hne : slotAfter b.order a ≠ .node b.base := by
    intro e
    have := ha _ (slotAfter_eq_node e)
    omega
  refine R.relink (a := a) (c := []) (d := [b.base]) (b := c) (k := b.order)
    (by simpa using hl) (by simp) ?_ (by simp) ?_ ?_ ?_ ?_ (fun i => by simp) (by simpa using R.bounded)
  · rw [linkedTo_cons]
    refine ⟨?_, trivial⟩
    show Links.load _ (.node b.base) = _
    simp [Ne.symm hne]
  · intro s hs _ hd
    simp [hs, hd b.base]
  · intro x hx
    rw [List.mem_singleton] at hx
    exact hx ▸ hnew
  · rw [List.pairwise_append] at hls
    rw [List.append_assoc, List.pairwise_append]
    refine ⟨hls.1, by simpa using ⟨hc, hls.2.1⟩, ?_⟩
    intro x hx y hy
    rcases List.mem_cons.mp hy with rfl | hy
    · exact ha x hx
    · exact hls.2.2 x hx y hy
  · intro p j
    rw [FreeSet.mem_add]
    by_cases hj : j = b.order
    · subst hj
      have := hlm p
      simp only [List.mem_append] at this
      simp only [if_true, List.mem_append, List.mem_singleton, ← this, Block.ext_iff]
      tauto
    · rw [if_neg hj]
      refine or_iff_right fun e => hj ?_
      rw [← e]

/-- Taking the run `d` of blocks out of the list, between `a` and `c`. -/
theorem Rep.link_out (R : Rep nr ty h F) {F' : FreeSet nr maxOrder} {k : ℕ} {a c d : List ℕ}
    (hl : HasList h.links k (a ++ d ++ c)) {h' : Mem}
    (hload : ∀ s, h'.links.load s = if ∃ x ∈ d, s = .node x then none
      else if s = slotAfter k a then c.head? else h.links.load s)
    (hmem : ∀ b, b ∈ F' ↔ b ∈ F ∧ ¬ (b.order = k ∧ b.base ∈ d))
    (htypes : ∀ i, (h'.pgd i).type = (h.pgd i).type)
    (hbounded : ∀ i ∈ h'.touched, Touchable nr i) : Rep nr ty h' F' := by
  obtain ⟨hls, hlm⟩ := R.of_hasList hl
  have hn := sorted_nodup hls
  have hslot : ¬ ∃ x ∈ d, slotAfter k a = .node x := by
    rintro ⟨x, hx, e⟩
    have := slotAfter_eq_node e
    grind
  refine R.relink (d := []) hl ?_ trivial ?_ ?_ (by simp) ?_ ?_ htypes hbounded
  · rw [hload, if_neg hslot, if_pos rfl]
    rfl
  · intro x hx _
    show h'.links.load (.node x) = none
    rw [hload, if_pos ⟨x, hx, rfl⟩]
  · intro s hs hd _
    rw [hload, if_neg (by simpa using hd), if_neg hs]
  · refine hls.sublist ?_
    simp
  · intro p j
    rw [hmem]
    by_cases hj : j = k
    · subst hj
      have := hlm p
      simp only [if_true, ← this]
      grind
    · simp [hj]

/-! ## Searching a list -/

theorem seek_spec (go : ℕ → Bool) (rounds k : ℕ) (a b : List ℕ) (R : Rep nr ty h F)
    (hl : HasList h.links k (a ++ b)) (hr : b.length < rounds) :
    Returns (seek go rounds (slotAfter k a)) h fun slot h' =>
      slot = slotAfter k (a ++ b.takeWhile go) ∧ h'.links = h.links ∧ h'.pgd = h.pgd ∧
        Rep nr ty h' F := by
  induction b generalizing rounds a h with
  | nil =>
    obtain ⟨rounds, rfl⟩ : ∃ r, rounds = r + 1 := ⟨rounds - 1, by grind⟩
    simp only [seek, returns_bind, returns_load, load_slotAfter hl]
    simpa using R.visit (R.slotIn hl)
  | cons x b ih =>
    obtain ⟨rounds, rfl⟩ : ∃ r, rounds = r + 1 := ⟨rounds - 1, by grind⟩
    have R' := R.visit (R.slotIn hl)
    simp only [seek, returns_bind, returns_load, load_slotAfter hl, List.head?_cons]
    apply returns_ite
    · intro hgo
      have hl' : HasList (h.visit (slotAfter k a)).links k ((a ++ [x]) ++ b) := by simpa using hl
      have := ih rounds (a ++ [x]) R' hl' (by simpa using hr)
      rw [slotAfter_concat] at this
      simpa [hgo] using this
    · intro hgo
      simpa [hgo] using R'

theorem insert_block_spec {b : Block} (R : Rep nr ty h F) (hb : F.Fits b) :
    Returns (insert_block nr b.base b.order) h fun slot h' =>
      h'.links.load slot = some b.base ∧ SlotIn nr slot ∧ Rep nr ty h' (F.add b hb) := by
  obtain ⟨l, hl, hs, hm⟩ := R.list b.order
  have hlen := R.length_le hl
  have hnot : b.base ∉ l := fun hmem => (hb.apart _ ((hm _).mp hmem)).not_mem
    (Block.base_mem _) b.base_mem
  unfold insert_block
  rw [returns_bind]
  apply returns_mono (seek_spec _ (nr + 1) b.order [] l R hl (by omega))
  rintro slot h₁ ⟨rfl, hlinks, hpgd, R₁⟩
  set a := l.takeWhile fun q => decide (b.base > q) with ha
  set c := l.dropWhile fun q => decide (b.base > q) with hc
  have hac : a ++ c = l := List.takeWhile_append_dropWhile
  rw [← hac] at hl hs hnot
  have hl₁ : HasList h₁.links b.order (a ++ c) := by rwa [hlinks]
  have halt : ∀ x ∈ a, x < b.base := fun x hx => by
    simpa using List.all_eq_true.mp (List.all_takeWhile (l := l)) x hx
  have hclt : ∀ x ∈ c, b.base < x := by
    intro x hx
    cases hcx : c with
    | nil => simp [hcx] at hx
    | cons y c' =>
      -- The search stopped at `y`, and the list ascends from there.
      have hy : b.base ≤ y := by
        have := List.head?_dropWhile_not (fun q => decide (b.base > q)) l
        rw [← hc, hcx] at this
        simpa using this
      have hyx : y ≤ x := by
        rw [hcx] at hx hs
        rcases List.mem_cons.mp hx with rfl | hx
        · exact le_rfl
        · exact ((List.pairwise_cons.mp (List.pairwise_append.mp hs).2.1).1 x hx).le
      have : b.base ≠ x := by grind
      omega
  have hslot := R₁.slotIn hl₁
  simp only [List.nil_append, returns_bind, returns_load, returns_store, returns_pure,
    load_slotAfter hl₁]
  refine ⟨?_, hslot, ?_⟩
  · simp
  · have hin : SlotIn nr (.node b.base) := Or.inl (lt_of_lt_of_le b.base_lt_stop hb.inside)
    simp only [write_visit]
    exact (((R₁.link_in hb hl₁ halt hclt).visit hslot).visit hin).visit hslot

/-- A free block sits in its list between the blocks below it and those above. -/
theorem Rep.split_at (R : Rep nr ty h F) {b : Block} (hb : b ∈ F) :
    ∃ a c, HasList h.links b.order (a ++ b.base :: c) ∧ b.base ∉ a ∧ b.base ∉ c := by
  obtain ⟨l, hl, hs, hm⟩ := R.list b.order
  obtain ⟨a, c, rfl⟩ := List.append_of_mem ((hm b.base).mpr hb)
  have hn := sorted_nodup hs
  exact ⟨a, c, hl, by grind, by grind⟩

theorem takeWhile_ne {a c : List ℕ} {p : ℕ} (h : p ∉ a) :
    (a ++ p :: c).takeWhile (fun q => decide (p ≠ q)) = a := by
  rw [List.takeWhile_append_of_pos]
  · simp
  · intro q hq
    simp only [decide_eq_true_eq]
    rintro rfl
    exact h hq

theorem remove_block_spec {b : Block} (R : Rep nr ty h F) (hb : b ∈ F) :
    Returns (remove_block nr b.base b.order) h fun _ h' => Rep nr ty h' (F.remove b) := by
  obtain ⟨a, c, hl, ha, hc⟩ := R.split_at hb
  have hlen := R.length_le hl
  unfold remove_block
  rw [returns_bind]
  apply returns_mono (seek_spec _ (nr + 1) b.order [] (a ++ b.base :: c) R hl (by omega))
  rintro slot h₁ ⟨rfl, hlinks, -, R₁⟩
  rw [List.nil_append, takeWhile_ne ha]
  have hl₁ : HasList h₁.links b.order (a ++ b.base :: c) := by rwa [hlinks]
  have hslot := R₁.slotIn hl₁
  have hin : SlotIn nr (.node b.base) := Or.inl (mem_lt F hb)
  have hnext : h₁.links.load (.node b.base) = c.head? := next_of_append hl₁
  simp only [returns_bind, returns_load, returns_store, returns_assert, load_slotAfter hl₁,
    links_visit, hnext, write_visit, List.head?_cons, beq_self_eq_true, true_and]
  refine Rep.visit (Rep.visit (Rep.visit (Rep.visit ?_ hslot) hin) hslot) hin
  have hne : slotAfter b.order a ≠ .node b.base := fun e => ha (slotAfter_eq_node e)
  refine R₁.link_out (k := b.order) (a := a) (d := [b.base]) (c := c) (by simpa using hl₁) ?_ ?_
    (fun i => by simp) (by simpa using R₁.bounded)
  · intro s
    simp
  · intro x
    rw [FreeSet.mem_remove, ne_eq, Block.ext_iff, List.mem_singleton, and_comm (a := x.base = _)]

end Infos.Buddy
