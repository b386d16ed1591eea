import Infos.Buddy.Lists

/-! # Splitting and merging blocks -/

open Infos.Blocks Infos.Prog Infos.PtrList

namespace Infos.Buddy

variable {nr : ℕ} {ty : ℕ → PageDescriptorType} {h : Mem} {F : FreeSet nr maxOrder}

/-! ## Alignment and buddies -/

theorem maxOrder_lt : maxOrder < MAX_ORDER := by decide

theorem aligned_iff (p k : ℕ) : is_correct_alignment_for_order p k = true ↔ 2 ^ k ∣ p := by
  rw [is_correct_alignment_for_order, pgd_to_pfn, pages_per_block, Nat.one_shiftLeft, beq_iff_eq,
    Nat.dvd_iff_mod_eq_zero]

theorem buddy_of_eq {b : Block} (ha : b.Aligned) (hk : b.order < MAX_ORDER)
    (hn : b.buddy.base ≤ nr) : buddy_of nr b.base b.order = some b.buddy.base := by
  have hal : is_correct_alignment_for_order b.base b.order = true := (aligned_iff ..).mpr ha
  have hbase : (if is_correct_alignment_for_order b.base (b.order + 1) then
      pgd_to_pfn b.base + pages_per_block b.order
      else pgd_to_pfn b.base - pages_per_block b.order) = b.buddy.base := by
    simp only [aligned_iff, Block.buddy, pgd_to_pfn, pages_per_block, Nat.one_shiftLeft]
    split <;> rfl
  unfold buddy_of
  rw [if_neg (by omega), hal]
  simp only [Bool.not_true, Bool.false_eq_true, if_false, hbase, pfn_to_pgd]
  rw [if_neg (by omega)]

theorem buddy_base_le {b : Block} (hi : b.stop ≤ nr) : b.buddy.base ≤ nr := by
  unfold Block.buddy
  split
  · exact hi
  · have := b.base_lt_stop
    simp only
    omega

/-- Of a block and its buddy the left one starts where the parent does. -/
theorem base_parent {b : Block} (hd : 2 ^ (b.order + 1) ∣ b.base) : b.parent.base = b.base := by
  rw [Block.parent, if_pos hd]

theorem base_buddy_left {b : Block} (hd : 2 ^ (b.order + 1) ∣ b.base) :
    b.buddy.base = b.stop := by
  rw [Block.buddy, if_pos hd]
  rfl

/-! ## Neighbours in a list -/

/-- A free left buddy and its free right buddy are neighbours in their list. -/
theorem Rep.adjacent (R : Rep nr ty h F) {b : Block} (hb : b ∈ F) (hbud : b.buddy ∈ F)
    (hd : 2 ^ (b.order + 1) ∣ b.base) :
    ∃ a c, HasList h.links b.order (a ++ b.base :: b.buddy.base :: c) := by
  obtain ⟨a, c, hl, -, -⟩ := R.split_at hb
  obtain ⟨hs, hm⟩ := R.of_hasList hl
  have hbase := base_buddy_left hd
  have hlt := b.base_lt_stop
  have hmem : b.buddy.base ∈ a ++ b.base :: c := by
    rw [hm, ← Block.order_buddy b]
    exact hbud
  rw [List.pairwise_append, List.pairwise_cons] at hs
  obtain ⟨-, ⟨hbc, hsc⟩, hac⟩ := hs
  have hc : b.buddy.base ∈ c := by
    rcases List.mem_append.mp hmem with hx | hx
    · have := hac _ hx b.base (by simp)
      omega
    · rcases List.mem_cons.mp hx with e | hx
      · omega
      · exact hx
  cases c with
  | nil => simp at hc
  | cons y c =>
    refine ⟨a, c, ?_⟩
    -- Nothing fits between the two, so the next node is the buddy.
    have hy : (⟨y, b.order⟩ : Block) ∈ F := (hm y).mp (by simp)
    have hby : b.base < y := hbc y (by simp)
    have hap := F.apart b hb _ hy (by rintro e; rw [e] at hby; exact absurd hby (lt_irrefl _))
    have hyb : y ≤ b.buddy.base := by
      rcases List.mem_cons.mp hc with e | hx
      · exact e.ge
      · exact ((List.pairwise_cons.mp hsc).1 _ hx).le
    have hby' : b.stop ≤ y := by
      rcases hap with hap | hap
      · exact hap
      · have := Block.base_lt_stop ⟨y, b.order⟩
        simp only at this hap
        omega
    have : y = b.buddy.base := by omega
    rwa [this] at hl

theorem Rep.next_left (R : Rep nr ty h F) {b : Block} (hb : b ∈ F)
    (hd : 2 ^ (b.order + 1) ∣ b.base) :
    h.links.load (.node b.base) = some b.buddy.base ↔ b.buddy ∈ F := by
  constructor
  · intro hnext
    obtain ⟨a, c, hl, -, -⟩ := R.split_at hb
    rw [Links.load, next_of_append hl] at hnext
    have hmem : b.buddy.base ∈ a ++ b.base :: c := by
      have := List.mem_of_mem_head? hnext
      simp [this]
    have := ((R.of_hasList hl).2 _).mp hmem
    rwa [← Block.order_buddy b] at this
  · intro hbud
    obtain ⟨a, c, hl⟩ := R.adjacent hb hbud hd
    exact next_of_append hl

/-- Also when the left one may be in another list, or in none. -/
theorem Rep.next_of_right (R : Rep nr ty h F) {b : Block} (hb : b ∈ F)
    (hd : ¬ 2 ^ (b.order + 1) ∣ b.base) :
    h.links.load (.node b.buddy.base) = some b.base ↔ b.buddy ∈ F := by
  have ha := F.aligned b hb
  have hbb := Block.buddy_buddy ha
  have hp := Block.aligned_parent ha
  constructor
  · intro hnext
    by_contra hno
    have hlt : b.buddy.base < nr := by
      have := buddy_base_le (F.inside b hb)
      have := mem_lt F hb
      unfold Block.buddy at *
      rw [if_neg hd] at *
      simp only at *
      omega
    have hany : ∃ j, (⟨b.buddy.base, j⟩ : Block) ∈ F := by
      by_contra hall
      have := R.null _ hlt fun j hj => hall ⟨j, hj⟩
      rw [Links.load, this] at hnext
      cases hnext
    obtain ⟨j, hj⟩ := hany
    obtain ⟨a, c, hl, -, -⟩ := R.split_at hj
    rw [Links.load, next_of_append hl] at hnext
    have hmem : b.base ∈ a ++ b.buddy.base :: c := by
      have := List.mem_of_mem_head? hnext
      simp [this]
    have hjk : j = b.order := order_eq F (((R.of_hasList hl).2 _).mp hmem) hb
    rw [hjk, ← Block.order_buddy b] at hj
    exact hno hj
  · intro hbud
    have hd' : 2 ^ (b.buddy.order + 1) ∣ b.buddy.base := by
      rcases Block.halves_of_parent ha with ⟨h1, -, -⟩ | ⟨-, -, e⟩
      · exact absurd h1 hd
      · rw [e]
        exact Block.dvd_left hp (by simp)
    have := (R.next_left hbud hd').mpr (by rwa [hbb])
    rwa [hbb] at this

/-! ## Splitting -/

theorem split_block_spec {b : Block} (R : Rep nr ty h F) (hb : b ∈ F) (h0 : 0 < b.order) :
    Returns (split_block nr (some b.base) b.order) h fun _ h' => Rep nr ty h' (F.split b hb h0) := by
  have ha := F.aligned b hb
  have hK := F.order_le b hb
  have hmax := maxOrder_lt
  have hbud : buddy_of nr b.left.base b.left.order = some b.left.buddy.base :=
    buddy_of_eq (Block.aligned_left ha) (by simp; omega)
      (buddy_base_le (FreeSet.fits_left hb h0).inside)
  rw [Block.buddy_left ha h0] at hbud
  unfold split_block
  simp only [returns_bind, returns_assert, returns_deref, Option.isSome_some, true_and,
    decide_eq_true_eq]
  refine ⟨(aligned_iff ..).mpr ha, h0, ?_⟩
  apply returns_mono (remove_block_spec R hb)
  rintro - h₁ R₁
  apply returns_mono (insert_block_spec (b := b.left) R₁ (FreeSet.fits_left hb h0))
  rintro ret h₂ ⟨hret, hretIn, R₂⟩
  have hleft : b.left ∈ (F.remove b).add b.left (FreeSet.fits_left hb h0) := Or.inl rfl
  have hfit := FreeSet.fits_right hb h0
  have hsl := Block.stop_left b
  obtain ⟨a, c, hl, hla, -⟩ := R₂.split_at hleft
  obtain ⟨hs, hm⟩ := R₂.of_hasList hl
  have hnext : h₂.links.load (.node b.base) = c.head? := next_of_append hl
  -- The right half is in no list yet, so the returned slot is not in its descriptor.
  have hne : ret ≠ .node b.right.base := by
    rintro rfl
    have hnone : h₂.links.next b.right.base = none := by
      refine R₂.null _ (lt_of_lt_of_le b.right.base_lt_stop hfit.inside) fun k hk => ?_
      exact (hfit.apart _ hk).not_mem (Block.base_mem ⟨b.right.base, k⟩) b.right.base_mem
    rw [Links.load, hnone] at hret
    cases hret
  have hinl : SlotIn nr (.node b.left.base) := Or.inl (mem_lt _ hleft)
  have hinr : SlotIn nr (.node b.right.base) :=
    Or.inl (lt_of_lt_of_le b.right.base_lt_stop hfit.inside)
  rw [Block.base_left] at hret
  rw [Block.base_left, Block.order_left] at hbud
  simp only [hbud, returns_deref, returns_load, returns_store, hret, links_visit,
    hnext, write_visit, load_write, hne, if_false]
  refine Rep.visit (Rep.visit (Rep.visit (Rep.visit (Rep.visit (Rep.visit ?_ hretIn) hinl) hinr)
    hretIn) hinl) hretIn
  have hlt : b.left.base < b.right.base := by
    rw [← hsl]
    exact b.left.base_lt_stop
  rw [List.pairwise_append, List.pairwise_cons] at hs
  have := R₂.link_in hfit (a := a ++ [b.left.base]) (c := c) (by simpa using hl) ?_ ?_
  · rw [slotAfter_concat] at this
    exact this
  · intro x hx
    rcases List.mem_append.mp hx with hx | hx
    · exact (hs.2.2 x hx _ (by simp)).trans hlt
    · rw [List.mem_singleton] at hx
      exact hx ▸ hlt
  · intro x hx
    have hxl : b.left.base < x := hs.2.1.1 x hx
    have hxF := (hm x).mp (by simp [hx])
    have hap := hfit.apart _ hxF
    have hap' := FreeSet.apart _ _ hxF _ hleft (by
      intro e
      rw [← e] at hxl
      exact absurd hxl (lt_irrefl _))
    have := Block.base_lt_stop ⟨x, b.left.order⟩
    have := b.right.base_lt_stop
    simp only [Block.Apart] at *
    omega

/-! ## Merging -/

theorem merge_find_spec (rounds k p : ℕ) (a b c : List ℕ) (before : Option ℕ) (R : Rep nr ty h F)
    (hl : HasList h.links k (a ++ (b ++ p :: c))) (hp : p ∉ b)
    (hr : (b ++ p :: c).length < rounds) (hbef : a ≠ [] → before = a.getLast?) :
    Returns (merge_find p rounds before (b ++ p :: c).head?) h fun r h' =>
      r.2 = some p ∧ (a ++ b ≠ [] → r.1 = (a ++ b).getLast?) ∧ h'.links = h.links ∧
        h'.pgd = h.pgd ∧ Rep nr ty h' F := by
  induction b generalizing rounds a h before with
  | nil =>
    obtain ⟨rounds, rfl⟩ : ∃ r, rounds = r + 1 := ⟨rounds - 1, by grind⟩
    simp only [List.nil_append, List.head?_cons, merge_find]
    rw [if_neg (by simp), returns_pure]
    exact ⟨rfl, by simpa using hbef, rfl, rfl, R⟩
  | cons x b ih =>
    obtain ⟨rounds, rfl⟩ : ∃ r, rounds = r + 1 := ⟨rounds - 1, by grind⟩
    have hx : x ≠ p := by grind
    have hl' : HasList h.links k ((a ++ [x]) ++ (b ++ p :: c)) := by simpa using hl
    have hload : h.links.load (.node x) = (b ++ p :: c).head? := by
      simpa using load_slotAfter hl'
    have hin : SlotIn nr (.node x) := by simpa using R.slotIn hl'
    simp only [List.cons_append, List.head?_cons, merge_find]
    rw [if_pos hx]
    simp only [returns_bind, returns_load, hload]
    have := ih rounds (a ++ [x]) (some x) (R.visit hin) (by simpa using hl') (by grind)
      (by simpa using hr) (by simp)
    simpa using this

theorem merge_cut_spec {k p q : ℕ} {a c : List ℕ} {before : Option ℕ} (R : Rep nr ty h F)
    (hl : HasList h.links k (a ++ p :: q :: c)) (hbef : a ≠ [] → before = a.getLast?) :
    Returns (merge_cut before (some p) k) h fun _ h' =>
      (∀ s, h'.links.load s = if s = slotAfter k a then c.head? else h.links.load s) ∧
        (∀ i, (h'.pgd i).type = (h.pgd i).type) ∧ ∀ i ∈ h'.touched, Touchable nr i := by
  have hp : h.links.load (.node p) = some q := next_of_append hl
  have hq : h.links.load (.node q) = c.head? := next_of_append (a := a ++ [p]) (by simpa using hl)
  have hpin : SlotIn nr (.node p) := Or.inl (R.lt_of_mem hl (by simp))
  have hqin : SlotIn nr (.node q) := Or.inl (R.lt_of_mem hl (by simp))
  have hslot := R.slotIn hl
  have hfirst : h.links.load (.area k) = (a ++ p :: q :: c).head? := hl.1
  have hb := bounded_visit (bounded_visit (bounded_visit
    (h := h.write c.head? (slotAfter k a)) (by simpa using R.bounded) hpin) hqin) hslot
  unfold merge_cut
  simp only [returns_bind, returns_load, hfirst]
  rcases List.eq_nil_or_concat' a with rfl | ⟨a, x, rfl⟩
  · rw [List.nil_append, List.head?_cons, if_pos rfl]
    rw [slotAfter_nil] at hb ⊢
    simp only [Mem.visit.eq_1, returns_bind, returns_deref, returns_load, returns_store, hp,
      links_visit, hq, write_visit]
    exact ⟨fun s => by simp, fun i => by simp, hb⟩
  · have hne : ¬ some p = (a ++ [x] ++ p :: q :: c).head? := by
      have hn := sorted_nodup (R.of_hasList hl).1
      cases a <;> simp <;> grind
    rw [if_neg hne, hbef (by simp)]
    rw [slotAfter_concat] at hb ⊢
    simp only [Mem.visit.eq_1, returns_bind, returns_deref, returns_load, returns_store, hp,
      links_visit, hq, write_visit, List.getLast?_concat]
    exact ⟨fun s => by simp, fun i => by simp, hb⟩

theorem merge_block_spec {b : Block} (R : Rep nr ty h F) (hb : b ∈ F) (hbud : b.buddy ∈ F)
    (hk : b.order < maxOrder) (hd : 2 ^ (b.order + 1) ∣ b.base) :
    Returns (merge_block nr (some b.base) b.order) h fun slot h' =>
      h'.links.load slot = some b.base ∧ SlotIn nr slot ∧ Rep nr ty h' (F.merge b hb hbud hk) := by
  have ha := F.aligned b hb
  have hmax := maxOrder_lt
  obtain ⟨a, c, hl⟩ := R.adjacent hb hbud hd
  have hlen := R.length_le hl
  have hn := sorted_nodup (R.of_hasList hl).1
  unfold merge_block
  simp only [returns_bind, returns_assert, returns_deref, Option.isSome_some, true_and,
    decide_eq_true_eq, returns_load]
  refine ⟨(aligned_iff ..).mpr ha, by omega, ?_⟩
  have hfirst : h.links.load (.area b.order) = (a ++ b.base :: b.buddy.base :: c).head? := hl.1
  rw [hfirst]
  apply returns_mono (merge_find_spec (nr + 1) b.order b.base [] a (b.buddy.base :: c) _
    (Rep.visit R (show SlotIn nr (.area b.order) from trivial)) hl (by grind) (by omega) (by simp))
  rintro ⟨before, node⟩ h₁ ⟨rfl, hbef, hlinks, -, R₁⟩
  rw [links_visit] at hlinks
  rw [← hlinks] at hl
  apply returns_mono (merge_cut_spec R₁ hl (by simpa using hbef))
  rintro - h₂ ⟨hload, htypes, hbounded⟩
  have hslot := R₁.slotIn hl
  have hp : h₁.links.load (.node b.base) = some b.buddy.base := next_of_append hl
  have hpin : SlotIn nr (.node b.base) := Or.inl (mem_lt F hb)
  have hqin : SlotIn nr (.node b.buddy.base) := Or.inl (mem_lt F hbud)
  have hne : slotAfter b.order a ≠ .node b.base := by
    intro e
    have := slotAfter_eq_node e
    grind
  simp only [returns_deref, returns_store, hload, hne.symm, if_false, hp, write_visit]
  -- Both nodes are out of their list now, and neither is in another.
  have R₃ : Rep nr ty (((h₂.write none (.node b.buddy.base)).write none (.node b.base)))
      ((F.remove b).remove b.buddy) := by
    refine R₁.link_out (k := b.order) (a := a) (d := [b.base, b.buddy.base]) (c := c)
      (by simpa using hl) ?_ ?_ (fun i => by simp [htypes]) (by simpa using hbounded)
    · intro s
      simp only [load_write, hload, List.mem_cons, List.not_mem_nil, or_false, exists_eq_or_imp,
        exists_eq_left]
      split_ifs <;> tauto
    · intro x
      simp only [FreeSet.mem_remove, ne_eq, Block.ext_iff, Block.order_buddy, List.mem_cons,
        List.not_mem_nil, or_false]
      tauto
  have hins := insert_block_spec (b := b.parent)
    (Rep.visit (Rep.visit (Rep.visit R₃ hpin) hqin) hpin) (FreeSet.fits_parent hb hbud hk)
  rw [base_parent hd, Block.order_parent] at hins
  exact hins

/-- The descriptor past the end is read when a left block ends where the array does. -/
theorem buddy_slotIn {b : Block} (hb : b ∈ F) (hk : b.order < maxOrder) :
    SlotIn nr (.node b.buddy.base) := by
  have ha := F.aligned b hb
  have hi := F.inside b hb
  rcases Block.halves_of_parent ha with ⟨hd, -, -⟩ | ⟨hd, -, -⟩
  · rw [base_buddy_left hd]
    rcases Nat.lt_or_eq_of_le hi with hlt | heq
    · exact Or.inl hlt
    · refine Or.inr ⟨heq, fun hmax => ?_⟩
      have h1 : 2 ^ (b.order + 1) ∣ b.stop := heq ▸ (pow_dvd_pow 2 hk).trans hmax
      have h2 : 2 ^ (b.order + 1) ∣ 2 ^ b.order := (Nat.dvd_add_right hd).mp h1
      rw [Nat.pow_dvd_pow_iff_le_right (by omega)] at h2
      omega
  · left
    have := mem_lt F hb
    unfold Block.buddy
    rw [if_neg hd]
    simp only
    omega

theorem buddy_aligned_next {b : Block} (ha : b.Aligned) :
    2 ^ (b.order + 1) ∣ b.buddy.base ↔ ¬ 2 ^ (b.order + 1) ∣ b.base := by
  have hp := Block.aligned_parent ha
  have h0 : 0 < b.parent.order := by simp
  have hl := Block.dvd_left hp h0
  have hr := Block.not_dvd_right hp h0
  rcases Block.halves_of_parent ha with ⟨hd, -, e⟩ | ⟨hd, -, e⟩
  · rw [← e, Block.order_buddy] at hr
    tauto
  · rw [← e, Block.order_buddy] at hl
    tauto

theorem TryMergeUp_spec (levels : ℕ) {b : Block} (R : Rep nr ty h F) (hb : b ∈ F)
    (hc : F.CoalescedBut b) (hlev : levels = maxOrder - b.order) :
    Returns (TryMergeUp nr levels b.base b.order) h fun _ h' =>
      ∃ F' : FreeSet nr maxOrder, Rep nr ty h' F' ∧ F'.Coalesced ∧ F'.pages = F.pages := by
  induction levels generalizing b F h with
  | zero =>
    rw [TryMergeUp, returns_pure]
    refine ⟨F, R, hc.coalesced (F.aligned b hb) fun hk => ?_, rfl⟩
    omega
  | succ levels ih =>
    have hk : b.order < maxOrder := by omega
    have ha := F.aligned b hb
    have hmax := maxOrder_lt
    have hbudin := buddy_slotIn hb hk
    have hbin : SlotIn nr (.node b.base) := Or.inl (mem_lt F hb)
    have hdone : b.buddy ∉ F → F.Coalesced := fun hno => hc.coalesced ha fun _ _ => hno
    simp only [TryMergeUp, returns_bind, returns_load, returns_deref,
      buddy_of_eq ha (by omega) (buddy_base_le (F.inside b hb)), aligned_iff,
      buddy_aligned_next ha]
    have R₁ := R.visit hbudin
    by_cases hd : 2 ^ (b.order + 1) ∣ b.base
    · -- The page is the left one of the pair: the first test fails on the alignment.
      rw [if_neg (fun hp => hp.2 hd)]
      simp only [returns_bind, returns_load, links_visit]
      have R₂ := R₁.visit hbin
      by_cases hbud : b.buddy ∈ F
      · rw [if_pos ((R.next_left hb hd).mpr hbud)]
        simp only [returns_bind]
        apply returns_mono (merge_block_spec R₂ hb hbud hk hd)
        rintro slot h₃ ⟨hslot, hin, R₃⟩
        have := ih (b := b.parent) (R₃.visit hin) (Or.inl rfl) (FreeSet.coalescedBut_merge hc)
          (by simp; omega)
        rw [base_parent hd, Block.order_parent] at this
        simpa [hslot, FreeSet.pages_merge hb hbud hk] using this
      · rw [if_neg (mt (R.next_left hb hd).mp hbud), returns_pure]
        exact ⟨F, R₂, hdone hbud, rfl⟩
    · by_cases hbud : b.buddy ∈ F
      · rw [if_pos ⟨(R.next_of_right hb hd).mpr hbud, hd⟩]
        simp only [returns_bind]
        have hbb := Block.buddy_buddy ha
        have hk' : b.buddy.order < maxOrder := by simpa using hk
        have hd' : 2 ^ (b.buddy.order + 1) ∣ b.buddy.base := by
          simpa using (buddy_aligned_next ha).mpr hd
        have hbud' : b.buddy.buddy ∈ F := by rwa [hbb]
        have hmerge := merge_block_spec R₁ hbud hbud' hk' hd'
        rw [Block.order_buddy] at hmerge
        apply returns_mono hmerge
        rintro slot h₃ ⟨hslot, hin, R₃⟩
        have := ih (b := b.buddy.parent) (R₃.visit hin) (Or.inl rfl)
          (FreeSet.coalescedBut_merge hc.of_buddy) (by simp; omega)
        rw [base_parent hd', Block.order_parent, Block.order_buddy] at this
        simpa [hslot, FreeSet.pages_merge hbud hbud' hk'] using this
      · rw [if_neg fun hp => hbud ((R.next_of_right hb hd).mp hp.1)]
        simp only [returns_bind, returns_load, links_visit]
        have hne : h.links.load (.node b.base) ≠ some b.buddy.base := by
          intro hnext
          obtain ⟨a, c, hl, -, -⟩ := R.split_at hb
          rw [Links.load, next_of_append hl] at hnext
          have hm := ((R.of_hasList hl).2 b.buddy.base).mp (by
            have := List.mem_of_mem_head? hnext
            simp [this])
          rw [← Block.order_buddy b] at hm
          exact hbud hm
        rw [if_neg hne, returns_pure]
        exact ⟨F, R₁.visit hbin, hdone hbud, rfl⟩

theorem TryMerge_spec {b : Block} (R : Rep nr ty h F) (hb : b ∈ F) (hc : F.CoalescedBut b) :
    Returns (TryMerge nr b.base b.order) h fun _ h' =>
      ∃ F' : FreeSet nr maxOrder, Rep nr ty h' F' ∧ F'.Coalesced ∧ F'.pages = F.pages :=
  TryMergeUp_spec _ R hb hc rfl

end Infos.Buddy
