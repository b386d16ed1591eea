import Infos.Buddy.Runs

/-! # What holds in every state of every run -/

open Infos.Blocks Infos.Prog Infos.PtrList

namespace Infos.Buddy

variable {nr : ℕ} {ty : ℕ → PageDescriptorType} {s : State} {F : FreeSet nr maxOrder}

/-! ## Free pages and outstanding pages -/

theorem Inv.allocated (hi : Inv ty s F) {order : Int} {p : ℕ} {h' : Mem} (hlo : -2 ^ 31 ≤ order)
    (hhi : order < 2 ^ 31) (he : alloc_pages nr order s.mem = .ok (some p, h')) :
    0 ≤ order ∧ (⟨p, order.toNat⟩ : Block).Aligned ∧ (⟨p, order.toNat⟩ : Block).stop ≤ nr ∧
      ∀ b ∈ s.outstanding, (⟨p, order.toNat⟩ : Block).Apart b := by
  obtain ⟨hpos, F', hi', -⟩ := returns_ok (hi.alloc_pages_spec hlo hhi) he
  obtain ⟨-, ha, hin⟩ := hi'.sound _ List.mem_cons_self
  exact ⟨hpos, ha, hin, (List.pairwise_cons.mp hi'.apart).1⟩

theorem Inv.partition (hi : Inv ty s F) (x : ℕ) :
    (x < nr ↔ FreePage s.mem x ∨ ∃ b ∈ s.outstanding, x ∈ b) ∧
      ¬ (FreePage s.mem x ∧ ∃ b ∈ s.outstanding, x ∈ b) := by
  rw [hi.rep.freePage_iff, hi.pages]
  refine ⟨⟨fun hx => ?_, ?_⟩, ?_⟩
  · by_cases hout : ∃ b ∈ s.outstanding, x ∈ b
    · exact Or.inr hout
    · refine Or.inl ⟨hx, fun b hb hxb => hout ⟨b, hb, hxb⟩⟩
  · rintro (⟨hx, -⟩ | ⟨b, hb, hx⟩)
    · exact hx
    · exact lt_of_lt_of_le hx.2 (hi.sound b hb).2.2
  · rintro ⟨⟨-, hno⟩, b, hb, hx⟩
    exact hno b hb hx

/-- No page is lost and none is given out twice, and no call of a run faults. -/
theorem pages_partitioned (nr : ℕ) :
    (∀ h, Zeroed nr h → ∃ h', init nr h = .ok (true, h')) ∧
    ∀ s, (system nr).Reachable s →
      (∀ c, Allowed s c → ∃ s', step nr s c = .ok s') ∧
      (∀ order p h', -2 ^ 31 ≤ order → order < 2 ^ 31 →
        alloc_pages nr order s.mem = .ok (some p, h') →
        0 ≤ order ∧ (⟨p, order.toNat⟩ : Block).Aligned ∧ (⟨p, order.toNat⟩ : Block).stop ≤ nr ∧
          ∀ b ∈ s.outstanding, (⟨p, order.toNat⟩ : Block).Apart b) ∧
      s.outstanding.Pairwise Block.Apart ∧
      ∀ x, (x < nr ↔ FreePage s.mem x ∨ ∃ b ∈ s.outstanding, x ∈ b) ∧
        ¬ (FreePage s.mem x ∧ ∃ b ∈ s.outstanding, x ∈ b) := by
  refine ⟨fun h hz => ?_, fun s hs => ?_⟩
  · obtain ⟨h', he, -⟩ := init_starts hz
    exact ⟨h', he⟩
  · obtain ⟨ty, F, hi⟩ := reachable_inv hs
    refine ⟨fun c hc => ?_, fun order p h' hlo hhi he => hi.allocated hlo hhi he, hi.apart,
      hi.partition⟩
    obtain ⟨s', he, -⟩ := hi.step hc
    exact ⟨s', he⟩

theorem pages_partitioned_three : ∃ s, boot 3 [.alloc_pages 0] = some s ∧
    (∀ x, x < 3 ↔ FreePage s.mem x ∨ x = 2) ∧ ¬ FreePage s.mem 2 := by
  have hout : (boot 3 [.alloc_pages 0]).map State.outstanding = some [⟨2, 0⟩] := by decide +kernel
  obtain ⟨s, hs, hb⟩ := Option.map_eq_some_iff.mp hout
  have hone : ∀ x, x ∈ (⟨2, 0⟩ : Block) ↔ x = 2 := by
    intro x
    simp only [Block.mem_iff, Block.stop]
    omega
  have hpart := ((pages_partitioned 3).2 s (boot_reachable hs)).2.2.2
  simp only [hb, List.mem_singleton, exists_eq_left, hone] at hpart
  exact ⟨s, hs, fun x => (hpart x).1, fun hfree => (hpart 2).2 ⟨hfree, rfl⟩⟩

/-! ## The lists -/

theorem lists_sorted (nr : ℕ) (s : State) (hs : (system nr).Reachable s) :
    (∀ k < MAX_ORDER, ∃ l, HasList s.mem.links k l ∧ l.Pairwise (· < ·) ∧
      ∀ p ∈ l, 2 ^ k ∣ p ∧ p + 2 ^ k ≤ nr) ∧
    (∀ a b, FreeBlock s.mem a → FreeBlock s.mem b → a ≠ b → a.Apart b) ∧
    ∀ i < nr, (∀ k, ¬ FreeBlock s.mem ⟨i, k⟩) → (s.mem.pgd i).next_free = none := by
  obtain ⟨ty, F, hi⟩ := reachable_inv hs
  refine ⟨fun k _ => ?_, fun a b ha hb hne => ?_, fun i hlt hno => ?_⟩
  · obtain ⟨l, hl, hsorted, hm⟩ := hi.rep.list k
    refine ⟨l, hl, hsorted, fun p hp => ?_⟩
    have hpF := (hm p).mp hp
    exact ⟨F.aligned _ hpF, F.inside _ hpF⟩
  · rw [hi.rep.freeBlock_iff] at ha hb
    exact F.apart a ha b hb hne
  · refine hi.rep.null i hlt fun k hk => hno k ?_
    rwa [hi.rep.freeBlock_iff]

theorem lists_sorted_three : ∃ s, boot 3 [.alloc_pages 0] = some s ∧
    ∀ k < MAX_ORDER, ∃ l, HasList s.mem.links k l ∧ l.Pairwise (· < ·) ∧
      ∀ p ∈ l, 2 ^ k ∣ p ∧ p + 2 ^ k ≤ 3 := by
  have hrun : (boot 3 [.alloc_pages 0]).isSome = true := by decide +kernel
  obtain ⟨s, hs⟩ := Option.isSome_iff_exists.mp hrun
  exact ⟨s, hs, (lists_sorted 3 s (boot_reachable hs)).1⟩

/-! ## Buddies and completeness -/

theorem Inv.no_free_buddies (hi : Inv ty s F) {p k q : ℕ} (hk : k < maxOrder)
    (hp : FreeBlock s.mem ⟨p, k⟩) (hq : buddy_of nr p k = some q) : ¬ FreeBlock s.mem ⟨q, k⟩ := by
  rw [hi.rep.freeBlock_iff] at hp ⊢
  have hmax := maxOrder_lt
  have hbud := buddy_of_eq (F.aligned _ hp) (by simp only; omega) (buddy_base_le (F.inside _ hp))
  obtain rfl : (Block.buddy ⟨p, k⟩).base = q := Option.some.inj (hbud.symm.trans hq)
  have hno := hi.coalesced _ hp hk
  rwa [show (⟨(Block.buddy ⟨p, k⟩).base, k⟩ : Block) = Block.buddy ⟨p, k⟩ from
    Block.ext rfl (Block.order_buddy ⟨p, k⟩).symm]

/-- A large enough free block contains a run of free pages, and the other way round. -/
theorem Inv.no_run_iff (hi : Inv ty s F) {order : ℕ} (hk : order ≤ maxOrder) :
    (∀ b ∈ F, b.order < order) ↔
      ¬ ∃ p, 2 ^ order ∣ p ∧ ∀ x, p ≤ x → x < p + 2 ^ order → FreePage s.mem x := by
  simp only [hi.rep.freePage_iff]
  constructor
  · rintro hsmall ⟨p, hp, hfree⟩
    obtain ⟨c, hc, hle, -⟩ := hi.coalesced.covers ⟨p, order⟩ hp hk fun x hx => hfree x hx.1 hx.2
    have := hsmall c hc
    simp only at hle
    omega
  · intro hno b hb
    by_contra hle
    have hpow := Nat.pow_le_pow_right (n := 2) (by omega) (not_lt.mp hle)
    refine hno ⟨b.base, (F.aligned b hb).dvd_base (not_lt.mp hle), fun x hx hlt => ?_⟩
    exact ⟨b, hb, hx, lt_of_lt_of_le hlt (Nat.add_le_add_left hpow _)⟩

theorem alloc_complete (nr : ℕ) (s : State) (hs : (system nr).Reachable s) :
    (∀ p k q, k < 16 → FreeBlock s.mem ⟨p, k⟩ → buddy_of nr p k = some q →
      ¬ FreeBlock s.mem ⟨q, k⟩) ∧
    ∀ order : ℕ, order ≤ 16 →
      ((∃ h', alloc_pages nr order s.mem = .ok (none, h')) ↔
        ¬ ∃ p, 2 ^ order ∣ p ∧ ∀ x, p ≤ x → x < p + 2 ^ order → FreePage s.mem x) := by
  obtain ⟨ty, F, hi⟩ := reachable_inv hs
  refine ⟨fun p k q hk hp hq => hi.no_free_buddies hk hp hq, fun order hk => ?_⟩
  rw [← hi.no_run_iff hk]
  obtain ⟨r, h', he, hpost⟩ := Buddy.alloc_pages_spec order hi.rep hi.coalesced (by omega)
  rw [he]
  cases r with
  | none =>
    obtain ⟨rfl, hsmall⟩ := hpost
    exact iff_of_true ⟨_, rfl⟩ hsmall
  | some p =>
    obtain ⟨-, -, -, -, -, -, -, -, b, hb, -, hle, -⟩ := hpost
    refine iff_of_false (fun ⟨_, e⟩ => by cases e) fun hsmall => ?_
    have := hsmall b hb
    omega

theorem alloc_complete_three : ∃ s h', boot 3 [.alloc_pages 0] = some s ∧
    alloc_pages 3 1 s.mem = .ok (some 0, h') ∧
    ∃ p, 2 ^ 1 ∣ p ∧ ∀ x, p ≤ x → x < p + 2 ^ 1 → FreePage s.mem x := by
  have hrun : ((boot 3 [.alloc_pages 0]).bind fun s =>
      (alloc_pages 3 1 s.mem).toOption.map Prod.fst) = some (some 0) := by decide +kernel
  obtain ⟨s, hs, halloc⟩ := Option.bind_eq_some_iff.mp hrun
  cases he : alloc_pages 3 1 s.mem with
  | error e => simp [he, Except.toOption] at halloc
  | ok a =>
    obtain ⟨r, h'⟩ := a
    obtain rfl : r = some 0 := by simpa [he, Except.toOption] using halloc
    refine ⟨s, h', hs, he, ?_⟩
    by_contra hno
    obtain ⟨h'', hnone⟩ := ((alloc_complete 3 s (boot_reachable hs)).2 1 (by omega)).mpr hno
    rw [Nat.cast_one, he] at hnone
    cases hnone

end Infos.Buddy
