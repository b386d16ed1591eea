import Infos.Buddy.Runs

/-!
# The descriptor past the end of the array

`pfn_to_pgd` hands out the descriptor with the index `_nr_pages`. `TryMerge` asks for it when the
freed block is the left one of its pair and ends where the array does.
-/

open Infos.Blocks Infos.Prog Infos.PtrList

namespace Infos.Buddy

variable {nr : ℕ} {ty : ℕ → PageDescriptorType} {h : Mem} {s : State} {F : FreeSet nr maxOrder}

theorem buddy_not_mem_of_stop {b : Block} (hd : 2 ^ (b.order + 1) ∣ b.base) (hstop : b.stop = nr) :
    b.buddy ∉ F := by
  intro hbud
  have hlt := mem_lt F hbud
  rw [base_buddy_left hd, hstop] at hlt
  exact lt_irrefl _ hlt

theorem TryMerge_at_end {b : Block} (R : Rep nr ty h F) (hb : b ∈ F) (hk : b.order < maxOrder)
    (hd : 2 ^ (b.order + 1) ∣ b.base) (hstop : b.stop = nr) :
    Returns (TryMerge nr b.base b.order) h fun _ h' => nr ∈ h'.touched := by
  have ha := F.aligned b hb
  have hmax := maxOrder_lt
  have hbud : b.buddy.base = nr := (base_buddy_left hd).trans hstop
  rw [TryMerge_eq, if_neg (by omega)]
  simp only [returns_bind, returns_load, returns_deref,
    buddy_of_eq ha (by omega) hbud.le, aligned_iff, buddy_aligned_next ha]
  rw [if_neg fun hp => hp.2 hd]
  simp only [returns_bind, returns_load, links_visit]
  rw [if_neg (mt (R.next_left hb hd).mp (buddy_not_mem_of_stop hd hstop)), returns_pure, hbud]
  simp [Mem.visit]

theorem free_pages_at_end {b : Block} (R : Rep nr ty h F) (hb : F.Fits b) (hk : b.order < maxOrder)
    (hd : 2 ^ (b.order + 1) ∣ b.base) (hstop : b.stop = nr) :
    Returns (free_pages nr b.base b.order) h fun _ h' => nr ∈ h'.touched := by
  unfold free_pages
  simp only [returns_bind, returns_assert]
  refine ⟨(aligned_iff ..).mpr hb.aligned, ?_⟩
  apply returns_mono (insert_block_spec R hb)
  rintro - h₁ ⟨-, -, R₁⟩
  exact TryMerge_at_end R₁ (Or.inl rfl) hk hd hstop

/-! ## A run that gets there -/

theorem exists_order {K : ℕ} (hn : ¬ 2 ^ K ∣ nr) : ∃ k < K, 2 ^ k ∣ nr ∧ ¬ 2 ^ (k + 1) ∣ nr := by
  induction K with
  | zero => exact absurd (one_dvd nr) hn
  | succ K ih =>
    by_cases hK : 2 ^ K ∣ nr
    · exact ⟨K, Nat.lt_succ_self K, hK, hn⟩
    · obtain ⟨k, hk, h⟩ := ih hK
      exact ⟨k, by omega, h⟩

theorem left_of_odd {k m : ℕ} (hm : nr = 2 ^ k * m) (hn : ¬ 2 ^ (k + 1) ∣ nr) :
    2 ^ k ≤ nr ∧ 2 ^ (k + 1) ∣ nr - 2 ^ k := by
  obtain ⟨j, rfl | rfl⟩ := Nat.even_or_odd' m
  · exact absurd ⟨j, by rw [hm, pow_succ]; ring⟩ hn
  · have hsum : nr = 2 ^ (k + 1) * j + 2 ^ k := by rw [hm, pow_succ]; ring
    exact ⟨by omega, j, by omega⟩

/-- What `init` leaves at the end of an array whose length is no multiple of `2 ^ (k + 1)`. -/
theorem last_block {k : ℕ} (hF : F.Coalesced) (hp : ∀ x, x ∈ F.pages ↔ x < nr) (hk : k < maxOrder)
    (hd : 2 ^ k ∣ nr) (hn : ¬ 2 ^ (k + 1) ∣ nr) : ⟨nr - 2 ^ k, k⟩ ∈ F := by
  obtain ⟨m, hm⟩ := hd
  obtain ⟨hle, hleft⟩ := left_of_odd hm hn
  have hstop : (⟨nr - 2 ^ k, k⟩ : Block).stop = nr := by
    simp only [Block.stop]
    omega
  obtain ⟨c, hc, hkc, hbase, hcs⟩ := hF.covers ⟨nr - 2 ^ k, k⟩
    ((pow_dvd_pow 2 (Nat.le_succ k)).trans hleft) hk.le fun x hx => by
      rw [hp, ← hstop]
      exact hx.2
  have hcn : c.stop = nr := le_antisymm (F.inside c hc) (hstop ▸ hcs)
  have hck : c.order = k := by
    refine le_antisymm (not_lt.mp fun hlt => hn ?_) hkc
    rw [← hcn]
    exact (F.aligned c hc).dvd_stop hlt
  have hcb : c = ⟨nr - 2 ^ k, k⟩ := by
    refine Block.ext ?_ hck
    simp only [Block.stop, hck] at hcn
    simp only
    omega
  exact hcb ▸ hc

/-- Allocating and freeing the last block. -/
theorem reaches_end (hn : ¬ 2 ^ maxOrder ∣ nr) :
    ∃ s, (system nr).Reachable s ∧ nr ∈ s.mem.touched := by
  obtain ⟨k, hk, hd, hodd⟩ := exists_order hn
  obtain ⟨h, -, hstart⟩ := init_starts (zeroed_blank nr)
  obtain ⟨ty, F, hi, hone, hout⟩ := start_inv hstart
  have hlast := last_block hi.coalesced (fun x => by simp [hi.pages]) hk hd hodd
  have hk31 : (k : Int) < 2 ^ 31 := by
    have : maxOrder = 16 := rfl
    omega
  obtain ⟨m, hm⟩ := hd
  obtain ⟨hle, hleft⟩ := left_of_odd hm hodd
  have hstop : (⟨nr - 2 ^ k, k⟩ : Block).stop = nr := by
    simp only [Block.stop]
    omega
  have hk0 : -2 ^ 31 ≤ (k : Int) := by omega
  obtain ⟨r, h₁, halloc, hpost⟩ := hi.alloc_pages_spec hk0 hk31
  rcases r with _ | p
  · have := hpost.2 _ hlast (by omega)
    simp only at this
    omega
  · obtain ⟨-, F₁, hi₁, b, hb, rfl, hkb, hmin⟩ := hpost
    have hbk : b.order = k := le_antisymm (hmin _ hlast le_rfl) (by omega)
    obtain rfl : b = ⟨nr - 2 ^ k, k⟩ := hone b hb _ hlast hbk (hbk ▸ hk)
    obtain ⟨_, h₂, hfree, htouch⟩ :=
      free_pages_at_end hi₁.rep (hi₁.fits (b := ⟨nr - 2 ^ k, k⟩) (by simp)) hk hleft hstop
    refine ⟨⟨h₂, []⟩, ?_, htouch⟩
    have hr₁ : (system nr).Reachable ⟨h₁, [⟨nr - 2 ^ k, k⟩]⟩ := by
      refine (System.Reachable.of_start hstart).step (c := .alloc_pages k) ⟨hk0, hk31⟩ ?_
      show (alloc_pages nr k h).map _ = _
      rw [halloc]
      rfl
    refine hr₁.step (c := .free_pages ⟨nr - 2 ^ k, k⟩)
      (List.mem_singleton_self _) ?_
    show (free_pages nr (nr - 2 ^ k) k h₁).map _ = _
    rw [hfree]
    simp [Except.map]

/-- For exactly these lengths every descriptor read or written is one of the array. -/
theorem touched_in_array_iff (nr : ℕ) :
    (∀ s, (system nr).Reachable s → (∀ i ∈ s.mem.touched, i < nr) ∧
      ∀ c, Allowed s c → ∃ s', step nr s c = .ok s') ↔ 2 ^ 16 ∣ nr := by
  constructor
  · intro hall
    by_contra hn
    have hn' : ¬ 2 ^ maxOrder ∣ nr := hn
    obtain ⟨s, hs, ht⟩ := reaches_end hn'
    exact lt_irrefl _ ((hall s hs).1 nr ht)
  · intro hd s hs
    obtain ⟨ty, F, hi⟩ := reachable_inv hs
    refine ⟨fun i hit => ?_, fun c hc => ?_⟩
    · rcases hi.rep.bounded i hit with hlt | ⟨-, hn⟩
      · exact hlt
      · exact absurd hd hn
    · obtain ⟨s', he, -⟩ := hi.step hc
      exact ⟨s', he⟩

/-- Of three pages, the last one is allocated and freed. -/
theorem touches_past_three : ∃ s t, boot 3 [.alloc_pages 0] = some s ∧
    boot 3 [.alloc_pages 0, .free_pages ⟨2, 0⟩] = some t ∧ (system 3).Reachable t ∧
    (∀ i ∈ s.mem.touched, i < 3) ∧ 3 ∈ t.mem.touched := by
  have hs : (boot 3 [.alloc_pages 0]).map (fun s => s.mem.touched.all (· < 3)) = some true := by
    decide +kernel
  have ht : (boot 3 [.alloc_pages 0, .free_pages ⟨2, 0⟩]).map (fun t => t.mem.touched.elem 3) =
      some true := by decide +kernel
  obtain ⟨s, hs, hsall⟩ := Option.map_eq_some_iff.mp hs
  obtain ⟨t, ht, htin⟩ := Option.map_eq_some_iff.mp ht
  refine ⟨s, t, hs, ht, boot_reachable ht, fun i hi => ?_, List.elem_iff.mp htin⟩
  simpa using List.all_eq_true.mp hsall i hi

end Infos.Buddy
