import Infos.Vma.NewTable

/-!
# Where copies go

`copy_to` looks up its first page only, and copies on from the frame of that page.
-/

open Infos.Bytes Infos.Prog

namespace Infos.Vma

variable {α : Type} {s s' : State α} {va dest_va size : UInt64} {r : Option UInt64}
  {src : ℕ → UInt8}

/-! ## Lookups only read -/

theorem access_reads (a n : ℕ) :
    Ends (access a n) s (fun _ s' => s' = s) fun _ => True := by
  unfold access
  exact ends_ite (fun _ => rfl) fun _ => trivial

theorem load_entry_reads (table idx : ℕ) :
    Ends (load_entry table idx) s (fun _ s' => s' = s) fun _ => True := by
  unfold load_entry
  rw [ends_bind]
  refine ends_mono (access_reads _ _) ?_
  rintro _ s rfl
  exact rfl

theorem pa_to_vpa_reads (pa : UInt64) :
    Ends (pa_to_vpa pa) s (fun r s' => r = pa.toNat ∧ s' = s) fun _ => True := by
  unfold pa_to_vpa assert
  rw [ends_bind]
  exact ends_ite (fun _ => ⟨rfl, rfl⟩) fun _ => trivial

theorem present_table_reads (table idx : ℕ) :
    Ends (present_table table idx) s (fun _ s' => s' = s) fun _ => True := by
  unfold present_table
  rw [ends_bind]
  refine ends_mono (load_entry_reads _ _) ?_
  rintro e s rfl
  refine ends_ite (fun _ => ?_) fun _ => rfl
  rw [ends_map]
  exact ends_mono (pa_to_vpa_reads _) fun _ _ h => h.2

theorem get_mapping_reads (va : UInt64) :
    Ends (get_mapping va) s (fun _ s' => s' = s) fun _ => True := by
  unfold get_mapping
  simp only [ends_bind, ends_get]
  refine ends_mono (present_table_reads _ _) ?_
  rintro r₁ s rfl
  cases r₁ with
  | none => rfl
  | some pdp =>
    simp only [ends_bind]
    refine ends_mono (present_table_reads _ _) ?_
    rintro r₂ s rfl
    cases r₂ with
    | none => rfl
    | some pd =>
      simp only [ends_bind]
      refine ends_mono (present_table_reads _ _) ?_
      rintro r₃ s rfl
      cases r₃ with
      | none => rfl
      | some pt =>
        simp only [ends_bind]
        refine ends_mono (load_entry_reads _ _) ?_
        rintro e s rfl
        exact ends_ite (fun _ => rfl) fun _ => rfl

/-! ## Copies -/

/-- The address `va` is mapped to the physical address `pa`. -/
def MappedTo (s : State α) (va pa : UInt64) : Prop := get_mapping va s = .ok (some pa, s)

/-- The call returns, and `true` only if every address is mapped. Then each byte is where its
address is mapped, and all else is as it was. If it returns `false`, nothing is written. -/
def Copies (s : State α) (dest_va : UInt64) (src : ℕ → UInt8) (size : UInt64) : Prop :=
  ∃ r s', copy_to dest_va src size s = .ok (r, s') ∧
    (r = true →
      (∀ i < size.toNat, ∃ pa, MappedTo s (dest_va + UInt64.ofNat i) pa ∧ s'.mem pa.toNat = src i) ∧
      ∀ y, (∀ i < size.toNat, ∀ pa, MappedTo s (dest_va + UInt64.ofNat i) pa → y ≠ pa.toNat) →
        s'.mem y = s.mem y) ∧
    (r = false → s' = s)

/-- The addresses are mapped one after another, to memory that the window shows. -/
structure InARow (s : State α) (dest_va size pa : UInt64) : Prop where
  first : MappedTo s dest_va pa
  shown : pa.toNat < PMEM_VA_SIZE
  room : pa.toNat + size.toNat ≤ PMEM_VA_SIZE
  rest : ∀ i < size.toNat, MappedTo s (dest_va + UInt64.ofNat i) (pa + UInt64.ofNat i)

theorem InARow.toNat_pa_add {pa : UInt64} {i : ℕ} (h : InARow s dest_va size pa)
    (hi : i < size.toNat) : (pa + UInt64.ofNat i).toNat = pa.toNat + i := by
  have hsize : PMEM_VA_SIZE = 2 ^ 32 := rfl
  have hroom := h.room
  rw [UInt64.toNat_add, UInt64.toNat_ofNat']
  omega

theorem MappedTo.unique {pa pa' : UInt64} (h : MappedTo s va pa) (h' : MappedTo s va pa') : pa = pa' := by
  unfold MappedTo at h h'
  rw [h] at h'
  cases h'
  rfl

theorem pa_to_vpa_eq (pa : UInt64) : pa_to_vpa pa s =
    if pa.toNat < PMEM_VA_SIZE then .ok (pa.toNat, s) else .error ⟨.assertion, s⟩ := by
  unfold pa_to_vpa assert
  by_cases h : pa.toNat < PMEM_VA_SIZE
  · rw [if_pos h, decide_eq_true h]
    rfl
  · rw [if_neg h, decide_eq_false h]
    rfl

/-- What is left of a copy that runs into the end of the window. -/
def cut (s : State α) (dest : ℕ) (src : ℕ → UInt8) (n : ℕ) : State α :=
  put (write s.mem dest (min n (PMEM_VA_SIZE - dest)) src) dest (min n (PMEM_VA_SIZE - dest)) s

theorem memcpy_eq (dest n : ℕ) : memcpy dest src n s =
    if dest + n ≤ PMEM_VA_SIZE then .ok ((), put (write s.mem dest n src) dest n s)
    else .error ⟨.outside, cut s dest src n⟩ := by
  unfold memcpy access
  by_cases h : dest + n ≤ PMEM_VA_SIZE
  · rw [if_pos h, if_pos h, Nat.min_eq_left (by omega)]
    rfl
  · rw [if_neg h, if_neg h]
    rfl

/-- A call whose first page is mapped. -/
theorem copy_to_mapped {pa : UInt64} (h : MappedTo s dest_va pa) (src : ℕ → UInt8)
    (size : UInt64) : copy_to dest_va src size s =
    if pa.toNat < PMEM_VA_SIZE then
      if pa.toNat + size.toNat ≤ PMEM_VA_SIZE then
        .ok (true, put (write s.mem pa.toNat size.toNat src) pa.toNat size.toNat s)
      else .error ⟨.outside, cut s pa.toNat src size.toNat⟩
    else .error ⟨.assertion, s⟩ := by
  unfold copy_to
  rw [bind_eq, h]
  dsimp only
  rw [bind_eq, pa_to_vpa_eq]
  by_cases hshown : pa.toNat < PMEM_VA_SIZE
  · rw [if_pos hshown, if_pos hshown]
    dsimp only
    rw [bind_eq, memcpy_eq]
    by_cases hroom : pa.toNat + size.toNat ≤ PMEM_VA_SIZE
    · rw [if_pos hroom, if_pos hroom]
      rfl
    · rw [if_neg hroom, if_neg hroom]
  · rw [if_neg hshown, if_neg hshown]

/-- A call that finds nothing. -/
theorem copy_to_unmapped (h : get_mapping dest_va s = .ok (none, s)) :
    copy_to dest_va src size s = .ok (false, s) := by
  unfold copy_to
  rw [bind_eq, h]
  rfl

theorem InARow.copies {pa : UInt64} (h : InARow s dest_va size pa) (src : ℕ → UInt8) :
    Copies s dest_va src size := by
  have heq := copy_to_mapped h.first src size
  rw [if_pos h.shown, if_pos h.room] at heq
  refine ⟨true, _, heq, fun _ => ⟨fun i hi => ?_, fun y hy => ?_⟩, by simp⟩
  · refine ⟨_, h.rest i hi, ?_⟩
    rw [h.toNat_pa_add hi]
    show write s.mem pa.toNat size.toNat src _ = _
    rw [write_inside _ (by omega) (by omega), Nat.add_sub_cancel_left]
  · refine write_outside _ ?_
    by_contra hin
    refine hy (y - pa.toNat) (by omega) _ (h.rest _ (by omega)) ?_
    rw [h.toNat_pa_add (by omega)]
    omega

/-- A copy of any bytes goes where it should only if it goes to memory in a row. -/
theorem inARow_of_copies {pa : UInt64} (hfirst : MappedTo s dest_va pa)
    (h : ∀ src, Copies s dest_va src size) : InARow s dest_va size pa := by
  have hsize : PMEM_VA_SIZE = 2 ^ 32 := rfl
  -- What is copied shows at the addresses, whatever it is.
  have hcopied : pa.toNat < PMEM_VA_SIZE ∧ pa.toNat + size.toNat ≤ PMEM_VA_SIZE ∧
      ∀ src, ∀ i < size.toNat, ∃ pa', MappedTo s (dest_va + UInt64.ofNat i) pa' ∧
        write s.mem pa.toNat size.toNat src pa'.toNat = src i := by
    by_cases hshown : pa.toNat < PMEM_VA_SIZE
    · by_cases hroom : pa.toNat + size.toNat ≤ PMEM_VA_SIZE
      · refine ⟨hshown, hroom, fun src => ?_⟩
        obtain ⟨r, s', he, htrue, -⟩ := h src
        rw [copy_to_mapped hfirst, if_pos hshown, if_pos hroom] at he
        cases he
        exact (htrue rfl).1
      · obtain ⟨r, s', he, -⟩ := h fun _ => 0
        rw [copy_to_mapped hfirst, if_pos hshown, if_neg hroom] at he
        cases he
    · obtain ⟨r, s', he, -⟩ := h fun _ => 0
      rw [copy_to_mapped hfirst, if_neg hshown] at he
      cases he
  obtain ⟨hshown, hroom, hbytes⟩ := hcopied
  refine ⟨hfirst, hshown, hroom, fun i hi => ?_⟩
  -- One byte is made to differ from all the others, and from what was there.
  obtain ⟨pa', hmapped, -⟩ := hbytes (fun _ => 0) i hi
  have hwrote : ∀ src, write s.mem pa.toNat size.toNat src pa'.toNat = src i := by
    intro src
    obtain ⟨pa'', hmapped', hbyte⟩ := hbytes src i hi
    rwa [hmapped.unique hmapped']
  have hin : pa.toNat ≤ pa'.toNat ∧ pa'.toNat < pa.toNat + size.toNat := by
    by_contra hout
    have hkept := hwrote fun _ => s.mem pa'.toNat + 1
    rw [write_outside _ (by omega)] at hkept
    have hone : (1 : UInt8).toNat = 0 := by
      have := congrArg UInt8.toNat hkept
      rw [UInt8.toNat_add] at this
      change _ = (_ + 1) % 256 at this
      omega
    cases hone
  have hplace : pa'.toNat - pa.toNat = i := by
    have hmark := hwrote fun j => if j = i then 1 else 0
    rw [write_inside _ hin.1 hin.2] at hmark
    by_contra hne
    simp [hne] at hmark
  have heq : pa' = pa + UInt64.ofNat i := by
    apply UInt64.toNat_inj.mp
    rw [UInt64.toNat_add, UInt64.toNat_ofNat']
    omega
  rwa [← heq]

/-- Any bytes can be copied exactly if nothing is mapped at their place, or the whole range is
mapped, to memory in a row. -/
theorem copies_iff (s : State α) (dest_va size : UInt64) :
    (∀ src, Copies s dest_va src size) ↔
      get_mapping dest_va s = .ok (none, s) ∨ ∃ pa, InARow s dest_va size pa := by
  constructor
  · intro h
    obtain ⟨r, s', he, -⟩ := h fun _ => 0
    have hreads : Ends _ s _ _ := get_mapping_reads dest_va
    unfold copy_to at he
    rw [bind_eq] at he
    unfold Ends at hreads
    cases hget : get_mapping dest_va s with
    | error e =>
      rw [hget] at he
      cases he
    | ok p =>
      obtain ⟨r, s₁⟩ := p
      rw [hget] at hreads
      obtain rfl : s₁ = s := hreads
      cases r with
      | none => exact .inl rfl
      | some pa => exact .inr ⟨pa, inARow_of_copies hget h⟩
  · rintro (hnone | ⟨pa, hrow⟩) src
    · exact ⟨false, s, copy_to_unmapped hnone, by simp, fun _ => rfl⟩
    · exact hrow.copies src

/-- Tables that map the first page only. -/
def one_page : State Unit where
  mem y := match y with
    | 0x1000 => 0x07 | 0x1001 => 0x20
    | 0x2000 => 0x07 | 0x2001 => 0x30
    | 0x3000 => 0x07 | 0x3001 => 0x40
    | 0x4000 => 0x07 | 0x4001 => 0x50
    | _ => 0
  written := []
  pgalloc := ()
  _page_allocations := []
  _pgt_phys_base := 0x1000
  _pgt_virt_base := 0x1000

/-- A copy of a page and a byte goes on behind the page, which is not mapped. -/
theorem copied_past : ¬Copies one_page 0 (fun _ => 1) 0x1001 := by
  rintro ⟨r, s', he, htrue, -⟩
  have hr : ((copy_to 0 (fun _ => 1) 0x1001 one_page).toOption.map Prod.fst) = some true := by
    decide +kernel
  rw [he] at hr
  obtain ⟨pa, hmapped, -⟩ := (htrue (Option.some.inj hr)).1 0x1000 (by decide)
  have hnone : ((get_mapping (0 + UInt64.ofNat 0x1000) one_page).toOption.map Prod.fst) =
      some none := by decide +kernel
  rw [hmapped] at hnone
  cases hnone

end Infos.Vma
