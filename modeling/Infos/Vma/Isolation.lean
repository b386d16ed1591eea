import Infos.Vma.Machine

/-!
# Processes keep apart

What the program of a process can reach is its own, nothing that the others do changes it, and the
kernel's windows are the same for all and closed to all programs.
-/

open Infos.Bytes Infos.Prog

namespace Infos.Vma

variable {α : Type} {P : PageSource α} {K : KernelPages} {m m' : Machine α} {i : ℕ} {v : Space}
  {va : UInt64} {p : Page}

/-! ## Runs that can be computed -/

/-- What the program and the kernel may do at any time. -/
def Event.Free : Event α → Prop
  | .call _ (.allocate_virt va nr_pages) => page_number va + virt_pages nr_pages ≤ 2 ^ 35
  | .call _ (.copy_to _ _ _) => False
  | .kernel _ _ => False
  | _ => True

instance (e : Event α) : Decidable e.Free := by
  unfold Event.Free
  split <;> infer_instance

theorem Event.Free.allowed {e : Event α} (h : e.Free) (m : Machine α) : e.Allowed P K m := by
  cases e with
  | create => trivial
  | call i c =>
    intro v _
    cases c with
    | allocate_phys order => trivial
    | allocate_virt va nr_pages => exact ownPages_lower h
    | copy_to dest_va src size => exact h.elim
  | user_store i va b => trivial
  | kernel mem a => exact h.elim

theorem run_of_foldlM {es : List (Event α)} (hfree : ∀ e ∈ es, e.Free)
    (h : es.foldlM (Event.step P K) m = .ok m') : (machines P K).Run m es m' := by
  induction es generalizing m with
  | nil =>
    cases h
    exact .nil _
  | cons e es ih =>
    rw [List.foldlM_cons] at h
    cases hs : e.step P K m with
    | error f =>
      rw [hs] at h
      cases h
    | ok m₁ =>
      rw [hs] at h
      obtain ⟨he, hes⟩ := List.forall_mem_cons.mp hfree
      exact .cons (he.allowed m) hs (ih hes h)

/-- The kernel's tables are in the pages from 16 on. -/
def bootPages : KernelPages := ⟨16, by decide⟩

def booted : Machine ℕ := ⟨reinitialise_pgt 16 fun _ => 0, 32, []⟩

theorem booted_reachable : (machines inOrder bootPages).Reachable booted :=
  .of_start ⟨rfl, fun _ => 0, 16, rfl, rfl⟩

def after (es : List (Event ℕ)) : Except (Halt ℕ) (Machine ℕ) :=
  es.foldlM (Event.step inOrder bootPages) booted

/-- What the program of process `i` finds for an address then. -/
def seen (es : List (Event ℕ)) (i : ℕ) (va : UInt64) : Option Page :=
  (after es).toOption.bind fun m => m.spaces[i]?.bind fun v => m.sees v va

theorem seen_eq (es : List (Event ℕ)) (i : ℕ) (va : UInt64) (p : Page)
    (h : seen es i va = some p) (hfree : ∀ e ∈ es, e.Free) :
    ∃ m v, after es = .ok m ∧ (machines inOrder bootPages).Reachable m ∧
      m.spaces[i]? = some v ∧ m.sees v va = some p := by
  obtain ⟨m, hm, h⟩ := Option.bind_eq_some_iff.mp h
  obtain ⟨v, hv, hsees⟩ := Option.bind_eq_some_iff.mp h
  have hafter := eq_ok_of_toOption hm
  exact ⟨m, v, hafter, booted_reachable.run (run_of_foldlM hfree hafter), hv, hsees⟩

/-- Two processes, each with a page at the same address. -/
def twoPages : List (Event ℕ) :=
  [.create, .create, .call 0 (.allocate_virt 0x400000 1), .call 1 (.allocate_virt 0x400000 1)]

/-! ## What a program can reach -/

/-- Whatever page a program can use is one of its process's own and holds no table of any process.
It is none of another process or of the kernel's tables, and it is not free. -/
theorem user_page_confined (hm : (machines P K).Reachable m) (hv : m.spaces[i]? = some v)
    (hsees : m.sees v va = some p) (huser : p.user = true) :
    p.pa / 4096 ∈ v.owned ∧ p.pa / 4096 ∉ P.free m.pgalloc ∧ p.pa / 4096 ∉ K.pages ∧
      (∀ w ∈ m.spaces, p.pa / 4096 ∉ (m.state w).tablePages) ∧
      ∀ j w, j ≠ i → m.spaces[j]? = some w → p.pa / 4096 ∉ w.owned := by
  have h := reachable_safe hm
  have hmem := List.mem_of_getElem? hv
  have hproper := h.proper v hmem
  obtain ⟨⟨howned, htables⟩, -⟩ := hproper.user_page K.window h.tables hsees huser
  have hothers : ∀ j w, j ≠ i → m.spaces[j]? = some w → p.pa / 4096 ∉ w.owned := fun j w hj hw =>
    Set.disjoint_left.mp (h.apart hj.symm hv hw) howned
  refine ⟨howned, hproper.sound.inv.owned_kept _ howned,
    Set.disjoint_left.mp (h.tables_apart v hmem) howned, fun w hw ht => ?_, hothers⟩
  obtain ⟨j, hj⟩ := List.mem_iff_getElem?.mp hw
  by_cases hji : j = i
  · subst hji
    obtain rfl : v = w := Option.some.inj (hv.symm.trans hj)
    exact htables ht
  · exact hothers j w hji hj ((h.proper w hw).sound.inv.tables_owned ht)

theorem user_page_confined_two : ∃ (m : Machine ℕ) (v w : Space) (p : Page),
    (machines inOrder bootPages).Reachable m ∧ m.spaces[0]? = some v ∧ m.spaces[1]? = some w ∧
      m.sees v 0x400123 = some p ∧ p.pa / 4096 ∈ v.owned ∧ p.pa / 4096 ∉ w.owned := by
  obtain ⟨m, v, hafter, hm, hv, hsees⟩ :=
    seen_eq twoPages 0 0x400123 ⟨0x22123, true, true⟩ (by decide +kernel) (by decide +kernel)
  have hsecond : ((after twoPages).toOption.bind fun m => m.spaces[1]?).isSome = true := by
    decide +kernel
  rw [hafter] at hsecond
  obtain ⟨w, hw⟩ := Option.isSome_iff_exists.mp hsecond
  obtain ⟨howned, -, -, -, hothers⟩ := user_page_confined hm hv hsees rfl
  exact ⟨m, v, w, _, hm, hv, hw, hsees, howned, hothers 1 w (by decide) hw⟩

/-! ## The kernel's windows -/

/-- In every address space and at any time the processor finds behind the kernel's entries the
memory that the two windows show, which no program may use. For all other addresses it finds what
`get_mapping` finds. -/
theorem sees_windows (hm : (machines P K).Reachable m) (hv : v ∈ m.spaces)
    (hcanonical : Canonical va) :
    (KernelIndex (pml4_idx va) → m.sees v va = (kernel_pa va).map fun pa => ⟨pa, false, true⟩) ∧
    (¬ KernelIndex (pml4_idx va) → ∃ r, get_mapping va (m.state v) = .ok (r, m.state v) ∧
      m.sees v va = r.map fun pa => ⟨pa.toNat, true, true⟩) := by
  have h := reachable_safe hm
  have hproper := h.proper v hv
  have hI := hproper.sound.inv
  refine ⟨fun hva => ?_, fun hva => ?_⟩
  · exact walk_kernel K.window h.tables (hI.root_frame hproper.cr3) hproper.template hva hcanonical
  · exact ⟨_, get_mapping_eq hI hva, hproper.walk_own hva hcanonical⟩

theorem sees_windows_two : ∃ (m : Machine ℕ) (v : Space),
    (machines inOrder bootPages).Reachable m ∧ v ∈ m.spaces ∧
      (KernelIndex (pml4_idx 0xFFFFFFFF80123456) → m.sees v 0xFFFFFFFF80123456 =
        (kernel_pa 0xFFFFFFFF80123456).map fun pa => ⟨pa, false, true⟩) := by
  obtain ⟨m, v, -, hm, hv, -⟩ :=
    seen_eq twoPages 0 0x400123 ⟨0x22123, true, true⟩ (by decide +kernel) (by decide +kernel)
  have hmem := List.mem_of_getElem? hv
  exact ⟨m, v, hm, hmem, (sees_windows hm hmem (by decide)).1⟩

/-! ## What the others do -/

/-- An event that is not one of process `i`, nor a write of the kernel to its pages. -/
def Event.Spares (i : ℕ) (m : Machine α) : Event α → Prop
  | .create => True
  | .call j _ => j ≠ i
  | .user_store j _ _ => j ≠ i
  | .kernel mem _ => ∀ v, m.spaces[i]? = some v → ∀ y, y / 4096 ∈ v.owned → mem y = m.mem y

/-- The address space, and all the memory that it was given, is the same. -/
def Same (m m' : Machine α) (i : ℕ) (v : Space) : Prop :=
  m'.spaces[i]? = some v ∧ ∀ y, y / 4096 ∈ v.owned → m'.mem y = m.mem y

theorem Safe.step_spares (h : Safe P K m) {e : Event α} (ha : e.Allowed P K m)
    (hs : e.step P K m = .ok m') (hv : m.spaces[i]? = some v) (he : e.Spares i m) :
    Same m m' i v := by
  have hlt : i < m.spaces.length := (List.getElem?_eq_some_iff.mp hv).1
  have hmem := List.mem_of_getElem? hv
  obtain ⟨s, -, hc, rfl⟩ | ⟨j, w, s, hkind, hw, -, hadv, rfl⟩ | ⟨-, rfl⟩ | ⟨mem, a, rfl, rfl⟩ :=
    h.step_cases ha hs
  · refine ⟨(List.getElem?_append_left hlt).trans hv, fun y hy => ?_⟩
    refine hc.contained.wrote.elsewhere y fun hin => ?_
    exact Set.disjoint_left.mp (h.not_free hmem) (hc.contained.owned rfl hin) hy
  · have hij : j ≠ i := by
      obtain ⟨c, rfl⟩ | ⟨va, b, rfl⟩ := hkind
      · exact he
      · exact he
    refine ⟨(List.getElem?_set_ne hij).trans hv, fun y hy => hadv.elsewhere y fun hin => ?_⟩
    rcases hadv.new_owned hin with ho | hf
    · exact Set.disjoint_left.mp (h.apart hij hw hv) ho hy
    · exact Set.disjoint_left.mp (h.not_free hmem) hf hy
  · exact ⟨hv, fun _ _ => rfl⟩
  · exact ⟨hv, he v hv⟩

theorem Safe.run_spares {es : List (Event α)} (h : Safe P K m) (hv : m.spaces[i]? = some v)
    (hr : (machines P K).Run m es m')
    (hspares : (machines P K).Each (fun m e => e.Spares i m) m es) : Same m m' i v := by
  induction hr with
  | nil m => exact ⟨hv, fun _ _ => rfl⟩
  | cons ha hs _ ih =>
    obtain ⟨he, hrest⟩ := hspares ha
    obtain ⟨hv₁, hmem₁⟩ := h.step_spares ha hs hv he
    obtain ⟨hv₂, hmem₂⟩ := ih (h.step ha hs) hv₁ (hrest _ hs)
    exact ⟨hv₂, fun y hy => (hmem₂ y hy).trans (hmem₁ y hy)⟩

/-- The processor reads nothing but the process's own tables and the kernel's. -/
theorem Safe.sees_congr (h : Safe P K m) (h' : Safe P K m') (hv : m.spaces[i]? = some v)
    (hsame : Same m m' i v) (va : UInt64) : m'.sees v va = m.sees v va := by
  have hproper := h.proper v (List.mem_of_getElem? hv)
  have hproper' := h'.proper v (List.mem_of_getElem? hsame.1)
  have hI := hproper.sound.inv
  by_cases hcanonical : Canonical va
  · by_cases hva : KernelIndex (pml4_idx va)
    · exact (walk_kernel K.window h'.tables (hproper'.sound.inv.root_frame hproper'.cr3)
        hproper'.template hva hcanonical).trans
        (walk_kernel K.window h.tables (hI.root_frame hproper.cr3) hproper.template hva
          hcanonical).symm
    · refine (hproper'.walk_own hva hcanonical).trans ?_
      have hroot : (m'.state v)._pgt_virt_base = (m.state v)._pgt_virt_base := rfl
      rw [hI.translate_eq hroot fun y hy => hsame.2 y (hI.tables_owned hy)]
      exact (hproper.walk_own hva hcanonical).symm
  · unfold Machine.sees walk_pages
    rw [if_neg hcanonical, if_neg hcanonical]

/-- As long as a process does nothing, and the kernel does not write to its pages for it, its
program finds every address mapped as before, and in all that it can use the bytes that were there,
whatever the other processes and the kernel do. -/
theorem unaffected {es : List (Event α)} (hm : (machines P K).Reachable m)
    (hv : m.spaces[i]? = some v) (hr : (machines P K).Run m es m')
    (hspares : (machines P K).Each (fun m e => e.Spares i m) m es) :
    m'.spaces[i]? = some v ∧ ∀ va, m'.sees v va = m.sees v va ∧
      ∀ p, m.sees v va = some p → p.user = true → m'.mem p.pa = m.mem p.pa := by
  have h := reachable_safe hm
  have hsame := h.run_spares hv hr hspares
  refine ⟨hsame.1, fun va => ⟨h.sees_congr (reachable_safe (hm.run hr)) hv hsame va, ?_⟩⟩
  intro p hsees huser
  obtain ⟨hdata, -⟩ :=
    (h.proper v (List.mem_of_getElem? hv)).user_page K.window h.tables hsees huser
  exact hsame.2 _ hdata.1

/-- The other process is given a page too, and stores into it. -/
def byTheOther : List (Event ℕ) :=
  [.call 1 (.allocate_virt 0x400000 1), .user_store 1 0x400123 7]

theorem unaffected_two : ∃ (m m' : Machine ℕ) (v : Space) (p : Page),
    (machines inOrder bootPages).Reachable m ∧ (machines inOrder bootPages).Run m byTheOther m' ∧
      m.sees v 0x400123 = some p ∧ m'.mem p.pa = m.mem p.pa := by
  obtain ⟨m, v, hafter, hm, hv, hsees⟩ := seen_eq
    [.create, .create, .call 0 (.allocate_virt 0x400000 1)] 0 0x400123 ⟨0x22123, true, true⟩
    (by decide +kernel) (by decide +kernel)
  obtain ⟨m', -, hafter', -⟩ := seen_eq
    ([.create, .create, .call 0 (.allocate_virt 0x400000 1)] ++ byTheOther) 0 0x400123
    ⟨0x22123, true, true⟩ (by decide +kernel) (by decide +kernel)
  unfold after at hafter hafter'
  rw [List.foldlM_append, hafter] at hafter'
  have hr : (machines inOrder bootPages).Run m byTheOther m' :=
    run_of_foldlM (by decide +kernel) hafter'
  have hspares : (machines inOrder bootPages).Each (fun m e => e.Spares 0 m) m byTheOther :=
    fun _ => ⟨Nat.one_ne_zero, fun _ _ _ => ⟨Nat.one_ne_zero, fun _ _ => trivial⟩⟩
  obtain ⟨-, hsame⟩ := unaffected hm hv hr hspares
  exact ⟨m, m', v, _, hm, hr, hsees, (hsame 0x400123).2 _ hsees rfl⟩

/-! ## Pages that are not for programs -/

/-- The process has the page, and maps nothing to it. -/
def Hidden (m : Machine α) (i q : ℕ) : Prop := ∃ v, m.spaces[i]? = some v ∧ q ∈ v.owned ∧
  ∀ va pa, (m.state v).translate va = some pa → pa.toNat / 4096 ≠ q

theorem Safe.step_hidden {q : ℕ} {e : Event α} (h : Safe P K m) (hq : Hidden m i q)
    (ha : e.Allowed P K m) (hs : e.step P K m = .ok m') : Hidden m' i q := by
  obtain ⟨v, hv, howned, hnone⟩ := hq
  obtain ⟨v', hv', hmoves⟩ := h.step_space ha hs hv
  refine ⟨v', hv', hmoves.owned howned, fun va pa hpa => ?_⟩
  rcases hmoves.translates va pa hpa with hold | hnew
  · exact hnone va pa hold
  · rintro rfl
    exact hnew howned

theorem Safe.run_hidden {q : ℕ} {es : List (Event α)} (h : Safe P K m) (hq : Hidden m i q)
    (hr : (machines P K).Run m es m') : Hidden m' i q := by
  have hboth := hr.preserves (I := fun m => Safe P K m ∧ Hidden m i q) ⟨h, hq⟩
    fun m e m' hI ha hs => ⟨hI.1.step ha hs, hI.1.step_hidden hI.2 ha hs⟩
  exact hboth.2

theorem call_allocate_phys {order : Int} {pgd : ℕ} {s : State α} (hv : m.spaces[i]? = some v)
    (hgiven : allocate_phys P order (m.state v) = .ok (some pgd, s)) :
    m.call P i (.allocate_phys order) = .ok (Machine.left s (m.spaces.set i s.space)) := by
  have hrun : (Call.allocate_phys order).run P (m.state v) = .ok ((), s) := by
    show (discard (allocate_phys P order) : Op α Unit) (m.state v) = _
    show (do let (_, s) ← allocate_phys P order (m.state v); pure ((), s)) = _
    rw [hgiven]
    rfl
  unfold Machine.call
  rw [hv]
  dsimp only
  rw [hrun]
  rfl

/-- The pages that a process is given as a kernel stack no program can ever use, neither its own nor
that of another process. -/
theorem kernel_stack_hidden {order : Int} {pgd : ℕ} {s : State α} {es : List (Event α)}
    (hm : (machines P K).Reachable m) (hv : m.spaces[i]? = some v)
    (hgiven : allocate_phys P order (m.state v) = .ok (some pgd, s))
    (hr : (machines P K).Run (Machine.left s (m.spaces.set i s.space)) es m') {j : ℕ} {w : Space}
    (hw : m'.spaces[j]? = some w) (hsees : m'.sees w va = some p) (huser : p.user = true) :
    p.pa / 4096 < pgd ∨ pgd + block_pages order ≤ p.pa / 4096 := by
  have h := reachable_safe hm
  have hlt : i < m.spaces.length := (List.getElem?_eq_some_iff.mp hv).1
  have hspec := ends_ok (allocate_phys_spec order) hgiven
  have hG : Granted P (m.state v) order pgd s := hspec
  have hI := (h.proper v (List.mem_of_getElem? hv)).sound.inv
  have hsafe := h.step (e := .call i (.allocate_phys order)) (fun _ _ => trivial)
    (call_allocate_phys hv hgiven)
  by_contra hin
  -- At first nothing is mapped to a page that was free until now.
  have hhidden : Hidden (Machine.left s (m.spaces.set i s.space)) i (p.pa / 4096) := by
    have hfree := hG.block_free (p.pa / 4096) (by omega) (by omega)
    refine ⟨s.space, List.getElem?_set_self hlt, ?_, fun v' pa hpa => ?_⟩
    · show _ ∈ s.owned
      rw [hG.owned_eq]
      exact .inr ⟨by omega, by omega⟩
    · have htrans : s.translate v' = (m.state v).translate v' :=
        hI.translate_eq hG.root (hG.untouched hI) v'
      have hpa : s.translate v' = some pa := hpa
      rw [htrans] at hpa
      have hlands := (h.proper v (List.mem_of_getElem? hv)).sound.lands v' pa hpa
      exact fun he => hI.owned_kept _ hlands.1 (he ▸ hfree.1)
  have hsafe' : Safe P K m' := hr.preserves hsafe fun _ _ _ h ha hs => h.step ha hs
  obtain ⟨v', hv', howned, hnone⟩ := hsafe.run_hidden hhidden hr
  obtain ⟨⟨hwowned, -⟩, pa, hpa, hto⟩ :=
    (hsafe'.proper w (List.mem_of_getElem? hw)).user_page K.window hsafe'.tables hsees huser
  by_cases hji : j = i
  · subst hji
    obtain rfl : v' = w := Option.some.inj (hv'.symm.trans hw)
    exact hnone va pa hpa (by rw [hto])
  · exact Set.disjoint_left.mp (hsafe'.apart hji hw hv') hwowned howned

theorem kernel_stack_hidden_one : ∃ (m m' : Machine ℕ) (v w : Space) (s : State ℕ) (p : Page),
    (machines inOrder bootPages).Reachable m ∧
      allocate_phys inOrder 1 (m.state v) = .ok (some 33, s) ∧ m'.sees w 0x400123 = some p ∧
      (p.pa / 4096 < 33 ∨ 33 + block_pages 1 ≤ p.pa / 4096) := by
  have hgiven : ((after [.create]).toOption.bind fun m => m.spaces[0]?.bind fun v =>
      (allocate_phys inOrder 1 (m.state v)).toOption.map Prod.fst) = some (some 33) := by
    decide +kernel
  obtain ⟨m, hm, hgiven⟩ := Option.bind_eq_some_iff.mp hgiven
  obtain ⟨v, hv, hgiven⟩ := Option.bind_eq_some_iff.mp hgiven
  cases hafter : after [.create] with
  | error e =>
    rw [hafter] at hm
    cases hm
  | ok m₀ =>
    rw [hafter] at hm
    obtain rfl : m₀ = m := Option.some.inj hm
    cases hphys : allocate_phys inOrder 1 (m₀.state v) with
    | error e =>
      rw [hphys] at hgiven
      cases hgiven
    | ok r =>
      obtain ⟨r, s⟩ := r
      rw [hphys] at hgiven
      obtain rfl : r = some 33 := Option.some.inj hgiven
      have hreach : (machines inOrder bootPages).Reachable m₀ :=
        booted_reachable.run (run_of_foldlM (by decide +kernel) hafter)
      have hcall := call_allocate_phys hv hphys
      obtain ⟨m', w, hafter', -, hw, hsees⟩ := seen_eq
        ([.create] ++ [.call 0 (.allocate_phys 1), .call 0 (.allocate_virt 0x400000 1)])
        0 0x400123 ⟨0x23123, true, true⟩ (by decide +kernel) (by decide +kernel)
      unfold after at hafter hafter'
      rw [List.foldlM_append, hafter] at hafter'
      have hrest : [.call 0 (.allocate_virt 0x400000 1)].foldlM (Event.step inOrder bootPages)
          (Machine.left s (m₀.spaces.set 0 s.space)) = .ok m' := by
        rw [← hafter']
        show _ = (m₀.call inOrder 0 (.allocate_phys 1) >>= _)
        rw [hcall]
        rfl
      have hr := run_of_foldlM (by decide +kernel) hrest
      exact ⟨m₀, m', v, w, s, _, hreach, hphys, hsees,
        kernel_stack_hidden hreach hv hphys hr hw hsees rfl⟩

end Infos.Vma
