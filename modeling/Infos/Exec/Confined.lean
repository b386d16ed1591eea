import Infos.Exec.ElfLoader
import Infos.Vma.Frames
import Infos.Vma.Kernel
import Infos.Vma.Virt

/-!
# What loading a program writes to

A program image that keeps out of the kernel's half, and whose segments fit the memory they ask
for, is confined to the frames of its process.
-/

open Infos.Bytes Infos.Prog Infos.Vma

namespace Infos.Exec

variable {α : Type} {P : PageSource α} {s₀ s s' : State α} {D : Set ℕ} {room : ℕ → ℕ}
  {E : Halt α → Prop}

/-! ## The stack of the main thread -/

/-- The addresses of the `n` bytes from `a` on are in pages of `D`, below the end of the window. -/
structure InData (D : Set ℕ) (a n : ℕ) : Prop where
  window : a + n ≤ PMEM_VA_SIZE
  pages : ∀ y, a ≤ y → y < a + n → y / 4096 ∈ D

theorem store_word_spec {a : ℕ} (v : UInt64) (h : Loaded P s₀ D room s) (ha : InData D a 8) :
    Ends (store_word a v) s (fun _ => Loaded P s₀ D room) E := by
  rw [ends_store_word ha.window]
  exact h.dataWrite {
    wrote := wrote_put s (fun y hle hlt => h.data (ha.pages y hle hlt))
      fun y hy => store64_outside _ hy
    root := rfl
    pgalloc := rfl
    allocations := rfl }

theorem push_words_spec {words : List UInt64} {stack base : ℕ} (h : Loaded P s₀ D room s)
    (hstack : stack = base + 8 * words.length) (hin : InData D base (8 * words.length)) :
    Ends (push_words words stack) s (fun r s' => r = base ∧ Loaded P s₀ D room s') E := by
  induction words generalizing stack s with
  | nil =>
    rw [push_words, ends_pure]
    exact ⟨hstack, h⟩
  | cons word words ih =>
    rw [List.length_cons] at hstack hin
    have hwindow := hin.window
    rw [push_words, ends_bind]
    have hword : InData D (stack - 8) 8 :=
      ⟨by omega, fun y hle hlt => hin.pages y (by omega) (by omega)⟩
    have hrest : InData D base (8 * words.length) :=
      ⟨by omega, fun y hle hlt => hin.pages y (by omega) (by omega)⟩
    exact ends_mono (store_word_spec word h hword) fun _ s₁ h₁ => ih h₁ (by omega) hrest

/-- A thread whose context is on a kernel stack in `D`. -/
structure OnStack (D : Set ℕ) (t : ThreadContext) : Prop where
  rsp : InData D (t.native_context + offset_rsp) 8
  rdi : InData D (t.native_context + offset_rdi) 8

/-- The two pages of a kernel stack. -/
def stackPages (pgd : ℕ) : Set ℕ := {p | pgd ≤ p ∧ p < pgd + 2}

theorem inData_stack {pgd a n : ℕ} (hwindow : 4096 * (pgd + 2) ≤ PMEM_VA_SIZE)
    (hle : 4096 * pgd ≤ a) (hlt : a + n ≤ 4096 * pgd + 8192) : InData (stackPages pgd) a n :=
  ⟨by omega, fun y hy hy' => ⟨by omega, by omega⟩⟩

theorem onStack {pgd : ℕ} {t : ThreadContext} (hwindow : 4096 * (pgd + 2) ≤ PMEM_VA_SIZE)
    (ht : t.native_context = 4096 * pgd + 8016) : OnStack (stackPages pgd) t := by
  constructor <;> rw [ht]
  · unfold offset_rsp
    exact inData_stack hwindow (by omega) (by omega)
  · unfold offset_rdi
    exact inData_stack hwindow (by omega) (by omega)

theorem initial_stack_length (entry_point : UInt64) : (initial_stack entry_point).length = 22 := by
  unfold initial_stack
  simp

theorem prepare_initial_stack_spec {pgd kernel_stack : ℕ} (entry_point : UInt64)
    (h : Loaded P s₀ (stackPages pgd) room s) (hwindow : 4096 * (pgd + 2) ≤ PMEM_VA_SIZE)
    (hstack : kernel_stack = 4096 * pgd + 8192) :
    Ends (prepare_initial_stack kernel_stack entry_point) s
      (fun t s' => OnStack (stackPages pgd) t ∧ Loaded P s₀ (stackPages pgd) room s') E := by
  obtain ⟨base, hbase⟩ : ∃ base, base = 4096 * pgd + 8016 := ⟨_, rfl⟩
  have hlen := initial_stack_length entry_point
  have hin : InData (stackPages pgd) base (8 * (initial_stack entry_point).length) :=
    inData_stack hwindow (by omega) (by omega)
  unfold prepare_initial_stack
  simp only [ends_bind]
  refine ends_mono (push_words_spec h (by omega) hin) ?_
  rintro native_context s₁ ⟨rfl, h₁⟩
  have hon : OnStack (stackPages pgd) ⟨kernel_stack, native_context⟩ := onStack hwindow hbase
  refine ends_mono (store_word_spec _ h₁ hon.rsp) fun _ s₂ h₂ => ?_
  rw [ends_pure]
  exact ⟨hon, h₂⟩

/-! ## A new process -/

theorem new_Process_spec (template_pml4 : Template) (entry_point : UInt64)
    (hnew : s₀._page_allocations = []) :
    Ends (new_Process P template_pml4 entry_point) s₀ (fun t s => ∃ pgd,
      OnStack (stackPages pgd) t ∧ Loaded P s₀ (stackPages pgd) (fun _ => 0) s) (Halted P s₀) := by
  unfold new_Process
  simp only [ends_bind]
  refine ends_weaken (new_VMA_spec hnew) (fun _ s₁ h₁ => ?_) fun _ he => he.halted
  refine ends_mono (install_spec h₁.inv template_pml4) ?_
  rintro _ s₂ rfl
  have hL : Loaded P s₀ ∅ (fun _ => 0) (s₁.install template_pml4) := {
    contained := (h₁.contained.fill (leaf_kernel (.inr rfl)) _).fill (leaf_kernel (.inl rfl)) _
    rooms := {
      unmapped := fun v _ _ => (h₁.inv.translate_install template_pml4 v).trans (h₁.translate v)
      mapped := fun v _ hroom => absurd rfl hroom }
    data := Set.empty_subset _ }
  unfold new_Thread
  simp only [ends_bind]
  refine ends_granted (fun pgd s₃ hG => ?_) fun _ he => hL.halted he.halted
  have hpages : block_pages KERNEL_STACK_ORDER = 2 := rfl
  have hwindow := hG.window
  rw [hpages] at hwindow
  have hL₃ : Loaded P s₀ (stackPages pgd) (fun _ => 0) s₃ := {
    contained := (hL.granted hG).contained
    rooms := (hL.granted hG).rooms
    data := by
      rw [hG.dataPages_eq hL.contained.inv, hpages]
      exact Set.subset_union_right }
  rw [ends_pgd_to_vpa hG.pgd_lt hG.pgd_window]
  exact ends_mono (prepare_initial_stack_spec entry_point hL₃ hwindow rfl) fun t s h => ⟨pgd, h⟩

/-! ## Segments -/

/-- The headers that the loop loads, up to the first that cannot be read. -/
def loadable (file : File) (hdr : ELF64Header) : (left i : ℕ) → List ELF64ProgramHeaderEntry
  | 0, _ => []
  | left + 1, i =>
    let off := hdr.phoff + UInt64.ofNat (i * hdr.phentsize.toNat)
    let (bytes, buf) := file.pread sizeof_ELF64ProgramHeaderEntry off
    if bytes ≠ 56 then []
    else
      let ent := ELF64ProgramHeaderEntry.ofBytes buf
      if ent.type = 1 then ent :: loadable file hdr left (i + 1)
      else loadable file hdr left (i + 1)

/-- The pages that a segment gets, where it gets any. -/
def ELF64ProgramHeaderEntry.pages (ent : ELF64ProgramHeaderEntry) : ℕ :=
  virt_pages (page_count ent.memsz)

/-- Segments that keep out of the kernel's half, and copy no more than there is room for: in the
block they ask for themselves, or in that of an earlier one where they start in it. It holds
whether or not there is memory for a block. -/
def SegmentsFit : (ℕ → ℕ) → List ELF64ProgramHeaderEntry → Prop
  | _, [] => True
  | room, ent :: ents =>
    ¬ KernelIndex (pml4_idx ent.vaddr) ∧
    if room (page_number ent.vaddr) ≠ 0 then
      CopyFits room ent.vaddr ent.filesz.toNat ∧ SegmentsFit room ents
    else
      OwnPages (page_number ent.vaddr) ent.pages ∧
      CopyFits (addBlock room (page_number ent.vaddr) ent.pages) ent.vaddr ent.filesz.toNat ∧
      SegmentsFit (addBlock room (page_number ent.vaddr) ent.pages) ents ∧
      SegmentsFit room ents

theorem is_mapped_spec {va : UInt64} (h : Loaded P s₀ D room s)
    (hva : ¬ KernelIndex (pml4_idx va)) :
    Ends (is_mapped va) s (fun r s' => (r = true ↔ room (page_number va) ≠ 0) ∧ s' = s) E := by
  unfold is_mapped
  rw [ends_bind]
  refine ends_mono (get_mapping_spec h.contained.inv hva) ?_
  rintro r s ⟨rfl, rfl⟩
  rw [ends_pure]
  refine ⟨?_, rfl⟩
  by_cases hroom : room (page_number va) = 0
  · rw [h.rooms.unmapped va hva hroom]
    simp [hroom]
  · obtain ⟨pa, frame, hpa, -⟩ := h.rooms.mapped va hva hroom
    rw [hpa]
    simp [hroom]

theorem load_segment_spec {file : File} {ent : ELF64ProgramHeaderEntry}
    {ents : List ELF64ProgramHeaderEntry} (h : Loaded P s₀ D room s)
    (hfit : SegmentsFit room (ent :: ents)) :
    Ends (load_segment P file ent) s (fun _ s' => ∃ room, Loaded P s₀ D room s' ∧
      SegmentsFit room ents) (Halted P s₀) := by
  obtain ⟨hva, hfit⟩ := hfit
  have hcopy : ∀ {room s}, Loaded P s₀ D room s → CopyFits room ent.vaddr ent.filesz.toNat →
      SegmentsFit room ents →
      Ends (copy_to ent.vaddr (file.pread ent.filesz ent.offset).2 ent.filesz) s
        (fun _ s' => ∃ room, Loaded P s₀ D room s' ∧ SegmentsFit room ents) (Halted P s₀) := by
    intro room s h hcopies hrest
    exact ends_mono (copy_to_spec _ h hva hcopies) fun _ s' hs' => ⟨room, hs', hrest⟩
  unfold load_segment
  rw [ends_bind]
  refine ends_mono (is_mapped_spec h hva) ?_
  rintro mapped s ⟨hmapped, rfl⟩
  split at hfit
  next hroom =>
    rw [hmapped.mpr hroom]
    simp only [Bool.not_true, Bool.false_eq_true, if_false, ends_bind, ends_pure]
    exact hcopy h hfit.1 hfit.2
  next hroom =>
    obtain ⟨hown, hcopies, hgranted, hrefused⟩ := hfit
    rw [not_ne_iff] at hroom
    have hfalse : mapped = false := by
      cases mapped with
      | false => rfl
      | true => exact absurd hroom (hmapped.mp rfl)
    subst hfalse
    simp only [Bool.not_false, if_true, ends_bind, ends_pure]
    refine ends_mono (allocate_virt_spec h hown) ?_
    rintro _ s₁ (h₁ | h₁)
    · exact hcopy h₁ (.inl hroom) hrefused
    · exact hcopy h₁ hcopies hgranted

theorem load_segments_spec {file : File} {hdr : ELF64Header} {left i : ℕ}
    (h : Loaded P s₀ D room s) (hfit : SegmentsFit room (loadable file hdr left i)) :
    Ends (load_segments P file hdr left i) s (fun _ s' => ∃ room, Loaded P s₀ D room s')
      (Halted P s₀) := by
  induction left generalizing room s i with
  | zero =>
    rw [load_segments, ends_pure]
    exact ⟨room, h⟩
  | succ left ih =>
    unfold load_segments
    unfold loadable at hfit
    dsimp only at hfit ⊢
    split at hfit
    next hshort =>
      rw [if_pos hshort, ends_pure]
      exact ⟨room, h⟩
    next hread =>
      rw [if_neg hread]
      split at hfit
      next htype =>
        simp only [htype, if_true, ends_bind]
        refine ends_mono (load_segment_spec h hfit) ?_
        rintro _ s₁ ⟨room₁, h₁, hrest⟩
        exact ih h₁ hrest
      next htype =>
        simp only [htype, if_false]
        exact ih h hfit

/-! ## The whole load -/

theorem user_stack_own :
    OwnPages (page_number 0x100000) (virt_pages (page_count 0x2000)) := by
  rw [show page_number 0x100000 = 0x100 by decide +kernel,
    show virt_pages (page_count 0x2000) = 2 by decide +kernel]
  unfold OwnPages
  decide

theorem cmdline_own : OwnPages (page_number cmdline_start) (virt_pages 1) := by
  rw [show page_number cmdline_start = 0x102 by decide +kernel,
    show virt_pages 1 = 1 by decide +kernel]
  unfold OwnPages
  decide

theorem allocate_user_stack_spec {t : ThreadContext} (h : Loaded P s₀ D room s)
    (ht : OnStack D t) : Ends (allocate_user_stack P t 0x100000 0x2000) s
      (fun _ s' => ∃ room, Loaded P s₀ D room s') (Halted P s₀) := by
  unfold allocate_user_stack
  rw [ends_bind]
  refine ends_mono (allocate_virt_spec h user_stack_own) ?_
  rintro _ s₁ (h₁ | h₁)
  · exact ends_mono (store_word_spec _ h₁ ht.rsp) fun _ s₂ h₂ => ⟨_, h₂⟩
  · exact ends_mono (store_word_spec _ h₁ ht.rsp) fun _ s₂ h₂ => ⟨_, h₂⟩

/-- A page of bytes fits wherever the page it goes to is mapped. -/
theorem copyFits_page {va : UInt64} {size : ℕ} (room : ℕ → ℕ) (hva : va.toNat % 4096 = 0)
    (hsize : size ≤ 4096) : CopyFits room va size := by
  unfold CopyFits
  omega

theorem load_cmdline_spec {t : ThreadContext} {cmdline : CmdLine} (h : Loaded P s₀ D room s)
    (ht : OnStack D t) (hlen : cmdline.length.toNat ≤ 4096) :
    Ends (load_cmdline P t cmdline) s (fun _ s' => ∃ room, Loaded P s₀ D room s')
      (Halted P s₀) := by
  unfold load_cmdline add_entry_argument
  refine ends_ite (fun _ => ?_) fun _ => ?_
  · have hva : ¬ KernelIndex (pml4_idx cmdline_start) := by decide +kernel
    have hcopy : ∀ {room s}, Loaded P s₀ D room s → Ends (do
        if ← copy_to cmdline_start cmdline.c_str cmdline.length then
          store_word (t.native_context + offset_rdi) cmdline_start
          pure true
        else pure false) s (fun _ s' => ∃ room, Loaded P s₀ D room s') (Halted P s₀) := by
      intro room s h
      rw [ends_bind]
      refine ends_mono (copy_to_spec _ h hva (copyFits_page room rfl hlen)) fun r s₁ h₁ => ?_
      refine ends_ite (fun _ => ?_) fun _ => ?_
      · rw [ends_bind]
        refine ends_mono (store_word_spec _ h₁ ht.rdi) fun _ s₂ h₂ => ?_
        exact ⟨room, h₂⟩
      · exact ⟨room, h₁⟩
    rw [ends_bind]
    refine ends_mono (allocate_virt_spec h cmdline_own) ?_
    rintro _ s₁ (h₁ | h₁)
    · exact hcopy h₁
    · exact hcopy h₁
  · rw [ends_bind]
    exact ends_mono (store_word_spec _ h ht.rdi) fun _ s₁ h₁ => ⟨room, h₁⟩

def File.header (file : File) : ELF64Header := ELF64Header.ofBytes (file.read sizeof_ELF64Header).2

def File.segments (file : File) : List ELF64ProgramHeaderEntry :=
  loadable file file.header file.header.phnum.toNat 0

theorem load_spec {template_pml4 : Template} {file : File} {cmdline : CmdLine} {mem : Memory}
    {a : α} (hsegments : SegmentsFit (fun _ => 0) file.segments)
    (hlen : cmdline.length.toNat ≤ 4096) :
    Ends (load P template_pml4 file cmdline) (start mem a)
      (fun _ => Spends P (start mem a)) (Halted P (start mem a)) := by
  unfold load
  dsimp only
  refine ends_ite (fun _ => .refl P _) fun _ => ?_
  refine ends_ite (fun _ => .refl P _) fun _ => ?_
  rw [ends_bind]
  refine ends_mono (new_Process_spec template_pml4 _ rfl) ?_
  rintro np s₁ ⟨pgd, hnp, h₁⟩
  rw [ends_bind]
  refine ends_mono (load_segments_spec h₁ hsegments) ?_
  rintro complete s₂ ⟨room₂, h₂⟩
  refine ends_ite (fun _ => ?_) fun _ => h₂.contained.spends
  rw [ends_bind]
  refine ends_mono (allocate_user_stack_spec h₂ hnp) ?_
  rintro _ s₃ ⟨room₃, h₃⟩
  rw [ends_bind]
  refine ends_mono (load_cmdline_spec h₃ hnp hlen) ?_
  rintro copied s₄ ⟨room₄, h₄⟩
  exact ends_ite (fun _ => h₄.contained.spends) fun _ => h₄.contained.spends

/-- Nothing was written but frames of the address space, which were free before, and no table that
the kernel's entries of the template lead to was changed. -/
structure Confined (P : PageSource α) (mem : Memory) (a : α) (template_pml4 : Template)
    (s : State α) : Prop where
  written : ∀ w ∈ s.written, ∀ y, w.1 ≤ y → y < w.1 + w.2 → y / 4096 ∈ s.owned
  owned : s.owned ⊆ P.free a
  kernel : ∀ level t, KernelTable mem template_pml4 level t → ∀ y, t ≤ y → y < t + 4096 →
    s.mem y = mem y

theorem confined_of_spends {template_pml4 : Template} {mem : Memory} {a : α}
    (h : Spends P (start mem a) s)
    (hkernel : ∀ level t, KernelTable mem template_pml4 level t → t / 4096 ∉ P.free a) :
    Confined P mem a template_pml4 s := by
  have howned : s.owned ⊆ P.free a := by
    have hnew_owned := h.new_owned
    rwa [owned_new (s := start mem a) rfl, Set.empty_union] at hnew_owned
  refine ⟨?_, howned, fun level t ht y hle hlt => ?_⟩
  · obtain ⟨l, hl, hin⟩ := h.wrote.recorded
    have hnone : (start mem a).written = [] := rfl
    rw [hl, hnone, List.append_nil]
    exact hin
  · refine h.wrote.elsewhere y fun hy => hkernel level t ht ?_
    obtain ⟨k, rfl⟩ := ht.aligned
    rw [show 4096 * k / 4096 = y / 4096 by omega]
    exact howned hy

/-- Loading any file whose segments fit is confined to the frames of the new process, also where it
stops midway. It only stops when the allocator refuses a block. -/
theorem load_confined (P : PageSource α) (mem : Memory) (a : α) (template_pml4 : Template)
    (file : File) (cmdline : CmdLine)
    (hkernel : ∀ level t, KernelTable mem template_pml4 level t → t / 4096 ∉ P.free a)
    (hsegments : SegmentsFit (fun _ => 0) file.segments) (hlen : cmdline.length.toNat ≤ 4096) :
    Ends (load P template_pml4 file cmdline) (start mem a)
      (fun _ => Confined P mem a template_pml4)
      fun e => Confined P mem a template_pml4 e.state ∧ Refused P a e := by
  refine ends_weaken (load_spec hsegments hlen) (fun _ s hs => ?_) fun e he => ⟨?_, he.refused⟩
  · exact confined_of_spends hs hkernel
  · exact confined_of_spends he.spends hkernel

/-- So it is on a machine that has booted, with the kernel's own page allocator and after any
calls to it. -/
theorem load_booted {mm : Mm.MemoryManager} {img : Mm.KernelImage} {s₀ s : Buddy.State}
    {cs : List Mm.PageCall} (hmarked : ∀ i ∈ Mm.marked mm img, i < mm.nr_pages.toNat)
    (hfound : (Mm.lookup_phys_block mm (img._HEAP_START - Mm.KERNEL_VMEM_START)).isSome)
    (hphysical : mm.nr_pages.toNat ≤ 2 ^ 52) (hs : (Mm.pageSystem mm img).start s₀)
    (hr : (Mm.pageSystem mm img).Run s₀ cs s) {mem : Memory} {template_pml4 : Template}
    {file : File} {cmdline : CmdLine}
    (hkernel : ∀ level t, KernelTable mem template_pml4 level t → ¬ Buddy.FreePage s.mem (t / 4096))
    (hsegments : SegmentsFit (fun _ => 0) file.segments) (hlen : cmdline.length.toNat ≤ 4096) :
    ∃ a : Pgalloc mm.nr_pages.toNat, a.1 = s ∧
      Ends (load (pgalloc _) template_pml4 file cmdline) (start mem a)
        (fun _ => Confined (pgalloc _) mem a template_pml4)
        fun e => Confined (pgalloc _) mem a template_pml4 e.state ∧ Refused (pgalloc _) a e := by
  refine ⟨⟨s, running_of_run hmarked hfound hphysical hs hr⟩, rfl, ?_⟩
  refine ends_weaken (load_spec hsegments hlen) (fun _ t ht => ?_) fun e he => ⟨?_, he.refused⟩
  · exact confined_of_spends ht hkernel
  · exact confined_of_spends he.spends hkernel

/-! ## Files that fit, and files that do not -/

/-- A file of `len` bytes. -/
def File.ofBytes (content : Memory) (len : ℕ) : File where
  read size := (Int32.ofNat (min size.toNat len), content)
  pread size off :=
    (Int32.ofNat (min size.toNat (len - off.toNat)), fun i => content (off.toNat + i))

/-- An executable with one program header, behind its own header. -/
def oneSegment (vaddr filesz memsz : UInt64) : File :=
  let fields : List (ℕ × ℕ × ℕ) :=
    [(0, 4, 0x464c457f), (4, 1, 2), (5, 1, 1), (16, 2, 2), (18, 2, 0x3e), (20, 4, 1), (32, 8, 64),
      (54, 2, 56), (56, 2, 1), (64, 4, 1), (80, 8, vaddr.toNat), (96, 8, filesz.toNat),
      (104, 8, memsz.toNat)]
  File.ofBytes (fields.foldl (fun m f => store m f.1 f.2.1 f.2.2) fun _ => 0) 120

def bootTemplate : Template := ⟨4096 * 16, by decide⟩

def bootMemory : Memory := reinitialise_pgt 16 fun _ => 0

theorem boot_kept {a : ℕ} (ha : 32 ≤ a) (level t : ℕ)
    (h : KernelTable bootMemory bootTemplate level t) : t / 4096 ∉ inOrder.free a := by
  obtain ⟨k, rfl, hk⟩ := kernelTable_pages (by decide) rfl h
  rintro ⟨-, hle, -⟩
  omega

theorem oneSegment_segments :
    (oneSegment 0x400000 120 0x1800).segments = [⟨1, 0, 0x400000, 120, 0x1800⟩] := by
  decide +kernel

theorem oneSegment_fits : SegmentsFit (fun _ => 0) (oneSegment 0x400000 120 0x1800).segments := by
  rw [oneSegment_segments]
  unfold SegmentsFit
  refine ⟨by decide +kernel, ?_⟩
  rw [if_neg (by decide)]
  unfold OwnPages CopyFits
  exact ⟨by decide +kernel, by decide +kernel, trivial, trivial⟩

theorem loaded_of_run {r : Except (Halt α) (Option ThreadContext × State α)}
    (h : (r.toOption.bind Prod.fst).isSome) : ∃ t s, r = .ok (some t, s) := by
  cases r with
  | error _ => cases h
  | ok r =>
    obtain ⟨t, s⟩ := r
    cases t with
    | none => cases h
    | some t => exact ⟨t, s, rfl⟩

/-- The load stopped after some writes. -/
def halted_late {β : Type} : Except (Halt α) β → Bool
  | .error e => !e.state.written.isEmpty
  | .ok _ => false

theorem halted_of_run {β : Type} {r : Except (Halt α) β} (h : halted_late r = true) :
    ∃ e, r = .error e ∧ e.state.written ≠ [] := by
  cases r with
  | error e =>
    refine ⟨e, rfl, fun hnone => ?_⟩
    simp [halted_late, hnone] at h
  | ok _ => cases h

/-- One load that returns a process, and one that comes to the end of the frames when the root
and the stack of the main thread are made. -/
theorem load_confined_one :
    (∃ t s, load inOrder bootTemplate (oneSegment 0x400000 120 0x1800) ⟨5, fun _ => 97⟩
      (start bootMemory 32) = .ok (some t, s) ∧
        Confined inOrder bootMemory 32 bootTemplate s) ∧
    ∃ e, load inOrder bootTemplate (oneSegment 0x400000 120 0x1800) ⟨5, fun _ => 97⟩
      (start bootMemory (2 ^ 20 - 4)) = .error e ∧
        Confined inOrder bootMemory (2 ^ 20 - 4) bootTemplate e.state ∧ e.state.written ≠ [] := by
  have hboot := load_confined inOrder bootMemory 32 bootTemplate _ ⟨5, fun _ => 97⟩
    (boot_kept (by omega)) oneSegment_fits (by decide)
  have hlate := load_confined inOrder bootMemory (2 ^ 20 - 4) bootTemplate _ ⟨5, fun _ => 97⟩
    (boot_kept (by omega)) oneSegment_fits (by decide)
  have hreturns : ((load inOrder bootTemplate (oneSegment 0x400000 120 0x1800)
      ⟨5, fun _ => 97⟩ (start bootMemory 32)).toOption.bind Prod.fst).isSome := by decide +kernel
  have hstops : halted_late (load inOrder bootTemplate (oneSegment 0x400000 120 0x1800)
      ⟨5, fun _ => 97⟩ (start bootMemory (2 ^ 20 - 4))) = true := by decide +kernel
  obtain ⟨t, s, hload⟩ := loaded_of_run hreturns
  obtain ⟨e, hstop, hwrote⟩ := halted_of_run hstops
  unfold Ends at hboot hlate
  rw [hload] at hboot
  rw [hstop] at hlate
  exact ⟨⟨t, s, hload, hboot⟩, e, hstop, hlate.1, hwrote⟩

/-- Some write ended in a page that the address space was not given. -/
def strays (s : State α) : Bool :=
  s.written.any fun w => decide (0 < w.2) && s._page_allocations.all fun a =>
    !decide (a.descriptor_base ≤ (w.1 + w.2 - 1) / 4096 ∧
      (w.1 + w.2 - 1) / 4096 < a.descriptor_base + block_pages a.allocation_order)

theorem not_confined {mem : Memory} {a : α} {template_pml4 : Template} (h : strays s = true) :
    ¬ Confined P mem a template_pml4 s := by
  intro hc
  obtain ⟨w, hw, hstray⟩ := List.any_eq_true.mp h
  rw [Bool.and_eq_true, decide_eq_true_iff] at hstray
  obtain ⟨b, hb, hin⟩ := hc.written w hw (w.1 + w.2 - 1) (by omega) (by omega)
  have := List.all_eq_true.mp hstray.2 b hb
  simp [hin] at this

/-- The load of a file and a command line of `len` bytes returns a process, and has strayed. -/
def Strays (file : File) (len : UInt64) : Prop :=
  ∃ t s, load inOrder bootTemplate file ⟨len, fun _ => 97⟩ (start bootMemory 32) =
    .ok (some t, s) ∧ ¬ Confined inOrder bootMemory 32 bootTemplate s

theorem strays_of_run {file : File} {len : UInt64}
    (h : (match load inOrder bootTemplate file ⟨len, fun _ => 97⟩ (start bootMemory 32) with
      | .ok (some _, s) => strays s
      | _ => false) = true) : Strays file len := by
  unfold Strays
  split at h
  next t s hrun => exact ⟨t, s, hrun, not_confined h⟩
  next => cases h

/-- The table behind the entry 0x100 of the template. -/
theorem kernelTable_pdp1 : KernelTable bootMemory bootTemplate 3 0x12000 := by
  have hi : KernelIndex 0x100 := .inl rfl
  have h : KernelTable bootMemory bootTemplate 3 _ := .top hi (by decide +kernel)
  rwa [show (entry bootMemory bootTemplate.base 0x100).base_address.toNat = 0x12000 by
    decide +kernel] at h

/-- The load of a file returns a process, and has changed a table of the kernel. -/
def ChangesKernelTable (file : File) : Prop :=
  ∃ t s, load inOrder bootTemplate file ⟨0, fun _ => 97⟩ (start bootMemory 32) =
    .ok (some t, s) ∧ ∃ y, 0x12000 ≤ y ∧ y < 0x12000 + 4096 ∧ s.mem y ≠ bootMemory y

/-- An address right behind the window has an empty entry in the kernel's own table. -/
theorem changes_behind_window : ChangesKernelTable (oneSegment 0xFFFF800100000000 0 0x1000) := by
  have hrun : (match load inOrder bootTemplate (oneSegment 0xFFFF800100000000 0 0x1000)
      ⟨0, fun _ => 97⟩ (start bootMemory 32) with
    | .ok (some _, s) => s.mem 0x12020 != bootMemory 0x12020
    | _ => false) = true := by decide +kernel
  unfold ChangesKernelTable
  split at hrun
  next t s hload => exact ⟨t, s, hload, 0x12020, by decide, by decide, by simpa using hrun⟩
  next => cases hrun

/-- A segment behind the window in the kernel's half, a segment with more bytes in the file than
in memory, and a command line of more than a page. -/
theorem load_strays :
    KernelTable bootMemory bootTemplate 3 0x12000 ∧
      ChangesKernelTable (oneSegment 0xFFFF800100000000 0 0x1000) ∧
      Strays (oneSegment 0xFFFF800100000000 0 0x1000) 0 ∧
      Strays (oneSegment 0x400000 0x10000 0x1000) 0 ∧
      Strays (oneSegment 0x400000 0 0x1000) 0x1001 :=
  ⟨kernelTable_pdp1, changes_behind_window, strays_of_run (by decide +kernel),
    strays_of_run (by decide +kernel), strays_of_run (by decide +kernel)⟩

end Infos.Exec
