import Infos.Arch.MemoryMap
import Infos.Vma.Frames
import Infos.Vma.Isolation

/-!
# What a program can reach of the machine's memory

The page allocator of a machine has gone through a run since `mm_init`. Its pages are those that
the loader reported, and no program is ever given another one.
-/

open Infos.Blocks Infos.Buddy Infos.Bytes Infos.Mm Infos.Arch.MemoryMap

namespace Infos.Vma

variable {α : Type} {P : PageSource α} {K : KernelPages} {m m' : Machine α}

/-! ## A set that all pages are from -/

/-- Every page that a process was given is in the set. -/
def OwnedIn (B : Set ℕ) (m : Machine α) : Prop := ∀ v ∈ m.spaces, v.owned ⊆ B

theorem OwnedIn.step {B : Set ℕ} (hfree : ∀ a, P.free a ⊆ B) (h : OwnedIn B m) (hsafe : Safe P K m)
    {e : Event α} (ha : e.Allowed P K m) (hs : e.step P K m = .ok m') : OwnedIn B m' := by
  obtain ⟨s, -, hc, rfl⟩ | ⟨i, v, s, -, hv, -, hadv, rfl⟩ | ⟨-, rfl⟩ | ⟨mem, a, -, rfl⟩ :=
    hsafe.step_cases ha hs
  · intro w hw
    rcases List.mem_append.mp hw with hold | hnew
    · exact h w hold
    · rw [List.mem_singleton.mp hnew]
      exact fun p hp => hfree _ (hc.contained.owned rfl hp)
  · intro w hw
    rcases List.mem_or_eq_of_mem_set hw with hold | rfl
    · exact h w hold
    · intro p hp
      rcases hadv.new_owned hp with hold | hnew
      · exact h v (List.mem_of_getElem? hv) hold
      · exact hfree _ hnew
  · exact h
  · exact h

section Booted

variable {mem : Memory} {ebx : UInt32} {mm : MemoryManager} {img : KernelImage}

/-- The state is one of a run that `init` has started. -/
def SinceBoot (mm : MemoryManager) (img : KernelImage) (a : Pgalloc mm.nr_pages.toNat) : Prop :=
  (pageSystem mm img).Reachable a.1

theorem SinceBoot.alloc {order : Int} {a a' : Pgalloc mm.nr_pages.toNat} {r : Option ℕ}
    (hr : pgalloc_alloc order a = .ok (r, a')) (h : SinceBoot mm img a) : SinceBoot mm img a' := by
  unfold pgalloc_alloc at hr
  split at hr
  next ho =>
    split at hr
    next => cases hr
    next =>
      cases hr
      exact h
    next pfn mem' he =>
      cases hr
      refine h.step (c := .alloc_pages order) ho ?_
      show page_step mm.nr_pages.toNat a.1 (.alloc_pages order) = _
      simp only [page_step, he]
      rfl
  next => cases hr

end Booted

/-! ### A machine with one process -/

end Infos.Vma
