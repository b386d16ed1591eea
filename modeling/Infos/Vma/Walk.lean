import Infos.Vma.Kernel
import Infos.Vma.Virt

/-!
# The walk of the processor

The processor looks a virtual address up in the tables that CR3 points to. It checks what the
software does not: that the address is canonical, that every entry on the way allows the access, and
that an entry above the last level does not map memory itself.
-/

open Infos.Bytes Infos.Prog Infos.Radix

namespace Infos.Vma

/-! ## Four levels of tables -/

namespace MMUTableEntry

variable (e : MMUTableEntry)

def writable : Bool := e.get_flag .WRITABLE

def user : Bool := e.get_flag .ALLOW_USER

/-- Bits 12 to 51. -/
def frame : ℕ := e.bits.toNat % 2 ^ 52 / 4096

end MMUTableEntry

/-- What the processor finds for an address. -/
structure Page where
  pa : ℕ
  user : Bool
  writable : Bool
  deriving DecidableEq, Repr

/-- An entry of the level covers so many bytes. -/
def reach (level : ℕ) : ℕ := 2 ^ (12 + 9 * level)

/-- The entry maps all that it covers. -/
def MMUTableEntry.page (e : MMUTableEntry) (va : UInt64) (level : ℕ) : Page where
  pa := 4096 * e.frame / reach level * reach level + va.toNat % reach level
  user := e.user
  writable := e.writable

def Page.behind (p : Page) (e : MMUTableEntry) : Page :=
  { p with user := e.user && p.user, writable := e.writable && p.writable }

/-- The walk from a table of the level on. Entries of the top level map nothing themselves. -/
def walk_from (mem : Memory) (va : UInt64) : (level table : ℕ) → Option Page
  | 0, table =>
    let e := entry mem table (va.toNat / reach 0 % 512)
    if e.present then some (e.page va 0) else none
  | level + 1, table =>
    let e := entry mem table (va.toNat / reach (level + 1) % 512)
    if e.present = false then none
    else if e.huge then if level < 2 then some (e.page va (level + 1)) else none
    else (walk_from mem va level (4096 * e.frame)).map (·.behind e)

/-- Bits 47 to 63 are the same. -/
def Canonical (va : UInt64) : Prop := va.toNat < 2 ^ 47 ∨ 2 ^ 64 - 2 ^ 47 ≤ va.toNat

instance (va : UInt64) : Decidable (Canonical va) := inferInstanceAs (Decidable (_ ∨ _))

def walk_pages (mem : Memory) (cr3 va : UInt64) : Option Page :=
  if Canonical va then walk_from mem va 3 (4096 * (MMUTableEntry.mk cr3).frame) else none

/-! ## Entries that `VMA` makes -/

/-- Empty, or present, writable and for the user. -/
def MMUTableEntry.Plain (e : MMUTableEntry) : Prop := e.flags = 0 ∨ e.flags = 7

namespace MMUTableEntry

variable {e : MMUTableEntry}

theorem flags_set_flag (f : MMUTableEntryFlags) :
    (e.set_flag f true).flags = (e.flags ||| f.mask) &&& 0xfff := flags_set_flags _ _

theorem flags_set_table (h : e.Plain) (pa : UInt64) : (e.set_table pa).flags = 7 := by
  unfold set_table set_user set_writable set_present
  simp only [flags_set_flag, flags_set_base]
  rcases h with h | h <;> rw [h] <;> rfl

theorem flags_set_mapping (h : e.Plain) (pa : UInt64) :
    (e.set_mapping pa ⟨true, true, true⟩).flags = 7 := by
  unfold set_mapping set_user set_writable set_present
  simp only [if_true, flags_set_flag, flags_set_base]
  rcases h with h | h <;> rw [h] <;> rfl

theorem plain_zero : (⟨0⟩ : MMUTableEntry).Plain := .inl rfl

theorem Plain.flags_eq (h : e.Plain) (hpresent : e.present = true) : e.flags = 7 := by
  refine h.resolve_left fun hzero => ?_
  unfold present get_flag at hpresent
  rw [hzero] at hpresent
  cases hpresent

theorem user_of_flags (h : e.flags = 7) : e.user = true ∧ e.writable = true ∧ e.huge = false := by
  unfold user writable huge get_flag
  rw [h]
  exact ⟨rfl, rfl, rfl⟩

theorem frame_eq (h : e.base_address.toNat < 2 ^ 52) : 4096 * e.frame = e.base_address.toNat := by
  unfold base_address frame at *
  rw [high_toNat] at *
  have := e.bits.toNat_lt
  omega

end MMUTableEntry

theorem Page.behind_open (p : Page) {e : MMUTableEntry} (h : e.flags = 7) : p.behind e = p := by
  obtain ⟨huser, hwritable, -⟩ := MMUTableEntry.user_of_flags h
  unfold Page.behind
  rw [huser, hwritable, Bool.true_and, Bool.true_and]

variable {α : Type} {P : PageSource α} {s s' : State α} {va : UInt64}

/-- Every entry that the process has for itself is plain. -/
def Plain (s : State α) : Prop :=
  ∀ p t i, p.length ≤ 3 → s.table p = some t → Follows s._pgt_virt_base t i → (entry s.mem t i).Plain

/-! ## A process's own addresses -/

theorem idx_eq (va : UInt64) : pml4_idx va = va.toNat / reach 3 % 512 ∧
    pdp_idx va = va.toNat / reach 2 % 512 ∧ pd_idx va = va.toNat / reach 1 % 512 ∧
    pt_idx va = va.toNat / reach 0 % 512 := by
  unfold reach
  rw [pml4_idx_eq, pdp_idx_eq, pd_idx_eq, pt_idx_eq, page_number]
  omega

/-- One step of the walk goes where the path goes. -/
theorem Inv.walk_step (hI : Inv P s) (hp : Plain s) {p : List ℕ} {t level : ℕ}
    (hlen : p.length < 3) (ht : s.table p = some t)
    (hf : Follows s._pgt_virt_base t (va.toNat / reach (level + 1) % 512)) :
    walk_from s.mem va (level + 1) t =
      (s.table (p ++ [va.toNat / reach (level + 1) % 512])).bind (walk_from s.mem va level) := by
  have htidy := hI.tidy p t _ hlen ht hf
  have hplain := hp p t _ hlen.le ht hf
  rw [walk_from]
  by_cases hpresent : (entry s.mem t (va.toNat / reach (level + 1) % 512)).present = true
  · have hflags := hplain.flags_eq hpresent
    obtain ⟨hstep, hlt⟩ := hI.step_table hlen ht hf (htidy.mp hpresent)
    have hbase : 4096 * (entry s.mem t (va.toNat / reach (level + 1) % 512)).frame =
        (entry s.mem t (va.toNat / reach (level + 1) % 512)).base_address.toNat :=
      MMUTableEntry.frame_eq (hlt.trans (by decide))
    rw [if_neg (by rw [hpresent]; decide), (MMUTableEntry.user_of_flags hflags).2.2,
      if_neg (by decide), hstep, Option.bind_some, hbase]
    have hsame : (fun q : Page => q.behind (entry s.mem t (va.toNat / reach (level + 1) % 512))) =
        id := funext fun q => q.behind_open hflags
    rw [hsame, Option.map_id_fun, id_eq]
  · have hempty : (entry s.mem t (va.toNat / reach (level + 1) % 512)).base_address = 0 := by
      by_contra hne
      exact hpresent (htidy.mpr hne)
    rw [if_pos (by simpa using hpresent)]
    unfold State.table at ht ⊢
    rw [walk_concat, ht, Option.bind_some, next_none hempty]
    rfl

theorem Inv.walk_last (hp : Plain s) {t : ℕ} (ht : s.table (path va) = some t)
    (hf : Follows s._pgt_virt_base t (pt_idx va))
    (hphysical : ∀ pa, (entry s.mem t (pt_idx va)).translation va = some pa → pa.toNat < 2 ^ 52) :
    walk_from s.mem va 0 t =
      ((entry s.mem t (pt_idx va)).translation va).map fun pa => ⟨pa.toNat, true, true⟩ := by
  have hplain := hp _ t _ (path_length va).le ht hf
  rw [walk_from, ← (idx_eq va).2.2.2]
  unfold MMUTableEntry.translation at hphysical ⊢
  split
  next hpresent =>
    obtain ⟨huser, hwritable, -⟩ := MMUTableEntry.user_of_flags (hplain.flags_eq hpresent)
    have hjoin := join_toNat (MMUTableEntry.base_aligned (entry s.mem t (pt_idx va))) va
    have hlt := hphysical _ (if_pos hpresent)
    rw [hjoin] at hlt
    have hframe := MMUTableEntry.frame_eq (e := entry s.mem t (pt_idx va)) (by omega)
    have hzero : reach 0 = 4096 := rfl
    rw [Option.map_some, hjoin]
    unfold MMUTableEntry.page
    rw [huser, hwritable, hframe, hzero, Nat.div_mul_cancel (MMUTableEntry.base_aligned _)]
  next => rfl

/-- CR3 points to the top table. -/
theorem Inv.root_frame (hI : Inv P s) (hcr3 : s._pgt_phys_base.toNat = s._pgt_virt_base) :
    4096 * (MMUTableEntry.mk s._pgt_phys_base).frame = s._pgt_virt_base := by
  have hwindow := hI.window (root_isTable s)
  have haligned := hI.aligned (root_isTable s)
  have hsize : PMEM_VA_SIZE = 2 ^ 32 := rfl
  unfold MMUTableEntry.frame
  dsimp only
  rw [hcr3]
  omega

/-- The processor finds what `get_mapping` finds. -/
theorem Inv.walk_eq (hI : Inv P s) (hp : Plain s) (hcr3 : s._pgt_phys_base.toNat = s._pgt_virt_base)
    (hva : ¬ KernelIndex (pml4_idx va)) (hcanonical : Canonical va)
    (hphysical : ∀ pa, s.translate va = some pa → pa.toNat < 2 ^ 52) :
    walk_pages s.mem s._pgt_phys_base va =
      (s.translate va).map fun pa => ⟨pa.toNat, true, true⟩ := by
  obtain ⟨h3, h2, h1, -⟩ := idx_eq va
  have hroot : s.table [] = some s._pgt_virt_base := rfl
  have hf₃ := hI.follows_root hva
  rw [h3] at hf₃
  unfold walk_pages State.translate at *
  rw [if_pos hcanonical, hI.root_frame hcr3, hI.walk_step hp (by simp) hroot hf₃, List.nil_append, ← h3]
  cases hpdp : s.table [pml4_idx va] with
  | none =>
    rw [show path va = [pml4_idx va] ++ [pdp_idx va, pd_idx va] from rfl, table_of_none hpdp]
    rfl
  | some pdp =>
    have hf₂ := hI.follows_below hpdp (by simp) (by simp) (pdp_idx_lt va)
    rw [h2] at hf₂
    rw [Option.bind_some, hI.walk_step hp (by simp) hpdp hf₂, ← h2, List.singleton_append]
    cases hpd : s.table [pml4_idx va, pdp_idx va] with
    | none =>
      rw [show path va = [pml4_idx va, pdp_idx va] ++ [pd_idx va] from rfl, table_of_none hpd]
      rfl
    | some pd =>
      have hf₁ := hI.follows_below hpd (by simp) (by simp) (pd_idx_lt va)
      rw [h1] at hf₁
      rw [Option.bind_some, hI.walk_step hp (by simp) hpd hf₁, ← h1]
      have hpath : s.table ([pml4_idx va, pdp_idx va] ++ [pd_idx va]) = s.table (path va) := rfl
      rw [hpath]
      cases hpt : s.table (path va) with
      | none => rfl
      | some pt =>
        have hf₀ := hI.follows_below hpt (path_length va).le (by simp [path]) (pt_idx_lt va)
        rw [Option.bind_some, Option.bind_some]
        refine Inv.walk_last hp hpt hf₀ fun pa hpa => hphysical pa ?_
        rw [hpt, Option.bind_some, hpa]

end Infos.Vma
