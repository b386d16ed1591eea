import Mathlib.Logic.Function.Basic
import Mathlib.Data.List.Basic
import Mathlib.Data.List.Induction
import Mathlib.Tactic.Common

/-!
# `X86Context`

Memory is made of words of eight bytes, each at the address of its first byte.
-/

namespace Infos.Arch

inductive Reg where
  | rax | rbx | rcx | rdx | rsi | rdi | rbp | r8 | r9 | r10 | r11 | r12 | r13 | r14 | r15
  deriving DecidableEq, Repr

structure Cpu where
  gpr : Reg → ℕ
  rip : ℕ
  cs : ℕ
  rflags : ℕ
  rsp : ℕ
  ss : ℕ

/-- The privilege level is in the last bits of `cs`. -/
def Cpu.User (c : Cpu) : Prop := c.cs % 4 = 3

instance (c : Cpu) : Decidable c.User := inferInstanceAs (Decidable (_ = _))

inductive Field where
  | previous_context
  | gpr (r : Reg)
  | extra | rip | cs | rflags | rsp | ss
  deriving DecidableEq

/-- The fields in their order. -/
def X86Context : List Field :=
  [.previous_context, .gpr .r15, .gpr .r14, .gpr .r13, .gpr .r12, .gpr .r11, .gpr .r10, .gpr .r9,
    .gpr .r8, .gpr .rbp, .gpr .rdi, .gpr .rsi, .gpr .rdx, .gpr .rcx, .gpr .rbx, .gpr .rax,
    .extra, .rip, .cs, .rflags, .rsp, .ss]

def X86Context.offset (f : Field) : ℕ := 8 * X86Context.idxOf f

/-- The fields of the context of `c`. -/
def Cpu.field (c : Cpu) (previous_context extra : ℕ) : Field → ℕ
  | .previous_context => previous_context
  | .gpr r => c.gpr r
  | .extra => extra
  | .rip => c.rip
  | .cs => c.cs
  | .rflags => c.rflags
  | .rsp => c.rsp
  | .ss => c.ss

/-- A stack pointer and the memory. -/
structure Stack where
  sp : ℕ
  mem : ℕ → ℕ

def push (s : Stack) (v : ℕ) : Stack := ⟨s.sp - 8, Function.update s.mem (s.sp - 8) v⟩

def push_all (ws : List ℕ) (s : Stack) : Stack := ws.foldl push s

/-- `pop` into a register. -/
def pop_reg (mem : ℕ → ℕ) (c : Cpu) (r : Reg) : Cpu :=
  { c with gpr := Function.update c.gpr r (mem c.rsp), rsp := c.rsp + 8 }

def pop_all (mem : ℕ → ℕ) (rs : List Reg) (c : Cpu) : Cpu := rs.foldl (pop_reg mem) c

/-- All five are popped, also when the privilege level stays. -/
def iretq (mem : ℕ → ℕ) (c : Cpu) : Cpu :=
  { c with rip := mem c.rsp, cs := mem (c.rsp + 8), rflags := mem (c.rsp + 16),
           rsp := mem (c.rsp + 24), ss := mem (c.rsp + 32) }

variable {s : Stack} {ws : List ℕ} {mem mem' : ℕ → ℕ} {p v : ℕ} {val : Field → ℕ} {c : Cpu}

theorem push_all_append (vs ws : List ℕ) : push_all (vs ++ ws) s = push_all ws (push_all vs s) :=
  List.foldl_append

theorem push_all_sp : (push_all ws s).sp = s.sp - 8 * ws.length := by
  induction ws using List.reverseRecOn with
  | nil => rfl
  | append_singleton ws v ih =>
    rw [push_all_append, List.length_append, List.length_singleton]
    show (push_all ws s).sp - 8 = _
    omega

/-- What is not below the stack pointer stays. -/
theorem push_all_above {a : ℕ} (hlen : 8 * ws.length ≤ s.sp)
    (ha : s.sp ≤ a ∨ a < s.sp - 8 * ws.length) : (push_all ws s).mem a = s.mem a := by
  induction ws using List.reverseRecOn with
  | nil => rfl
  | append_singleton ws v ih =>
    rw [List.length_append, List.length_singleton] at hlen ha
    rw [push_all_append]
    show Function.update (push_all ws s).mem ((push_all ws s).sp - 8) v a = _
    rw [push_all_sp, Function.update_of_ne (by omega), ih (by omega) (by omega)]

theorem push_all_at {k : ℕ} (hk : k < ws.length) (hlen : 8 * ws.length ≤ s.sp) :
    (push_all ws s).mem (s.sp - 8 * (k + 1)) = ws[k] := by
  induction ws using List.reverseRecOn with
  | nil => simp at hk
  | append_singleton ws v ih =>
    rw [List.length_append, List.length_singleton] at hk hlen
    rw [push_all_append]
    show Function.update (push_all ws s).mem ((push_all ws s).sp - 8) v _ = _
    rw [push_all_sp]
    rcases Nat.lt_succ_iff_lt_or_eq.mp hk with hk | rfl
    · rw [Function.update_of_ne (by omega), ih hk (by omega), List.getElem_append_left hk]
    · have ha : s.sp - 8 * (ws.length + 1) = s.sp - 8 * ws.length - 8 := by omega
      rw [ha, Function.update_self]
      simp

/-! ## Contexts in memory -/

theorem mem_fields (f : Field) : f ∈ X86Context := by
  cases f with
  | gpr r => cases r <;> decide
  | _ => decide

theorem idxOf_lt (f : Field) : X86Context.idxOf f < 22 := List.idxOf_lt_length_of_mem (mem_fields f)

theorem offset_inj {f g : Field} (h : X86Context.offset f = X86Context.offset g) : f = g := by
  unfold X86Context.offset at h
  exact (List.idxOf_inj (mem_fields f)).mp (Nat.eq_of_mul_eq_mul_left (by decide) h)

theorem offset_lt (f : Field) : X86Context.offset f < 176 := by
  have := idxOf_lt f
  unfold X86Context.offset
  omega

/-- A context lies at the address. -/
def Stored (mem : ℕ → ℕ) (p : ℕ) (val : Field → ℕ) : Prop :=
  ∀ f, mem (p + X86Context.offset f) = val f

theorem Stored.congr (h : Stored mem p val) (hm : ∀ a, p ≤ a → a < p + 176 → mem' a = mem a) :
    Stored mem' p val := by
  intro f
  have := offset_lt f
  rw [hm _ (by omega) (by omega), h f]

theorem Stored.update (h : Stored mem p val) (f : Field) :
    Stored (Function.update mem (p + X86Context.offset f) v) p (Function.update val f v) := by
  intro g
  by_cases hg : g = f
  · subst hg
    rw [Function.update_self, Function.update_self]
  · have hne : p + X86Context.offset g ≠ p + X86Context.offset f := fun he =>
      hg (offset_inj (Nat.add_left_cancel he))
    rw [Function.update_of_ne hne, Function.update_of_ne hg, h g]

/-- The fields are pushed in reverse. -/
theorem stored_push_all (hws : ws.reverse = X86Context.map val) (hsp : 176 ≤ s.sp) :
    Stored (push_all ws s).mem (s.sp - 176) val := by
  intro f
  have hj := idxOf_lt f
  have hlen : ws.length = 22 := by
    rw [← List.length_reverse, hws, List.length_map]
    rfl
  have ha : s.sp - 176 + X86Context.offset f =
      s.sp - 8 * (ws.length - 1 - X86Context.idxOf f + 1) := by
    unfold X86Context.offset
    omega
  have hk : ws.length - 1 - X86Context.idxOf f < ws.length := by omega
  rw [ha, push_all_at hk (by omega)]
  have hlt : X86Context.idxOf f < ws.reverse.length := by
    rw [List.length_reverse]
    omega
  have hrev : ws.reverse[X86Context.idxOf f] = ws[ws.length - 1 - X86Context.idxOf f] :=
    List.getElem_reverse hlt
  rw [← hrev]
  simp only [hws, List.getElem_map]
  exact congrArg val (List.getElem_idxOf _)

/-! ## Registers from memory -/

theorem pop_all_rsp {rs : List Reg} : (pop_all mem rs c).rsp = c.rsp + 8 * rs.length := by
  unfold pop_all
  induction rs generalizing c with
  | nil => rfl
  | cons r rs ih =>
    rw [List.foldl_cons, ih, List.length_cons]
    show c.rsp + 8 + _ = _
    omega

theorem pop_all_gpr {rs : List Reg} {r : Reg} (hrs : rs.Nodup) : (pop_all mem rs c).gpr r =
    if r ∈ rs then mem (c.rsp + 8 * rs.idxOf r) else c.gpr r := by
  unfold pop_all
  induction rs generalizing c with
  | nil => rfl
  | cons x rs ih =>
    rw [List.nodup_cons] at hrs
    rw [List.foldl_cons, ih hrs.2]
    by_cases hx : r = x
    · subst hx
      simp [hrs.1, pop_reg]
    · simp only [List.mem_cons, hx, false_or, List.idxOf_cons_ne rs (Ne.symm hx)]
      have ha : (pop_reg mem c x).rsp + 8 * rs.idxOf r = c.rsp + 8 * (rs.idxOf r).succ := by
        show c.rsp + 8 + _ = _
        omega
      rw [ha]
      split
      · rfl
      · exact Function.update_of_ne hx _ _

/-- The registers in the order in which they are popped. -/
def popped : List Reg :=
  [.r15, .r14, .r13, .r12, .r11, .r10, .r9, .r8, .rbp, .rdi, .rsi, .rdx, .rcx, .rbx, .rax]

theorem offset_gpr (r : Reg) : X86Context.offset (.gpr r) = 8 + 8 * popped.idxOf r := by
  cases r <;> rfl

theorem mem_popped (r : Reg) : r ∈ popped := by
  cases r <;> decide

/-- What is popped from a context are its registers. -/
theorem Stored.pop {previous_context extra : ℕ} {c' : Cpu}
    (h : Stored mem p (c.field previous_context extra)) (hrsp : c'.rsp = p + 8) :
    iretq mem { pop_all mem popped c' with rsp := (pop_all mem popped c').rsp + 8 } = c := by
  have hsp : (pop_all mem popped c').rsp + 8 = p + 136 := by
    rw [pop_all_rsp, hrsp]
    show p + 8 + 8 * 15 + 8 = _
    omega
  have hgpr : (pop_all mem popped c').gpr = c.gpr := by
    funext r
    rw [pop_all_gpr (by decide), if_pos (mem_popped r), hrsp, Nat.add_assoc, ← offset_gpr]
    exact h (.gpr r)
  unfold iretq
  simp only [hsp, hgpr, Nat.add_assoc]
  have hrip : mem (p + 136) = c.rip := h .rip
  have hcs : mem (p + 144) = c.cs := h .cs
  have hrflags : mem (p + 152) = c.rflags := h .rflags
  have hrsp' : mem (p + 160) = c.rsp := h .rsp
  have hss : mem (p + 168) = c.ss := h .ss
  simp only [hrip, hcs, hrflags, hrsp', hss]

end Infos.Arch
