import Infos.Arch.Context
import Infos.Lib.System

/-!
# Traps and threads

Between the traps, any code runs. It may change the registers and the memory, but of the stacks of
the threads only its own, below the context that was saved there last. From `schedule` on until
the return from the trap interrupts are off, so nothing traps there.
-/

namespace Infos.Arch

def IRQ_USER_SYSCALL : ℕ := 0x81

structure Thread where
  is_kernel_thread : Bool
  _entry_point : ℕ
  _current_entry_argument : ℕ
  native_context : ℕ
  kernel_stack : ℕ

/-- `rsp0` is the stack pointer in the task state segment. `ctx` is the variable of
`user_syscall_handler`, thread by thread. -/
structure Machine where
  cpu : Cpu
  mem : ℕ → ℕ
  rsp0 : ℕ
  threads : ℕ → Thread
  current_thread : Option ℕ
  ctx : ℕ → ℕ

namespace Machine

variable (m : Machine)

def set_thread (t : ℕ) (th : Thread) : Machine :=
  { m with threads := Function.update m.threads t th }

/-! ## Traps -/

/-- The vectors for which there is an error code on the stack. -/
def has_arg (nr : ℕ) : Bool := nr ∈ [8, 10, 11, 12, 13, 14, 17, 30]

/-- What the processor does. It takes the stack from the task state segment when it comes from
user mode, and turns interrupts off. -/
def interrupt (error_code : List ℕ) : Machine :=
  let sp := if m.cpu.User then m.rsp0 else m.cpu.rsp
  let s := push_all ([m.cpu.ss, m.cpu.rsp, m.cpu.rflags, m.cpu.cs, m.cpu.rip] ++ error_code)
    ⟨sp / 16 * 16, m.mem⟩
  { m with
    mem := s.mem
    cpu := { m.cpu with
      rsp := s.sp
      cs := 8
      ss := if m.cpu.User then 0 else m.cpu.ss
      rflags := if m.cpu.rflags.testBit 9 then m.cpu.rflags - 512 else m.cpu.rflags } }

/-- The calls in the two macros write below the stack pointer only, and are left out. -/
def save_context (has_arg : Bool) (t : ℕ) : Machine :=
  let s := push_all ((if has_arg then [] else [0]) ++
    [m.cpu.gpr .rax, m.cpu.gpr .rbx, m.cpu.gpr .rcx, m.cpu.gpr .rdx, m.cpu.gpr .rsi,
      m.cpu.gpr .rdi, m.cpu.gpr .rbp, m.cpu.gpr .r8, m.cpu.gpr .r9, m.cpu.gpr .r10,
      m.cpu.gpr .r11, m.cpu.gpr .r12, m.cpu.gpr .r13, m.cpu.gpr .r14, m.cpu.gpr .r15] ++
    [(m.threads t).native_context]) ⟨m.cpu.rsp, m.mem⟩
  { m with mem := s.mem, cpu := { m.cpu with rsp := s.sp } }.set_thread t
    { m.threads t with native_context := s.sp }

/-- `restore_context` and `iretq`. -/
def restore_context (t : ℕ) : Machine :=
  let rsp := (m.threads t).native_context
  let c := pop_all m.mem popped { m.cpu with rsp := rsp + 8 }
  { m with cpu := iretq m.mem { c with rsp := c.rsp + 8 } }.set_thread t
    { m.threads t with native_context := m.mem rsp }

/-- The entry of `defirq`, and of the handler of the system calls of users. -/
def defirq (nr error_code t : ℕ) : Machine :=
  let m := (m.interrupt (if has_arg nr then [error_code] else [])).save_context (has_arg nr) t
  { m with
    cpu := { m.cpu with gpr := Function.update m.cpu.gpr .rdi nr }
    ctx := if nr = IRQ_USER_SYSCALL then
        Function.update m.ctx t (m.threads t).native_context
      else m.ctx }

/-- `ctx->rax = value`. -/
def user_syscall_return (value t : ℕ) : Machine :=
  { m with mem := Function.update m.mem (m.ctx t + X86Context.offset (.gpr .rax)) value }

/-! ## Threads -/

def set_current_thread (t : ℕ) : Machine :=
  { m with rsp0 := (m.threads t).kernel_stack, current_thread := some t }

/-- A field of `native_context` is set. -/
def set_field (t : ℕ) (f : Field) (value : ℕ) : Machine :=
  { m with mem := Function.update m.mem ((m.threads t).native_context + X86Context.offset f) value }

def prepare_initial_stack (t : ℕ) : Machine :=
  let th := m.threads t
  let s := push_all
    [if th.is_kernel_thread then 0x10 else 0x23, 0, 0x202,
      if th.is_kernel_thread then 0x8 else 0x1b, th._entry_point, 0,
      0, 0, 0, 0, 0, 0, 0, 0, 0, 0, 0, 0, 0, 0, 0, 0] ⟨th.kernel_stack, m.mem⟩
  ({ m with mem := s.mem }.set_thread t { th with native_context := s.sp }).set_field t .rsp
    th.kernel_stack

/-- The constructor of a thread, with two pages from `base` on for its kernel stack. -/
def create_thread (t : ℕ) (is_kernel_thread : Bool) (entry_point base : ℕ) : Machine :=
  (m.set_thread t ⟨is_kernel_thread, entry_point, 0, 0, base + 8192⟩).prepare_initial_stack t

def add_entry_argument (t arg : ℕ) : Machine :=
  let th := m.threads t
  let next := { th with _current_entry_argument := th._current_entry_argument + 1 }
  match th._current_entry_argument with
  | 0 => (m.set_field t (.gpr .rdi) arg).set_thread t next
  | 1 => (m.set_field t (.gpr .rsi) arg).set_thread t next
  | 2 => (m.set_field t (.gpr .rdx) arg).set_thread t next
  | 3 => (m.set_field t (.gpr .rcx) arg).set_thread t next
  | _ => m

/-- The pages of the stack are left out. -/
def allocate_user_stack (t vaddr size : ℕ) : Machine := m.set_field t .rsp (vaddr + size)

end Machine

/-! ## Runs -/

/-- `run` is code that runs between the traps. `activate` is the first `set_current_thread`, by
`Scheduler::init`, and `schedule` is a call of that function. -/
inductive Event where
  | run (cpu : Cpu) (mem : ℕ → ℕ)
  | trap (nr error_code : ℕ)
  | user_syscall_return (value : ℕ)
  | schedule (next : ℕ)
  | restore
  | create_thread (t : ℕ) (is_kernel_thread : Bool) (entry_point base : ℕ)
  | add_entry_argument (t arg : ℕ)
  | allocate_user_stack (t vaddr size : ℕ)
  | activate (t : ℕ)

def Machine.step (m : Machine) : Event → Machine
  | .run cpu mem => { m with cpu := cpu, mem := mem }
  | .trap nr error_code => m.current_thread.elim m (m.defirq nr error_code)
  | .user_syscall_return value => m.current_thread.elim m (m.user_syscall_return value)
  | .schedule next => if m.current_thread = some next then m else m.set_current_thread next
  | .restore => m.current_thread.elim m m.restore_context
  | .create_thread t is_kernel_thread entry_point base =>
    m.create_thread t is_kernel_thread entry_point base
  | .add_entry_argument t arg => m.add_entry_argument t arg
  | .allocate_user_stack t vaddr size => m.allocate_user_stack t vaddr size
  | .activate t => m.set_current_thread t

/-- The registers at a trap, its number, and what the system call gave back. The first context of
a thread has no number. -/
structure Saved where
  cpu : Cpu
  irq : Option ℕ
  result : Option ℕ

/-- How a thread was created, until it first runs. -/
structure First where
  is_kernel_thread : Bool
  entry_point : ℕ
  args : List ℕ
  rsp : ℕ

/-- What has happened. Of each thread there are the bounds of its stack and the traps that have
not returned. `running` is the thread on whose stack the code runs. -/
structure History where
  created : List ℕ
  low : ℕ → ℕ
  high : ℕ → ℕ
  saved : ℕ → List Saved
  first : ℕ → Option First
  running : Option ℕ

/-- The registers that a thread starts with. -/
def First.cpu (n : First) : Cpu where
  gpr
    | .rdi => n.args.getD 0 0
    | .rsi => n.args.getD 1 0
    | .rdx => n.args.getD 2 0
    | .rcx => n.args.getD 3 0
    | _ => 0
  rip := n.entry_point
  cs := if n.is_kernel_thread then 0x8 else 0x1b
  rflags := 0x202
  rsp := n.rsp
  ss := if n.is_kernel_thread then 0x10 else 0x23

/-- The registers that are resumed. -/
def Saved.resumed (f : Saved) : Cpu :=
  match f.result with
  | none => f.cpu
  | some value => { f.cpu with gpr := Function.update f.cpu.gpr .rax value }

namespace History

variable (h : History)

/-- The contexts of a thread that were saved and are not resumed yet, the last one first. -/
def frames (t : ℕ) : List Saved :=
  match h.first t with
  | some n => [⟨n.cpu, none, none⟩]
  | none => h.saved t

/-- `boot` has the bounds of the stack that the kernel boots on. It is from now on the one of the
thread that `Scheduler::init` activates. -/
def log (boot : ℕ × ℕ) (m : Machine) : Event → History
  | .run _ _ | .schedule _ => h
  | .trap nr _ => m.current_thread.elim h fun t =>
    { h with saved := Function.update h.saved t (⟨m.cpu, some nr, none⟩ :: h.saved t) }
  | .user_syscall_return value => m.current_thread.elim h fun t =>
    { h with
      saved := Function.update h.saved t
        ((h.saved t).modifyHead fun f => { f with result := some value }) }
  | .restore => m.current_thread.elim h fun t =>
    { h with
      saved := Function.update h.saved t (h.frames t).tail
      first := Function.update h.first t none
      running := some t }
  | .create_thread t is_kernel_thread entry_point base =>
    { h with
      created := t :: h.created
      low := Function.update h.low t base
      high := Function.update h.high t (base + 8192)
      first := Function.update h.first t
        (some ⟨is_kernel_thread, entry_point, [], base + 8192⟩) }
  | .add_entry_argument t arg =>
    { h with
      first := Function.update h.first t
        ((h.first t).map fun n => { n with args := n.args ++ [arg] }) }
  | .allocate_user_stack t vaddr size =>
    { h with
      first := Function.update h.first t
        ((h.first t).map fun n => { n with rsp := vaddr + size }) }
  | .activate t =>
    { h with
      low := Function.update h.low t boot.1
      high := Function.update h.high t boot.2
      saved := Function.update h.saved t []
      first := Function.update h.first t none
      running := some t }

end History

/-- Where the contexts at `p` begin. -/
def top (high p : ℕ) (fs : List Saved) : ℕ := if fs = [] then high else p

/-- The addresses of the contexts, from `p` on. -/
def addresses (mem : ℕ → ℕ) : ℕ → List Saved → List ℕ
  | _, [] => []
  | p, _ :: fs => p :: addresses mem (mem p) fs

/-- How far the code that runs may raise its stack pointer. -/
def History.limit (boot : ℕ × ℕ) (m : Machine) (h : History) : ℕ :=
  h.running.elim boot.2 fun u => top (h.high u) (m.threads u).native_context (h.frames u)

/-- The code that runs does not write to contexts, and keeps its stack pointer below those of its
stack. A trap has room for its context. The kernel stack of a new thread was not in use. -/
def History.Allowed (boot : ℕ × ℕ) (m : Machine) (h : History) : Event → Prop
  | .run cpu mem =>
    (cpu.User ↔ m.cpu.User) ∧ (¬ cpu.User → cpu.rsp ≤ h.limit boot m) ∧
      ∀ t ∈ h.created, ∀ p ∈ addresses m.mem (m.threads t).native_context (h.frames t),
        ∀ a, p ≤ a → a < p + 176 → mem a = m.mem a
  | .trap nr _ => ∃ t, h.running = some t ∧ m.current_thread = some t ∧
      h.low t + 192 ≤ (if m.cpu.User then m.rsp0 else m.cpu.rsp) ∧
      (nr = IRQ_USER_SYSCALL → m.cpu.User)
  | .user_syscall_return _ => ¬ m.cpu.User ∧ ∃ t f fs, h.running = some t ∧
      m.current_thread = some t ∧ h.saved t = f :: fs ∧ f.irq = some IRQ_USER_SYSCALL
  | .schedule next => ¬ m.cpu.User ∧ next ∈ h.created ∧ ∃ u, h.running = some u ∧ h.saved u ≠ []
  | .restore => ¬ m.cpu.User ∧ ∃ u, h.running = some u ∧ h.saved u ≠ []
  | .create_thread t _ _ base => ¬ m.cpu.User ∧ t ∉ h.created ∧
      (base + 8192 ≤ boot.1 ∨ boot.2 ≤ base) ∧
      ∀ u ∈ h.created, base + 8192 ≤ h.low u ∨ h.high u ≤ base
  | .add_entry_argument t _ => ¬ m.cpu.User ∧ (h.first t).isSome
  | .allocate_user_stack t _ _ => ¬ m.cpu.User ∧
      ∃ n, h.first t = some n ∧ n.is_kernel_thread = false
  | .activate t => h.running = none ∧ t ∈ h.created

/-- Before there is a thread. -/
def History.start : History where
  created := []
  low _ := 0
  high _ := 0
  saved _ := []
  first _ := none
  running := none

/-- The kernel boots on a stack with the bounds `boot`. -/
def system (boot : ℕ × ℕ) : System (Machine × History) Event Empty where
  start s := s.2 = History.start ∧ s.1.current_thread = none ∧ ¬ s.1.cpu.User ∧
    s.1.cpu.rsp ≤ boot.2
  allowed s e := s.2.Allowed boot s.1 e
  step s e := .ok (s.1.step e, s.2.log boot s.1 e)

end Infos.Arch
