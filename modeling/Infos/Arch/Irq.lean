import Infos.Arch.Gates
import Infos.Lib.Prog
import Infos.Lib.System

/-!
# Interrupt vectors and the objects behind them

`infos/arch/x86/irq.cpp` and the interrupt controllers of `infos/drivers/irq/`. A vector has an
object, which has the handler.
-/

open Infos.BitFields Infos.Prog Infos.Arch.Gates

namespace Infos.Arch.Irq

inductive Fault
  | assertion
  | abort
  | wild
  deriving DecidableEq, Repr

/-! ## The state -/

inductive IRQClass
  | ExceptionIRQ
  | SoftwareIRQ
  | IOAPICIRQ
  | LAPICIRQ
  deriving DecidableEq, Repr

/-- `H` are the functions that can be handlers. -/
structure IRQ (H : Type) where
  cls : IRQClass
  _nr : UInt32
  _handler : Option H
  _priv : UInt64

inductive LAPICRegisters
  | VER
  | TPR
  | EOI
  | SVR
  | ESR
  | ICRLO
  | ICRHI
  | TIMER
  | PCINT
  | LINT0
  | LINT1
  | ERROR
  deriving DecidableEq, Repr

/-- A call of a handler, or an interrupt that is acknowledged. -/
inductive Done (H : Type)
  | called (handler : H) (irq : ℕ) (priv : UInt64)
  | eoi
  deriving DecidableEq, Repr

/-- A pointer to an object is its index. `ioapic` and `lapic` are the registers of the two
controllers. -/
structure State (H : Type) where
  objects : List (IRQ H)
  irq_descriptors : ℕ → Option ℕ
  idt : IDT
  _nr_irqs : UInt8
  ioapic : ℕ → UInt32
  lapic : LAPICRegisters → UInt32
  _timer_irq : Option ℕ
  trace : List (Done H)

variable {H : Type}

abbrev Op (H α : Type) := StateT (State H) (Except Fault) α

def assert (cond : Bool) : Op H Unit := if cond then pure () else throw .assertion

def deref (irq : ℕ) : Op H (IRQ H) := do
  match (← get).objects[irq]? with
  | some object => pure object
  | none => throw .wild

/-! ## Objects -/

def newIRQ (cls : IRQClass) : Op H ℕ := do
  let s ← get
  modify fun s => { s with objects := s.objects ++ [⟨cls, 0, none, 0⟩] }
  pure s.objects.length

def assign (irq nr : ℕ) : Op H Unit := modify fun s =>
  { s with objects := s.objects.modify irq fun object => { object with _nr := UInt32.ofNat nr } }

def attach (irq : ℕ) (handler : Option H) (priv : UInt64) : Op H Unit := modify fun s =>
  { s with objects := s.objects.modify irq fun object =>
      { object with _handler := handler, _priv := priv } }

def invoke (irq : ℕ) : Op H Bool := do
  let object ← deref irq
  match object._handler with
  | some handler =>
    modify fun s => { s with trace := s.trace ++ [.called handler irq object._priv] }
    pure true
  | none => pure false

/-! ## `IRQManager` -/

def MAX_IRQS : ℕ := 256

def IRQ_TRAP : ℕ := 0x03

def IRQ_USER_SYSCALL : ℕ := 0x81

/-- `irq_descriptors[nr].irq(irq)`, and `irq->assign(nr)` -/
def connect (nr irq : ℕ) : Op H Unit := do
  modify fun s => { s with irq_descriptors := Function.update s.irq_descriptors nr (some irq) }
  assign irq nr

section Entries

variable (irq_entry_points : ℕ → UInt64)

/-- `raw` is what was on the stack where the descriptor is made. -/
def register_gate (i : ℕ) (dpl : UInt8) (raw : ℕ → Bool) : Op H Unit := modify fun s =>
  { s with idt := (s.idt.register_interrupt_gate i (irq_entry_points i) 0x08 dpl raw).1 }

@[irreducible]
def IRQManager.init (raw : ℕ → ℕ → Bool) : Op H Bool := do
  forM (List.range MAX_IRQS) fun i => register_gate irq_entry_points i 0 (raw i)
  register_gate irq_entry_points IRQ_TRAP 3 (raw 256)
  register_gate irq_entry_points IRQ_USER_SYSCALL 3 (raw 257)
  forM (List.range 32) fun i => do
    let irq ← newIRQ .ExceptionIRQ
    connect i irq
  pure true

end Entries

def install_handler (cls : IRQClass) (nr : UInt8) (handler : Option H) (priv : UInt64) :
    Op H Bool := do
  if MAX_IRQS ≤ nr.toNat then pure false
  else
    if (← get).irq_descriptors nr.toNat = none then
      let irq ← newIRQ cls
      connect nr.toNat irq
    match (← get).irq_descriptors nr.toNat with
    | none => throw .wild
    | some irq =>
      attach irq handler priv
      pure true

def install_exception_handler : UInt8 → Option H → UInt64 → Op H Bool :=
  install_handler .ExceptionIRQ

def install_software_handler : UInt8 → Option H → UInt64 → Op H Bool :=
  install_handler .SoftwareIRQ

/-- The loop of `attach_irq`, from the vector `i` on. -/
def attach_loop (irq : ℕ) : (left i : ℕ) → Op H Bool
  | 0, _ => pure false
  | left + 1, i => do
    if (← get).irq_descriptors i = none then
      connect i irq
      pure true
    else attach_loop irq left (i + 1)

def attach_irq (irq : Option ℕ) : Op H Bool :=
  match irq with
  | none => pure false
  | some irq => attach_loop irq (0x100 - 0x20) 0x20

/-! ## The local controller -/

namespace LAPIC

def MASKED : UInt32 := 0x00010000

def PERIODIC : UInt32 := 0x00020000

/-- A write of `EOI` acknowledges the interrupt. -/
def write (reg : LAPICRegisters) (value : UInt32) : Op H Unit := modify fun s =>
  { s with
    lapic := Function.update s.lapic reg value
    trace := if reg = .EOI then s.trace ++ [.eoi] else s.trace }

def read (reg : LAPICRegisters) : Op H UInt32 := do pure ((← get).lapic reg)

def set_flag (reg : LAPICRegisters) (value : UInt32) : Op H Unit := do
  write reg ((← read reg) ||| value)

def clear_flag (reg : LAPICRegisters) (value : UInt32) : Op H Unit := do
  write reg ((← read reg) &&& ~~~value)

def eoi : Op H Unit := write .EOI 0

def set_timer_irq (irq : UInt8) : Op H Unit := do
  write .TIMER (((← read .TIMER) &&& ~~~0xff) ||| irq.toUInt32)

def set_timer_one_shot : Op H Unit := clear_flag .TIMER PERIODIC

def set_timer_periodic : Op H Unit := set_flag .TIMER PERIODIC

/-- `LAPICIRQ::enable` of the timer's object. -/
def enable : Op H Unit := clear_flag .TIMER MASKED

def disable : Op H Unit := set_flag .TIMER MASKED

/-- The first part of `init`. The command of `ICRLO` is taken to be delivered at once. -/
def mask_all : Op H Unit := do
  write .SVR 0x1ff
  write .TIMER MASKED
  write .LINT0 MASKED
  write .LINT1 MASKED
  write .ERROR MASKED
  if ((← read .VER) >>> 16) &&& 0xff ≥ 4 then write .PCINT MASKED
  write .ESR 0
  write .ESR 0
  write .EOI 0
  write .ICRHI 0
  write .ICRLO (0x00080000 ||| 0x00000500 ||| 0x00008000)
  write .TPR 0

def init_timer : Op H Bool := do
  let irq ← newIRQ .LAPICIRQ
  modify fun s => { s with _timer_irq := some irq }
  if ← attach_irq (some irq) then
    set_timer_irq (← deref irq)._nr.toUInt8
    pure true
  else pure false

def init : Op H Bool := do
  mask_all
  init_timer

end LAPIC

/-! ## The controller of the lines -/

namespace IOAPIC

/-- Only the low eight bits of the index count. -/
def write (reg val : UInt32) : Op H Unit := modify fun s =>
  { s with ioapic := Function.update s.ioapic (reg.toNat % 256) val }

/-- The members of the union's second part. The destination begins a new byte. -/
def RedirectionEntry (vector : UInt8) : List Member :=
  [object 8 vector.toNat, field 3 0, field 1 0, field 1 0, field 1 0, field 1 0, field 1 0, field 1 0,
    object 8 0]

/-- `low` and `high`, over what `bzero` left. -/
def low (members : List Member) : UInt64 :=
  UInt64.ofNat (BitFields.read 0 64 (construct 0 members fun _ => false))

def high (members : List Member) : UInt64 :=
  UInt64.ofNat (BitFields.read 64 64 (construct 0 members fun _ => false))

def store_redir_entry (irq_index : UInt8) (e : List Member) : Op H Unit := do
  assert (decide (irq_index < (← get)._nr_irqs))
  let configuration_register : UInt8 := 0x10 + irq_index * 2
  write configuration_register.toUInt32 (low e).toUInt32
  write (configuration_register.toUInt32 + 1) (high e).toUInt32

def init (ver : UInt32) : Op H Bool := do
  modify fun s => { s with _nr_irqs := (ver >>> 16).toUInt8 }
  forM (List.range (ver >>> 16).toUInt8.toNat) fun i => store_redir_entry (UInt8.ofNat i) []
  pure true

/-- `lapic` is whether the pointer is one. -/
def request_physical_irq (lapic : Bool) (phys_irq_nr : UInt32) : Op H (Option ℕ) := do
  if !lapic then pure none
  else if (← get)._nr_irqs.toUInt32 ≤ phys_irq_nr then pure none
  else
    let irq ← newIRQ .IOAPICIRQ
    if ← attach_irq (some irq) then
      store_redir_entry phys_irq_nr.toUInt8 (RedirectionEntry (← deref irq)._nr.toUInt8)
      pure (some irq)
    else pure none

end IOAPIC

/-! ## An interrupt -/

def handle (irq : ℕ) : Op H Unit := do
  match (← deref irq).cls with
  | .ExceptionIRQ | .SoftwareIRQ => if !(← invoke irq) then throw .abort
  | .IOAPICIRQ =>
    let _ ← invoke irq
    LAPIC.eoi
  | .LAPICIRQ => if ← invoke irq then LAPIC.eoi else throw .abort

def __handle_raw_irq (irq_nr : UInt32) : Op H Unit := do
  assert (decide (irq_nr.toNat < MAX_IRQS))
  match (← get).irq_descriptors irq_nr.toUInt8.toNat with
  | some irq => handle irq
  | none => pure ()

/-- What the processor does with a vector: behind the gate is one of the entry points, which calls
with its number. -/
def interrupt (irq_entry_points : ℕ → UInt64) (vector : ℕ) : Op H Unit := do
  let gate := decode ((← get).idt.__idt vector)
  if gate.present = 1 ∧ gate.type = Kind.interrupt.type then
    match (List.range MAX_IRQS).find? fun i => (irq_entry_points i).toNat = gate.offset with
    | some i => __handle_raw_irq (UInt32.ofNat i)
    | none => throw .wild
  else throw .wild

/-- The instruction `int`, at the privilege level `cpl`. What it may not use is a protection fault. -/
def int (irq_entry_points : ℕ → UInt64) (cpl vector : ℕ) : Op H Unit := do
  let gate := decode ((← get).idt.__idt vector)
  if gate.DPL < cpl then interrupt irq_entry_points 0x0d else interrupt irq_entry_points vector

/-- The vector that a register holds, unless it is masked. -/
def vector_of (reg : UInt32) : Option ℕ :=
  if reg.toNat.testBit 16 ∨ reg.toNat / 2 ^ 8 % 2 ^ 3 ≠ 0 then none else some (reg.toNat % 2 ^ 8)

/-- The device at a line of the controller wants to be heard. -/
def line (irq_entry_points : ℕ → UInt64) (n : ℕ) : Op H Unit := do
  match vector_of ((← get).ioapic (0x10 + 2 * n)) with
  | some vector => interrupt irq_entry_points vector
  | none => pure ()

def timer (irq_entry_points : ℕ → UInt64) : Op H Unit := do
  match vector_of ((← get).lapic .TIMER) with
  | some vector => interrupt irq_entry_points vector
  | none => pure ()

/-! ## Starting -/

/-- The functions that the kernel installs before there are devices. -/
structure Handlers (H : Type) where
  general_protection_fault : H
  trap_interrupt : H
  kernel_syscall_handler : H
  user_syscall_handler : H
  handle_page_fault : H

/-- `X86Arch::init_irq`, `mm_pf_init`, and the two controllers that `timer_init` registers. -/
def start_irqs (irq_entry_points : ℕ → UInt64) (raw : ℕ → ℕ → Bool) (ver : UInt32)
    (handlers : Handlers H) : Op H Bool := do
  let _ ← IRQManager.init irq_entry_points raw
  let _ ← install_exception_handler 0x0d (some handlers.general_protection_fault) 0
  let _ ← install_exception_handler 0x03 (some handlers.trap_interrupt) 0
  let _ ← install_software_handler 0x80 (some handlers.kernel_syscall_handler) 0
  let _ ← install_software_handler 0x81 (some handlers.user_syscall_handler) 0
  let _ ← install_exception_handler 0x0e (some handlers.handle_page_fault) 0
  if ← LAPIC.init then IOAPIC.init ver else pure false

end Infos.Arch.Irq
