import Infos.Lib.BitFields
import Mathlib.Logic.Function.Basic

/-!
# Interrupt and trap gates

Both descriptors are packed bit-fields. The field in front of the type is one bit shorter in a trap gate
than in an interrupt gate, so in a trap gate all that is behind it is in the wrong place.
-/

namespace Infos.Arch.Gates

open Infos.BitFields

/-! ## The descriptors of `dt.h` -/

def InterruptGateDescriptor (offset : UInt64) (seg : UInt16) (dpl : UInt8) : List Member :=
  [ object 16 (offset &&& 0xffff).toNat
  , object 16 seg.toNat
  , field 3 0
  , field 10 0x1c0
  , field 2 dpl.toNat
  , field 1 1
  , object 16 ((offset >>> 16) &&& 0xffff).toNat
  , object 32 ((offset >>> 32) &&& 0xffffffff).toNat
  , uninitialised 32 ]

def TrapGateDescriptor (offset : UInt64) (seg : UInt16) (dpl : UInt8) : List Member :=
  [ object 16 (offset &&& 0xffff).toNat
  , object 16 seg.toNat
  , field 2 0
  , field 10 0x1e0
  , field 2 dpl.toNat
  , field 1 1
  , object 16 ((offset >>> 16) &&& 0xffff).toNat
  , object 32 ((offset >>> 32) &&& 0xffffffff).toNat
  , uninitialised 32 ]

/-- `bits_low` and `bits_high`, as in a descriptor and in `__idt`. -/
structure Entry where
  low : UInt64
  high : UInt64

/-- A descriptor on a stack that held `raw`. -/
def entry (desc : List Member) (raw : ℕ → Bool) : Entry :=
  let bits := construct 0 desc raw
  ⟨UInt64.ofNat (read 0 64 bits), UInt64.ofNat (read 64 64 bits)⟩

/-! ## The table -/

structure IDT where
  _max_index : UInt8
  __idt : ℤ → Entry

namespace IDT

def MAX_NR_IDT_ENTRIES : ℤ := 256

/-- What both functions do with their descriptor. -/
def register_gate (index : ℤ) (desc : List Member) (raw : ℕ → Bool) (idt : IDT) : IDT × Bool :=
  if MAX_NR_IDT_ENTRIES ≤ index then (idt, false)
  else
    let idt := { idt with __idt := Function.update idt.__idt index (entry desc raw) }
    let idt :=
      if (idt._max_index.toNat : ℤ) < index then { idt with _max_index := UInt8.ofInt index } else idt
    (idt, true)

def register_interrupt_gate (index : ℤ) (addr : UInt64) (seg : UInt16) (dpl : UInt8) :
    (ℕ → Bool) → IDT → IDT × Bool := register_gate index (InterruptGateDescriptor addr seg dpl)

def register_trap_gate (index : ℤ) (addr : UInt64) (seg : UInt16) (dpl : UInt8) :
    (ℕ → Bool) → IDT → IDT × Bool := register_gate index (TrapGateDescriptor addr seg dpl)

end IDT

/-! ## What the processor reads -/

/-- A gate in the layout of the processor. -/
structure Gate where
  offset : ℕ
  selector : ℕ
  ist : ℕ
  bits_35_39 : ℕ
  type : ℕ
  bit_44 : ℕ
  DPL : ℕ
  present : ℕ
deriving DecidableEq

def Entry.bits (e : Entry) : ℕ → Bool := fun i =>
  if i < 64 then e.low.toNat.testBit i else e.high.toNat.testBit (i - 64)

def decode (e : Entry) : Gate where
  offset := read 0 16 e.bits + 2 ^ 16 * read 48 16 e.bits + 2 ^ 32 * read 64 32 e.bits
  selector := read 16 16 e.bits
  ist := read 32 3 e.bits
  bits_35_39 := read 35 5 e.bits
  type := read 40 4 e.bits
  bit_44 := read 44 1 e.bits
  DPL := read 45 2 e.bits
  present := read 47 1 e.bits

inductive Kind where
  | interrupt
  | trap

namespace Kind

def descriptor : Kind → UInt64 → UInt16 → UInt8 → List Member
  | .interrupt => InterruptGateDescriptor
  | .trap => TrapGateDescriptor

def register : Kind → ℤ → UInt64 → UInt16 → UInt8 → (ℕ → Bool) → IDT → IDT × Bool
  | .interrupt => IDT.register_interrupt_gate
  | .trap => IDT.register_trap_gate

def type : Kind → ℕ
  | .interrupt => 0xe
  | .trap => 0xf

/-- The gate that a descriptor is meant to be. -/
def gate (kind : Kind) (offset : UInt64) (seg : UInt16) (dpl : UInt8) : Gate :=
  ⟨offset.toNat, seg.toNat, 0, 0, kind.type, 0, dpl.toNat, 1⟩

end Kind

variable {desc : List Member} {raw : ℕ → Bool} {offset : UInt64} {seg : UInt16} {dpl : UInt8}

/-- The table has the entry that the descriptor is, whatever else it had. -/
theorem register_entry (kind : Kind) {index : ℤ} (h : index < IDT.MAX_NR_IDT_ENTRIES) (idt : IDT) :
    (kind.register index offset seg dpl raw idt).2 = true ∧
    (kind.register index offset seg dpl raw idt).1.__idt =
      Function.update idt.__idt index (entry (kind.descriptor offset seg dpl) raw) := by
  have hgate : ∀ desc, (idt.register_gate index desc raw).2 = true ∧
      (idt.register_gate index desc raw).1.__idt =
        Function.update idt.__idt index (entry desc raw) := by
    intro desc
    unfold IDT.register_gate
    rw [if_neg (Int.not_le.mpr h)]
    refine ⟨rfl, ?_⟩
    dsimp only
    split <;> rfl
  cases kind with
  | interrupt => exact hgate _
  | trap => exact hgate _

theorem bits_entry {i : ℕ} (hi : i < 128) : (entry desc raw).bits i = construct 0 desc raw i := by
  unfold entry Entry.bits
  dsimp only
  have hword : ∀ pos, (UInt64.ofNat (read pos 64 (construct 0 desc raw))).toNat =
      read pos 64 (construct 0 desc raw) := fun pos =>
    (UInt64.toNat_ofNat' ..).trans (Nat.mod_eq_of_lt (Nat.ofBits_lt_two_pow _))
  rw [hword, hword, testBit_read, testBit_read]
  split
  next h => rw [decide_eq_true h, Bool.true_and, Nat.zero_add]
  next h =>
    rw [decide_eq_true (by omega), Bool.true_and, Nat.add_sub_cancel' (by omega)]

theorem read_entry {pos width : ℕ} (h : pos + width ≤ 128) :
    read pos width (entry desc raw).bits = read pos width (construct 0 desc raw) :=
  read_congr fun i hi => bits_entry (by omega)

theorem toNat_halves (x : UInt64) : (x.toNat &&& 65535) % 65536 +
    65536 * ((x.toNat >>> 16 &&& 65535) % 65536) +
    4294967296 * ((x.toNat >>> 32 &&& 4294967295) % 4294967296) = x.toNat := by
  have hlt := x.toNat_lt
  have hhalf : ∀ y, y &&& 65535 = y % 65536 := fun y => Nat.and_two_pow_sub_one_eq_mod y 16
  have hword : ∀ y, y &&& 4294967295 = y % 4294967296 := fun y =>
    Nat.and_two_pow_sub_one_eq_mod y 32
  rw [hhalf, hhalf, hword, Nat.shiftRight_eq_div_pow, Nat.shiftRight_eq_div_pow]
  omega

theorem decode_interrupt (hdpl : dpl ≤ 3) :
    decode (entry (InterruptGateDescriptor offset seg dpl) raw) =
      Kind.interrupt.gate offset seg dpl := by
  have hlow : dpl.toNat ≤ 3 := UInt8.le_iff_toNat_le.mp hdpl
  unfold decode
  repeat rw [read_entry (by decide)]
  simp [InterruptGateDescriptor, construct, place, object, field, uninitialised, read_write,
    read_write_apart, Kind.gate, Kind.type, toNat_halves]
  omega

/-- All fields from the type on are one bit too low, and the bit that says whether the gate is present
is not written at all. -/
theorem decode_trap : decode (entry (TrapGateDescriptor offset seg dpl) raw) =
    ⟨offset.toNat, seg.toNat, 0, 16, 7, dpl.toNat % 2, dpl.toNat / 2 % 2 + 2, (raw 47).toNat⟩ := by
  have hist : ∀ bits, read 32 3 bits = read 32 2 bits + 2 ^ 2 * read 34 1 bits := fun _ => read_add 1
  have hDPL : ∀ bits, read 45 2 bits = read 45 1 bits + 2 ^ 1 * read 46 1 bits := fun _ => read_add 1
  unfold decode
  rw [hist, hDPL]
  repeat rw [read_entry (by decide)]
  simp [TrapGateDescriptor, construct, place, object, field, uninitialised, read_write,
    read_write_apart, toNat_halves]
  exact read_one

/-- An interrupt gate is read as it is written, and a trap gate never is. -/
theorem decode_eq_gate_iff (kind : Kind) (raw : ℕ → Bool) (offset : UInt64) (seg : UInt16)
    (dpl : UInt8) (hdpl : dpl ≤ 3) :
    decode (entry (kind.descriptor offset seg dpl) raw) = kind.gate offset seg dpl ↔
      kind = .interrupt := by
  cases kind with
  | interrupt => exact iff_of_true (decode_interrupt hdpl) rfl
  | trap =>
    refine iff_of_false (fun h => ?_) nofun
    have htype := congrArg Gate.type (decode_trap.symm.trans h)
    exact absurd htype (show 7 ≠ 15 by decide)

/-- A trap gate for user programs. -/
theorem decode_eq_gate_trap :
    decode (entry (Kind.trap.descriptor 0x1000 0x08 3) fun _ => false) = Kind.trap.gate 0x1000 0x08 3 ↔
      Kind.trap = .interrupt :=
  decode_eq_gate_iff .trap (fun _ => false) 0x1000 0x08 3 (by decide)

/-- The type is 7, and the gate is not present. -/
theorem trap_gate_differs : decode (entry (TrapGateDescriptor 0x1000 0x08 3) fun _ => false) ≠
    Kind.trap.gate 0x1000 0x08 3 := by
  rw [decode_trap]
  decide

end Infos.Arch.Gates
