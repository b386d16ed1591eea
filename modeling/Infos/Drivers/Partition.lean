import Infos.Lib.Bytes

/-!
# Partitions of a block device

A partition hands a request on, from its own first block on. No layer compares a request with the
size of the device.
-/

namespace Infos.Drivers

open Infos.Bytes (Memory load)

/-- A buffer is known by its address. -/
structure BlockDevice (σ : Type) where
  read_blocks : (buffer offset count : UInt64) → σ → Bool × σ
  write_blocks : (buffer offset count : UInt64) → σ → Bool × σ
  block_size : UInt64
  block_count : UInt64

structure BlockDevicePartition where
  _block_offset : UInt64
  _block_count : UInt64
  deriving DecidableEq

namespace BlockDevicePartition

variable {σ : Type}

def read_blocks (p : BlockDevicePartition) (_underlying_block_device : BlockDevice σ)
    (buffer offset count : UInt64) : σ → Bool × σ :=
  _underlying_block_device.read_blocks buffer (p._block_offset + offset) count

def write_blocks (p : BlockDevicePartition) (_underlying_block_device : BlockDevice σ)
    (buffer offset count : UInt64) : σ → Bool × σ :=
  _underlying_block_device.write_blocks buffer (p._block_offset + offset) count

/-- The partition is a block device itself. -/
def device (p : BlockDevicePartition) (_underlying_block_device : BlockDevice σ) : BlockDevice σ where
  read_blocks := p.read_blocks _underlying_block_device
  write_blocks := p.write_blocks _underlying_block_device
  block_size := _underlying_block_device.block_size
  block_count := p._block_count

end BlockDevicePartition

/-- A turn of the loop of `create_partitions`. -/
def partition_at (partition_table : Memory) (partition_table_index : ℕ) :
    Option BlockDevicePartition :=
  let pte := 0x1be + 16 * partition_table_index
  if partition_table (pte + 4) = 0 then none
  else some ⟨UInt64.ofNat (load partition_table (pte + 8) 4),
    UInt64.ofNat (load partition_table (pte + 12) 4)⟩

/-- The devices that `ATADevice::create_partitions` makes. -/
def create_partitions (partition_table : Memory) : List BlockDevicePartition :=
  (List.range 4).filterMap (partition_at partition_table)

/-! ## What is asked of a device -/

structure Request where
  write : Bool
  buffer : UInt64
  offset : UInt64
  count : UInt64
  deriving DecidableEq

namespace BlockDevice

variable {σ : Type}

def serve (d : BlockDevice σ) (r : Request) : σ → Bool × σ :=
  if r.write then d.write_blocks r.buffer r.offset r.count
  else d.read_blocks r.buffer r.offset r.count

/-- The device with the requests that were made of it, the latest first. -/
def recording (d : BlockDevice σ) : BlockDevice (σ × List Request) where
  read_blocks buffer offset count s :=
    let (ok, t) := d.read_blocks buffer offset count s.1
    (ok, t, ⟨false, buffer, offset, count⟩ :: s.2)
  write_blocks buffer offset count s :=
    let (ok, t) := d.write_blocks buffer offset count s.1
    (ok, t, ⟨true, buffer, offset, count⟩ :: s.2)
  block_size := d.block_size
  block_count := d.block_count

end BlockDevice

namespace BlockDevicePartition

variable {σ : Type} {p : BlockDevicePartition} {partition_table : Memory}

/-- What the partition answers, and what it asks of the device below for that. -/
def answer (p : BlockDevicePartition) (d : BlockDevice σ) (r : Request) (s : σ) :
    Bool × List Request :=
  let (ok, _, asked) := (p.device d.recording).serve r (s, [])
  (ok, asked)

/-- Every block of the requests is one of the partition. -/
def Inside (p : BlockDevicePartition) (asked : List Request) : Prop :=
  ∀ q ∈ asked, ∀ b, q.offset.toNat ≤ b → b < q.offset.toNat + q.count.toNat →
    p._block_offset.toNat ≤ b ∧ b < p._block_offset.toNat + p._block_count.toNat

/-- The request is for blocks that the partition has. -/
def Fits (p : BlockDevicePartition) (r : Request) : Prop :=
  r.offset.toNat + r.count.toNat ≤ p._block_count.toNat

/-- The request is handed on as it is, but for the first block. -/
theorem answer_eq (p : BlockDevicePartition) (d : BlockDevice σ) (r : Request) (s : σ) :
    p.answer d r s = ((d.serve { r with offset := p._block_offset + r.offset } s).1,
      [{ r with offset := p._block_offset + r.offset }]) := by
  obtain ⟨write, buffer, offset, count⟩ := r
  cases write <;> rfl

/-- The fields of the table have 32 bits. -/
theorem small_of_mem (h : p ∈ create_partitions partition_table) :
    p._block_offset.toNat < 2 ^ 32 ∧ p._block_count.toNat < 2 ^ 32 := by
  obtain ⟨i, -, hi⟩ := List.mem_filterMap.mp h
  unfold partition_at at hi
  dsimp only at hi
  split at hi
  · cases hi
  · cases hi
    have hoffset := Bytes.load_lt partition_table (0x1be + 16 * i + 8) 4
    have hcount := Bytes.load_lt partition_table (0x1be + 16 * i + 12) 4
    constructor
    · rw [UInt64.toNat_ofNat_of_lt' (hoffset.trans (by decide))]
      exact hoffset
    · rw [UInt64.toNat_ofNat_of_lt' (hcount.trans (by decide))]
      exact hcount

/-- A request that wraps around comes before such a partition, and never inside it. -/
theorem inside_iff (hoffset : p._block_offset.toNat < 2 ^ 32) (hcount : p._block_count.toNat < 2 ^ 32)
    (r : Request) : p.Inside [{ r with offset := p._block_offset + r.offset }] ↔
      r.count = 0 ∨ p.Fits r := by
  have hzero : r.count = 0 ↔ r.count.toNat = 0 := UInt64.toNat_inj.symm
  have hr := r.offset.toNat_lt
  unfold Inside Fits
  simp only [List.forall_mem_singleton, UInt64.toNat_add, hzero]
  constructor
  · intro h
    by_contra hout
    have hfirst := h ((p._block_offset.toNat + r.offset.toNat) % 2 ^ 64) le_rfl (by omega)
    have hlast := h ((p._block_offset.toNat + r.offset.toNat) % 2 ^ 64 + r.count.toNat - 1)
      (by omega) (by omega)
    omega
  · intro h b hb hlt
    omega

/-- A partition of the table asks the device once for each request, and gives the answer on. It asks
for its own blocks exactly if the request is for blocks that it has, or for none. -/
theorem asks_once (h : p ∈ create_partitions partition_table) (d : BlockDevice σ) (r : Request)
    (s : σ) : p.answer d r s = ((d.serve { r with offset := p._block_offset + r.offset } s).1,
        [{ r with offset := p._block_offset + r.offset }]) ∧
      (p.Inside (p.answer d r s).2 ↔ r.count = 0 ∨ p.Fits r) := by
  obtain ⟨hoffset, hcount⟩ := small_of_mem h
  have hanswer := answer_eq p d r s
  refine ⟨hanswer, ?_⟩
  rw [hanswer]
  exact inside_iff hoffset hcount r

/-! ## A disk with one partition -/

/-- The partition has two blocks, from 63 on. -/
def table : Memory := fun a =>
  match a with
  | 0x1c2 => 0x83
  | 0x1c6 => 63
  | 0x1ca => 2
  | _ => 0

theorem mem_table : ⟨63, 2⟩ ∈ create_partitions table := by decide

/-- A device that answers every request. -/
def disk : BlockDevice Unit := ⟨fun _ _ _ s => (true, s), fun _ _ _ s => (true, s), 512, 128⟩

theorem asks_once_second : answer ⟨63, 2⟩ disk ⟨false, 0x1000, 1, 1⟩ () =
      ((disk.serve ⟨false, 0x1000, 63 + 1, 1⟩ ()).1, [⟨false, 0x1000, 63 + 1, 1⟩]) ∧
    (Inside ⟨63, 2⟩ (answer ⟨63, 2⟩ disk ⟨false, 0x1000, 1, 1⟩ ()).2 ↔
      (1 : UInt64) = 0 ∨ Fits ⟨63, 2⟩ ⟨false, 0x1000, 1, 1⟩) :=
  asks_once mem_table disk ⟨false, 0x1000, 1, 1⟩ ()

/-- The block behind the partition is written. -/
theorem not_isolated : ¬∀ partition_table, ∀ p ∈ create_partitions partition_table,
    ∀ (d : BlockDevice Unit) (r : Request) (s : Unit), p.Inside (p.answer d r s).2 ∧
      (¬p.Fits r → p.answer d r s = (false, [])) := by
  intro h
  obtain ⟨-, hrefused⟩ := h table _ mem_table disk ⟨true, 0x1000, 2, 1⟩ ()
  have hanswer := hrefused (by unfold Fits; decide)
  exact absurd (congrArg Prod.fst hanswer) (by decide)

end BlockDevicePartition

end Infos.Drivers
