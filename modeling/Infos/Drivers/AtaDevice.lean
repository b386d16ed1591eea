import Infos.Lib.Addresses
import Mathlib.Data.Nat.Find
import Mathlib.Logic.Function.Basic

/-!
# Transfers of an ATA drive

The driver programs the drive by one register after another, and the drive counts the sectors by itself.
-/

namespace Infos.Drivers.Ata

/-! ## The drive -/

/-- The three blocks of ports of a channel are apart from each other. -/
inductive Port where
  | base (offset : ℕ)
  | ctrl (offset : ℕ)
  | bmide (offset : ℕ)
deriving DecidableEq

def ATA_SR_BSY : UInt8 := 0x80
def ATA_SR_DF : UInt8 := 0x20
def ATA_SR_DRQ : UInt8 := 0x08
def ATA_SR_ERR : UInt8 := 0x01

/-- What a drive answers to the reads of a port, and the words of data that it has. No drive is busy for
ever. -/
structure Drive where
  inb : Port → ℕ → UInt8
  data : ℕ → UInt16
  ready : ∀ k, ∃ n, inb (.base 7) (k + n) &&& ATA_SR_BSY = 0

/-- A command as the drive takes it from its registers. -/
structure Command where
  code : UInt8
  device : ℕ
  lba : ℕ
  sectors : ℕ
deriving DecidableEq

/-- `reads` are the reads of ports by now, and `words` the words of data that the drive has given. A
register keeps the byte that was written to it before the most recent one. -/
structure State where
  reads : ℕ
  words : ℕ
  recent : Port → UInt8
  previous : Port → UInt8
  command : Option Command
  received : List UInt8
  memory : UInt64 → UInt8

namespace State

/-- The rule of LBA48. -/
def latch (code : UInt8) (s : State) : Command where
  code := code
  device := (s.recent (.base 6)).toNat / 16 % 2
  lba := (s.previous (.base 5)).toNat * 2 ^ 40 + (s.previous (.base 4)).toNat * 2 ^ 32 +
    (s.previous (.base 3)).toNat * 2 ^ 24 + (s.recent (.base 5)).toNat * 2 ^ 16 +
    (s.recent (.base 4)).toNat * 2 ^ 8 + (s.recent (.base 3)).toNat
  sectors :=
    let count := (s.previous (.base 2)).toNat * 256 + (s.recent (.base 2)).toNat
    if count = 0 then 65536 else count

def outb (p : Port) (value : UInt8) (s : State) : State :=
  let s := { s with
    previous := Function.update s.previous p (s.recent p)
    recent := Function.update s.recent p value }
  match p with
  | .base 7 => { s with command := some (s.latch value), received := [] }
  | .base 0 => { s with received := s.received ++ [value] }
  | _ => s

end State

namespace Drive

variable (d : Drive)

def read_port (p : Port) (s : State) : UInt8 × State :=
  (d.inb p s.reads, { s with reads := s.reads + 1 })

/-- `repnz insw` on the data port. -/
def insw : (buffer : UInt64) → (count : ℕ) → State → State
  | _, 0, s => s
  | buffer, count + 1, s =>
    let memory := Function.update s.memory buffer (d.data s.words).toUInt8
    let memory := Function.update memory (buffer + 1) (d.data s.words >>> 8).toUInt8
    insw (buffer + 2) count { s with memory, words := s.words + 1 }

end Drive

/-! ## The controller -/

def ATA_REG_SECCOUNT0 : ℕ := 0x02
def ATA_REG_LBA0 : ℕ := 0x03
def ATA_REG_LBA1 : ℕ := 0x04
def ATA_REG_LBA2 : ℕ := 0x05
def ATA_REG_HDDEVSEL : ℕ := 0x06
def ATA_REG_COMMAND : ℕ := 0x07
def ATA_REG_STATUS : ℕ := 0x07
def ATA_REG_SECCOUNT1 : ℕ := 0x08
def ATA_REG_LBA3 : ℕ := 0x09
def ATA_REG_LBA4 : ℕ := 0x0a
def ATA_REG_LBA5 : ℕ := 0x0b
def ATA_REG_CONTROL : ℕ := 0x0c

def ATA_CMD_READ_PIO_EXT : UInt8 := 0x24
def ATA_CMD_WRITE_PIO_EXT : UInt8 := 0x34

def port (reg : ℕ) : Option Port :=
  if reg < 0x08 then some (.base (reg - 0x00))
  else if reg < 0x0c then some (.base (reg - 0x06))
  else if reg < 0x0e then some (.ctrl (reg - 0x0a))
  else if reg < 0x16 then some (.bmide (reg - 0x0e))
  else none

/-- A channel of a controller, of which only one is at work here. -/
structure ATAController where
  nIEN : UInt8

namespace ATAController

variable (c : ATAController) (d : Drive)

def put (reg : ℕ) (data : UInt8) (s : State) : State :=
  match port reg with
  | some p => s.outb p data
  | none => s

/-- The inner calls are for `ATA_REG_CONTROL`, so they go no deeper. -/
def ata_write (reg : ℕ) (data : UInt8) (s : State) : State :=
  let s := if 0x07 < reg ∧ reg < 0x0c then put ATA_REG_CONTROL (0x80 ||| c.nIEN) s else s
  let s := put reg data s
  if 0x07 < reg ∧ reg < 0x0c then put ATA_REG_CONTROL c.nIEN s else s

def ata_read (reg : ℕ) (s : State) : UInt8 × State :=
  let s := if 0x07 < reg ∧ reg < 0x0c then c.ata_write ATA_REG_CONTROL (0x80 ||| c.nIEN) s else s
  let (result, s) := match port reg with
    | some p => d.read_port p s
    | none => (0, s)
  (result, if 0x07 < reg ∧ reg < 0x0c then c.ata_write ATA_REG_CONTROL c.nIEN s else s)

def busy_loop : ℕ → State → State
  | 0, s => s
  | fuel + 1, s =>
    let (status, s) := c.ata_read d ATA_REG_STATUS s
    if status &&& ATA_SR_BSY ≠ 0 then busy_loop fuel s else s

/-- `while (ata_read(ATA_REG_STATUS) & ATA_SR_BSY)`, which ends at the first read that is not busy. -/
def wait (s : State) : State := c.busy_loop d (Nat.find (d.ready s.reads) + 1) s

def ata_poll (error_check : Bool) (s : State) : ℕ × State :=
  let s := c.wait d s
  if error_check then
    let (status, s) := c.ata_read d ATA_REG_STATUS s
    if status &&& ATA_SR_ERR ≠ 0 then (2, s)
    else if status &&& ATA_SR_DF ≠ 0 then (1, s)
    else if status &&& ATA_SR_DRQ = 0 then (3, s)
    else (0, s)
  else (0, s)

end ATAController

/-! ## The device -/

structure ATADevice where
  _ctrl : ATAController
  _drive : ℕ
  drive_lt : _drive < 2

namespace ATADevice

variable (dev : ATADevice) (d : Drive)

/-- The loop over the blocks that are read. -/
def read_loop : ℕ → UInt64 → State → Bool × State
  | 0, _, s => (true, s)
  | blocks + 1, p, s =>
    let (error, s) := dev._ctrl.ata_poll d true s
    if error ≠ 0 then (false, s)
    else read_loop blocks (p + 512) (d.insw p (512 / 2) s)

/-- The nine registers that are written before the command. -/
def program (lba nr_blocks : UInt64) (s : State) : State :=
  let ata_write := dev._ctrl.ata_write
  let s := ata_write ATA_REG_HDDEVSEL ((0xe0 : UInt8) ||| (UInt8.ofNat dev._drive <<< 4)) s
  let s := ata_write ATA_REG_SECCOUNT1 0 s
  let s := ata_write ATA_REG_LBA3 ((lba >>> 24) &&& 0xff).toUInt8 s
  let s := ata_write ATA_REG_LBA4 ((lba >>> 32) &&& 0xff).toUInt8 s
  let s := ata_write ATA_REG_LBA5 ((lba >>> 40) &&& 0xff).toUInt8 s
  let s := ata_write ATA_REG_SECCOUNT0 nr_blocks.toUInt8 s
  let s := ata_write ATA_REG_LBA0 ((lba >>> 0) &&& 0xff).toUInt8 s
  let s := ata_write ATA_REG_LBA1 ((lba >>> 8) &&& 0xff).toUInt8 s
  ata_write ATA_REG_LBA2 ((lba >>> 16) &&& 0xff).toUInt8 s

def transfer (direction : ℤ) (lba buffer nr_blocks : UInt64) (s : State) : Bool × State :=
  let s := dev.program lba nr_blocks (dev._ctrl.wait d s)
  if direction ≠ 0 then (true, dev._ctrl.ata_write ATA_REG_COMMAND ATA_CMD_WRITE_PIO_EXT s)
  else
    let s := dev._ctrl.ata_write ATA_REG_COMMAND ATA_CMD_READ_PIO_EXT s
    dev.read_loop d nr_blocks.toNat buffer s

def read_blocks (buffer offset count : UInt64) : State → Bool × State :=
  dev.transfer d 0 offset buffer count

def write_blocks (buffer offset count : UInt64) : State → Bool × State :=
  dev.transfer d 1 offset buffer count

end ATADevice

/-! ## What the drive is programmed with -/

variable {dev : ATADevice} {c : ATAController} {d : Drive} {s t : State} {p q : Port} {v : UInt8}

namespace State

@[simp] theorem outb_recent :
    (s.outb p v).recent q = if q = p then v else s.recent q := by
  unfold outb
  split <;> exact Function.update_apply ..

@[simp] theorem outb_previous :
    (s.outb p v).previous q = if q = p then s.recent p else s.previous q := by
  unfold outb
  split <;> exact Function.update_apply ..

@[simp] theorem outb_memory : (s.outb p v).memory = s.memory := by
  unfold outb
  split <;> rfl

@[simp] theorem outb_words : (s.outb p v).words = s.words := by
  unfold outb
  split <;> rfl

theorem outb_command : (s.outb (.base 7) v).command = some (s.latch v) := by
  simp [outb, latch]

end State

open ATAController Addresses

theorem port_low {reg : ℕ} (h : reg < 8) : port reg = some (.base reg) := if_pos h

theorem port_high {reg : ℕ} (h : reg < 4) : port (8 + reg) = some (.base (2 + reg)) := by
  unfold port
  rw [if_neg (by omega), if_pos (by omega), show 8 + reg - 6 = 2 + reg by omega]

theorem ata_write_low {reg : ℕ} (h : reg < 8) : c.ata_write reg v s = s.outb (.base reg) v := by
  unfold ata_write put
  rw [if_neg (by omega), if_neg (by omega), port_low h]

theorem ata_write_high {reg : ℕ} (h : reg < 4) : c.ata_write (8 + reg) v s =
    ((s.outb (.ctrl 2) (0x80 ||| c.nIEN)).outb (.base (2 + reg)) v).outb (.ctrl 2) c.nIEN := by
  unfold ata_write put
  rw [if_pos (by omega), if_pos (by omega), port_high h]
  rfl

/-- How many sectors the drive takes a byte to stand for. -/
def sectors (nr_blocks : UInt64) : ℕ := if nr_blocks.toNat % 256 = 0 then 65536 else nr_blocks.toNat % 256

/-- A number of six bytes. -/
theorem six_bytes (x : ℕ) : x / 2 ^ 40 % 256 * 1099511627776 + x / 2 ^ 32 % 256 * 4294967296 +
    x / 2 ^ 24 % 256 * 16777216 + x / 2 ^ 16 % 256 * 65536 + x / 2 ^ 8 % 256 * 256 + x % 256 =
      x % 281474976710656 := by
  have hbyte (k n : ℕ) :
      x / 2 ^ k % (256 * n) = x / 2 ^ k % 256 + 256 * (x / 2 ^ (k + 8) % n) := by
    rw [Nat.mod_mul, Nat.div_div_eq_div_mul, Nat.pow_add]
  have h0 := hbyte 0 (256 * 256 * 256 * 256 * 256)
  have h1 := hbyte 8 (256 * 256 * 256 * 256)
  have h2 := hbyte 16 (256 * 256 * 256)
  have h3 := hbyte 24 (256 * 256)
  have h4 := hbyte 32 256
  simp only [Nat.pow_zero, Nat.div_one, Nat.reduceAdd, Nat.reduceMul] at h0 h1 h2 h3 h4
  rw [h0, h1, h2, h3, h4]
  generalize x / 2 ^ 40 % 256 = b₅, x / 2 ^ 32 % 256 = b₄, x / 2 ^ 24 % 256 = b₃,
    x / 2 ^ 16 % 256 = b₂, x / 2 ^ 8 % 256 = b₁
  omega

theorem program_latch (code : UInt8) (lba nr_blocks : UInt64) :
    (dev._ctrl.ata_write ATA_REG_COMMAND code (dev.program lba nr_blocks s)).command =
      some ⟨code, dev._drive, lba.toNat % 2 ^ 48, sectors nr_blocks⟩ := by
  rw [show ATA_REG_COMMAND = 7 from rfl, ata_write_low (by decide), State.outb_command]
  unfold ATADevice.program
  rw [show ATA_REG_SECCOUNT1 = 8 + 0 from rfl, show ATA_REG_LBA3 = 8 + 1 from rfl,
    show ATA_REG_LBA4 = 8 + 2 from rfl, show ATA_REG_LBA5 = 8 + 3 from rfl,
    show ATA_REG_HDDEVSEL = 6 from rfl, show ATA_REG_SECCOUNT0 = 2 from rfl,
    show ATA_REG_LBA0 = 3 from rfl, show ATA_REG_LBA1 = 4 from rfl, show ATA_REG_LBA2 = 5 from rfl]
  dsimp only
  repeat rw [ata_write_high (by decide)]
  repeat rw [ata_write_low (by decide)]
  simp [State.latch]
  have hlt := dev.drive_lt
  have hbyte : ∀ x, x &&& 255 = x % 256 := fun x => Nat.and_two_pow_sub_one_eq_mod x 8
  refine ⟨?_, ?_, rfl⟩
  · rcases (by omega : dev._drive = 0 ∨ dev._drive = 1) with h | h
    all_goals
      rw [h]
      rfl
  · simp only [hbyte, Nat.shiftRight_eq_div_pow, Nat.mod_mod]
    exact six_bytes lba.toNat

/-- What is not a register of the drive stays as it is. -/
theorem ata_write_frame {α : Type} {f : State → α} (hf : ∀ p v s, f (s.outb p v) = f s) (reg : ℕ) :
    f (c.ata_write reg v s) = f s := by
  have hput : ∀ reg v s, f (put reg v s) = f s := by
    intro reg v s
    unfold put
    split
    · exact hf ..
    · rfl
  unfold ata_write
  dsimp only
  split_ifs
  · rw [hput, hput, hput]
  · exact hput ..

@[simp] theorem ata_write_memory (reg : ℕ) : (c.ata_write reg v s).memory = s.memory :=
  ata_write_frame (fun _ _ _ => State.outb_memory) reg

@[simp] theorem ata_write_words (reg : ℕ) : (c.ata_write reg v s).words = s.words :=
  ata_write_frame (fun _ _ _ => State.outb_words) reg

theorem program_memory (lba nr_blocks : UInt64) : (dev.program lba nr_blocks s).memory = s.memory := by
  simp [ATADevice.program]

theorem program_words (lba nr_blocks : UInt64) : (dev.program lba nr_blocks s).words = s.words := by
  simp [ATADevice.program]

/-! ## Waiting for the drive -/

theorem ata_read_status :
    c.ata_read d ATA_REG_STATUS s = (d.inb (.base 7) s.reads, { s with reads := s.reads + 1 }) := rfl

theorem busy_loop_eq {n fuel : ℕ} (hlt : n < fuel)
    (hready : d.inb (.base 7) (s.reads + n) &&& ATA_SR_BSY = 0)
    (hbusy : ∀ i < n, d.inb (.base 7) (s.reads + i) &&& ATA_SR_BSY ≠ 0) :
    c.busy_loop d fuel s = { s with reads := s.reads + n + 1 } := by
  induction fuel generalizing n s with
  | zero => omega
  | succ fuel ih =>
    unfold busy_loop
    rw [ata_read_status]
    dsimp only
    cases n with
    | zero => exact if_neg (not_not_intro hready)
    | succ n =>
      have hfirst : d.inb (.base 7) s.reads &&& ATA_SR_BSY ≠ 0 := hbusy 0 (by omega)
      rw [if_pos hfirst]
      have hnext : ∀ i, s.reads + 1 + i = s.reads + (i + 1) := fun i => by omega
      rw [ih (s := { s with reads := s.reads + 1 }) (n := n) (by omega) (by rw [hnext]; exact hready)
        fun i hi => by rw [hnext]; exact hbusy (i + 1) (by omega), hnext]

/-- The reads up to the first that is not busy, and nothing else. -/
theorem wait_eq : c.wait d s = { s with reads := s.reads + Nat.find (d.ready s.reads) + 1 } :=
  busy_loop_eq (Nat.lt_succ_self _) (Nat.find_spec (d.ready s.reads)) fun _ hi =>
    Nat.find_min (d.ready s.reads) hi

theorem wait_memory : (c.wait d s).memory = s.memory := by rw [wait_eq]

theorem wait_words : (c.wait d s).words = s.words := by rw [wait_eq]

theorem ata_poll_eq (check : Bool) (s : State) :
    ∃ k, (c.ata_poll d check s).2 = { s with reads := s.reads + k } := by
  unfold ata_poll
  rw [wait_eq]
  cases check with
  | false => exact ⟨Nat.find (d.ready s.reads) + 1, rfl⟩
  | true =>
    rw [if_pos rfl, ata_read_status]
    refine ⟨Nat.find (d.ready s.reads) + 2, ?_⟩
    dsimp only
    split_ifs <;> rfl

/-! ## Reading the blocks -/

namespace Drive

/-- The bytes of the words that the drive has. -/
def byte (d : Drive) (i : ℕ) : UInt8 :=
  if i % 2 = 0 then (d.data (i / 2)).toUInt8 else (d.data (i / 2) >>> 8).toUInt8

/-- The next bytes of the drive are in the buffer, and all other bytes are as before. -/
def Filled (d : Drive) (before after : State) (buffer : UInt64) (bytes : ℕ) : Prop :=
  2 * after.words = 2 * before.words + bytes ∧
    Overlaid before.memory after.memory buffer bytes fun i => d.byte (2 * before.words + i)

theorem Filled.append {u : State} {buffer : UInt64} {j k : ℕ} (h : d.Filled s t buffer j)
    (h' : d.Filled t u (buffer + UInt64.ofNat j) k) (hlt : j + k < 2 ^ 64) :
    d.Filled s u buffer (j + k) := by
  obtain ⟨hwords, hmemory⟩ := h'
  rw [h.1] at hwords hmemory
  refine ⟨by rw [hwords, Nat.add_assoc], h.2.append ?_ hlt⟩
  simpa only [Nat.add_assoc] using hmemory

/-- One word, and its two bytes. -/
theorem insw_one {buffer : UInt64} : d.Filled s (d.insw buffer 1 s) buffer 2 := by
  have hlow : d.byte (2 * s.words) = (d.data s.words).toUInt8 := by
    unfold byte
    rw [if_pos (by omega), show 2 * s.words / 2 = s.words by omega]
  have hhigh : d.byte (2 * s.words + 1) = (d.data s.words >>> 8).toUInt8 := by
    unfold byte
    rw [if_neg (by omega), show (2 * s.words + 1) / 2 = s.words by omega]
  refine ⟨rfl, fun a => ?_⟩
  show Function.update (Function.update s.memory buffer _) (buffer + 1) _ a = _
  by_cases hfirst : a = buffer
  · rw [hfirst, Function.update_of_ne (by grind), Function.update_self, UInt64.sub_self]
    exact hlow.symm
  by_cases hsecond : a = buffer + 1
  · rw [hsecond, Function.update_self, show buffer + 1 - buffer = 1 by grind]
    exact hhigh.symm
  · have hdist : ∀ i : UInt64, a ≠ buffer + i → (a - buffer).toNat ≠ i.toNat := fun i hne h =>
      hne (by rw [← UInt64.toNat_inj.mp h]; grind)
    have hzero := hdist 0 (by rwa [UInt64.add_zero])
    have hone := hdist 1 hsecond
    rw [UInt64.toNat_zero] at hzero
    rw [UInt64.toNat_one] at hone
    rw [Function.update_of_ne hsecond, Function.update_of_ne hfirst, if_neg (by omega)]

theorem insw_filled {buffer : UInt64} {count : ℕ} (hlt : 2 * count < 2 ^ 64) :
    d.Filled s (d.insw buffer count s) buffer (2 * count) := by
  induction count generalizing buffer s with
  | zero => exact ⟨rfl, fun a => (if_neg (Nat.not_lt_zero _)).symm⟩
  | succ count ih =>
    rw [show 2 * (count + 1) = 2 + 2 * count by omega] at hlt ⊢
    exact insw_one.append (ih (by omega)) hlt

theorem insw_command (buffer : UInt64) (count : ℕ) : (d.insw buffer count s).command = s.command := by
  induction count generalizing buffer s with
  | zero => rfl
  | succ count ih => exact ih ..

end Drive

namespace ATADevice

/-- Whether it is read to the end or not, the command stays the same. -/
theorem read_loop_command (blocks : ℕ) (p : UInt64) (s : State) :
    (dev.read_loop d blocks p s).2.command = s.command := by
  induction blocks generalizing p s with
  | zero => rfl
  | succ blocks ih =>
    unfold read_loop
    obtain ⟨k, hk⟩ := ata_poll_eq (c := dev._ctrl) (d := d) true s
    dsimp only
    split
    · rw [hk]
    · rw [ih, Drive.insw_command, hk]

/-- A drive that always has data and no error lets the loop end. -/
theorem read_loop_true (hdata : ∀ k, d.inb (.base 7) k &&& ATA_SR_ERR = 0 ∧
    d.inb (.base 7) k &&& ATA_SR_DF = 0 ∧ d.inb (.base 7) k &&& ATA_SR_DRQ ≠ 0) (blocks : ℕ)
    (p : UInt64) (s : State) : (dev.read_loop d blocks p s).1 = true := by
  have hpoll : ∀ s, (dev._ctrl.ata_poll d true s).1 = 0 := by
    intro s
    unfold ata_poll
    rw [if_pos rfl, wait_eq, ata_read_status]
    dsimp only
    obtain ⟨herr, hdf, hdrq⟩ := hdata (s.reads + Nat.find (d.ready s.reads) + 1)
    rw [if_neg (not_not_intro herr), if_neg (not_not_intro hdf), if_neg hdrq]
  induction blocks generalizing p s with
  | zero => rfl
  | succ blocks ih =>
    unfold read_loop
    dsimp only
    rw [hpoll, if_neg (not_not_intro rfl)]
    exact ih ..

/-- All blocks are in the buffer, if the loop is not left before. -/
theorem read_loop_filled {blocks : ℕ} {p : UInt64} (hlt : 512 * blocks < 2 ^ 64)
    (hok : (dev.read_loop d blocks p s).1 = true) :
    d.Filled s (dev.read_loop d blocks p s).2 p (512 * blocks) := by
  induction blocks generalizing p s with
  | zero => exact ⟨rfl, fun a => (if_neg (Nat.not_lt_zero _)).symm⟩
  | succ blocks ih =>
    unfold read_loop at hok ⊢
    obtain ⟨k, hk⟩ := ata_poll_eq (c := dev._ctrl) (d := d) true s
    dsimp only at hok ⊢
    rw [hk] at hok ⊢
    split at hok
    next herror => exact absurd hok Bool.false_ne_true
    next hnone =>
      rw [if_neg hnone]
      rw [show 512 * (blocks + 1) = 512 + 512 * blocks by omega] at hlt ⊢
      have hinsw : d.Filled { s with reads := s.reads + k }
          (d.insw p (512 / 2) { s with reads := s.reads + k }) p (2 * (512 / 2)) :=
        Drive.insw_filled (by decide)
      have hblock : d.Filled s (d.insw p (512 / 2) { s with reads := s.reads + k }) p 512 :=
        ⟨hinsw.1, hinsw.2⟩
      have hrest := ih (by omega) hok
      rw [show (512 : UInt64) = UInt64.ofNat 512 from rfl] at hrest ⊢
      exact hblock.append hrest hlt

/-! ## Transfers -/

/-- All bytes of the blocks have gone from the buffer to the drive. -/
def Sent (before after : State) (buffer : UInt64) (bytes : ℕ) : Prop :=
  after.memory = before.memory ∧ after.words = before.words ∧
    after.received = (List.range bytes).map fun i => before.memory (buffer + UInt64.ofNat i)

/-- What a transfer is meant to do. -/
structure Right (dev : ATADevice) (d : Drive) (direction : ℤ) (lba buffer nr_blocks : UInt64)
    (before : State) (result : Bool × State) : Prop where
  programmed : result.2.command = some
    ⟨if direction ≠ 0 then ATA_CMD_WRITE_PIO_EXT else ATA_CMD_READ_PIO_EXT, dev._drive, lba.toNat,
      nr_blocks.toNat⟩
  moved : result.1 = true →
    if direction ≠ 0 then Sent before result.2 buffer (512 * nr_blocks.toNat)
    else d.Filled before result.2 buffer (512 * nr_blocks.toNat)

theorem transfer_command (direction : ℤ) (lba buffer nr_blocks : UInt64) :
    (dev.transfer d direction lba buffer nr_blocks s).2.command = some
      ⟨if direction ≠ 0 then ATA_CMD_WRITE_PIO_EXT else ATA_CMD_READ_PIO_EXT, dev._drive,
        lba.toNat % 2 ^ 48, sectors nr_blocks⟩ := by
  unfold transfer
  dsimp only
  split
  · exact program_latch ..
  · rw [read_loop_command]
    exact program_latch ..

/-- A write never gives the drive a byte. -/
theorem transfer_write {direction : ℤ} (h : direction ≠ 0) (lba buffer nr_blocks : UInt64) :
    (dev.transfer d direction lba buffer nr_blocks s).1 = true ∧
      (dev.transfer d direction lba buffer nr_blocks s).2.received = [] := by
  unfold transfer
  dsimp only
  rw [if_pos h]
  exact ⟨rfl, rfl⟩

theorem transfer_read {lba buffer nr_blocks : UInt64} (hle : nr_blocks.toNat ≤ 65536)
    (hok : (dev.transfer d 0 lba buffer nr_blocks s).1 = true) :
    d.Filled s (dev.transfer d 0 lba buffer nr_blocks s).2 buffer (512 * nr_blocks.toNat) := by
  unfold transfer at hok ⊢
  dsimp only at hok ⊢
  rw [if_neg (by decide)] at hok ⊢
  have h := read_loop_filled (by omega) hok
  unfold Drive.Filled at h ⊢
  rwa [ata_write_words, ata_write_memory, program_words, program_memory, wait_words, wait_memory] at h

theorem write_not_right {direction : ℤ} (h : direction ≠ 0) {lba buffer nr_blocks : UInt64}
    (hpos : 1 ≤ nr_blocks.toNat) : ¬Right dev d direction lba buffer nr_blocks s
      (dev.transfer d direction lba buffer nr_blocks s) := by
  intro hright
  have hmoved := hright.moved (transfer_write h lba buffer nr_blocks).1
  rw [if_pos h] at hmoved
  have hlength := congrArg List.length
    (hmoved.2.2.symm.trans (transfer_write h lba buffer nr_blocks).2)
  rw [List.length_map, List.length_range, List.length_nil] at hlength
  omega

/-- The drive counts as many sectors as were asked for. -/
theorem Right.sectors_eq {direction : ℤ} {lba buffer nr_blocks : UInt64}
    (h : Right dev d direction lba buffer nr_blocks s
      (dev.transfer d direction lba buffer nr_blocks s)) : sectors nr_blocks = nr_blocks.toNat := by
  have hcount := h.programmed
  rw [transfer_command, Option.some.injEq, Command.mk.injEq] at hcount
  exact hcount.2.2.2

/-- What is read from a drive that has data all the time is read to the end. -/
theorem transfer_true (hdata : ∀ k, d.inb (.base 7) k &&& ATA_SR_ERR = 0 ∧
    d.inb (.base 7) k &&& ATA_SR_DF = 0 ∧ d.inb (.base 7) k &&& ATA_SR_DRQ ≠ 0)
    (lba buffer nr_blocks : UInt64) : (dev.transfer d 0 lba buffer nr_blocks s).1 = true := by
  unfold transfer
  dsimp only
  rw [if_neg (by decide)]
  exact read_loop_true hdata ..

/-- A transfer is right if and only if it is a read, and of fewer than 256 blocks or of 65536. -/
theorem transfer_right_iff (dev : ATADevice) (d : Drive) (s : State) (direction : ℤ)
    (lba buffer nr_blocks : UInt64) (hlba : lba.toNat < 2 ^ 48) (hpos : 1 ≤ nr_blocks.toNat)
    (hle : nr_blocks.toNat ≤ 65536) :
    Right dev d direction lba buffer nr_blocks s (dev.transfer d direction lba buffer nr_blocks s) ↔
      direction = 0 ∧ (nr_blocks.toNat < 256 ∨ nr_blocks.toNat = 65536) := by
  have hsectors : sectors nr_blocks = nr_blocks.toNat ↔
      nr_blocks.toNat < 256 ∨ nr_blocks.toNat = 65536 := by
    unfold sectors
    split <;> omega
  constructor
  · intro h
    refine ⟨by_contra fun hwrite => ?_, hsectors.mp h.sectors_eq⟩
    exact write_not_right hwrite hpos h
  · rintro ⟨rfl, hcount⟩
    refine ⟨?_, fun hok => ?_⟩
    · rw [transfer_command, Nat.mod_eq_of_lt hlba, hsectors.mpr hcount]
    · rw [if_neg (by decide)]
      exact transfer_read hle hok

/-- A drive that has always data. -/
def willing : Drive := ⟨fun _ _ => 0x58, fun k => UInt16.ofNat k, fun _ => ⟨0, rfl⟩⟩

def idle : State := ⟨0, 0, fun _ => 0, fun _ => 0, none, [], fun _ => 0⟩

/-- The last two blocks of an address of 48 bits. -/
theorem transfer_right_iff_two : Right ⟨⟨2⟩, 0, by decide⟩ willing 0 0xfffffffffffe 0x1000 2 idle
      (transfer ⟨⟨2⟩, 0, by decide⟩ willing 0 0xfffffffffffe 0x1000 2 idle) ↔
    (0 : ℤ) = 0 ∧ ((2 : UInt64).toNat < 256 ∨ (2 : UInt64).toNat = 65536) :=
  transfer_right_iff _ willing idle 0 0xfffffffffffe 0x1000 2 (by decide) (by decide) (by decide)

/-- A write of one block, and a read of 256, for which the drive is asked for 65536. -/
theorem transfer_wrong :
    ¬Right ⟨⟨2⟩, 0, by decide⟩ willing 1 0 0x1000 1 idle
      (transfer ⟨⟨2⟩, 0, by decide⟩ willing 1 0 0x1000 1 idle) ∧
    ¬Right ⟨⟨2⟩, 0, by decide⟩ willing 0 0 0x1000 256 idle
      (transfer ⟨⟨2⟩, 0, by decide⟩ willing 0 0 0x1000 256 idle) :=
  ⟨write_not_right (by decide) (by decide), fun h => absurd h.sectors_eq (by decide)⟩

end ATADevice

end Infos.Drivers.Ata
