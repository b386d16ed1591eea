import Infos.Fs.Tar
import Infos.Lib.System

/-!
# Reading a file of an archive

Both drivers for archives read a file block by block. The one of `coursework/tarfs.cpp` has each
block read into the buffer of the caller, and the one of `infos/fs/internal-driver.cpp` into an
array of its own. What the array holds at first is not known.
-/

open Infos.Bytes

namespace Infos.Fs

/-- The memory of the caller from the start of the buffer on, and the array of the function. -/
structure Buffers where
  caller : Memory
  own : Memory

/-- The loop of the two functions. `into` is where a block is read to. -/
def read_loop (into : Block → Buffers → Buffers) (dev : BlockDevice) (start : UInt32)
    (size : UInt64) : ℕ → UInt32 → UInt64 → Buffers → Option (UInt32 × Buffers)
  | 0, _, _, _ => none
  | turns + 1, readNum, off, m =>
    if readNum.toUInt64 < size then
      let discardedContents := (off / 512).toUInt32
      let actualReadContents := (off % 512).toUInt32
      match dev.read_block (start + discardedContents).toNat with
      | none => some (readNum, m)
      | some block =>
        let m := into block m
        let filePage := min (512 - actualReadContents).toUInt64 (size - readNum.toUInt64)
        let caller := write m.caller readNum.toNat filePage.toNat fun i =>
          m.own (actualReadContents.toNat + i)
        read_loop into dev start size turns (readNum + filePage.toUInt32) (off + filePage)
          { m with caller }
    else some (readNum, m)

/-! ## `TarFSFile` -/

structure TarFSFile where
  _hdr : Block
  _file_start_block : UInt32
  _cur_pos : UInt32

namespace TarFSFile

def size (f : TarFSFile) : UInt32 := octal2ui (posix_header.size f._hdr)

/-- `hdr` is what the memory for the header holds if it cannot be read. -/
def new (dev : BlockDevice) (hdr : Block) (file_header_block : UInt32) : TarFSFile :=
  ⟨(dev.read_block file_header_block.toNat).getD hdr, file_header_block + 1, 0⟩

def pread (dev : BlockDevice) (f : TarFSFile) (turns : ℕ) (m : Buffers) (size off : UInt64) :
    Option (Int32 × Memory) :=
  if f.size.toUInt64 ≤ off then some (0, m.caller)
  else (read_loop (fun block m => { m with caller := write m.caller 0 512 block.byte }) dev
    f._file_start_block size turns 0 off m).map fun r => (r.1.toInt32, r.2.caller)

end TarFSFile

/-! ## `ZZz`, the file of the internal driver -/

/-- The header is read only for the size. -/
structure ZZz where
  xXc : UInt32
  Xxc : UInt32
  XXc : UInt32
  deriving DecidableEq, Repr

namespace ZZz

def new (dev : BlockDevice) (hdr : Block) (ddD : UInt32) : ZZz :=
  let XXc := octal2ui (posix_header.size ((dev.read_block ddD.toNat).getD hdr))
  ⟨ddD + 1, if XXc = 0 then -1 else 0, XXc⟩

def pread (dev : BlockDevice) (f : ZZz) (turns : ℕ) (m : Buffers) (KKK KvK : UInt64) :
    Option (Int32 × Memory) :=
  if f.XXc.toUInt64 ≤ KvK then some (0, m.caller)
  else (read_loop (fun block m => { m with own := write m.own 0 512 block.byte }) dev f.xXc KKK
    turns 0 KvK m).map fun r => (r.1.toInt32, r.2.caller)

def read (dev : BlockDevice) (f : ZZz) (turns : ℕ) (m : Buffers) (opp : UInt64) :
    Option (Int32 × Memory × ZZz) :=
  (f.pread dev turns m opp f.Xxc.toUInt64).map fun r =>
    (r.1, r.2, { f with Xxc := f.Xxc + r.1.toUInt32 })

end ZZz

/-! ## The loop -/

/-- The bytes from the block `start` on. -/
def data (dev : BlockDevice) (start : ℕ) (x : ℕ) : UInt8 :=
  ((dev.read_block (start + x / 512)).getD fun _ => 0).byte (x % 512)

def BlockDevice.Reads (dev : BlockDevice) : Prop := ∀ k, ∃ block, dev.read_block k = some block

variable {dev : BlockDevice} {into : Block → Buffers → Buffers} {start readNum r : UInt32}
  {size off : UInt64} {m m' : Buffers} {turns : ℕ}

/-- How much of a block is copied. -/
def chunk (size readNum off : ℕ) : ℕ := min (512 - off % 512) (size - readNum)

theorem read_loop_done (h : size.toNat ≤ readNum.toNat) :
    read_loop into dev start size (turns + 1) readNum off m = some (readNum, m) := by
  unfold read_loop
  rw [if_neg]
  rw [UInt64.lt_iff_toNat_lt, UInt32.toNat_toUInt64]
  omega

theorem toNat_block (start : UInt32) (off : UInt64) : (start + (off / 512).toUInt32).toNat =
    (start.toNat + off.toNat / 512) % 2 ^ 32 := by
  rw [UInt32.toNat_add, UInt64.toNat_toUInt32, UInt64.toNat_div]
  exact Nat.add_mod_mod _ _ _

theorem toNat_rest (off : UInt64) : (off % 512).toUInt32.toNat = off.toNat % 512 := by
  rw [UInt64.toNat_toUInt32, UInt64.toNat_mod]
  show off.toNat % 512 % 4294967296 = _
  omega

theorem toUInt64_le_iff (a : UInt32) (b : UInt64) : a.toUInt64 ≤ b ↔ a.toNat ≤ b.toNat := by
  rw [UInt64.le_iff_toNat_le, UInt32.toNat_toUInt64]

theorem toNat_min (a b : UInt64) : (min a b).toNat = min a.toNat b.toNat := by
  show (if a ≤ b then a else b).toNat = _
  split
  next h => rw [UInt64.le_iff_toNat_le] at h; omega
  next h => rw [UInt64.le_iff_toNat_le] at h; omega

theorem toNat_chunk (h : readNum.toNat < size.toNat) :
    (min (512 - (off % 512).toUInt32).toUInt64 (size - readNum.toUInt64)).toNat =
      chunk size.toNat readNum.toNat off.toNat := by
  have hrest := toNat_rest off
  have hleft : (512 - (off % 512).toUInt32).toUInt64.toNat = 512 - off.toNat % 512 := by
    rw [UInt32.toNat_toUInt64, UInt32.toNat_sub_of_le, hrest]
    · rfl
    · rw [UInt32.le_iff_toNat_le, hrest]
      exact (Nat.mod_lt _ (by decide)).le
  have hright : (size - readNum.toUInt64).toNat = size.toNat - readNum.toNat := by
    rw [UInt64.toNat_sub_of_le, UInt32.toNat_toUInt64]
    exact (toUInt64_le_iff _ _).mpr h.le
  unfold chunk
  rw [← hleft, ← hright, toNat_min]

theorem read_loop_block (into : Block → Buffers → Buffers) (m : Buffers) {block : Block}
    (hblock : dev.read_block ((start.toNat + off.toNat / 512) % 2 ^ 32) = some block)
    (h : readNum.toNat < size.toNat) : ∃ (r' : UInt32) (o' : UInt64),
      r'.toNat = (readNum.toNat + chunk size.toNat readNum.toNat off.toNat) % 2 ^ 32 ∧
      o'.toNat = (off.toNat + chunk size.toNat readNum.toNat off.toNat) % 2 ^ 64 ∧
      ∀ turns, read_loop into dev start size (turns + 1) readNum off m =
        read_loop into dev start size turns r' o'
          { into block m with
            caller := write (into block m).caller readNum.toNat
              (chunk size.toNat readNum.toNat off.toNat)
              fun i => (into block m).own (off.toNat % 512 + i) } := by
  refine ⟨readNum + (min (512 - (off % 512).toUInt32).toUInt64
    (size - readNum.toUInt64)).toUInt32, off + min (512 - (off % 512).toUInt32).toUInt64
    (size - readNum.toUInt64), ?_, ?_, fun turns => ?_⟩
  · rw [UInt32.toNat_add, UInt64.toNat_toUInt32, toNat_chunk h, Nat.add_mod_mod]
  · rw [UInt64.toNat_add, toNat_chunk h]
  · rw [read_loop, if_pos]
    · dsimp only
      rw [toNat_block, hblock]
      dsimp only
      rw [toNat_chunk h, toNat_rest]
    · rw [UInt64.lt_iff_toNat_lt, UInt32.toNat_toUInt64]
      exact h

theorem read_loop_stuck (into : Block → Buffers → Buffers) (m : Buffers) (turns : ℕ)
    (hblock : dev.read_block ((start.toNat + off.toNat / 512) % 2 ^ 32) = none)
    (h : readNum.toNat < size.toNat) :
    read_loop into dev start size (turns + 1) readNum off m = some (readNum, m) := by
  rw [read_loop, if_pos]
  · dsimp only
    rw [toNat_block, hblock]
  · rw [UInt64.lt_iff_toNat_lt, UInt32.toNat_toUInt64]
    exact h

theorem chunk_le {n k o : ℕ} (h : k < n) : 0 < chunk n k o ∧ chunk n k o ≤ n - k ∧
    o % 512 + chunk n k o ≤ 512 := by
  unfold chunk
  omega

/-- The loop ends when it has copied what was asked for, and what holds of its end holds in front of
it if every turn carries it back. -/
theorem read_loop_rule {P : UInt32 → UInt64 → Buffers → Prop} (hreads : dev.Reads)
    (h : readNum.toNat ≤ size.toNat)
    (hr : read_loop into dev start size turns readNum off m = some (r, m'))
    (hdone : ∀ off, P r off m')
    (hturn : ∀ (k : UInt32) o m block (k' : UInt32) (o' : UInt64), k.toNat < size.toNat →
      dev.read_block ((start.toNat + o.toNat / 512) % 2 ^ 32) = some block →
      k'.toNat = k.toNat + chunk size.toNat k.toNat o.toNat →
      o'.toNat = (o.toNat + chunk size.toNat k.toNat o.toNat) % 2 ^ 64 →
      P k' o' { into block m with
        caller := write (into block m).caller k.toNat (chunk size.toNat k.toNat o.toNat)
          fun i => (into block m).own (o.toNat % 512 + i) } → P k o m) :
    r.toNat = size.toNat ∧ P readNum off m := by
  induction turns generalizing readNum off m with
  | zero => cases hr
  | succ turns ih =>
    obtain heq | hlt := h.eq_or_lt
    · rw [read_loop_done heq.ge] at hr
      cases hr
      exact ⟨heq, hdone off⟩
    · have hc := chunk_le (o := off.toNat) hlt
      obtain ⟨block, hblock⟩ := hreads ((start.toNat + off.toNat / 512) % 2 ^ 32)
      obtain ⟨r', o', hr', ho', hloop⟩ := read_loop_block into m hblock hlt
      rw [hloop] at hr
      obtain ⟨hcount, hp⟩ := ih (by omega) hr
      have hsize : size.toNat < 2 ^ 32 := hcount ▸ r.toNat_lt
      exact ⟨hcount, hturn _ _ _ block r' o' hlt hblock (by omega) ho' hp⟩

theorem read_loop_count (hreads : dev.Reads) (h : readNum.toNat ≤ size.toNat)
    (hr : read_loop into dev start size turns readNum off m = some (r, m')) :
    r.toNat = size.toNat :=
  (read_loop_rule (P := fun _ _ _ => True) hreads h hr (fun _ => trivial)
    fun _ _ _ _ _ _ _ _ _ _ _ => trivial).1

theorem read_loop_ends (into : Block → Buffers → Buffers) (start : UInt32) (off : UInt64)
    (m : Buffers) (hreads : dev.Reads) (hsize : size.toNat < 2 ^ 32)
    (h : readNum.toNat ≤ size.toNat) :
    ∃ turns r m', read_loop into dev start size turns readNum off m = some (r, m') := by
  obtain ⟨left, hleft⟩ : ∃ left, left = size.toNat - readNum.toNat := ⟨_, rfl⟩
  induction left using Nat.strongRecOn generalizing readNum off m with
  | ind left ih =>
    obtain heq | hlt := h.eq_or_lt
    · exact ⟨1, _, _, read_loop_done heq.ge⟩
    · have hc := chunk_le (o := off.toNat) hlt
      obtain ⟨block, hblock⟩ := hreads ((start.toNat + off.toNat / 512) % 2 ^ 32)
      obtain ⟨r', o', hr', -, hloop⟩ := read_loop_block into m hblock hlt
      have hle : r'.toNat ≤ size.toNat := by omega
      obtain ⟨turns, r, m', hr⟩ := ih (size.toNat - r'.toNat) (by omega) o' _ hle rfl
      exact ⟨turns + 1, r, m', (hloop turns).trans hr⟩

/-- Every turn copies a byte, if any are left. -/
theorem read_loop_enough (into : Block → Buffers → Buffers) (start readNum : UInt32) (off : UInt64)
    (m : Buffers) (hreads : dev.Reads) (hsize : size.toNat < 2 ^ 32)
    (h : readNum.toNat ≤ size.toNat) (hturns : size.toNat - readNum.toNat < turns) :
    ∃ r m', read_loop into dev start size turns readNum off m = some (r, m') := by
  induction turns generalizing readNum off m with
  | zero => omega
  | succ turns ih =>
    obtain heq | hlt := h.eq_or_lt
    · exact ⟨_, _, read_loop_done heq.ge⟩
    · have hc := chunk_le (o := off.toNat) hlt
      obtain ⟨block, hblock⟩ := hreads ((start.toNat + off.toNat / 512) % 2 ^ 32)
      obtain ⟨r', o', hr', -, hloop⟩ := read_loop_block into m hblock hlt
      obtain ⟨r, m', hr⟩ := ih r' o' _ (by omega) (by omega)
      exact ⟨r, m', (hloop turns).trans hr⟩

/-- A loop that has each block in its own array copies the bytes of the file. -/
theorem staged_bytes (hreads : dev.Reads) (h : readNum.toNat ≤ size.toNat)
    (hoff : off.toNat + (size.toNat - readNum.toNat) < 2 ^ 64)
    (hdev : start.toNat + (off.toNat + (size.toNat - readNum.toNat) + 511) / 512 ≤ 2 ^ 32)
    (hr : read_loop (fun block m => { m with own := write m.own 0 512 block.byte }) dev start size
      turns readNum off m = some (r, m')) :
    (∀ i, readNum.toNat + i < size.toNat →
      m'.caller (readNum.toNat + i) = data dev start.toNat (off.toNat + i)) ∧
    ∀ i, i < readNum.toNat ∨ size.toNat ≤ i → m'.caller i = m.caller i := by
  have hcount := read_loop_count hreads h hr
  refine (read_loop_rule (P := fun k o m =>
    o.toNat + (size.toNat - k.toNat) < 2 ^ 64 →
    start.toNat + (o.toNat + (size.toNat - k.toNat) + 511) / 512 ≤ 2 ^ 32 →
    (∀ i, k.toNat + i < size.toNat → m'.caller (k.toNat + i) = data dev start.toNat (o.toNat + i)) ∧
      ∀ i, i < k.toNat ∨ size.toNat ≤ i → m'.caller i = m.caller i) hreads h hr
    (fun _ _ _ => ⟨fun i hi => by omega, fun _ _ => rfl⟩) ?_).2 hoff hdev
  intro k o m block k' o' hlt hblock hk' ho' hp hoff hdev
  have hc := chunk_le (o := o.toNat) hlt
  have ho' : o'.toNat = o.toNat + chunk size.toNat k.toNat o.toNat := by omega
  obtain ⟨hin, hout⟩ := hp (by omega) (by omega)
  refine ⟨fun i hi => ?_, fun i hi => ?_⟩
  · by_cases hic : i < chunk size.toNat k.toNat o.toNat
    · have hblock : dev.read_block (start.toNat + (o.toNat + i) / 512) = some block := by
        rw [← hblock]
        congr 1
        omega
      rw [hout (k.toNat + i) (by omega), data, hblock, Option.getD_some]
      dsimp only
      rw [write_inside _ (by omega) (by omega), write_inside _ (Nat.zero_le _) (by omega)]
      congr 1
      omega
    · have := hin (i - chunk size.toNat k.toNat o.toNat) (by omega)
      rw [hk', ho'] at this
      convert this using 2 <;> omega
  · rw [hout i (by omega)]
    dsimp only
    rw [write_outside _ (by omega)]

/-- What the caller has at the end of the buffer comes from the array of the function. -/
theorem last_byte (into : Block → Buffers → Buffers) {v : UInt8} (hreads : dev.Reads)
    (hinto : ∀ block m, (into block m).own = m.own)
    (h : readNum.toNat ≤ size.toNat) (hown : ∀ i, m.own i = v)
    (hlast : readNum.toNat = size.toNat → m.caller (size.toNat - 1) = v)
    (hr : read_loop into dev start size turns readNum off m = some (r, m')) :
    m'.caller (size.toNat - 1) = v := by
  refine (read_loop_rule (P := fun k _ m => (∀ i, m.own i = v) →
    (k.toNat = size.toNat → m.caller (size.toNat - 1) = v) → m'.caller (size.toNat - 1) = v) hreads h hr
    (fun _ _ hlast => hlast (read_loop_count hreads h hr)) ?_).2 hown hlast
  intro k o m block k' o' hlt _ hk' _ hp hown _
  have hc := chunk_le (o := o.toNat) hlt
  refine hp (fun i => by rw [hinto, hown]) fun heq => ?_
  dsimp only
  rw [write_inside _ (by omega) (by omega), hinto, hown]

/-! ## What a call answers -/

/-- The call reads the bytes from the position on, up to the end of the file, and leaves the memory
behind the buffer as it was. -/
structure Exact (file : ℕ → UInt8) (S pos n : ℕ) (before : Memory) (rc : Int32) (after : Memory) :
    Prop where
  rc : rc.toInt = (min n (S - pos) : ℕ)
  bytes : ∀ i, i < min n (S - pos) → after i = file (pos + i)
  outside : ∀ i, n ≤ i → after i = before i

theorem exact_none {file : ℕ → UInt8} {S pos n : ℕ} (h : S ≤ pos ∨ n = 0) (before : Memory) :
    Exact file S pos n before 0 before := by
  have hmin : min n (S - pos) = 0 := by omega
  refine ⟨?_, fun i hi => by omega, fun _ _ => rfl⟩
  rw [hmin]
  rfl

theorem toInt_toInt32 (x : UInt32) :
    x.toInt32.toInt = if x.toNat < 2 ^ 31 then (x.toNat : ℤ) else x.toNat - 2 ^ 32 := by
  show x.toBitVec.toInt = _
  rw [BitVec.toInt_eq_toNat_cond]
  have : x.toBitVec.toNat = x.toNat := rfl
  split <;> split <;> omega

/-! ## `ZZz` -/

namespace ZZz

variable {f : ZZz} {h : UInt32} {hdr : Block} {n : UInt64} {rc : Int32} {after : Memory}

/-- What is asked for is in the file, or the position is behind it. -/
def Fits (S pos n : ℕ) : Prop := S ≤ pos ∨ pos + n ≤ S ∧ n < 2 ^ 31

/-- The data of the file is in the device. -/
def Within (dev : BlockDevice) (f : ZZz) : Prop :=
  f.xXc.toNat + (f.XXc.toNat + 511) / 512 ≤ dev.block_count

theorem pread_behind (h : f.XXc.toNat ≤ off.toNat) :
    f.pread dev turns m n off = some (0, m.caller) := by
  unfold pread
  rw [if_pos ((toUInt64_le_iff _ _).mpr h)]

theorem pread_inside (h : off.toNat < f.XXc.toNat) : f.pread dev turns m n off =
    (read_loop (fun block m => { m with own := write m.own 0 512 block.byte }) dev f.xXc n turns 0
      off m).map fun r => (r.1.toInt32, r.2.caller) := by
  unfold pread
  rw [if_neg (by rwa [toUInt64_le_iff, Nat.not_le])]

theorem pread_count (hreads : dev.Reads) (h : off.toNat < f.XXc.toNat)
    (hr : f.pread dev turns m n off = some (rc, after)) :
    n.toNat < 2 ^ 32 ∧ rc.toInt = if n.toNat < 2 ^ 31 then (n.toNat : ℤ) else n.toNat - 2 ^ 32 := by
  rw [pread_inside h] at hr
  obtain ⟨⟨r, m'⟩, hloop, hr⟩ := Option.map_eq_some_iff.mp hr
  cases hr
  have hcount := read_loop_count hreads (by simp) hloop
  rw [toInt_toInt32, hcount]
  exact ⟨hcount ▸ r.toNat_lt, rfl⟩

theorem pread_exact (hreads : dev.Reads) (hdev : Within dev f)
    (hfits : Fits f.XXc.toNat off.toNat n.toNat)
    (hr : f.pread dev turns m n off = some (rc, after)) :
    Exact (data dev f.xXc.toNat) f.XXc.toNat off.toNat n.toNat m.caller rc after := by
  by_cases hoff : f.XXc.toNat ≤ off.toNat
  · rw [pread_behind hoff] at hr
    cases hr
    exact exact_none (.inl hoff) _
  · obtain ⟨hle, hn⟩ := hfits.resolve_left hoff
    have hlt := f.XXc.toNat_lt
    have hcount := dev.count_lt
    have hrc := (pread_count hreads (by omega) hr).2
    rw [pread_inside (by omega)] at hr
    obtain ⟨⟨r, m'⟩, hloop, hr⟩ := Option.map_eq_some_iff.mp hr
    cases hr
    unfold Within at hdev
    obtain ⟨hin, hout⟩ := staged_bytes hreads (by simp) (by simp; omega) (by simp; omega) hloop
    simp only [UInt32.toNat_zero, Nat.zero_add, Nat.not_lt_zero, false_or] at hin hout
    have hmin : min n.toNat (f.XXc.toNat - off.toNat) = n.toNat := by omega
    refine ⟨?_, fun i hi => hin i (by omega), hout⟩
    rw [hrc, if_pos hn, hmin]

theorem pread_ends (hreads : dev.Reads) (hfits : Fits f.XXc.toNat off.toNat n.toNat) :
    ∃ turns rc after, f.pread dev turns m n off = some (rc, after) := by
  by_cases hoff : f.XXc.toNat ≤ off.toNat
  · exact ⟨0, 0, m.caller, pread_behind hoff⟩
  · obtain ⟨hle, hn⟩ := hfits.resolve_left hoff
    obtain ⟨turns, r, m', hloop⟩ := read_loop_ends
      (fun block m => { m with own := write m.own 0 512 block.byte }) f.xXc off m hreads
      (show n.toNat < 2 ^ 32 by omega) (show (0 : UInt32).toNat ≤ n.toNat by simp)
    refine ⟨turns, r.toInt32, m'.caller, ?_⟩
    rw [pread_inside (by omega), hloop, Option.map_some]

/-- A call is exact if and only if what it asks for is in the file or behind it. -/
theorem pread_exact_iff (f : ZZz) (off n : UInt64) (m : Buffers) (hreads : dev.Reads)
    (hdev : Within dev f) :
    (∃ turns rc after, f.pread dev turns m n off = some (rc, after) ∧
      Exact (data dev f.xXc.toNat) f.XXc.toNat off.toNat n.toNat m.caller rc after) ↔
      Fits f.XXc.toNat off.toNat n.toNat := by
  constructor
  · rintro ⟨turns, rc, after, hr, hexact⟩
    by_cases hoff : f.XXc.toNat ≤ off.toNat
    · exact .inl hoff
    · obtain ⟨hn, hrc⟩ := pread_count hreads (by omega) hr
      have := hexact.rc
      rw [hrc] at this
      right
      split at this <;> omega
  · intro hfits
    obtain ⟨turns, rc, after, hr⟩ := pread_ends hreads hfits
    exact ⟨turns, rc, after, hr, pread_exact hreads hdev hfits hr⟩

/-- In front of the end, a call copies all that is asked for, also what is behind the end. -/
theorem read_on (m : Buffers) (hreads : dev.Reads) (hn : n.toNat < 2 ^ 31)
    (hsum : f.Xxc.toNat + n.toNat ≤ 2 ^ 32)
    (hdev : f.xXc.toNat + (f.Xxc.toNat + n.toNat + 511) / 512 ≤ 2 ^ 32)
    (hlt : f.Xxc.toNat < f.XXc.toNat) : ∃ rc after,
      f.read dev (n.toNat + 1) m n = some (rc, after, { f with Xxc := f.Xxc + n.toUInt32 }) ∧
      rc.toInt = n.toNat ∧ (∀ i < n.toNat, after i = data dev f.xXc.toNat (f.Xxc.toNat + i)) ∧
      ∀ i, n.toNat ≤ i → after i = m.caller i := by
  have hoff := UInt32.toNat_toUInt64 f.Xxc
  have hzero : (0 : UInt32).toNat = 0 := rfl
  obtain ⟨r, m', hloop⟩ : ∃ r m', read_loop (fun block m =>
      { m with own := write m.own 0 512 block.byte }) dev f.xXc n (n.toNat + 1) 0
      f.Xxc.toUInt64 m = some (r, m') :=
    read_loop_enough _ f.xXc 0 f.Xxc.toUInt64 m hreads (by omega) (by omega) (by omega)
  have hcount := read_loop_count hreads (by omega) hloop
  obtain ⟨hin, hout⟩ := staged_bytes hreads (by omega) (by omega) (by omega) hloop
  rw [hoff] at hin
  have hr : r = n.toUInt32 := by
    apply UInt32.toNat_inj.mp
    rw [hcount, UInt64.toNat_toUInt32, Nat.mod_eq_of_lt (by omega)]
  refine ⟨r.toInt32, m'.caller, ?_, ?_, fun i hi => ?_, fun i hi => hout i (.inr hi)⟩
  · unfold read
    rw [pread_inside (by omega), hloop, ← hr]
    rfl
  · rw [toInt_toInt32, hcount, if_pos hn]
  · have hbyte := hin i (by omega)
    rwa [hzero, Nat.zero_add] at hbyte

theorem read_behind (m : Buffers) (h : f.XXc.toNat ≤ f.Xxc.toNat) :
    f.read dev turns m n = some (0, m.caller, f) := by
  unfold read
  rw [pread_behind (by rwa [UInt32.toNat_toUInt64])]
  have hzero : f.Xxc + (0 : Int32).toUInt32 = f.Xxc := UInt32.add_zero _
  rw [Option.map_some, hzero]

/-! ### Reading to the end -/

/-- A file that is read, and what the calls have given. -/
structure Reading where
  file : ZZz
  out : List UInt8

/-- The turns are those that the loop is given. -/
structure Call where
  turns : ℕ
  buffers : Buffers
  size : UInt64

/-- Reads from the start, of which each asks for bytes of the file or for bytes behind it. -/
def reads (dev : BlockDevice) (f : ZZz) : System Reading Call Unit where
  start s := s = ⟨f, []⟩
  allowed s c := Fits s.file.XXc.toNat s.file.Xxc.toNat c.size.toNat
  step s c := match s.file.read dev c.turns c.buffers c.size with
    | none => .error ()
    | some (rc, after, file) => .ok ⟨file, s.out ++ (List.range rc.toInt.toNat).map after⟩

theorem toNat_toUInt32 {rc : Int32} {k : ℕ} (h : rc.toInt = (k : ℤ)) : rc.toUInt32.toNat = k := by
  have hcond := BitVec.toInt_eq_toNat_cond rc.toBitVec
  have : rc.toUInt32.toNat = rc.toBitVec.toNat := rfl
  have : rc.toBitVec.toInt = (k : ℤ) := h
  split at hcond <;> omega

/-- What has been read is the start of the file. -/
structure Inv (dev : BlockDevice) (f : ZZz) (s : Reading) : Prop where
  start : s.file.xXc = f.xXc
  size : s.file.XXc = f.XXc
  pos : s.file.Xxc.toNat ≤ f.XXc.toNat
  out : s.out = (List.range s.file.Xxc.toNat).map (data dev f.xXc.toNat)

variable {s s' : Reading}

theorem Inv.within (hi : Inv dev f s) (hdev : Within dev f) : Within dev s.file := by
  unfold Within at hdev ⊢
  rwa [hi.start, hi.size]

theorem read_eq_some {f' : ZZz} : s.file.read dev turns m n = some (rc, after, f') ↔
    s.file.pread dev turns m n s.file.Xxc.toUInt64 = some (rc, after) ∧
      f' = { s.file with Xxc := s.file.Xxc + rc.toUInt32 } := by
  unfold read
  rw [Option.map_eq_some_iff]
  constructor
  · rintro ⟨⟨rc, after⟩, hr, he⟩
    cases he
    exact ⟨hr, rfl⟩
  · rintro ⟨hr, rfl⟩
    exact ⟨_, hr, rfl⟩

theorem Inv.step (hreads : dev.Reads) (hdev : Within dev f) (hi : Inv dev f s) {c : Call}
    (ha : (reads dev f).allowed s c) (hs : (reads dev f).step s c = .ok s') : Inv dev f s' := by
  have hs : (match s.file.read dev c.turns c.buffers c.size with
    | none => .error ()
    | some (rc, after, file) => .ok ⟨file, s.out ++ (List.range rc.toInt.toNat).map after⟩ :
      Except Unit Reading) = .ok s' := hs
  cases hr : s.file.read dev c.turns c.buffers c.size with
  | none =>
    rw [hr] at hs
    cases hs
  | some r =>
    obtain ⟨rc, after, f'⟩ := r
    rw [hr] at hs
    cases hs
    obtain ⟨hpread, rfl⟩ := read_eq_some.mp hr
    have hpos := UInt32.toNat_toUInt64 s.file.Xxc
    have hexact := pread_exact hreads (hi.within hdev) (by rw [hpos]; exact ha) hpread
    rw [hpos, hi.size, hi.start] at hexact
    have hrc := toNat_toUInt32 hexact.rc
    have hp := hi.pos
    have hlt := f.XXc.toNat_lt
    have hsum : (s.file.Xxc + rc.toUInt32).toNat =
        s.file.Xxc.toNat + min c.size.toNat (f.XXc.toNat - s.file.Xxc.toNat) := by
      rw [UInt32.toNat_add, hrc, Nat.mod_eq_of_lt (by omega)]
    refine ⟨hi.start, hi.size, by dsimp only; omega, ?_⟩
    dsimp only
    rw [hsum, List.range_add, List.map_append, hi.out, hexact.rc, Int.toNat_natCast, List.map_map]
    congr 1
    refine List.map_congr_left fun i hlt => hexact.bytes i (List.mem_range.mp hlt)

theorem Inv.reachable (hreads : dev.Reads) (hdev : Within dev f) (hf : f.Xxc = 0)
    (hr : (reads dev f).Reachable s) : Inv dev f s := by
  refine hr.preserves ?_ fun s c s' hi ha hs => hi.step hreads hdev ha hs
  rintro s rfl
  refine ⟨rfl, rfl, ?_, ?_⟩ <;> simp [hf]

/-- A call is exact if and only if what it asks for is in the file or behind it, and after calls
that were, the bytes given are those of the file up to the position. -/
theorem reads_exact (hreads : dev.Reads) (hf : f = ZZz.new dev hdr h)
    (hdev : h.toNat + 1 + (f.XXc.toNat + 511) / 512 ≤ dev.block_count) (hsize : f.XXc ≠ 0)
    (hr : (reads dev f).Reachable s) :
    (∀ m (off n : UInt64), (∃ turns rc after, s.file.pread dev turns m n off = some (rc, after) ∧
      Exact (data dev (h.toNat + 1)) f.XXc.toNat off.toNat n.toNat m.caller rc after) ↔
        Fits f.XXc.toNat off.toNat n.toNat) ∧
    s.file.Xxc.toNat ≤ f.XXc.toNat ∧
    s.out = (List.range s.file.Xxc.toNat).map (data dev (h.toNat + 1)) ∧
    ∀ m (n : UInt64) turns after f', n ≠ 0 → Fits f.XXc.toNat s.file.Xxc.toNat n.toNat →
      s.file.read dev turns m n = some (0, after, f') →
      s.out = (List.range f.XXc.toNat).map (data dev (h.toNat + 1)) := by
  have hcount := dev.count_lt
  have hstart : f.xXc.toNat = h.toNat + 1 := by
    subst hf
    have hadd : (h + 1).toNat = (h.toNat + 1) % 2 ^ 32 := UInt32.toNat_add h 1
    unfold ZZz.new
    dsimp only
    omega
  have hpos : f.Xxc = 0 := by
    subst hf
    unfold ZZz.new at hsize ⊢
    dsimp only at hsize ⊢
    rw [if_neg hsize]
  have hwithin : Within dev f := by
    unfold Within
    omega
  have hi := Inv.reachable hreads hwithin hpos hr
  rw [← hstart]
  refine ⟨fun m off n => ?_, hi.pos, hi.out, fun m n turns after f' hn hfits hread => ?_⟩
  · have hiff := pread_exact_iff s.file off n m hreads (hi.within hwithin)
    rwa [hi.start, hi.size] at hiff
  · obtain ⟨hpread, -⟩ := read_eq_some.mp hread
    have hu := UInt32.toNat_toUInt64 s.file.Xxc
    have hrc := (pread_exact hreads (hi.within hwithin) (by rw [hu, hi.size]; exact hfits) hpread).rc
    rw [hu, hi.size] at hrc
    have hzero : min n.toNat (f.XXc.toNat - s.file.Xxc.toNat) = 0 := by
      have : (0 : Int32).toInt = 0 := rfl
      omega
    have hnz : n.toNat ≠ 0 := fun he => hn (UInt64.toNat_inj.mp he)
    have hle := hi.pos
    rw [hi.out, show s.file.Xxc.toNat = f.XXc.toNat by omega]

end ZZz

/-! ## `TarFSFile` -/

namespace TarFSFile

variable {h : UInt32} {hdr : Block} {n : UInt64}

variable {f : TarFSFile}

theorem pread_behind (h : f.size.toNat ≤ off.toNat) :
    f.pread dev turns m n off = some (0, m.caller) := by
  unfold pread
  rw [if_pos ((toUInt64_le_iff _ _).mpr h)]

theorem pread_inside (h : off.toNat < f.size.toNat) : f.pread dev turns m n off =
    (read_loop (fun block m => { m with caller := write m.caller 0 512 block.byte }) dev
      f._file_start_block n turns 0 off m).map fun r => (r.1.toInt32, r.2.caller) := by
  unfold pread
  rw [if_neg (by rwa [toUInt64_le_iff, Nat.not_le])]

/-- The last byte is that of the array, which can be any. -/
theorem not_exact {file : ℕ → UInt8} (hreads : dev.Reads)
    (hlt : off.toNat < f.size.toNat) (hn : n.toNat ≠ 0) :
    ¬ ∀ m, ∃ turns rc after, f.pread dev turns m n off = some (rc, after) ∧
      Exact file f.size.toNat off.toNat n.toNat m.caller rc after := by
  intro hall
  have hlast : ∀ v : UInt8, file (off.toNat + (n.toNat - 1)) = v := by
    intro v
    obtain ⟨turns, rc, after, hr, hexact⟩ := hall ⟨fun _ => 0, fun _ => v⟩
    rw [pread_inside hlt] at hr
    obtain ⟨⟨r, m'⟩, hloop, hr⟩ := Option.map_eq_some_iff.mp hr
    cases hr
    have hcount := read_loop_count hreads (by simp) hloop
    have hbyte := last_byte (fun block m => { m with caller := write m.caller 0 512 block.byte })
      hreads (fun _ _ => rfl) (by simp) (fun _ => rfl) (fun he => absurd he.symm hn) hloop
    have hrc := hexact.rc
    rw [toInt_toInt32, hcount] at hrc
    have := r.toNat_lt
    have hmin : min n.toNat (f.size.toNat - off.toNat) = n.toNat := by
      split at hrc <;> omega
    rw [← hexact.bytes (n.toNat - 1) (by omega)]
    exact hbyte
  exact absurd ((hlast 0).symm.trans (hlast 1)) (by decide)

/-- Whatever the array holds, the call is exact if and only if there is nothing to be copied. -/
theorem exact_iff_nothing (hdr : Block) (h : UInt32) (n off : UInt64) (hreads : dev.Reads) :
    (∀ m, ∃ turns rc after, (TarFSFile.new dev hdr h).pread dev turns m n off = some (rc, after) ∧
      Exact (data dev (h.toNat + 1)) (TarFSFile.new dev hdr h).size.toNat off.toNat n.toNat m.caller rc
        after) ↔ (TarFSFile.new dev hdr h).size.toNat ≤ off.toNat ∨ n.toNat = 0 := by
  generalize TarFSFile.new dev hdr h = f
  constructor
  · intro hall
    by_contra hno
    push Not at hno
    exact not_exact hreads hno.1 hno.2 hall
  · intro h m
    by_cases hoff : f.size.toNat ≤ off.toNat
    · exact ⟨0, 0, m.caller, pread_behind hoff, exact_none (.inl hoff) _⟩
    · refine ⟨1, 0, m.caller, ?_, exact_none h _⟩
      rw [pread_inside (by omega), read_loop_done (by omega)]
      rfl

end TarFSFile

/-! ## A file of one byte -/

/-- Each block is a header with the name `a` and the size `00000000001`. -/
def one_byte : BlockDevice where
  block_count := 4
  count_lt := by decide
  read_block _ := some fun i =>
    if i.val = 0 then 97 else if 124 ≤ i.val ∧ i.val < 134 then 48 else if i.val = 134 then 49 else 0

theorem one_byte_reads : one_byte.Reads := fun _ => ⟨_, rfl⟩

theorem TarFSFile.size_one_byte : (TarFSFile.new one_byte (fun _ => 0) 0).size = 1 := by
  decide +kernel

theorem ZZz.new_one_byte : ZZz.new one_byte (fun _ => 0) 0 = ⟨1, 0, 1⟩ := by decide +kernel

theorem TarFSFile.exact_behind : ∃ turns rc after,
    (TarFSFile.new one_byte (fun _ => 0) 0).pread one_byte turns ⟨fun _ => 7, fun _ => 9⟩ 5 1 =
      some (rc, after) ∧ Exact (data one_byte 1) 1 1 5 (fun _ => 7) rc after := by
  have h := (TarFSFile.exact_iff_nothing (fun _ => 0) 0 5 1 one_byte_reads).mpr (.inl (by rw [TarFSFile.size_one_byte]; decide))
    ⟨fun _ => 7, fun _ => 9⟩
  rwa [TarFSFile.size_one_byte] at h

/-- The byte of the file is asked for. -/
theorem TarFSFile.copies_array : ¬ ∀ (dev : BlockDevice) (hdr : Block) (h : UInt32) (n off : UInt64),
    dev.Reads → ∀ m, ∃ turns rc after,
      (TarFSFile.new dev hdr h).pread dev turns m n off = some (rc, after) ∧
        Exact (data dev (h.toNat + 1)) (TarFSFile.new dev hdr h).size.toNat off.toNat n.toNat m.caller
          rc after := by
  intro h
  refine TarFSFile.not_exact one_byte_reads ?_ ?_ (h one_byte (fun _ => 0) 0 1 0 one_byte_reads)
  · rw [TarFSFile.size_one_byte]
    decide
  · decide

theorem ZZz.reads_exact_start :
    (ZZz.reads one_byte (ZZz.new one_byte (fun _ => 0) 0)).Reachable
      ⟨ZZz.new one_byte (fun _ => 0) 0, []⟩ ∧ ∃ turns rc after,
    (ZZz.new one_byte (fun _ => 0) 0).pread one_byte turns ⟨fun _ => 7, fun _ => 9⟩ 1 0 =
      some (rc, after) ∧ Exact (data one_byte 1) 1 0 1 (fun _ => 7) rc after := by
  have hr : (ZZz.reads one_byte (ZZz.new one_byte (fun _ => 0) 0)).Reachable
      ⟨ZZz.new one_byte (fun _ => 0) 0, []⟩ := .of_start rfl
  have h := ((ZZz.reads_exact one_byte_reads rfl (by rw [ZZz.new_one_byte]; decide)
    (by rw [ZZz.new_one_byte]; decide) hr).1 ⟨fun _ => 7, fun _ => 9⟩ 0 1).mpr
    (.inr (by rw [ZZz.new_one_byte]; decide))
  rw [ZZz.new_one_byte] at h
  exact ⟨hr, by rw [ZZz.new_one_byte]; exact h⟩

/-- Two bytes are asked for. -/
theorem ZZz.reads_past_end : ¬ ∀ (dev : BlockDevice) (hdr : Block) (h : UInt32) (n : UInt64) m,
    dev.Reads → h.toNat + 1 + ((ZZz.new dev hdr h).XXc.toNat + 511) / 512 ≤ dev.block_count →
    (ZZz.new dev hdr h).XXc ≠ 0 → 0 < n.toNat → ∃ turns rc after,
      (ZZz.new dev hdr h).pread dev turns m n 0 = some (rc, after) ∧
        Exact (data dev (h.toNat + 1)) (ZZz.new dev hdr h).XXc.toNat 0 n.toNat m.caller rc after := by
  intro h
  have hexact := h one_byte (fun _ => 0) 0 2 ⟨fun _ => 7, fun _ => 9⟩ one_byte_reads
    (by rw [ZZz.new_one_byte]; decide) (by rw [ZZz.new_one_byte]; decide) (by decide)
  rw [ZZz.new_one_byte] at hexact
  have hfits := (ZZz.pread_exact_iff ⟨1, 0, 1⟩ 0 2 _ one_byte_reads (by
    unfold ZZz.Within
    decide)).mp hexact
  unfold ZZz.Fits at hfits
  revert hfits
  decide

end Infos.Fs
