import Infos.Fs.TarFS
import Infos.Lib.Loop

/-!
# The scan of `build_tree`

The index counts with 32 bits, and a header says how many blocks are skipped.
-/

open Infos.Prog Infos.Util

namespace Infos.Fs

namespace TarFS

/-- The loop of `build_tree` turn by turn, less what it does to the tree. -/
def scan (dev : BlockDevice) : Loop UInt32 Bool := fun blockCount =>
  if blockCount.toNat < dev.block_count then
    match dev.read_block blockCount.toNat with
    | none => .inr false
    | some buffer =>
      if is_zero_block buffer then .inr true
      else
        let blockToRead := octal2ui (posix_header.size buffer)
        .inl (blockCount + (blockToRead / 512 + if blockToRead % 512 ≠ 0 then 1 else 0) + 1)
  else .inr true

/-- The scan ends, and in every turn that it takes the index grows. -/
def ScanAdvances (dev : BlockDevice) : Prop :=
  (∃ r, (scan dev).Ends 0 r) ∧
    ∀ b c, (scan dev).Reaches 0 b → scan dev b = .inl c → b.toNat < c.toNat

/-- A header with the blocks that it says are behind it. -/
def extent (buffer : Block) : ℕ := 1 + ((octal2ui (posix_header.size buffer)).toNat + 511) / 512

/-- The blocks that the device has headers in, of which each is right behind what the one before
says. -/
inductive HeaderAt (dev : BlockDevice) : ℕ → Block → Prop
  | first {b : Block} (hlt : 0 < dev.block_count) (hread : dev.read_block 0 = some b)
      (hb : ¬is_zero_block b) : HeaderAt dev 0 b
  | next {k : ℕ} {a b : Block} (h : HeaderAt dev k a) (hlt : k + extent a < dev.block_count)
      (hread : dev.read_block (k + extent a) = some b) (hb : ¬is_zero_block b) :
      HeaderAt dev (k + extent a) b

variable {dev : BlockDevice} {b c : UInt32} {buffer : Block} {k : ℕ} {r : Bool}

/-! ## A turn -/

theorem toNat_skip (b s : UInt32) : (b + (s / 512 + if s % 512 ≠ 0 then 1 else 0) + 1).toNat =
    (b.toNat + (1 + (s.toNat + 511) / 512)) % 2 ^ 32 := by
  have hone : (1 : UInt32).toNat = 1 := rfl
  have hdiv : (s / 512).toNat = s.toNat / 512 := UInt32.toNat_div ..
  have hmod : (s % 512).toNat = s.toNat % 512 := UInt32.toNat_mod ..
  have hrest : (if s % 512 ≠ 0 then 1 else 0 : UInt32).toNat = (s.toNat + 511) / 512 - s.toNat / 512 := by
    have hzero : s % 512 = 0 ↔ s.toNat % 512 = 0 := by
      rw [← UInt32.toNat_inj, hmod]
      rfl
    split
    next h =>
      rw [Ne, hzero] at h
      rw [hone]
      omega
    next h =>
      rw [not_not, hzero] at h
      show 0 = _
      omega
  rw [UInt32.toNat_add, UInt32.toNat_add, UInt32.toNat_add, hrest, hdiv, hone]
  omega

theorem scan_inl : scan dev b = .inl c ↔ ∃ buffer, b.toNat < dev.block_count ∧
    dev.read_block b.toNat = some buffer ∧ ¬is_zero_block buffer ∧
    c.toNat = (b.toNat + extent buffer) % 2 ^ 32 := by
  unfold scan
  split
  next hlt =>
    cases hread : dev.read_block b.toNat with
    | none => simp
    | some buffer =>
      dsimp only
      split
      next hzero => simp [hzero]
      next hzero =>
        rw [Sum.inl.injEq, ← UInt32.toNat_inj, toNat_skip]
        constructor
        · intro h
          exact ⟨buffer, hlt, rfl, hzero, h.symm⟩
        · rintro ⟨_, -, heq, -, h⟩
          cases heq
          exact h.symm
  next hlt => simp [hlt]

/-- What the device has at the block is a header, if the scan goes on there. -/
def Begins (dev : BlockDevice) (k : ℕ) : Prop :=
  ∀ b, k < dev.block_count → dev.read_block k = some b → ¬is_zero_block b → HeaderAt dev k b

theorem HeaderAt.read (h : HeaderAt dev k buffer) :
    k < dev.block_count ∧ dev.read_block k = some buffer ∧ ¬is_zero_block buffer := by
  cases h with
  | first hlt hread hb => exact ⟨hlt, hread, hb⟩
  | next _ hlt hread hb => exact ⟨hlt, hread, hb⟩

theorem HeaderAt.turn (h : HeaderAt dev b.toNat buffer) :
    ∃ c, scan dev b = .inl c ∧ c.toNat = (b.toNat + extent buffer) % 2 ^ 32 := by
  obtain ⟨hlt, hread, hb⟩ := h.read
  refine ⟨UInt32.ofNat (b.toNat + extent buffer), ?_, UInt32.toNat_ofNat'⟩
  exact scan_inl.mpr ⟨buffer, hlt, hread, hb, UInt32.toNat_ofNat'⟩

/-! ## All turns -/

/-- As long as no header reaches past the last block number, the scan comes by headers only. -/
theorem reaches_begins (h : ∀ k a, HeaderAt dev k a → k + extent a < 2 ^ 32)
    (hr : (scan dev).Reaches 0 b) : Begins dev b.toNat := by
  refine hr.preserves (I := fun b => Begins dev b.toNat) (fun a hlt hread hb => .first hlt hread hb) ?_
  intro b c hb hturn a hlt hread ha
  obtain ⟨buffer, hlt', hread', hbuffer, hc⟩ := scan_inl.mp hturn
  have hhead := hb buffer hlt' hread' hbuffer
  have hsum := h _ _ hhead
  rw [Nat.mod_eq_of_lt hsum] at hc
  rw [hc] at hlt hread ⊢
  exact .next hhead hlt hread ha

theorem HeaderAt.reached (h : HeaderAt dev k buffer) :
    ∃ b : UInt32, b.toNat = k ∧ (scan dev).Reaches 0 b := by
  induction h with
  | first => exact ⟨0, rfl, .here 0⟩
  | @next k a _ h hlt hread hb ih =>
    obtain ⟨b, rfl, hr⟩ := ih
    obtain ⟨c, hturn, hc⟩ := h.turn
    have hcount := dev.count_lt
    exact ⟨c, by rw [hc, Nat.mod_eq_of_lt (by omega)], hr.concat hturn⟩

theorem extent_le (a : Block) : 0 < extent a ∧ extent a ≤ 2 ^ 23 + 1 := by
  have := (octal2ui (posix_header.size a)).toNat_lt
  unfold extent
  omega

/-- The scan advances exactly if no header that it comes to reaches past the last block number. -/
theorem scan_advances_iff (dev : BlockDevice) :
    ScanAdvances dev ↔ ∀ k a, HeaderAt dev k a → k + extent a < 2 ^ 32 := by
  constructor
  · rintro ⟨-, hgrows⟩ k a hh
    obtain ⟨b, rfl, hr⟩ := hh.reached
    obtain ⟨c, hturn, hc⟩ := hh.turn
    have hlt := hgrows b c hr hturn
    have hb := b.toNat_lt
    have hextent := extent_le a
    omega
  · intro h
    have hgrows : ∀ b c, (scan dev).Reaches 0 b → scan dev b = .inl c → b.toNat < c.toNat := by
      intro b c hr hturn
      obtain ⟨a, hlt, hread, ha, hc⟩ := scan_inl.mp hturn
      have hsum := h _ _ (reaches_begins h hr a hlt hread ha)
      have hpos := (extent_le a).1
      rw [hc, Nat.mod_eq_of_lt hsum]
      omega
    refine ⟨Loop.ends_of_rank (fun b => 2 ^ 32 - b.toNat) fun b c hr hturn => ?_, hgrows⟩
    have := hgrows b c hr hturn
    have := c.toNat_lt
    omega

/-- A device that leaves this many numbers free is scanned to its end. -/
theorem scan_advances_of_small (h : dev.block_count + 2 ^ 23 < 2 ^ 32) : ScanAdvances dev := by
  rw [scan_advances_iff]
  intro k a hh
  have hlt := hh.read.1
  have hextent := (extent_le a).2
  omega

/-! ## Round and round -/

/-- Every block is a header with the size `07777777000`, which stands for 2097151 blocks. -/
def full : BlockDevice where
  block_count := 2 ^ 32 - 1
  count_lt := by decide
  read_block _ := some fun i =>
    if i.val = 0 then 97 else if i.val = 124 then 48 else if 125 ≤ i.val ∧ i.val < 132 then 55
    else if 132 ≤ i.val ∧ i.val < 135 then 48 else 0

theorem scan_full (h : 2 ^ 21 ∣ b.toNat) :
    ∃ c, scan full b = .inl c ∧ 2 ^ 21 ∣ c.toNat := by
  obtain ⟨buffer, hbuffer⟩ : ∃ buffer, full.read_block b.toNat = some buffer := ⟨_, rfl⟩
  have hread : ∀ k, full.read_block k = some buffer := fun k => hbuffer ▸ rfl
  have hextent : extent buffer = 2 ^ 21 := by
    cases hbuffer
    decide +kernel
  have hzero : ¬is_zero_block buffer := by
    cases hbuffer
    decide +kernel
  have hlt : b.toNat < full.block_count := by
    have := b.toNat_lt
    show b.toNat < 2 ^ 32 - 1
    omega
  refine ⟨UInt32.ofNat (b.toNat + extent buffer),
    scan_inl.mpr ⟨buffer, hlt, hread _, hzero, UInt32.toNat_ofNat'⟩, ?_⟩
  rw [UInt32.toNat_ofNat', hextent]
  omega

/-- The index comes back to the first block. -/
theorem scan_endless : ¬∃ r, (scan full).Ends 0 r := by
  rintro ⟨r, h⟩
  exact Loop.not_ends (I := fun b => 2 ^ 21 ∣ b.toNat) (dvd_zero _) (fun _ => scan_full) h

/-! ## The same scan -/

/-- What `build_tree_loop` comes back with, the scan ends with. -/
theorem build_tree_loop_scans {alloc : ℕ → ℕ} {root turns : ℕ} {h h' : Heap}
    (hr : build_tree_loop alloc dev root turns b h = .ok (r, h')) : (scan dev).Ends b r := by
  induction turns generalizing b h with
  | zero => cases hr
  | succ turns ih =>
    unfold build_tree_loop at hr
    by_cases hlt : b.toNat < dev.block_count
    · rw [if_pos hlt] at hr
      cases hread : dev.read_block b.toNat with
      | none =>
        rw [hread] at hr
        cases hr
        exact .leave (by simp only [scan, if_pos hlt, hread])
      | some buffer =>
        rw [hread] at hr
        dsimp only at hr
        by_cases hzero : is_zero_block buffer
        · rw [if_pos hzero] at hr
          cases hr
          exact .leave (by simp only [scan, if_pos hlt, hread, if_pos hzero])
        · rw [if_neg hzero] at hr
          rw [Loop.ends_turn (by simp only [scan, if_pos hlt, hread, if_neg hzero]; rfl)]
          split at hr
          · rw [bind_eq] at hr
            split at hr
            · exact ih hr
            · cases hr
          · exact ih hr
    · rw [if_neg hlt] at hr
      cases hr
      exact .leave (by simp only [scan, if_neg hlt])

end TarFS

end Infos.Fs
