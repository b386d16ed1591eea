import Infos.Lib.Bytes
import Infos.Lib.Loop
import Mathlib.Algebra.Order.Ring.Nat

/-!
# The ACPI tables

The tables say how long they and their records are, and the parser takes their word for it. No
sum of an address in the mapped physical memory and of such a length overflows.
-/

namespace Infos.Arch.Acpi

open Infos.Bytes (Memory load)

inductive Fault where
  | assertion

def pa_to_vpa (pa : UInt32) : ℕ := 0xFFFF800000000000 + pa.toNat

/-- `'A'`, `'P'`, `'I'` and `'C'` -/
def MADT_SIGNATURE : ℕ := 0x43495041

def sizeof_SDTHeader : ℕ := 36

def is_structure_valid (m : Memory) (structure_base structure_size : ℕ) : Bool :=
  (List.range structure_size).foldl (fun sum i => sum + m (structure_base + i)) 0 = 0

def SDTHeader.signature (m : Memory) (hdr : ℕ) : ℕ := load m hdr 4

def SDTHeader.length (m : Memory) (hdr : ℕ) : ℕ := load m (hdr + 4) 4

/-! ## The MADT -/

namespace MADTRecordHeader

def type (m : Memory) (rhs : ℕ) : UInt8 := m rhs

def length (m : Memory) (rhs : ℕ) : ℕ := (m (rhs + 1)).toNat

/-- The size of the structure that the parser takes a record for. -/
def sizeof (m : Memory) (rhs : ℕ) : ℕ :=
  match type m rhs with
  | 0 => 8
  | 1 => 12
  | 2 => 10
  | _ => 2

/-- What a record takes, by its length or by what is read of it. -/
def extent (m : Memory) (rhs : ℕ) : ℕ := max (length m rhs) (sizeof m rhs)

end MADTRecordHeader

open MADTRecordHeader

/-- `records` has every record that was read, with what it takes. -/
structure Madt where
  rhs : ℕ
  __ioapic_base : UInt32
  records : List (ℕ × ℕ)
  deriving DecidableEq

/-- The parser only logs what the records of the other types say. -/
def parse_madt_ioapic (m : Memory) (ioapic : ℕ) (__ioapic_base : UInt32) :
    Except Fault (Bool × UInt32) := do
  if __ioapic_base ≠ 0 then throw .assertion
  return (true, UInt32.ofNat (load m (ioapic + 4) 4))

def parse_record (m : Memory) (rhs : ℕ) (__ioapic_base : UInt32) : Except Fault (Bool × UInt32) :=
  match type m rhs with
  | 1 => parse_madt_ioapic m rhs __ioapic_base
  | _ => .ok (true, __ioapic_base)

/-- The loop of `parse_madt`. -/
def madt_loop (m : Memory) (rhe : ℕ) : Loop Madt (Except Fault (Bool × Madt)) := fun s =>
  if s.rhs < rhe then
    let records := (s.rhs, extent m s.rhs) :: s.records
    match parse_record m s.rhs s.__ioapic_base with
    | .error e => .inr (.error e)
    | .ok (false, __ioapic_base) => .inr (.ok (false, ⟨s.rhs, __ioapic_base, records⟩))
    | .ok (true, __ioapic_base) => .inl ⟨s.rhs + length m s.rhs, __ioapic_base, records⟩
  else .inr (.ok (true, s))

/-- The first record stands after the fields `lca` and `flags`. -/
def parse_madt (madt : ℕ) (__ioapic_base : UInt32) : Madt :=
  ⟨madt + sizeof_SDTHeader + 8, __ioapic_base, []⟩

/-! ## The RSDT -/

/-- `madt` is what `parse_madt` is at, with the end of its table, and `entries` has the place of
every entry that was read. -/
structure Rsdt where
  i : UInt32
  __ioapic_base : UInt32
  madt : Option (ℕ × Madt)
  entries : List ℕ
  deriving DecidableEq

/-- The difference is one of 64 bits without a sign. -/
def nr_entries (m : Memory) (rsdt : ℕ) : UInt64 :=
  (UInt64.ofNat (SDTHeader.length m rsdt) - UInt64.ofNat sizeof_SDTHeader) / 4

/-- The loop of `acpi_parse`, with the one of `parse_madt` inside. -/
def rsdt_loop (m : Memory) (rsdt : ℕ) : Loop Rsdt (Except Fault Bool) := fun s =>
  match s.madt with
  | some (rhe, madt) =>
    match madt_loop m rhe madt with
    | .inl madt => .inl { s with madt := some (rhe, madt) }
    | .inr (.error e) => .inr (.error e)
    | .inr (.ok (false, _)) => .inr (.ok false)
    | .inr (.ok (true, madt)) =>
      .inl { s with i := s.i + 1, __ioapic_base := madt.__ioapic_base, madt := none }
  | none =>
    if s.i.toUInt64 < nr_entries m rsdt then
      let entry := rsdt + sizeof_SDTHeader + 4 * s.i.toNat
      let hdr := pa_to_vpa (UInt32.ofNat (load m entry 4))
      let s := { s with entries := entry :: s.entries }
      if !is_structure_valid m hdr (SDTHeader.length m hdr) then .inl { s with i := s.i + 1 }
      else if SDTHeader.signature m hdr = MADT_SIGNATURE then
        .inl { s with
          madt := some (hdr + SDTHeader.length m hdr, parse_madt hdr s.__ioapic_base) }
      else .inl { s with i := s.i + 1 }
    else .inr (.ok true)

/-- `acpi_parse` up to its loop, if it comes to it. -/
def acpi_parse (m : Memory) (rsdt_address : UInt32) (__ioapic_base : UInt32) : Option Rsdt :=
  let rsdt := pa_to_vpa rsdt_address
  if rsdt = 0 then none
  else if !is_structure_valid m rsdt (SDTHeader.length m rsdt) then none
  else some ⟨0, __ioapic_base, none, []⟩

/-! ## Within the bounds -/

/-- The parser comes back, and every record that it read lies in the table. -/
def RecordsInside (m : Memory) (madt : ℕ) (__ioapic_base : UInt32) : Prop :=
  ∃ ok s, (madt_loop m (madt + SDTHeader.length m madt)).Ends (parse_madt madt __ioapic_base)
    (.ok (ok, s)) ∧ ∀ r ∈ s.records, r.1 + r.2 ≤ madt + SDTHeader.length m madt

/-- However far the parser comes, every entry that it read lies in the table. -/
def EntriesInside (m : Memory) (rsdt_address : UInt32) (__ioapic_base : UInt32) : Prop :=
  ∀ s, acpi_parse m rsdt_address __ioapic_base = some s →
    ∀ t, (rsdt_loop m (pa_to_vpa rsdt_address)).Reaches s t → ∀ e ∈ t.entries,
      e + 4 ≤ pa_to_vpa rsdt_address + SDTHeader.length m (pa_to_vpa rsdt_address)

/-- The address of the I/O APIC after a record. -/
def ioapic_base (m : Memory) (rhs : ℕ) (__ioapic_base : UInt32) : UInt32 :=
  if type m rhs = 1 then UInt32.ofNat (load m (rhs + 4) 4) else __ioapic_base

/-- From `rhs` on there is one record after another, none of them empty or across the end, and no
I/O APIC once the address of one is known. -/
inductive Records (m : Memory) (rhe : ℕ) : ℕ → UInt32 → Prop
  | stop {rhs : ℕ} {__ioapic_base : UInt32} (h : rhe ≤ rhs) : Records m rhe rhs __ioapic_base
  | record {rhs : ℕ} {__ioapic_base : UInt32} (hlt : rhs < rhe) (hpos : 0 < length m rhs)
      (hin : rhs + extent m rhs ≤ rhe) (hbase : type m rhs = 1 → __ioapic_base = 0)
      (rest : Records m rhe (rhs + length m rhs) (ioapic_base m rhs __ioapic_base)) :
      Records m rhe rhs __ioapic_base

variable {m : Memory} {rhe rhs rsdt : ℕ} {base : UInt32} {records : List (ℕ × ℕ)} {s t : Madt}

theorem parse_record_spec : parse_record m rhs base =
    if type m rhs = 1 ∧ base ≠ 0 then .error .assertion
    else .ok (true, ioapic_base m rhs base) := by
  unfold parse_record parse_madt_ioapic ioapic_base
  by_cases htype : type m rhs = 1
  · rw [htype]
    by_cases hbase : base = 0 <;> simp [hbase] <;> rfl
  · simp [htype]

theorem madt_loop_stop (h : rhe ≤ s.rhs) : madt_loop m rhe s = .inr (.ok (true, s)) :=
  if_neg (Nat.not_lt.mpr h)

theorem madt_loop_assertion (h : s.rhs < rhe) (htype : type m s.rhs = 1)
    (hbase : s.__ioapic_base ≠ 0) : madt_loop m rhe s = .inr (.error .assertion) := by
  unfold madt_loop
  simp only [if_pos h, parse_record_spec, if_pos (And.intro htype hbase)]

theorem madt_loop_record (h : s.rhs < rhe) (hbase : type m s.rhs = 1 → s.__ioapic_base = 0) :
    madt_loop m rhe s = .inl ⟨s.rhs + length m s.rhs, ioapic_base m s.rhs s.__ioapic_base,
      (s.rhs, extent m s.rhs) :: s.records⟩ := by
  have hno : ¬(type m s.rhs = 1 ∧ s.__ioapic_base ≠ 0) := fun h => h.2 (hbase h.1)
  unfold madt_loop
  simp only [if_pos h, parse_record_spec, if_neg hno]

theorem madt_loop_cases (m : Memory) (rhe : ℕ) (s : Madt) :
    rhe ≤ s.rhs ∨ (s.rhs < rhe ∧ type m s.rhs = 1 ∧ s.__ioapic_base ≠ 0) ∨
      (s.rhs < rhe ∧ (type m s.rhs = 1 → s.__ioapic_base = 0)) := by
  by_cases h : rhe ≤ s.rhs
  · exact .inl h
  · by_cases h' : type m s.rhs = 1 ∧ s.__ioapic_base ≠ 0
    · exact .inr (.inl ⟨Nat.not_le.mp h, h'⟩)
    · exact .inr (.inr ⟨Nat.not_le.mp h, fun ht => not_not.mp fun hb => h' ⟨ht, hb⟩⟩)

/-- The parser that came back came by whole records only, if it read nothing else. -/
theorem records_of_ends {result : Except Fault (Bool × Madt)} (h : (madt_loop m rhe).Ends s result)
    {ok : Bool} {s' : Madt} (hr : result = .ok (ok, s')) (hin : ∀ r ∈ s'.records, r.1 + r.2 ≤ rhe) :
    (∀ r ∈ s.records, r.1 + r.2 ≤ rhe) ∧ Records m rhe s.rhs s.__ioapic_base := by
  induction h with
  | @leave s result h =>
    obtain hstop | ⟨hlt, htype, hbase⟩ | ⟨hlt, hbase⟩ := madt_loop_cases m rhe s
    · rw [madt_loop_stop hstop] at h
      cases h
      cases hr
      exact ⟨hin, .stop hstop⟩
    · rw [madt_loop_assertion hlt htype hbase] at h
      cases h
      cases hr
    · rw [madt_loop_record hlt hbase] at h
      cases h
  | @turn s t _ h _ ih =>
    obtain ⟨hall, hrest⟩ := ih hr
    obtain hstop | ⟨hlt, htype, hbase⟩ | ⟨hlt, hbase⟩ := madt_loop_cases m rhe s
    · rw [madt_loop_stop hstop] at h
      cases h
    · rw [madt_loop_assertion hlt htype hbase] at h
      cases h
    · rw [madt_loop_record hlt hbase] at h
      cases h
      have hin' := hall _ (.head _)
      refine ⟨fun r hr => hall r (.tail _ hr), .record hlt ?_ hin' hbase hrest⟩
      -- After an empty record the parser would stand before it again.
      by_contra hempty
      rw [Nat.eq_zero_of_not_pos hempty] at hrest
      cases hrest with
      | stop hle => exact absurd hle (Nat.not_le.mpr hlt)
      | record _ hpos => exact hempty hpos

theorem ends_of_records {rhs : ℕ} {base : UInt32} (h : Records m rhe rhs base)
    {records : List (ℕ × ℕ)} (hin : ∀ r ∈ records, r.1 + r.2 ≤ rhe) :
    ∃ ok s', (madt_loop m rhe).Ends ⟨rhs, base, records⟩ (.ok (ok, s')) ∧
      ∀ r ∈ s'.records, r.1 + r.2 ≤ rhe := by
  induction h generalizing records with
  | stop h => exact ⟨_, _, .leave (madt_loop_stop h), hin⟩
  | @record rhs _ hlt _ hin' hbase _ ih =>
    have hin : ∀ r ∈ (rhs, extent m rhs) :: records, r.1 + r.2 ≤ rhe :=
      List.forall_mem_cons.mpr ⟨hin', hin⟩
    obtain ⟨ok, s', h, hs'⟩ := ih hin
    exact ⟨ok, s', .turn (madt_loop_record hlt hbase) h, hs'⟩

theorem records_inside_iff (m : Memory) (madt : ℕ) (base : UInt32) :
    RecordsInside m madt base ↔
      Records m (madt + SDTHeader.length m madt) (madt + sizeof_SDTHeader + 8) base := by
  constructor
  · rintro ⟨ok, s, h, hin⟩
    exact (records_of_ends h rfl hin).2
  · intro h
    exact ends_of_records h (List.forall_mem_nil _)

/-! ## The entries -/

theorem toNat_length (m : Memory) (rsdt : ℕ) :
    (UInt64.ofNat (SDTHeader.length m rsdt)).toNat = SDTHeader.length m rsdt :=
  UInt64.toNat_ofNat_of_lt' ((Bytes.load_lt m _ 4).trans (by decide))

theorem nr_entries_of_le (h : sizeof_SDTHeader ≤ SDTHeader.length m rsdt) :
    (nr_entries m rsdt).toNat = (SDTHeader.length m rsdt - sizeof_SDTHeader) / 4 := by
  have hsize : (UInt64.ofNat sizeof_SDTHeader).toNat = 36 := rfl
  unfold nr_entries
  rw [UInt64.toNat_div, UInt64.toNat_sub_of_le, toNat_length, hsize]
  · rfl
  · rw [UInt64.le_iff_toNat_le, toNat_length, hsize]
    exact h

/-- The difference of a length that is too small wraps. -/
theorem nr_entries_of_lt (h : SDTHeader.length m rsdt < sizeof_SDTHeader) :
    0 < nr_entries m rsdt := by
  have hsize : (UInt64.ofNat sizeof_SDTHeader).toNat = 36 := rfl
  unfold sizeof_SDTHeader at h
  rw [UInt64.lt_iff_toNat_lt]
  unfold nr_entries
  rw [UInt64.toNat_div, UInt64.toNat_sub, toNat_length, hsize]
  show 0 < (2 ^ 64 - 36 + SDTHeader.length m rsdt) % 2 ^ 64 / 4
  omega

/-- The entry read lies in the table, if the number of entries is that of the table. -/
theorem entry_inside {i : UInt32} (h : sizeof_SDTHeader ≤ SDTHeader.length m rsdt)
    (hi : i.toUInt64 < nr_entries m rsdt) :
    rsdt + sizeof_SDTHeader + 4 * i.toNat + 4 ≤ rsdt + SDTHeader.length m rsdt := by
  rw [UInt64.lt_iff_toNat_lt, nr_entries_of_le h, UInt32.toNat_toUInt64] at hi
  omega

def Inside (m : Memory) (rsdt : ℕ) (s : Rsdt) : Prop :=
  ∀ e ∈ s.entries, e + 4 ≤ rsdt + SDTHeader.length m rsdt

theorem rsdt_loop_inside {s t : Rsdt} (h : sizeof_SDTHeader ≤ SDTHeader.length m rsdt)
    (hs : Inside m rsdt s) (ht : rsdt_loop m rsdt s = .inl t) : Inside m rsdt t := by
  unfold rsdt_loop at ht
  split at ht
  · split at ht <;> cases ht <;> exact hs
  · split at ht
    · rename_i hi
      have hin : ∀ e ∈ (rsdt + sizeof_SDTHeader + 4 * s.i.toNat) :: s.entries,
          e + 4 ≤ rsdt + SDTHeader.length m rsdt :=
        List.forall_mem_cons.mpr ⟨entry_inside h hi, hs⟩
      simp only at ht
      split at ht
      · cases ht
        exact hin
      · split at ht <;> cases ht <;> exact hin
    · cases ht

theorem rsdt_loop_first (base : UInt32) (h : 0 < nr_entries m rsdt) : ∃ t,
    rsdt_loop m rsdt ⟨0, base, none, []⟩ = .inl t ∧ t.entries = [rsdt + sizeof_SDTHeader] := by
  unfold rsdt_loop
  simp only [show (0 : UInt32).toUInt64 = 0 from rfl, if_pos h]
  split
  · exact ⟨_, rfl, rfl⟩
  · split <;> exact ⟨_, rfl, rfl⟩

theorem entries_inside_iff (m : Memory) (rsdt_address : UInt32) (base : UInt32) :
    EntriesInside m rsdt_address base ↔ (is_structure_valid m (pa_to_vpa rsdt_address)
      (SDTHeader.length m (pa_to_vpa rsdt_address)) →
        sizeof_SDTHeader ≤ SDTHeader.length m (pa_to_vpa rsdt_address)) := by
  have hnull : pa_to_vpa rsdt_address ≠ 0 := by
    unfold pa_to_vpa
    omega
  constructor
  · intro h hvalid
    by_contra hlt
    obtain ⟨t, ht, hentries⟩ := rsdt_loop_first base (nr_entries_of_lt (Nat.not_le.mp hlt))
    have hs : acpi_parse m rsdt_address base = some ⟨0, base, none, []⟩ := by
      unfold acpi_parse
      simp only [if_neg hnull, hvalid, Bool.not_true, Bool.false_eq_true, if_false]
    have hin := h _ hs t (.turn ht (.here t))
    rw [hentries] at hin
    have hfirst := hin _ (List.mem_singleton_self _)
    omega
  · intro h s hs t ht
    unfold acpi_parse at hs
    simp only [if_neg hnull] at hs
    split at hs
    · cases hs
    · rename_i hvalid
      cases hs
      simp only [Bool.not_eq_true', Bool.not_eq_false] at hvalid
      exact ht.preserves (I := Inside m (pa_to_vpa rsdt_address)) (List.forall_mem_nil _)
        fun _ _ => rsdt_loop_inside (h hvalid)

/-- The parser comes back from a table and reads whole records of it only, exactly if they follow
one another up to the end, and it reads the entries of an RSDT only, exactly if this has the length
of its header. -/
theorem parses_inside_iff (m : Memory) :
    (∀ madt base, RecordsInside m madt base ↔
      Records m (madt + SDTHeader.length m madt) (madt + sizeof_SDTHeader + 8) base) ∧
    (∀ rsdt_address base, EntriesInside m rsdt_address base ↔
      (is_structure_valid m (pa_to_vpa rsdt_address)
        (SDTHeader.length m (pa_to_vpa rsdt_address)) →
          sizeof_SDTHeader ≤ SDTHeader.length m (pa_to_vpa rsdt_address))) :=
  ⟨records_inside_iff m, entries_inside_iff m⟩

/-! ## A record without a length -/

/-- A table with one record, of an unknown type, that says that it has no bytes. The last byte of the
header makes the sum right. -/
def empty_record : Memory := fun a =>
  match a with
  | 4 => 46
  | 9 => 0x72
  | 44 => 0x60
  | _ => 0

theorem empty_record_valid : is_structure_valid empty_record 0 (SDTHeader.length empty_record 0) := by
  decide

theorem empty_record_forever : ¬∀ m madt base,
    is_structure_valid m madt (SDTHeader.length m madt) → RecordsInside m madt base := by
  intro h
  obtain ⟨ok, s, hs, -⟩ := h empty_record 0 0 empty_record_valid
  refine Loop.not_ends (I := fun s => s.rhs = 44) rfl (fun s hs => ?_) hs
  have hbase : type empty_record s.rhs = 1 → s.__ioapic_base = 0 := by
    rw [hs]
    exact fun h => absurd h (by decide)
  have hlt : s.rhs < 0 + SDTHeader.length empty_record 0 := by
    rw [hs]
    decide
  refine ⟨_, madt_loop_record hlt hbase, ?_⟩
  show s.rhs + length empty_record s.rhs = 44
  rw [hs]
  rfl

end Infos.Arch.Acpi
