import Infos.Kernel.FileCalls

/-!
# What is read from a file

Whatever the threads do in between, the reads of a file of the disk give its data from the start on,
and only the threads of the process that opened it get any.
-/

open Infos.Prog Infos.Bytes Infos.Fs

namespace Infos

/-! ## The files of an archive -/

namespace Fs

variable {fs : List ArchiveFile} {f : ArchiveFile} {dev : BlockDevice} {es : List Entry} {hdr : Block}
  {pos : ℕ} {p : Path} {b : ℕ × ℕ}

theorem found_mem (h : found fs p = some b) : ∃ f ∈ fs, f.path = p ∧ (f.block, f.size) = b := by
  obtain ⟨f, hf, rfl⟩ := Option.map_eq_some_iff.mp h
  have hpath := List.find?_some hf
  exact ⟨f, List.mem_reverse.mp (List.mem_of_find?_eq_some hf), of_decide_eq_true hpath, rfl⟩

theorem exists_of_files (h : f ∈ files pos es) : ∃ done e rest, done ++ e :: rest = es ∧
    f = ⟨e.path, pos + (done.flatMap Entry.blocks).length, e.size⟩ := by
  induction es generalizing pos with
  | nil => cases h
  | cons e es ih =>
    unfold files at h
    rcases List.mem_append.mp h with h | h
    · split at h
      · exact ⟨[], e, es, rfl, List.mem_singleton.mp h⟩
      · cases h
    · obtain ⟨done, e', rest, rfl, rfl⟩ := ih h
      refine ⟨e :: done, e', rest, rfl, ?_⟩
      rw [List.flatMap_cons, List.length_append, Nat.add_assoc]

/-- The header of a file, and where its data is. -/
theorem Archive.file (ha : Archive dev es) (hdr : Block) (h : f ∈ files 0 es) :
    ZZz.new dev hdr (UInt32.ofNat f.block) =
        ⟨UInt32.ofNat f.block + 1, if UInt32.ofNat f.size = 0 then -1 else 0, UInt32.ofNat f.size⟩ ∧
      f.block < dev.block_count ∧ f.size < 2 ^ 30 := by
  obtain ⟨done, e, rest, hes, rfl⟩ := exists_of_files h
  have hcount := dev.count_lt
  obtain ⟨hread, hlt⟩ := ha.read_header hes
  rw [Nat.zero_add]
  have hblock : (UInt32.ofNat (done.flatMap Entry.blocks).length).toNat =
      (done.flatMap Entry.blocks).length :=
    UInt32.toNat_ofNat_of_lt' (by unfold UInt32.size; omega)
  refine ⟨?_, hlt, e.size_lt⟩
  unfold ZZz.new
  rw [hblock, hread, Option.getD_some, e.octal2ui_eq]

/-- Where a file starts, and how long it is. -/
theorem Archive.new_file (ha : Archive dev es) (hdr : Block) (h : found (files 0 es) p = some b)
    (hcount : dev.block_count < 2 ^ 31) :
    (ZZz.new dev hdr (UInt32.ofNat b.1)).xXc.toNat = b.1 + 1 ∧
      (ZZz.new dev hdr (UInt32.ofNat b.1)).XXc.toNat = b.2 ∧
      (ZZz.new dev hdr (UInt32.ofNat b.1)).Xxc.toNat = (if b.2 = 0 then 2 ^ 32 - 1 else 0) ∧
      b.1 < 2 ^ 31 ∧ b.2 < 2 ^ 30 := by
  obtain ⟨f, hf, -, rfl⟩ := found_mem h
  obtain ⟨hnew, hblock, hsize⟩ := ha.file hdr hf
  dsimp only at hnew ⊢
  rw [hnew]
  have hb : (UInt32.ofNat f.block).toNat = f.block :=
    UInt32.toNat_ofNat_of_lt' (by unfold UInt32.size; omega)
  have hs : (UInt32.ofNat f.size).toNat = f.size :=
    UInt32.toNat_ofNat_of_lt' (by unfold UInt32.size; omega)
  refine ⟨?_, hs, ?_, by omega, hsize⟩
  · rw [UInt32.toNat_add, hb]
    show (f.block + 1) % 2 ^ 32 = _
    omega
  · have hzero : UInt32.ofNat f.size = 0 ↔ f.size = 0 := by
      rw [← UInt32.toNat_inj, hs]
      rfl
    dsimp only
    split_ifs with h₁ h₂ h₂
    · rfl
    · exact absurd (hzero.mp h₁) h₂
    · exact absurd (hzero.mpr h₂) h₁
    · rfl

end Fs

namespace Kernel.FileCalls

variable {T P : Type} {E : Setting T P} {C : List (List UInt8)} {es : List Entry}
  {s s' : State T P} {current : T} {o : Opened} {first f : ZZz} {given : List UInt8} {addr : ℕ}

/-! ## One file -/

/-- What was read is the start of the data, and the file is at the end of that. -/
structure Streams (dev : BlockDevice) (first f : ZZz) (given : List UInt8) : Prop where
  start : f.xXc = first.xXc
  size : f.XXc = first.XXc
  pos : f.Xxc.toNat = if first.XXc.toNat = 0 then 2 ^ 32 - 1 else given.length
  empty : first.XXc.toNat = 0 → given = []
  data : given = (List.range given.length).map (data dev first.xXc.toNat)

/-- A file of the disk gives its data in order. -/
def Opened.Follows (dev : BlockDevice) (o : Opened) : File → Prop
  | .device d => o.file = .device d
  | .disk first => ∃ f, o.file = .disk f ∧ Streams dev first f o.given

/-- The driver counts bytes and blocks with 32 bits, which is enough for the file. -/
def Countable : File → Prop
  | .device _ => True
  | .disk first => first.xXc.toNat ≤ 2 ^ 31 ∧ first.XXc.toNat < 2 ^ 30 ∧
      first.Xxc.toNat = if first.XXc.toNat = 0 then 2 ^ 32 - 1 else 0

theorem Streams.ended_iff (h : Streams E.disk first f given) :
    f.XXc.toNat ≤ f.Xxc.toNat ↔ first.XXc.toNat ≤ given.length := by
  have hpos := h.pos
  rw [h.size]
  split_ifs at hpos <;> omega

/-- How many bytes a read gives. -/
def rest (size given n : ℕ) : ℕ := if size ≤ given then 0 else n

/-- A read gives what is next. -/
theorem Streams.read (h : Streams E.disk first f given) (hreads : E.disk.Reads)
    (hc : Countable (.disk first)) (m : Buffers) {n : UInt64} (hn : n.toNat < 2 ^ 31) :
    ∃ rc after f', f.read E.disk (n.toNat + 1) m n = some (rc, after, f') ∧
      rc.toInt = rest first.XXc.toNat given.length n.toNat ∧
      (∀ i < rest first.XXc.toNat given.length n.toNat,
        after i = Fs.data E.disk first.xXc.toNat (given.length + i)) ∧
      (∀ i, rest first.XXc.toNat given.length n.toNat ≤ i → after i = m.caller i) ∧
      Streams E.disk first f' (given ++ (List.range rc.toInt.toNat).map after) := by
  obtain ⟨hblock, hsize, -⟩ := hc
  unfold rest
  by_cases hend : first.XXc.toNat ≤ given.length
  · refine ⟨0, m.caller, f, ZZz.read_behind m (h.ended_iff.mpr hend), ?_⟩
    rw [if_pos hend]
    refine ⟨rfl, fun i hi => absurd hi (Nat.not_lt_zero i), fun _ _ => rfl, ?_⟩
    have hnone : (List.range (0 : Int32).toInt.toNat).map m.caller = [] := rfl
    rwa [hnone, List.append_nil]
  · have hpos := h.pos
    rw [if_neg (by omega)] at hpos
    have hstart := h.start
    have hlt : f.Xxc.toNat < f.XXc.toNat := by
      rw [← Nat.not_le, h.ended_iff]
      exact hend
    have hxxc := h.size
    obtain ⟨rc, after, hread, hrc, hin, hout⟩ := ZZz.read_on m hreads hn (by omega)
      (by rw [hstart]; omega) hlt
    rw [hpos, hstart] at hin
    refine ⟨rc, after, _, hread, ?_⟩
    rw [if_neg hend, hrc, Int.toNat_natCast]
    refine ⟨rfl, hin, hout, hstart, hxxc, ?_, fun hzero => by omega, ?_⟩
    · rw [if_neg (by omega), List.length_append, List.length_map, List.length_range]
      show (f.Xxc + n.toUInt32).toNat = _
      rw [UInt32.toNat_add, UInt64.toNat_toUInt32, hpos]
      omega
    · rw [List.length_append, List.length_map, List.length_range, List.range_add, List.map_append,
        List.map_map, ← h.data]
      congr 1
      exact List.map_congr_left fun i hi => hin i (List.mem_range.mp hi)

/-! ## The invariant -/

def file_of : DefaultSyscalls.Object T → Option ℕ
  | .File addr => some addr
  | _ => none

/-- Each file has one handle, and gives the data of what was behind its path. -/
structure Inv (E : Setting T P) (C : List (List UInt8)) (es : List Entry)
    (s : State T P) : Prop where
  serves : Serves E.around C E.devices es s.vfs
  handles : DefaultSyscalls.Inv s.handles
  files : s.handles.created.filterMap (fun e => file_of e.object) = List.range s.files.length
  follows : ∀ o ∈ s.files, ∃ first, opened_path E.around E.disk (Fs.files 0 es) E.devices o.path = some first ∧
    Countable first ∧ o.Follows E.disk first

theorem file_of_eq {object : DefaultSyscalls.Object T} : file_of object = some addr ↔ object = .File addr := by
  cases object with
  | File a => simp [file_of]
  | Directory | Process | Thread => simp [file_of]

section Inv

variable {e e' : DefaultSyscalls.Creation T}

theorem Inv.file_lt (hi : Inv E C es s) (he : e ∈ s.handles.created) (ho : e.object = .File addr) :
    addr < s.files.length := by
  have hmem : addr ∈ s.handles.created.filterMap (fun e => file_of e.object) :=
    List.mem_filterMap.mpr ⟨e, he, file_of_eq.mpr ho⟩
  rw [hi.files] at hmem
  exact List.mem_range.mp hmem

theorem Inv.same_file (hi : Inv E C es s) (he : e ∈ s.handles.created)
    (he' : e' ∈ s.handles.created) (ho : e.object = .File addr) (ho' : e'.object = .File addr) :
    e = e' := by
  have hnd : (s.handles.created.filterMap fun e => file_of e.object).Nodup :=
    hi.files ▸ List.nodup_range
  rw [List.Nodup, List.pairwise_filterMap] at hnd
  have honce : s.handles.created.Pairwise fun e e' => ¬ (e.object = .File addr ∧ e'.object = .File addr) :=
    hnd.imp fun h ⟨ho, ho'⟩ => h addr (file_of_eq.mpr ho) addr (file_of_eq.mpr ho') rfl
  have heq := List.Pairwise.forall_of_forall_of_flip
    (R := fun e e' => e.object = .File addr → e'.object = .File addr → e = e') (fun _ _ _ _ => rfl)
    (honce.imp fun h ho ho' => absurd ⟨ho, ho'⟩ h) (honce.imp fun h ho ho' => absurd ⟨ho', ho⟩ h)
  exact heq he he' ho ho'

end Inv

/-! ## The steps -/

/-- The names are told apart, and the disk is readable and holds the archive. It has less than 2^31
blocks. -/
structure Setting.Sound (E : Setting T P) (C : List (List UInt8)) (es : List Entry) : Prop where
  apart : Apart C
  dev : Fs.Kernel.dev_name ∈ C
  usr : Fs.Kernel.usr_name ∈ C
  names : ∀ c ∈ names (Fs.files 0 es), c ∈ C
  devices : E.devices._devices.Valid
  boot_device_name : E.boot_device_name ≠ []
  boot_device : ∃ d, E.devices._devices.get (Util.String.compute_hash E.boot_device_name) = some d ∧
    E.around.disks d = some E.disk
  archive : Archive E.disk es
  count_lt : E.disk.block_count < 2 ^ 31
  reads : E.disk.Reads

theorem opened_new (hE : E.Sound C es) {path : List UInt8} {file : File}
    (h : opened_path E.around E.disk (Fs.files 0 es) E.devices path = some file) :
    Countable file ∧ Opened.Follows E.disk ⟨path, file, []⟩ file := by
  cases file with
  | device d => exact ⟨trivial, rfl⟩
  | disk first =>
    obtain ⟨names, b, hfound, rfl⟩ : ∃ names b, found (Fs.files 0 es) names = some b ∧
        first = ZZz.new E.disk E.around.hdr (UInt32.ofNat b.1) := by
      unfold opened_path opened at h
      split at h
      · cases h
      split_ifs at h
      split at h
      · cases h
      split_ifs at h
      · split at h
        · obtain ⟨_, -, hd⟩ := Option.map_eq_some_iff.mp h
          cases hd
        · cases h
      · obtain ⟨b, hfound, hb⟩ := Option.map_eq_some_iff.mp h
        exact ⟨_, b, hfound, (File.disk.inj hb).symm⟩
    obtain ⟨hstart, hsize, hpos, hb, hs⟩ :=
      hE.archive.new_file E.around.hdr hfound hE.count_lt
    refine ⟨⟨by omega, by omega, ?_⟩, _, rfl, rfl, rfl, ?_, fun _ => rfl, rfl⟩
    · rw [hpos, hsize]
    · rw [hpos, hsize]
      rfl

/-- The files of others are not the one that was used. -/
theorem Inv.undisturbed {e : DefaultSyscalls.Creation T} {p : P} (hi : Inv E C es s)
    (he : e ∈ s.handles.created) (ho : e.object = .File addr) (hp : E.process e.caller ≠ p)
    (hhandles : s'.handles = s.handles) (hfiles : ∀ a, a ≠ addr → s'.files[a]? = s.files[a]?)
    [DecidableEq P] (hwritten : s'.written = s.written ∨
      ∃ w, s'.written = s.written ++ [w] ∧ E.process w.thread ≠ p) :
    Undisturbed E.process p s s' := by
  refine ⟨hhandles ▸ List.prefix_refl _, fun e' he' hp' a ha => hfiles a ?_, ?_⟩
  · rintro rfl
    obtain rfl := hi.same_file he he' ho ha
    exact hp hp'
  · rcases hwritten with hw | ⟨w, hw, hne⟩
    · rw [hw]
    · rw [hw, List.filter_append]
      simp [hne]

theorem read_file_spec (hE : E.Sound C es) {e : DefaultSyscalls.Creation T} (hi : Inv E C es s)
    (he : e ∈ s.handles.created) (ho : e.object = .File addr) {n : UInt64} (hn : n.toNat < 2 ^ 31)
    (m : Buffers) (clock : ℕ → UInt8) :
    Ends (read_file E m n clock addr) s (fun _ s' => Inv E C es s' ∧ s'.handles = s.handles ∧
      s'.written = s.written ∧ ∀ a, a ≠ addr → s'.files[a]? = s.files[a]?) fun _ => True := by
  unfold read_file
  rw [ends_bind, ends_get]
  have hlt := hi.file_lt he ho
  rw [List.getElem?_eq_getElem hlt]
  obtain ⟨first, hfirst, hc, hfollows⟩ := hi.follows _ (List.getElem_mem hlt)
  dsimp only
  cases first with
  | device d =>
    rw [show (s.files[addr]).file = .device d from hfollows]
    dsimp only
    cases E.device_file d with
    | terminal vc =>
      dsimp only
      cases (s.ttys d).read n.toNat with
      | none => trivial
      | some r => exact ⟨⟨hi.serves, hi.handles, hi.files, hi.follows⟩, rfl, rfl, fun _ _ => rfl⟩
    | rtc => exact ⟨hi, rfl, rfl, fun _ _ => rfl⟩
  | disk first =>
    obtain ⟨f, hf, hstreams⟩ := hfollows
    obtain ⟨rc, after, f', hread, -, -, -, hnext⟩ := hstreams.read hE.reads hc m hn
    rw [hf]
    dsimp only
    rw [hread]
    refine ⟨⟨hi.serves, hi.handles, ?_, fun o hmem => ?_⟩, rfl, rfl, fun a ha => ?_⟩
    · show _ = List.range (List.length (List.set _ _ _))
      rw [List.length_set]
      exact hi.files
    · rcases List.mem_or_eq_of_mem_set hmem with hmem | rfl
      · exact hi.follows o hmem
      · exact ⟨.disk first, hfirst, hc, f', rfl, hnext⟩
    · exact List.getElem?_set_ne (Ne.symm ha)

theorem write_file_spec {e : DefaultSyscalls.Creation T} (current : T) (hi : Inv E C es s)
    (he : e ∈ s.handles.created) (ho : e.object = .File addr) (buffer : List UInt8) :
    Ends (write_file E current buffer addr) s (fun _ s' => Inv E C es s' ∧
      s'.handles = s.handles ∧ s'.files = s.files ∧ (s'.written = s.written ∨
        ∃ w, s'.written = s.written ++ [w] ∧ w.thread = current)) fun _ => True := by
  unfold write_file
  rw [ends_bind, ends_get, List.getElem?_eq_getElem (hi.file_lt he ho)]
  dsimp only
  cases (s.files.get ⟨addr, hi.file_lt he ho⟩).file with
  | disk f => exact ⟨hi, rfl, rfl, .inl rfl⟩
  | device d =>
    dsimp only
    cases E.device_file d with
    | rtc => exact ⟨hi, rfl, rfl, .inl rfl⟩
    | terminal vc =>
      cases vc with
      | none => exact ⟨hi, rfl, rfl, .inl rfl⟩
      | some vc =>
        dsimp only
        split_ifs
        · exact ⟨⟨hi.serves, hi.handles, hi.files, hi.follows⟩, rfl, rfl, .inr ⟨_, rfl, rfl⟩⟩
        · trivial

variable [DecidableEq P] {h : UInt64} {hs : DefaultSyscalls.State T P}

/-- All is well still, and other processes notice nothing. -/
def Kept (E : Setting T P) (C : List (List UInt8)) (es : List Entry) (current : T)
    (s s' : State T P) : Prop :=
  Inv E C es s' ∧ ∀ p, E.process current ≠ p → Undisturbed E.process p s s'

theorem Inv.kept (hi : Inv E C es s) : Kept E C es current s s := ⟨hi, fun _ _ => .refl s⟩

/-- A handle for something else than a file. -/
theorem Inv.new_handle {r : UInt64} {object : DefaultSyscalls.Object T} (hi : Inv E C es s)
    (hobject : file_of object = none) (hhandles : DefaultSyscalls.Inv hs)
    (hcreated : hs.created = s.handles.created ++ [⟨current, object, r⟩]) :
    Kept E C es current s { s with handles := hs } := by
  refine ⟨⟨hi.serves, hhandles, ?_, hi.follows⟩, fun p _ => ⟨?_, fun _ _ _ _ _ => rfl, rfl⟩⟩
  · show hs.created.filterMap _ = _
    rw [hcreated, List.filterMap_append, hi.files]
    simp [hobject]
  · show s.handles.created <+: hs.created
    rw [hcreated]
    exact List.prefix_append _ _

theorem Inv.new_vfs {v : Vfs Mounted} (hi : Inv E C es s) (hv : Serves E.around C E.devices es v) :
    Kept E C es current s { s with vfs := v } :=
  ⟨⟨hv, hi.handles, hi.files, hi.follows⟩, fun _ _ =>
    ⟨List.prefix_refl _, fun _ _ _ _ _ => rfl, rfl⟩⟩

theorem Kept.trans {s'' : State T P} (h : Kept E C es current s s')
    (h' : Kept E C es current s' s'') : Kept E C es current s s'' :=
  ⟨h'.1, fun p hp => (h.2 p hp).trans (h'.2 p hp)⟩

/-- What is made and put into the table is no file. -/
theorem create_kept (found : Option (DefaultSyscalls.Object T)) (addr : ℕ) (hi : Inv E C es s)
    (hfound : ∀ object, found = some object → file_of object = none) :
    Ends (on_handles (DefaultSyscalls.create addr current found)) s
      (fun _ s' => Kept E C es current s s') fun _ => True := by
  rw [ends_on_handles]
  apply ends_weaken (DefaultSyscalls.create_spec hi.handles) ?_ fun _ _ => trivial
  rintro r hs ⟨hhandles, hcreated⟩
  cases found with
  | none =>
    obtain ⟨-, rfl⟩ := hcreated
    exact hi.kept
  | some object => exact hi.new_handle (hfound object rfl) hhandles hcreated.1

theorem sys_open_kept (hE : E.Sound C es) (hi : Inv E C es s) {addr : ℕ} {filename : List UInt8}
    (hpath : PathNamed C filename) : Ends (sys_open E current addr filename) s
      (fun _ s' => Kept E C es current s s') fun _ => True := by
  unfold sys_open
  rw [ends_bind, ends_on_vfs]
  apply ends_weaken (hi.serves.open_path hE.apart hpath) ?_ fun _ _ => trivial
  rintro r v ⟨hr, hserves⟩
  have hv : Kept E C es current s { s with vfs := v } := hi.new_vfs hserves
  cases r with
  | none =>
    apply ends_mono (create_kept none addr hv.1 nofun)
    exact fun _ _ h => hv.trans h
  | some f =>
    obtain ⟨hcount, hfollows⟩ := opened_new hE hr.symm
    unfold new_file
    rw [ends_bind, ends_bind, ends_get, ends_bind, ends_modify, ends_pure, ends_on_handles]
    apply ends_weaken (DefaultSyscalls.create_spec hi.handles) ?_ fun _ _ => trivial
    rintro r hs ⟨hhandles, hcreated⟩
    have hcreated : hs.created = s.handles.created ++ [⟨current, .File s.files.length, r⟩] := hcreated.1
    refine ⟨⟨hserves, hhandles, ?_, fun o ho => ?_⟩, fun p _ => ⟨?_, fun e he _ a ha => ?_, rfl⟩⟩
    · show hs.created.filterMap _ = List.range (s.files ++ [_]).length
      rw [hcreated, List.filterMap_append, hi.files, List.length_append, List.length_singleton,
        List.range_succ]
      rfl
    · rcases List.mem_append.mp ho with ho | ho
      · exact hi.follows o ho
      · obtain rfl := List.mem_singleton.mp ho
        exact ⟨f, hr.symm, hcount, hfollows⟩
    · show s.handles.created <+: hs.created
      rw [hcreated]
      exact List.prefix_append _ _
    · exact List.getElem?_append_left (hi.file_lt he ha)

theorem sys_read_kept (hE : E.Sound C es) (hi : Inv E C es s) {m : Buffers} {n : UInt64}
    {clock : ℕ → UInt8} (hn : n.toNat < 2 ^ 31) : Ends (sys_read E current h m n clock) s
      (fun _ s' => Kept E C es current s s') fun _ => True := by
  apply with_file_spec hi.handles hi.kept ?_ fun _ => trivial
  intro e he _ hp addr ho
  apply ends_mono (read_file_spec hE hi he ho hn m clock)
  rintro r s' ⟨hi', hhandles, hwritten, hfiles⟩
  exact ⟨hi', fun p hne => hi.undisturbed he ho (hp ▸ hne) hhandles hfiles (.inl hwritten)⟩

theorem sys_write_kept (hi : Inv E C es s) {buffer : List UInt8} :
    Ends (sys_write E current h buffer) s (fun _ s' => Kept E C es current s s')
      fun _ => True := by
  apply with_file_spec hi.handles hi.kept ?_ fun _ => trivial
  intro e he _ hp addr ho
  apply ends_mono (write_file_spec current hi he ho buffer)
  rintro r s' ⟨hi', hhandles, hfiles, hwritten⟩
  refine ⟨hi', fun p hne => hi.undisturbed he ho (hp ▸ hne) hhandles (fun a _ => by rw [hfiles]) ?_⟩
  exact hwritten.imp id fun ⟨w, hw, ht⟩ => ⟨w, hw, ht ▸ hne⟩

theorem sys_close_kept (hi : Inv E C es s) :
    Ends (sys_close E current h) s (fun _ s' => Kept E C es current s s') fun _ => True :=
  with_file_spec hi.handles hi.kept (fun _ _ _ _ _ _ => hi.kept) fun _ => trivial

theorem on_table_kept {c : DefaultSyscalls.Call T}
    (hc : Ends (c.run E.process current) s.handles (fun _ hs =>
      Kept E C es current s { s with handles := hs }) fun _ => True) :
    Ends (on_table E current c) s (fun _ s' => Kept E C es current s s') fun _ => True := by
  unfold on_table
  rw [ends_discard, ends_on_handles]
  exact hc

theorem look_up_kept {k : DefaultSyscalls.Kind} {rc : UInt32} (hi : Inv E C es s) :
    Ends (DefaultSyscalls.Answer.outcome <$> DefaultSyscalls.look_up E.process current h k rc) s.handles
      (fun _ hs => Kept E C es current s { s with handles := hs }) fun _ => True := by
  rw [ends_map]
  apply ends_weaken (DefaultSyscalls.look_up_same hi.handles) ?_ fun _ he => he.elim
  rintro _ hs rfl
  exact hi.kept

theorem Call.kept (hE : E.Sound C es) (hi : Inv E C es s) (c : Call T) (hc : c.Allowed E current C) :
    Ends (c.run E current) s (fun _ s' => Kept E C es current s s') fun _ => True := by
  cases c with
  | sys_open addr filename => exact (ends_discard _).mpr (sys_open_kept hE hi hc)
  | sys_close h => exact (ends_discard _).mpr (sys_close_kept hi)
  | sys_read h m n clock => exact (ends_discard _).mpr (sys_read_kept hE hi hc)
  | sys_write h buffer => exact (ends_discard _).mpr (sys_write_kept hi)
  | sys_opendir addr path found =>
    refine (ends_discard _).mpr ?_
    unfold FileCalls.sys_opendir
    rw [ends_bind, ends_discard, ends_on_vfs]
    apply ends_weaken (hi.serves.lookup hE.apart hc) ?_ fun _ _ => trivial
    intro _ v hv
    have hv : Kept E C es current s { s with vfs := v } := hi.new_vfs hv
    apply ends_mono (create_kept _ _ hv.1 ?_) fun _ _ h => hv.trans h
    rintro _ hobject
    obtain ⟨_, -, rfl⟩ := Option.map_eq_some_iff.mp hobject
    rfl
  | sys_exec addr program found =>
    refine (ends_discard _).mpr ?_
    unfold FileCalls.sys_exec
    rw [ends_bind, ends_discard, ends_on_vfs]
    apply ends_weaken (hi.serves.open_path hE.apart hc) ?_ fun _ _ => trivial
    rintro _ v ⟨-, hv⟩
    have hv : Kept E C es current s { s with vfs := v } := hi.new_vfs hv
    apply ends_mono (create_kept _ _ hv.1 ?_) fun _ _ h => hv.trans h
    rintro _ hobject
    obtain ⟨_, -, rfl⟩ := Option.map_eq_some_iff.mp hobject
    rfl
  | sys_create_thread addr t =>
    apply on_table_kept
    have hthread := DefaultSyscalls.sys_create_thread_spec E.process addr current t hi.handles
    refine (ends_map _ _).mpr (ends_weaken hthread ?_ fun _ _ => trivial)
    rintro r hs ⟨hhandles, -, -, hcreated⟩
    exact hi.new_handle rfl hhandles hcreated
  | sys_readdir h => exact on_table_kept (look_up_kept hi)
  | sys_closedir h => exact on_table_kept (look_up_kept hi)
  | sys_wait_proc h => exact on_table_kept (look_up_kept hi)
  | sys_join_thread h => exact on_table_kept (look_up_kept hi)
  | sys_stop_thread h =>
    apply on_table_kept
    by_cases hself : h = -1
    · subst hself
      exact hi.kept
    · unfold DefaultSyscalls.Call.run
      dsimp only
      rw [show DefaultSyscalls.sys_stop_thread E.process current h =
        DefaultSyscalls.look_up E.process current h .Thread (-1) from if_neg hself]
      exact look_up_kept hi

/-- The process that an event is of. -/
def Event.process (E : Setting T P) : Event T → Option P
  | call t _ => some (E.process t)
  | key _ _ => none

theorem Event.kept (hE : E.Sound C es) (hi : Inv E C es s) (e : Event T) (he : e.Allowed E C) :
    Ends (e.run E) s (fun _ s' => Inv E C es s' ∧
      ∀ p, e.process E ≠ some p → Undisturbed E.process p s s') fun _ => True := by
  cases e with
  | call t c =>
    apply ends_mono (c.kept hE hi he)
    exact fun _ _ h => ⟨h.1, fun p hp => h.2 p fun heq => hp (congrArg some heq)⟩
  | key d c =>
    exact ⟨⟨hi.serves, hi.handles, hi.files, hi.follows⟩, fun _ _ =>
      ⟨List.prefix_refl _, fun _ _ _ _ _ => rfl, rfl⟩⟩

theorem Inv.reachable (hE : E.Sound C es) (hr : (system E C).Reachable s) : Inv E C es s := by
  apply hr.preserves
  · rintro s ⟨hmount, hhandles, hfiles⟩
    obtain ⟨d, hd, hdisk⟩ := hE.boot_device
    have hserves := (ends_ok (mount_all_spec hE.apart hE.dev hE.usr hE.names hE.devices
      hE.boot_device_name hd hdisk hE.archive) hmount).2
    refine ⟨hserves, ?_, ?_, ?_⟩
    · rw [hhandles]
      exact ⟨ObjectManager.inv_init, nofun⟩
    · rw [hhandles, hfiles]
      rfl
    · rw [hfiles]
      exact nofun
  · intro s e s' hi ha hs
    obtain ⟨⟨_, _⟩, hx, rfl⟩ := map_eq_ok hs
    exact (ends_ok (e.kept hE hi ha) hx).1

/-! ## Reading -/

/-- The block and the size of the file of the archive that a path stands for. -/
def file_at (es : List Entry) : List UInt8 → Option (ℕ × ℕ)
  | [] => none
  | c :: path =>
    match VirtualFilesystem.names_before path with
    | [] => none
    | name :: names => if c = 47 ∧ name = Fs.Kernel.usr_name then found (Fs.files 0 es) names else none

theorem opened_path_of {path : List UInt8} {b : ℕ × ℕ} (S : Surroundings) (dev : BlockDevice)
    (dm : DeviceManager) (h : file_at es path = some b) : opened_path S dev (Fs.files 0 es) dm path =
      some (.disk (ZZz.new dev S.hdr (UInt32.ofNat b.1))) ∧ ∃ p, found (Fs.files 0 es) p = some b := by
  unfold file_at at h
  cases path with
  | nil => cases h
  | cons c path =>
    dsimp only at h
    split at h
    · cases h
    next name names heq =>
      split_ifs at h with hc
      obtain ⟨rfl, rfl⟩ := hc
      refine ⟨?_, names, h⟩
      unfold opened_path opened
      dsimp only
      rw [if_pos rfl, heq]
      dsimp only
      rw [if_neg usr_ne_dev, if_pos rfl, h]
      rfl

omit [DecidableEq P] in
theorem read_file_eq {m : Buffers} {n : UInt64} {clock : ℕ → UInt8} {rc : Int32} {after : Memory}
    {f f' : ZZz} (hf : s.files[addr]? = some o) (hof : o.file = .disk f)
    (hread : f.read E.disk (n.toNat + 1) m n = some (rc, after, f')) :
    read_file E m n clock addr s = .ok ((rc.toUInt32, after), { s with
      files := s.files.set addr ⟨o.path, .disk f', o.given ++ (List.range rc.toInt.toNat).map after⟩ }) := by
  unfold read_file
  rw [bind_eq]
  simp only [get, getThe, MonadStateOf.get, StateT.get, pure, Except.pure, hf]
  rw [hof]
  dsimp only
  rw [hread]
  rfl

/-- The file `a` has the bytes 104 and 105. -/
def hi_archive : List Entry :=
  [{ header := short_header [97] 50 48, data := [fun i => if i.val = 0 then 104 else if i.val = 1 then 105 else 0],
     name_ends := by decide +kernel, size_ends := by decide +kernel, digits := by decide +kernel,
     size_lt := by decide +kernel, data_length := by decide +kernel }]

theorem hi_count_lt : 4 < 2 ^ 32 := by decide

/-- Behind the archive there are zeros. -/
def hi_device : BlockDevice where
  block_count := 4
  count_lt := hi_count_lt
  read_block i := some ((hi_archive.flatMap Entry.blocks)[i]?.getD fun _ => 0)

def with_device (name : List UInt8) (d : ℕ) (dm : DeviceManager) : DeviceManager :=
  (DeviceManager.store (64 * ·) name d dm).toOption.elim dm Prod.snd

theorem with_device_valid {name : List UInt8} {d : ℕ} {dm : DeviceManager} (h : dm._devices.Valid) :
    (with_device name d dm)._devices.Valid := by
  unfold with_device
  cases hx : DeviceManager.store (64 * ·) name d dm with
  | error e => exact h
  | ok r => exact (ends_ok (DeviceManager.ends_store h) hx).1.valid

/-- The disk is device 5, and is named `d`. The console is device 7. -/
def hi_devices : DeviceManager :=
  with_device [99, 111, 110, 115, 111, 108, 101] 7 (with_device [100] 5 DeviceManager.start)

/-- Each thread is a process of its own. -/
def hi_setting : Setting ℕ ℕ where
  around :=
    { vfs_alloc := (64 * ·)
      tmp_alloc := (64 * ·)
      usr_alloc := (64 * ·)
      disks := fun d => if d = 5 then some hi_device else none
      hdr := fun _ => 0
      open_as_file := fun d => d = 7 }
  devices := hi_devices
  boot_device_name := [100]
  disk := hi_device
  device_file _ := .terminal (some 0)
  process := id

def hi_names : List (List UInt8) :=
  [Fs.Kernel.dev_name, Fs.Kernel.usr_name, [97], [99, 111, 110, 115, 111, 108, 101]]

/-- `/usr/a` -/
def hi_path : List UInt8 := [47, 117, 115, 114, 47, 97]

def hi_start : Option (State ℕ ℕ) :=
  (Fs.Kernel.mount_all hi_setting.around [100] (unmounted hi_devices)).toOption.bind fun r =>
    if r.1 then some ⟨r.2, DefaultSyscalls.init, [], fun _ => .new fun _ => 0, fun _ => .new none, []⟩
    else none

theorem hi_archived : Archive hi_device hi_archive := by
  have hlen : (hi_archive.flatMap Entry.blocks).length = 2 := by decide +kernel
  refine ⟨fun i b hb => ?_, by rw [hlen]; decide, .inr ⟨fun _ => 0, ?_, ?_⟩⟩
  · show some _ = some b
    rw [hb, Option.getD_some]
  · show some ((hi_archive.flatMap Entry.blocks)[_]?.getD _) = _
    rw [List.getElem?_eq_none le_rfl, Option.getD_none]
  · simp [TarFS.is_zero_block]

theorem hi_sound : hi_setting.Sound hi_names hi_archive where
  apart := by
    unfold Apart
    decide +kernel
  dev := by decide
  usr := by decide
  names := by decide +kernel
  devices := with_device_valid (with_device_valid Util.Map.valid_empty)
  boot_device_name := by decide
  boot_device := ⟨5, by decide +kernel, rfl⟩
  archive := hi_archived
  count_lt := by decide
  reads i := ⟨_, rfl⟩

theorem exists_hi_start : ∃ s, hi_start = some s ∧ (system hi_setting hi_names).start s ∧
    s.written = [] := by
  have hsome : hi_start.isSome = true := by decide +kernel
  obtain ⟨s, hs⟩ := Option.isSome_iff_exists.mp hsome
  refine ⟨s, hs, ?_⟩
  obtain ⟨⟨r, v⟩, hrun, hr⟩ := Option.bind_eq_some_iff.mp hs
  cases r with
  | false => cases hr
  | true =>
    obtain rfl := Option.some.inj hr
    exact ⟨⟨eq_ok_of_toOption hrun, rfl, rfl⟩, rfl⟩

end Kernel.FileCalls

end Infos
