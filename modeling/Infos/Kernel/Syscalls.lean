import Infos.Kernel.ObjectManager
import Mathlib.Order.CompletePartialOrder
import Mathlib.Order.Interval.Set.Disjoint

/-!
# System calls on handles

The system calls that make a handle, and those that take one. The table holds a pointer without its
kind, and a call goes on with the object through the type that it casts the pointer to, whatever the
object is.
-/

open Infos.Prog Infos.Util

namespace Infos.Kernel.DefaultSyscalls

inductive Kind where
  | File
  | Directory
  | Process
  | Thread
  deriving DecidableEq, Repr

/-- What a pointer in the table of handles points at. -/
inductive Object (T : Type) where
  | File (addr : ℕ)
  | Directory (addr : ℕ)
  | Process (addr : ℕ)
  | Thread (t : T)
  deriving DecidableEq, Repr

def Object.kind {T : Type} : Object T → Kind
  | File _ => .File
  | Directory _ => .Directory
  | Process _ => .Process
  | Thread _ => .Thread

/-- A handle that was given to a thread. -/
structure Creation (T : Type) where
  caller : T
  object : Object T
  handle : UInt64
  deriving DecidableEq, Repr

/-- The memory that `allocate_virt` is asked for, and the stack pointer. -/
structure UserStack (P : Type) where
  owner : P
  handle : UInt64
  vaddr : UInt64
  nr_pages : ℕ
  rsp : UInt64
  deriving DecidableEq, Repr

/-- `created` is the history of the handles. -/
structure State (T P : Type) where
  manager : ObjectManager T (Object T)
  created : List (Creation T)
  user_stacks : List (UserStack P)

variable {T P α : Type}

abbrev Op (T P α : Type) := StateT (State T P) (Except Util.Fault) α

def KernelObject.Error : UInt64 := -1

def Creation.issue (e : Creation T) : UInt64 × ObjectDescriptor T (Object T) :=
  (e.handle, ⟨e.caller, some e.object⟩)

def State.registry (s : State T P) : ObjectManager.Registry T (Object T) :=
  ⟨s.manager, s.created.map Creation.issue⟩

def objects (x : ObjectManager.Op T (Object T) α) : Op T P α := fun s =>
  match x s.manager with
  | .ok (a, m) => .ok (a, { s with manager := m })
  | .error e => .error e

def register_object (addr : ℕ) (current : T) (object : Object T) : Op T P UInt64 := do
  let h ← objects (ObjectManager.register_object addr current (some object))
  modify fun s => { s with created := s.created ++ [⟨current, object, h⟩] }
  return h

/-! ## Calls that make a handle

`addr` is where the allocator has memory, and `found` what the file system or the launch answers. -/

def create (addr : ℕ) (current : T) (found : Option (Object T)) : Op T P UInt64 := do
  match found with
  | none => return KernelObject.Error
  | some object => register_object addr current object

def sys_open (addr : ℕ) (current : T) (found : Option ℕ) : Op T P UInt64 :=
  create addr current (found.map .File)

def sys_opendir (addr : ℕ) (current : T) (found : Option ℕ) : Op T P UInt64 :=
  create addr current (found.map .Directory)

def sys_exec (addr : ℕ) (current : T) (found : Option ℕ) : Op T P UInt64 :=
  create addr current (found.map .Process)

/-- The product is one of `unsigned int`s. -/
def stack_addr (h : UInt64) : UInt64 := 0x7fff00000000 + (0x2000 * h.toUInt32).toUInt64

def allocate_user_stack (owner : P) (h vaddr size : UInt64) : Op T P Unit :=
  modify fun s => { s with
    user_stacks := s.user_stacks ++ [⟨owner, h, vaddr, (size.toNat + 0xfff) / 0x1000, vaddr + size⟩] }

def sys_create_thread (process : T → P) (addr : ℕ) (current t : T) : Op T P UInt64 := do
  let h ← register_object addr current (.Thread t)
  allocate_user_stack (process t) h (stack_addr h) 0x2000
  return h

/-! ## Calls that take a handle -/

/-- The call fails and returns a code, or goes on with the object through a pointer to `cast`. -/
inductive Outcome (T : Type) where
  | fails (rc : UInt32)
  | uses (object : Object T) (cast : Kind)
  deriving DecidableEq, Repr

variable [DecidableEq P] (process : T → P) (current : T) (h : UInt64)

def look_up (k : Kind) (rc : UInt32) : Op T P (Outcome T) := do
  match ← objects (ObjectManager.get_object_secure process current h) with
  | none => return .fails rc
  | some object => return .uses object k

def sys_close : Op T P (Outcome T) := look_up process current h .File (-1)

def sys_read : Op T P (Outcome T) := look_up process current h .File (-1)

def sys_write : Op T P (Outcome T) := look_up process current h .File (-1)

def sys_readdir : Op T P (Outcome T) := look_up process current h .Directory 0

def sys_closedir : Op T P (Outcome T) := look_up process current h .Directory (-1)

def sys_wait_proc : Op T P (Outcome T) := look_up process current h .Process (-1)

def sys_stop_thread : Op T P (Outcome T) :=
  if h = -1 then return .uses (.Thread current) .Thread
  else look_up process current h .Thread (-1)

def sys_join_thread : Op T P (Outcome T) := look_up process current h .Thread (-1)

/-! ## Runs -/

inductive Call (T : Type) where
  | sys_open (addr : ℕ) (found : Option ℕ)
  | sys_opendir (addr : ℕ) (found : Option ℕ)
  | sys_exec (addr : ℕ) (found : Option ℕ)
  | sys_create_thread (addr : ℕ) (t : T)
  | sys_close (h : UInt64)
  | sys_read (h : UInt64)
  | sys_write (h : UInt64)
  | sys_readdir (h : UInt64)
  | sys_closedir (h : UInt64)
  | sys_wait_proc (h : UInt64)
  | sys_stop_thread (h : UInt64)
  | sys_join_thread (h : UInt64)
  deriving DecidableEq, Repr

/-- What a call answers. -/
inductive Answer (T : Type) where
  | handle (h : UInt64)
  | outcome (o : Outcome T)
  deriving DecidableEq, Repr

def Call.run : Call T → Op T P (Answer T)
  | sys_open addr found => .handle <$> DefaultSyscalls.sys_open addr current found
  | sys_opendir addr found => .handle <$> DefaultSyscalls.sys_opendir addr current found
  | sys_exec addr found => .handle <$> DefaultSyscalls.sys_exec addr current found
  | sys_create_thread addr t =>
      .handle <$> DefaultSyscalls.sys_create_thread process addr current t
  | sys_close h => .outcome <$> DefaultSyscalls.sys_close process current h
  | sys_read h => .outcome <$> DefaultSyscalls.sys_read process current h
  | sys_write h => .outcome <$> DefaultSyscalls.sys_write process current h
  | sys_readdir h => .outcome <$> DefaultSyscalls.sys_readdir process current h
  | sys_closedir h => .outcome <$> DefaultSyscalls.sys_closedir process current h
  | sys_wait_proc h => .outcome <$> DefaultSyscalls.sys_wait_proc process current h
  | sys_stop_thread h => .outcome <$> DefaultSyscalls.sys_stop_thread process current h
  | sys_join_thread h => .outcome <$> DefaultSyscalls.sys_join_thread process current h

/-- The handle that a call looks up, the type it casts to, and the code it fails with. -/
def Call.looks_up : Call T → Option (UInt64 × Kind × UInt32)
  | sys_open _ _ | sys_opendir _ _ | sys_exec _ _ | sys_create_thread _ _ => none
  | sys_close h | sys_read h | sys_write h => some (h, .File, -1)
  | sys_readdir h => some (h, .Directory, 0)
  | sys_closedir h => some (h, .Directory, -1)
  | sys_wait_proc h => some (h, .Process, -1)
  | sys_stop_thread h => if h = -1 then none else some (h, .Thread, -1)
  | sys_join_thread h => some (h, .Thread, -1)

def init : State T P := ⟨ObjectManager.init, [], []⟩

/-- A thread is created in the process of the thread that creates it. -/
def Call.Allowed : Call T → Prop
  | sys_create_thread _ t => process t = process current
  | _ => True

instance (c : Call T) : Decidable (c.Allowed process current) := by
  cases c <;> unfold Call.Allowed <;> infer_instance

/-- Each call is made by a thread. -/
def system : System (State T P) (T × Call T) Util.Fault where
  start s := s = init
  allowed _ c := c.2.Allowed process c.1
  step s c := (c.2.run process c.1 s).map Prod.snd

instance (s : State T P) (c : T × Call T) : Decidable ((system process).allowed s c) :=
  inferInstanceAs (Decidable (c.2.Allowed process c.1))

variable {process} {current} {h} {s s' : State T P} {c : Call T} {k : Kind} {rc : UInt32}
  {object : Object T} {addr : ℕ}

/-! ## The table -/

omit [DecidableEq P] in
@[simp] theorem ends_objects {x : ObjectManager.Op T (Object T) α} {Q : α → State T P → Prop}
    {E : Util.Fault → Prop} : Ends (objects x) s Q E ↔
      Ends x s.manager (fun a m => Q a { s with manager := m }) E := by
  unfold Ends objects
  cases x s.manager <;> rfl

omit [DecidableEq P] in
theorem register_object_spec (addr : ℕ) (current : T) (object : Object T) (hi : ObjectManager.Inv s.registry) : Ends (register_object addr current object) s
    (fun h s' => ObjectManager.Inv s'.registry ∧ s'.created = s.created ++ [⟨current, object, h⟩] ∧
      s'.user_stacks = s.user_stacks ∧ h = UInt64.ofNat (s.created.length + 1))
    fun e => e = .no_memory ∧
      ¬ (s.manager._objects.node addr = none ∧ addr + 24 ≤ PMEM_VA_SIZE) := by
  unfold register_object
  rw [ends_bind, ends_objects]
  refine ends_weaken (ObjectManager.Inv.register (s := s.registry) hi) ?_ ?_
  · rintro h m' ⟨hi', hh⟩
    rw [ends_bind, ends_modify, ends_pure]
    refine ⟨?_, rfl, rfl, ?_⟩
    · simpa [State.registry, Creation.issue] using hi'
    · simpa [State.registry] using hh
  · rintro e ⟨rfl, hfree⟩
    exact ⟨rfl, hfree⟩

theorem look_up_spec (hi : ObjectManager.Inv s.registry) : look_up process current h k rc s =
    match (Map.last h s.registry.issued).bind fun od =>
        if process od.owner = process current then od.object else none with
    | none => .ok (.fails rc, s)
    | some object => .ok (.uses object k, s) := by
  unfold look_up
  rw [bind_eq]
  unfold objects
  rw [show s.manager = s.registry.manager from rfl, ObjectManager.get_object_secure_spec hi]
  dsimp only
  cases (Map.last h s.registry.issued).bind fun od =>
      if process od.owner = process current then od.object else none with
  | none => rfl
  | some object => rfl

theorem Call.run_looks_up (hc : c.looks_up = some (h, k, rc)) :
    c.run process current s = (Answer.outcome <$> look_up process current h k rc : Op T P _) s := by
  cases c with
  | sys_stop_thread h' =>
    simp only [looks_up] at hc
    split at hc
    · cases hc
    next hne =>
      cases hc
      simp [run, DefaultSyscalls.sys_stop_thread, hne]
  | _ =>
    cases hc
    try rfl

/-- The stacks are those that the handles say. -/
structure Inv (s : State T P) : Prop where
  table : ObjectManager.Inv s.registry
  placed : ∀ a ∈ s.user_stacks, a.vaddr = stack_addr a.handle ∧ a.nr_pages = 2

omit [DecidableEq P] in
/-- No handle in the table is the one that stands for an error. -/
theorem Inv.handle_ne {e : Creation T} (hi : Inv s) (he : e ∈ s.created) :
    e.handle ≠ KernelObject.Error := by
  have hroom : s.registry.issued.length < PMEM_VA_SIZE := hi.table.room
  have hmem : e.handle ∈ s.registry.issued.map Prod.fst := by
    unfold State.registry
    rw [List.map_map]
    exact List.mem_map_of_mem he
  rw [hi.table.handles] at hmem
  obtain ⟨i, hlt, heq⟩ := List.mem_map.mp hmem
  rw [List.mem_range] at hlt
  unfold PMEM_VA_SIZE at hroom
  rw [← heq, ne_eq, ← UInt64.toNat_inj, UInt64.toNat_ofNat_of_lt' (by unfold UInt64.size; omega)]
  show _ ≠ 0xffffffffffffffff
  omega

omit [DecidableEq P] in
theorem create_spec {found : Option (Object T)} (hi : Inv s) :
    Ends (create addr current found) s (fun r s' => Inv s' ∧ match found with
        | none => r = KernelObject.Error ∧ s' = s
        | some object => s'.created = s.created ++ [⟨current, object, r⟩] ∧ r ≠ KernelObject.Error)
      fun e => e = .no_memory := by
  unfold create
  cases found with
  | none => exact ⟨hi, rfl, rfl⟩
  | some object =>
    refine ends_weaken (register_object_spec _ _ _ hi.table) ?_ fun e he => he.1
    rintro r s' ⟨htable, hcreated, hstacks, -⟩
    have hi' : Inv s' := ⟨htable, hstacks ▸ hi.placed⟩
    refine ⟨hi', hcreated, hi'.handle_ne (e := ⟨current, object, r⟩) ?_⟩
    rw [hcreated]
    exact List.mem_concat_self

omit [DecidableEq P] in
theorem sys_create_thread_spec (process : T → P) (addr : ℕ) (current t : T) (hi : Inv s) :
    Ends (sys_create_thread process addr current t) s
      (fun h s' => Inv s' ∧ s'.user_stacks = s.user_stacks ++
          [⟨process t, h, stack_addr h, 2, stack_addr h + 0x2000⟩] ∧
        h = UInt64.ofNat (s.created.length + 1) ∧
        s'.created = s.created ++ [⟨current, .Thread t, h⟩])
      fun e => e = .no_memory ∧
        ¬ (s.manager._objects.node addr = none ∧ addr + 24 ≤ PMEM_VA_SIZE) := by
  unfold sys_create_thread allocate_user_stack
  rw [ends_bind]
  refine ends_mono (register_object_spec _ _ _ hi.table) ?_
  rintro h s' ⟨ht, hcreated, hs, hh⟩
  rw [ends_bind, ends_modify, ends_pure, hs]
  refine ⟨⟨ht, fun a ha => ?_⟩, rfl, hh, hcreated⟩
  rcases List.mem_append.mp ha with ha | ha
  · exact hi.placed a ha
  · obtain rfl := List.mem_singleton.mp ha
    exact ⟨rfl, rfl⟩

/-- To look an object up changes nothing. -/
theorem look_up_same (hi : Inv s) :
    Ends (look_up process current h k rc) s (fun _ s' => s' = s) fun _ => False := by
  unfold Ends
  rw [look_up_spec hi.table]
  cases (Map.last h s.registry.issued).bind fun od =>
      if process od.owner = process current then od.object else none with
  | none => rfl
  | some object => rfl

/-! ## What was answered -/

/-- A call that came back. -/
structure Answered (T : Type) where
  caller : T
  call : Call T
  answer : Answer T
  deriving DecidableEq, Repr

/-- What a call registers. -/
def Call.registers : Call T → Option (Object T)
  | sys_open _ found => found.map .File
  | sys_opendir _ found => found.map .Directory
  | sys_exec _ found => found.map .Process
  | sys_create_thread _ t => some (.Thread t)
  | _ => none

/-- The kind of the objects that a call registers. -/
def Call.makes : Call T → Option Kind
  | sys_open _ _ => some .File
  | sys_opendir _ _ => some .Directory
  | sys_exec _ _ => some .Process
  | sys_create_thread _ _ => some .Thread
  | _ => none

theorem Call.makes_eq (ho : c.registers = some object) : c.makes = some object.kind := by
  cases c with
  | sys_open _ found | sys_opendir _ found | sys_exec _ found =>
    obtain ⟨addr, -, rfl⟩ := Option.map_eq_some_iff.mp ho
    rfl
  | sys_create_thread _ t =>
    obtain rfl := Option.some.inj ho
    rfl
  | _ => cases ho

def Answered.creation (a : Answered T) : Option (Creation T) :=
  match a.answer, a.call.registers with
  | .handle h, some object => some ⟨a.caller, object, h⟩
  | _, _ => none

variable (process) in
/-- The same runs, with all that was answered so far. -/
def answered : System (State T P × List (Answered T)) (T × Call T) Util.Fault where
  start s := s = (init, [])
  allowed _ c := c.2.Allowed process c.1
  step s c := (c.2.run process c.1 s.1).map fun r => (r.2, s.2 ++ [⟨c.1, c.2, r.1⟩])

instance (s : State T P × List (Answered T)) (c : T × Call T) :
    Decidable ((answered process).allowed s c) :=
  inferInstanceAs (Decidable (c.2.Allowed process c.1))

/-- A thread was given the handle by this call. -/
def Gave (log : List (Answered T)) (t : T) (made : Call T) (h : UInt64) : Prop :=
  h ≠ KernelObject.Error ∧ ⟨t, made, .handle h⟩ ∈ log

/-- The history of the handles is the one of the answers, and only without an object was there none
to give. -/
structure Told (s : State T P × List (Answered T)) : Prop where
  inv : Inv s.1
  created : s.1.created = s.2.filterMap Answered.creation
  error : ∀ a ∈ s.2, ∀ h, a.answer = .handle h → a.call.registers = none → h = KernelObject.Error

/-- What one call does to the history. -/
theorem Call.run_spec (hi : Inv s) (c : Call T) : Ends (c.run process current) s
    (fun a s' => Inv s' ∧ s'.created = s.created ++ (Answered.creation ⟨current, c, a⟩).toList ∧
      ∀ h, a = .handle h → c.registers = none → h = KernelObject.Error) fun _ => True := by
  cases hc : c.looks_up with
  | some l =>
    obtain ⟨h, k, rc⟩ := l
    unfold Ends
    rw [run_looks_up hc]
    refine (ends_map _ _).mpr (ends_weaken (look_up_same hi) ?_ fun _ _ => trivial)
    rintro o _ rfl
    exact ⟨hi, (List.append_nil _).symm, nofun⟩
  | none =>
    cases c with
    | sys_open _ found | sys_opendir _ found | sys_exec _ found =>
      refine (ends_map _ _).mpr (ends_weaken (create_spec hi) ?_ fun _ _ => trivial)
      cases found with
      | none =>
        rintro r _ ⟨-, rfl, rfl⟩
        refine ⟨hi, (List.append_nil _).symm, fun h hh _ => ?_⟩
        cases hh
        rfl
      | some addr =>
        rintro r s' ⟨hi', hcreated, -⟩
        exact ⟨hi', hcreated, fun _ _ ho => by cases ho⟩
    | sys_create_thread addr t =>
      refine (ends_map _ _).mpr (ends_weaken (sys_create_thread_spec _ _ _ _ hi) ?_
        fun _ _ => trivial)
      rintro h s' ⟨hi', -, -, hcreated⟩
      exact ⟨hi', hcreated, fun _ _ ho => by cases ho⟩
    | sys_stop_thread h' =>
      simp only [looks_up, ite_eq_left_iff] at hc
      obtain rfl : h' = -1 := by
        by_contra hne
        cases hc hne
      exact ⟨hi, (List.append_nil _).symm, nofun⟩
    | _ => cases hc

theorem Inv.reachable (hr : (system process).Reachable s) : Inv s := by
  refine hr.preserves ?_ fun s c s' hi _ hs => ?_
  · rintro s rfl
    exact ⟨ObjectManager.inv_init, nofun⟩
  · obtain ⟨⟨_, _⟩, hx, rfl⟩ := map_eq_ok hs
    exact (ends_ok (c.2.run_spec hi) hx).1

theorem Told.reachable {s : State T P × List (Answered T)} (hr : (answered process).Reachable s) :
    Told s := by
  refine hr.preserves ?_ fun s c s' hs _ hstep => ?_
  · rintro s rfl
    exact ⟨⟨ObjectManager.inv_init, nofun⟩, rfl, nofun⟩
  · obtain ⟨⟨a, s₁⟩, hx, rfl⟩ := map_eq_ok hstep
    obtain ⟨hi, hcreated, herror⟩ := ends_ok (c.2.run_spec hs.inv) hx
    refine ⟨hi, ?_, fun b hb => ?_⟩
    · rw [hcreated, hs.created, List.filterMap_append, List.filterMap_cons]
      cases Answered.creation ⟨c.1, c.2, a⟩ <;> rfl
    · rcases List.mem_append.mp hb with hb | hb
      · exact hs.error b hb
      · obtain rfl := List.mem_singleton.mp hb
        exact herror

omit [DecidableEq P] in
/-- A handle that a call gave is in the table for the object that the call made. -/
theorem Told.gave {s : State T P × List (Answered T)} {t : T} {made : Call T} (hs : Told s)
    (hg : Gave s.2 t made h) : ∃ object, made.registers = some object ∧ ⟨t, object, h⟩ ∈ s.1.created := by
  obtain ⟨hne, hmem⟩ := hg
  cases ho : made.registers with
  | none => exact absurd (hs.error _ hmem h rfl ho) hne
  | some object =>
    refine ⟨object, rfl, ?_⟩
    rw [hs.created]
    refine List.mem_filterMap.mpr ⟨_, hmem, ?_⟩
    unfold Answered.creation
    rw [ho]

omit [DecidableEq P] in
/-- What is in the table was given by a call. -/
theorem Told.given {s : State T P × List (Answered T)} {e : Creation T} (hs : Told s)
    (he : e ∈ s.1.created) : ∃ made, Gave s.2 e.caller made e.handle := by
  have hne : e.handle ≠ KernelObject.Error := hs.inv.handle_ne he
  rw [hs.created] at he
  obtain ⟨⟨t, made, answer⟩, ha, heq⟩ := List.mem_filterMap.mp he
  unfold Answered.creation at heq
  cases answer with
  | outcome o => cases heq
  | handle h =>
    cases hr : made.registers with
    | none =>
      rw [hr] at heq
      cases heq
    | some object =>
      rw [hr] at heq
      cases heq
      exact ⟨made, hne, ha⟩

/-! ## The kind of an object -/

/-- A call that is given a handle of its own process goes on with the object that the handle was
given for, through the type that it casts to. That is the object's own type exactly if the handle
comes from the call for that type. Any other handle makes it fail. -/
theorem used_as_registered {log : List (Answered T)} (current : T) (c : Call T)
    (hr : (answered process).Reachable (s, log)) (hc : c.looks_up = some (h, k, rc)) :
    (∀ t made, Gave log t made h → process t = process current → ∃ object,
      made.registers = some object ∧ c.run process current s = .ok (.outcome (.uses object k), s) ∧
        (object.kind = k ↔ made.makes = some k)) ∧
    ((∀ t made, Gave log t made h → process t ≠ process current) →
      c.run process current s = .ok (.outcome (.fails rc), s)) := by
  have hs := Told.reachable hr
  have hi := hs.inv.table
  have hrun : c.run process current s =
      (Answer.outcome <$> look_up process current h k rc : Op T P _) s := Call.run_looks_up hc
  have hmap : (Answer.outcome <$> look_up process current h k rc : Op T P _) s =
      match look_up process current h k rc s with
      | .ok (o, s') => .ok (.outcome o, s')
      | .error e => .error e := by
    rw [← bind_pure_comp, bind_eq]
    cases look_up process current h k rc s <;> rfl
  rw [hrun, hmap, look_up_spec hi]
  refine ⟨fun t made hg hp => ?_, fun hno => ?_⟩
  · obtain ⟨object, ho, he⟩ := hs.gave hg
    refine ⟨object, ho, ?_, ?_⟩
    · have hlast := Map.last_eq_some hi.nodup (List.mem_map_of_mem (f := Creation.issue) he)
      rw [show Map.last h s.registry.issued = some ⟨t, some object⟩ from hlast]
      simp [hp]
    · rw [Call.makes_eq ho, Option.some_inj]
  · cases hl : Map.last h s.registry.issued with
    | none => rfl
    | some od =>
      obtain ⟨e, he, hod⟩ := List.mem_map.mp (Map.mem_of_last hl)
      cases hod
      obtain ⟨made, hg⟩ := hs.given he
      simp [hno e.caller made hg]

/-- Thread `0` opens a file. -/
theorem file_opened : ∃ s, (answered (fun _ : ℕ => 0)).Reachable
    (s, [⟨0, .sys_open 0 (some 5), .handle 1⟩]) := by
  have hrun : ((answered (fun _ : ℕ => 0)).exec (init, []) [(0, .sys_open 0 (some 5))]).map Prod.snd =
      some [⟨0, .sys_open 0 (some 5), .handle 1⟩] := by decide +kernel
  obtain ⟨⟨s, log⟩, hs, rfl⟩ := Option.map_eq_some_iff.mp hrun
  exact ⟨s, (init, []), _, rfl, System.run_of_exec hs⟩

theorem used_as_registered_file : ∃ s log, (answered (fun _ : ℕ => 0)).Reachable (s, log) ∧
    (Call.sys_read 1).run (fun _ : ℕ => 0) 3 s = .ok (.outcome (.uses (.File 5) .File), s) ∧
      (Call.sys_readdir 2).run (fun _ : ℕ => 0) 3 s = .ok (.outcome (.fails 0), s) := by
  obtain ⟨s, hr⟩ := file_opened
  have hgave : Gave [⟨0, .sys_open 0 (some 5), .handle 1⟩] 0 (.sys_open 0 (some 5)) 1 :=
    ⟨by decide, List.mem_singleton_self _⟩
  obtain ⟨object, ho, hread, -⟩ := (used_as_registered 3 (.sys_read 1) hr rfl).1 _ _ hgave rfl
  obtain rfl := Option.some.inj ho
  have hreaddir := (used_as_registered 3 (.sys_readdir 2) hr rfl).2 (by
    rintro t made ⟨-, hmem⟩
    simp at hmem)
  exact ⟨s, _, hr, hread, hreaddir⟩

/-- The handle of a file is given to `sys_readdir`, which casts to `Directory`. -/
theorem file_as_directory : ¬ ∀ s log, (answered (fun _ : ℕ => 0)).Reachable (s, log) →
    ∀ (current : ℕ) (c : Call ℕ) object k s',
      c.run (fun _ : ℕ => 0) current s = .ok (.outcome (.uses object k), s') → object.kind = k := by
  intro h
  have hrun : ((answered (fun _ : ℕ => 0)).exec (init, []) [(0, .sys_open 0 (some 5))]).bind (fun s =>
      ((Call.sys_readdir 1).run (fun _ : ℕ => 0) 0 s.1).toOption.map Prod.fst) =
      some (.outcome (.uses (.File 5) .Directory)) := by decide +kernel
  obtain ⟨⟨s, log⟩, hs, hp⟩ := Option.bind_eq_some_iff.mp hrun
  obtain ⟨⟨_, s'⟩, hx, rfl⟩ := Option.map_eq_some_iff.mp hp
  have hreachable : (answered (fun _ : ℕ => 0)).Reachable (s, log) :=
    ⟨(init, []), _, rfl, System.run_of_exec hs⟩
  cases h s log hreachable 0 (.sys_readdir 1) (.File 5) .Directory s' (eq_ok_of_toOption hx)

/-! ## The stacks of threads -/

/-- The bytes of a stack. -/
def UserStack.bytes (a : UserStack P) : Set ℕ :=
  Set.Ico a.vaddr.toNat (a.vaddr.toNat + 0x1000 * a.nr_pages)

/-- The bytes of the stack that goes with a handle. -/
def stack (h : UInt64) : Set ℕ := Set.Ico (stack_addr h).toNat ((stack_addr h).toNat + 0x2000)

theorem stack_addr_toNat (h : UInt64) :
    (stack_addr h).toNat = 0x7fff00000000 + 0x2000 * (h.toNat % 0x80000) := by
  unfold stack_addr
  simp only [UInt64.toNat_add, UInt32.toNat_toUInt64, UInt32.toNat_mul, UInt64.toNat_toUInt32,
    UInt64.reduceToNat, UInt32.reduceToNat]
  omega

theorem disjoint_stack_iff {h₁ h₂ : UInt64} :
    Disjoint (stack h₁) (stack h₂) ↔ h₁.toNat % 0x80000 ≠ h₂.toNat % 0x80000 := by
  unfold stack
  rw [Set.Ico_disjoint_Ico, stack_addr_toNat, stack_addr_toNat]
  omega

theorem stacks_disjoint {a b : UserStack P} (hr : (system process).Reachable s)
    (ha : a ∈ s.user_stacks) (hb : b ∈ s.user_stacks) :
    Disjoint a.bytes b.bytes ↔ a.handle.toNat % 0x80000 ≠ b.handle.toNat % 0x80000 := by
  have hbytes : ∀ a ∈ s.user_stacks, a.bytes = stack a.handle := by
    intro a ha
    obtain ⟨hv, hn⟩ := (Inv.reachable hr).placed a ha
    unfold UserStack.bytes stack
    rw [hv, hn]
  rw [hbytes a ha, hbytes b hb, disjoint_stack_iff]

/-- Two stacks have no byte in common exactly if the handles differ modulo `0x80000`. -/
theorem stacks_disjoint_iff :
    (∀ h₁ h₂ : UInt64, Disjoint (stack h₁) (stack h₂) ↔ h₁.toNat % 0x80000 ≠ h₂.toNat % 0x80000) ∧
    ∀ s, (system process).Reachable s → ∀ a ∈ s.user_stacks, ∀ b ∈ s.user_stacks,
      (Disjoint a.bytes b.bytes ↔ a.handle.toNat % 0x80000 ≠ b.handle.toNat % 0x80000) := by
  exact ⟨fun _ _ => disjoint_stack_iff, fun s hr a ha b hb => stacks_disjoint hr ha hb⟩

/-! ## Runs that go wrong -/

omit [DecidableEq P] in
/-- While there are few handles, the allocator can answer with an offset that is free. -/
theorem exists_ok {x : ℕ → Op T P α} {Q : α → State T P → Prop} (hi : Inv s)
    (hlt : s.created.length < 2 ^ 20) (hx : ∀ addr, Ends (x addr) s Q fun e => e = .no_memory ∧
      ¬ (s.manager._objects.node addr = none ∧ addr + 24 ≤ PMEM_VA_SIZE)) :
    ∃ addr, Returns (x addr) s Q := by
  obtain ⟨addr, hfree⟩ := hi.table.exists_free (by simpa [State.registry] using hlt)
  exact ⟨addr, returns_of_ends (ends_weaken (hx addr) (fun _ _ h => h) fun e he => he.2 hfree)⟩

theorem reachable_call {Q : Answer T → State T P → Prop} (hr : (system process).Reachable s)
    (hc : c.Allowed process current) (h : Returns (c.run process current) s Q) :
    ∃ a s', (system process).Reachable s' ∧ Q a s' := by
  obtain ⟨a, s', hx, hq⟩ := h
  refine ⟨a, s', hr.step (c := (current, c)) hc ?_, hq⟩
  show (c.run process current s).map Prod.snd = _
  rw [hx]
  rfl

theorem exists_opens (hr : (system process).Reachable s) (current : T) (n : ℕ)
    (hn : s.created.length + n ≤ 2 ^ 20) : ∃ s', (system process).Reachable s' ∧
      s'.created.length = s.created.length + n ∧ s'.user_stacks = s.user_stacks := by
  induction n with
  | zero => exact ⟨s, hr, rfl, rfl⟩
  | succ n ih =>
    obtain ⟨s₁, hr₁, hlen, hstacks⟩ := ih (by omega)
    obtain ⟨addr, hx⟩ := exists_ok (Inv.reachable hr₁) (by omega) fun addr =>
      register_object_spec addr current (.File 0) (Inv.reachable hr₁).table
    obtain ⟨-, s₂, hr₂, hcreated, hstacks₂⟩ := reachable_call (c := .sys_open addr (some 0)) hr₁ trivial
      ((returns_map _ _ _ fun _ s₂ => s₂.created.length = s₁.created.length + 1 ∧
        s₂.user_stacks = s₁.user_stacks).mpr (returns_mono hx fun h s₂ hs₂ => by
          rw [hs₂.2.1, List.length_append]
          exact ⟨rfl, hs₂.2.2.1⟩))
    exact ⟨s₂, hr₂, by omega, hstacks₂.trans hstacks⟩

theorem exists_thread (hr : (system process).Reachable s) (current : T)
    (hn : s.created.length < 2 ^ 20) : ∃ s', (system process).Reachable s' ∧
      s'.created.length = s.created.length + 1 ∧ ∃ a, s'.user_stacks = s.user_stacks ++ [a] ∧
        a.owner = process current ∧ a.handle = UInt64.ofNat (s.created.length + 1) := by
  obtain ⟨addr, hx⟩ := exists_ok (Inv.reachable hr) hn fun addr =>
    sys_create_thread_spec process addr current current (Inv.reachable hr)
  obtain ⟨-, s', hr', hlen, a, ha⟩ := reachable_call (c := .sys_create_thread addr current) hr rfl
    ((returns_map _ _ _ fun _ s' =>
    s'.created.length = s.created.length + 1 ∧ ∃ a, s'.user_stacks = s.user_stacks ++ [a] ∧
      a.owner = process current ∧ a.handle = UInt64.ofNat (s.created.length + 1)).mpr
    (returns_mono hx fun h s' ⟨_, hstacks, hh, hcreated⟩ => by
      rw [hcreated, List.length_append]
      exact ⟨rfl, _, hstacks, rfl, hh⟩))
  exact ⟨s', hr', hlen, a, ha⟩

theorem stacks_disjoint_two : ∃ s a b, (system (fun _ : ℕ => 0)).Reachable s ∧
    s.user_stacks = [a, b] ∧ Disjoint a.bytes b.bytes := by
  have hstart : (system (fun _ : ℕ => 0)).Reachable init := .of_start rfl
  obtain ⟨s₁, hr₁, hlen₁, a, hs₁, -, ha⟩ := exists_thread hstart 0 (by decide)
  obtain ⟨s₂, hr₂, -, b, hs₂, -, hb⟩ := exists_thread hr₁ 0 (by rw [hlen₁]; decide)
  have hstacks : s₂.user_stacks = [a, b] := by
    rw [hs₂, hs₁]
    rfl
  refine ⟨s₂, a, b, hr₂, hstacks, ?_⟩
  rw [stacks_disjoint_iff.2 s₂ hr₂ a (by simp [hstacks]) b (by simp [hstacks]), ha, hb, hlen₁]
  decide

/-- A thread is created, then files are opened, and then another thread is created. -/
theorem stacks_overlap : ¬ ∀ s, (system (fun _ : ℕ => 0)).Reachable s →
    ∀ a ∈ s.user_stacks, ∀ b ∈ s.user_stacks, a.owner = b.owner → a.handle ≠ b.handle →
      Disjoint a.bytes b.bytes := by
  intro h
  have hstart : (system (fun _ : ℕ => 0)).Reachable init := .of_start rfl
  obtain ⟨s₁, hr₁, hlen₁, a, hs₁, hao, ha⟩ := exists_thread hstart 0 (by decide)
  obtain ⟨s₂, hr₂, hlen₂, hs₂⟩ := exists_opens hr₁ 0 0x7ffff (by rw [hlen₁]; decide)
  have hlen : s₂.created.length = 0x80000 := by
    rw [hlen₂, hlen₁]
    rfl
  obtain ⟨s₃, hr₃, -, b, hs₃, hbo, hb⟩ := exists_thread hr₂ 0 (by rw [hlen]; decide)
  have hmem : a ∈ s₃.user_stacks ∧ b ∈ s₃.user_stacks := by
    rw [hs₃, hs₂, hs₁]
    simp
  have hah : a.handle.toNat = 1 := by
    rw [ha]
    rfl
  have hbh : b.handle.toNat = 0x80001 := by
    rw [hb, hlen]
    rfl
  have hdisj := h s₃ hr₃ a hmem.1 b hmem.2 (hao.trans hbo.symm) fun he => by
    rw [he, hbh] at hah
    omega
  rw [stacks_disjoint hr₃ hmem.1 hmem.2, hah, hbh] at hdisj
  exact hdisj rfl

end Infos.Kernel.DefaultSyscalls
