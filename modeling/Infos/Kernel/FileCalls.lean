import Infos.Drivers.Terminal
import Infos.Drivers.VirtualConsole
import Infos.Fs.Mounts
import Infos.Kernel.Syscalls

/-!
# System calls on files

The threads of all processes make system calls, and keys are pressed. The calls on files find an
object in the table of handles, which is a file of the disk or of a device.
-/

open Infos.Prog Infos.Bytes Infos.Drivers Infos.Fs

namespace Infos

/-- `read`, if the bytes are there. -/
def Drivers.Terminal.read : (size : ℕ) → Terminal → Option (List UInt8 × Terminal)
  | 0, tty => some ([], tty)
  | size + 1, tty => do
    let (elem, tty) ← tty.read_byte
    let (elems, tty) ← read size tty
    return (elem :: elems, tty)

namespace Kernel.FileCalls

/-- What `open_as_file` makes of a device: a terminal has the console that it is attached to. -/
inductive DeviceFile where
  | terminal (console : Option ℕ)
  | rtc
  deriving DecidableEq, Repr

/-- A file with the path that it was opened with, and what was read from it. -/
structure Opened where
  path : List UInt8
  file : File
  given : List UInt8
  deriving DecidableEq, Repr

/-- What a thread wrote to a terminal. -/
structure Written (T : Type) where
  thread : T
  device : ℕ
  bytes : List UInt8
  deriving DecidableEq, Repr

/-- The address of a file is its place in `files`. -/
structure State (T P : Type) where
  vfs : Vfs Mounted
  handles : DefaultSyscalls.State T P
  files : List Opened
  ttys : ℕ → Terminal
  screens : ℕ → VirtualConsole
  written : List (Written T)

/-- `waits` is a call that is not done before more is typed, `hangs` one that never is. `foreign` is
one that goes on with an object of another class, whose memory is not modelled. A backspace in the
first cell of a screen writes to memory that is not the screen's. -/
inductive Wrong (T : Type) where
  | vfs (fault : VfsFault)
  | handles (fault : Util.Fault)
  | foreign (object : DefaultSyscalls.Object T)
  | hangs
  | waits
  | off_screen
  deriving DecidableEq, Repr

/-- What the calls rest on: the devices, with the disk that the kernel boots from, and the threads. -/
structure Setting (T P : Type) where
  around : Surroundings
  devices : DeviceManager
  boot_device_name : List UInt8
  disk : BlockDevice
  device_file : ℕ → DeviceFile
  process : T → P

variable {T P α : Type}

abbrev Op (T P α : Type) := StateT (State T P) (Except (Wrong T)) α

def on_vfs (x : VfsOp Mounted α) : Op T P α := zoom State.vfs (fun v s => { s with vfs := v }) .vfs x

def on_handles (x : DefaultSyscalls.Op T P α) : Op T P α :=
  zoom State.handles (fun h s => { s with handles := h }) .handles x

variable [DecidableEq P] (E : Setting T P) (current : T)

/-! ## The files -/

def new_file (o : Opened) : Op T P ℕ := do
  let file := (← get).files.length
  modify fun s => { s with files := s.files ++ [o] }
  return file

/-- `m` is the memory of the caller from the buffer on, and `clock` is what a device with a clock
shows. -/
def read_file (m : Buffers) (size : UInt64) (clock : ℕ → UInt8) (addr : ℕ) :
    Op T P (UInt32 × Memory) := do
  let s ← get
  match s.files[addr]? with
  | none => throw (.handles .null)
  | some o =>
    match o.file with
    | .disk f =>
      match f.read E.disk (size.toNat + 1) m size with
      | none => throw .hangs
      | some (rc, after, f) =>
        let given := o.given ++ (List.range rc.toInt.toNat).map after
        set { s with files := s.files.set addr { o with file := .disk f, given } }
        return (rc.toUInt32, after)
    | .device d =>
      match E.device_file d with
      | .terminal _ =>
        match (s.ttys d).read size.toNat with
        | none => throw .waits
        | some (elems, tty) =>
          set { s with ttys := Function.update s.ttys d tty }
          return (size.toUInt32, write m.caller 0 elems.length fun i => elems.getD i 0)
      | .rtc => return if size < 12 then (0, m.caller) else (12, write m.caller 0 12 clock)

def write_file (buffer : List UInt8) (addr : ℕ) : Op T P UInt32 := do
  let s ← get
  match s.files[addr]? with
  | none => throw (.handles .null)
  | some o =>
    match o.file with
    | .disk _ => return 0
    | .device d =>
      match E.device_file d with
      | .terminal (some vc) =>
        let (n, screen) := (s.screens vc).write buffer
        if ¬ ∀ i ∈ screen.written, i < VirtualConsole._width * VirtualConsole._height then
          throw .off_screen
        modify fun s => { s with
          screens := Function.update s.screens vc screen
          written := s.written ++ [⟨current, d, buffer⟩] }
        return UInt32.ofNat n
      | .terminal none | .rtc => return 0

/-! ## The calls -/

def sys_open (addr : ℕ) (filename : List UInt8) : Op T P UInt64 := do
  match ← on_vfs (VirtualFilesystem.open_ E.around E.disk filename) with
  | none => on_handles (DefaultSyscalls.sys_open addr current none)
  | some f =>
    let file ← new_file ⟨filename, f, []⟩
    on_handles (DefaultSyscalls.sys_open addr current (some file))

/-- A call on the file that a handle stands for. -/
def with_file (x : DefaultSyscalls.Op T P (DefaultSyscalls.Outcome T)) (fails : UInt32 → α)
    (uses : ℕ → Op T P α) : Op T P α := do
  match ← on_handles x with
  | .fails rc => return fails rc
  | .uses (.File addr) _ => uses addr
  | .uses object _ => throw (.foreign object)

/-- `close` does nothing in any kind of file. -/
def sys_close (h : UInt64) : Op T P UInt32 :=
  with_file (DefaultSyscalls.sys_close E.process current h) id fun _ => return 0

def sys_read (h : UInt64) (m : Buffers) (size : UInt64) (clock : ℕ → UInt8) :
    Op T P (UInt32 × Memory) :=
  with_file (DefaultSyscalls.sys_read E.process current h) (fun rc => (rc, m.caller))
    (read_file E m size clock)

def sys_write (h : UInt64) (buffer : List UInt8) : Op T P UInt32 :=
  with_file (DefaultSyscalls.sys_write E.process current h) id (write_file E current buffer)

/-- `found` is the directory, if the node has one. -/
def sys_opendir (addr : ℕ) (path : List UInt8) (found : Option ℕ) : Op T P UInt64 := do
  discard <| on_vfs <|
    VirtualFilesystem.lookup_node E.around.vfs_alloc (Mounted.pfs E.around.tmp_alloc) 0 path
  on_handles (DefaultSyscalls.sys_opendir addr current found)

/-- The launch opens the file of the program, and `found` is the process, if there is one. -/
def sys_exec (addr : ℕ) (program : List UInt8) (found : Option ℕ) : Op T P UInt64 := do
  discard <| on_vfs <| VirtualFilesystem.open_ E.around E.disk program
  on_handles (DefaultSyscalls.sys_exec addr current found)

/-- A key reaches a terminal. -/
def append_to_read_buffer (d : ℕ) (c : UInt8) : Op T P Unit :=
  modify fun s => { s with ttys := Function.update s.ttys d ((s.ttys d).append_to_read_buffer c) }

/-! ## Runs -/

inductive Call (T : Type) where
  | sys_open (addr : ℕ) (filename : List UInt8)
  | sys_close (h : UInt64)
  | sys_read (h : UInt64) (m : Buffers) (size : UInt64) (clock : ℕ → UInt8)
  | sys_write (h : UInt64) (buffer : List UInt8)
  | sys_opendir (addr : ℕ) (path : List UInt8) (found : Option ℕ)
  | sys_exec (addr : ℕ) (program : List UInt8) (found : Option ℕ)
  | sys_create_thread (addr : ℕ) (t : T)
  | sys_readdir (h : UInt64)
  | sys_closedir (h : UInt64)
  | sys_wait_proc (h : UInt64)
  | sys_stop_thread (h : UInt64)
  | sys_join_thread (h : UInt64)

inductive Event (T : Type) where
  | call (t : T) (c : Call T)
  | key (d : ℕ) (c : UInt8)

/-- A call that is about handles only. -/
def on_table (c : DefaultSyscalls.Call T) : Op T P Unit :=
  discard (on_handles (c.run E.process current))

def Call.run : Call T → Op T P Unit
  | sys_open addr filename => discard (FileCalls.sys_open E current addr filename)
  | sys_close h => discard (FileCalls.sys_close E current h)
  | sys_read h m size clock => discard (FileCalls.sys_read E current h m size clock)
  | sys_write h buffer => discard (FileCalls.sys_write E current h buffer)
  | sys_opendir addr path found => discard (FileCalls.sys_opendir E current addr path found)
  | sys_exec addr program found => discard (FileCalls.sys_exec E current addr program found)
  | sys_create_thread addr t => on_table E current (.sys_create_thread addr t)
  | sys_readdir h => on_table E current (.sys_readdir h)
  | sys_closedir h => on_table E current (.sys_closedir h)
  | sys_wait_proc h => on_table E current (.sys_wait_proc h)
  | sys_stop_thread h => on_table E current (.sys_stop_thread h)
  | sys_join_thread h => on_table E current (.sys_join_thread h)

def Event.run : Event T → Op T P Unit
  | call t c => c.run E t
  | key d c => append_to_read_buffer d c

/-- A read asks for less than 2 GiB, and the names of a path are known. -/
def Call.Allowed (C : List (List UInt8)) : Call T → Prop
  | sys_open _ filename => PathNamed C filename
  | sys_opendir _ path _ => PathNamed C path
  | sys_exec _ program _ => PathNamed C program
  | sys_read _ _ size _ => size.toNat < 2 ^ 31
  | sys_create_thread _ t => E.process t = E.process current
  | _ => True

def Event.Allowed (C : List (List UInt8)) : Event T → Prop
  | call t c => c.Allowed E t C
  | key _ _ => True

/-- The file systems were mounted, and the tables are empty. -/
def system (C : List (List UInt8)) : System (State T P) (Event T) (Wrong T) where
  start s := Kernel.mount_all E.around E.boot_device_name (unmounted E.devices) = .ok (true, s.vfs) ∧
    s.handles = DefaultSyscalls.init ∧ s.files = []
  allowed _ e := e.Allowed E C
  step s e := (e.run E s).map Prod.snd

/-! ## The table of handles -/

variable {E} {current} {s s' s'' : State T P} {h : UInt64} {addr : ℕ} {p : P}
  {hs : DefaultSyscalls.State T P}

omit [DecidableEq P] in
@[simp]
theorem ends_on_vfs {x : VfsOp Mounted α} {Q : α → State T P → Prop} {X : Wrong T → Prop} :
    Ends (on_vfs x) s Q X ↔ Ends x s.vfs (fun a v => Q a { s with vfs := v }) fun e => X (.vfs e) :=
  ends_zoom

omit [DecidableEq P] in
@[simp]
theorem ends_on_handles {x : DefaultSyscalls.Op T P α} {Q : α → State T P → Prop} {X : Wrong T → Prop} :
    Ends (on_handles x) s Q X ↔
      Ends x s.handles (fun a h => Q a { s with handles := h }) fun e => X (.handles e) :=
  ends_zoom

/-- A handle that the process was not given makes the call fail, and one that it was given is used if
it stands for a file. -/
theorem with_file_spec {fails : UInt32 → α} {uses : ℕ → Op T P α} {Q : α → State T P → Prop}
    {X : Wrong T → Prop} (hi : DefaultSyscalls.Inv s.handles) (hfails : Q (fails (-1)) s)
    (huses : ∀ e ∈ s.handles.created, e.handle = h → E.process e.caller = E.process current →
      ∀ addr, e.object = .File addr → Ends (uses addr) s Q X)
    (hkind : ∀ object, X (.foreign object)) :
    Ends (with_file (DefaultSyscalls.look_up E.process current h .File (-1)) fails uses) s Q X := by
  unfold with_file
  rw [ends_bind, ends_on_handles]
  unfold Ends
  rw [DefaultSyscalls.look_up_spec hi.table]
  cases hl : (Util.Map.last h s.handles.registry.issued).bind fun od =>
      if E.process od.owner = E.process current then od.object else none with
  | none => exact hfails
  | some object =>
    obtain ⟨od, hlast, hobject⟩ := Option.bind_eq_some_iff.mp hl
    obtain ⟨e, he, hissue⟩ := List.mem_map.mp (Util.Map.mem_of_last hlast)
    obtain ⟨rfl, rfl⟩ := Prod.mk.inj hissue
    split_ifs at hobject with hp
    obtain rfl := Option.some.inj hobject
    cases hobj : e.object with
    | File addr => exact huses e he rfl hp addr hobj
    | Directory | Process | Thread => exact hkind _

/-- The handle of a file is used in its own process only. -/
theorem with_file_eq {fails : UInt32 → α} {uses : ℕ → Op T P α} {e : DefaultSyscalls.Creation T}
    (hi : DefaultSyscalls.Inv s.handles) (he : e ∈ s.handles.created) (ho : e.object = .File addr) :
    with_file (DefaultSyscalls.look_up E.process current e.handle .File (-1)) fails uses s =
      if E.process e.caller = E.process current then uses addr s else .ok (fails (-1), s) := by
  have hlast := Util.Map.last_eq_some hi.table.nodup (List.mem_map_of_mem (f := DefaultSyscalls.Creation.issue) he)
  have hlook : DefaultSyscalls.look_up E.process current e.handle .File (-1) s.handles = _ :=
    DefaultSyscalls.look_up_spec hi.table
  have hissued : Util.Map.last e.handle s.handles.registry.issued = some ⟨e.caller, some e.object⟩ :=
    hlast
  rw [hissued, Option.bind_some, ho] at hlook
  have hrun : with_file (DefaultSyscalls.look_up E.process current e.handle .File (-1)) fails uses s =
      match DefaultSyscalls.look_up E.process current e.handle .File (-1) s.handles with
      | .ok (.fails rc, hs) => .ok (fails rc, { s with handles := hs })
      | .ok (.uses (.File addr) _, hs) => uses addr { s with handles := hs }
      | .ok (.uses object _, _) => .error (.foreign object)
      | .error w => .error (.handles w) := by
    unfold with_file on_handles zoom
    rw [bind_eq]
    cases DefaultSyscalls.look_up E.process current e.handle .File (-1) s.handles with
    | error w => rfl
    | ok r =>
      obtain ⟨o, hs⟩ := r
      cases o with
      | fails rc => rfl
      | uses object _ => cases object <;> rfl
  rw [hrun, hlook]
  split_ifs <;> rfl

/-! ## What the others do -/

/-- What a process has stays as it is. -/
structure Undisturbed (process : T → P) (p : P) (s s' : State T P) : Prop where
  created : s.handles.created <+: s'.handles.created
  files : ∀ e ∈ s.handles.created, process e.caller = p → ∀ addr, e.object = .File addr →
    s'.files[addr]? = s.files[addr]?
  written : (s'.written.filter fun w => process w.thread = p) =
    s.written.filter fun w => process w.thread = p

theorem Undisturbed.refl {process : T → P} (s : State T P) : Undisturbed process p s s :=
  ⟨List.prefix_refl _, fun _ _ _ _ _ => rfl, rfl⟩

theorem Undisturbed.trans {process : T → P} (h : Undisturbed process p s s')
    (h' : Undisturbed process p s' s'') : Undisturbed process p s s'' := by
  refine ⟨h.created.trans h'.created, fun e he hp addr ho => ?_, h'.written.trans h.written⟩
  exact (h'.files e (h.created.subset he) hp addr ho).trans (h.files e he hp addr ho)

end Kernel.FileCalls

end Infos
