import Infos.Kernel.FileStreams
import Infos.Util.Truncation

/-!
# Programs that make system calls

`infos-user/lib/io.cpp` and `printf.cpp`, for a program of one thread. In front of each of its system
calls, the threads of other processes may have made any of theirs.
-/

open Infos.Prog Infos.Bytes Infos.Fs Infos.Kernel Infos.Kernel.FileCalls

namespace Infos.User

/-- The program runs as `current`. What the others do in front of its system calls is `between`, and
`addr` is where the allocator has memory then. -/
structure World (T P : Type) where
  setting : Setting T P
  current : T
  between : ℕ → List (Event T)
  addr : ℕ → ℕ
  clock : ℕ → UInt8
  garbage : Memory

/-- The kernel, and the program with the number of its system calls. -/
structure Running (T P : Type) where
  kernel : State T P
  calls : ℕ
  __console_handle : UInt64

/-- `outside` is an index that is not in the array, and `fuel` is a loop that was not given enough. -/
inductive UserFault (T : Type) where
  | kernel (fault : Wrong T)
  | others (fault : Wrong T)
  | outside
  | fuel
  deriving DecidableEq, Repr

variable {T P α : Type}

abbrev UserOp (T P α : Type) := StateT (Running T P) (Except (UserFault T)) α

variable [DecidableEq P] (W : World T P)

def others (es : List (Event T)) : UserOp T P Unit :=
  zoom Running.kernel (fun s r => { r with kernel := s }) .others (es.forM fun e => e.run W.setting)

def syscall (x : Op T P α) : UserOp T P α := do
  others W (W.between (← get).calls)
  modify fun r => { r with calls := r.calls + 1 }
  zoom Running.kernel (fun s r => { r with kernel := s }) .kernel x

def is_error (h : UInt64) : Bool := h = -1

def open_ (file : List UInt8) : UserOp T P UInt64 := do
  let addr := W.addr (← get).calls
  syscall W (sys_open W.setting W.current addr file)

def close (file : UInt64) : UserOp T P Unit :=
  discard (syscall W (sys_close W.setting W.current file))

def read (file : UInt64) (buffer : Memory) (size : UInt64) : UserOp T P (Int32 × Memory) := do
  let (rc, buffer) ← syscall W (sys_read W.setting W.current file ⟨buffer, W.garbage⟩ size W.clock)
  return (rc.toInt32, buffer)

def write (file : UInt64) (buffer : List UInt8) : UserOp T P Int32 := do
  return (← syscall W (sys_write W.setting W.current file buffer)).toInt32

/-- `vsnprintf` is the same as that of the kernel. -/
def printf (fmt : List UInt8) (args : Util.Printf.Args) : UserOp T P ℤ := do
  let (rc, buffer) := Util.Printf.vsnprintf 0xfff fmt args ⟨W.garbage, []⟩
  discard (write W (← get).__console_handle (buffer.text 0 rc.toNat))
  return rc

/-- `/dev/console` -/
def console_path : List UInt8 := [47, 100, 101, 118, 47, 99, 111, 110, 115, 111, 108, 101]

/-- The answer is what `exit` is called with. -/
def _start (main : Option (List UInt8) → UserOp T P Int32) (cmdline : Option (List UInt8)) :
    UserOp T P Int32 := do
  let console ← open_ W console_path
  modify fun r => { r with __console_handle := console }
  if is_error console then return 1
  let rc ← main cmdline
  close W console
  return rc

/-! ## What the others may do -/

/-- The others are of other processes, and keep to what is assumed of them. -/
def World.Apart (W : World T P) (C : List (List UInt8)) : Prop :=
  ∀ i, ∀ e ∈ W.between i, e.Allowed W.setting C ∧ e.process W.setting ≠ some (W.setting.process W.current)

/-- What the program is not to blame for: there is no memory, another thread's call has no meaning, or
what is printed goes back behind the first cell of the screen. -/
def Excused : UserFault T → Prop
  | .kernel (.vfs e) => e = .other .no_memory
  | .kernel (.handles e) => e = .no_memory
  | .kernel e => e = .off_screen
  | .others _ => True
  | .outside | .fuel => False

/-- What the threads of a process wrote. -/
def wrote (E : Setting T P) (p : P) (s : State T P) : List (Written T) :=
  s.written.filter fun w => E.process w.thread = p

/-- The process has a handle of the file. -/
structure Holds (E : Setting T P) (p : P) (s : State T P) (h : UInt64) (addr : ℕ) (o : Opened) : Prop where
  created : ∃ e ∈ s.handles.created, e.handle = h ∧ E.process e.caller = p ∧ e.object = .File addr
  file : s.files[addr]? = some o

variable {W} {C : List (List UInt8)} {es : List Entry} {r : Running T P} {s s' : State T P} {p : P}
  {E : Setting T P} {h h' : UInt64} {addr addr' : ℕ} {o o' : Opened} {b : ℕ × ℕ} {path : List UInt8}

theorem Holds.undisturbed (hh : Holds E p s h addr o) (hu : Undisturbed E.process p s s') :
    Holds E p s' h addr o := by
  obtain ⟨⟨e, he, hhandle, hp, ho⟩, hf⟩ := hh
  exact ⟨⟨e, hu.created.subset he, hhandle, hp, ho⟩, (hu.files e he hp addr ho).trans hf⟩

theorem ends_others {es' : List (Event T)} (hE : E.Sound C es)
    (hes : ∀ e ∈ es', e.Allowed E C ∧ e.process E ≠ some p) (hi : Inv E C es s) :
    Ends (es'.forM fun e => e.run E) s (fun _ s' => Inv E C es s' ∧ Undisturbed E.process p s s')
      fun _ => True := by
  apply ends_mono (ends_forM (I := fun _ s' => Inv E C es s' ∧ Undisturbed E.process p s s') ?_ []
    ⟨hi, .refl s⟩) fun _ _ h => h
  rintro _ e s₁ he ⟨hi₁, hu₁⟩
  obtain ⟨hallowed, hp⟩ := hes e he
  apply ends_mono (e.kept hE hi₁ hallowed)
  exact fun _ s₂ h => ⟨h.1, hu₁.trans (h.2 p hp)⟩

/-- A system call, after what the others did. -/
theorem ends_syscall {x : Op T P α} {Q : α → Running T P → Prop} (hE : W.setting.Sound C es)
    (hW : W.Apart C) (hi : Inv W.setting C es r.kernel)
    (hx : ∀ s, Inv W.setting C es s →
      Undisturbed W.setting.process (W.setting.process W.current) r.kernel s →
      Ends x s (fun a s' => Q a ⟨s', r.calls + 1, r.__console_handle⟩) fun w => Excused (.kernel w)) :
    Ends (syscall W x) r Q Excused := by
  unfold syscall others
  rw [ends_bind, ends_get, ends_bind, ends_zoom]
  apply ends_weaken (ends_others hE (hW r.calls) hi) ?_ fun _ _ => trivial
  rintro _ s ⟨hi', hu⟩
  rw [ends_bind, ends_modify, ends_zoom]
  exact hx s hi' hu

/-- All is well in the kernel, and the program has written some more. -/
structure Goes (W : World T P) (C : List (List UInt8)) (es : List Entry) (r r' : Running T P)
    (more : List (Written T)) : Prop where
  inv : Inv W.setting C es r'.kernel
  wrote : wrote W.setting (W.setting.process W.current) r'.kernel =
    wrote W.setting (W.setting.process W.current) r.kernel ++ more
  console : r'.__console_handle = r.__console_handle

/-- The files that the program has, but for one, are as they were. -/
def Keeps (W : World T P) (but : ℕ) (r r' : Running T P) : Prop :=
  ∀ h addr o, addr ≠ but → Holds W.setting (W.setting.process W.current) r.kernel h addr o →
    Holds W.setting (W.setting.process W.current) r'.kernel h addr o

theorem Goes.trans {r' r'' : Running T P} {more more' : List (Written T)} (h : Goes W C es r r' more)
    (h' : Goes W C es r' r'' more') : Goes W C es r r'' (more ++ more') :=
  ⟨h'.inv, by rw [h'.wrote, h.wrote, List.append_assoc], h'.console.trans h.console⟩

/-! ## The calls -/

variable (hE : W.setting.Sound C es) (hW : W.Apart C) (hi : Inv W.setting C es r.kernel)

include hE hW hi

theorem open_spec {f : File} (hpath : PathNamed C path)
    (hopen : opened_path W.setting.around W.setting.disk (files 0 es) W.setting.devices path = some f) :
    Ends (open_ W path) r (fun h r' => Goes W C es r r' [] ∧ is_error h = false ∧
      (∃ addr, Holds W.setting (W.setting.process W.current) r'.kernel h addr ⟨path, f, []⟩) ∧
      ∀ h addr o, Holds W.setting (W.setting.process W.current) r.kernel h addr o →
        Holds W.setting (W.setting.process W.current) r'.kernel h addr o) Excused := by
  unfold open_
  rw [ends_bind, ends_get]
  apply ends_syscall hE hW hi
  intro s his hu
  unfold sys_open
  rw [ends_bind, ends_on_vfs]
  apply ends_weaken (his.serves.open_path hE.apart hpath) ?_ fun _ he => he
  rintro _ v ⟨rfl, hserves⟩
  rw [hopen]
  obtain ⟨hcount, hfollows⟩ := opened_new hE hopen
  unfold new_file
  rw [ends_bind, ends_bind, ends_get, ends_bind, ends_modify, ends_pure, ends_on_handles]
  apply ends_weaken (DefaultSyscalls.create_spec his.handles) ?_ fun _ he => he
  rintro h hs ⟨hhandles, hcreated, hne⟩
  have hcreated : hs.created = s.handles.created ++ [⟨W.current, .File s.files.length, h⟩] := hcreated
  refine ⟨⟨⟨hserves, hhandles, ?_, fun o ho => ?_⟩, ?_, rfl⟩, decide_eq_false hne,
    ⟨s.files.length, ⟨⟨W.current, .File s.files.length, h⟩, ?_, rfl, rfl, rfl⟩, List.getElem?_concat_length⟩, fun h addr o hh => ?_⟩
  · show hs.created.filterMap _ = List.range (s.files ++ [_]).length
    rw [hcreated, List.filterMap_append, his.files, List.length_append, List.length_singleton,
      List.range_succ]
    rfl
  · rcases List.mem_append.mp ho with ho | ho
    · exact his.follows o ho
    · obtain rfl := List.mem_singleton.mp ho
      exact ⟨f, hopen, hcount, hfollows⟩
  · rw [List.append_nil]
    exact hu.written
  · show _ ∈ hs.created
    rw [hcreated]
    exact List.mem_append_right _ List.mem_cons_self
  · obtain ⟨⟨e, he, hhandle, hp, ho⟩, hf⟩ := hh.undisturbed hu
    refine ⟨⟨e, ?_, hhandle, hp, ho⟩, ?_⟩
    · show e ∈ hs.created
      rw [hcreated]
      exact List.mem_append_left _ he
    · exact (List.getElem?_append_left (his.file_lt he ho)).trans hf

theorem read_spec (hh : Holds W.setting (W.setting.process W.current) r.kernel h addr o)
    (hb : file_at es o.path = some b) {buffer : Memory} {n : UInt64} (hn : n.toNat < 2 ^ 31) :
    Ends (read W h buffer n) r (fun q r' => Goes W C es r r' [] ∧ Keeps W addr r r' ∧
      q.1.toInt = rest b.2 o.given.length n.toNat ∧
      (∀ i < rest b.2 o.given.length n.toNat,
        q.2 i = data W.setting.disk (b.1 + 1) (o.given.length + i)) ∧
      ∃ o', Holds W.setting (W.setting.process W.current) r'.kernel h addr o' ∧ o'.path = o.path ∧
        o'.given.length = o.given.length + rest b.2 o.given.length n.toNat) Excused := by
  unfold read
  rw [ends_bind]
  apply ends_syscall hE hW hi
  intro s his hu
  obtain ⟨⟨e, he, rfl, hp, ho⟩, hf⟩ := hh.undisturbed hu
  obtain ⟨hopened, path, hpath⟩ := opened_path_of W.setting.around W.setting.disk
    W.setting.devices hb
  obtain ⟨hstart, hsize, -⟩ := hE.archive.new_file W.setting.around.hdr hpath hE.count_lt
  obtain ⟨file, hfile, hc, hfollows⟩ := his.follows o (List.mem_of_getElem? hf)
  obtain rfl := Option.some.inj (hfile.symm.trans hopened)
  obtain ⟨f, hof, hstreams⟩ := hfollows
  obtain ⟨rc, after, f', hread, hrc, hin, -, hnext⟩ := hstreams.read hE.reads hc ⟨buffer, W.garbage⟩ hn
  rw [hstart, hsize] at hin
  rw [hsize] at hrc
  have hrun : sys_read W.setting W.current e.handle ⟨buffer, W.garbage⟩ n W.clock s = _ :=
    (with_file_eq his.handles he ho).trans ((if_pos hp).trans (read_file_eq hf hof hread))
  obtain ⟨hlt, -⟩ := List.getElem?_eq_some_iff.mp hf
  have hinv := (ends_ok (sys_read_kept hE his hn) hrun).1
  rw [ends_of_eq hrun]
  refine ⟨⟨hinv, ?_, rfl⟩, fun h' addr' o' hne hh' => ?_, hrc, hin, _,
    ⟨⟨e, he, rfl, hp, ho⟩, List.getElem?_set_self hlt⟩, rfl, ?_⟩
  · rw [List.append_nil]
    exact hu.written
  · obtain ⟨hcreated, hf'⟩ := hh'.undisturbed hu
    exact ⟨hcreated, (List.getElem?_set_ne (Ne.symm hne)).trans hf'⟩
  · dsimp only
    rw [List.length_append, List.length_map, List.length_range, hrc, Int.toNat_natCast]

theorem write_spec (hh : Holds W.setting (W.setting.process W.current) r.kernel h addr o) {d vc : ℕ}
    (ho : o.file = .device d) (hd : W.setting.device_file d = .terminal (some vc))
    {buffer : List UInt8} : Ends (write W h buffer) r (fun _ r' =>
      Goes W C es r r' [⟨W.current, d, buffer⟩] ∧
      ∀ h addr o, Holds W.setting (W.setting.process W.current) r.kernel h addr o →
        Holds W.setting (W.setting.process W.current) r'.kernel h addr o) Excused := by
  unfold write
  rw [ends_bind]
  apply ends_syscall hE hW hi
  intro s his hu
  obtain ⟨⟨e, he, rfl, hp, hobj⟩, hf⟩ := hh.undisturbed hu
  have hrun : sys_write W.setting W.current e.handle buffer s =
      write_file W.setting W.current buffer addr s :=
    (with_file_eq his.handles he hobj).trans (if_pos hp)
  unfold Ends
  rw [hrun]
  show Ends (write_file W.setting W.current buffer addr) s _ _
  unfold write_file
  rw [ends_bind, ends_get, hf]
  dsimp only
  rw [ho]
  dsimp only
  rw [hd]
  dsimp only
  split_ifs
  · refine ⟨⟨⟨his.serves, his.handles, his.files, his.follows⟩, ?_, rfl⟩, fun h' addr' o' hh' => ?_⟩
    · show (s.written ++ [_]).filter _ = _
      rw [List.filter_append]
      have hown : [(⟨W.current, d, buffer⟩ : Written T)].filter
          (fun w => W.setting.process w.thread = W.setting.process W.current) =
            [⟨W.current, d, buffer⟩] := by simp
      rw [hown]
      exact congrArg (· ++ _) hu.written
    · obtain ⟨hcreated, hf'⟩ := hh'.undisturbed hu
      exact ⟨hcreated, hf'⟩
  · rfl

theorem close_spec (hh : Holds W.setting (W.setting.process W.current) r.kernel h addr o) :
    Ends (close W h) r (fun _ r' => Goes W C es r r' [] ∧
      ∀ h addr o, Holds W.setting (W.setting.process W.current) r.kernel h addr o →
        Holds W.setting (W.setting.process W.current) r'.kernel h addr o) Excused := by
  unfold close
  rw [ends_discard]
  apply ends_syscall hE hW hi
  intro s his hu
  obtain ⟨⟨e, he, rfl, hp, hobj⟩, -⟩ := hh.undisturbed hu
  have hrun : sys_close W.setting W.current e.handle s = .ok (0, s) :=
    (with_file_eq his.handles he hobj).trans (if_pos hp)
  rw [ends_of_eq hrun]
  refine ⟨⟨his, ?_, rfl⟩, fun _ _ _ hh' => hh'.undisturbed hu⟩
  rw [List.append_nil]
  exact hu.written

theorem printf_spec (hh : Holds W.setting (W.setting.process W.current) r.kernel r.__console_handle addr o)
    {d vc : ℕ} (ho : o.file = .device d) (hd : W.setting.device_file d = .terminal (some vc))
    {fmt : List UInt8} {args : Util.Printf.Args} : Ends (printf W fmt args) r (fun _ r' =>
      Goes W C es r r' [⟨W.current, d, Util.Printf.clip 0xffe (Util.Printf.fields args fmt none 0)⟩] ∧
      ∀ h addr o, Holds W.setting (W.setting.process W.current) r.kernel h addr o →
        Holds W.setting (W.setting.process W.current) r'.kernel h addr o) Excused := by
  have houtput : Util.Printf.output 0xfff fmt args ⟨W.garbage, []⟩ =
      Util.Printf.clip 0xffe (Util.Printf.fields args fmt none 0) :=
    Util.Printf.output_eq fmt args ⟨W.garbage, []⟩
  unfold printf
  show Ends (do
    discard (write W (← get).__console_handle (Util.Printf.output 0xfff fmt args ⟨W.garbage, []⟩))
    return (Util.Printf.vsnprintf 0xfff fmt args ⟨W.garbage, []⟩).1 : UserOp T P ℤ) r _ _
  rw [houtput, ends_bind, ends_get, ends_bind, ends_discard]
  exact write_spec hE hW hi hh ho hd

end Infos.User
