import Infos.Vma.Code

/-!
# Loading a program, as `infos/fs/exec/elf-loader.cpp` runs it

With what `infos/kernel/process.cpp` and `infos/kernel/thread.cpp` do for a new process and its
main thread. Objects of the kernel heap are not in the memory modelled here.
-/

open Infos.Bytes Infos.Vma

namespace Infos.Exec

variable {α : Type}

/-! ## Threads and processes -/

/-- The pointers of `_context`. -/
structure ThreadContext where
  kernel_stack : ℕ
  native_context : ℕ
  deriving DecidableEq, Repr

def KERNEL_STACK_ORDER : Int := 1

def KERNEL_STACK_SIZE : ℕ := 0x2000

/-- What `prepare_initial_stack` pushes for a user thread: the context of the processor, then that
of the thread. -/
def initial_stack (entry_point : UInt64) : List UInt64 :=
  [0x23, 0, 0x202, 0x1b, entry_point, 0] ++ List.replicate 16 0

def push_words : List UInt64 → ℕ → Op α ℕ
  | [], stack => pure stack
  | word :: words, stack => do
    store_word (stack - 8) word
    push_words words (stack - 8)

/-- `offsetof(X86Context, rsp)` and `offsetof(X86Context, rdi)` -/
def offset_rsp : ℕ := 160

def offset_rdi : ℕ := 80

def prepare_initial_stack (kernel_stack : ℕ) (entry_point : UInt64) : Op α ThreadContext := do
  let native_context ← push_words (initial_stack entry_point) kernel_stack
  store_word (native_context + offset_rsp) (PMEM_VA_START + UInt64.ofNat kernel_stack)
  pure ⟨kernel_stack, native_context⟩

def new_Thread (P : PageSource α) (entry_point : UInt64) : Op α ThreadContext := do
  let kernel_stack_pgd ← assert_pgd (← allocate_phys P KERNEL_STACK_ORDER)
  prepare_initial_stack ((← pgd_to_vpa kernel_stack_pgd) + KERNEL_STACK_SIZE) entry_point

/-- A user process, by the context of its main thread. -/
def new_Process (P : PageSource α) (template_pml4 : Template) (entry_point : UInt64) :
    Op α ThreadContext := do
  new_VMA P
  install_default_kernel_mapping template_pml4
  new_Thread P entry_point

def __align_up_page (value : UInt64) : UInt64 :=
  value + if value % 0x1000 = 0 then 0 else 0x1000 - value % 0x1000

/-- A number of pages, as the `int` it is passed as. -/
def page_count (size : UInt64) : Int32 := (__align_up_page size >>> 12).toUInt32.toInt32

def allocate_user_stack (P : PageSource α) (t : ThreadContext) (vaddr size : UInt64) :
    Op α Unit := do
  let _ ← allocate_virt P vaddr (page_count size)
  store_word (t.native_context + offset_rsp) (vaddr + size)

/-- The first argument. -/
def add_entry_argument (t : ThreadContext) (arg : UInt64) : Op α Unit :=
  store_word (t.native_context + offset_rdi) arg

/-! ## The file -/

/-- A file answers with a number of bytes, and leaves the buffer as it is after the call. What it
does not fill is whatever was there. -/
structure File where
  read : UInt64 → Int32 × Memory
  pread : UInt64 → UInt64 → Int32 × Memory

structure ELF64Header where
  magic_number : UInt32
  eclass : UInt8
  data : UInt8
  type : UInt16
  machine : UInt16
  version : UInt32
  entry_point : UInt64
  phoff : UInt64
  phentsize : UInt16
  phnum : UInt16
  deriving DecidableEq, Repr

def ELF64Header.ofBytes (buf : Memory) : ELF64Header where
  magic_number := UInt32.ofNat (load buf 0 4)
  eclass := buf 4
  data := buf 5
  type := UInt16.ofNat (load buf 16 2)
  machine := UInt16.ofNat (load buf 18 2)
  version := UInt32.ofNat (load buf 20 4)
  entry_point := load64 buf 24
  phoff := load64 buf 32
  phentsize := UInt16.ofNat (load buf 54 2)
  phnum := UInt16.ofNat (load buf 56 2)

structure ELF64ProgramHeaderEntry where
  type : UInt32
  offset : UInt64
  vaddr : UInt64
  filesz : UInt64
  memsz : UInt64
  deriving DecidableEq, Repr

def ELF64ProgramHeaderEntry.ofBytes (buf : Memory) : ELF64ProgramHeaderEntry where
  type := UInt32.ofNat (load buf 0 4)
  offset := load64 buf 8
  vaddr := load64 buf 16
  filesz := load64 buf 32
  memsz := load64 buf 40

def sizeof_ELF64Header : UInt64 := 64

def sizeof_ELF64ProgramHeaderEntry : UInt64 := 56

def MAGIC_NUMBER : UInt32 := 0x464c457f

def ECLASS_64BIT : UInt8 := 2

def EDATA_LITTLE : UInt8 := 1

/-- The checks before a process is made. Each of them returns `NULL`. -/
def ELF64Header.accepted (hdr : ELF64Header) : Bool :=
  hdr.magic_number == MAGIC_NUMBER && hdr.eclass == ECLASS_64BIT && hdr.data == EDATA_LITTLE &&
    hdr.type == 2 && hdr.machine == 0x3e && hdr.version == 1

/-! ## Loading -/

def load_segment (P : PageSource α) (file : File) (ent : ELF64ProgramHeaderEntry) : Op α Unit := do
  if !(← is_mapped ent.vaddr) then
    let _ ← allocate_virt P ent.vaddr (page_count ent.memsz)
  let (_, buffer) := file.pread ent.filesz ent.offset
  let _ ← copy_to ent.vaddr buffer ent.filesz

/-- The loop over the program headers, from the `i`-th on. It is left early when one cannot be
read. -/
def load_segments (P : PageSource α) (file : File) (hdr : ELF64Header) : (left i : ℕ) → Op α Bool
  | 0, _ => pure true
  | left + 1, i => do
    let off := hdr.phoff + UInt64.ofNat (i * hdr.phentsize.toNat)
    let (bytes, buf) := file.pread sizeof_ELF64ProgramHeaderEntry off
    if bytes ≠ 56 then pure false
    else
      let ent := ELF64ProgramHeaderEntry.ofBytes buf
      if ent.type = 1 then
        load_segment P file ent
      load_segments P file hdr left (i + 1)

/-- `cmdline`, by its length and its bytes. -/
structure CmdLine where
  length : UInt64
  c_str : Memory

def cmdline_start : UInt64 := 0x102000

def load_cmdline (P : PageSource α) (t : ThreadContext) (cmdline : CmdLine) : Op α Bool := do
  if cmdline.length > 0 then
    let _ ← allocate_virt P cmdline_start 1
    if ← copy_to cmdline_start cmdline.c_str cmdline.length then
      add_entry_argument t cmdline_start
      pure true
    else pure false
  else
    add_entry_argument t 0
    pure true

def load (P : PageSource α) (template_pml4 : Template) (file : File) (cmdline : CmdLine) :
    Op α (Option ThreadContext) := do
  let (bytes, buf) := file.read sizeof_ELF64Header
  let hdr := ELF64Header.ofBytes buf
  if bytes ≠ 64 then pure none
  else if !hdr.accepted then pure none
  else
    let np ← new_Process P template_pml4 hdr.entry_point
    if ← load_segments P file hdr hdr.phnum.toNat 0 then
      allocate_user_stack P np 0x100000 0x2000
      if ← load_cmdline P np cmdline then pure (some np) else pure none
    else pure none

end Infos.Exec
