import Infos.Util.Cmdline

/-!
# The options of the kernel that are given at boot

The functions that take an option hand `strncpy` one less than the size of the buffer, of which
`strncpy` again keeps one place for the zero.
-/

open Infos.Util Infos.Util.CommandLine

namespace Infos.Kernel

/-- `static char boot_device_name[16]`, and the other two. -/
def option_size : ℕ := 16

abbrev OptionBuffer := { buffer : List UInt8 // buffer.length = option_size }

namespace OptionBuffer

def copy (dest : OptionBuffer) (src : List UInt8) (n : UInt64) (hn : n ≠ 0)
    (hle : n.toNat ≤ option_size) : OptionBuffer :=
  ⟨strncpy dest.val src n, by rw [length_strncpy hn (by rwa [dest.property]), dest.property]⟩

def text (buffer : OptionBuffer) : List UInt8 := Util.text buffer.val

theorem text_copy {src : List UInt8} (h : 0 ∉ src) (dest : OptionBuffer) {n : UInt64} (hn : n ≠ 0)
    (hle : n.toNat ≤ option_size) : (dest.copy src n hn hle).text = src.take (n.toNat - 1) :=
  text_strncpy h hn

end OptionBuffer

structure BootOptions where
  boot_device_name : OptionBuffer
  boot_fstype : OptionBuffer
  init_program : OptionBuffer

structure FilesystemRegistration (C : Type) where
  name : List UInt8
  creation_fn : C

/-- The text `internal_driver`. -/
def internal_driver : List UInt8 :=
  [105, 110, 116, 101, 114, 110, 97, 108, 95, 100, 114, 105, 118, 101, 114]

namespace BootOptions

/-- What is done with the value of an option. -/
def take_option (buffer : OptionBuffer) (value : List UInt8) : OptionBuffer :=
  buffer.copy value 15 (by decide) (by decide)

def BootDevice (value : List UInt8) (o : BootOptions) : BootOptions :=
  { o with boot_device_name := take_option o.boot_device_name value }

def BootFSType (value : List UInt8) (o : BootOptions) : BootOptions :=
  { o with boot_fstype := take_option o.boot_fstype value }

def InitProgram (value : List UInt8) (o : BootOptions) : BootOptions :=
  { o with init_program := take_option o.init_program value }

/-- The part of `start_kernel_threadproc` that comes to the type of the file system. -/
def default_fstype (o : BootOptions) : BootOptions :=
  if strlen o.boot_fstype.text = 0 then
    { o with boot_fstype := o.boot_fstype.copy internal_driver 16 (by decide) (by decide) }
  else o

def bootfstype (o : BootOptions) : List UInt8 := o.default_fstype.boot_fstype.text

end BootOptions

variable {C : Type}

def lookup_fs (fstype : List UInt8) :
    List (FilesystemRegistration C) → Option (FilesystemRegistration C)
  | [] => none
  | reg :: regs => if strncmp reg.name fstype 16 = 0 then some reg else lookup_fs fstype regs

namespace BootOptions

/-- The value is stored by each of the three, and the first file system that is registered with the
name is selected by it, as is the one that the default names. -/
structure Honoured (o : BootOptions) (_filesystems : List (FilesystemRegistration C))
    (v : List UInt8) : Prop where
  device : (o.BootDevice v).boot_device_name.text = v
  fstype : (o.BootFSType v).boot_fstype.text = v
  init : (o.InitProgram v).init_program.text = v
  selected : (∃ reg ∈ _filesystems, reg.name = v) →
    lookup_fs (o.BootFSType v).bootfstype _filesystems = _filesystems.find? (·.name = v)
  default : o.boot_fstype.text = [] → (∃ reg ∈ _filesystems, reg.name = internal_driver) →
    lookup_fs o.bootfstype _filesystems = _filesystems.find? (·.name = internal_driver)

variable {o : BootOptions} {_filesystems : List (FilesystemRegistration C)} {v : List UInt8}

theorem text_take_option (h : 0 ∉ v) (buffer : OptionBuffer) :
    (take_option buffer v).text = v.take 14 := buffer.text_copy h _ _

theorem bootfstype_default (h : o.boot_fstype.text = []) : o.bootfstype = internal_driver := by
  unfold bootfstype default_fstype
  rw [strlen_eq, if_pos (by rw [h]; rfl)]
  exact OptionBuffer.text_copy (show 0 ∉ internal_driver by decide) o.boot_fstype
    (show (16 : UInt64) ≠ 0 by decide) (by decide)

theorem bootfstype_given (h : o.boot_fstype.text ≠ []) : o.bootfstype = o.boot_fstype.text := by
  unfold bootfstype default_fstype
  rw [strlen_eq, if_neg fun h0 => h (List.length_eq_zero_iff.mp h0)]

theorem lookup_fs_eq (h : v.length ≤ 16) (regs : List (FilesystemRegistration C)) :
    lookup_fs v regs = regs.find? (·.name = v) := by
  induction regs with
  | nil => rfl
  | cons reg regs ih =>
    unfold lookup_fs
    simp only [strncmp_eq_zero_of_le h, ih, List.find?_cons]
    split <;> simp [*]

/-- A value of 15 characters loses its last. -/
theorem honoured_iff (o : BootOptions) (_filesystems : List (FilesystemRegistration C))
    (h : 0 ∉ v) (hlen : v.length ≤ 15) : Honoured o _filesystems v ↔
      v.length ≤ 14 ∧ (v = [] → ∀ reg ∈ _filesystems, reg.name ≠ []) := by
  constructor
  · intro hh
    have hstored := congrArg List.length hh.fstype
    rw [BootFSType, text_take_option h, List.length_take] at hstored
    refine ⟨by omega, ?_⟩
    rintro rfl reg hreg hname
    have hsel := hh.selected ⟨reg, hreg, hname⟩
    rw [bootfstype_default (text_take_option h _), lookup_fs_eq (by decide)] at hsel
    have hsome : (_filesystems.find? (·.name = [])).isSome :=
      List.find?_isSome.mpr ⟨reg, hreg, by simpa using hname⟩
    obtain ⟨r, hr⟩ := Option.isSome_iff_exists.mp hsome
    have hempty := List.find?_some hr
    have hdefault := List.find?_some (hsel.trans hr)
    simp only [decide_eq_true_eq] at hdefault hempty
    rw [hempty] at hdefault
    cases hdefault
  · rintro ⟨hshort, hempty⟩
    have hstored : ∀ buffer, (take_option buffer v).text = v := fun buffer => by
      rw [text_take_option h, List.take_of_length_le hshort]
    refine ⟨hstored _, hstored _, hstored _, ?_, ?_⟩
    · rintro ⟨reg, hreg, hname⟩
      have hne : v ≠ [] := fun hv => hempty hv reg hreg (hname.trans hv)
      have hgiven : (o.BootFSType v).boot_fstype.text = v := hstored _
      rw [bootfstype_given (by rwa [hgiven]), hgiven, lookup_fs_eq (by omega)]
    · intro hnone _
      rw [bootfstype_default hnone, lookup_fs_eq (by decide)]

/-- What the buffers hold at first. -/
def unset : BootOptions :=
  ⟨⟨List.replicate 16 0, rfl⟩, ⟨List.replicate 16 0, rfl⟩, ⟨List.replicate 16 0, rfl⟩⟩

/-- The file system `tarfs`. -/
theorem honoured_iff_tarfs : Honoured unset [⟨[116, 97, 114, 102, 115], ()⟩] [116, 97, 114, 102, 115] ↔
    [116, 97, 114, 102, 115].length ≤ 14 ∧ (([116, 97, 114, 102, 115] : List UInt8) = [] →
      ∀ reg ∈ [(⟨[116, 97, 114, 102, 115], ()⟩ : FilesystemRegistration Unit)], reg.name ≠ []) :=
  honoured_iff _ _ (by decide) (by decide)

/-- The name of the default is cut if it is given. -/
theorem internal_driver_cut : ¬Honoured unset [⟨internal_driver, ()⟩] internal_driver := by
  intro h
  have := h.fstype
  revert this
  decide

/-! ## On the command line -/

/-- The text behind the equals sign is what a function is called with. -/
theorem given_on_command_line {F : Type} {k : List UInt8} {fn : F} (hk : 61 ∉ k ∧ 32 ∉ k)
    (hv : 61 ∉ v ∧ 32 ∉ v) (hkey : k.length < key_size) (hvalue : v.length < key_size) :
    (parse_turn [⟨some k, fn⟩]).Ends (parse_start (k ++ 61 :: v)) [(fn, v)] := by
  have hkey' : key (k ++ 61 :: v) = k := by
    unfold key
    rw [List.takeWhile_append_of_pos, List.takeWhile_cons_of_neg (by simp), List.append_nil]
    exact fun c hc => by simpa using fun heq : c = 61 => hk.1 (heq ▸ hc)
  have hvalue' : value (k ++ 61 :: v) = v := by
    unfold value
    rw [List.dropWhile_append_of_pos, List.dropWhile_cons_of_neg (by simp), List.tail_cons]
    exact fun c hc => by simpa using fun heq : c = 61 => hk.1 (heq ▸ hc)
  have hends := parse_ends [⟨some k, fn⟩] (parse_start (k ++ 61 :: v))
  have hfilter : v.filter (· ≠ 61) = v := by
    rw [List.filter_eq_self]
    exact fun c hc => by simpa using fun heq : c = 61 => hv.1 (heq ▸ hc)
  rw [parse_start, tokens_word (by simp [hk.2, hv.2]) (by simp), List.filterMap_cons,
    process_setting ⟨by simp, by rwa [hkey'], by rwa [hvalue']⟩, hkey', hvalue', hfilter] at hends
  simpa [parse_start] using hends

end BootOptions

end Infos.Kernel
