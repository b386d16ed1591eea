import Infos.Util.CString

/-!
# Settings that are compared with a text

The switches of the kernel's logs and tests, and the algorithms that are named on the command line.
-/

open Infos.Util

namespace Infos.Kernel

variable {A : Type} {value text chosen : List UInt8} {n : ℕ}

/-! ## Switches -/

/-- `strncmp(value, text, n) == 0` -/
def is_text (text : List UInt8) (n : ℕ) (value : List UInt8) : Bool := strncmp value text n = 0

/-- The text `1`. -/
def one : List UInt8 := [49]

/-- The text `serial`. -/
def serial : List UInt8 := [115, 101, 114, 105, 97, 108]

def SchedDebug : List UInt8 → Bool := is_text one 1
def PageAllocDebug : List UInt8 → Bool := is_text one 1
def PageAllocSelfTest : List UInt8 → Bool := is_text one 2
def ObjAllocDebug : List UInt8 → Bool := is_text one 1
def SysLogDestination : List UInt8 → Bool := is_text serial 6

/-- The number of characters makes no difference if the whole text is among them. -/
theorem is_text_iff (h : text.length ≤ n) : is_text text n value = true ↔ value = text := by
  simp [is_text, strncmp_eq_zero_of_le h]

/-! ## Algorithms -/

/-- `static char sched_algorithm[32]`, `static char pgalloc_algorithm[32]` -/
def algorithm_size : ℕ := 32

def take_algorithm (value buffer : List UInt8) : List UInt8 := strncpy buffer value 31

def SchedAlgorithm (value sched_algorithm : List UInt8) : List UInt8 :=
  take_algorithm value sched_algorithm

def PageAllocAlgorithm (value pgalloc_algorithm : List UInt8) : List UInt8 :=
  take_algorithm value pgalloc_algorithm

/-- The loop goes on behind a candidate. -/
def candidate_loop (chosen : List UInt8) :
    List (List UInt8 × A) → (candidate : Option A) → Option A
  | [], candidate => candidate
  | (name, algorithm) :: algorithms, candidate =>
    candidate_loop chosen algorithms
      (if strncmp name chosen (algorithm_size - 1) = 0 then some algorithm else candidate)

/-- `algorithms` is the table that the linker makes, each with its name. -/
def acquire_algorithm (chosen : List UInt8) (algorithms : List (List UInt8 × A)) : Option A :=
  if strlen chosen = 0 then none else candidate_loop chosen algorithms none

def acquire_scheduler_algorithm (sched_algorithm : List UInt8) :
    List (List UInt8 × A) → Option A := acquire_algorithm (Util.text sched_algorithm)

def acquire_page_allocator_algorithm (pgalloc_algorithm : List UInt8) :
    List (List UInt8 × A) → Option A := acquire_algorithm (Util.text pgalloc_algorithm)

/-- The last algorithm of the name is the one. -/
theorem candidate_loop_eq (h : chosen.length ≤ 31) (algorithms : List (List UInt8 × A))
    (candidate : Option A) : candidate_loop chosen algorithms candidate =
      ((algorithms.reverse.find? (·.1 = chosen)).map Prod.snd).or candidate := by
  induction algorithms generalizing candidate with
  | nil => rfl
  | cons x algorithms ih =>
    rw [candidate_loop, ih, List.reverse_cons, List.find?_append, Option.map_or, Option.or_assoc]
    congr 1
    simp only [algorithm_size, strncmp_eq_zero_of_le h, List.find?_singleton]
    split <;> simp [*]

theorem acquire_algorithm_eq (h : chosen.length ≤ 31) (hne : chosen ≠ [])
    (algorithms : List (List UInt8 × A)) : acquire_algorithm chosen algorithms =
      (algorithms.reverse.find? (·.1 = chosen)).map Prod.snd := by
  have hlen : strlen chosen ≠ 0 := by
    rw [strlen_eq]
    exact fun h0 => hne (List.length_eq_zero_iff.mp h0)
  rw [acquire_algorithm, if_neg hlen, candidate_loop_eq h, Option.or_none]

/-- A name of up to 30 characters comes through the buffer. -/
theorem acquire_named (h : 0 ∉ value) (hne : value ≠ []) (hlen : value.length ≤ 30)
    (buffer : List UInt8) (algorithms : List (List UInt8 × A)) :
    acquire_algorithm (Util.text (take_algorithm value buffer)) algorithms =
      (algorithms.reverse.find? (·.1 = value)).map Prod.snd := by
  have hkept : Util.text (take_algorithm value buffer) = value := by
    rw [take_algorithm, text_strncpy h (by decide)]
    exact List.take_of_length_le hlen
  rw [hkept, acquire_algorithm_eq (by omega) hne]

end Infos.Kernel
