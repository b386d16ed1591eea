import Infos.Lib.Circular
import Mathlib.Data.List.Induction

/-!
# The read buffer of a terminal

The bytes are appended by the handler of the keyboard's interrupt, and read by threads. What the
event of the buffer does is left out here: a read that finds no byte is made again.
-/

namespace Infos.Drivers

structure Terminal where
  _read_buffer : ℕ → UInt8
  _read_buffer_head : UInt8
  _read_buffer_tail : UInt8

namespace Terminal

/-- `ARRAY_SIZE(_read_buffer)`. -/
def size : ℕ := 64

/-- The constructor. It leaves the buffer as it finds it. -/
def new (buffer : ℕ → UInt8) : Terminal := ⟨buffer, 0, 0⟩

def append_to_read_buffer (c : UInt8) (tty : Terminal) : Terminal :=
  { tty with
    _read_buffer := Function.update tty._read_buffer tty._read_buffer_tail.toNat c
    _read_buffer_tail := (tty._read_buffer_tail + 1) % 64 }

/-- A turn of the outer loop of `read`, if it does not have to wait. -/
def read_byte (tty : Terminal) : Option (UInt8 × Terminal) :=
  if tty._read_buffer_head = tty._read_buffer_tail then none
  else
    some (tty._read_buffer tty._read_buffer_head.toNat,
      { tty with _read_buffer_head := (tty._read_buffer_head + 1) % 64 })

/-- The bytes that can be read. -/
def unread (tty : Terminal) : List UInt8 :=
  let head := tty._read_buffer_head.toNat
  Circular.span size tty._read_buffer head
    (Circular.distance size head tty._read_buffer_tail.toNat)

structure Valid (tty : Terminal) : Prop where
  head : tty._read_buffer_head.toNat < size
  tail : tty._read_buffer_tail.toNat < size

variable {tty tty' : Terminal} {b c : UInt8}

theorem next_toNat {i : UInt8} (h : i.toNat < size) : ((i + 1) % 64).toNat = (i.toNat + 1) % size := by
  unfold size at h ⊢
  rw [UInt8.toNat_mod, UInt8.toNat_add, show (1 : UInt8).toNat = 1 from rfl,
    show (64 : UInt8).toNat = 64 from rfl, Nat.mod_eq_of_lt (a := i.toNat + 1) (by omega)]

theorem next_lt (i : ℕ) : (i + 1) % size < size := Nat.mod_lt _ (by decide)

theorem new_valid (buffer : ℕ → UInt8) : (new buffer).Valid :=
  ⟨show 0 < size by decide, show 0 < size by decide⟩

@[simp]
theorem new_unread (buffer : ℕ → UInt8) : (new buffer).unread = [] := by
  simp [unread, new, Circular.distance]

theorem Valid.append (h : tty.Valid) : (tty.append_to_read_buffer c).Valid :=
  ⟨h.head, (next_toNat h.tail).symm ▸ next_lt _⟩

theorem length_unread : tty.unread.length < size := by
  unfold unread
  rw [Circular.length_span]
  exact Circular.distance_lt (by decide)

theorem Valid.write_place (h : tty.Valid) : tty._read_buffer_tail.toNat =
    (tty._read_buffer_head.toNat + tty.unread.length) % size := by
  unfold unread
  rw [Circular.length_span, Circular.add_distance h.head h.tail]

/-- While there is another free cell, the byte is behind the others. -/
theorem unread_append (h : tty.Valid) (hroom : tty.unread.length + 1 < size) :
    (tty.append_to_read_buffer c).unread = tty.unread ++ [c] := by
  have hplace := h.write_place
  unfold unread append_to_read_buffer at *
  rw [Circular.length_span] at hplace hroom
  dsimp only
  rw [next_toNat h.tail, Circular.distance_push h.head hroom, ← Circular.span_push (by omega),
    ← hplace]

/-- The byte in the last free cell hides all of them, and itself. -/
theorem unread_append_full (h : tty.Valid) (hfull : tty.unread.length + 1 = size) :
    (tty.append_to_read_buffer c).unread = [] := by
  unfold unread append_to_read_buffer at *
  rw [Circular.length_span] at hfull
  dsimp only
  rw [next_toNat h.tail, Circular.distance_full h.head hfull, Circular.span_zero]

theorem read_byte_none (h : tty.Valid) : tty.read_byte = none ↔ tty.unread = [] := by
  have hzero := Circular.distance_eq_zero h.head h.tail
  rw [UInt8.toNat_inj] at hzero
  unfold read_byte unread
  rw [← List.length_eq_zero_iff, Circular.length_span, hzero]
  split
  next heq => simp [heq]
  next hne => simp [hne]

theorem read_byte_some (h : tty.Valid) (hr : tty.read_byte = some (b, tty')) :
    tty.unread = b :: tty'.unread ∧ tty'.Valid := by
  unfold read_byte at hr
  split at hr
  · cases hr
  · rename_i hne
    obtain ⟨rfl, rfl⟩ := Prod.mk.inj (Option.some.inj hr)
    have hpop := Circular.distance_pop h.head h.tail
      ((Circular.distance_eq_zero h.head h.tail).not.mpr (UInt8.toNat_inj.not.mpr hne))
    refine ⟨?_, ⟨(next_toNat h.head).symm ▸ next_lt _, h.tail⟩⟩
    unfold unread
    dsimp only
    rw [hpop, Circular.span_first h.head, next_toNat h.head]

/-! ## Histories -/

inductive Step
  | append (c : UInt8)
  | read
  deriving DecidableEq

/-- The byte is taken, and can be read behind the others. -/
def Accepts (tty : Terminal) (c : UInt8) : Prop :=
  (tty.append_to_read_buffer c).unread = tty.unread ++ [c]

/-- The byte is dropped, and the others can be read as before. -/
def Drops (tty : Terminal) (c : UInt8) : Prop :=
  (tty.append_to_read_buffer c).unread = tty.unread

instance : Decidable (tty.Accepts c) := inferInstanceAs (Decidable (_ = _))

instance : Decidable (tty.Drops c) := inferInstanceAs (Decidable (_ = _))

/-- A terminal, with the bytes it accepted and those that readers have from it. -/
structure History where
  tty : Terminal
  accepted : List UInt8
  handed : List UInt8

namespace History

def start (buffer : ℕ → UInt8) : History := ⟨new buffer, [], []⟩

def step (s : History) : Step → History
  | .append c =>
    { s with
      tty := s.tty.append_to_read_buffer c
      accepted := if s.tty.Accepts c then s.accepted ++ [c] else s.accepted }
  | .read =>
    match s.tty.read_byte with
    | none => s
    | some (b, tty) => { s with tty := tty, handed := s.handed ++ [b] }

def after (buffer : ℕ → UInt8) (steps : List Step) : History := steps.foldl step (start buffer)

/-- What a queue does with `x` that loses no byte, or only new ones. -/
structure Keeps (s : History) (x : Step) : Prop where
  order : (s.step x).handed <+: (s.step x).accepted
  append : ∀ c, x = .append c → s.tty.Accepts c ∨ s.tty.Drops c

/-- All that was accepted was handed out or can be read. -/
structure Whole (s : History) : Prop where
  valid : s.tty.Valid
  whole : s.handed ++ s.tty.unread = s.accepted

variable {s : History} {x : Step}

theorem step_valid (h : s.tty.Valid) : (s.step x).tty.Valid := by
  unfold step
  cases x with
  | append c => exact h.append
  | read =>
    dsimp only
    split
    · exact h
    next hr => exact (read_byte_some h hr).2

theorem after_valid (buffer : ℕ → UInt8) (steps : List Step) : (after buffer steps).tty.Valid :=
  List.foldlRecOn (motive := fun s => s.tty.Valid) steps step (new_valid buffer)
    fun _ h _ _ => step_valid h

theorem after_append (buffer : ℕ → UInt8) (steps : List Step) (x : Step) :
    after buffer (steps ++ [x]) = (after buffer steps).step x := by
  unfold after
  rw [List.foldl_append, List.foldl_cons, List.foldl_nil]

/-- While there is room, nothing gets lost. -/
theorem Whole.step (h : s.Whole) (hroom : ∀ c, x = .append c → s.tty.unread.length + 1 < size) :
    (s.step x).Whole := by
  refine ⟨step_valid h.valid, ?_⟩
  unfold History.step
  cases x with
  | append c =>
    have hacc := unread_append (c := c) h.valid (hroom c rfl)
    dsimp only
    rw [if_pos (show s.tty.Accepts c from hacc), hacc, ← List.append_assoc, h.whole]
  | read =>
    dsimp only
    split
    · exact h.whole
    next hr =>
      have hw := h.whole
      rw [(read_byte_some h.valid hr).1] at hw
      simpa using hw

theorem Whole.keeps (h : s.Whole) (hroom : ∀ c, x = .append c → s.tty.unread.length + 1 < size) :
    s.Keeps x :=
  ⟨⟨_, (h.step hroom).whole⟩, fun c hc => .inl (unread_append h.valid (hroom c hc))⟩

/-- Without room, a byte is neither accepted nor only dropped. -/
theorem Keeps.room {c : UInt8} (hv : s.tty.Valid) (h : s.Keeps (.append c)) :
    s.tty.unread.length + 1 < size := by
  have hlt : s.tty.unread.length < size := length_unread
  by_contra hno
  have hfull : s.tty.unread.length + 1 = size := by omega
  have hnil := unread_append_full (c := c) hv hfull
  rcases h.append c rfl with hacc | hdrop
  · rw [Accepts, hnil] at hacc
    simp at hacc
  · rw [Drops, hnil] at hdrop
    rw [← hdrop] at hfull
    exact absurd hfull (by decide)

theorem whole_after {buffer : ℕ → UInt8} {steps : List Step}
    (h : ∀ before c, before ++ [.append c] <+: steps →
      (after buffer before).tty.unread.length + 1 < size) : (after buffer steps).Whole := by
  induction steps using List.reverseRecOn with
  | nil => exact ⟨new_valid buffer, new_unread buffer⟩
  | append_singleton steps x ih =>
    rw [after_append]
    refine (ih fun before c hb => h before c (hb.trans (List.prefix_append _ _))).step ?_
    rintro c rfl
    exact h steps c (List.prefix_refl _)

/-- The terminal is a queue that loses at most new bytes as long as each byte comes while fewer
than 63 wait to be read. -/
theorem input_is_queue (buffer : ℕ → UInt8) (steps : List Step) :
    (∀ before x, before ++ [x] <+: steps → (after buffer before).Keeps x) ↔
      ∀ before c, before ++ [.append c] <+: steps →
        (after buffer before).tty.unread.length < 63 := by
  constructor
  · intro h before c hb
    exact Nat.lt_of_succ_lt_succ ((h before _ hb).room (after_valid buffer before))
  · intro h before x hb
    refine (whole_after fun first c hf => ?_).keeps ?_
    · have hpre := hf.trans ((List.prefix_append before [x]).trans hb)
      exact Nat.succ_lt_succ (h first c hpre)
    · rintro c rfl
      exact Nat.succ_lt_succ (h before c hb)

theorem unread_typed {buffer : ℕ → UInt8} {c : UInt8} {n : ℕ} (h : n < size) :
    (after buffer (List.replicate n (.append c))).tty.unread = List.replicate n c := by
  induction n with
  | zero => exact new_unread buffer
  | succ n ih =>
    have hn := ih (Nat.lt_of_succ_lt h)
    have hroom : (after buffer (List.replicate n (.append c))).tty.unread.length + 1 < size := by
      rwa [hn, List.length_replicate]
    rw [List.replicate_succ', after_append]
    exact (unread_append (after_valid buffer _) hroom).trans (by rw [hn, List.replicate_succ'])

/-- 64 bytes that nobody reads are lost with the last of them. -/
theorem input_lost : ¬ ∀ before x, before ++ [x] <+: List.replicate 64 (Step.append 97) →
    (after (fun _ => 0) before).Keeps x := by
  intro h
  have hk := (h (List.replicate 63 (.append 97)) _ (List.prefix_refl _)).room (after_valid _ _)
  rw [unread_typed (by decide), List.length_replicate] at hk
  exact absurd hk (by decide)

end History

end Terminal

end Infos.Drivers
