import Infos.Lib.System
import Infos.Util.StringObjects

/-!
# The hash that a string keeps

A hash is computed when it is first asked for, and every way to make or change a string does
something else with it.
-/

namespace Infos.Util.StringObject

open Prog Buffers

/-- FNV-1a, of unsigned octets. -/
def fnv1a (octets : List UInt8) : UInt64 :=
  octets.foldl (fun hash octet => (hash ^^^ octet.toUInt64) * 1099511628211) 14695981039346656037

/-- The strings that there are, by a number for each. -/
structure World where
  heap : Heap
  strings : ℕ → Option Str

abbrev WorldOp := StateT World (Except (Buffers.Fault Stopped))

inductive Call
  | empty (i : ℕ)
  | of_chars (i : ℕ) (str : List UInt8)
  | copy (i j : ℕ)
  | move (i j : ℕ)
  | concat (i l r : ℕ)
  | concat_char (i l : ℕ) (r : UInt8)
  | assign (i j : ℕ)
  | move_assign (i j : ℕ)
  | get_hash (i : ℕ)
  | destroy (i : ℕ)

def string (i : ℕ) : WorldOp Str := do
  match (← get).strings i with
  | some s => pure s
  | none => throw (.other .no_string)

def on_heap {α : Type} (x : StrOp α) : WorldOp α :=
  zoom World.heap (fun h w => { w with heap := h }) id x

def set_string (i : ℕ) (s : Option Str) : WorldOp Unit :=
  modify fun w => { w with strings := Function.update w.strings i s }

/-- An assignment looks first whether it is to the same object. -/
def call : Call → WorldOp Unit
  | .empty i => do set_string i (← on_heap StringObject.empty)
  | .of_chars i str => do set_string i (← on_heap (StringObject.of_chars str))
  | .copy i j => do
    let str ← string j
    set_string i (← on_heap (StringObject.copy str))
  | .move i j => do
    let str ← string j
    set_string i (StringObject.move str)
  | .concat i l r => do
    let a ← string l
    let b ← string r
    set_string i (← on_heap (StringObject.concat a b))
  | .concat_char i l r => do
    let a ← string l
    set_string i (← on_heap (StringObject.concat_char a r))
  | .assign i j => do
    let self ← string i
    let s ← string j
    if i ≠ j then set_string i (← on_heap (StringObject.assign self s))
  | .move_assign i j => do
    let self ← string i
    let s ← string j
    if i ≠ j then
      let (self, s) ← on_heap (StringObject.move_assign self s)
      set_string i self
      set_string j s
  | .get_hash i => do
    let s ← string i
    let (_, s) ← on_heap (StringObject.get_hash s)
    set_string i s
  | .destroy i => do
    let s ← string i
    on_heap (StringObject.destroy s)
    set_string i none

/-- A string is made where there is none. -/
def Allowed (w : World) : Call → Prop
  | .empty i | .of_chars i _ | .copy i _ | .move i _ | .concat i _ _ | .concat_char i _ _ =>
    w.strings i = none
  | _ => True

/-- No other string has the buffer of `i`. -/
def Alone (w : World) (i : ℕ) : Prop :=
  ∀ s p, w.strings i = some s → s._data = some p →
    ∀ j t, w.strings j = some t → t._data = some p → j = i

/-- Every character is an ASCII one, no hash is moved, and no buffer goes that another string
has. -/
def Kept (w : World) : Call → Prop
  | .of_chars _ str => ∀ ch ∈ str, ch < 128
  | .concat_char _ _ r => r < 128
  | .move _ j => ∀ s, w.strings j = some s → s._has_hash = false
  | .assign i j => i ≠ j → Alone w i
  | .move_assign i j =>
    i ≠ j → Alone w i ∧ ∀ s, w.strings j = some s → s._has_hash = true → s._size = 0
  | .destroy i => Alone w i
  | _ => True

/-- The calls that the code can make. -/
def code : System World Call (Buffers.Fault Stopped) where
  start w := ∀ i, w.strings i = none
  allowed := Allowed
  step w c := (call c w).map (·.2)

/-- The calls that keep the hashes right. -/
def kept : System World Call (Buffers.Fault Stopped) where
  start := code.start
  allowed w c := Allowed w c ∧ Kept w c
  step := code.step

/-- The hash that `get_hash` answers for a string is that of its characters, and equal strings have
equal hashes. -/
structure Right (w : World) : Prop where
  hash : ∀ i s, w.strings i = some s →
    ∃ b t, Holds w.heap s b ∧ get_hash s w.heap = .ok ((fnv1a b, t), w.heap)
  equal : ∀ i j s t x y s' t', w.strings i = some s → w.strings j = some t →
    equal s t w.heap = .ok (true, w.heap) → get_hash s w.heap = .ok ((x, s'), w.heap) →
    get_hash t w.heap = .ok ((y, t'), w.heap) → x = y

variable {h h' : Heap} {w w' : World} {a b : List UInt8} {ch : UInt8} {s t : Str} {i j : ℕ}

/-! ## The sign of a character -/

theorem signed_low (hch : ch < 128) : ch.toInt8.toInt64.toUInt64 = ch.toUInt64 := by
  have hlt : ch.toNat < 128 := hch
  have hmsb : ch.toBitVec.msb = false := by
    rw [BitVec.msb_eq_false_iff_two_mul_lt]
    show 2 * ch.toNat < 2 ^ 8
    omega
  rw [← UInt64.toBitVec_inj]
  exact BitVec.signExtend_eq_setWidth_of_msb_false hmsb

theorem signed_high (hch : 128 ≤ ch) : ch.toInt8.toInt64.toUInt64 ≠ ch.toUInt64 := by
  have hle : 128 ≤ ch.toNat := hch
  have hmsb : ch.toBitVec.msb = true := by
    rw [BitVec.msb_eq_true_iff_two_mul_ge]
    show 2 ^ 8 ≤ 2 * ch.toNat
    omega
  intro heq
  have hbits : ch.toBitVec.signExtend 64 = ch.toBitVec.setWidth 64 := UInt64.toBitVec_inj.mpr heq
  have hsign := congrArg BitVec.msb hbits
  rw [BitVec.msb_signExtend, BitVec.msb_setWidth] at hsign
  simp [hmsb] at hsign

theorem compute_hash_eq (hb : ∀ ch ∈ b, ch < 128) : String.compute_hash b = fnv1a b := by
  unfold String.compute_hash fnv1a
  refine List.foldl_ext _ _ _ fun hash ch hmem => ?_
  rw [signed_low (hb ch hmem)]

/-- The prime is odd. -/
theorem mul_prime_inj {x y : UInt64} (heq : x * 1099511628211 = y * 1099511628211) : x = y := by
  have hinv : ∀ z : UInt64, z * 1099511628211 * 14886173955864302971 = z := fun z => by
    rw [UInt64.mul_assoc]
    exact UInt64.mul_one z
  rw [← hinv x, heq, hinv y]

theorem foldl_octets_inj {x y : UInt64}
    (heq : b.foldl (fun hash octet => (hash ^^^ octet.toUInt64) * 1099511628211) x =
      b.foldl (fun hash octet => (hash ^^^ octet.toUInt64) * 1099511628211) y) : x = y := by
  induction b generalizing x y with
  | nil => exact heq
  | cons ch b ih => exact (UInt64.xor_left_inj _).mp (mul_prime_inj (ih heq))

/-- One character that is not ASCII is enough for another hash. -/
theorem compute_hash_ne (ha : ∀ ch ∈ a, ch < 128) (hch : 128 ≤ ch) (hb : ∀ ch ∈ b, ch < 128) :
    String.compute_hash (a ++ ch :: b) ≠ fnv1a (a ++ ch :: b) := by
  have hfront := compute_hash_eq ha
  unfold String.compute_hash fnv1a at *
  rw [List.foldl_append, List.foldl_append, hfront, List.foldl_cons, List.foldl_cons,
    List.foldl_ext _ _ _ fun hash d hmem => by rw [signed_low (hb d hmem)]]
  intro heq
  exact signed_high hch ((UInt64.xor_right_inj _).mp (mul_prime_inj (foldl_octets_inj heq)))

/-! ## What the calls keep -/

/-- A string of ASCII characters, with the right hash if it has one. -/
structure Fine (h : Heap) (s : Str) (b : List UInt8) : Prop extends Holds h s b where
  ascii : ∀ ch ∈ b, ch < 128
  hash : s._has_hash = true → s._hash = fnv1a b

def Others (w : World) (h : Heap) (i : ℕ) : Prop :=
  ∀ j t, j ≠ i → w.strings j = some t → ∃ b, Fine h t b

def Good (w : World) : Prop := ∀ i s, w.strings i = some s → ∃ b, Fine w.heap s b

theorem Good.others (hg : Good w) (i : ℕ) : Others w w.heap i := fun j t _ => hg j t

theorem Others.made {d : List UInt8} (ho : Others w h i) (hm : Made h h' d) : Others w h' i := by
  intro j t hne ht
  obtain ⟨b, hb⟩ := ho j t hne ht
  exact ⟨b, hb.toHolds.made hm, hb.ascii, hb.hash⟩

theorem Others.freed (ho : Others w h i) (hs : w.strings i = some s) (halone : Alone w i)
    (hf : Freed h h' s._data) : Others w h' i := by
  intro j t hne ht
  obtain ⟨b, hb⟩ := ho j t hne ht
  exact ⟨b, hb.toHolds.freed hf fun p htp hsp => hne (halone s p hs hsp j t ht htp), hb.ascii,
    hb.hash⟩

theorem Others.set (ho : Others w h i) (hs : Fine h s b) :
    Good ⟨h, Function.update w.strings i (some s)⟩ := by
  intro j t ht
  by_cases heq : j = i
  · subst heq
    obtain rfl : s = t := by simpa using ht
    exact ⟨b, hs⟩
  · exact ho j t heq (by simpa [heq] using ht)

theorem Others.unset (ho : Others w h i) : Good ⟨h, Function.update w.strings i none⟩ := by
  intro j t ht
  by_cases heq : j = i
  · simp [heq] at ht
  · exact ho j t heq (by simpa [heq] using ht)

theorem Fine.of_made (hm : Made h h' (b ++ [0])) (hb : ∀ ch ∈ b, ch < 128) {k : Bool} {x : UInt64}
    (hx : k = true → x = fnv1a b) : Fine h' ⟨b.length, some h.next, k, x⟩ b :=
  ⟨.of_made hm, hb, hx⟩

theorem Fine.get_hash (hb : Fine h s b) :
    ∃ t, StringObject.get_hash s h = .ok ((fnv1a b, t), h) ∧ Fine h t b := by
  rw [hb.toHolds.get_hash, compute_hash_eq hb.ascii]
  split
  next hkept => exact ⟨s, by rw [hb.hash hkept], hb⟩
  next => exact ⟨_, rfl, ⟨hb.size, hb.data⟩, hb.ascii, fun _ => rfl⟩

theorem Good.right (hg : Good w) : Right w := by
  constructor
  · intro i s hs
    obtain ⟨b, hb⟩ := hg i s hs
    obtain ⟨t, ht, -⟩ := hb.get_hash
    exact ⟨b, t, hb.toHolds, ht⟩
  · intro i j s t x y s' t' hs ht heq hx hy
    obtain ⟨a, ha⟩ := hg i s hs
    obtain ⟨b, hb⟩ := hg j t ht
    obtain ⟨s'', hs'', -⟩ := ha.get_hash
    obtain ⟨t'', ht'', -⟩ := hb.get_hash
    rw [ha.toHolds.equal hb.toHolds] at heq
    simp only [Except.ok.injEq, Prod.mk.injEq, decide_eq_true_eq, and_true] at heq
    subst heq
    rw [hs''] at hx
    rw [ht''] at hy
    cases hx
    cases hy
    rfl

/-! ## One rule for each call -/

/-- A string is looked up, and the rest is done with it. -/
theorem Good.string {α : Type} {f : Str → WorldOp α} {Q : α → World → Prop} (hg : Good w) (i : ℕ)
    (hf : ∀ s b, w.strings i = some s → Fine w.heap s b → Ends (f s) w Q fun _ => True) :
    Ends (StringObject.string i >>= f) w Q fun _ => True := by
  unfold StringObject.string
  rw [ends_bind, ends_bind, ends_get]
  split
  next s hs =>
    obtain ⟨b, hb⟩ := hg i s hs
    exact hf s b hs hb
  next => trivial

theorem ends_on_heap {α : Type} {x : StrOp α} {Q : α → World → Prop} :
    Ends (on_heap x) w Q (fun _ => True) ↔
      Ends x w.heap (fun a h => Q a ⟨h, w.strings⟩) fun _ => True := ends_zoom

/-- A string that is made has the hash of its characters, if it has one. -/
theorem Good.made {x : StrOp Str} (hg : Good w) (hb : ∀ ch ∈ b, ch < 128) {k : Bool} {y : UInt64}
    (hy : k = true → y = fnv1a b) (hx : Ends x w.heap (fun s h' =>
      s = ⟨b.length, some w.heap.next, k, y⟩ ∧ Made w.heap h' (b ++ [0])) fun _ => True) :
    Ends (do set_string i (← on_heap x)) w (fun _ => Good) fun _ => True := by
  rw [ends_bind, ends_on_heap]
  refine ends_mono hx ?_
  rintro _ h' ⟨rfl, hm⟩
  exact Others.set (w := ⟨h', w.strings⟩) ((hg.others i).made hm) (.of_made hm hb hy)

theorem call_good {c : Call} (hg : Good w) (hc : Kept w c) :
    Ends (call c) w (fun _ => Good) fun _ => True := by
  cases c with
  | empty i => exact hg.made (b := []) (by simp) (by simp) (ends_of_returns returns_empty)
  | of_chars i str => exact hg.made hc (by simp) (ends_of_chars str)
  | copy i j =>
    refine hg.string j fun s b hs hb => ?_
    exact hg.made hb.ascii hb.hash (ends_of_returns (returns_copy hb.toHolds))
  | move i j =>
    refine hg.string j fun s b hs hb => ?_
    have hnone : s._has_hash = false := hc s hs
    refine (hg.others i).set (b := b) ⟨⟨hb.size, hb.data⟩, hb.ascii, ?_⟩
    simp [StringObject.move, hnone]
  | concat i l r =>
    refine hg.string l fun s a hs ha => hg.string r fun t b ht hb => ?_
    refine hg.made ?_ (by simp) (ends_concat ha.toHolds hb.toHolds)
    intro ch hch
    exact (List.mem_append.mp hch).elim (ha.ascii ch) (hb.ascii ch)
  | concat_char i l r =>
    refine hg.string l fun s b hs hb => ?_
    refine hg.made ?_ (by simp) (ends_concat_char hb.toHolds)
    intro ch hch
    rcases List.mem_append.mp hch with hch | hch
    · exact hb.ascii ch hch
    · exact List.mem_singleton.mp hch ▸ hc
  | assign i j =>
    refine hg.string i fun s a hs ha => hg.string j fun t b ht hb => ?_
    refine ends_ite (fun hne => ?_) fun _ => hg
    have halone : Alone w i := hc hne
    rw [ends_bind, ends_on_heap]
    refine ends_of_returns (returns_mono (returns_assign ha.toHolds hb.toHolds ?_) ?_)
    · intro p htp hsp
      exact hne (halone s p hs hsp j t ht htp).symm
    · rintro _ h₂ ⟨h₁, hf, hm, rfl⟩
      exact Others.set (w := ⟨h₂, w.strings⟩) (((hg.others i).freed hs halone hf).made hm)
        (.of_made hm hb.ascii (by simp))
  | move_assign i j =>
    refine hg.string i fun s a hs ha => hg.string j fun t _ ht _ => ?_
    refine ends_ite (fun hne => ?_) fun _ => hg
    obtain ⟨halone, hempty⟩ := hc hne
    rw [ends_bind, ends_on_heap]
    refine ends_of_returns (returns_mono (returns_move_assign ha.toHolds) ?_)
    rintro _ h₁ ⟨rfl, hf⟩
    have hothers := (hg.others i).freed hs halone hf
    obtain ⟨b, hb⟩ := hothers j t (Ne.symm hne) ht
    have htaken := hothers.set hb
    -- the hash is still there, and it is that of no characters
    have hleft : Fine h₁ { t with _data := none, _size := 0 } [] := by
      refine ⟨⟨rfl, rfl⟩, by simp, fun hkept => ?_⟩
      have hnil : b = [] := List.eq_nil_of_length_eq_zero (hb.size ▸ hempty t ht hkept)
      exact hnil ▸ hb.hash hkept
    exact Others.set (htaken.others j) hleft
  | get_hash i =>
    refine hg.string i fun s b hs hb => ?_
    obtain ⟨t, ht, hfine⟩ := hb.get_hash
    rw [ends_bind, ends_on_heap]
    exact (ends_of_eq ht).mpr ((hg.others i).set hfine)
  | destroy i =>
    refine hg.string i fun s b hs hb => ?_
    rw [ends_bind, ends_on_heap]
    refine ends_of_returns (returns_mono (returns_destroy hb.toHolds) ?_)
    intro _ h₁ hf
    exact ((hg.others i).freed hs hc hf).unset

theorem step_good {c : Call} (hg : Good w) (hc : kept.allowed w c) (hs : kept.step w c = .ok w') :
    Good w' := by
  obtain ⟨⟨_, w''⟩, hcall, rfl⟩ := map_eq_ok hs
  exact ends_ok (call_good hg hc.2) hcall

/-- Calls that keep the hashes right end with hashes that are right. -/
theorem reachable_right (h : kept.Reachable w) : Right w := by
  refine Good.right (h.preserves ?_ fun _ _ _ hg hc hs => step_good hg hc hs)
  intro s hstart i t ht
  rw [hstart i] at ht
  cases ht

def nothing : World where
  heap := ⟨fun _ => none, 0, fun _ _ => rfl, by simp⟩
  strings _ := none

theorem reachable_right_copied :
    ∃ w, kept.Run nothing [.of_chars 0 [97, 98], .get_hash 0, .copy 1 0, .concat 2 0 1] w ∧
      Right w := by
  have hrun : ∃ w, kept.Run nothing [.of_chars 0 [97, 98], .get_hash 0, .copy 1 0, .concat 2 0 1] w :=
    ⟨_, .cons ⟨rfl, by simp [Kept]⟩ rfl (.cons ⟨trivial, trivial⟩ rfl (.cons ⟨rfl, trivial⟩ rfl
      (.cons ⟨rfl, trivial⟩ rfl (.nil _))))⟩
  obtain ⟨w, hw⟩ := hrun
  exact ⟨w, hw, reachable_right ⟨nothing, _, fun _ => rfl, hw⟩⟩

/-! ## Hashes that are wrong -/

theorem Holds.unique (ha : Holds h s a) (hb : Holds h s b) : a = b := by
  have heq := ha.chars.symm.trans hb.chars
  simpa using heq

theorem not_right {x : UInt64} (hs : w.strings i = some s) (hb : Holds w.heap s b)
    (hx : get_hash s w.heap = .ok ((x, t), w.heap)) (hne : x ≠ fnv1a b) : ¬Right w := by
  intro hr
  obtain ⟨a, t', ha, ht'⟩ := hr.hash i s hs
  obtain rfl := ha.unique hb
  rw [hx] at ht'
  cases ht'
  exact hne rfl

theorem high_not_right (hs : w.strings i = some s) (hnew : s._has_hash = false)
    (hb : Holds w.heap s (a ++ ch :: b)) (ha : ∀ ch ∈ a, ch < 128) (hch : 128 ≤ ch)
    (hlow : ∀ ch ∈ b, ch < 128) : ¬Right w := by
  have hhash := hb.get_hash
  rw [hnew, if_neg Bool.false_ne_true] at hhash
  exact not_right hs hb hhash (compute_hash_ne ha hch hlow)

/-- A character that is not ASCII, a hash that is moved, and one that is left behind. -/
theorem hashes_wrong : (∃ w, code.Run nothing [.of_chars 0 [128]] w ∧ ¬Right w) ∧
    (∃ w, code.Run nothing [.of_chars 0 [97], .get_hash 0, .move 1 0] w ∧ ¬Right w) ∧
    ∃ w, code.Run nothing [.of_chars 0 [97], .empty 1, .get_hash 0, .move_assign 1 0] w ∧
      ¬Right w := by
  refine ⟨⟨_, .cons rfl rfl (.nil _), ?_⟩,
    ⟨_, .cons rfl rfl (.cons trivial rfl (.cons rfl rfl (.nil _))), ?_⟩,
    ⟨_, .cons rfl rfl (.cons rfl rfl (.cons trivial rfl (.cons trivial rfl (.nil _)))), ?_⟩⟩
  · exact high_not_right (i := 0) (a := []) (b := []) rfl rfl ⟨rfl, rfl⟩ (by simp)
      (Nat.le_refl 128) (by simp)
  · exact not_right (i := 1) (b := [97]) rfl ⟨rfl, rfl⟩ rfl (by decide)
  · exact not_right (i := 0) (b := []) rfl ⟨rfl, rfl⟩ rfl (by decide)

end Infos.Util.StringObject
