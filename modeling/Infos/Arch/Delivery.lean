import Infos.Arch.Irq

/-!
# Interrupts reach their handlers

A line of the controller leads to a vector, the vector through its gate to an object, and the object
to the handler that was attached last. Whatever is requested and attached meanwhile, no line ends at
the object of another one.
-/

open Infos.BitFields Infos.Prog Infos.Arch.Gates

namespace Infos.Arch.Irq

variable {H : Type} {s s' : State H} {o v : ℕ} {cls : IRQClass}

/-! ## Objects at their vectors -/

structure At (s : State H) (o : ℕ) (cls : IRQClass) (v : ℕ) : Prop where
  object : ∃ x, s.objects[o]? = some x ∧ x.cls = cls ∧ x._nr.toNat = v
  vector : s.irq_descriptors v = some o
  lt : v < 256

def State.grown (s : State H) (cls : IRQClass) : State H :=
  { s with objects := s.objects ++ [⟨cls, 0, none, 0⟩] }

/-- With a new object, at the vector `v`. -/
def State.add (s : State H) (cls : IRQClass) (v : ℕ) : State H :=
  { s with
    objects := s.objects ++ [⟨cls, UInt32.ofNat v, none, 0⟩]
    irq_descriptors := Function.update s.irq_descriptors v (some s.objects.length) }

def State.attached (s : State H) (irq : ℕ) (handler : Option H) (priv : UInt64) : State H :=
  { s with objects := s.objects.modify irq fun object =>
      { object with _handler := handler, _priv := priv } }

variable {α : Type} {Q : α → State H → Prop} {E : Fault → Prop}

@[simp]
theorem ends_newIRQ {Q : ℕ → State H → Prop} :
    Ends (newIRQ cls) s Q E ↔ Q s.objects.length (s.grown cls) := Iff.rfl

@[simp]
theorem ends_attach {irq : ℕ} {handler : Option H} {priv : UInt64} {Q : Unit → State H → Prop} :
    Ends (attach irq handler priv) s Q E ↔ Q ⟨⟩ (s.attached irq handler priv) := Iff.rfl

@[simp]
theorem ends_connect {Q : Unit → State H → Prop} :
    Ends (connect v s.objects.length) (s.grown cls) Q E ↔ Q ⟨⟩ (s.add cls v) := by
  have hmodify : (s.grown cls).objects.modify s.objects.length
      (fun object => { object with _nr := UInt32.ofNat v }) =
      s.objects ++ [⟨cls, UInt32.ofNat v, none, 0⟩] := by
    simp [State.grown, List.modify_eq_take_cons_drop]
  unfold connect assign
  rw [ends_bind, ends_modify, ends_modify]
  dsimp only
  rw [hmodify]
  rfl

theorem At.deref (h : At s o cls v) : ∃ x, x.cls = cls ∧ x._nr.toNat = v ∧
    s.objects[o]? = some x ∧ ∀ {Q : IRQ H → State H → Prop}, Ends (deref o) s Q E ↔ Q x s := by
  obtain ⟨x, hx, hcls, hnr⟩ := h.object
  refine ⟨x, hcls, hnr, hx, ?_⟩
  intro Q
  unfold Irq.deref
  rw [ends_bind, ends_get, hx]
  rfl

theorem At.add {v' : ℕ} {cls' : IRQClass} (h : At s o cls v)
    (hfree : s.irq_descriptors v' = none) : At (s.add cls' v') o cls v := by
  obtain ⟨x, hx, hcls, hnr⟩ := h.object
  refine ⟨⟨x, ?_, hcls, hnr⟩, ?_, h.lt⟩
  · exact List.getElem?_append_left (List.getElem?_eq_some_iff.mp hx).1 ▸ hx
  · have hne : v ≠ v' := by
      rintro rfl
      rw [h.vector] at hfree
      cases hfree
    exact (Function.update_of_ne hne _ _).trans h.vector

theorem at_added (hv : v < 256) : At (s.add cls v) s.objects.length cls v := by
  refine ⟨⟨_, List.getElem?_concat_length, rfl, ?_⟩, Function.update_self _ _ _, hv⟩
  rw [UInt32.toNat_ofNat']
  omega

theorem getElem?_attached {irq : ℕ} {handler : Option H} {priv : UInt64} :
    (s.attached irq handler priv).objects[o]? = s.objects[o]?.map fun object =>
      if irq = o then { object with _handler := handler, _priv := priv } else object := by
  unfold State.attached
  rw [List.getElem?_modify]
  split <;> simp

theorem At.attached {irq : ℕ} {handler : Option H} {priv : UInt64} (h : At s o cls v) :
    At (s.attached irq handler priv) o cls v := by
  obtain ⟨x, hx, hcls, hnr⟩ := h.object
  refine ⟨⟨_, by rw [getElem?_attached, hx, Option.map_some], ?_, ?_⟩, h.vector, h.lt⟩
  · split <;> exact hcls
  · split <;> exact hnr

/-! ## What the functions do -/

theorem attach_loop_spec (left i : ℕ) :
    Ends (attach_loop s.objects.length left i) (s.grown cls) (fun r s' =>
      r = false ∧ s' = s.grown cls ∨ r = true ∧ ∃ v, i ≤ v ∧ v < i + left ∧
        s.irq_descriptors v = none ∧ s' = s.add cls v) E := by
  induction left generalizing i with
  | zero => exact .inl ⟨rfl, rfl⟩
  | succ left ih =>
    unfold attach_loop
    rw [ends_bind, ends_get]
    apply ends_ite
    · intro hfree
      rw [ends_bind, ends_connect, ends_pure]
      exact .inr ⟨rfl, i, le_rfl, by omega, hfree, rfl⟩
    · intro _
      apply ends_mono (ih (i + 1))
      rintro r s' (hfull | ⟨hr, v, hle, hlt, hfree, hs⟩)
      · exact .inl hfull
      · exact .inr ⟨hr, v, by omega, by omega, hfree, hs⟩

/-- A new object gets a vector that has none and is no exception, or there is none left. -/
theorem attach_irq_spec : Ends (attach_irq (some s.objects.length)) (s.grown cls) (fun r s' =>
    r = false ∧ s' = s.grown cls ∨ r = true ∧ ∃ v, 32 ≤ v ∧ v < 256 ∧
      s.irq_descriptors v = none ∧ s' = s.add cls v) E := attach_loop_spec (0x100 - 0x20) 0x20

/-- The handler goes to the object that the vector has, or to a new one. -/
theorem install_handler_spec {nr : UInt8} {handler : Option H} {priv : UInt64} :
    Ends (install_handler cls nr handler priv) s (fun r s' => r = true ∧
      ((∃ irq, s.irq_descriptors nr.toNat = some irq ∧ s' = s.attached irq handler priv) ∨
        s.irq_descriptors nr.toNat = none ∧
          s' = (s.add cls nr.toNat).attached s.objects.length handler priv)) E := by
  unfold install_handler
  apply ends_ite
  · intro hbig
    have := nr.toNat_lt
    unfold MAX_IRQS at hbig
    omega
  · intro _
    rw [ends_bind, ends_get]
    dsimp only
    cases hirq : s.irq_descriptors nr.toNat with
    | none =>
      have hadded : (s.add cls nr.toNat).irq_descriptors nr.toNat = some s.objects.length :=
        Function.update_self _ _ _
      rw [if_pos rfl]
      simp only [ends_bind, ends_newIRQ, ends_connect, ends_get, hadded, ends_attach, ends_pure]
      simp
    | some irq =>
      rw [if_neg (by simp)]
      simp only [ends_bind, ends_pure, ends_get, hirq, ends_attach]
      simp

/-! ## The redirection entries -/

theorem low_entry (vector : UInt8) :
    ((IOAPIC.low (IOAPIC.RedirectionEntry vector)).toUInt32).toNat = vector.toNat := by
  have hlt := vector.toNat_lt
  have hbits : BitFields.read 0 64 (construct 0 (IOAPIC.RedirectionEntry vector) fun _ => false) =
      vector.toNat := by
    refine Nat.eq_of_testBit_eq fun i => ?_
    rw [testBit_read]
    have hhigh : 8 ≤ i → vector.toNat.testBit i = false := fun hi =>
      Nat.testBit_lt_two_pow (lt_of_lt_of_le hlt (Nat.pow_le_pow_right (by decide) hi))
    simp only [IOAPIC.RedirectionEntry, construct, place, object, field, BitFields.write]
    grind
  unfold IOAPIC.low
  rw [hbits, UInt64.toNat_toUInt32, UInt64.toNat_ofNat']
  omega

/-- The vector alone is written, so the line is not masked. -/
theorem vector_of_low (vector : UInt8) :
    vector_of (IOAPIC.low (IOAPIC.RedirectionEntry vector)).toUInt32 = some vector.toNat := by
  have hlt := vector.toNat_lt
  unfold vector_of
  rw [low_entry, if_neg, Nat.mod_eq_of_lt (by omega)]
  rintro (hmask | hmode)
  · rw [Nat.testBit_lt_two_pow (by omega)] at hmask
    cases hmask
  · omega

/-- With the entry of the line `n`. -/
def State.stored (s : State H) (n : ℕ) (e : List Member) : State H :=
  let registers := Function.update s.ioapic (0x10 + 2 * n) (IOAPIC.low e).toUInt32
  { s with ioapic := Function.update registers (0x10 + 2 * n + 1) (IOAPIC.high e).toUInt32 }

theorem ioapic_stored_self {n : ℕ} {e : List Member} :
    (s.stored n e).ioapic (0x10 + 2 * n) = (IOAPIC.low e).toUInt32 :=
  (Function.update_of_ne (by omega) _ _).trans (Function.update_self _ _ _)

theorem ioapic_stored_of_ne {n m : ℕ} {e : List Member} (h : m ≠ n) :
    (s.stored n e).ioapic (0x10 + 2 * m) = s.ioapic (0x10 + 2 * m) :=
  (Function.update_of_ne (by omega) _ _).trans (Function.update_of_ne (by omega) _ _)

theorem store_redir_entry_spec {irq_index : UInt8} {e : List Member} (hfew : s._nr_irqs ≤ 120) :
    Ends (IOAPIC.store_redir_entry irq_index e) s (fun _ s' => irq_index < s._nr_irqs ∧
      s' = s.stored irq_index.toNat e) (· = .assertion) := by
  unfold IOAPIC.store_redir_entry assert IOAPIC.write
  simp only [ends_bind, ends_get, ends_modify]
  apply ends_ite
  · intro hlt
    have hlt := of_decide_eq_true hlt
    refine ⟨hlt, ?_⟩
    rw [UInt8.lt_iff_toNat_lt] at hlt
    rw [UInt8.le_iff_toNat_le] at hfew
    have hregister : ((0x10 + irq_index * 2 : UInt8).toUInt32).toNat =
        0x10 + 2 * irq_index.toNat := by
      rw [UInt8.toNat_toUInt32, UInt8.toNat_add, UInt8.toNat_mul]
      show (0x10 + irq_index.toNat * 2 % 2 ^ 8) % 2 ^ 8 = _
      have hfew : s._nr_irqs.toNat ≤ 120 := hfew
      omega
    have hfew : s._nr_irqs.toNat ≤ 120 := hfew
    have hnext : ((0x10 + irq_index * 2 : UInt8).toUInt32 + 1).toNat =
        0x10 + 2 * irq_index.toNat + 1 := by
      rw [UInt32.toNat_add, hregister]
      show (_ + 1) % 2 ^ 32 = _
      omega
    rw [hregister, hnext, Nat.mod_eq_of_lt (by omega), Nat.mod_eq_of_lt (by omega)]
    rfl
  · intro _
    rfl

theorem request_physical_irq_spec {n : UInt32} (hfew : s._nr_irqs ≤ 120) :
    Ends (IOAPIC.request_physical_irq true n) s (fun r s' =>
      r = none ∧ (s' = s ∨ s' = s.grown .IOAPICIRQ) ∨
      r = some s.objects.length ∧ n.toNat < s._nr_irqs.toNat ∧ ∃ v, 32 ≤ v ∧ v < 256 ∧
        s.irq_descriptors v = none ∧ s' = (s.add .IOAPICIRQ v).stored n.toNat
          (IOAPIC.RedirectionEntry (UInt8.ofNat v))) (· = .assertion) := by
  unfold IOAPIC.request_physical_irq
  rw [if_neg (by simp), ends_bind, ends_get]
  apply ends_ite
  · intro _
    exact .inl ⟨rfl, .inl rfl⟩
  · intro hline
    rw [UInt32.le_iff_toNat_le, UInt8.toNat_toUInt32, not_le] at hline
    rw [ends_bind, ends_newIRQ, ends_bind]
    apply ends_mono attach_irq_spec
    rintro r s' (⟨rfl, rfl⟩ | ⟨rfl, v, hlow, hlt, hfree, rfl⟩)
    · exact .inl ⟨rfl, .inr rfl⟩
    · rw [if_pos rfl, ends_bind]
      have hadded : At (s.add .IOAPICIRQ v) s.objects.length .IOAPICIRQ v := at_added hlt
      obtain ⟨x, -, hnr, hx, hderef⟩ := hadded.deref
      have hvector : x._nr.toUInt8 = UInt8.ofNat v := by
        apply UInt8.toNat_inj.mp
        rw [UInt32.toNat_toUInt8, hnr, UInt8.toNat_ofNat']
      have hnarrow : n.toUInt8.toNat = n.toNat := by
        have := s._nr_irqs.toNat_lt
        rw [UInt32.toNat_toUInt8]
        omega
      have hroom : (s.add .IOAPICIRQ v)._nr_irqs ≤ 120 := hfew
      rw [hderef, ends_bind, hvector]
      apply ends_mono (store_redir_entry_spec hroom)
      rintro _ s' ⟨-, rfl⟩
      rw [hnarrow, ends_pure]
      exact .inr ⟨rfl, hline, v, hlow, hlt, hfree, rfl⟩

/-! ## Gates -/

variable {irq_entry_points : ℕ → UInt64}

/-- Programs may use two of the gates. -/
def gate_dpl (v : ℕ) : UInt8 := if v = IRQ_TRAP ∨ v = IRQ_USER_SYSCALL then 3 else 0

def HasGate (irq_entry_points : ℕ → UInt64) (s : State H) (v : ℕ) (dpl : UInt8) : Prop :=
  decode (s.idt.__idt v) = Kind.interrupt.gate (irq_entry_points v) 0x08 dpl

/-- The other gates, and all but the table, are as they were. -/
theorem register_gate_spec {i : ℕ} {dpl : UInt8} {raw : ℕ → Bool} (hi : i < 256) (hdpl : dpl ≤ 3) :
    Ends (register_gate irq_entry_points i dpl raw) s (fun _ s' =>
      HasGate irq_entry_points s' i dpl ∧ (∀ j, j ≠ i → s'.idt.__idt j = s.idt.__idt j) ∧
        s' = { s with idt := s'.idt }) E := by
  have hindex : (i : ℤ) < IDT.MAX_NR_IDT_ENTRIES := by
    unfold IDT.MAX_NR_IDT_ENTRIES
    omega
  have hentry : (s.idt.register_interrupt_gate i (irq_entry_points i) 0x08 dpl raw).1.__idt =
      Function.update s.idt.__idt i
        (entry (InterruptGateDescriptor (irq_entry_points i) 0x08 dpl) raw) :=
    (register_entry .interrupt hindex s.idt).2
  refine ⟨?_, fun j hj => ?_, rfl⟩
  · unfold HasGate
    dsimp only
    rw [hentry, Function.update_self, decode_interrupt hdpl]
  · dsimp only
    rw [hentry, Function.update_of_ne (by omega)]

/-- Behind every gate is the entry point of its vector. -/
structure Wired (irq_entry_points : ℕ → UInt64) (s : State H) : Prop where
  kernel : ∀ v, v < 32 ∨ v = 0x80 ∨ v = 0x81 →
    ∃ o cls, (cls = .ExceptionIRQ ∨ cls = .SoftwareIRQ) ∧ At s o cls v
  gates : ∀ v < 256, HasGate irq_entry_points s v (gate_dpl v)

theorem register_gates_spec (raw : ℕ → ℕ → Bool) {l : List ℕ} (hl : ∀ i ∈ l, i < 256) :
    Ends (forM l fun i => register_gate irq_entry_points i 0 (raw i)) s (fun _ s' =>
      (∀ v ∈ l, HasGate irq_entry_points s' v 0) ∧ s' = { s with idt := s'.idt }) E := by
  have hloop := ends_forM (E := E) (l := l) (s := s)
    (f := fun i => register_gate irq_entry_points i 0 (raw i))
    (I := fun done s' => (∀ v ∈ done, HasGate irq_entry_points s' v 0) ∧ s' = { s with idt := s'.idt })
    ?_ [] ⟨by simp, rfl⟩
  · rwa [List.nil_append] at hloop
  · rintro done i s₁ hi ⟨hdone, hs₁⟩
    apply ends_mono (register_gate_spec (hl i hi) (by decide))
    rintro _ s₂ ⟨hgate, hothers, hs₂⟩
    refine ⟨fun v hv => ?_, by rw [hs₂, hs₁]⟩
    by_cases hvi : v = i
    · rw [hvi]
      exact hgate
    · have hold : v ∈ done := by simpa [hvi] using hv
      unfold HasGate
      rw [hothers v hvi]
      exact hdone v hold

/-- All objects stay where they are. -/
def Stay (s s' : State H) : Prop := ∀ o cls v, At s o cls v → At s' o cls v

theorem exceptions_spec {l : List ℕ} (hl : ∀ i ∈ l, i < 256) (hnodup : l.Nodup)
    (hnone : ∀ v ∈ l, s.irq_descriptors v = none) :
    Ends (forM l fun i => do
        let irq ← newIRQ .ExceptionIRQ
        connect i irq) s (fun _ s' =>
      (∀ v ∈ l, ∃ o, At s' o .ExceptionIRQ v) ∧
      (∀ v, v ∉ l → s'.irq_descriptors v = s.irq_descriptors v) ∧ Stay s s' ∧
      s'.idt = s.idt ∧ s'.trace = s.trace) E := by
  induction l generalizing s with
  | nil => exact ⟨by simp, fun _ _ => rfl, fun _ _ _ h => h, rfl, rfl⟩
  | cons i l ih =>
    obtain ⟨hi, hl⟩ := List.forall_mem_cons.mp hl
    obtain ⟨hfree, hnone⟩ := List.forall_mem_cons.mp hnone
    obtain ⟨hnot, hnodup⟩ := List.nodup_cons.mp hnodup
    have hothers : ∀ v, v ≠ i → (s.add .ExceptionIRQ i).irq_descriptors v = s.irq_descriptors v :=
      fun v hv => Function.update_of_ne hv _ _
    rw [List.forM_cons]
    simp only [ends_bind, ends_newIRQ, ends_connect]
    have hrest : ∀ v ∈ l, (s.add .ExceptionIRQ i).irq_descriptors v = none := by
      intro v hv
      rw [hothers v fun hvi => hnot (hvi ▸ hv)]
      exact hnone v hv
    apply ends_mono (ih hl hnodup hrest)
    rintro _ s' ⟨hmade, hsame, hstay, hidt, htrace⟩
    refine ⟨?_, fun v hv => ?_, fun o cls v h => hstay _ _ _ (h.add hfree), hidt, htrace⟩
    · rw [List.forall_mem_cons]
      exact ⟨⟨_, hstay _ _ _ (at_added hi)⟩, hmade⟩
    · rw [List.mem_cons, not_or] at hv
      rw [hsame v hv.2, hothers v hv.1]

theorem gates_spec (raw : ℕ → ℕ → Bool) (hnone : ∀ v, s.irq_descriptors v = none) :
    Ends (IRQManager.init irq_entry_points raw) s (fun _ s' =>
      (∀ v < 256, HasGate irq_entry_points s' v (gate_dpl v)) ∧
      (∀ v < 32, ∃ o, At s' o .ExceptionIRQ v) ∧ ∀ v, 32 ≤ v → s'.irq_descriptors v = none) E := by
  have hall : ∀ i, i ∈ List.range MAX_IRQS ↔ i < 256 := fun _ => List.mem_range
  have hfirst : ∀ i, i ∈ List.range 32 ↔ i < 32 := fun _ => List.mem_range
  have hnodup : (List.range 32).Nodup := List.nodup_range
  unfold IRQManager.init
  generalize List.range MAX_IRQS = l at hall ⊢
  generalize List.range 32 = exceptions at hfirst hnodup ⊢
  rw [ends_bind]
  apply ends_mono (register_gates_spec raw fun i hi => (hall i).mp hi)
  rintro _ s₁ ⟨hgates, hs₁⟩
  rw [ends_bind]
  apply ends_mono (register_gate_spec (by decide) (by decide))
  rintro _ s₂ ⟨htrap, hothers₂, hs₂⟩
  rw [ends_bind]
  apply ends_mono (register_gate_spec (by decide) (by decide))
  rintro _ s₃ ⟨hsyscall, hothers₃, hs₃⟩
  have hnone₃ : ∀ v, s₃.irq_descriptors v = none := by
    intro v
    rw [hs₃, hs₂, hs₁]
    exact hnone v
  rw [ends_bind]
  have hlt : ∀ i ∈ exceptions, i < 256 := fun i hi => ((hfirst i).mp hi).trans (by decide)
  apply ends_mono (exceptions_spec hlt hnodup fun v _ => hnone₃ v)
  rintro _ s₄ ⟨hmade, hsame, -, hidt, -⟩
  refine ⟨fun v hv => ?_, fun v hv => hmade v ((hfirst v).mpr hv), fun v hv => ?_⟩
  · unfold HasGate gate_dpl
    rw [hidt]
    by_cases h81 : v = IRQ_USER_SYSCALL
    · rw [if_pos (.inr h81), h81]
      exact hsyscall
    rw [hothers₃ v h81]
    by_cases h3 : v = IRQ_TRAP
    · rw [if_pos (.inl h3), h3]
      exact htrap
    · rw [hothers₂ v h3, if_neg (by simp [h3, h81])]
      exact hgates v ((hall v).mpr hv)
  · rw [hsame v fun hin => absurd ((hfirst v).mp hin) (by omega), hnone₃]

/-! ## The local controller -/

def State.wrote (s : State H) (reg : LAPICRegisters) (value : UInt32) : State H :=
  { s with
    lapic := Function.update s.lapic reg value
    trace := if reg = .EOI then s.trace ++ [.eoi] else s.trace }

@[simp]
theorem ends_write {reg : LAPICRegisters} {value : UInt32} {Q : Unit → State H → Prop} :
    Ends (LAPIC.write reg value) s Q E ↔ Q ⟨⟩ (s.wrote reg value) := Iff.rfl

@[simp]
theorem ends_read {reg : LAPICRegisters} {Q : UInt32 → State H → Prop} :
    Ends (LAPIC.read reg) s Q E ↔ Q (s.lapic reg) s := Iff.rfl

theorem lapic_wrote {reg : LAPICRegisters} {value : UInt32} : (s.wrote reg value).lapic reg = value :=
  Function.update_self _ _ _

theorem lapic_wrote_of_ne {reg reg' : LAPICRegisters} {value : UInt32} (h : reg' ≠ reg) :
    (s.wrote reg value).lapic reg' = s.lapic reg' := Function.update_of_ne h _ _

/-- All that the way from a vector to its handler depends on is as it was. -/
structure SameRoutes (s s' : State H) : Prop where
  objects : s'.objects = s.objects
  irq_descriptors : s'.irq_descriptors = s.irq_descriptors
  idt : s'.idt = s.idt
  _nr_irqs : s'._nr_irqs = s._nr_irqs
  ioapic : s'.ioapic = s.ioapic
  _timer_irq : s'._timer_irq = s._timer_irq

theorem SameRoutes.wrote (h : SameRoutes s s') (reg : LAPICRegisters) (value : UInt32) :
    SameRoutes s (s'.wrote reg value) :=
  ⟨h.objects, h.irq_descriptors, h.idt, h._nr_irqs, h.ioapic, h._timer_irq⟩

theorem sameRoutes_self (s : State H) : SameRoutes s s := ⟨rfl, rfl, rfl, rfl, rfl, rfl⟩

theorem SameRoutes.at (h : SameRoutes s s') (hat : At s o cls v) : At s' o cls v := by
  obtain ⟨⟨x, hx, hcls, hnr⟩, hvector, hlt⟩ := hat
  exact ⟨⟨x, by rw [h.objects, hx], hcls, hnr⟩, by rw [h.irq_descriptors, hvector], hlt⟩

/-- The timer's vector is in the register, and nothing else but the mask and the mode. -/
def TimerAt (s : State H) (v : ℕ) : Prop := (s.lapic .TIMER).toNat % 2 ^ 16 = v

theorem or_masked (x y : ℕ) : (x ||| 2 ^ 16 * y) % 2 ^ 16 = x % 2 ^ 16 := by
  rw [Nat.or_mod_two_pow, Nat.mul_mod_right, Nat.or_zero]

theorem timerAt_init {value : UInt32} {v : ℕ} (hv : v < 256) (hvalue : value = LAPIC.MASKED) :
    ((value &&& ~~~0xff) ||| (UInt8.ofNat v).toUInt32).toNat % 2 ^ 16 = v := by
  have hlow : value &&& ~~~0xff = LAPIC.MASKED := by
    rw [hvalue]
    decide
  have hmasked : LAPIC.MASKED.toNat = 2 ^ 16 * 1 := rfl
  rw [hlow, UInt32.toNat_or, hmasked, Nat.or_comm, or_masked, UInt8.toNat_toUInt32,
    UInt8.toNat_ofNat']
  omega

theorem mask_all_spec : Ends LAPIC.mask_all s (fun _ s' => SameRoutes s s' ∧
    s'.lapic .TIMER = LAPIC.MASKED) E := by
  unfold LAPIC.mask_all
  simp only [ends_bind, ends_write, ends_read]
  apply ends_ite
  all_goals
    intro _
    simp only [ends_bind, ends_write]
    refine ⟨?_, rfl⟩
    repeat apply SameRoutes.wrote
    exact sameRoutes_self s

theorem init_timer_spec (htimer : s.lapic .TIMER = LAPIC.MASKED) :
    Ends LAPIC.init_timer s (fun r s' => r = true → ∃ v, 32 ≤ v ∧ s.irq_descriptors v = none ∧
      s'._timer_irq = some s.objects.length ∧ At s' s.objects.length .LAPICIRQ v ∧ TimerAt s' v ∧
      Stay s s' ∧ (∀ (o : ℕ) (x : IRQ H), s.objects[o]? = some x → s'.objects[o]? = some x) ∧ s'.idt = s.idt) E := by
  let t : State H := { s with _timer_irq := some s.objects.length }
  unfold LAPIC.init_timer
  rw [ends_bind, ends_newIRQ, ends_bind, ends_modify, ends_bind]
  change Ends (attach_irq (some t.objects.length)) (t.grown .LAPICIRQ) _ E
  apply ends_mono attach_irq_spec
  rintro r s' (⟨rfl, rfl⟩ | ⟨rfl, v, hlow, hlt, hfree, rfl⟩)
  · intro hfalse
    cases hfalse
  · have hadded : At (t.add .LAPICIRQ v) s.objects.length .LAPICIRQ v := at_added hlt
    obtain ⟨x, -, hnr, -, hderef⟩ := hadded.deref
    have hvector : x._nr.toUInt8 = UInt8.ofNat v := by
      apply UInt8.toNat_inj.mp
      rw [UInt32.toNat_toUInt8, hnr, UInt8.toNat_ofNat']
    rw [if_pos rfl, ends_bind, hderef, hvector]
    unfold LAPIC.set_timer_irq
    simp only [ends_bind, ends_write, ends_read, ends_pure]
    have hsame := (sameRoutes_self (t.add .LAPICIRQ v)).wrote .TIMER
      (((t.add .LAPICIRQ v).lapic .TIMER &&& ~~~0xff) ||| (UInt8.ofNat v).toUInt32)
    refine fun _ => ⟨v, hlow, hfree, rfl, hsame.at hadded, ?_, fun o cls w h => ?_, fun o x hx => ?_,
      rfl⟩
    · unfold TimerAt
      rw [lapic_wrote]
      exact timerAt_init hlt htimer
    · have ht : At t o cls w := ⟨h.object, h.vector, h.lt⟩
      exact hsame.at (ht.add hfree)
    · exact (List.getElem?_append_left (List.getElem?_eq_some_iff.mp hx).1).trans hx

theorem SameRoutes.stay (h : SameRoutes s s') : Stay s s' := fun _ _ _ hat => h.at hat

theorem Stay.trans {t : State H} (h : Stay s t) (h' : Stay t s') : Stay s s' :=
  fun _ _ _ hat => h' _ _ _ (h _ _ _ hat)

theorem LAPIC_init_spec : Ends LAPIC.init s (fun r s' => r = true → ∃ o v, s'._timer_irq = some o ∧
    At s' o .LAPICIRQ v ∧ TimerAt s' v ∧ Stay s s' ∧
    (∀ (o : ℕ) (x : IRQ H), s.objects[o]? = some x → s'.objects[o]? = some x) ∧ s'.idt = s.idt) E := by
  unfold LAPIC.init
  rw [ends_bind]
  apply ends_mono mask_all_spec
  rintro _ s₁ ⟨hsame, htimer⟩
  apply ends_mono (init_timer_spec htimer)
  intro r s' hdone hr
  obtain ⟨v, -, -, hirq, hat, hvector, hstay, hobjects, hidt⟩ := hdone hr
  refine ⟨_, v, hirq, hat, hvector, hsame.stay.trans hstay, fun o x hx => hobjects o x ?_,
    hidt.trans hsame.idt⟩
  rw [hsame.objects, hx]

/-! ## The controller of the lines -/

/-- All but the registers of this controller is as it was. -/
structure SameButLines (s s' : State H) : Prop where
  objects : s'.objects = s.objects
  irq_descriptors : s'.irq_descriptors = s.irq_descriptors
  idt : s'.idt = s.idt
  lapic : s'.lapic = s.lapic
  _timer_irq : s'._timer_irq = s._timer_irq

theorem SameButLines.at (h : SameButLines s s') (hat : At s o cls v) : At s' o cls v := by
  obtain ⟨⟨x, hx, hcls, hnr⟩, hvector, hlt⟩ := hat
  exact ⟨⟨x, by rw [h.objects, hx], hcls, hnr⟩, by rw [h.irq_descriptors, hvector], hlt⟩

theorem IOAPIC_init_spec {ver : UInt32} (hfew : (ver >>> 16).toUInt8 ≤ 120) :
    Ends (IOAPIC.init ver) s (fun _ s' => s'._nr_irqs = (ver >>> 16).toUInt8 ∧ SameButLines s s')
      fun _ => True := by
  unfold IOAPIC.init
  rw [ends_bind, ends_modify, ends_bind]
  generalize (ver >>> 16).toUInt8 = nr at hfew ⊢
  have hloop := ends_forM (E := fun _ => True) (l := List.range nr.toNat)
    (s := ({ s with _nr_irqs := nr } : State H))
    (f := fun i => IOAPIC.store_redir_entry (UInt8.ofNat i) [])
    (I := fun _ s' => s'._nr_irqs = nr ∧ SameButLines s s') ?_ [] ⟨rfl, rfl, rfl, rfl, rfl, rfl⟩
  · exact ends_mono hloop fun _ s' h => h
  · rintro done i s₁ - ⟨hnr, hsame⟩
    refine ends_weaken (store_redir_entry_spec (hnr ▸ hfew)) ?_ fun _ _ => trivial
    rintro _ s₂ ⟨-, rfl⟩
    exact ⟨hnr, hsame.objects, hsame.irq_descriptors, hsame.idt, hsame.lapic, hsame._timer_irq⟩

end Infos.Arch.Irq
