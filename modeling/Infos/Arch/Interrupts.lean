import Infos.Arch.Delivery
import Mathlib.Data.List.Nodup

/-!
# Whole runs of the interrupts

Drivers request lines and attach handlers, the timer is set, and interrupts come, in any order.
-/

open Infos.BitFields Infos.Prog Infos.Arch.Gates

namespace Infos.Arch.Irq

variable {H : Type}

/-! ## The machine -/

/-- The entry points are apart, and the index register of the controller reaches all its lines. -/
structure Board where
  irq_entry_points : ℕ → UInt64
  distinct : ∀ i < 256, ∀ j < 256, irq_entry_points i = irq_entry_points j → i = j
  ver : UInt32
  few : (ver >>> 16).toUInt8 ≤ 120

/-- `requested` has the object that each request of a line gave, `handed` what was attached to each
object, and `installed` what was installed for each vector, the latest first. -/
structure Wires (H : Type) where
  kernel : State H
  requested : List (ℕ × ℕ)
  handed : List (ℕ × Option H × UInt64)
  installed : List (ℕ × Option H × UInt64)

inductive Event (H : Type)
  | install_exception_handler (nr : UInt8) (handler : Option H) (priv : UInt64)
  | install_software_handler (nr : UInt8) (handler : Option H) (priv : UInt64)
  | request_physical_irq (phys_irq_nr : UInt32)
  | attach (irq : ℕ) (handler : Option H) (priv : UInt64)
  | enable
  | disable
  | set_timer_periodic
  | set_timer_one_shot
  | line (n : ℕ)
  | timer
  | exception (vector : ℕ)
  | int (cpl vector : ℕ)

/-- What only changes the kernel. -/
def Wires.run {α : Type} (w : Wires H) (x : Op H α) : Except Fault (Wires H) :=
  (x w.kernel).map fun r => { w with kernel := r.2 }

def Event.step (B : Board) (w : Wires H) : Event H → Except Fault (Wires H)
  | .install_exception_handler nr handler priv =>
    (Irq.install_exception_handler nr handler priv w.kernel).map fun r =>
      { w with kernel := r.2, installed := (nr.toNat, handler, priv) :: w.installed }
  | .install_software_handler nr handler priv =>
    (Irq.install_software_handler nr handler priv w.kernel).map fun r =>
      { w with kernel := r.2, installed := (nr.toNat, handler, priv) :: w.installed }
  | .request_physical_irq n =>
    (IOAPIC.request_physical_irq true n w.kernel).map fun r =>
      match r.1 with
      | some irq => { w with kernel := r.2, requested := (n.toNat, irq) :: w.requested }
      | none => { w with kernel := r.2 }
  | .attach irq handler priv =>
    (Irq.attach irq handler priv w.kernel).map fun r =>
      { w with kernel := r.2, handed := (irq, handler, priv) :: w.handed }
  | .enable => w.run LAPIC.enable
  | .disable => w.run LAPIC.disable
  | .set_timer_periodic => w.run LAPIC.set_timer_periodic
  | .set_timer_one_shot => w.run LAPIC.set_timer_one_shot
  | .line n => w.run (Irq.line B.irq_entry_points n)
  | .timer => w.run (Irq.timer B.irq_entry_points)
  | .exception vector => w.run (interrupt B.irq_entry_points vector)
  | .int cpl vector => w.run (Irq.int B.irq_entry_points cpl vector)

/-- Handlers are installed for exceptions and system calls, and attached to what a driver has been
given. -/
def Event.Allowed (w : Wires H) : Event H → Prop
  | .install_exception_handler nr _ _ => nr.toNat < 32
  | .install_software_handler nr _ _ => nr.toNat = 0x80 ∨ nr.toNat = 0x81
  | .attach irq _ _ => irq ∈ w.requested.map Prod.snd ∨ w.kernel._timer_irq = some irq
  | _ => True

/-- What `start_irqs` installs. -/
def Handlers.installed (handlers : Handlers H) : List (ℕ × Option H × UInt64) :=
  [(0x0e, some handlers.handle_page_fault, 0), (0x81, some handlers.user_syscall_handler, 0),
    (0x80, some handlers.kernel_syscall_handler, 0), (0x03, some handlers.trap_interrupt, 0),
    (0x0d, some handlers.general_protection_fault, 0)]

def irqs (H : Type) (B : Board) : System (Wires H) (Event H) Fault where
  start w := w.requested = [] ∧ w.handed = [] ∧ ∃ raw handlers s₀,
    (∀ v, s₀.irq_descriptors v = none) ∧ w.installed = handlers.installed ∧
      start_irqs B.irq_entry_points raw B.ver handlers s₀ = .ok (true, w.kernel)
  allowed := Event.Allowed
  step := Event.step B

/-! ## The invariant -/

def IRQClass.Device (cls : IRQClass) : Prop := cls = .IOAPICIRQ ∨ cls = .LAPICIRQ

def IRQClass.Kernel (cls : IRQClass) : Prop := cls = .ExceptionIRQ ∨ cls = .SoftwareIRQ

theorem IRQClass.Kernel.not_device {cls : IRQClass} (h : cls.Kernel) : ¬ cls.Device := by
  rintro (rfl | rfl) <;> rcases h with h | h <;> cases h

/-- An object of such a class has the handler. -/
def Has (s : State H) (p : IRQClass → Prop) (o : ℕ) (a : Option H × UInt64) : Prop :=
  ∃ x, s.objects[o]? = some x ∧ p x.cls ∧ (x._handler, x._priv) = a

/-- The vectors have the handlers that were installed. -/
def HasInstalled (s : State H) (installed : List (ℕ × Option H × UInt64)) : Prop :=
  ∀ v a, installed.lookup v = some a → ∃ o cls, At s o cls v ∧ Has s IRQClass.Kernel o a

structure Delivers (B : Board) (w : Wires H) : Prop where
  wired : Wired B.irq_entry_points w.kernel
  few : w.kernel._nr_irqs ≤ 120
  lines : ∀ n o, w.requested.lookup n = some o → n < w.kernel._nr_irqs.toNat ∧
    ∃ v, At w.kernel o .IOAPICIRQ v ∧ vector_of (w.kernel.ioapic (0x10 + 2 * n)) = some v
  given : ∀ r ∈ w.requested, ∃ v, At w.kernel r.2 .IOAPICIRQ v
  nodup : (w.requested.map Prod.snd).Nodup
  timer : ∃ o v, w.kernel._timer_irq = some o ∧ At w.kernel o .LAPICIRQ v ∧ TimerAt w.kernel v
  handed : ∀ o a, w.handed.lookup o = some a → Has w.kernel IRQClass.Device o a
  installed : HasInstalled w.kernel w.installed

variable {B : Board} {w w' : Wires H} {s s' : State H} {o v n : ℕ} {cls : IRQClass}

theorem Stay.wired (h : Stay s s') (hidt : s'.idt = s.idt) (hw : Wired B.irq_entry_points s) :
    Wired B.irq_entry_points s' where
  kernel v hv := by
    obtain ⟨o, cls, hcls, hat⟩ := hw.kernel v hv
    exact ⟨o, cls, hcls, h _ _ _ hat⟩
  gates v hv := by
    unfold HasGate
    rw [hidt]
    exact hw.gates v hv

/-- The objects of such classes are as they were. -/
def Keeps (s s' : State H) (p : IRQClass → Prop) : Prop :=
  ∀ (o : ℕ) (x : IRQ H), s.objects[o]? = some x → p x.cls → s'.objects[o]? = some x

theorem Keeps.has {p : IRQClass → Prop} {a : Option H × UInt64} (h : Keeps s s' p)
    (hx : Has s p o a) : Has s' p o a := by
  obtain ⟨x, hx, hcls, hsame⟩ := hx
  exact ⟨x, h o x hx hcls, hcls, hsame⟩

theorem Keeps.hasInstalled {l : List (ℕ × Option H × UInt64)} (h : Keeps s s' IRQClass.Kernel)
    (hstay : Stay s s') (hl : HasInstalled s l) : HasInstalled s' l := by
  intro v a ha
  obtain ⟨o, cls, hat, hx⟩ := hl v a ha
  exact ⟨o, cls, hstay o cls v hat, h.has hx⟩

/-- All routes stay, and the objects have the handlers that the lists say. -/
theorem Delivers.stay (hd : Delivers B w) (h : Stay w.kernel s') (hidt : s'.idt = w.kernel.idt)
    (hnr : s'._nr_irqs = w.kernel._nr_irqs) (hioapic : s'.ioapic = w.kernel.ioapic)
    (hirq : s'._timer_irq = w.kernel._timer_irq)
    (htimer : ∀ v, TimerAt w.kernel v → TimerAt s' v)
    {handed installed : List (ℕ × Option H × UInt64)}
    (hhanded : ∀ o a, handed.lookup o = some a → Has s' IRQClass.Device o a)
    (hinstalled : HasInstalled s' installed) :
    Delivers B ⟨s', w.requested, handed, installed⟩ where
  wired := h.wired hidt hd.wired
  few := by
    show s'._nr_irqs ≤ 120
    rw [hnr]
    exact hd.few
  lines n o hn := by
    obtain ⟨hlt, v, hat, hvector⟩ := hd.lines n o hn
    refine ⟨?_, v, h _ _ _ hat, ?_⟩
    · show n < s'._nr_irqs.toNat
      rwa [hnr]
    · show vector_of (s'.ioapic _) = _
      rwa [hioapic]
  given r hr := (hd.given r hr).imp fun _ hat => h _ _ _ hat
  nodup := hd.nodup
  timer := by
    obtain ⟨o, v, ho, hat, hvector⟩ := hd.timer
    exact ⟨o, v, hirq.trans ho, h _ _ _ hat, htimer v hvector⟩
  handed := hhanded
  installed := hinstalled

theorem Delivers.same (hd : Delivers B w) (h : SameRoutes w.kernel s')
    (htimer : ∀ v, TimerAt w.kernel v → TimerAt s' v) : Delivers B { w with kernel := s' } := by
  have hkeeps : ∀ p, Keeps w.kernel s' p := by
    intro p o x hx _
    rwa [h.objects]
  apply hd.stay h.stay h.idt h._nr_irqs h.ioapic h._timer_irq htimer
  · exact fun o a ha => (hkeeps _).has (hd.handed o a ha)
  · exact (hkeeps _).hasInstalled h.stay hd.installed

/-! ## Interrupts change nothing but what is done -/

/-- As from `s`, and with the timer's register unchanged. -/
def Unmoved (s s' : State H) : Prop := SameRoutes s s' ∧ s'.lapic .TIMER = s.lapic .TIMER

theorem unmoved_self (s : State H) : Unmoved s s := ⟨sameRoutes_self s, rfl⟩

theorem maintains_eoi : Maintains LAPIC.eoi (Unmoved s) := by
  intro t ht
  unfold LAPIC.eoi
  rw [ends_write]
  exact ⟨ht.1.wrote _ _, (lapic_wrote_of_ne (by decide)).trans ht.2⟩

theorem maintains_deref (o : ℕ) : Maintains (deref o) (Unmoved s) := by
  unfold deref
  apply maintains_bind maintains_get
  intro t
  split
  · exact maintains_pure _
  · exact maintains_throw _

theorem maintains_invoke (o : ℕ) : Maintains (invoke o) (Unmoved s) := by
  unfold invoke
  apply maintains_bind (maintains_deref o)
  intro x
  split
  · apply maintains_bind
    · apply maintains_modify
      rintro t ⟨⟨h₁, h₂, h₃, h₄, h₅, h₆⟩, htimer⟩
      exact ⟨⟨h₁, h₂, h₃, h₄, h₅, h₆⟩, htimer⟩
    · exact fun _ => maintains_pure _
  · exact maintains_pure _

theorem maintains_handle (o : ℕ) : Maintains (handle o) (Unmoved s) := by
  unfold handle
  apply maintains_bind (maintains_deref o)
  intro x
  have hhalt : Maintains (do if !(← invoke o) then throw .abort : Op H Unit) (Unmoved s) := by
    apply maintains_bind (maintains_invoke o)
    intro r
    exact maintains_ite (maintains_throw _) (maintains_pure _)
  split
  · exact hhalt
  · exact hhalt
  · exact maintains_bind (maintains_invoke o) fun _ => maintains_eoi
  · apply maintains_bind (maintains_invoke o)
    intro r
    exact maintains_ite maintains_eoi (maintains_throw _)

theorem maintains_handle_raw_irq (irq_nr : UInt32) : Maintains (__handle_raw_irq irq_nr) (Unmoved s) := by
  unfold __handle_raw_irq assert
  apply maintains_bind (maintains_ite (maintains_pure _) (maintains_throw _))
  intro _
  apply maintains_bind maintains_get
  intro t
  split
  · exact maintains_handle _
  · exact maintains_pure _

theorem maintains_interrupt (entries : ℕ → UInt64) (vector : ℕ) :
    Maintains (interrupt entries vector) (Unmoved s) := by
  unfold interrupt
  apply maintains_bind maintains_get
  intro t
  apply maintains_ite
  · split
    · exact maintains_handle_raw_irq _
    · exact maintains_throw _
  · exact maintains_throw _

theorem maintains_int (entries : ℕ → UInt64) (cpl vector : ℕ) :
    Maintains (int entries cpl vector) (Unmoved s) := by
  unfold int
  apply maintains_bind maintains_get
  intro t
  exact maintains_ite (maintains_interrupt _ _) (maintains_interrupt _ _)

theorem maintains_line (entries : ℕ → UInt64) (n : ℕ) : Maintains (line entries n) (Unmoved s) := by
  unfold line
  apply maintains_bind maintains_get
  intro t
  split
  · exact maintains_interrupt _ _
  · exact maintains_pure _

theorem maintains_timer (entries : ℕ → UInt64) : Maintains (timer entries) (Unmoved s) := by
  unfold timer
  apply maintains_bind maintains_get
  intro t
  split
  · exact maintains_interrupt _ _
  · exact maintains_pure _

/-! ## What the events do -/

theorem stay_attached {irq : ℕ} {handler : Option H} {priv : UInt64} :
    Stay s (s.attached irq handler priv) := fun _ _ _ hat => hat.attached

/-- Only the one object has another handler. -/
theorem keeps_attached {irq : ℕ} {handler : Option H} {priv : UInt64} {p : IRQClass → Prop}
    (hat : At s irq cls v) (hp : ¬ p cls) : Keeps s (s.attached irq handler priv) p := by
  intro o x hx hpx
  have hne : irq ≠ o := by
    rintro rfl
    obtain ⟨y, hy, rfl, -⟩ := hat.object
    obtain rfl := Option.some.inj (hx.symm.trans hy)
    exact hp hpx
  rw [getElem?_attached, hx]
  simp [hne]

theorem has_attached {irq : ℕ} {handler : Option H} {priv : UInt64} {p : IRQClass → Prop}
    (hat : At s irq cls v) (hp : p cls) : Has (s.attached irq handler priv) p irq (handler, priv) := by
  obtain ⟨x, hx, rfl, -⟩ := hat.object
  refine ⟨{ x with _handler := handler, _priv := priv }, ?_, hp, rfl⟩
  rw [getElem?_attached, hx]
  simp

/-- Another object has the handler that it had. -/
theorem has_attached_of_ne {irq : ℕ} {handler : Option H} {priv : UInt64} {p : IRQClass → Prop}
    {a : Option H × UInt64} (hne : o ≠ irq) (hx : Has s p o a) :
    Has (s.attached irq handler priv) p o a := by
  obtain ⟨x, hx, hrest⟩ := hx
  refine ⟨x, ?_, hrest⟩
  rw [getElem?_attached, hx]
  simp [hne.symm]

theorem At.unique {cls' : IRQClass} {u : ℕ} (h : At s o cls v) (h' : At s o cls' u) : v = u := by
  obtain ⟨x, hx, -, rfl⟩ := h.object
  obtain ⟨y, hy, -, rfl⟩ := h'.object
  obtain rfl := Option.some.inj (hx.symm.trans hy)
  rfl

/-- A handler that is installed for the vector of the object. -/
theorem hasInstalled_cons {l : List (ℕ × Option H × UInt64)} {irq : ℕ} {handler : Option H}
    {priv : UInt64} (hat : At s irq cls v) (hcls : cls.Kernel) (hl : HasInstalled s l) :
    HasInstalled (s.attached irq handler priv) ((v, handler, priv) :: l) := by
  intro u a ha
  rw [List.lookup_cons] at ha
  split at ha
  next heq =>
    obtain rfl : u = v := by simpa using heq
    obtain rfl := Option.some.inj ha
    exact ⟨irq, cls, hat.attached, has_attached hat hcls⟩
  next hne =>
    obtain ⟨o, cls', hat', hx⟩ := hl u a ha
    refine ⟨o, cls', hat'.attached, has_attached_of_ne ?_ hx⟩
    rintro rfl
    simp [hat.unique hat'] at hne

theorem Delivers.install_handler (hd : Delivers B w) {nr : UInt8}
    (hnr : nr.toNat < 32 ∨ nr.toNat = 0x80 ∨ nr.toNat = 0x81) (handler : Option H) (priv : UInt64) :
    Ends (Irq.install_handler cls nr handler priv) w.kernel (fun _ s' => Delivers B
      { w with kernel := s', installed := (nr.toNat, handler, priv) :: w.installed })
      fun _ => True := by
  obtain ⟨irq, cls', hcls, hat⟩ := hd.wired.kernel _ hnr
  apply ends_mono install_handler_spec
  rintro _ s' ⟨-, ⟨irq', hirq', rfl⟩ | ⟨hnone, -⟩⟩
  · obtain rfl : irq = irq' := Option.some.inj (hat.vector.symm.trans hirq')
    apply hd.stay stay_attached rfl rfl rfl rfl fun _ h => h
    · exact fun o a ha => (keeps_attached hat (IRQClass.Kernel.not_device hcls)).has (hd.handed o a ha)
    · exact hasInstalled_cons hat hcls hd.installed
  · rw [hat.vector] at hnone
    cases hnone

theorem Delivers.attach (hd : Delivers B w) {irq : ℕ} {handler : Option H} {priv : UInt64}
    (hirq : irq ∈ w.requested.map Prod.snd ∨ w.kernel._timer_irq = some irq) :
    Delivers B ⟨w.kernel.attached irq handler priv, w.requested,
      (irq, handler, priv) :: w.handed, w.installed⟩ := by
  have hdevice : ∃ cls v, cls.Device ∧ At w.kernel irq cls v := by
    rcases hirq with hmem | htimer
    · obtain ⟨r, hr, rfl⟩ := List.mem_map.mp hmem
      obtain ⟨v, hat⟩ := hd.given r hr
      exact ⟨_, v, .inl rfl, hat⟩
    · obtain ⟨o, v, ho, hat, -⟩ := hd.timer
      obtain rfl : o = irq := Option.some.inj (ho.symm.trans htimer)
      exact ⟨_, v, .inr rfl, hat⟩
  obtain ⟨cls, v, hcls, hat⟩ := hdevice
  apply hd.stay stay_attached rfl rfl rfl rfl fun _ h => h
  · intro o a ha
    rw [List.lookup_cons] at ha
    split at ha
    next heq =>
      obtain rfl : o = irq := by simpa using heq
      obtain rfl := Option.some.inj ha
      exact has_attached hat hcls
    next hne => exact has_attached_of_ne (by simpa using hne) (hd.handed o a ha)
  · have hkeeps : Keeps w.kernel (w.kernel.attached irq handler priv) IRQClass.Kernel :=
      keeps_attached hat fun h => h.not_device hcls
    exact hkeeps.hasInstalled stay_attached hd.installed

theorem Delivers.grown (hd : Delivers B w) :
    Delivers B { w with kernel := w.kernel.grown cls } := by
  have hold : ∀ {o x}, w.kernel.objects[o]? = some x → (w.kernel.grown cls).objects[o]? = some x :=
    fun hx => (List.getElem?_append_left (List.getElem?_eq_some_iff.mp hx).1).trans hx
  have hstay : Stay w.kernel (w.kernel.grown cls) := by
    rintro o cls v ⟨⟨x, hx, hrest⟩, hvector, hlt⟩
    exact ⟨⟨x, hold hx, hrest⟩, hvector, hlt⟩
  have hkeeps : ∀ p, Keeps w.kernel (w.kernel.grown cls) p := fun _ _ _ hx _ => hold hx
  apply hd.stay hstay rfl rfl rfl rfl fun _ h => h
  · exact fun o a ha => (hkeeps _).has (hd.handed o a ha)
  · exact (hkeeps _).hasInstalled hstay hd.installed

/-- The line has a new object, at a vector of its own. -/
theorem Delivers.connected (hd : Delivers B w) (hn : n < w.kernel._nr_irqs.toNat) (hv : v < 256)
    (hfree : w.kernel.irq_descriptors v = none) :
    Delivers B ⟨(w.kernel.add .IOAPICIRQ v).stored n (IOAPIC.RedirectionEntry (UInt8.ofNat v)),
      (n, w.kernel.objects.length) :: w.requested, w.handed, w.installed⟩ := by
  set s := (w.kernel.add .IOAPICIRQ v).stored n (IOAPIC.RedirectionEntry (UInt8.ofNat v)) with hs
  have hlines : SameButLines (w.kernel.add .IOAPICIRQ v) s := ⟨rfl, rfl, rfl, rfl, rfl⟩
  have hstay : Stay w.kernel s := fun o cls v hat => hlines.at (hat.add hfree)
  have hnew : At s w.kernel.objects.length .IOAPICIRQ v := hlines.at (at_added hv)
  have hold : ∀ {o x}, w.kernel.objects[o]? = some x → s.objects[o]? = some x := fun hx =>
    (List.getElem?_append_left (List.getElem?_eq_some_iff.mp hx).1).trans hx
  have hkeeps : ∀ p, Keeps w.kernel s p := fun _ _ _ hx _ => hold hx
  refine ⟨hstay.wired rfl hd.wired, hd.few, fun m o hm => ?_, ?_, ?_, ?_,
    fun o a ha => (hkeeps _).has (hd.handed o a ha),
    (hkeeps _).hasInstalled hstay hd.installed⟩
  · rw [List.lookup_cons] at hm
    split at hm
    next heq =>
      obtain rfl : m = n := by simpa using heq
      obtain rfl := Option.some.inj hm
      refine ⟨hn, v, hnew, ?_⟩
      show vector_of (s.ioapic _) = _
      rw [hs, ioapic_stored_self, vector_of_low, UInt8.toNat_ofNat', Nat.mod_eq_of_lt hv]
    next hne =>
      have hmn : m ≠ n := by simpa using hne
      obtain ⟨hlt, v', hat, hvector⟩ := hd.lines m o hm
      refine ⟨hlt, v', hstay _ _ _ hat, ?_⟩
      show vector_of (s.ioapic _) = _
      rw [hs, ioapic_stored_of_ne hmn]
      exact hvector
  · rw [List.forall_mem_cons]
    exact ⟨⟨v, hnew⟩, fun r hr => (hd.given r hr).imp fun _ hat => hstay _ _ _ hat⟩
  · show (w.kernel.objects.length :: w.requested.map Prod.snd).Nodup
    refine List.nodup_cons.mpr ⟨fun hin => ?_, hd.nodup⟩
    obtain ⟨r, hr, hlen⟩ := List.mem_map.mp hin
    obtain ⟨v', ⟨x, hx, -⟩, -⟩ := hd.given r hr
    rw [hlen] at hx
    exact absurd (List.getElem?_eq_some_iff.mp hx).1 (lt_irrefl _)
  · obtain ⟨o, v', ho, hat, hvector⟩ := hd.timer
    exact ⟨o, v', ho, hstay _ _ _ hat, hvector⟩

/-! ## The timer's register -/

theorem or_flag {value : UInt32} (h : value.toNat % 2 ^ 16 = 0) (reg : UInt32) :
    (reg ||| value).toNat % 2 ^ 16 = reg.toNat % 2 ^ 16 := by
  rw [UInt32.toNat_or, Nat.or_mod_two_pow, h, Nat.or_zero]

theorem and_flag {value : UInt32} (h : (~~~value).toNat % 2 ^ 16 = 2 ^ 16 - 1) (reg : UInt32) :
    (reg &&& ~~~value).toNat % 2 ^ 16 = reg.toNat % 2 ^ 16 := by
  rw [UInt32.toNat_and, Nat.and_mod_two_pow, h, Nat.and_two_pow_sub_one_eq_mod, Nat.mod_mod]

/-- A new value of the register that has the vector of the old one. -/
theorem Delivers.timer_register (hd : Delivers B w) {value : UInt32}
    (h : value.toNat % 2 ^ 16 = (w.kernel.lapic .TIMER).toNat % 2 ^ 16) :
    Delivers B { w with kernel := w.kernel.wrote .TIMER value } := by
  apply hd.same ((sameRoutes_self _).wrote _ _)
  intro v hv
  unfold TimerAt at *
  rw [lapic_wrote, h, hv]

theorem Delivers.set_flag (hd : Delivers B w) {value : UInt32} (h : value.toNat % 2 ^ 16 = 0) :
    Ends (LAPIC.set_flag .TIMER value) w.kernel (fun _ s' => Delivers B { w with kernel := s' })
      fun _ => True := by
  unfold LAPIC.set_flag
  simp only [ends_bind, ends_read, ends_write]
  exact hd.timer_register (or_flag h _)

theorem Delivers.clear_flag (hd : Delivers B w) {value : UInt32}
    (h : (~~~value).toNat % 2 ^ 16 = 2 ^ 16 - 1) :
    Ends (LAPIC.clear_flag .TIMER value) w.kernel (fun _ s' => Delivers B { w with kernel := s' })
      fun _ => True := by
  unfold LAPIC.clear_flag
  simp only [ends_bind, ends_read, ends_write]
  exact hd.timer_register (and_flag h _)

/-! ## Whole runs -/

theorem Delivers.run {α : Type} {x : Op H α} (h : Ends x w.kernel
    (fun _ s' => Delivers B { w with kernel := s' }) fun _ => True) (hr : w.run x = .ok w') :
    Delivers B w' := by
  obtain ⟨⟨a, s'⟩, he, rfl⟩ := map_eq_ok hr
  have hd := ends_ok h he
  exact hd

theorem Delivers.unmoved (hd : Delivers B w) {α : Type} {x : Op H α}
    (h : Maintains x (Unmoved w.kernel)) : Ends x w.kernel
      (fun _ s' => Delivers B { w with kernel := s' }) fun _ => True := by
  apply ends_mono (h w.kernel (unmoved_self _))
  rintro _ s' ⟨hsame, htimer⟩
  apply hd.same hsame
  intro v hv
  unfold TimerAt at *
  rw [htimer, hv]

theorem Delivers.step (hd : Delivers B w) {e : Event H} (ha : e.Allowed w)
    (hs : e.step B w = .ok w') : Delivers B w' := by
  cases e with
  | install_exception_handler nr handler priv =>
    obtain ⟨⟨r, s'⟩, he, rfl⟩ := map_eq_ok hs
    have hd' := ends_ok (hd.install_handler (.inl ha) handler priv) he
    exact hd'
  | install_software_handler nr handler priv =>
    obtain ⟨⟨r, s'⟩, he, rfl⟩ := map_eq_ok hs
    have hd' := ends_ok (hd.install_handler (.inr ha) handler priv) he
    exact hd'
  | request_physical_irq n =>
    obtain ⟨⟨r, s'⟩, he, rfl⟩ := map_eq_ok hs
    rcases ends_ok (request_physical_irq_spec hd.few) he with
      ⟨rfl, rfl | rfl⟩ | ⟨rfl, hn, v, -, hv, hfree, rfl⟩
    · exact hd
    · exact hd.grown
    · exact hd.connected hn hv hfree
  | attach irq handler priv =>
    obtain rfl := Except.ok.inj hs
    exact hd.attach ha
  | enable => exact .run (hd.clear_flag (by decide)) hs
  | disable => exact .run (hd.set_flag (by decide)) hs
  | set_timer_periodic => exact .run (hd.set_flag (by decide)) hs
  | set_timer_one_shot => exact .run (hd.clear_flag (by decide)) hs
  | line n => exact .run (hd.unmoved (maintains_line _ n)) hs
  | timer => exact .run (hd.unmoved (maintains_timer _)) hs
  | exception vector => exact .run (hd.unmoved (maintains_interrupt _ vector)) hs
  | int cpl vector => exact .run (hd.unmoved (maintains_int _ cpl vector)) hs

/-- All objects that there are so far are the kernel's, at the vectors of `K`, with the handlers that
are installed. -/
structure Early (B : Board) (K : ℕ → Prop) (l : List (ℕ × Option H × UInt64)) (s : State H) :
    Prop where
  kernel : ∀ v, K v → ∃ o cls, cls.Kernel ∧ At s o cls v
  gates : ∀ v < 256, HasGate B.irq_entry_points s v (gate_dpl v)
  free : ∀ v, ¬ K v → s.irq_descriptors v = none
  installed : HasInstalled s l

theorem Early.install {K : ℕ → Prop} {l : List (ℕ × Option H × UInt64)} {E : Fault → Prop}
    (h : Early B K l s) (hcls : cls.Kernel) {nr : UInt8} {handler : Option H} {priv : UInt64} :
    Ends (install_handler cls nr handler priv) s (fun _ s' =>
      Early B (fun v => K v ∨ v = nr.toNat) ((nr.toNat, handler, priv) :: l) s') E := by
  apply ends_mono install_handler_spec
  rintro _ s' ⟨-, ⟨irq, hirq, rfl⟩ | ⟨hnone, rfl⟩⟩
  · have hK : K nr.toNat := by
      by_contra hnot
      rw [h.free _ hnot] at hirq
      cases hirq
    refine ⟨fun v hv => ?_, h.gates, fun v hv => h.free v fun hin => hv (.inl hin), ?_⟩
    · have hin : K v := hv.elim id fun he => he ▸ hK
      obtain ⟨o, cls', hcls', hat⟩ := h.kernel v hin
      exact ⟨o, cls', hcls', hat.attached⟩
    · obtain ⟨o, cls', hcls', hat⟩ := h.kernel _ hK
      obtain rfl : irq = o := Option.some.inj (hirq.symm.trans hat.vector)
      exact hasInstalled_cons hat hcls' h.installed
  · have hadded : At (s.add cls nr.toNat) s.objects.length cls nr.toNat := at_added nr.toNat_lt
    have hstay : Stay s (s.add cls nr.toNat) := fun _ _ _ hat => hat.add hnone
    have hkeeps : Keeps s (s.add cls nr.toNat) IRQClass.Kernel := fun o x hx _ =>
      (List.getElem?_append_left (List.getElem?_eq_some_iff.mp hx).1).trans hx
    refine ⟨fun v hv => ?_, h.gates, fun v hv => ?_, ?_⟩
    · rcases hv with hin | rfl
      · obtain ⟨o, cls', hcls', hat⟩ := h.kernel v hin
        exact ⟨o, cls', hcls', (hat.add hnone).attached⟩
      · exact ⟨_, cls, hcls, hadded.attached⟩
    · rw [not_or] at hv
      exact (Function.update_of_ne hv.2 _ _).trans (h.free v hv.1)
    · exact hasInstalled_cons hadded hcls (hkeeps.hasInstalled hstay h.installed)

theorem start_delivers (hs : (irqs H B).start w) : Delivers B w := by
  obtain ⟨hrequested, hhanded, raw, handlers, s₀, hnone, hinstalled, hstart⟩ := hs
  have hends : Ends (start_irqs B.irq_entry_points raw B.ver handlers) s₀
      (fun r s' => r = true → Delivers B ⟨s', [], [], handlers.installed⟩) fun _ => True := by
    unfold start_irqs install_exception_handler install_software_handler
    rw [ends_bind]
    apply ends_mono (gates_spec raw hnone)
    rintro _ s₁ ⟨hgates, hexceptions, hnone₁⟩
    have h₁ : Early B (· < 32) [] s₁ := by
      refine ⟨fun v hv => ?_, hgates, fun v hv => hnone₁ v (not_lt.mp hv), by simp [HasInstalled]⟩
      obtain ⟨o, hat⟩ := hexceptions v hv
      exact ⟨o, _, .inl rfl, hat⟩
    rw [ends_bind]
    apply ends_mono (h₁.install (.inl rfl))
    intro _ s₂ h₂
    rw [ends_bind]
    apply ends_mono (h₂.install (.inl rfl))
    intro _ s₃ h₃
    rw [ends_bind]
    apply ends_mono (h₃.install (.inr rfl))
    intro _ s₄ h₄
    rw [ends_bind]
    apply ends_mono (h₄.install (.inr rfl))
    intro _ s₅ h₅
    rw [ends_bind]
    apply ends_mono (h₅.install (.inl rfl))
    intro _ s₆ h₆
    rw [ends_bind]
    apply ends_mono LAPIC_init_spec
    intro r s₇ hdone
    apply ends_ite
    · intro hr
      obtain ⟨o, v, hirq, hat, hvector, hstay, hobjects, hidt⟩ := hdone hr
      apply ends_mono (IOAPIC_init_spec B.few)
      rintro _ s₈ ⟨hnr, hsame⟩ -
      have hstay' : Stay s₆ s₈ := fun o cls v h => hsame.at (hstay _ _ _ h)
      have hwired : Wired B.irq_entry_points s₆ := by
        refine ⟨fun v hv => h₆.kernel v ?_, h₆.gates⟩
        rcases hv with h | h | h
        · exact .inl (.inl (.inl (.inl (.inl h))))
        · exact .inl (.inl (.inr h))
        · exact .inl (.inr h)
      refine ⟨hstay'.wired (hsame.idt.trans hidt) hwired, ?_, by simp, by simp, by simp, ?_, by simp,
        ?_⟩
      · show s₈._nr_irqs ≤ 120
        rw [hnr]
        exact B.few
      · refine ⟨o, v, hsame._timer_irq.trans hirq, hsame.at hat, ?_⟩
        unfold TimerAt at *
        rw [hsame.lapic]
        exact hvector
      · have hkeeps : Keeps s₆ s₈ IRQClass.Kernel := by
          intro o x hx _
          rw [hsame.objects]
          exact hobjects o x hx
        exact hkeeps.hasInstalled hstay' h₆.installed
    · rintro - hfalse
      cases hfalse
  have hd := ends_ok hends hstart rfl
  rw [← hrequested, ← hhanded, ← hinstalled] at hd
  exact hd

theorem reachable_delivers (hw : (irqs H B).Reachable w) : Delivers B w :=
  hw.preserves (fun _ => start_delivers) fun _ _ _ hd ha hs => hd.step ha hs

/-! ## From a vector to its handler -/

theorem interrupt_eq (hw : Wired B.irq_entry_points s) (hv : v < 256) :
    interrupt B.irq_entry_points v s = __handle_raw_irq (UInt32.ofNat v) s := by
  have hgate := hw.gates v hv
  unfold HasGate at hgate
  have hfind : (List.range MAX_IRQS).find? (fun i =>
      (B.irq_entry_points i).toNat = (B.irq_entry_points v).toNat) = some v := by
    rw [List.find?_range_eq_some]
    refine ⟨by simp, List.mem_range.mpr hv, fun j hj => ?_⟩
    have hne : B.irq_entry_points j ≠ B.irq_entry_points v := fun he =>
      absurd (B.distinct j (hj.trans hv) v hv he) hj.ne
    simpa [UInt64.toNat_inj] using hne
  unfold interrupt
  rw [bind_eq]
  show (if _ ∧ _ then _ else _ : Op H Unit) s = _
  rw [hgate, if_pos ⟨rfl, rfl⟩]
  show (match (List.range MAX_IRQS).find? (fun i =>
      (B.irq_entry_points i).toNat = (B.irq_entry_points v).toNat) with
    | some i => __handle_raw_irq (UInt32.ofNat i)
    | none => throw .wild : Op H Unit) s = _
  rw [hfind]

theorem raw_irq_eq (hat : At s o cls v) : __handle_raw_irq (UInt32.ofNat v) s = handle o s := by
  have hv : (UInt32.ofNat v).toNat = v := by
    have := hat.lt
    rw [UInt32.toNat_ofNat']
    omega
  have hbyte : (UInt32.ofNat v).toUInt8.toNat = v := by
    have := hat.lt
    rw [UInt32.toNat_toUInt8, hv]
    omega
  have hlt : decide (v < MAX_IRQS) = true := decide_eq_true hat.lt
  unfold __handle_raw_irq assert
  rw [hv, if_pos hlt, hbyte]
  show (match s.irq_descriptors v with
    | some irq => handle irq
    | none => pure () : Op H Unit) s = _
  rw [hat.vector]

def State.after (s : State H) (done : List (Done H)) : State H := { s with trace := s.trace ++ done }

theorem invoke_eq {p : IRQClass → Prop} {handler : H} {priv : UInt64}
    (hx : Has s p o (some handler, priv)) : ∃ x, p x.cls ∧ deref o s = .ok (x, s) ∧
      invoke o s = .ok (true, s.after [.called handler o priv]) := by
  obtain ⟨⟨cls, nr, handler', priv'⟩, hx, hcls, hsame⟩ := hx
  obtain ⟨rfl, rfl⟩ := Prod.mk.inj hsame
  have hderef : deref o s = .ok (⟨cls, nr, some handler, priv'⟩, s) := by
    unfold deref
    rw [bind_eq]
    simp only [get, getThe, MonadStateOf.get, StateT.get, pure, Except.pure, hx]
    rfl
  refine ⟨_, hcls, hderef, ?_⟩
  unfold invoke
  rw [bind_eq, hderef]
  rfl

theorem handle_device {handler : H} {priv : UInt64}
    (hx : Has s IRQClass.Device o (some handler, priv)) :
    handle o s = .ok ((), (s.after [.called handler o priv]).wrote .EOI 0) := by
  obtain ⟨x, hcls, hderef, hinvoke⟩ := invoke_eq hx
  unfold handle
  rw [bind_eq, hderef]
  rcases hcls with h | h
  all_goals
    dsimp only
    rw [h]
    dsimp only
    rw [bind_eq, hinvoke]
    rfl

theorem handle_kernel {handler : H} {priv : UInt64}
    (hx : Has s IRQClass.Kernel o (some handler, priv)) :
    handle o s = .ok ((), s.after [.called handler o priv]) := by
  obtain ⟨x, hcls, hderef, hinvoke⟩ := invoke_eq hx
  unfold handle
  rw [bind_eq, hderef]
  rcases hcls with h | h
  all_goals
    dsimp only
    rw [h]
    dsimp only
    rw [bind_eq, hinvoke]
    rfl

/-! ## Lines and the timer -/

/-- The handler is called and then the interrupt is acknowledged, and nothing else happens. -/
def Reaches (x : Op H Unit) (s : State H) (handler : H) (irq : ℕ) (priv : UInt64) : Prop :=
  ∃ s', x s = .ok ((), s') ∧ s'.trace = s.trace ++ [.called handler irq priv, .eoi] ∧ Unmoved s s'

theorem Delivers.reaches (hd : Delivers B w) (hat : At w.kernel o cls v) {handler : H} {priv : UInt64}
    (hhandler : w.handed.lookup o = some (some handler, priv)) :
    Reaches (interrupt B.irq_entry_points v) w.kernel handler o priv := by
  have hx := hd.handed o _ hhandler
  have hrun := (interrupt_eq hd.wired hat.lt).trans ((raw_irq_eq hat).trans (handle_device hx))
  refine ⟨_, hrun, ?_, ?_⟩
  · show (w.kernel.trace ++ _) ++ [.eoi] = _
    rw [List.append_assoc]
    rfl
  · exact (maintains_interrupt _ v).ok (unmoved_self _) hrun

theorem mem_of_lookup {l : List (ℕ × ℕ)} (h : l.lookup n = some o) : (n, o) ∈ l := by
  induction l with
  | nil => cases h
  | cons r l ih =>
    rw [List.lookup_cons] at h
    split at h
    next heq =>
      obtain rfl : n = r.1 := by simpa using heq
      obtain rfl := Option.some.inj h
      exact List.mem_cons_self
    next => exact List.mem_cons_of_mem _ (ih h)

theorem lookup_unique {l : List (ℕ × ℕ)} {m : ℕ} (hnodup : (l.map Prod.snd).Nodup)
    (hn : l.lookup n = some o) (hm : l.lookup m = some o) : m = n := by
  have hsame := List.inj_on_of_nodup_map hnodup (mem_of_lookup hm) (mem_of_lookup hn) rfl
  exact congrArg Prod.fst hsame

/-- Whatever was requested and attached before, an interrupt at a line calls the handler that was
last attached to what the last request of the line gave, and no other line's interrupt does. -/
theorem line_reaches_handler (hw : (irqs H B).Reachable w) {handler : H} {priv : UInt64}
    (hline : w.requested.lookup n = some o)
    (hhandler : w.handed.lookup o = some (some handler, priv)) :
    Reaches (line B.irq_entry_points n) w.kernel handler o priv ∧
      ∀ m, m ≠ n → w.requested.lookup m ≠ some o := by
  have hd := reachable_delivers hw
  obtain ⟨-, v, hat, hvector⟩ := hd.lines n o hline
  refine ⟨?_, fun m hm hsame => hm (lookup_unique hd.nodup hline hsame)⟩
  have hrun : line B.irq_entry_points n w.kernel = interrupt B.irq_entry_points v w.kernel := by
    unfold line
    show (match vector_of (w.kernel.ioapic (0x10 + 2 * n)) with
      | some vector => interrupt B.irq_entry_points vector
      | none => pure () : Op H Unit) w.kernel = _
    rw [hvector]
  unfold Reaches
  rw [hrun]
  exact hd.reaches hat hhandler

/-- The timer is silent while it is masked, and calls its handler otherwise, in whatever mode. -/
theorem timer_reaches_handler (hw : (irqs H B).Reachable w) {handler : H} {priv : UInt64}
    (htimer : w.kernel._timer_irq = some o)
    (hhandler : w.handed.lookup o = some (some handler, priv)) :
    if (w.kernel.lapic .TIMER).toNat.testBit 16 then
      timer B.irq_entry_points w.kernel = .ok ((), w.kernel)
    else Reaches (timer B.irq_entry_points) w.kernel handler o priv := by
  have hd := reachable_delivers hw
  obtain ⟨o', v, ho, hat, hvector⟩ := hd.timer
  obtain rfl : o' = o := Option.some.inj (ho.symm.trans htimer)
  unfold TimerAt at hvector
  have hlt := hat.lt
  have hrun : timer B.irq_entry_points w.kernel = (match vector_of (w.kernel.lapic .TIMER) with
      | some vector => interrupt B.irq_entry_points vector
      | none => pure () : Op H Unit) w.kernel := rfl
  split
  next hmasked =>
    rw [hrun]
    unfold vector_of
    rw [if_pos (.inl hmasked)]
    rfl
  next hopen =>
    have hreg : vector_of (w.kernel.lapic .TIMER) = some v := by
      unfold vector_of
      rw [if_neg (by
        rintro (h | h)
        · exact hopen h
        · omega)]
      congr 1
      omega
    unfold Reaches
    rw [hrun, hreg]
    exact hd.reaches hat hhandler

/-! ## What a program can do with `int` -/

/-- A program's `int` gets to the handler of the trap or of the system call, for these two vectors.
For any other vector it gets to that of the protection fault, and never to a device's. -/
theorem int_of_program (hw : (irqs H B).Reachable w) (hv : v < 256) {handler : H} {priv : UInt64}
    (hhandler : w.installed.lookup (if v = IRQ_TRAP ∨ v = IRQ_USER_SYSCALL then v else 0x0d) =
      some (some handler, priv)) :
    ∃ irq s', int B.irq_entry_points 3 v w.kernel = .ok ((), s') ∧
      s'.trace = w.kernel.trace ++ [.called handler irq priv] ∧ Unmoved w.kernel s' := by
  have hd := reachable_delivers hw
  have hgate := hd.wired.gates v hv
  unfold HasGate at hgate
  obtain ⟨irq, cls, hat, hx⟩ := hd.installed _ _ hhandler
  have hrun : int B.irq_entry_points 3 v w.kernel =
      interrupt B.irq_entry_points (if v = IRQ_TRAP ∨ v = IRQ_USER_SYSCALL then v else 0x0d)
        w.kernel := by
    unfold int
    show (if (decode (w.kernel.idt.__idt v)).DPL < 3 then interrupt B.irq_entry_points 0x0d
      else interrupt B.irq_entry_points v : Op H Unit) w.kernel = _
    rw [hgate]
    show (if (gate_dpl v).toNat < 3 then _ else _ : Op H Unit) _ = _
    unfold gate_dpl
    by_cases hopen : v = IRQ_TRAP ∨ v = IRQ_USER_SYSCALL
    · rw [if_pos hopen, if_pos hopen]
      rfl
    · rw [if_neg hopen, if_neg hopen]
      rfl
  have hall := hrun.trans
    ((interrupt_eq hd.wired hat.lt).trans ((raw_irq_eq hat).trans (handle_kernel hx)))
  refine ⟨irq, _, hall, rfl, ?_⟩
  exact (maintains_int _ 3 v).ok (unmoved_self _) hall

/-! ## A run -/

def board : Board where
  irq_entry_points i := UInt64.ofNat (16 * i)
  distinct i hi j hj h := by
    have hsame := congrArg UInt64.toNat h
    simp only [UInt64.toNat_ofNat'] at hsame
    omega
  ver := 0x170000
  few := by decide

def blank : State ℕ where
  objects := []
  irq_descriptors _ := none
  idt := ⟨0, fun _ => ⟨0, 0⟩⟩
  _nr_irqs := 0
  ioapic _ := 0
  lapic _ := 0
  _timer_irq := none
  trace := []

def handlers : Handlers ℕ := ⟨1, 2, 3, 4, 5⟩

instance (w : Wires H) (e : Event H) : Decidable (e.Allowed w) := by
  cases e <;> unfold Event.Allowed <;> infer_instance

instance (s : Wires H) (c : Event H) : Decidable ((irqs H B).allowed s c) :=
  inferInstanceAs (Decidable (c.Allowed s))

/-- A driver has the first line, and another one the timer. -/
def events : List (Event ℕ) :=
  [.request_physical_irq 1, .attach 35 (some 7) 9, .attach 34 (some 8) 0, .enable, .line 1,
    .set_timer_periodic, .timer, .int 3 0x21]

def ran : Option (Wires ℕ) :=
  (start_irqs board.irq_entry_points (fun _ _ => false) board.ver handlers blank).toOption.bind
    fun r => if r.1 then (irqs ℕ board).exec ⟨r.2, [], [], handlers.installed⟩ events else none

/-- What the theorems ask of the run. -/
def Ready (w : Wires ℕ) : Prop :=
  w.requested.lookup 1 = some 35 ∧ w.handed.lookup 35 = some (some 7, 9) ∧
    w.kernel._timer_irq = some 34 ∧ w.handed.lookup 34 = some (some 8, 0) ∧
      w.installed = handlers.installed ∧ ¬ (w.kernel.lapic .TIMER).toNat.testBit 16

instance (w : Wires ℕ) : Decidable (Ready w) := by
  unfold Ready
  infer_instance

theorem ran_ready : ran.map (fun w => decide (Ready w)) = some true := by decide +kernel

theorem ran_reachable : ∃ w, (irqs ℕ board).Reachable w ∧ Ready w := by
  obtain ⟨w, hw, hready⟩ := Option.map_eq_some_iff.mp ran_ready
  obtain ⟨⟨r, s⟩, hs, hexec⟩ := Option.bind_eq_some_iff.mp hw
  have hstarted : r = true := by
    by_contra hnot
    simp [hnot] at hexec
  subst hstarted
  have hrun := System.run_of_exec hexec
  have hstart : (irqs ℕ board).start ⟨s, [], [], handlers.installed⟩ :=
    ⟨rfl, rfl, _, handlers, blank, fun _ => rfl, rfl, eq_ok_of_toOption hs⟩
  exact ⟨w, ⟨_, events, hstart, hrun⟩, of_decide_eq_true hready⟩

theorem line_reaches_handler_one : ∃ w, (irqs ℕ board).Reachable w ∧
    Reaches (line board.irq_entry_points 1) w.kernel 7 35 9 := by
  obtain ⟨w, hw, hline, hhanded, -⟩ := ran_reachable
  exact ⟨w, hw, (line_reaches_handler hw hline hhanded).1⟩

theorem timer_reaches_handler_open : ∃ w, (irqs ℕ board).Reachable w ∧
    Reaches (timer board.irq_entry_points) w.kernel 8 34 0 := by
  obtain ⟨w, hw, -, -, htimer, hhanded, -, hopen⟩ := ran_reachable
  have hreaches := timer_reaches_handler hw htimer hhanded
  rw [if_neg hopen] at hreaches
  exact ⟨w, hw, hreaches⟩

theorem int_of_program_device : ∃ w irq s', (irqs ℕ board).Reachable w ∧
    int board.irq_entry_points 3 0x21 w.kernel = .ok ((), s') ∧
      s'.trace = w.kernel.trace ++ [.called 1 irq 0] := by
  obtain ⟨w, hw, -, -, -, -, hinstalled, -⟩ := ran_reachable
  have hfault : w.installed.lookup (if 0x21 = IRQ_TRAP ∨ 0x21 = IRQ_USER_SYSCALL then 0x21 else 0x0d) =
      some (some 1, 0) := by
    rw [hinstalled]
    rfl
  obtain ⟨irq, s', hint, htrace, -⟩ := int_of_program hw (by decide) hfault
  exact ⟨w, irq, s', hw, hint, htrace⟩

end Infos.Arch.Irq
