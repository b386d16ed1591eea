import Infos.Lib.System
import Infos.Util.Strings
import Infos.Util.Tables

/-!
# `DeviceManager`

A pointer to a device is a number. Which class a device has does not change, and is given by
`device_class`. `alloc` is where the allocator has memory for the nodes of the map, request by
request.
-/

open Infos.Prog Infos.Util

namespace Infos.Kernel

/-- `id` is the address of the class. The first constructor is the one without arguments. -/
inductive DeviceClass where
  | root (id : ℕ)
  | sub (parent : DeviceClass) (name : List UInt8) (id : ℕ)
  deriving DecidableEq, Repr

namespace DeviceClass

def id : DeviceClass → ℕ
  | root id | sub _ _ id => id

def name : DeviceClass → List UInt8
  | root _ => []
  | sub _ name _ => name

def is (type : DeviceClass) : DeviceClass → Bool
  | root id => id = type.id
  | sub parent _ id => id = type.id || is type parent

end DeviceClass

/-- The loop of `ToString`. Sixteen digits are more than there can be. -/
def ToString_loop : ℕ → UInt32 → List UInt8 → List UInt8
  | 0, _, s => s
  | i + 1, v, s => if v > 0 then ToString_loop i (v / 10) ((48 + v % 10).toUInt8 :: s) else s

def ToString (v : UInt32) : List UInt8 := if v = 0 then [48] else ToString_loop 16 v []

/-- `names` has the names of the devices, and `instances` the counters of the classes. -/
structure DeviceManager where
  names : ℕ → List UInt8
  instances : ℕ → UInt64
  _devices : Map UInt64 ℕ
  requests : ℕ

abbrev DeviceOp (α : Type) := StateT DeviceManager (Except Util.Fault) α

namespace DeviceManager

def start : DeviceManager := ⟨fun _ => [], fun _ => 0, Map.empty, 0⟩

/-- A call on the map. -/
def on_devices {α : Type} (x : Util.Op UInt64 ℕ α) : DeviceOp α :=
  zoom _devices (fun m dm => { dm with _devices := m }) (fun e => e) x

variable (alloc : ℕ → ℕ) (device_class : ℕ → DeviceClass)

def acquire_instance (c : DeviceClass) : DeviceOp UInt64 := do
  let instance_ := (← get).instances c.id
  modify fun dm => { dm with instances := Function.update dm.instances c.id (instance_ + 1) }
  return instance_

def assign_name (device : ℕ) (name : List UInt8) : DeviceOp Unit :=
  modify fun dm => { dm with names := Function.update dm.names device name }

/-- `_devices.add(name.get_hash(), &device)`. -/
def store (name : List UInt8) (device : ℕ) : DeviceOp Unit := do
  let request := (← get).requests
  modify fun dm => { dm with requests := request + 1 }
  on_devices (Map.add (alloc request) (Util.String.compute_hash name) device)

/-- The first part of `register_device`. -/
def enter (device : ℕ) : DeviceOp Unit := do
  let instance_ ← acquire_instance (device_class device)
  assign_name device ((device_class device).name ++ ToString instance_.toUInt32)
  store alloc ((← get).names device) device

def register_device (init : DeviceOp Bool) (device : ℕ) : DeviceOp Bool := do
  enter alloc device_class device
  if ¬ (← init) then return false
  return true

def add_device_alias (name : List UInt8) (device : ℕ) : DeviceOp Bool := do
  store alloc name device
  return true

def try_get_device_by_name (name : List UInt8) : DeviceOp (Option ℕ) :=
  on_devices (Map.try_get_value (Util.String.compute_hash name))

/-- The devices in the order of the iterators of `devices()`. -/
def devices : DeviceOp (List ℕ) := do
  return (← on_devices Map.iterate).map Prod.snd

def try_get_device_by_class (type : DeviceClass) : DeviceOp (Option ℕ) := do
  return (← devices).find? fun device => (device_class device).is type

/-! ## Calls -/

/-- A call that changes the table. What the `init` of a device calls comes after its `enter`. -/
inductive Call where
  | enter (device : ℕ)
  | add_device_alias (name : List UInt8) (device : ℕ)
  deriving DecidableEq, Repr

def Call.run : Call → DeviceOp Unit
  | .enter device => DeviceManager.enter alloc device_class device
  | .add_device_alias name device => do let _ ← DeviceManager.add_device_alias alloc name device

/-- The name that `register_device` gives. -/
def new_name (dm : DeviceManager) (device : ℕ) : List UInt8 :=
  (device_class device).name ++ ToString (dm.instances (device_class device).id).toUInt32

/-- The name under which a call stores its device. -/
def Call.name (dm : DeviceManager) : Call → List UInt8
  | .enter device => dm.new_name device_class device
  | .add_device_alias name _ => name

def Call.device : Call → ℕ
  | .enter device | .add_device_alias _ device => device

/-- The names and the counters after a call. -/
def Call.rename (dm : DeviceManager) : Call → (ℕ → List UInt8) × (ℕ → UInt64)
  | .enter device =>
    let id := (device_class device).id
    (Function.update dm.names device (dm.new_name device_class device),
      Function.update dm.instances id (dm.instances id + 1))
  | .add_device_alias _ _ => (dm.names, dm.instances)

/-- The names under which the calls store are those in `C`. -/
def system (C : List UInt8 → Prop) : System DeviceManager Call Util.Fault where
  start dm := dm = start
  allowed dm c := C (c.name device_class dm)
  step dm c := (c.run alloc device_class dm).map Prod.snd

variable {alloc : ℕ → ℕ} {device_class : ℕ → DeviceClass} {C : List UInt8 → Prop}
  {dm dm' : DeviceManager} {c : Call} {name : List UInt8} {device d : ℕ} {α : Type}
  {E : Util.Fault → Prop}

@[simp]
theorem ends_on_devices {x : Util.Op UInt64 ℕ α} {Q : α → DeviceManager → Prop} :
    Ends (on_devices x) dm Q E ↔
      Ends x dm._devices (fun a m => Q a { dm with _devices := m }) E := ends_zoom

/-- A device was stored under a name. -/
structure Stored (dm dm' : DeviceManager) (name : List UInt8) (device : ℕ) : Prop where
  valid : dm'._devices.Valid
  get : ∀ k, dm'._devices.get k =
    if k = Util.String.compute_hash name then some device else dm._devices.get k

theorem ends_store (hv : dm._devices.Valid) : Ends (store alloc name device) dm
    (fun _ dm' => Stored dm dm' name device ∧ dm'.names = dm.names ∧
      dm'.instances = dm.instances) fun e => e = .no_memory := by
  unfold store
  rw [ends_bind, ends_get, ends_bind, ends_modify, ends_on_devices]
  exact ends_weaken hv.add (fun _ m hm => ⟨⟨hm.1, hm.2.1⟩, rfl, rfl⟩) fun _ he => he.1

theorem ends_call (hv : dm._devices.Valid) : Ends (c.run alloc device_class) dm
    (fun _ dm' => Stored dm dm' (c.name device_class dm) c.device ∧
      (dm'.names, dm'.instances) = c.rename device_class dm) fun e => e = .no_memory := by
  cases c with
  | enter device =>
    unfold Call.run enter acquire_instance assign_name
    simp only [ends_bind, ends_get, ends_modify, ends_pure, Function.update_self]
    refine ends_mono (ends_store (by exact hv)) ?_
    rintro - dm' ⟨hs, hn, hi⟩
    exact ⟨⟨hs.valid, hs.get⟩, Prod.ext hn hi⟩
  | add_device_alias name device =>
    unfold Call.run add_device_alias
    simp only [ends_bind, ends_pure]
    refine ends_mono (ends_store hv) ?_
    rintro - dm' ⟨hs, hn, hi⟩
    exact ⟨hs, Prod.ext hn hi⟩

/-- A call that comes back. -/
theorem stored_step (hv : dm._devices.Valid)
    (hs : (c.run alloc device_class dm).map Prod.snd = .ok dm') :
    Stored dm dm' (c.name device_class dm) c.device ∧
      (dm'.names, dm'.instances) = c.rename device_class dm := by
  obtain ⟨⟨_, t⟩, hx, rfl⟩ := map_eq_ok hs
  have hcall := ends_ok (ends_call hv) hx
  exact hcall

theorem try_get_device_by_name_eq (hv : dm._devices.Valid) :
    try_get_device_by_name name dm =
      .ok (dm._devices.get (Util.String.compute_hash name), dm) := by
  unfold try_get_device_by_name on_devices zoom
  rw [hv.try_get_value]

theorem devices_eq (hv : dm._devices.Valid) : ∃ ds, devices dm = .ok (ds, dm) ∧
    ∀ d, d ∈ ds ↔ ∃ k, dm._devices.get k = some d := by
  obtain ⟨es, hes, -, hmem, -⟩ := hv.iterate
  refine ⟨es.map Prod.snd, ?_, fun d => ?_⟩
  · unfold devices on_devices
    rw [bind_eq, zoom, hes]
    rfl
  · simp only [List.mem_map, Prod.exists, exists_eq_right, hmem]

/-! ## A registration that fails -/

/-- What the calls store, from the state `dm` on. -/
def stores (device_class : ℕ → DeviceClass) (dm : DeviceManager) :
    List Call → List (UInt64 × ℕ)
  | [] => []
  | c :: cs =>
    (Util.String.compute_hash (c.name device_class dm), c.device) ::
      stores device_class { dm with instances := (c.rename device_class dm).2 } cs

/-- No way leads to the device. -/
structure Gone (device_class : ℕ → DeviceClass) (dm : DeviceManager) (d : ℕ) : Prop where
  by_name : ∀ name dm', try_get_device_by_name name dm ≠ .ok (some d, dm')
  by_class : ∀ type dm', try_get_device_by_class device_class type dm ≠ .ok (some d, dm')
  listed : ∀ ds dm', devices dm = .ok (ds, dm') → d ∉ ds

/-- The calls of `init`, from the state `dm₁` on, leave another device under the name of this one,
and wherever the table had it before, in `dm`. They leave it itself nowhere. -/
def Hides (device_class : ℕ → DeviceClass) (dm dm₁ : DeviceManager) (d : ℕ) (cs : List Call) :
    Prop :=
  ∀ k, Map.last k (stores device_class dm₁ cs) ≠ some d ∧
    (k = Util.String.compute_hash (dm.new_name device_class d) ∨ dm._devices.get k = some d →
      Map.last k (stores device_class dm₁ cs) ≠ none)

variable {dm₁ : DeviceManager} {cs : List Call} {init : DeviceOp Bool}

theorem gone_iff (hv : dm._devices.Valid) :
    Gone device_class dm d ↔ ∀ k, dm._devices.get k ≠ some d := by
  obtain ⟨ds, hds, hmem⟩ := devices_eq hv
  constructor
  · intro h k hk
    exact h.listed ds dm hds ((hmem d).mpr ⟨k, hk⟩)
  · intro h
    have hno : d ∉ ds := fun hd => ((hmem d).mp hd).elim h
    refine ⟨fun name dm' hx => ?_, fun type dm' hx => ?_, fun ds' dm' hx => ?_⟩
    · rw [try_get_device_by_name_eq hv] at hx
      exact h _ (Prod.mk.inj (Except.ok.inj hx)).1
    · unfold try_get_device_by_class at hx
      rw [bind_eq, hds] at hx
      exact hno (List.mem_of_find?_eq_some (Prod.mk.inj (Except.ok.inj hx)).1)
    · rw [hds] at hx
      cases hx
      exact hno

theorem stores_congr (h : dm'.instances = dm.instances) :
    stores device_class dm' cs = stores device_class dm cs := by
  induction cs generalizing dm dm' with
  | nil => rfl
  | cons c cs ih =>
    have hname : c.name device_class dm' = c.name device_class dm := by
      cases c <;> simp [Call.name, new_name, h]
    unfold stores
    rw [hname]
    refine congrArg _ (ih ?_)
    cases c <;> simp [Call.rename, h]

theorem run_get (hv : dm._devices.Valid) (hr : (system alloc device_class C).Run dm cs dm') :
    dm'._devices.Valid ∧ ∀ k, dm'._devices.get k =
      (Map.last k (stores device_class dm cs)).or (dm._devices.get k) := by
  induction hr with
  | nil => exact ⟨hv, fun k => rfl⟩
  | @cons dm dm₁ dm₂ c cs _ hs _ ih =>
    obtain ⟨hst, hren⟩ := stored_step hv hs
    obtain ⟨hv₂, hget⟩ := ih hst.valid
    refine ⟨hv₂, fun k => ?_⟩
    unfold stores
    have hrest : stores device_class { dm with instances := (c.rename device_class dm).2 } cs =
        stores device_class dm₁ cs := stores_congr (congrArg Prod.snd hren).symm
    rw [hget, hst.get, Map.last_cons, Option.or_assoc, hrest]
    refine congrArg _ ?_
    split <;> rfl

/-- After a registration that failed, the device is gone if and only if its `init` has hidden it. All
that `init` does to the manager are the calls `cs`. -/
theorem failed_registration (hv : dm._devices.Valid)
    (h₁ : enter alloc device_class d dm = .ok ((), dm₁)) (h₂ : init dm₁ = .ok (false, dm'))
    (hr : (system alloc device_class fun _ => True).Run dm₁ cs dm') :
    register_device alloc device_class init d dm = .ok (false, dm') ∧
      (Gone device_class dm' d ↔ Hides device_class dm dm₁ d cs) := by
  have hcall : Call.run alloc device_class (.enter d) dm = .ok ((), dm₁) := h₁
  obtain ⟨hst, -⟩ := ends_ok (ends_call hv) hcall
  obtain ⟨hv', hget⟩ := run_get hst.valid hr
  constructor
  · unfold register_device
    rw [bind_eq, h₁]
    dsimp only
    rw [bind_eq, h₂]
    rfl
  · rw [gone_iff hv']
    refine forall_congr' fun k => ?_
    rw [hget, hst.get]
    cases Map.last k (stores device_class dm₁ cs) with
    | some e => simp
    | none =>
      by_cases hk : k = Util.String.compute_hash (dm.new_name device_class d)
      · simp [Call.name, Call.device, hk]
      · simp [Call.name, hk]

/-- All devices are of the class that has no parent. -/
def plain_devices : ℕ → DeviceClass := fun _ => .root 0

theorem enter_first : ∃ dm₁, enter (64 * ·) plain_devices 0 start = .ok ((), dm₁) := by
  have hsome : (enter (64 * ·) plain_devices 0 start).toOption.isSome := by decide +kernel
  cases hx : enter (64 * ·) plain_devices 0 start with
  | error e => simp [hx, Except.toOption] at hsome
  | ok r => exact ⟨r.2, rfl⟩

/-- The `init` of the device makes no calls. -/
theorem failed_registration_plain : ∃ dm',
    register_device (64 * ·) plain_devices (pure false) 0 start = .ok (false, dm') ∧
      ¬ Gone plain_devices dm' 0 := by
  obtain ⟨dm₁, h₁⟩ := enter_first
  obtain ⟨hreg, hgone⟩ := failed_registration Map.valid_empty h₁
    (show (pure false : DeviceOp Bool) dm₁ = .ok (false, dm₁) from rfl) (.nil dm₁)
  exact ⟨dm₁, hreg, fun h => (hgone.mp h _).2 (.inl rfl) rfl⟩

/-- The `init` of the first device fails at once. -/
theorem stays_registered : ¬ ∀ (init : DeviceOp Bool) d dm',
    register_device (64 * ·) plain_devices init d start = .ok (false, dm') →
      Gone plain_devices dm' d := by
  intro h
  obtain ⟨dm₁, h₁⟩ := enter_first
  have hcall : Call.run (64 * ·) plain_devices (.enter 0) start = .ok ((), dm₁) := h₁
  obtain ⟨hst, -⟩ := ends_ok (ends_call Map.valid_empty) hcall
  have hreg : register_device (64 * ·) plain_devices (pure false) 0 start = .ok (false, dm₁) := by
    unfold register_device
    rw [bind_eq, h₁]
    rfl
  have hget := (gone_iff hst.valid).mp (h _ _ _ hreg) (Util.String.compute_hash [48])
  rw [hst.get, if_pos (by decide)] at hget
  exact hget rfl

end DeviceManager

end Infos.Kernel
