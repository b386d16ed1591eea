import Infos.Kernel.DeviceManager
import Infos.Util.Numerals

/-!
# The names of devices

`register_device` names a device after its class and the number of its instance. A class that does not
end in a digit can be told from the number behind it, so no name is given twice.
-/

open Infos.Prog Infos.Util Infos.Util.Printf

namespace Infos.Kernel

/-! ## Numerals -/

/-- The decimal numeral of a number. -/
def decimal (n : ℕ) : List UInt8 := (figures 10 n).reverse

def is_digit (c : UInt8) : Bool := 48 ≤ c && c ≤ 57

theorem figure_of_lt {k : ℕ} (h : k < 10) :
    figure k = UInt8.ofNat (48 + k) ∧ is_digit (figure k) = true := by
  revert h
  revert k
  decide

theorem ToString_loop_eq {i : ℕ} {v : UInt32} (h : v.toNat < 10 ^ i) (s : List UInt8) :
    ToString_loop i v s = ((Nat.digits 10 v.toNat).map figure).reverse ++ s := by
  induction i generalizing v s with
  | zero =>
    rw [Nat.lt_one_iff.mp h]
    rfl
  | succ i ih =>
    unfold ToString_loop
    have hpos : v > 0 ↔ 0 < v.toNat := UInt32.lt_iff_toNat_lt
    by_cases hv : 0 < v.toNat
    · have hdiv : (v / 10).toNat = v.toNat / 10 := UInt32.toNat_div ..
      have hdigit : (48 + v % 10).toUInt8 = figure (v.toNat % 10) := by
        rw [(figure_of_lt (Nat.mod_lt _ (by decide))).1]
        refine UInt8.toNat_inj.mp ?_
        rw [UInt32.toNat_toUInt8, UInt32.toNat_add, UInt32.toNat_mod, UInt8.toNat_ofNat']
        refine congrArg (· % 256) (Nat.mod_eq_of_lt ?_)
        show 48 + v.toNat % 10 < 2 ^ 32
        omega
      rw [if_pos (hpos.mpr hv), ih (by rw [hdiv]; rw [pow_succ] at h; omega), hdiv, hdigit,
        Nat.digits_def' (by decide) hv, List.map_cons, List.reverse_cons, List.append_assoc]
      rfl
    · rw [if_neg (fun h => hv (hpos.mp h)), Nat.eq_zero_of_not_pos hv]
      rfl

/-- `ToString` gives the numeral of any number. -/
theorem ToString_eq (v : UInt32) : ToString v = decimal v.toNat := by
  have hlt := v.toNat_lt
  unfold ToString decimal figures
  have hzero : v = 0 ↔ v.toNat = 0 := UInt32.toNat_inj.symm
  split
  next h => rw [if_pos (hzero.mp h)]; rfl
  next h =>
    rw [if_neg (mt hzero.mpr h), ToString_loop_eq (by omega), List.append_nil]

theorem decimal_injective : Function.Injective decimal := by
  intro n m h
  have hread : ∀ n, read_figures 10 (decimal n) = n := by
    intro n
    obtain ⟨ks, hks, -, hlt, hvalue⟩ := figures_eq 10 n (by decide)
    unfold decimal
    rw [hks, read_figures_reverse (by decide) hlt, hvalue]
  rw [← hread n, h, hread]

theorem digits_of_decimal (n : ℕ) : ∀ c ∈ decimal n, is_digit c = true := by
  intro c hc
  obtain ⟨ks, hks, -, hlt, -⟩ := figures_eq 10 n (by decide)
  unfold decimal at hc
  rw [hks, List.mem_reverse, List.mem_map] at hc
  obtain ⟨k, hk, rfl⟩ := hc
  exact (figure_of_lt (hlt k hk)).2

/-- The text in front of the digits at the end does not depend on them. -/
theorem append_digits_inj {x y s t : List UInt8} (hs : ∀ c ∈ s, is_digit c = true)
    (ht : ∀ c ∈ t, is_digit c = true) (hx : ∀ c, x.getLast? = some c → is_digit c = false)
    (hy : ∀ c, y.getLast? = some c → is_digit c = false) (h : x ++ s = y ++ t) : x = y ∧ s = t := by
  have htail : ∀ x s : List UInt8, (∀ c ∈ s, is_digit c = true) →
      (∀ c, x.getLast? = some c → is_digit c = false) →
      (x ++ s).reverse.takeWhile is_digit = s.reverse := by
    intro x s hs hx
    have hnone : x.reverse.takeWhile is_digit = [] := by
      cases hr : x.reverse with
      | nil => rfl
      | cons c r =>
        have hlast := hx c (by rw [← List.head?_reverse, hr]; rfl)
        rw [List.takeWhile_cons_of_neg (by rw [hlast]; exact Bool.false_ne_true)]
    rw [List.reverse_append, List.takeWhile_append_of_pos fun c hc => hs c (List.mem_reverse.mp hc),
      hnone, List.append_nil]
  have hst : s = t := by
    have hboth := htail x s hs hx
    rw [h, htail y t ht hy] at hboth
    exact (List.reverse_injective hboth).symm
  exact ⟨List.append_cancel_right (hst ▸ h), hst⟩

/-! ## The names that are given -/

namespace DeviceManager

/-- The devices that are registered, with the names that they are given. -/
def assigned (device_class : ℕ → DeviceClass) (dm : DeviceManager) : List Call → List (ℕ × List UInt8)
  | [] => []
  | .enter device :: cs =>
    (device, dm.new_name device_class device) ::
      assigned device_class
        { dm with instances := (Call.rename device_class dm (.enter device)).2 } cs
  | .add_device_alias _ _ :: cs => assigned device_class dm cs

/-- How many instances of a class are registered. -/
def acquired (device_class : ℕ → DeviceClass) (id : ℕ) (cs : List Call) : ℕ :=
  cs.countP fun
    | .enter device => (device_class device).id = id
    | .add_device_alias _ _ => false

/-- The devices of a list of calls have classes that can be told by their names. -/
structure Named (device_class : ℕ → DeviceClass) (cs : List Call) : Prop where
  different : ∀ d d', Call.enter d ∈ cs → Call.enter d' ∈ cs →
    (device_class d).id ≠ (device_class d').id → (device_class d).name ≠ (device_class d').name
  no_digit : ∀ d, Call.enter d ∈ cs →
    ∀ c, (device_class d).name.getLast? = some c → is_digit c = false

variable {alloc : ℕ → ℕ} {device_class : ℕ → DeviceClass} {C : List UInt8 → Prop}
  {dm dm' : DeviceManager} {c : Call} {cs : List Call} {device d id : ℕ}

theorem Named.rest (h : Named device_class (c :: cs)) : Named device_class cs :=
  ⟨fun d d' hd hd' => h.different d d' (List.mem_cons_of_mem c hd) (List.mem_cons_of_mem c hd'),
    fun d hd => h.no_digit d (List.mem_cons_of_mem c hd)⟩

/-- No class has more instances than a number of 32 bits can count. -/
def Countable (device_class : ℕ → DeviceClass) (dm : DeviceManager) (cs : List Call) : Prop :=
  ∀ id, (dm.instances id).toNat + acquired device_class id cs ≤ 2 ^ 32

/-- The manager once the counter of a class has been moved on. -/
def counted (device_class : ℕ → DeviceClass) (dm : DeviceManager) (device : ℕ) : DeviceManager :=
  { dm with instances := (Call.rename device_class dm (.enter device)).2 }

theorem Countable.lt (h : Countable device_class dm (.enter d :: cs)) :
    (dm.instances (device_class d).id).toNat < 2 ^ 32 := by
  have hid := h (device_class d).id
  unfold acquired at hid
  rw [List.countP_cons_of_pos (by simp)] at hid
  omega

theorem instances_counted (h : Countable device_class dm (.enter d :: cs)) (id : ℕ) :
    ((counted device_class dm d).instances id).toNat =
      (dm.instances id).toNat + if (device_class d).id = id then 1 else 0 := by
  show (Function.update dm.instances _ _ id).toNat = _
  by_cases hid : id = (device_class d).id
  · have hlt := h.lt
    rw [hid, Function.update_self, if_pos rfl, UInt64.toNat_add, UInt64.toNat_one]
    exact Nat.mod_eq_of_lt (by omega)
  · rw [Function.update_of_ne hid, if_neg fun h => hid h.symm, Nat.add_zero]

theorem Countable.rest (h : Countable device_class dm (.enter d :: cs)) :
    Countable device_class (counted device_class dm d) cs := by
  intro id
  have hid := h id
  unfold acquired at hid ⊢
  rw [instances_counted h]
  rw [List.countP_cons] at hid
  simp only [decide_eq_true_eq] at hid
  omega

theorem Countable.rest_alias {name : List UInt8}
    (h : Countable device_class dm (.add_device_alias name d :: cs)) :
    Countable device_class dm cs := by
  intro id
  have hid := h id
  unfold acquired at hid ⊢
  rwa [List.countP_cons_of_neg (by simp)] at hid

theorem new_name_eq (h : (dm.instances (device_class d).id).toNat < 2 ^ 32) :
    dm.new_name device_class d =
      (device_class d).name ++ decimal (dm.instances (device_class d).id).toNat := by
  unfold new_name
  rw [ToString_eq, UInt64.toNat_toUInt32, Nat.mod_eq_of_lt h]

/-- A name has its class and a number that the class has not given before. -/
theorem of_mem_assigned (hcount : Countable device_class dm cs) {name : List UInt8}
    (h : (d, name) ∈ assigned device_class dm cs) : Call.enter d ∈ cs ∧
      ∃ k, (dm.instances (device_class d).id).toNat ≤ k ∧
        name = (device_class d).name ++ decimal k := by
  induction cs generalizing dm with
  | nil => cases h
  | cons c cs ih =>
    cases c with
    | enter e =>
      rcases List.mem_cons.mp h with heq | hrest
      · cases heq
        exact ⟨List.mem_cons_self, _, le_rfl, new_name_eq hcount.lt⟩
      · obtain ⟨hmem, k, hk, hname⟩ := ih hcount.rest hrest
        rw [instances_counted hcount] at hk
        exact ⟨List.mem_cons_of_mem _ hmem, k, by omega, hname⟩
    | add_device_alias name e =>
      obtain ⟨hmem, hname⟩ := ih hcount.rest_alias h
      exact ⟨List.mem_cons_of_mem _ hmem, hname⟩

theorem nodup_assigned (hnamed : Named device_class cs) (hcount : Countable device_class dm cs) :
    ((assigned device_class dm cs).map Prod.snd).Nodup := by
  induction cs generalizing dm with
  | nil => exact List.nodup_nil
  | cons c cs ih =>
    cases c with
    | enter d =>
      refine List.nodup_cons.mpr ⟨fun hmem => ?_, ih hnamed.rest hcount.rest⟩
      obtain ⟨⟨e, name⟩, hin, hsame⟩ := List.mem_map.mp hmem
      obtain ⟨he, k, hk, hname⟩ := of_mem_assigned hcount.rest hin
      -- Two equal names are of one class, which has counted on in between.
      have hd : Call.enter d ∈ Call.enter d :: cs := List.mem_cons_self
      have he' : Call.enter e ∈ Call.enter d :: cs := List.mem_cons_of_mem _ he
      have heq := hname.symm.trans (hsame.trans (new_name_eq hcount.lt))
      obtain ⟨hclass, hnumber⟩ := append_digits_inj (digits_of_decimal _) (digits_of_decimal _)
        (hnamed.no_digit e he') (hnamed.no_digit d hd) heq
      have hid : (device_class d).id = (device_class e).id := by
        by_contra hne
        exact hnamed.different d e hd he' hne hclass.symm
      have hk' := decimal_injective hnumber
      rw [instances_counted hcount, if_pos hid, hid.symm] at hk
      omega
    | add_device_alias name d => exact ih hnamed.rest hcount.rest_alias

theorem assigned_congr (h : dm'.instances = dm.instances) :
    assigned device_class dm' cs = assigned device_class dm cs := by
  induction cs generalizing dm dm' with
  | nil => rfl
  | cons c cs ih =>
    cases c with
    | enter d =>
      have hname : dm'.new_name device_class d = dm.new_name device_class d := by
        unfold new_name
        rw [h]
      unfold assigned
      rw [hname]
      refine congrArg _ (ih ?_)
      dsimp only [Call.rename]
      rw [h]
    | add_device_alias name d => exact ih h

/-- A registered device has a name that it was given, and any other device keeps its name. -/
theorem run_names (hv : dm._devices.Valid) (hr : (system alloc device_class C).Run dm cs dm') (d : ℕ) :
    (Call.enter d ∈ cs → (d, dm'.names d) ∈ assigned device_class dm cs) ∧
      (Call.enter d ∉ cs → dm'.names d = dm.names d) := by
  induction hr with
  | nil => exact ⟨fun h => absurd h List.not_mem_nil, fun _ => rfl⟩
  | @cons dm dm₁ dm₂ c cs _ hs _ ih =>
    obtain ⟨hst, hren⟩ := stored_step hv hs
    obtain ⟨hin, hout⟩ := ih hst.valid
    have hnames := congrArg Prod.fst hren
    have hinstances := congrArg Prod.snd hren
    dsimp only at hnames hinstances
    cases c with
    | enter e =>
      have hassigned : assigned device_class dm (.enter e :: cs) =
          (e, dm.new_name device_class e) :: assigned device_class dm₁ cs :=
        congrArg _ (assigned_congr hinstances).symm
      have hname : dm₁.names = Function.update dm.names e (dm.new_name device_class e) := hnames
      rw [hassigned]
      by_cases hcs : Call.enter d ∈ cs
      · exact ⟨fun _ => List.mem_cons_of_mem _ (hin hcs), fun h => absurd (List.mem_cons_of_mem _ hcs) h⟩
      · rw [hout hcs, hname]
        by_cases hd : d = e
        · rw [hd, Function.update_self]
          exact ⟨fun _ => List.mem_cons_self, fun h => absurd List.mem_cons_self h⟩
        · rw [Function.update_of_ne hd]
          refine ⟨fun h => ?_, fun _ => rfl⟩
          rcases List.mem_cons.mp h with heq | hrest
          · exact absurd (Call.enter.inj heq) hd
          · exact absurd hrest hcs
    | add_device_alias name e =>
      have hassigned : assigned device_class dm (.add_device_alias name e :: cs) =
          assigned device_class dm₁ cs := (assigned_congr hinstances).symm
      have hname : dm₁.names = dm.names := hnames
      have hcs : Call.enter d ∈ Call.add_device_alias name e :: cs ↔ Call.enter d ∈ cs := by simp
      rw [hassigned, hcs, ← hname]
      exact ⟨hin, hout⟩

/-- In every run, the names that are given are numerals behind the names of classes, and no name is given
twice. -/
theorem names_distinct (hnamed : Named device_class cs)
    (hcount : ∀ id, acquired device_class id cs < 2 ^ 32)
    (hr : (system alloc device_class fun _ => True).Run start cs dm) :
    (∀ v, ToString v = decimal v.toNat) ∧ ((assigned device_class start cs).map Prod.snd).Nodup ∧
      ∀ d d', Call.enter d ∈ cs → Call.enter d' ∈ cs → d ≠ d' → dm.names d ≠ dm.names d' := by
  have hcountable : Countable device_class start cs := fun id => by
    rw [show (start.instances id).toNat = 0 from rfl, Nat.zero_add]
    exact (hcount id).le
  have hnodup := nodup_assigned hnamed hcountable
  refine ⟨ToString_eq, hnodup, fun d d' hd hd' hne hsame => ?_⟩
  have hin := (run_names Map.valid_empty hr d).1 hd
  have hin' := (run_names Map.valid_empty hr d').1 hd'
  exact hne (congrArg Prod.fst (List.inj_on_of_nodup_map hnodup hin hin' hsame))

/-- A disk and its partitions. -/
def disk_devices : ℕ → DeviceClass
  | 0 => .sub (.root 0) [97, 116, 97] 1
  | _ => .sub (.root 0) [112] 2

def disk_calls : List Call :=
  [.enter 0, .enter 1, .add_device_alias [97, 116, 97, 48, 112, 48] 1, .enter 2]

instance (dm : DeviceManager) (c : Call) :
    Decidable ((system alloc device_class fun _ => True).allowed dm c) := inferInstanceAs (Decidable True)

theorem run_disk : ∃ dm, (system (64 * ·) disk_devices fun _ => True).Run start disk_calls dm := by
  have hsome : ((system (64 * ·) disk_devices fun _ => True).exec start disk_calls).isSome := by
    decide +kernel
  obtain ⟨dm, hdm⟩ := Option.isSome_iff_exists.mp hsome
  exact ⟨dm, System.run_of_exec hdm⟩

theorem named_disk : Named disk_devices disk_calls := by
  constructor
  · intro d d' _ _ hid
    match d, d' with
    | 0, 0 => exact absurd rfl hid
    | 0, d' + 1 => exact (by decide : ([97, 116, 97] : List UInt8) ≠ [112])
    | d + 1, 0 => exact (by decide : ([112] : List UInt8) ≠ [97, 116, 97])
    | d + 1, d' + 1 => exact absurd rfl hid
  · intro d _ c hc
    match d with
    | 0 =>
      cases hc
      rfl
    | d + 1 =>
      cases hc
      rfl

/-- The two partitions are of one class. -/
theorem names_distinct_disk : ∃ dm, (system (64 * ·) disk_devices fun _ => True).Run start disk_calls dm ∧
    dm.names 1 ≠ dm.names 2 := by
  obtain ⟨dm, hr⟩ := run_disk
  have hcount : ∀ id, acquired disk_devices id disk_calls < 2 ^ 32 := fun id =>
    List.countP_le_length.trans_lt (by decide)
  exact ⟨dm, hr, (names_distinct named_disk hcount hr).2.2 1 2 (by decide) (by decide) (by decide)⟩

end DeviceManager

end Infos.Kernel
