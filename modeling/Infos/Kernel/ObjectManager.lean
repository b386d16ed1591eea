import Infos.Util.MapRuns

/-!
# Handles

The object manager keeps one map for the objects of all processes. `process` is the owner of a
thread, and `NULL` is `none`.
-/

open Infos.Prog Infos.Util

namespace Infos.Kernel

structure ObjectDescriptor (T O : Type) where
  owner : T
  object : Option O
  deriving DecidableEq, Repr

structure ObjectManager (T O : Type) where
  _next_handle : UInt64
  _objects : Map UInt64 (ObjectDescriptor T O)

variable {T P O α : Type}

namespace ObjectManager

abbrev Op (T O α : Type) := StateT (ObjectManager T O) (Except Util.Fault) α

def init : ObjectManager T O := ⟨1, Map.empty⟩

def objects (x : Util.Op UInt64 (ObjectDescriptor T O) α) : Op T O α := fun m =>
  (x m._objects).map fun r => (r.1, { m with _objects := r.2 })

/-- `addr` is where the allocator has memory for the node of the map. -/
def register_object (addr : ℕ) (owner : T) (obj : Option O) : Op T O UInt64 := do
  let handle := (← get)._next_handle
  modify fun m => { m with _next_handle := m._next_handle + 1 }
  objects (Map.add addr handle ⟨owner, obj⟩)
  return handle

def get_object_secure [DecidableEq P] (process : T → P) (owner : T) (handle : UInt64) :
    Op T O (Option O) := do
  match ← objects (Map.try_get_value handle) with
  | none => return none
  | some obj =>
    if process obj.owner ≠ process owner then return none
    return obj.object

/-! ## Runs -/

inductive Call (T O : Type) where
  | register_object (addr : ℕ) (owner : T) (obj : Option O)
  | get_object_secure (owner : T) (handle : UInt64)
  deriving DecidableEq, Repr

/-- The manager, and what was registered under which handle by then. -/
structure Registry (T O : Type) where
  manager : ObjectManager T O
  issued : List (UInt64 × ObjectDescriptor T O)

def system (O : Type) [DecidableEq P] (process : T → P) : System (Registry T O) (Call T O) Util.Fault where
  start s := s = ⟨init, []⟩
  allowed _ _ := True
  step s
    | .register_object addr owner obj => (register_object addr owner obj s.manager).map fun r =>
        ⟨r.2, s.issued ++ [(r.1, ⟨owner, obj⟩)]⟩
    | .get_object_secure owner handle =>
        (get_object_secure process owner handle s.manager).map fun r => ⟨r.2, s.issued⟩

/-- The handles so far are those from 1 on, and the map has what was registered under them. -/
structure Inv (s : Registry T O) : Prop where
  next : s.manager._next_handle = UInt64.ofNat (s.issued.length + 1)
  handles : s.issued.map Prod.fst = (List.range s.issued.length).map fun i => UInt64.ofNat (i + 1)
  objects : ∃ t, Map.Holds s.issued s.manager._objects t
  room : s.issued.length < PMEM_VA_SIZE

variable {m : ObjectManager T O} {s s' : Registry T O} {t : T} {h : UInt64}
  {od : ObjectDescriptor T O}

@[simp] theorem ends_objects {x : Util.Op UInt64 (ObjectDescriptor T O) α}
    {Q : α → ObjectManager T O → Prop} {E : Util.Fault → Prop} : Ends (objects x) m Q E ↔
      Ends x m._objects (fun a o => Q a { m with _objects := o }) E := by
  unfold Ends objects
  cases x m._objects <;> rfl

theorem handles_nodup {n : ℕ} (hn : n < 2 ^ 64) :
    ((List.range n).map fun i => UInt64.ofNat (i + 1)).Nodup := by
  refine List.Nodup.map_on (fun i hi j hj hij => ?_) List.nodup_range
  rw [List.mem_range] at hi hj
  have := congrArg UInt64.toNat hij
  rw [UInt64.toNat_ofNat_of_lt' (by unfold UInt64.size; omega),
    UInt64.toNat_ofNat_of_lt' (by unfold UInt64.size; omega)] at this
  omega

theorem Inv.nodup (hi : Inv s) : (s.issued.map Prod.fst).Nodup := by
  have := hi.room
  unfold PMEM_VA_SIZE at this
  rw [hi.handles]
  exact handles_nodup (by omega)

theorem inv_init : Inv (⟨init, []⟩ : Registry T O) :=
  ⟨rfl, rfl, ⟨.leaf, Map.holds_empty⟩, show 0 < PMEM_VA_SIZE by decide⟩

theorem Inv.register {addr : ℕ} {obj : Option O} (hi : Inv s) :
    Ends (register_object addr t obj) s.manager
      (fun handle m' => Inv ⟨m', s.issued ++ [(handle, ⟨t, obj⟩)]⟩ ∧
        handle = UInt64.ofNat (s.issued.length + 1)) fun e => e = .no_memory ∧
        ¬ (s.manager._objects.node addr = none ∧ addr + 24 ≤ PMEM_VA_SIZE) := by
  obtain ⟨T, hT⟩ := hi.objects
  unfold register_object
  simp only [ends_bind, ends_get, ends_modify, ends_objects]
  refine ends_mono hT.add_spec ?_
  rintro - o ⟨⟨T', hT'⟩, -⟩
  rw [ends_pure]
  have hhandles : (s.issued ++ [(s.manager._next_handle, (⟨t, obj⟩ : ObjectDescriptor _ O))]).map Prod.fst =
      (List.range (s.issued.length + 1)).map fun i => UInt64.ofNat (i + 1) := by
    rw [List.map_append, hi.handles, List.range_succ, List.map_append, hi.next]
    rfl
  have hlen : T'.size = s.issued.length + 1 := by
    have := hi.room
    unfold PMEM_VA_SIZE at this
    have hnd := handles_nodup (n := s.issued.length + 1) (by omega)
    rw [← hhandles] at hnd
    rw [hT'.size_eq hnd, List.length_append, List.length_singleton]
  refine ⟨⟨?_, ?_, ⟨T', hT'⟩, ?_⟩, hi.next⟩
  · dsimp only
    rw [hi.next, List.length_append, List.length_singleton, UInt64.ofNat_add (_ + 1)]
    rfl
  · rw [List.length_append]
    exact hhandles
  · have := hT'.rep.size_lt
    rw [List.length_append, List.length_singleton]
    unfold PMEM_VA_SIZE at this ⊢
    omega

/-- There is memory for another node while there are few. -/
theorem Inv.exists_free (hi : Inv s) (hlt : s.issued.length < 2 ^ 20) :
    ∃ addr, s.manager._objects.node addr = none ∧ addr + 24 ≤ PMEM_VA_SIZE := by
  obtain ⟨T, hT⟩ := hi.objects
  by_contra hno
  have hsub : (List.range (s.issued.length + 1)).map (64 * ·) ⊆ Map.addrs T := by
    intro a ha
    obtain ⟨i, hmem, rfl⟩ := List.mem_map.mp ha
    rw [List.mem_range] at hmem
    refine hT.rep.only _ fun hnone => hno ⟨64 * i, hnone, ?_⟩
    unfold PMEM_VA_SIZE
    omega
  have hnd : ((List.range (s.issued.length + 1)).map (64 * ·)).Nodup :=
    List.nodup_range.map fun i j hij => by omega
  have := (hnd.subperm hsub).length_le
  rw [List.length_map, List.length_range, Map.addrs, List.length_map, RedBlack.RBTree.size_toList,
    hT.size_eq hi.nodup] at this
  omega

theorem get_object_secure_spec [DecidableEq P] {process : T → P} (hi : Inv s) :
    get_object_secure process t h s.manager = .ok
      ((Map.last h s.issued).bind fun od =>
        if process od.owner = process t then od.object else none, s.manager) := by
  obtain ⟨T, hT⟩ := hi.objects
  obtain ⟨o, m', ho, rfl, rfl⟩ := Map.try_get_value_spec (k := h) hT.rep
  have hget : (objects (Map.try_get_value h)) s.manager = .ok (Map.last h s.issued, s.manager) := by
    unfold objects
    rw [ho, hT.value]
    rfl
  unfold get_object_secure
  rw [bind_eq, hget]
  cases Map.last h s.issued with
  | none => rfl
  | some od =>
    by_cases hp : process od.owner = process t <;> simp [hp] <;> rfl

theorem Inv.reachable [DecidableEq P] {process : T → P} (hr : (system O process).Reachable s) :
    Inv s := by
  refine hr.preserves (fun s hs => hs ▸ inv_init) fun s c s' hi _ hs => ?_
  cases c with
  | register_object addr owner obj =>
    obtain ⟨⟨_, _⟩, hx, rfl⟩ := map_eq_ok hs
    exact (ends_ok hi.register hx).1
  | get_object_secure owner handle =>
    obtain ⟨⟨_, _⟩, hx, rfl⟩ := map_eq_ok hs
    rw [get_object_secure_spec hi] at hx
    cases hx
    exact hi

/-- Each handle is a new one, and gives its object to the threads of one process only. -/
theorem handles_private [DecidableEq P] {process : T → P} (hr : (system O process).Reachable s) :
    (s.issued.map Prod.fst).Nodup ∧
    (∀ t h od, (h, od) ∈ s.issued → get_object_secure process t h s.manager =
      .ok (if process od.owner = process t then od.object else none, s.manager)) ∧
    ∀ t h, h ∉ s.issued.map Prod.fst →
      get_object_secure process t h s.manager = .ok (none, s.manager) := by
  have hi := Inv.reachable hr
  refine ⟨hi.nodup, fun t h od hmem => ?_, fun t h hno => ?_⟩
  · rw [get_object_secure_spec hi, Map.last_eq_some hi.nodup hmem]
    rfl
  · rw [get_object_secure_spec hi, Map.last_eq_none.mpr hno]
    rfl

instance [DecidableEq P] (process : T → P) (s : Registry T O) (c : Call T O) :
    Decidable ((system O process).allowed s c) := inferInstanceAs (Decidable True)

/-- Threads `0` and `1` are of one process, and `2` is of another. -/
theorem handles_private_three : ∃ s, (system ℕ (· / 2)).Reachable s ∧
    get_object_secure (· / 2) 1 1 s.manager = .ok (some 70, s.manager) ∧
      get_object_secure (· / 2) 2 1 s.manager = .ok (none, s.manager) ∧
      get_object_secure (· / 2) 2 3 s.manager = .ok (none, s.manager) := by
  have hrun : ((system ℕ (· / 2)).exec ⟨init, []⟩ [.register_object 0 0 (some 70),
      .register_object 64 2 (some 80), .get_object_secure 2 1]).map Registry.issued =
      some [(1, ⟨0, some 70⟩), (2, ⟨2, some 80⟩)] := by decide +kernel
  obtain ⟨s, hs, hissued⟩ := Option.map_eq_some_iff.mp hrun
  have hr : (system ℕ (· / 2)).Reachable s := ⟨_, _, rfl, System.run_of_exec hs⟩
  obtain ⟨-, hown, hother⟩ := handles_private hr
  exact ⟨s, hr, hown 1 1 ⟨0, some 70⟩ (by simp [hissued]), hown 2 1 ⟨0, some 70⟩ (by simp [hissued]),
    hother 2 3 (by simp [hissued])⟩

end ObjectManager

end Infos.Kernel
