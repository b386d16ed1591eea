import Infos.Kernel.Algorithms

/-!
# The shares of the processor stay balanced

While the run queue stays the same, the completely fair algorithm lets no two runtimes drift apart
by more than one charge.
-/

namespace Infos.Kernel.CompletelyFairScheduler

variable {T : Type} [DecidableEq T]

/-- The entity that is picked runs for `delta`. -/
def pick_and_charge (runqueue : List T) (delta : Nanoseconds) (cpu_runtime : T → Nanoseconds) :
    T → Nanoseconds :=
  match pick_next_entity cpu_runtime runqueue with
  | none => cpu_runtime
  | some entity => increment_cpu_runtime entity delta cpu_runtime

/-- The runtimes after some charges. -/
def charged (runqueue : List T) : List Nanoseconds → (T → Nanoseconds) → T → Nanoseconds
  | [], cpu_runtime => cpu_runtime
  | delta :: deltas, cpu_runtime =>
    charged runqueue deltas (pick_and_charge runqueue delta cpu_runtime)

/-- No charge wraps the runtime of the entity that is picked. -/
def NoWrap (runqueue : List T) : List Nanoseconds → (T → Nanoseconds) → Prop
  | [], _ => True
  | delta :: deltas, cpu_runtime =>
    (∀ entity ∈ pick_next_entity cpu_runtime runqueue,
      (cpu_runtime entity)._val.toNat + delta._val.toNat < 2 ^ 64) ∧
    NoWrap runqueue deltas (pick_and_charge runqueue delta cpu_runtime)

def nanoseconds (r : T → Nanoseconds) (q : List T) : List ℕ := q.map fun x => (r x)._val.toNat

/-- The difference between the largest and the smallest runtime. -/
def spread (r : T → Nanoseconds) (q : List T) : ℕ :=
  (nanoseconds r q).max?.getD 0 - (nanoseconds r q).min?.getD 0

omit [DecidableEq T] in
theorem spread_le {r : T → Nanoseconds} {q : List T} {n : ℕ} (hq : q ≠ []) :
    spread r q ≤ n ↔ ∀ x ∈ q, ∀ y ∈ q, (r x)._val.toNat ≤ (r y)._val.toNat + n := by
  have hne : nanoseconds r q ≠ [] := by
    unfold nanoseconds
    simpa using hq
  obtain ⟨hi, hhi⟩ := Option.ne_none_iff_exists'.mp (mt List.max?_eq_none_iff.mp hne)
  obtain ⟨lo, hlo⟩ := Option.ne_none_iff_exists'.mp (mt List.min?_eq_none_iff.mp hne)
  unfold spread
  rw [hhi, hlo, Option.getD_some, Option.getD_some]
  rw [List.max?_eq_some_iff] at hhi
  rw [List.min?_eq_some_iff] at hlo
  unfold nanoseconds at hhi hlo
  simp only [List.mem_map, forall_exists_index, and_imp, forall_apply_eq_imp_iff₂] at hhi hlo
  obtain ⟨⟨x, hx, hxhi⟩, hhi⟩ := hhi
  obtain ⟨⟨y, hy, hylo⟩, hlo⟩ := hlo
  constructor
  · intro h z hz w hw
    have := hhi z hz
    have := hlo w hw
    omega
  · intro h
    have := h x hx y hy
    omega

/-- One charge keeps the runtimes within any bound that it does not exceed itself. -/
theorem spread_pick_and_charge {q : List T} {r : T → Nanoseconds} {d : Nanoseconds} {n : ℕ}
    (hq : q ≠ []) (hd : d._val.toNat ≤ n)
    (hwrap : ∀ e ∈ pick_next_entity r q, (r e)._val.toNat + d._val.toNat < 2 ^ 64)
    (h : spread r q ≤ n) : spread (pick_and_charge q d r) q ≤ n := by
  rw [spread_le hq] at h ⊢
  obtain ⟨m, hm, hmem, hmin⟩ := pick_spec r hq
  have hwrap := hwrap m hm
  have hval : (r m + d)._val.toNat = (r m)._val.toNat + d._val.toNat := by
    rw [Nanoseconds.add_val, UInt64.toNat_add, Nat.mod_eq_of_lt hwrap]
  unfold pick_and_charge
  rw [hm]
  intro x hx y hy
  simp only [increment_cpu_runtime, Function.update_apply]
  have hxm := h x hx m hmem
  have hxy := h x hx y hy
  have hmy := hmin y hy
  split
  · rw [hval]
    split
    · rw [hval]
      omega
    · omega
  · split
    · rw [hval]
      omega
    · exact hxy

/-- Where no charge is longer than `D` and no runtime wraps. -/
theorem spread_charged {q : List T} (hq : q ≠ []) (D : ℕ) (r : T → Nanoseconds)
    (deltas : List Nanoseconds) (hD : ∀ delta ∈ deltas, delta._val.toNat ≤ D)
    (hwrap : NoWrap q deltas r) : spread (charged q deltas r) q ≤ max (spread r q) D := by
  have hrun : ∀ n, D ≤ n → spread r q ≤ n → spread (charged q deltas r) q ≤ n := by
    intro n hDn h
    induction deltas generalizing r with
    | nil => exact h
    | cons delta deltas ih =>
      refine ih _ (fun d hd => hD d (List.mem_cons_of_mem _ hd)) hwrap.2 ?_
      exact spread_pick_and_charge hq ((hD delta List.mem_cons_self).trans hDn) hwrap.1 h
  exact hrun _ (le_max_right _ _) (le_max_left _ _)

theorem spread_charged_of_two : spread (charged [0, 1] [⟨10⟩, ⟨10⟩, ⟨10⟩]
    fun e : ℕ => if e = 0 then ⟨7⟩ else ⟨0⟩) [0, 1] ≤ max 7 10 :=
  spread_charged (by decide) 10 _ _ (by decide) (by
    simp only [NoWrap]
    decide)

end Infos.Kernel.CompletelyFairScheduler
