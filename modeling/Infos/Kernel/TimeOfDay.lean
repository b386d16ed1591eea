import Infos.Kernel.Algorithms
import Infos.Kernel.Scheduler
import Mathlib.Logic.Function.Iterate

/-!
# The time of day and the ticks

`update_runtime` makes a second of the ticks that are left when they are more than a second, so that
a whole second waits for the next tick.
-/

namespace Infos.Kernel

namespace TimeOfDay

structure Valid (t : TimeOfDay) : Prop where
  hours : t.hours.toNat ≤ 23
  minutes : t.minutes.toNat ≤ 59
  seconds : t.seconds.toNat ≤ 59

def second_of_day (t : TimeOfDay) : ℕ :=
  t.hours.toNat * 3600 + t.minutes.toNat * 60 + t.seconds.toNat

end TimeOfDay

open TimeOfDay

namespace Sys

/-- The nanoseconds of some ticks. -/
def total (ticks : List Nanoseconds) : ℕ := (ticks.map fun d => d.count.toNat).sum

variable {T : Type} [DecidableEq T] {A : SchedulingAlgorithm T} {P : Type}

/-- One call of `update_runtime` after the other. -/
def update_runtimes (ticks : List Nanoseconds) (k : Sys A P) : Sys A P :=
  ticks.foldl (fun k d => k.update_runtime d) k

/-- The seconds that have been made of so many nanoseconds. -/
def made (nanoseconds : ℕ) : ℕ := (nanoseconds - 1) / 10 ^ 9

variable {t tod : TimeOfDay} {ticks : List Nanoseconds} {k : Sys A P} {n : ℕ}

/-! ## One second -/

theorem toNat_succ_le {x : UInt16} {b : ℕ} (hx : x.toNat ≤ b) (hb : b < 60) :
    (x + 1).toNat = x.toNat + 1 := by
  have hone : (1 : UInt16).toNat = 1 := rfl
  rw [UInt16.toNat_add, hone]
  omega

theorem increment_tod_spec (h : t.Valid) : (increment_tod t).Valid ∧
    (increment_tod t).second_of_day = (t.second_of_day + 1) % 86400 := by
  obtain ⟨hh, hm, hs⟩ := h
  have hs' := toNat_succ_le hs (by decide)
  have hm' := toNat_succ_le hm (by decide)
  have hh' := toNat_succ_le hh (by decide)
  have hzero : (0 : UInt16).toNat = 0 := rfl
  have h59 : (59 : UInt16).toNat = 59 := rfl
  have h23 : (23 : UInt16).toNat = 23 := rfl
  unfold increment_tod second_of_day
  simp only [UInt16.le_iff_toNat_le, hs', hm', hh', h59, h23]
  split
  · refine ⟨⟨hh, hm, ?_⟩, ?_⟩ <;> dsimp only <;> omega
  · split
    · refine ⟨⟨hh, ?_, ?_⟩, ?_⟩ <;> dsimp only <;> omega
    · split
      · refine ⟨⟨?_, ?_, ?_⟩, ?_⟩ <;> dsimp only <;> omega
      next hlast =>
        have hday : t.hours.toNat = 23 ∧ t.minutes.toNat = 59 ∧ t.seconds.toNat = 59 := by omega
        rw [hday.1, hday.2.1, hday.2.2]
        exact ⟨⟨by decide, by decide, by decide⟩, by decide⟩

theorem iterate_spec (h : t.Valid) (n : ℕ) : (increment_tod^[n] t).Valid ∧
    (increment_tod^[n] t).second_of_day % 86400 = (t.second_of_day + n) % 86400 := by
  induction n with
  | zero => exact ⟨h, congrArg (· % 86400) (Nat.add_zero _).symm⟩
  | succ n ih =>
    obtain ⟨hvalid, hsecond⟩ := ih
    rw [Function.iterate_succ_apply']
    obtain ⟨hvalid', hsecond'⟩ := increment_tod_spec hvalid
    refine ⟨hvalid', ?_⟩
    rw [hsecond']
    omega

theorem second_of_day_lt (h : t.Valid) : t.second_of_day < 86400 := by
  obtain ⟨hh, hm, hs⟩ := h
  unfold second_of_day
  omega

/-! ## The loop -/

theorem catch_up_spec (n : ℕ) (ticks : Nanoseconds) (tod : TimeOfDay)
    (h : ticks._val.toNat ≤ n * 10 ^ 9) :
    (catch_up n ticks tod).1._val.toNat + made ticks._val.toNat * 10 ^ 9 = ticks._val.toNat ∧
      (catch_up n ticks tod).2 = increment_tod^[made ticks._val.toNat] tod := by
  induction n generalizing ticks tod with
  | zero =>
    have hzero : made ticks._val.toNat = 0 := by
      unfold made
      omega
    rw [hzero]
    exact ⟨by rw [Nat.zero_mul, Nat.add_zero]; rfl, rfl⟩
  | succ n ih =>
    have hone : one_second._val.toNat = 10 ^ 9 := rfl
    unfold catch_up
    split
    next hlt =>
      rw [Nanoseconds.lt_iff, hone] at hlt
      have hreduce : (ticks.reduce one_second)._val.toNat = ticks._val.toNat - 10 ^ 9 := by
        unfold Nanoseconds.reduce
        dsimp only
        rw [UInt64.toNat_sub_of_le _ _ (by rw [UInt64.le_iff_toNat_le]; omega), hone]
      have hmade : made ticks._val.toNat = made (ticks._val.toNat - 10 ^ 9) + 1 := by
        unfold made
        omega
      obtain ⟨hleft, htod⟩ := ih (ticks.reduce one_second) (increment_tod tod) (by omega)
      rw [hreduce] at hleft htod
      rw [hmade, Function.iterate_succ_apply]
      rw [Nat.add_mul, Nat.one_mul, ← Nat.add_assoc, hleft]
      exact ⟨by omega, htod⟩
    next hge =>
      rw [Nanoseconds.lt_iff, hone] at hge
      have hzero : made ticks._val.toNat = 0 := by
        unfold made
        omega
      rw [hzero]
      exact ⟨by rw [Nat.zero_mul, Nat.add_zero], rfl⟩

/-! ## Runs -/

/-- After so many nanoseconds, a multiple of a second has gone into the time of day. -/
theorem update_runtimes_spec (hsince : k._ticks_since_last_tod_update = ⟨0⟩)
    (htotal : total ticks < 2 ^ 64) :
    (k.update_runtimes ticks)._ticks_since_last_tod_update._val.toNat +
        made (total ticks) * 10 ^ 9 = total ticks ∧
      (k.update_runtimes ticks)._tod = increment_tod^[made (total ticks)] k._tod := by
  induction ticks using List.reverseRecOn with
  | nil =>
    show k._ticks_since_last_tod_update._val.toNat + 0 = 0 ∧ k._tod = k._tod
    rw [hsince]
    exact ⟨rfl, rfl⟩
  | append_singleton ticks d ih =>
    have hsum : total (ticks ++ [d]) = total ticks + d._val.toNat := by
      unfold total
      rw [List.map_append, List.sum_append]
      rfl
    rw [hsum] at htotal ⊢
    obtain ⟨hleft, htod⟩ := ih (by omega)
    have hrun : k.update_runtimes (ticks ++ [d]) = (k.update_runtimes ticks).update_runtime d :=
      List.foldl_concat ..
    rw [hrun]
    generalize k.update_runtimes ticks = k' at hleft htod ⊢
    have hadd : (k'._ticks_since_last_tod_update + d)._val.toNat =
        k'._ticks_since_last_tod_update._val.toNat + d._val.toNat := by
      rw [Nanoseconds.add_val, UInt64.toNat_add]
      omega
    obtain ⟨hleft', htod'⟩ := catch_up_spec
      ((k'._ticks_since_last_tod_update + d).count.toNat / 10 ^ 9 + 1)
      (k'._ticks_since_last_tod_update + d) k'._tod (by unfold Nanoseconds.count; omega)
    rw [hadd] at hleft' htod'
    have hmade : made (total ticks + d._val.toNat) =
        made (k'._ticks_since_last_tod_update._val.toNat + d._val.toNat) + made (total ticks) := by
      unfold made at hleft ⊢
      omega
    unfold update_runtime
    dsimp only
    rw [hmade, Function.iterate_add_apply, ← htod, Nat.add_mul, ← Nat.add_assoc, hleft']
    exact ⟨by omega, htod'⟩

/-- The time of day is that of the ticks exactly if they are not a whole number of seconds. -/
theorem tod_follows_iff (hsince : k._ticks_since_last_tod_update = ⟨0⟩) (hvalid : k._tod.Valid)
    (htotal : total ticks < 2 ^ 64) :
    (k.update_runtimes ticks)._tod.Valid ∧
      ((k.update_runtimes ticks)._tod.second_of_day =
          (k._tod.second_of_day + total ticks / 10 ^ 9) % 86400 ↔
        total ticks = 0 ∨ ¬10 ^ 9 ∣ total ticks) := by
  obtain ⟨-, htod⟩ := update_runtimes_spec hsince htotal
  obtain ⟨hvalid', hsecond⟩ := iterate_spec hvalid (made (total ticks))
  rw [← htod] at hvalid' hsecond
  refine ⟨hvalid', ?_⟩
  rw [Nat.mod_eq_of_lt (second_of_day_lt hvalid')] at hsecond
  rw [hsecond]
  have hmade : made (total ticks) + (if total ticks = 0 ∨ ¬10 ^ 9 ∣ total ticks then 0 else 1) =
      total ticks / 10 ^ 9 := by
    unfold made
    split <;> omega
  rw [← hmade]
  split
  next h => exact iff_of_true (by rw [Nat.add_zero]) h
  next h =>
    refine iff_of_false ?_ h
    omega

/-- A system in which it is midnight. -/
def midnight : Sys (CompletelyFairScheduler (Fin 3)) Unit := boot _ 0 [1] fun _ => [1, 2]

theorem tod_follows_iff_tick :
    (midnight.update_runtimes [tick_length])._tod.Valid ∧
      ((midnight.update_runtimes [tick_length])._tod.second_of_day =
          (midnight._tod.second_of_day + total [tick_length] / 10 ^ 9) % 86400 ↔
        total [tick_length] = 0 ∨ ¬10 ^ 9 ∣ total [tick_length]) :=
  tod_follows_iff rfl ⟨by decide, by decide, by decide⟩ (by decide)

/-- After a hundred ticks it is still midnight. -/
theorem second_waits : (midnight.update_runtimes (List.replicate 100 tick_length))._tod.second_of_day ≠
    (midnight._tod.second_of_day + total (List.replicate 100 tick_length) / 10 ^ 9) % 86400 := by
  decide +kernel

end Sys

end Infos.Kernel
