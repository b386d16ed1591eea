import Infos.Lib.System

/-!
# Tables that are asked by a key of the name

A table has places, and at each of them values that were put there under names. It keeps the key
of a name and not the name, so it does not tell two names with the same key apart.
-/

namespace Infos

/-- A value is put at a place, under a name. -/
structure Put (P N V : Type) where
  place : P
  name : N
  value : V
  deriving DecidableEq

variable {P N V K : Type} {key : N → K} {same : N → N → Prop} {get get' : P → K → Option V}
  {puts puts' : List (Put P N V)}

/-- A lookup gives what was put last under a name that is the same. It gives nothing that was put
under another name, and what is put under another name does not replace it. -/
structure Unconfused (same : N → N → Prop) (lookup : P → N → V → Prop) (puts : List (Put P N V)) :
    Prop where
  found : ∀ i n v, lookup i n v → ∃ e ∈ puts, e.place = i ∧ same e.name n ∧ e.value = v
  kept : ∀ before e after, puts = before ++ e :: after →
    (∀ x ∈ after, x.place = e.place → ¬ same x.name e.name) → lookup e.place e.name e.value

theorem Unconfused.congr {lookup lookup' : P → N → V → Prop} (h : Unconfused same lookup puts)
    (hl : ∀ i n v, lookup' i n v ↔ lookup i n v) : Unconfused same lookup' puts :=
  ⟨fun i n v hv => h.found i n v ((hl i n v).mp hv),
    fun before e after hp ha => (hl _ _ _).mpr (h.kept before e after hp ha)⟩

/-- The table has the values under the keys of their names. -/
def Keyed (key : N → K) (get : P → K → Option V) (puts : List (Put P N V)) : Prop :=
  Unconfused (fun a b => key a = key b) (fun i n v => get i (key n) = some v) puts

theorem keyed_nil (h : ∀ i k, get i k = none) : Keyed key get ([] : List (Put P N V)) := by
  constructor
  · intro i n v hv
    simp [h] at hv
  · intro before e after hp
    simp at hp

theorem Keyed.congr (hk : Keyed key get puts) (h : ∀ i k, get' i k = get i k) :
    Keyed key get' puts := Unconfused.congr hk fun i n v => by rw [h]

/-- A value is put into the table. -/
theorem Keyed.put {e : Put P N V} (hk : Keyed key get puts)
    (hself : get' e.place (key e.name) = some e.value)
    (hrest : ∀ i k, ¬ (i = e.place ∧ k = key e.name) → get' i k = get i k) :
    Keyed key get' (puts ++ [e]) := by
  constructor
  · intro i n v hv
    by_cases he : i = e.place ∧ key n = key e.name
    · obtain ⟨rfl, hn⟩ := he
      rw [hn, hself] at hv
      exact ⟨e, by simp, rfl, hn.symm, Option.some.inj hv⟩
    · rw [hrest _ _ he] at hv
      obtain ⟨x, hx, hfound⟩ := hk.found i n v hv
      exact ⟨x, List.mem_append_left _ hx, hfound⟩
  · intro before x after hp hafter
    rcases List.eq_nil_or_concat after with rfl | ⟨mid, y, rfl⟩
    · obtain ⟨-, he⟩ := List.append_inj' hp rfl
      obtain rfl : e = x := by simpa using he
      exact hself
    · rw [List.concat_eq_append, ← List.cons_append, ← List.append_assoc] at hp
      obtain ⟨hputs, he⟩ := List.append_inj' hp rfl
      obtain rfl : e = y := by simpa using he
      rw [hrest]
      · refine hk.kept before x mid hputs fun z hz => hafter z ?_
        simp [hz]
      · rintro ⟨hplace, hkey⟩
        exact hafter e (by simp) hplace.symm hkey.symm

/-- A place is cleared. -/
theorem Keyed.clear [DecidableEq P] {i : P} (hk : Keyed key get puts)
    (hself : ∀ k, get' i k = none) (hrest : ∀ j ≠ i, ∀ k, get' j k = get j k) :
    Keyed key get' (puts.filter fun e => e.place ≠ i) := by
  constructor
  · intro j n v hv
    have hj : j ≠ i := by
      rintro rfl
      simp [hself] at hv
    rw [hrest j hj] at hv
    obtain ⟨e, he, rfl, hfound⟩ := hk.found j n v hv
    exact ⟨e, List.mem_filter.mpr ⟨he, by simpa using hj⟩, rfl, hfound⟩
  · intro before e after hp hafter
    obtain ⟨l₁, l₂, rfl, rfl, h₂⟩ := List.filter_eq_append_iff.mp hp
    obtain ⟨m₁, m₂, rfl, hm₁, he, rfl⟩ := List.filter_eq_cons_iff.mp h₂
    have hplace : e.place ≠ i := by simpa using he
    rw [hrest _ hplace]
    refine hk.kept (l₁ ++ m₁) e m₂ (by simp) fun x hx hxe => ?_
    exact hafter x (List.mem_filter.mpr ⟨hx, by simpa [hxe] using hplace⟩) hxe

/-! ## Runs -/

/-- Calls on a state, with what was put by them. `log` says which puts there are after a call, by
the state it was made in and by its answer. -/
def logged {σ γ ε ρ : Type} (start : σ → Prop) (allowed : σ → γ → Prop)
    (run : γ → StateT σ (Except ε) ρ)
    (log : σ → γ → ρ → List (Put P N V) → List (Put P N V)) :
    System (σ × List (Put P N V)) γ ε where
  start s := start s.1 ∧ s.2 = []
  allowed s c := allowed s.1 c
  step s c := (run c s.1).map fun r => (r.2, log s.1 c r.1 s.2)

/-- What each call does to a table and to the puts, all of the calls do. -/
theorem keyed_reachable {σ γ ε ρ : Type} {start : σ → Prop} {allowed : σ → γ → Prop}
    {run : γ → StateT σ (Except ε) ρ}
    {log : σ → γ → ρ → List (Put P N V) → List (Put P N V)} {s : σ} (Inv : σ → Prop)
    (get : σ → P → K → Option V)
    (hr : (logged start allowed run log).Reachable (s, puts))
    (hstart : ∀ s, start s → Inv s ∧ ∀ i k, get s i k = none)
    (hstep : ∀ s c r t puts, Inv s → allowed s c → run c s = .ok (r, t) →
      Keyed key (get s) puts → Inv t ∧ Keyed key (get t) (log s c r puts)) :
    Inv s ∧ Keyed key (get s) puts := by
  refine System.Reachable.preserves (I := fun s => Inv s.1 ∧ Keyed key (get s.1) s.2) hr ?_ ?_
  · rintro ⟨s, puts⟩ ⟨hs, rfl⟩
    obtain ⟨hi, hnone⟩ := hstart s hs
    exact ⟨hi, keyed_nil hnone⟩
  · rintro ⟨s, puts⟩ c t ⟨hi, hk⟩ hc hs
    obtain ⟨⟨r, s'⟩, hx, rfl⟩ := map_eq_ok hs
    exact hstep s c r s' puts hi hc hx hk

end Infos
