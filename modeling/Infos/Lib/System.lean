import Mathlib.Tactic.Common

/-!
# Runs of a system

A system takes one call after another, each of which must be allowed in the state it is made in.
A call that faults has no next state.
-/

namespace Infos

theorem map_eq_ok {ε α β : Type} {x : Except ε α} {g : α → β} {b : β} (h : x.map g = .ok b) :
    ∃ a, x = .ok a ∧ b = g a := by
  cases x with
  | error e => cases h
  | ok a => exact ⟨a, rfl, (Except.ok.inj h).symm⟩

theorem map_eq_error {α β ε : Type} {f : α → β} {x : Except ε α} {e : ε}
    (h : x.map f = .error e) : x = .error e := by
  cases x with
  | error =>
    cases h
    rfl
  | ok => cases h

theorem eq_ok_of_toOption {ε β : Type} {x : Except ε β} {b : β} (h : x.toOption = some b) :
    x = .ok b := by
  cases x with
  | error e => cases h
  | ok b' => exact congrArg _ (Option.some.inj h)

structure System (σ γ ε : Type) where
  start : σ → Prop
  allowed : σ → γ → Prop
  step : σ → γ → Except ε σ

namespace System

variable {σ γ ε : Type} {S : System σ γ ε} {s t u : σ} {c : γ} {cs ds : List γ}

/-- The calls `cs`, made in turn from `s`, end in `t`. -/
inductive Run (S : System σ γ ε) : σ → List γ → σ → Prop
  | nil (s : σ) : Run S s [] s
  | cons {s t u : σ} {c : γ} {cs : List γ} (hc : S.allowed s c) (hs : S.step s c = .ok t)
      (hr : Run S t cs u) : Run S s (c :: cs) u

def Reachable (S : System σ γ ε) (s : σ) : Prop := ∃ s₀ cs, S.start s₀ ∧ S.Run s₀ cs s

theorem Run.append (h : S.Run s cs t) (h' : S.Run t ds u) : S.Run s (cs ++ ds) u := by
  induction h with
  | nil => exact h'
  | cons hc hs _ ih => exact .cons hc hs (ih h')

theorem Run.split (h : S.Run s (cs ++ ds) u) : ∃ t, S.Run s cs t ∧ S.Run t ds u := by
  induction cs generalizing s with
  | nil => exact ⟨s, .nil s, h⟩
  | cons c cs ih =>
    cases h with
    | cons hc hs hr =>
      obtain ⟨t, hcs, hds⟩ := ih hr
      exact ⟨t, .cons hc hs hcs, hds⟩

theorem Run.last (h : S.Run s (cs ++ [c]) u) :
    ∃ t, S.Run s cs t ∧ S.allowed t c ∧ S.step t c = .ok u := by
  obtain ⟨t, hcs, hd⟩ := h.split
  cases hd with
  | cons hc hs hr =>
    cases hr
    exact ⟨t, hcs, hc, hs⟩

theorem Run.unique (h : S.Run s cs t) (h' : S.Run s cs u) : t = u := by
  induction h with
  | nil =>
    cases h'
    rfl
  | cons _ hs _ ih =>
    cases h' with
    | cons _ hs' hr =>
      cases hs.symm.trans hs'
      exact ih hr

/-- A system that allows more has the same runs. -/
theorem Run.weaken {S' : System σ γ ε} (h : S.Run s cs t) (ha : ∀ s c, S.allowed s c → S'.allowed s c)
    (hs : S.step = S'.step) : S'.Run s cs t := by
  induction h with
  | nil => exact .nil _
  | cons hc hstep _ ih => exact .cons (ha _ _ hc) (hs ▸ hstep) ih

theorem Run.concat (h : S.Run s cs t) (hc : S.allowed t c) (hs : S.step t c = .ok u) :
    S.Run s (cs ++ [c]) u := h.append (.cons hc hs (.nil u))

theorem Reachable.of_start (h : S.start s) : S.Reachable s := ⟨s, [], h, .nil s⟩

theorem Reachable.run (h : S.Reachable s) (hr : S.Run s cs t) : S.Reachable t := by
  obtain ⟨s₀, ds, h0, hd⟩ := h
  exact ⟨s₀, ds ++ cs, h0, hd.append hr⟩

theorem Reachable.step (h : S.Reachable s) (hc : S.allowed s c) (hs : S.step s c = .ok t) :
    S.Reachable t := h.run (.cons hc hs (.nil t))

/-- What every allowed call preserves, every run preserves. -/
theorem Run.preserves {I : σ → Prop} (hr : S.Run s cs t) (h : I s)
    (hstep : ∀ s c t, I s → S.allowed s c → S.step s c = .ok t → I t) : I t := by
  induction hr with
  | nil => exact h
  | cons hc hs _ ih => exact ih (hstep _ _ _ h hc hs)

theorem Reachable.preserves {I : σ → Prop} (hr : S.Reachable s) (h : ∀ s, S.start s → I s)
    (hstep : ∀ s c t, I s → S.allowed s c → S.step s c = .ok t → I t) : I s := by
  obtain ⟨s₀, cs, h0, hd⟩ := hr
  exact hd.preserves (h s₀ h0) hstep

/-- Each of the calls, in the state that it is made in, is one of `P`. -/
def Each (S : System σ γ ε) (P : σ → γ → Prop) : σ → List γ → Prop
  | _, [] => True
  | s, c :: cs => S.allowed s c → P s c ∧ ∀ t, S.step s c = .ok t → S.Each P t cs

/-- Two kinds of calls that are the same as long as all the calls before were of that kind. -/
theorem each_iff {I : σ → Prop} {P Q : σ → γ → Prop} (h : I s)
    (hiff : ∀ s c, I s → S.allowed s c → (P s c ↔ Q s c))
    (hstep : ∀ s c t, I s → S.allowed s c → Q s c → S.step s c = .ok t → I t) :
    S.Each P s cs ↔ S.Each Q s cs := by
  induction cs generalizing s with
  | nil => rfl
  | cons c cs ih =>
    refine imp_congr_right fun hc => ?_
    rw [hiff s c h hc]
    refine and_congr_right fun hq => forall_congr' fun t => imp_congr_right fun ht => ?_
    exact ih (hstep s c t h hc hq ht)

/-- The calls are made one after another, without an end. -/
structure Endless (S : System σ γ ε) (r : ℕ → σ) (a : ℕ → γ) : Prop where
  allowed : ∀ n, S.allowed (r n) (a n)
  step : ∀ n, S.step (r n) (a n) = .ok (r (n + 1))

theorem Endless.preserves {I : σ → Prop} {r : ℕ → σ} {a : ℕ → γ} (h : S.Endless r a)
    (hstep : ∀ s c t, I s → S.allowed s c → S.step s c = .ok t → I t) {n n' : ℕ} (hn : n ≤ n')
    (hi : I (r n)) : I (r n') := by
  induction hn with
  | refl => exact hi
  | step _ ih => exact hstep _ _ _ ih (h.allowed _) (h.step _)

/-- A rank cannot fall for ever. -/
theorem eventually_of_rank {Q : ℕ → Prop} (rank : ℕ → ℕ)
    (h : ∀ n, ∃ n', n ≤ n' ∧ (Q n' ∨ rank n' < rank n)) (n : ℕ) : ∃ n', n ≤ n' ∧ Q n' := by
  induction hr : rank n using Nat.strongRecOn generalizing n with
  | ind d ih =>
    obtain ⟨n₁, hn₁, hq | hlt⟩ := h n
    · exact ⟨n₁, hn₁, hq⟩
    · obtain ⟨n₂, hn₂, hq⟩ := ih _ (hr ▸ hlt) n₁ rfl
      exact ⟨n₂, Nat.le_trans hn₁ hn₂, hq⟩

/-- The state after the calls, if each of them is allowed and comes back. -/
def exec (S : System σ γ ε) [∀ s c, Decidable (S.allowed s c)] (s : σ) : List γ → Option σ
  | [] => some s
  | c :: cs => if S.allowed s c then (S.step s c).toOption.bind fun t => S.exec t cs else none

theorem run_of_exec [∀ s c, Decidable (S.allowed s c)] (h : S.exec s cs = some t) :
    S.Run s cs t := by
  induction cs generalizing s with
  | nil =>
    cases h
    exact .nil _
  | cons c cs ih =>
    unfold exec at h
    split at h
    · rename_i hc
      obtain ⟨u, hu, hx⟩ := Option.bind_eq_some_iff.mp h
      exact .cons hc (eq_ok_of_toOption hu) (ih hx)
    · cases h

end System

end Infos
