import Infos.Kernel.Threads
import Infos.Lib.Records
import Mathlib.Data.Fintype.Card

/-!
# Waking, and what it wakes in turn

A thread that is woken triggers an event of its own. `Wakes` says which threads are reached in the
end, and `wake` reads a node that it has freed just when the thread that owns the event is one of
them.
-/

namespace Infos.Kernel

open Records SchedulingEntityState

variable {T P : Type}

namespace WakeQueue

theorem from_node_eq {w : WakeQueue T} {done rest : List (ℕ × T)} {n : ℕ × T}
    (h : w.nodes = done ++ n :: rest) : w.from_node n.1 = n :: rest := by
  have hnd := w.nodup
  rw [h, List.map_append, List.map_cons, List.nodup_middle, List.nodup_cons] at hnd
  unfold from_node
  rw [h, List.dropWhile_append_of_pos, List.dropWhile_cons_of_neg (by simp)]
  intro m hm
  have hne : m.1 ≠ n.1 := by
    intro he
    exact hnd.1 (he ▸ List.mem_append_left _ (List.mem_map_of_mem hm))
  simpa using hne

theorem from_node_nil {w : WakeQueue T} (h : w.nodes = []) (n : ℕ) : w.from_node n = [] := by
  unfold from_node
  rw [h]
  rfl

theorem from_node_append {w : WakeQueue T} {node : ℕ} {n : ℕ × T} {rest : List (ℕ × T)}
    (h : w.from_node node = n :: rest) (t : T) :
    (w.append t).from_node node = n :: (rest ++ [(w.fresh, t)]) := by
  unfold from_node append at *
  dsimp only
  rw [List.dropWhile_append, h]
  rfl

end WakeQueue

variable [DecidableEq T] {A : SchedulingAlgorithm T}

/-- The state once the entity has been made runnable. -/
def Sys.woken (k : Sys A P) (e : T) : Sys A P :=
  { k with
    _state := Function.update k._state e RUNNABLE
    runqueue := if k._state e = STOPPED ∨ k._state e = SLEEPING then
      A.add_to_runqueue e k.runqueue else k.runqueue }

variable {k k' k₁ k₂ : Sys A P} {event : Event T P} {e x y : T}

/-! ## What is reached -/

/-- The thread is woken when the event is triggered. -/
inductive Wakes (k : Sys A P) : Event T P → T → Prop
  | waiter {event : Event T P} {x : T} (h : x ∈ (k._waiters event).waiters) : Wakes k event x
  | through {event : Event T P} {x y : T} (h : y ∈ (k._waiters event).waiters)
      (hy : k._state y ≠ RUNNABLE) (hx : Wakes k (.thread y) x) : Wakes k event x

/-- The event is that of a thread which its trigger wakes. -/
def Loops (k : Sys A P) (event : Event T P) : Prop :=
  ∃ x, event = .thread x ∧ k._state x ≠ RUNNABLE ∧ Wakes k event x

theorem Wakes.trans (h : Wakes k event y) (hy : k._state y ≠ RUNNABLE)
    (h' : Wakes k (.thread y) x) : Wakes k event x := by
  induction h with
  | waiter hw => exact .through hw hy h'
  | through hw hz _ ih => exact .through hw hz (ih hy h')

/-- What has been woken on the way from `k` to `k'`. -/
structure Woken (k k' : Sys A P) (event : Event T P) : Prop where
  state : ∀ x, k'._state x = k._state x ∨
    (k._state x ≠ RUNNABLE ∧ k'._state x = RUNNABLE ∧ Wakes k event x)
  /-- A thread that has been woken has woken those that wait for it. -/
  all : ∀ x, k._state x ≠ RUNNABLE → k'._state x = RUNNABLE →
    (k'._waiters (.thread x)).nodes = [] ∧
      ∀ y ∈ (k._waiters (.thread x)).waiters, k'._state y = RUNNABLE
  waiters : ∀ other, k'._waiters other = k._waiters other ∨
    ((k'._waiters other).nodes = [] ∧ (other = event ∨
      ∃ x, other = .thread x ∧ k._state x ≠ RUNNABLE ∧ k'._state x = RUNNABLE))

theorem Woken.keeps (h : Woken k k' event) (hx : k._state x = RUNNABLE) : k'._state x = RUNNABLE := by
  rcases h.state x with he | ⟨hne, -⟩
  · rw [he, hx]
  · exact absurd hx hne

theorem Woken.mem (h : Woken k k' event) {other : Event T P}
    (hx : x ∈ (k'._waiters other).waiters) : x ∈ (k._waiters other).waiters := by
  rcases h.waiters other with he | ⟨he, -⟩
  · rwa [← he]
  · unfold WakeQueue.waiters at hx
    simp [he] at hx

/-- Nothing is reached later that was not reached before. -/
theorem Wakes.mono {other : Event T P} (h : Wakes k₁ other x)
    (hw : ∀ other x, x ∈ (k₁._waiters other).waiters → x ∈ (k._waiters other).waiters)
    (hs : ∀ x, k₁._state x ≠ RUNNABLE → k._state x ≠ RUNNABLE) : Wakes k other x := by
  induction h with
  | waiter h => exact .waiter (hw _ _ h)
  | through h hy _ ih => exact .through (hw _ _ h) (hs _ hy) ih

/-- All that the trigger of the event reaches has been woken. -/
structure Triggered (k k' : Sys A P) (event : Event T P) : Prop extends Woken k k' event where
  cleared : (k'._waiters event).nodes = []
  runnable : ∀ x ∈ (k._waiters event).waiters, k'._state x = RUNNABLE

theorem woken_self (k : Sys A P) (e : T) : (k.woken e)._state e = RUNNABLE :=
  Function.update_self _ _ _

theorem woken_other (k : Sys A P) (h : x ≠ e) : (k.woken e)._state x = k._state x :=
  Function.update_of_ne h _ _

theorem woken_keeps (h : k._state x = RUNNABLE) : (k.woken e)._state x = RUNNABLE := by
  by_cases hx : x = e
  · rw [hx, woken_self]
  · rw [woken_other k hx, h]

/-- One more waiter is woken, and all that waits for it. -/
theorem Woken.wake (h : Woken k k₁ event) (hk : k₁._waiters event = k._waiters event)
    (hw : y ∈ (k._waiters event).waiters) (hy : k₁._state y ≠ RUNNABLE)
    (h' : Triggered (k₁.woken y) k₂ (.thread y)) : Woken k k₂ event := by
  have hky : k._state y ≠ RUNNABLE := fun hr => hy (h.keeps hr)
  have hk₂y : k₂._state y = RUNNABLE := h'.keeps (woken_self k₁ y)
  have hkeeps : ∀ x, k₁._state x = RUNNABLE → k₂._state x = RUNNABLE :=
    fun x hx => h'.keeps (woken_keeps hx)
  -- a list that has changed so far is that of a thread which has been woken
  have hlist : ∀ x, k₁._state x ≠ RUNNABLE → k._waiters (.thread x) = k₁._waiters (.thread x) := by
    intro x hx
    rcases h.waiters (.thread x) with he | ⟨-, rfl | ⟨z, hz, -, hzr⟩⟩
    · exact he.symm
    · exact hk.symm
    · cases hz
      exact absurd hzr hx
  refine ⟨fun x => ?_, fun x hx hxr => ?_, fun other => ?_⟩
  · by_cases hxy : x = y
    · subst hxy
      exact .inr ⟨hky, hk₂y, .waiter hw⟩
    rcases h'.state x with he | ⟨hne, hr, hwakes⟩
    · rw [he, woken_other k₁ hxy]
      exact h.state x
    · rw [woken_other k₁ hxy] at hne
      refine .inr ⟨fun hr => hne (h.keeps hr), hr, .through hw hky ?_⟩
      exact hwakes.mono (fun _ _ hm => h.mem hm) fun z hz hr => hz (woken_keeps (h.keeps hr))
  · by_cases hx₁ : k₁._state x = RUNNABLE
    · obtain ⟨hnil, hall⟩ := h.all x hx hx₁
      refine ⟨?_, fun z hz => hkeeps z (hall z hz)⟩
      rcases h'.waiters (.thread x) with he | ⟨he, -⟩
      · rw [he]
        exact hnil
      · exact he
    rw [hlist x hx₁]
    by_cases hxy : x = y
    · subst hxy
      exact ⟨h'.cleared, h'.runnable⟩
    · exact h'.all x (by rwa [woken_other k₁ hxy]) hxr
  · rcases h'.waiters other with he | ⟨he, hother⟩
    · rw [he]
      refine (h.waiters other).imp id (And.imp id (Or.imp id ?_))
      rintro ⟨x, rfl, hx, hxr⟩
      exact ⟨x, rfl, hx, hkeeps x hxr⟩
    · refine .inr ⟨he, .inr ?_⟩
      rcases hother with rfl | ⟨x, rfl, hx, hxr⟩
      · exact ⟨y, rfl, hky, hk₂y⟩
      · exact ⟨x, rfl, fun hr => hx (woken_keeps (h.keeps hr)), hxr⟩

/-- Where the list itself has been cleared on the way, its owner has been woken. -/
theorem Woken.loops (h : Woken k k₁ event) (hk : k₁._waiters event = k._waiters event)
    (hw : y ∈ (k._waiters event).waiters) (hy : k₁._state y ≠ RUNNABLE)
    (h' : Triggered (k₁.woken y) k₂ (.thread y)) (hnil : (k₂._waiters event).nodes = []) :
    Loops k event := by
  have hky : k._state y ≠ RUNNABLE := fun hr => hy (h.keeps hr)
  rcases h'.waiters event with he | ⟨-, rfl | ⟨x, rfl, hx, hxr⟩⟩
  · have hk₁ : (k._waiters event).nodes = [] := by
      rw [← hk, ← hnil, he]
      rfl
    unfold WakeQueue.waiters at hw
    simp [hk₁] at hw
  · exact ⟨y, rfl, hky, .waiter hw⟩
  · have hkx : k._state x ≠ RUNNABLE := fun hr => hx (woken_keeps (h.keeps hr))
    refine ⟨x, rfl, hkx, ?_⟩
    rcases (h.wake hk hw hy h').state x with he | ⟨-, -, hwakes⟩
    · exact absurd (he ▸ hxr) hkx
    · exact hwakes

theorem Woken.clear [DecidableEq P] (h : Woken k k₁ event)
    (hall : ∀ x ∈ (k._waiters event).waiters, k₁._state x = RUNNABLE) :
    Triggered k (k₁.set_waiters event (k₁._waiters event).clear) event := by
  have hself : ((k₁.set_waiters event (k₁._waiters event).clear)._waiters event).nodes = [] := by
    unfold Sys.set_waiters
    simp [WakeQueue.clear]
  have hother : ∀ other, other ≠ event →
      (k₁.set_waiters event (k₁._waiters event).clear)._waiters other = k₁._waiters other := by
    intro other ho
    unfold Sys.set_waiters
    simp [ho]
  refine ⟨⟨h.state, fun x hx hxr => ?_, fun other => ?_⟩, hself, hall⟩
  · obtain ⟨hnil, hy⟩ := h.all x hx hxr
    refine ⟨?_, hy⟩
    by_cases ho : Event.thread x = event
    · rw [ho, hself]
    · rw [hother _ ho, hnil]
  · by_cases ho : other = event
    · subst ho
      exact .inr ⟨hself, .inl rfl⟩
    · rw [hother _ ho]
      exact h.waiters other

variable [DecidableEq P]

/-! ## The steps -/

/-- The steps of the kernel, without the timer. -/
abbrev steps (A : SchedulingAlgorithm T) (P : Type) [DecidableEq P] (f : Frame T P) (k : Sys A P) :
    Except Fault (List (Frame T P) × Sys A P) := f.step k

theorem set_runnable_again (h : k._state e = RUNNABLE) :
    Calls (steps A P) (.set_entity_state e RUNNABLE) k k := by
  have hfirst : Frame.step k (.set_entity_state e RUNNABLE) = .ok ([], k) := by
    simp only [Frame.step]
    rw [if_pos h]
  exact .head hfirst (.refl _)

theorem set_runnable (h : k._state e ≠ RUNNABLE) :
    Steps (steps A P) ([.set_entity_state e RUNNABLE], k) ([.trigger (.thread e)], k.woken e) := by
  have hfirst : Frame.step k (.set_entity_state e RUNNABLE) =
      .ok ([.compare e RUNNABLE [STOPPED, SLEEPING]], k) := by
    simp only [Frame.step]
    rw [if_neg h]
    rfl
  refine .head hfirst ?_
  unfold Sys.woken
  by_cases h₁ : k._state e = STOPPED
  · have hadds : Frame.step k (.compare e RUNNABLE [STOPPED, SLEEPING]) =
        .ok ([.add_to_runqueue e RUNNABLE], k) := by
      simp [Frame.step, h₁]
    refine .head hadds ?_
    refine .head rfl (.head rfl ?_)
    rw [if_pos (.inl h₁)]
    exact .refl _
  · have hdiffers : Frame.step k (.compare e RUNNABLE [STOPPED, SLEEPING]) =
        .ok ([.compare e RUNNABLE [SLEEPING]], k) := by
      simp [Frame.step, h₁]
    refine .head hdiffers ?_
    by_cases h₂ : k._state e = SLEEPING
    · have hadds : Frame.step k (.compare e RUNNABLE [SLEEPING]) =
          .ok ([.add_to_runqueue e RUNNABLE], k) := by
        simp [Frame.step, h₂]
      refine .head hadds ?_
      refine .head rfl (.head rfl ?_)
      rw [if_pos (.inr h₂)]
      exact .refl _
    · have hdiffers : Frame.step k (.compare e RUNNABLE [SLEEPING]) =
          .ok ([.compare e RUNNABLE []], k) := by
        simp [Frame.step, h₂]
      have hcompared : Frame.step k (.compare e RUNNABLE []) = .ok ([.store e RUNNABLE], k) := by
        simp [Frame.step]
      refine .head hdiffers (.head hcompared (.head rfl ?_))
      rw [if_neg (by simp [h₁, h₂])]
      exact .refl _

/-! ## The loop -/

/-- The next step reads a node that has been freed. -/
def ReadsFreed (c : List (Frame T P) × Sys A P) : Prop :=
  ∃ d : List (Frame T P) × Sys A P, Steps (steps A P) c d ∧
    ∃ f ∈ d.1.head?, Frame.step d.2 f = .error .freed

/-- How the rest of the loop goes, if every trigger inside it comes to its end. -/
theorem wake_loop {done rest : List (ℕ × T)}
    (ih : ∀ k₂ x, k₂._state x = RUNNABLE → (∃ y, k._state y ≠ RUNNABLE ∧ k₂._state y = RUNNABLE) →
      (∀ y, k._state y = RUNNABLE → k₂._state y = RUNNABLE) →
      ∃ k₃, Calls (steps A P) (.trigger (.thread x)) k₂ k₃ ∧ Triggered k₂ k₃ (.thread x))
    (hn : (k._waiters event).nodes = done ++ rest) (h : Woken k k₁ event)
    (hk : k₁._waiters event = k._waiters event)
    (hown : ∀ x, event = .thread x → k₁._state x = k._state x)
    (hdone : ∀ n ∈ done, k₁._state n.2 = RUNNABLE) :
    (∃ k', Calls (steps A P) (.wake_at event (rest.head?.map Prod.fst)) k₁ k' ∧
      Triggered k k' event ∧ ∀ x, event = .thread x → k'._state x = k._state x) ∨
    (Loops k event ∧ ReadsFreed (A := A) ([.wake_at event (rest.head?.map Prod.fst)], k₁)) := by
  induction rest generalizing done k₁ with
  | nil =>
    rw [List.append_nil] at hn
    have hall : ∀ x ∈ (k._waiters event).waiters, k₁._state x = RUNNABLE := by
      intro x hx
      unfold WakeQueue.waiters at hx
      obtain ⟨m, hm, rfl⟩ := List.mem_map.mp hx
      exact hdone m (hn ▸ hm)
    exact .inl ⟨_, .head rfl (.head rfl (.refl _)), h.clear hall, hown⟩
  | cons n rest ihr =>
    have hfrom : (k₁._waiters event).from_node n.1 = n :: rest := by
      rw [hk]
      exact WakeQueue.from_node_eq hn
    have hw : n.2 ∈ (k._waiters event).waiters := by
      unfold WakeQueue.waiters
      simp [hn]
    have hn' : (k._waiters event).nodes = (done ++ [n]) ++ rest := by simp [hn]
    have hat : Steps (steps A P) ([.wake_at event ((n :: rest).head?.map Prod.fst)], k₁)
        ([.set_entity_state n.2 RUNNABLE, .wake_next event n.1], k₁) := by
      have hwake : Frame.step k₁ (.wake_at event ((n :: rest).head?.map Prod.fst)) =
          .ok ([.wake_up n.2, .wake_next event n.1], k₁) := by
        simp [Frame.step, hfrom]
      exact .head hwake (.head rfl (.refl _))
    -- what follows once the waiter has been woken
    have hnext : ∀ k₂ : Sys A P, k₂._waiters event = k._waiters event →
        Steps (steps A P) ([.wake_next event n.1], k₂)
          ([.wake_at event (rest.head?.map Prod.fst)], k₂) := by
      intro k₂ hk₂
      have hwake : Frame.step k₂ (.wake_next event n.1) =
          .ok ([.wake_at event (rest.head?.map Prod.fst)], k₂) := by
        simp [Frame.step, hk₂, WakeQueue.from_node_eq hn]
      exact .head hwake (.refl _)
    have hgo : ∀ k₂ : Sys A P,
        Steps (steps A P) ([.set_entity_state n.2 RUNNABLE, .wake_next event n.1], k₁)
          ([.wake_next event n.1], k₂) → Woken k k₂ event →
        k₂._waiters event = k._waiters event →
        (∀ x, event = .thread x → k₂._state x = k._state x) →
        (∀ m ∈ done ++ [n], k₂._state m.2 = RUNNABLE) →
        (∃ k', Calls (steps A P) (.wake_at event ((n :: rest).head?.map Prod.fst)) k₁ k' ∧
          Triggered k k' event ∧ ∀ x, event = .thread x → k'._state x = k._state x) ∨
        (Loops k event ∧
          ReadsFreed (A := A) ([.wake_at event ((n :: rest).head?.map Prod.fst)], k₁)) := by
      intro k₂ hsteps h₂ hk₂ hown₂ hdone₂
      have hall := (hat.trans hsteps).trans (hnext k₂ hk₂)
      refine (ihr hn' h₂ hk₂ hown₂ hdone₂).imp ?_ (And.imp id ?_)
      · rintro ⟨k', hc, ht⟩
        exact ⟨k', hall.trans hc, ht⟩
      · rintro ⟨d, hd, hf⟩
        exact ⟨d, hall.trans hd, hf⟩
    by_cases hr : k₁._state n.2 = RUNNABLE
    · refine hgo k₁ ((set_runnable_again hr).steps _) h hk hown fun m hm => ?_
      rcases List.mem_append.mp hm with hm | hm
      · exact hdone m hm
      · obtain rfl := List.mem_singleton.mp hm
        exact hr
    · obtain ⟨k₂, hcall, ht⟩ := ih (k₁.woken n.2) n.2 (woken_self k₁ n.2)
        ⟨n.2, fun hkr => hr (h.keeps hkr), woken_self k₁ n.2⟩ fun y hy => woken_keeps (h.keeps hy)
      have hsteps : Steps (steps A P) ([.set_entity_state n.2 RUNNABLE, .wake_next event n.1], k₁)
          ([.wake_next event n.1], k₂) :=
        ((set_runnable hr).below [.wake_next event n.1]).trans (hcall.steps _)
      have h₂ := h.wake hk hw hr ht
      rcases h₂.waiters event with hk₂ | ⟨hnil, -⟩
      · refine hgo k₂ hsteps h₂ hk₂ (fun x hx => ?_) fun m hm => ?_
        · -- the owner has not been woken, for its list is there still
          subst hx
          rcases h₂.state x with he | ⟨hx, hxr, -⟩
          · exact he
          · have hnil := (h₂.all x hx hxr).1
            rw [hk₂, hn] at hnil
            simp at hnil
        · rcases List.mem_append.mp hm with hm | hm
          · exact ht.keeps (woken_keeps (hdone m hm))
          · obtain rfl := List.mem_singleton.mp hm
            exact ht.keeps (woken_self k₁ m.2)
      · refine .inr ⟨h.loops hk hw hr ht hnil, _, hat.trans hsteps, _, rfl, ?_⟩
        simp [Frame.step, WakeQueue.from_node_nil hnil]

/-! ## The trigger -/

theorem trigger_ends [Fintype T] (k : Sys A P) (event : Event T P) :
    (∃ k', Calls (steps A P) (.trigger event) k k' ∧ Triggered k k' event ∧
      ∀ x, event = .thread x → k'._state x = k._state x) ∨
    (Loops k event ∧ ReadsFreed (A := A) ([.trigger event], k)) := by
  induction hcard : (Finset.univ.filter fun x => k._state x ≠ RUNNABLE).card using
    Nat.strong_induction_on generalizing k event with
  | _ n ih =>
    subst hcard
    have hloop := @wake_loop T P _ A k k event _ [] (k._waiters event).nodes ?_ rfl
      ⟨fun _ => .inl rfl, fun _ h h' => absurd h' h, fun _ => .inl rfl⟩ rfl (fun _ _ => rfl) (by simp)
    · refine hloop.imp ?_ (And.imp id ?_)
      · rintro ⟨k', hc, ht⟩
        exact ⟨k', .head rfl hc, ht⟩
      · rintro ⟨d, hd, hf⟩
        exact ⟨d, .head rfl hd, hf⟩
    · rintro k₂ x hx ⟨y, hy, hyr⟩ hkeeps
      have hlt : (Finset.univ.filter fun x => k₂._state x ≠ RUNNABLE).card <
          (Finset.univ.filter fun x => k._state x ≠ RUNNABLE).card := by
        refine Finset.card_lt_card ⟨fun z hz => ?_, fun hsub => ?_⟩
        · simp only [Finset.mem_filter, Finset.mem_univ, true_and] at hz ⊢
          exact fun hr => hz (hkeeps z hr)
        · have := hsub (x := y) (by simpa using hy)
          simp [hyr] at this
      rcases ih _ hlt k₂ (.thread x) rfl with ⟨k₃, hc, ht, -⟩ | ⟨⟨z, hz, hzr, -⟩, -⟩
      · exact ⟨k₃, hc, ht⟩
      · cases hz
        exact absurd hx hzr

omit [DecidableEq P] in
/-- All that is reached has been woken. -/
theorem Triggered.wakes (h : Triggered k k' event) (hx : Wakes k event x) :
    k'._state x = RUNNABLE := by
  have hall : ∀ {other y}, Wakes k other y →
      (∀ z ∈ (k._waiters other).waiters, k'._state z = RUNNABLE) → k'._state y = RUNNABLE := by
    intro other y hy
    induction hy with
    | waiter hw => exact fun hr => hr _ hw
    | through hw hy _ ih => exact fun hr => ih (h.all _ hy (hr _ hw)).2
  exact hall hx h.runnable

/-- The trigger comes to its end with all waiters runnable, and no freed node is read. -/
def TriggersSafely (k : Sys A P) (event : Event T P) : Prop :=
  (∃ k', Calls (steps A P) (.trigger event) k k' ∧
    ∀ x ∈ (k._waiters event).waiters, k'._state x = RUNNABLE) ∧
  ¬ReadsFreed (A := A) ([.trigger event], k)

theorem triggers_safely_iff [Fintype T] (k : Sys A P) (event : Event T P) :
    TriggersSafely k event ↔ ¬Loops k event := by
  rcases trigger_ends k event with ⟨k', hc, ht, hown⟩ | ⟨hl, hf⟩
  · constructor
    · rintro - ⟨x, rfl, hx, hw⟩
      rw [← hown x rfl, ht.wakes hw] at hx
      exact hx rfl
    · rintro -
      refine ⟨⟨k', hc, ht.runnable⟩, ?_⟩
      rintro ⟨⟨fs, k₂⟩, hd, f, hf, herr⟩
      cases fs with
      | nil => cases hf
      | cons g fs =>
        cases hf
        have := Steps.stuck_unique hc (stuck_nil _) hd (stuck_error herr)
        cases this
  · exact ⟨fun h => absurd hf h.2, fun h => absurd hl h⟩

/-- A thread that waits for itself. -/
def joined_itself : Sys (CompletelyFairScheduler (Fin 2)) Empty :=
  ((Sys.boot _ 0 [] Empty.elim).set_state 1 SLEEPING).set_waiters (.thread 1)
    (WakeQueue.empty.append 1)

theorem joined_itself_unsafe : ¬TriggersSafely joined_itself (.thread 1) := by
  rintro ⟨-, hf⟩
  exact hf ⟨_, steps_of_exec 15 rfl, _, rfl, rfl⟩

end Infos.Kernel
