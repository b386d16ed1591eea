import Mathlib.Tactic.Common

/-!
# Programs that change a state and may stop

A program is a `StateT σ (Except ε) α`. `Returns x s Q` is its total correctness: from the
state `s` the program `x` comes back, and `Q` holds of the answer and of the state it leaves.
-/

namespace Infos.Prog

variable {σ ε α β : Type}

/-- Started in `s`, the program comes back, and with an answer and a state that satisfy `Q`. -/
def Returns (x : StateT σ (Except ε) α) (s : σ) (Q : α → σ → Prop) : Prop :=
  ∃ a s', x s = .ok (a, s') ∧ Q a s'

theorem returns_of_eq {x : StateT σ (Except ε) α} {s s' : σ} {a : α} {Q : α → σ → Prop}
    (h : x s = .ok (a, s')) (hq : Q a s') : Returns x s Q := ⟨a, s', h, hq⟩

theorem returns_mono {x : StateT σ (Except ε) α} {s : σ} {P Q : α → σ → Prop}
    (h : Returns x s P) (hpq : ∀ a s', P a s' → Q a s') : Returns x s Q := by
  obtain ⟨a, s', hx, hp⟩ := h
  exact ⟨a, s', hx, hpq a s' hp⟩

/-- A program has one outcome, so what it returns is what is known of every run of it. -/
theorem returns_ok {x : StateT σ (Except ε) α} {s s' : σ} {a : α} {Q : α → σ → Prop}
    (h : Returns x s Q) (hx : x s = .ok (a, s')) : Q a s' := by
  obtain ⟨b, t, hb, hq⟩ := h
  rw [hx] at hb
  cases hb
  exact hq

/-! ## One rule for each construct -/

@[simp]
theorem returns_pure (a : α) (s : σ) (Q : α → σ → Prop) :
    Returns (pure a : StateT σ (Except ε) α) s Q ↔ Q a s := by
  constructor
  · rintro ⟨b, s', h, hq⟩
    cases h
    exact hq
  · intro h
    exact ⟨a, s, rfl, h⟩

theorem bind_eq (x : StateT σ (Except ε) α) (f : α → StateT σ (Except ε) β) (s : σ) :
    (x >>= f) s = match x s with
      | .ok (a, s') => f a s'
      | .error e => .error e := by
  show (x s >>= fun p => f p.1 p.2) = _
  cases x s <;> rfl

@[simp]
theorem returns_bind (x : StateT σ (Except ε) α) (f : α → StateT σ (Except ε) β) (s : σ)
    (Q : β → σ → Prop) :
    Returns (x >>= f) s Q ↔ Returns x s fun a s' => Returns (f a) s' Q := by
  unfold Returns
  rw [bind_eq]
  cases x s with
  | error e => simp
  | ok p =>
    obtain ⟨a, s'⟩ := p
    simp

@[simp]
theorem returns_map (f : α → β) (x : StateT σ (Except ε) α) (s : σ) (Q : β → σ → Prop) :
    Returns (f <$> x) s Q ↔ Returns x s fun a s' => Q (f a) s' := by
  rw [← bind_pure_comp, returns_bind]
  simp only [returns_pure]

@[simp]
theorem returns_get (s : σ) (Q : σ → σ → Prop) :
    Returns (get : StateT σ (Except ε) σ) s Q ↔ Q s s := by
  constructor
  · rintro ⟨b, s', h, hq⟩
    cases h
    exact hq
  · intro h
    exact ⟨s, s, rfl, h⟩

@[simp]
theorem returns_modify (f : σ → σ) (s : σ) (Q : PUnit → σ → Prop) :
    Returns (modify f : StateT σ (Except ε) PUnit) s Q ↔ Q ⟨⟩ (f s) := by
  constructor
  · rintro ⟨b, s', h, hq⟩
    cases h
    exact hq
  · intro h
    exact ⟨⟨⟩, f s, rfl, h⟩

@[simp]
theorem returns_throw (e : ε) (s : σ) (Q : α → σ → Prop) :
    Returns (throw e : StateT σ (Except ε) α) s Q ↔ False := by
  constructor
  · rintro ⟨b, s', h, -⟩
    cases h
  · exact False.elim

theorem returns_ite {c : Prop} [Decidable c] {x y : StateT σ (Except ε) α} {s : σ}
    {Q : α → σ → Prop} (hx : c → Returns x s Q) (hy : ¬ c → Returns y s Q) :
    Returns (if c then x else y) s Q := by
  split
  · exact hx ‹_›
  · exact hy ‹_›

/-- A step that is made on a condition, and the rest of the program. -/
theorem returns_when {c : Prop} [Decidable c] {x : StateT σ (Except ε) PUnit} {s : σ}
    {f : PUnit → StateT σ (Except ε) α} {Q : α → σ → Prop} :
    Returns (if c then x >>= f else f ⟨⟩) s Q ↔
      Returns (if c then x else pure ⟨⟩) s fun a s' => Returns (f a) s' Q := by
  split <;> simp

/-! ## Stopping is allowed -/

/-- Comes back as `Returns` says, or stops for a reason that `E` allows. -/
def Ends (x : StateT σ (Except ε) α) (s : σ) (Q : α → σ → Prop) (E : ε → Prop) : Prop :=
  match x s with
  | .ok (a, s') => Q a s'
  | .error e => E e

variable {s : σ} {Q P : α → σ → Prop} {E : ε → Prop}

theorem ends_mono {x : StateT σ (Except ε) α} (h : Ends x s P E)
    (hpq : ∀ a s', P a s' → Q a s') : Ends x s Q E := by
  unfold Ends at *
  cases hx : x s with
  | error e =>
    rw [hx] at h
    exact h
  | ok r =>
    rw [hx] at h
    exact hpq _ _ h

theorem ends_weaken {x : StateT σ (Except ε) α} {F : ε → Prop} (h : Ends x s P E)
    (hpq : ∀ a s', P a s' → Q a s') (hef : ∀ e, E e → F e) : Ends x s Q F := by
  unfold Ends at *
  split at h
  · exact hpq _ _ h
  · exact hef _ h

theorem ends_ok {x : StateT σ (Except ε) α} {a : α} {s' : σ} (h : Ends x s Q E)
    (hx : x s = .ok (a, s')) : Q a s' := by
  unfold Ends at h
  rwa [hx] at h

theorem ends_of_eq {x : StateT σ (Except ε) α} {a : α} {s' : σ} (hx : x s = .ok (a, s')) :
    Ends x s Q E ↔ Q a s' := by
  unfold Ends
  rw [hx]

theorem ends_of_error {x : StateT σ (Except ε) α} {e : ε} (hx : x s = .error e) :
    Ends x s Q E ↔ E e := by
  unfold Ends
  rw [hx]

@[simp]
theorem ends_pure (a : α) : Ends (pure a : StateT σ (Except ε) α) s Q E ↔ Q a s := Iff.rfl

@[simp]
theorem ends_bind (x : StateT σ (Except ε) α) (f : α → StateT σ (Except ε) β)
    {R : β → σ → Prop} :
    Ends (x >>= f) s R E ↔ Ends x s (fun a s' => Ends (f a) s' R E) E := by
  unfold Ends
  rw [bind_eq]
  cases x s <;> rfl

@[simp]
theorem ends_map (f : α → β) (x : StateT σ (Except ε) α) {R : β → σ → Prop} :
    Ends (f <$> x) s R E ↔ Ends x s (fun a s' => R (f a) s') E := by
  rw [← bind_pure_comp, ends_bind]
  rfl

@[simp]
theorem ends_discard (x : StateT σ (Except ε) α) {R : PUnit → σ → Prop} :
    Ends (discard x) s R E ↔ Ends x s (fun _ s' => R ⟨⟩ s') E := by
  show Ends ((fun _ => PUnit.unit) <$> x) s R E ↔ _
  exact ends_map _ x

@[simp]
theorem ends_get {R : σ → σ → Prop} :
    Ends (get : StateT σ (Except ε) σ) s R E ↔ R s s := Iff.rfl

@[simp]
theorem ends_modify (f : σ → σ) {R : PUnit → σ → Prop} :
    Ends (modify f : StateT σ (Except ε) PUnit) s R E ↔ R ⟨⟩ (f s) := Iff.rfl

@[simp]
theorem ends_throw (e : ε) : Ends (throw e : StateT σ (Except ε) α) s Q E ↔ E e := Iff.rfl

theorem ends_ite {c : Prop} [Decidable c] {x y : StateT σ (Except ε) α} (hx : c → Ends x s Q E)
    (hy : ¬ c → Ends y s Q E) : Ends (if c then x else y) s Q E := by
  split
  · exact hx ‹_›
  · exact hy ‹_›

/-- A loop over a list, by what holds once some of it is done. -/
theorem ends_forM {ι : Type} {f : ι → StateT σ (Except ε) PUnit} {I : List ι → σ → Prop} {l : List ι}
    (hstep : ∀ done c s, c ∈ l → I done s → Ends (f c) s (fun _ s' => I (done ++ [c]) s') E)
    (done : List ι) {s : σ} (h : I done s) : Ends (forM l f) s (fun _ s' => I (done ++ l) s') E := by
  induction l generalizing done s with
  | nil => simpa using h
  | cons c l ih =>
    rw [List.forM_cons, ends_bind]
    refine ends_mono (hstep done c s List.mem_cons_self h) fun _ s' hs' => ?_
    have := ih (fun done d s hd => hstep done d s (List.mem_cons_of_mem _ hd)) (done ++ [c]) hs'
    rwa [List.append_assoc] at this

/-- Why a program stopped, and the state that it left. -/
structure Stop (φ σ : Type) where
  fault : φ
  state : σ

/-- A program that stops here keeps its state. -/
def halt {φ : Type} (fault : φ) : StateT σ (Except (Stop φ σ)) α := fun s => .error ⟨fault, s⟩

@[simp]
theorem ends_halt {φ : Type} {E : Stop φ σ → Prop} (fault : φ) :
    Ends (halt fault : StateT σ (Except (Stop φ σ)) α) s Q E ↔ E ⟨fault, s⟩ := Iff.rfl

theorem ends_any {x : StateT σ (Except ε) α} (hq : ∀ a s', Q a s') (he : ∀ e, E e) : Ends x s Q E := by
  unfold Ends
  split
  · exact hq _ _
  · exact he _

/-- What is known of a program twice. -/
theorem ends_and {x : StateT σ (Except ε) α} {F : ε → Prop} (h : Ends x s Q E) (h' : Ends x s P F) :
    Ends x s (fun a s' => Q a s' ∧ P a s') E := by
  unfold Ends at *
  cases hx : x s with
  | error e =>
    rw [hx] at h
    exact h
  | ok r =>
    rw [hx] at h h'
    exact ⟨h, h'⟩

/-- A program on a part of the state. -/
def zoom {τ ε' : Type} (part : σ → τ) (put : τ → σ → σ) (wrap : ε' → ε)
    (x : StateT τ (Except ε') α) : StateT σ (Except ε) α := fun s =>
  match x (part s) with
  | .ok (a, t) => .ok (a, put t s)
  | .error e => .error (wrap e)

@[simp]
theorem ends_zoom {τ ε' : Type} {part : σ → τ} {put : τ → σ → σ} {wrap : ε' → ε}
    {x : StateT τ (Except ε') α} : Ends (zoom part put wrap x) s Q E ↔
      Ends x (part s) (fun a t => Q a (put t s)) fun e => E (wrap e) := by
  unfold Ends zoom
  cases x (part s) <;> rfl

/-- What only reads its part. -/
theorem map_zoom_read {τ ε' : Type} {part : σ → τ} {put : τ → σ → σ} {wrap : ε' → ε}
    {x : StateT τ (Except ε') α} {a : α} (f : α → β) (h : x (part s) = .ok (a, part s))
    (hput : put (part s) s = s) : (f <$> zoom part put wrap x) s = .ok (f a, s) := by
  have hzoom : zoom part put wrap x s = .ok (a, s) := by
    unfold zoom
    rw [h]
    dsimp only
    rw [hput]
  show (zoom part put wrap x >>= fun a => pure (f a)) s = _
  rw [bind_eq, hzoom]
  rfl

/-- Programs that only read, one for each item of a list. -/
theorem mapM_eq {ι : Type} {f : ι → StateT σ (Except ε) α} {g : ι → α} {l : List ι}
    (h : ∀ i ∈ l, f i s = .ok (g i, s)) : l.mapM f s = .ok (l.map g, s) := by
  induction l with
  | nil => rfl
  | cons i l ih =>
    rw [List.mapM_cons, bind_eq, h i List.mem_cons_self]
    dsimp only
    rw [bind_eq, ih fun j hj => h j (List.mem_cons_of_mem _ hj)]
    rfl

theorem ends_of_returns {x : StateT σ (Except ε) α} (h : Returns x s Q) : Ends x s Q E := by
  obtain ⟨a, s', hx, hq⟩ := h
  unfold Ends
  rw [hx]
  exact hq

theorem not_returns {x : StateT σ (Except ε) α} (h : Ends x s (fun _ _ => False) E) :
    ¬Returns x s Q := by
  rintro ⟨a, s', hx, -⟩
  exact ends_ok h hx

theorem returns_of_ends {x : StateT σ (Except ε) α} (h : Ends x s Q fun _ => False) :
    Returns x s Q := by
  unfold Ends at h
  cases hx : x s with
  | error e =>
    rw [hx] at h
    exact h.elim
  | ok r =>
    rw [hx] at h
    exact ⟨r.1, r.2, hx, h⟩

/-! ## What a program leaves alone -/

/-- Whenever the program comes back, what held before holds still. -/
def Maintains (x : StateT σ (Except ε) α) (I : σ → Prop) : Prop :=
  ∀ s, I s → Ends x s (fun _ => I) fun _ => True

variable {I : σ → Prop}

theorem Maintains.ok {x : StateT σ (Except ε) α} {s s' : σ} {a : α} (h : Maintains x I) (hs : I s)
    (hx : x s = .ok (a, s')) : I s' := ends_ok (h s hs) hx

theorem maintains_pure (a : α) : Maintains (pure a : StateT σ (Except ε) α) I := fun _ h => h

theorem maintains_throw (e : ε) : Maintains (throw e : StateT σ (Except ε) α) I :=
  fun _ _ => trivial

theorem maintains_halt {φ : Type} (fault : φ) :
    Maintains (halt fault : StateT σ (Except (Stop φ σ)) α) I := fun _ _ => trivial

theorem maintains_get : Maintains (get : StateT σ (Except ε) σ) I := fun _ h => h

theorem maintains_modify {f : σ → σ} (h : ∀ s, I s → I (f s)) :
    Maintains (modify f : StateT σ (Except ε) PUnit) I := h

theorem maintains_bind {x : StateT σ (Except ε) α} {f : α → StateT σ (Except ε) β}
    (hx : Maintains x I) (hf : ∀ a, Maintains (f a) I) : Maintains (x >>= f) I := by
  intro s hs
  rw [ends_bind]
  exact ends_mono (hx s hs) fun a t ht => hf a t ht

theorem maintains_map {f : α → β} {x : StateT σ (Except ε) α} (h : Maintains x I) :
    Maintains (f <$> x) I := by
  intro s hs
  rw [ends_map]
  exact h s hs

theorem maintains_ite {c : Prop} [Decidable c] {x y : StateT σ (Except ε) α} (hx : Maintains x I)
    (hy : Maintains y I) : Maintains (if c then x else y) I := by
  split
  · exact hx
  · exact hy

end Infos.Prog
