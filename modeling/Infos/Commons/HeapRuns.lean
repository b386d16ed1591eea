import Mathlib.Logic.Function.Basic
import Infos.Commons.HeapCalls
import Infos.Lib.System

/-!
# Runs of calls on heaps

The heaps have their nodes in one memory. Beside each heap stand the elements that were put into it
and not removed, and a heap that was combined into another is not used again.
-/

open Infos.Prog

namespace Infos.Commons.HeapRuns

open FibHeap Function

variable {TKey TValue : Type} [LinearOrder TKey]

structure World (TKey TValue : Type) [LinearOrder TKey] where
  node : ℕ → Option (FibNode TKey TValue)
  fresh : ℕ
  heap : ℕ → Option (FibHeap TKey)
  elements : ℕ → List (Cell TKey TValue)

inductive Call (TKey TValue : Type) [LinearOrder TKey] where
  | make (h : ℕ) (c : IValueComparator TKey)
  | Insert (h : ℕ) (key : TKey) (value : TValue)
  | Combine (h other : ℕ)
  | DecreaseKey (h node : ℕ) (key : TKey)
  | RemoveMin (h : ℕ)

namespace World

def start : World TKey TValue := ⟨fun _ => none, 0, fun _ => none, fun _ => []⟩

/-- A heap and the memory. -/
def memory (w : World TKey TValue) (q : FibHeap TKey) : FibMemory TKey TValue :=
  { q with node := w.node, fresh := w.fresh }

def put (w : World TKey TValue) (h : ℕ) (m : FibMemory TKey TValue) (l : List (Cell TKey TValue)) :
    World TKey TValue :=
  ⟨m.node, m.fresh, update w.heap h (some m.toFibHeap), update w.elements h l⟩

def drop (w : World TKey TValue) (h : ℕ) : World TKey TValue :=
  { w with heap := update w.heap h none, elements := update w.elements h [] }

/-- Every heap has lost nothing. -/
def Intact (w : World TKey TValue) : Prop :=
  ∀ h q, w.heap h = some q → (w.memory q).Intact (w.elements h)

end World

/-- The call is made on heaps that there are, none gets more than 1000 elements, and only the key
of an element is decreased. -/
def Allowed (w : World TKey TValue) : Call TKey TValue → Prop
  | .make h _ => w.heap h = none
  | .Insert h _ _ => (w.heap h).isSome ∧ (w.elements h).length < 1000
  | .Combine h other => (w.heap h).isSome ∧ (w.heap other).isSome ∧
      (w.elements h).length + (w.elements other).length ≤ 1000
  | .DecreaseKey h node key => (w.heap h).isSome ∧ ∃ c ∈ w.elements h, c.node = node ∧ key ≤ c.key
  | .RemoveMin h => (w.heap h).isSome

/-- A call on the heap `h`, and the elements it has then. -/
def act {α : Type} (w : World TKey TValue) (h : ℕ) (x : FibHeap TKey → FibHeap.Op TKey TValue α)
    (l : FibHeap TKey → α → List (Cell TKey TValue)) : Except FibHeap.Fault (World TKey TValue) :=
  match w.heap h with
  | none => .error .null
  | some q => (x q (w.memory q)).map fun r => w.put h r.2 (l q r.1)

def step (fuel : ℕ) (w : World TKey TValue) :
    Call TKey TValue → Except FibHeap.Fault (World TKey TValue)
  | .make h c => .ok (w.put h (w.memory (new c)) [])
  | .Insert h key value => act w h (fun _ => Insert key value) fun _ r =>
      w.elements h ++ r.toList.map fun p => ⟨p, key, value⟩
  | .Combine h other =>
    if h = other then act w h (fun q => Combine (some q)) fun _ _ => w.elements h
    else act (w.drop other) h (fun _ => Combine (w.heap other)) fun _ _ =>
      w.elements h ++ w.elements other
  | .DecreaseKey h node key => act w h (fun _ => DecreaseKey fuel (some node) key) fun _ _ =>
      (w.elements h).map fun c => if c.node = node then { c with key := key } else c
  | .RemoveMin h => act w h (fun _ => RemoveMin fuel) fun q _ =>
      (w.elements h).filter fun c => some c.node ≠ q.min

/-- The calls that lose nothing: no key is decreased, the minimum is removed only where it is the
only element, and a heap with elements is not combined with itself. -/
def Sound (w : World TKey TValue) : Call TKey TValue → Prop
  | .make _ _ => True
  | .Insert _ _ _ => True
  | .Combine h other => h = other → w.elements h = []
  | .DecreaseKey _ _ _ => False
  | .RemoveMin h => (w.elements h).length ≤ 1

def heaps (TKey TValue : Type) [LinearOrder TKey] (fuel : ℕ) :
    System (World TKey TValue) (Call TKey TValue) FibHeap.Fault where
  start w := w = .start
  allowed := Allowed
  step := step fuel

/-- Each step meets the condition. -/
def soundHeaps (TKey TValue : Type) [LinearOrder TKey] (fuel : ℕ) :
    System (World TKey TValue) (Call TKey TValue) FibHeap.Fault where
  start w := w = .start
  allowed w c := Allowed w c ∧ Sound w c
  step := step fuel

variable {w : World TKey TValue} {h : ℕ} {q : FibHeap TKey} {l : List (Cell TKey TValue)}

/-! ## Flat heaps -/

/-- Every heap is flat, and no node is in two of them. -/
structure World.Flat (w : World TKey TValue) : Prop where
  heap : ∀ h q, w.heap h = some q → ∃ cells, (w.memory q).Flat (w.elements h) cells
  apart : ∀ h h', h ≠ h' → ((w.elements h).map Cell.node).Disjoint ((w.elements h').map Cell.node)
  used : ∀ h, ∀ c ∈ w.elements h, c.node < w.fresh
  unused : ∀ a, w.fresh ≤ a → w.node a = none

theorem World.Flat.intact (hw : w.Flat) : w.Intact := by
  intro h q hq
  obtain ⟨cells, hf⟩ := hw.heap h q hq
  exact hf.intact

theorem flat_start : (World.start : World TKey TValue).Flat where
  heap _ _ hq := by cases hq
  apart _ _ _ := by simp [World.start]
  used _ _ hc := by simp [World.start] at hc
  unused _ _ := rfl

section
variable {m : FibMemory TKey TValue} {h' other : ℕ}

@[simp]
theorem put_heap : (w.put h m l).heap = update w.heap h (some m.toFibHeap) := rfl

@[simp]
theorem put_elements : (w.put h m l).elements = update w.elements h l := rfl

@[simp]
theorem drop_heap : (w.drop other).heap = update w.heap other none := rfl

@[simp]
theorem drop_elements : (w.drop other).elements = update w.elements other [] := rfl

omit [LinearOrder TKey] in
/-- The elements of one heap are changed, and none of the new ones is in another heap. -/
theorem apart_update {elements : ℕ → List (Cell TKey TValue)}
    (ha : ∀ h h', h ≠ h' → ((elements h).map Cell.node).Disjoint ((elements h').map Cell.node))
    (hl : ∀ h' ≠ h, ∀ c ∈ elements h', c.node ∉ l.map Cell.node) (h₁ h₂ : ℕ) (hne : h₁ ≠ h₂) :
    ((update elements h l h₁).map Cell.node).Disjoint ((update elements h l h₂).map Cell.node) := by
  have hdisj : ∀ h' ≠ h, (l.map Cell.node).Disjoint ((elements h').map Cell.node) := by
    intro h' hh a ha ha'
    obtain ⟨c, hc, rfl⟩ := List.mem_map.mp ha'
    exact hl h' hh c hc ha
  rcases eq_or_ne h₁ h with rfl | hh₁
  · rw [update_self, update_of_ne hne.symm]
    exact hdisj h₂ hne.symm
  rcases eq_or_ne h₂ h with rfl | hh₂
  · rw [update_self, update_of_ne hne]
    exact List.disjoint_comm.mp (hdisj h₁ hne)
  · rw [update_of_ne hh₁, update_of_ne hh₂]
    exact ha h₁ h₂ hne

end

theorem flat_drop (hw : w.Flat) (other : ℕ) : (w.drop other).Flat where
  heap h q hq := by
    rw [drop_heap] at hq
    rw [drop_elements]
    rcases eq_or_ne h other with rfl | hne
    · rw [update_self] at hq
      cases hq
    · rw [update_of_ne hne] at hq ⊢
      exact hw.heap h q hq
  apart := apart_update hw.apart (by simp)
  used h c hc := by
    rw [drop_elements] at hc
    rcases eq_or_ne h other with rfl | hne
    · rw [update_self] at hc
      cases hc
    · rw [update_of_ne hne] at hc
      exact hw.used h c hc
  unused := hw.unused

/-- A call on one heap leaves the others, whose nodes it does not touch. -/
theorem flat_put {m : FibMemory TKey TValue} {S : List ℕ} {cells : List (Cell TKey TValue)}
    (hw : w.Flat) (hm : m.Flat l cells) (hfresh : w.fresh ≤ m.fresh) (hafter : After (w.memory q) m S)
    (hS : ∀ h' ≠ h, ∀ c ∈ w.elements h', c.node ∉ S)
    (hl : ∀ h' ≠ h, ∀ c ∈ w.elements h', c.node ∉ l.map Cell.node) : (w.put h m l).Flat where
  heap h' q' hq := by
    rw [put_heap] at hq
    rw [put_elements]
    rcases eq_or_ne h' h with rfl | hne
    · rw [update_self] at hq ⊢
      cases hq
      exact ⟨cells, hm⟩
    · rw [update_of_ne hne] at hq ⊢
      obtain ⟨cells', hf⟩ := hw.heap h' q' hq
      have hframe : ∀ c ∈ cells', m.node c.node = w.node c.node := fun c hc =>
        hafter.node _ (hS h' hne c (hf.perm.mem_iff.mp hc))
      exact ⟨cells', ⟨⟨hf.toRoots.congr hframe, hf.min, hm.unused⟩, hf.perm, hf.least, hf.num⟩⟩
  apart := apart_update hw.apart hl
  used h' c hc := by
    rw [put_elements] at hc
    rcases eq_or_ne h' h with rfl | hne
    · rw [update_self] at hc
      exact hm.lt_fresh (hm.perm.mem_iff.mpr hc)
    · rw [update_of_ne hne] at hc
      exact (hw.used h' c hc).trans_le hfresh
  unused := hm.unused

/-! ## One call -/

section
variable {α : Type} {x : FibHeap TKey → FibHeap.Op TKey TValue α}
  {ls : FibHeap TKey → α → List (Cell TKey TValue)}

theorem act_flat (hq : w.heap h = some q)
    (hx : Returns (x q) (w.memory q) fun a m => (w.put h m (ls q a)).Flat) :
    ∃ t, act w h x ls = .ok t ∧ t.Flat := by
  obtain ⟨a, m, he, hflat⟩ := hx
  refine ⟨_, ?_, hflat⟩
  unfold act
  rw [hq]
  dsimp only
  rw [he]
  rfl

theorem act_ok {t : World TKey TValue} (hq : w.heap h = some q) (ha : act w h x ls = .ok t) :
    ∃ a m, x q (w.memory q) = .ok (a, m) ∧ t = w.put h m (ls q a) := by
  unfold act at ha
  rw [hq] at ha
  obtain ⟨⟨a, m⟩, he, rfl⟩ := map_eq_ok ha
  exact ⟨a, m, he, rfl⟩

end

theorem intact_put {m : FibMemory TKey TValue} (ht : (w.put h m l).Intact) : m.Intact l := by
  have hput := ht h m.toFibHeap (by rw [put_heap, update_self])
  rw [put_elements, update_self] at hput
  exact hput

section
variable {m : FibMemory TKey TValue} {elements cells : List (Cell TKey TValue)}

/-- Without the minimum, nothing is left of one element, and something of more. -/
theorem filter_min_eq_nil (hf : m.Flat elements cells) :
    (elements.filter fun c => some c.node ≠ m.min) = [] ↔ elements.length ≤ 1 := by
  have hperm := hf.perm.filter fun c => some c.node ≠ m.min
  rw [← List.length_eq_zero_iff, ← hperm.length_eq, ← hf.perm.length_eq, hf.min]
  cases cells with
  | nil => simp
  | cons c l =>
    have hnd := List.nodup_cons.mp hf.nodup
    have hl : l.filter (fun d => some d.node ≠ some c.node) = l := by
      refine List.filter_eq_self.mpr fun d hd => ?_
      have hne : d.node ≠ c.node := fun he => hnd.1 (he ▸ List.mem_map_of_mem hd)
      simpa using hne
    rw [List.head?_cons, Option.map_some, List.filter_cons_of_neg (by simp), hl, List.length_cons]
    omega

end

variable {c : Call TKey TValue} {t : World TKey TValue} {fuel : ℕ}

theorem step_flat (hw : w.Flat) (ha : Allowed w c) (hs : Sound w c) :
    ∃ t, step fuel w c = .ok t ∧ t.Flat := by
  cases c with
  | make h c =>
    have hempty : (w.memory (new c) : FibMemory TKey TValue).Flat [] [] :=
      ⟨⟨⟨Ring.ring_nil _, .nil, by simp⟩, rfl, hw.unused⟩, .refl _, by simp, rfl⟩
    have hafter : After (w.memory (new c)) (w.memory (new c)) [] := ⟨rfl, fun _ _ => rfl⟩
    exact ⟨_, rfl, flat_put hw hempty le_rfl hafter (by simp) (by simp)⟩
  | Insert h key value =>
    obtain ⟨hlive, hlen⟩ := ha
    obtain ⟨q, hq⟩ := Option.isSome_iff_exists.mp hlive
    obtain ⟨cells, hf⟩ := hw.heap h q hq
    have hnot : ∀ h' ≠ h, ∀ c ∈ w.elements h', c.node ≠ w.fresh ∧
        c.node ∉ (w.elements h).map Cell.node := fun h' hne c hc =>
      ⟨(hw.used h' c hc).ne, hw.apart h' h hne (List.mem_map_of_mem hc)⟩
    unfold step
    dsimp only
    refine act_flat hq (returns_mono (Insert_flat hf hlen key value) ?_)
    rintro _ m ⟨rfl, hfresh, hafter, cells', hf'⟩
    refine flat_put hw hf' (by rw [hfresh]; exact Nat.le_succ _) hafter ?_ ?_
    · intro h' hne c hc hm
      rcases List.mem_cons.mp hm with hm | hm
      · exact (hnot h' hne c hc).1 hm
      · exact (hnot h' hne c hc).2 hm
    · intro h' hne c hc hm
      rw [List.map_append] at hm
      rcases List.mem_append.mp hm with hm | hm
      · exact (hnot h' hne c hc).2 hm
      · exact (hnot h' hne c hc).1 (List.mem_singleton.mp hm)
  | Combine h other =>
    obtain ⟨hlive, hlive', hlen⟩ := ha
    obtain ⟨q, hq⟩ := Option.isSome_iff_exists.mp hlive
    obtain ⟨o, ho⟩ := Option.isSome_iff_exists.mp hlive'
    obtain ⟨cells, hf⟩ := hw.heap h q hq
    obtain ⟨cells', hf'⟩ := hw.heap other o ho
    unfold step
    dsimp only
    by_cases hne : h = other
    · have hnil : w.elements h = [] := hs hne
      rw [if_pos hne]
      rw [hnil] at hf ⊢
      refine act_flat hq (returns_mono (Combine_flat hf hf (by simp) (by simp)) ?_)
      rintro _ m ⟨hfresh, hafter, cells'', hf''⟩
      exact flat_put hw hf'' hfresh.ge hafter (by simp) (by simp)
    · have hq' : (w.drop other).heap h = some q := by rw [drop_heap, update_of_ne hne, hq]
      have hdisj := hw.apart h other hne
      rw [if_neg hne, ho]
      refine act_flat hq' (returns_mono (Combine_flat (m := (w.drop other).memory q) hf hf' hdisj
        hlen) ?_)
      rintro _ m ⟨hfresh, hafter, cells'', hf''⟩
      have hnot : ∀ h' ≠ h, ∀ c ∈ (w.drop other).elements h',
          c.node ∉ (w.elements h).map Cell.node ++ (w.elements other).map Cell.node := by
        intro h' hne' c hc hm
        rw [drop_elements] at hc
        rcases eq_or_ne h' other with rfl | hh
        · rw [update_self] at hc
          cases hc
        · rw [update_of_ne hh] at hc
          rcases List.mem_append.mp hm with hm | hm
          · exact hw.apart h' h hne' (List.mem_map_of_mem hc) hm
          · exact hw.apart h' other hh (List.mem_map_of_mem hc) hm
      refine flat_put (flat_drop hw other) hf'' hfresh.ge hafter hnot fun h' hne' c hc => ?_
      rw [List.map_append]
      exact hnot h' hne' c hc
  | DecreaseKey h node key => exact hs.elim
  | RemoveMin h =>
    obtain ⟨q, hq⟩ := Option.isSome_iff_exists.mp ha
    obtain ⟨cells, hf⟩ := hw.heap h q hq
    have hnil := (filter_min_eq_nil hf).mpr hs
    unfold step
    dsimp only
    refine act_flat hq (returns_mono (RemoveMin_flat hf hs fuel) ?_)
    rintro _ m ⟨hfresh, hafter, hf'⟩
    have hnil : ((w.elements h).filter fun c => some c.node ≠ q.min) = [] := hnil
    rw [hnil]
    refine flat_put hw hf' hfresh.ge hafter (fun h' hne c hc => ?_) (by simp)
    exact hw.apart h' h hne (List.mem_map_of_mem hc)

/-- Every other call loses something, or it stops. -/
theorem step_loses (hw : w.Flat) (ha : Allowed w c) (hs : ¬Sound w c)
    (hstep : step fuel w c = .ok t) : ¬t.Intact := by
  intro ht
  cases c with
  | make h c => exact hs trivial
  | Insert h key value => exact hs trivial
  | Combine h other =>
    obtain ⟨hlive, -, hlen⟩ := ha
    obtain ⟨q, hq⟩ := Option.isSome_iff_exists.mp hlive
    obtain ⟨cells, hf⟩ := hw.heap h q hq
    obtain ⟨rfl, hne⟩ := Classical.not_imp.mp hs
    unfold step at hstep
    dsimp only at hstep
    rw [if_pos rfl] at hstep
    obtain ⟨_, m, hrun, rfl⟩ := act_ok hq hstep
    have hmin : q.min ≠ none := fun hmin => hne (hf.intact.eq_nil hmin)
    have hself := Combine_self (m := w.memory q) hmin
    have hnum := ends_ok hself hrun
    have hcount := (intact_put ht).count
    have hcount' : (w.memory q).num = (w.elements h).length := hf.num
    have hpos := List.length_pos_of_ne_nil hne
    rw [hnum, hcount', int_eq (by omega) (by omega)] at hcount
    omega
  | DecreaseKey h node key =>
    obtain ⟨hlive, e, he, rfl, -⟩ := ha
    obtain ⟨q, hq⟩ := Option.isSome_iff_exists.mp hlive
    obtain ⟨cells, hf⟩ := hw.heap h q hq
    unfold step at hstep
    dsimp only at hstep
    obtain ⟨_, m, hrun, -⟩ := act_ok hq hstep
    exact ends_ok (DecreaseKey_fault (hf.data e (hf.perm.mem_iff.mpr he)) fuel key) hrun
  | RemoveMin h =>
    obtain ⟨q, hq⟩ := Option.isSome_iff_exists.mp ha
    obtain ⟨cells, hf⟩ := hw.heap h q hq
    unfold step at hstep
    dsimp only at hstep
    obtain ⟨_, m, hrun, rfl⟩ := act_ok hq hstep
    have hmin := ends_ok (RemoveMin_min fuel) hrun
    exact hs ((filter_min_eq_nil hf).mp ((intact_put ht).eq_nil hmin))

/-! ## Runs -/

theorem reachable_flat (hw : (soundHeaps TKey TValue fuel).Reachable w) : w.Flat := by
  refine hw.preserves (fun s hs => ?_) fun s c t hs hc hstep => ?_
  · obtain rfl : s = .start := hs
    exact flat_start
  · obtain ⟨ha, hc⟩ := hc
    obtain ⟨t', hstep', ht'⟩ := step_flat hs ha hc
    obtain rfl : t' = t := Except.ok.inj (hstep'.symm.trans hstep)
    exact ht'

/-- Where every step has met the condition nothing is lost, and nothing is lost in the next step
exactly if it meets the condition too. -/
theorem loses_nothing (hw : (soundHeaps TKey TValue fuel).Reachable w) (ha : Allowed w c) :
    w.Intact ∧ ((∃ t, step fuel w c = .ok t ∧ t.Intact) ↔ Sound w c) := by
  have hflat := reachable_flat hw
  refine ⟨hflat.intact, ?_, ?_⟩
  · rintro ⟨t, hstep, ht⟩
    by_contra hs
    exact step_loses hflat ha hs hstep ht
  · intro hs
    obtain ⟨t, hstep, ht⟩ := step_flat hflat ha hs
    exact ⟨t, hstep, ht.intact⟩

/-- One heap that has just been made. -/
def oneHeap : World ℕ ℕ := World.start.put 0 (World.start.memory (new byDifference)) []

theorem loses_nothing_oneHeap : oneHeap.Intact ∧
    ((∃ t, step 1 oneHeap (.Insert 0 5 7) = .ok t ∧ t.Intact) ↔ Sound oneHeap (.Insert 0 5 7)) := by
  have hstart : (soundHeaps ℕ ℕ 1).Reachable .start := .of_start rfl
  exact loses_nothing (hstart.step (c := .make 0 byDifference) ⟨rfl, trivial⟩ rfl) ⟨rfl, by decide⟩

/-- The second element is lost when the first is removed. -/
theorem second_lost : ∃ t, (heaps ℕ ℕ 1).Run .start
    [.make 0 byDifference, .Insert 0 1 1, .Insert 0 2 2, .RemoveMin 0] t ∧ ¬t.Intact := by
  refine ⟨_, .cons rfl rfl (.cons ⟨rfl, by decide⟩ rfl (.cons ⟨rfl, by decide⟩ rfl
    (.cons rfl rfl (.nil _)))), fun ht => ?_⟩
  have hnil := (ht 0 _ rfl).eq_nil rfl
  cases hnil

end Infos.Commons.HeapRuns
