import Infos.Fs.Vfs
import Infos.Lib.Loop

/-!
# The buffer of `lookup_node`

The loops of `lookup_node` with the index of every write to `component`, whether or not it lies in
the buffer.
-/

open Infos.Prog Infos.Util

namespace Infos.Fs

namespace VirtualFilesystem

/-- `char component[256]` -/
def component_size : ℕ := 256

/-- A component as it was copied, with the path behind it. -/
structure Copied where
  component : List UInt8
  writes : List ℕ
  path : List UInt8

/-- The inner loop of `lookup_node`, from the index `i` on, with the zero behind the component and
the slash. -/
def copy_component : (path : List UInt8) → (i : ℕ) → (component : List UInt8) →
    (writes : List ℕ) → Copied
  | [], i, component, writes => ⟨component, i :: writes, []⟩
  | c :: path, i, component, writes =>
    if c = 47 then ⟨component, i :: writes, path⟩
    else copy_component path (i + 1) (component ++ [c]) (i :: writes)

structure Scan (σ : Type) where
  current_node : ℕ
  path : List UInt8
  vfs : Vfs σ

variable {σ : Type} (alloc : ℕ → ℕ) (P : PFS σ)

def Scan.copied (s : Scan σ) : Copied := copy_component s.path 0 [] []

/-- The outer loop. -/
def scan_turn : Loop (Scan σ) (Except VfsFault (Option ℕ × Vfs σ)) := fun s =>
  if s.copied.component.length = 0 then .inr (.ok (some s.current_node, s.vfs))
  else
    match VFSNode.get_child alloc P s.current_node s.copied.component s.vfs with
    | .error e => .inr (.error e)
    | .ok (none, v) => .inr (.ok (none, v))
    | .ok (some node, v) => .inl ⟨node, s.copied.path, v⟩

/-- The state in which `lookup_node` comes to its loops, if it does. -/
def scan_start (_root_node : ℕ) (path : List UInt8) (v : Vfs σ) : Option (Scan σ) :=
  match path with
  | [] => none
  | c :: path => if c ≠ 47 then none else if path = [] then none else some ⟨_root_node, path, v⟩

/-- In every turn that `lookup_node` comes to, all is written inside the buffer. -/
def WritesInside (_root_node : ℕ) (path : List UInt8) (v : Vfs σ) : Prop :=
  ∀ s, scan_start _root_node path v = some s → ∀ t, (scan_turn alloc P).Reaches s t →
    ∀ i ∈ t.copied.writes, i < component_size

/-! ## What is copied -/

variable {alloc : ℕ → ℕ} {P : PFS σ} {s t : Scan σ} {path component : List UInt8}
  {writes : List ℕ} {i j : ℕ} {v : Vfs σ}

theorem length_le_copied (path component : List UInt8) (writes : List ℕ) (i : ℕ) :
    component.length ≤ (copy_component path i component writes).component.length := by
  induction path generalizing i component writes with
  | nil => exact le_rfl
  | cons c path ih =>
    unfold copy_component
    split
    · exact le_rfl
    · exact le_trans (by simp) (ih _ _ _)

theorem copied_path_le : (copy_component path i component writes).path.length ≤ path.length := by
  induction path generalizing i component writes with
  | nil => exact le_rfl
  | cons c path ih =>
    unfold copy_component
    split
    · exact Nat.le_succ _
    · exact le_trans ih (Nat.le_succ _)

theorem copy_component_writes : j ∈ (copy_component path i component writes).writes ↔
    j ∈ writes ∨ (i ≤ j ∧ j + component.length ≤
      i + (copy_component path i component writes).component.length) := by
  induction path generalizing i component writes with
  | nil =>
    simp only [copy_component, List.mem_cons]
    rw [or_comm, show j = i ↔ i ≤ j ∧ j + component.length ≤ i + component.length by omega]
  | cons c path ih =>
    unfold copy_component
    split
    · rw [List.mem_cons, or_comm,
        show j = i ↔ i ≤ j ∧ j + component.length ≤ i + component.length by omega]
    · have hle := length_le_copied path (component ++ [c]) (i :: writes) (i + 1)
      rw [ih, List.mem_cons, or_comm (a := j = i), or_assoc]
      simp only [List.length_append, List.length_singleton] at hle ⊢
      refine or_congr_right ?_
      omega

/-- The zero is written last, behind the component. -/
theorem writes_inside_iff_length :
    (∀ i ∈ s.copied.writes, i < component_size) ↔ s.copied.component.length < component_size := by
  simp only [Scan.copied, copy_component_writes, List.not_mem_nil, false_or, List.length_nil,
    Nat.add_zero, Nat.zero_add, Nat.zero_le, true_and]
  constructor
  · intro h
    exact h _ le_rfl
  · intro h i hi
    exact lt_of_le_of_lt hi h

/-- The component is the next of the names in front of the first empty component. -/
theorem names_copied : (pieces component path).takeWhile (· ≠ []) =
    if (copy_component path i component writes).component = [] then []
    else (copy_component path i component writes).component ::
      names_before (copy_component path i component writes).path := by
  have hnil : names_before [] = [] := by simp [names_before, List.splitOn]
  induction path generalizing i component writes with
  | nil =>
    rw [pieces_nil, List.takeWhile_cons]
    simp [copy_component, hnil]
  | cons c path ih =>
    unfold copy_component
    by_cases hc : c = 47
    · subst hc
      rw [pieces_slash, List.takeWhile_cons, pieces_start, if_pos rfl]
      by_cases hcomp : component = []
      · simp [hcomp]
      · simp [hcomp, names_before]
    · rw [pieces_other hc, if_neg hc]
      exact ih

theorem names_before_eq : names_before s.path =
    if s.copied.component = [] then [] else s.copied.component :: names_before s.copied.path := by
  rw [Scan.copied, ← names_copied, pieces_start]
  rfl

/-! ## The turns -/

theorem scan_turn_inl : scan_turn alloc P s = .inl t ↔ s.copied.component ≠ [] ∧
    VFSNode.get_child alloc P s.current_node s.copied.component s.vfs =
      .ok (some t.current_node, t.vfs) ∧ t.path = s.copied.path := by
  unfold scan_turn
  split
  next hc => simp [List.length_eq_zero_iff.mp hc]
  next hc =>
    rw [List.length_eq_zero_iff] at hc
    split
    · simp_all
    · simp_all
    next node v hv =>
      obtain ⟨node', path', v'⟩ := t
      simp only [Sum.inl.injEq, Scan.mk.injEq, ne_eq, hc, not_false_eq_true, true_and, hv,
        Except.ok.injEq, Prod.mk.injEq, Option.some.injEq]
      exact ⟨fun ⟨hn, hp, hv⟩ => ⟨⟨hn, hv⟩, hp.symm⟩, fun ⟨⟨hn, hv⟩, hp⟩ => ⟨hn, hp.symm, hv⟩⟩

/-- No component is too long that the names in front of it lead to. -/
def Bounded (alloc : ℕ → ℕ) (P : PFS σ) (s : Scan σ) : Prop :=
  ∀ cs c, cs ++ [c] <+: names_before s.path →
    (∃ j v, walk_names (VFSNode.get_child alloc P) s.current_node cs s.vfs = .ok (some j, v)) →
    c.length < component_size

theorem Bounded.here (h : Bounded alloc P s) : s.copied.component.length < component_size := by
  by_cases hc : s.copied.component = []
  · rw [hc]
    decide
  · refine h [] _ ?_ ⟨s.current_node, s.vfs, rfl⟩
    rw [names_before_eq, if_neg hc]
    exact ⟨_, rfl⟩

theorem walk_turn (ht : scan_turn alloc P s = .inl t) (cs : List (List UInt8)) :
    walk_names (VFSNode.get_child alloc P) s.current_node (s.copied.component :: cs) s.vfs =
      walk_names (VFSNode.get_child alloc P) t.current_node cs t.vfs := by
  obtain ⟨-, hget, -⟩ := scan_turn_inl.mp ht
  rw [walk_names, bind_eq, hget]

theorem Bounded.turn (h : Bounded alloc P s) (ht : scan_turn alloc P s = .inl t) :
    Bounded alloc P t := by
  obtain ⟨hc, -, hpath⟩ := scan_turn_inl.mp ht
  intro cs c hpre hwalk
  rw [hpath] at hpre
  refine h (s.copied.component :: cs) c ?_ (by rwa [walk_turn ht])
  rw [names_before_eq, if_neg hc, List.cons_append]
  exact (List.cons_prefix_cons).mpr ⟨rfl, hpre⟩

/-- By the names that lead to a component. -/
theorem bounded_of_short
    (h : ∀ t, (scan_turn alloc P).Reaches s t → t.copied.component.length < component_size) :
    Bounded alloc P s := by
  intro cs
  induction cs generalizing s with
  | nil =>
    intro c hpre _
    rw [names_before_eq] at hpre
    split at hpre
    · simp at hpre
    · obtain ⟨rfl, -⟩ := List.cons_prefix_cons.mp hpre
      exact h s (.here s)
  | cons x cs ih =>
    rintro c hpre ⟨j, v, hwalk⟩
    rw [names_before_eq] at hpre
    split at hpre
    · simp at hpre
    next hc =>
      obtain ⟨rfl, hrest⟩ := List.cons_prefix_cons.mp hpre
      have hturn : ∃ t, scan_turn alloc P s = .inl t ∧ t.path = s.copied.path := by
        rw [walk_names, bind_eq] at hwalk
        split at hwalk
        next r v₁ hget =>
          cases r with
          | none => cases hwalk
          | some node => exact ⟨⟨node, s.copied.path, v₁⟩, scan_turn_inl.mpr ⟨hc, hget, rfl⟩, rfl⟩
        · cases hwalk
      obtain ⟨t, ht, hpath⟩ := hturn
      rw [walk_turn ht] at hwalk
      exact ih (fun u hu => h u (.turn ht hu)) c (hpath ▸ hrest) ⟨j, v, hwalk⟩

theorem bounded_iff : Bounded alloc P s ↔ ∀ t, (scan_turn alloc P).Reaches s t →
    ∀ i ∈ t.copied.writes, i < component_size := by
  simp only [writes_inside_iff_length]
  constructor
  · intro h t ht
    exact (ht.preserves h fun _ _ hb hturn => hb.turn hturn).here
  · exact bounded_of_short

/-- Nothing is written past the buffer exactly if no component of 256 characters or more comes
behind names that lead to a node. -/
theorem writes_inside_iff (alloc : ℕ → ℕ) (P : PFS σ) (_root_node : ℕ) (path : List UInt8)
    (v : Vfs σ) : WritesInside alloc P _root_node path v ↔
      ∀ rest, path = 47 :: rest → ∀ cs c, cs ++ [c] <+: names_before rest →
        (∃ j v', walk_names (VFSNode.get_child alloc P) _root_node cs v = .ok (some j, v')) →
        c.length < component_size := by
  have hiff : ∀ rest, rest ≠ [] → (WritesInside alloc P _root_node (47 :: rest) v ↔
      Bounded alloc P ⟨_root_node, rest, v⟩) := by
    intro rest hrest
    simp [WritesInside, scan_start, hrest, bounded_iff]
  cases path with
  | nil => simp [WritesInside, scan_start]
  | cons c rest =>
    by_cases hc : c = 47
    · subst hc
      by_cases hrest : rest = []
      · subst hrest
        simp [WritesInside, scan_start, names_before, List.splitOn]
      · rw [hiff rest hrest]
        constructor
        · rintro h rest' heq
          obtain rfl := (List.cons.inj heq).2
          exact h
        · intro h
          exact h rest rfl
    · simp [WritesInside, scan_start, hc]

/-- One component of 256 characters. -/
theorem written_past :
    ¬WritesInside (64 * ·) two_dirs 0 (47 :: List.replicate 256 97) (initial 0 ()) := by
  intro h
  have hlast : 256 ∈ (copy_component (List.replicate 256 97) 0 [] []).writes := by decide +kernel
  exact absurd (h ⟨0, List.replicate 256 97, initial 0 ()⟩ rfl _ (.here _) 256 hlast) (by decide)

/-! ## The same lookup -/

theorem lookup_loop_copied {current_node : ℕ} (i : ℕ) (writes : List ℕ) :
    lookup_loop alloc P current_node component path =
      turn alloc P current_node (copy_component path i component writes).component
        fun node => lookup_loop alloc P node [] (copy_component path i component writes).path := by
  induction path generalizing i component writes with
  | nil => rfl
  | cons c path ih =>
    rw [lookup_loop, copy_component]
    by_cases hc : c = 47
    · rw [if_pos hc, if_pos hc]
    · rw [if_neg hc, if_neg hc]
      exact ih _ _

theorem copied_path_lt (hc : s.copied.component ≠ []) : s.copied.path.length < s.path.length := by
  obtain ⟨node, path, v⟩ := s
  cases path with
  | nil => exact absurd rfl hc
  | cons c path =>
    unfold Scan.copied copy_component
    dsimp only
    split
    · exact Nat.lt_succ_self _
    · exact Nat.lt_succ_of_le copied_path_le

/-- As long as all is written inside the buffer, the loops do what `lookup_loop` says. -/
theorem scan_ends (h : Bounded alloc P s) :
    (scan_turn alloc P).Ends s (lookup_loop alloc P s.current_node [] s.path s.vfs) := by
  induction hn : s.path.length using Nat.strongRecOn generalizing s with
  | ind n ih =>
    have hshort : (copy_component s.path 0 [] []).component.length < 256 := h.here
    rw [lookup_loop_copied 0 [], turn_eq hshort]
    by_cases hc : s.copied.component = []
    · have hc' : (copy_component s.path 0 [] []).component = [] := hc
      refine .leave ?_
      rw [scan_turn, if_pos (List.length_eq_zero_iff.mpr hc), if_pos hc']
      rfl
    · have hc' : (copy_component s.path 0 [] []).component ≠ [] := hc
      have hlen : s.copied.component.length ≠ 0 := fun hl => hc (List.length_eq_zero_iff.mp hl)
      rw [if_neg hc', bind_eq]
      split
      next r v hget =>
        cases r with
        | none =>
          refine .leave ?_
          rw [scan_turn, if_neg hlen, Scan.copied, hget]
          rfl
        | some node =>
          have ht : scan_turn alloc P s = .inl ⟨node, s.copied.path, v⟩ :=
            scan_turn_inl.mpr ⟨hc, hget, rfl⟩
          exact .turn ht (ih _ (hn ▸ copied_path_lt hc) (h.turn ht) rfl)
      next e hget =>
        refine .leave ?_
        rw [scan_turn, if_neg hlen, Scan.copied, hget]

end VirtualFilesystem

end Infos.Fs
