import Infos.Arch.Trap
import Mathlib.Order.Nat

/-!
# What is resumed

The contexts of a thread are linked from `native_context` on, each below the one that was saved
before it.
-/

namespace Infos.Arch

variable {m m' : Machine} {h h' : History} {boot : ℕ × ℕ} {t u : ℕ} {mem mem' : ℕ → ℕ}
  {kernel_stack ctx low high p : ℕ} {f : Saved} {fs : List Saved}

/-! ## The contexts of one thread -/

/-- Where the code that is resumed runs: as a user, with an empty kernel stack, or below the other
contexts. The system calls of users come from users. -/
structure Lands (kernel_stack ctx high p : ℕ) (f : Saved) (previous : ℕ) (fs : List Saved) :
    Prop where
  user : f.cpu.User → fs = [] ∧ high = kernel_stack
  kernel : ¬ f.cpu.User → f.cpu.rsp ≤ top high previous fs
  syscall : f.irq = some IRQ_USER_SYSCALL → f.cpu.User ∧ ctx = p
  result : f.result ≠ none → f.irq = some IRQ_USER_SYSCALL

/-- The contexts lie at `p`, one above the other. -/
def Chain (mem : ℕ → ℕ) (kernel_stack ctx low high : ℕ) : ℕ → List Saved → Prop
  | _, [] => True
  | p, f :: fs =>
    (∃ extra, Stored mem p (f.resumed.field (mem p) extra)) ∧ low ≤ p ∧
      p + 176 ≤ top high (mem p) fs ∧ Lands kernel_stack ctx high p f (mem p) fs ∧
      Chain mem kernel_stack ctx low high (mem p) fs

theorem top_cons : top high p (f :: fs) = p := if_neg (List.cons_ne_nil f fs)

theorem Chain.top_le (hc : Chain mem kernel_stack ctx low high p fs) : top high p fs ≤ high := by
  induction fs generalizing p with
  | nil => exact le_rfl
  | cons f fs ih =>
    obtain ⟨-, -, hnext, -, hrest⟩ := hc
    have := ih hrest
    rw [top_cons]
    omega

theorem Chain.bounds (hc : Chain mem kernel_stack ctx low high p fs) {q : ℕ}
    (hq : q ∈ addresses mem p fs) : top high p fs ≤ q ∧ low ≤ q ∧ q + 176 ≤ high := by
  induction fs generalizing p with
  | nil => simp [addresses] at hq
  | cons f fs ih =>
    obtain ⟨-, hlow, hnext, -, hrest⟩ := hc
    have htop := hrest.top_le
    rw [top_cons]
    rcases List.mem_cons.mp hq with rfl | hq
    · exact ⟨le_rfl, hlow, by omega⟩
    · obtain ⟨hq, hlq, hqh⟩ := ih hrest hq
      exact ⟨by omega, hlq, hqh⟩

theorem Chain.congr (hc : Chain mem kernel_stack ctx low high p fs)
    (hm : ∀ q ∈ addresses mem p fs, ∀ a, q ≤ a → a < q + 176 → mem' a = mem a) :
    Chain mem' kernel_stack ctx low high p fs := by
  induction fs generalizing p with
  | nil => trivial
  | cons f fs ih =>
    obtain ⟨⟨extra, hs⟩, hlow, hnext, hl, hrest⟩ := hc
    have hp := hm p List.mem_cons_self
    have hprev : mem' p = mem p := hp p le_rfl (by omega)
    unfold Chain
    rw [hprev]
    exact ⟨⟨extra, hs.congr hp⟩, hlow, hnext, hl, ih hrest fun q hq =>
      hm q (List.mem_cons_of_mem _ hq)⟩

/-- What is written is not in the part of the stack where the contexts are. -/
theorem Chain.frame (hc : Chain mem kernel_stack ctx low high p fs)
    (hm : ∀ a, low ≤ a → top high p fs ≤ a → a < high → mem' a = mem a) :
    Chain mem' kernel_stack ctx low high p fs := by
  refine hc.congr fun q hq a hqa ha => ?_
  obtain ⟨htop, hlow, hhigh⟩ := hc.bounds hq
  exact hm a (by omega) (by omega) (by omega)

/-! ## All threads -/

/-- The contexts of each thread are those that were saved and are not resumed yet. -/
structure Inv (boot : ℕ × ℕ) (m : Machine) (h : History) : Prop where
  chain : ∀ t ∈ h.created, Chain m.mem (m.threads t).kernel_stack (m.ctx t) (h.low t) (h.high t)
    (m.threads t).native_context (h.frames t)
  apart : ∀ t ∈ h.created, ∀ u ∈ h.created, t ≠ u → h.high t ≤ h.low u ∨ h.high u ≤ h.low t
  waiting : ∀ t ∈ h.created, h.running ≠ some t → h.frames t ≠ []
  first : ∀ t n, h.first t = some n → t ∈ h.created ∧ h.running ≠ some t ∧
    (m.threads t)._current_entry_argument = min 4 n.args.length
  booting : h.running = none → m.current_thread = none ∧ ¬ m.cpu.User ∧ m.cpu.rsp ≤ boot.2 ∧
    ∀ t ∈ h.created, boot.2 ≤ h.low t ∨ h.high t ≤ boot.1
  running : ∀ u, h.running = some u → u ∈ h.created ∧ ∃ t ∈ h.created,
    m.current_thread = some t ∧ m.rsp0 = (m.threads t).kernel_stack ∧
    (t ≠ u → ¬ m.cpu.User ∧ h.frames u ≠ []) ∧
    (m.cpu.User → h.frames u = [] ∧ h.high u = (m.threads u).kernel_stack) ∧
    (¬ m.cpu.User → m.cpu.rsp ≤ top (h.high u) (m.threads u).native_context (h.frames u))

theorem History.frames_of_none (hn : h.first t = none) : h.frames t = h.saved t := by
  simp [frames, hn]

theorem History.frames_of_some {n : First} (hn : h.first t = some n) :
    h.frames t = [⟨n.cpu, none, none⟩] := by
  simp [frames, hn]

theorem Inv.not_first (hi : Inv boot m h) (hr : h.running = some t) : h.first t = none := by
  cases hf : h.first t with
  | none => rfl
  | some n => exact absurd hr (hi.first t n hf).2.1

theorem Inv.start (h0 : (system boot).start (m, h)) : Inv boot m h := by
  obtain ⟨hh, hcur, hu, hsp⟩ := h0
  obtain rfl : h = History.start := hh
  refine ⟨by simp [History.start], by simp [History.start], by simp [History.start],
    by simp [History.start], fun _ => ⟨hcur, hu, hsp, by simp [History.start]⟩, ?_⟩
  intro u hr
  cases hr

/-! ## One step -/

theorem Inv.run {cpu : Cpu} (hi : Inv boot m h) (ha : h.Allowed boot m (.run cpu mem)) :
    Inv boot (m.step (.run cpu mem)) h := by
  obtain ⟨huser, hsp, hmem⟩ := ha
  refine ⟨fun t ht => (hi.chain t ht).congr (hmem t ht), hi.apart, hi.waiting, hi.first,
    fun hr => ?_, fun u hr => ?_⟩
  · obtain ⟨hcur, hu, -, hboot⟩ := hi.booting hr
    have hle : cpu.rsp ≤ h.limit boot m := hsp (huser.not.mpr hu)
    rw [History.limit, hr] at hle
    exact ⟨hcur, huser.not.mpr hu, hle, hboot⟩
  · obtain ⟨hu, t, ht, hcur, hrsp0, hwin, husr, -⟩ := hi.running u hr
    rw [History.limit, hr] at hsp
    exact ⟨hu, t, ht, hcur, hrsp0, fun hne => ⟨huser.not.mpr (hwin hne).1, (hwin hne).2⟩,
      fun hc => husr (huser.mp hc), hsp⟩

/-- The next thread becomes the current one. -/
theorem Inv.schedule {next : ℕ} (hi : Inv boot m h) (ha : h.Allowed boot m (.schedule next)) :
    Inv boot (m.step (.schedule next)) h := by
  obtain ⟨huser, hnext, v, hv, hsaved⟩ := ha
  unfold Machine.step
  dsimp only
  split
  · exact hi
  · refine ⟨hi.chain, hi.apart, hi.waiting, hi.first, fun hr => ?_, fun u hr => ?_⟩
    · rw [hr] at hv
      cases hv
    · obtain rfl : v = u := Option.some.inj (hv.symm.trans hr)
      obtain ⟨hu, t, ht, -, -, -, -, hsp⟩ := hi.running v hr
      refine ⟨hu, next, hnext, rfl, rfl, fun _ => ⟨huser, ?_⟩, fun hc => absurd hc huser, hsp⟩
      rwa [h.frames_of_none (hi.not_first hr)]

/-- The boot code goes on as the thread that is activated. -/
theorem Inv.activate (hi : Inv boot m h) (ha : h.Allowed boot m (.activate t)) :
    Inv boot (m.step (.activate t)) (h.log boot m (.activate t)) := by
  obtain ⟨hr, ht⟩ := ha
  obtain ⟨hcur, huser, hsp, hboot⟩ := hi.booting hr
  have hother : ∀ u, u ≠ t → (h.log boot m (.activate t)).frames u = h.frames u := by
    intro u hu
    simp [History.frames, History.log, Function.update_of_ne hu]
  have hself : (h.log boot m (.activate t)).frames t = [] := by
    simp [History.frames, History.log]
  refine ⟨fun u hu => ?_, fun u hu v hv hne => ?_, fun u hu hne => ?_, fun u n hn => ?_,
    fun hc => ?_, fun u hru => ?_⟩
  · by_cases he : u = t
    · subst he
      rw [hself]
      trivial
    · rw [hother u he]
      simpa [History.log, Function.update_of_ne he, Machine.step, Machine.set_current_thread]
        using hi.chain u hu
  · by_cases hut : u = t
    · subst hut
      have hvu : v ≠ u := Ne.symm hne
      simpa [History.log, Function.update_of_ne hvu] using (hboot v hv)
    · by_cases hvt : v = t
      · subst hvt
        simpa [History.log, Function.update_of_ne hut] using (hboot u hu).symm
      · simpa [History.log, Function.update_of_ne hut, Function.update_of_ne hvt] using
          hi.apart u hu v hv hne
  · have hut : u ≠ t := by
      rintro rfl
      exact hne rfl
    rw [hother u hut]
    refine hi.waiting u hu ?_
    rw [hr]
    simp
  · have hut : u ≠ t := by
      rintro rfl
      simp [History.log] at hn
    have hn' : h.first u = some n := by simpa [History.log, Function.update_of_ne hut] using hn
    obtain ⟨hu, -, hcount⟩ := hi.first u n hn'
    exact ⟨hu, fun he => hut (Option.some.inj he).symm, hcount⟩
  · cases hc
  · obtain rfl : t = u := Option.some.inj hru
    refine ⟨ht, t, ht, rfl, rfl, fun hne => absurd rfl hne, fun hc => absurd hc huser, fun _ => ?_⟩
    rw [hself]
    simpa [top, History.log, Machine.step, Machine.set_current_thread] using hsp

/-- What is resumed of a thread is what was saved last. -/
theorem Inv.restored (hi : Inv boot m h) (ht : t ∈ h.created) (hf : h.frames t = f :: fs) :
    (m.restore_context t).cpu = f.resumed ∧
      ((m.restore_context t).threads t).native_context =
        m.mem (m.threads t).native_context := by
  have hc := hi.chain t ht
  rw [hf] at hc
  obtain ⟨⟨extra, hs⟩, -⟩ := hc
  refine ⟨hs.pop rfl, ?_⟩
  simp [Machine.restore_context, Machine.set_thread]

theorem resumed_user : f.resumed.User ↔ f.cpu.User := by
  unfold Saved.resumed
  split <;> rfl

theorem resumed_rsp : f.resumed.rsp = f.cpu.rsp := by
  unfold Saved.resumed
  split <;> rfl

theorem restore_threads (u : ℕ) : (m.restore_context t).threads u =
    { m.threads u with native_context :=
        if u = t then m.mem (m.threads t).native_context else (m.threads u).native_context } := by
  unfold Machine.restore_context Machine.set_thread
  by_cases hu : u = t
  · subst hu
    simp
  · simp [hu]

/-- The last context of the current thread is taken off, and the code runs on its stack. -/
theorem Inv.restore (hi : Inv boot m h) (ha : h.Allowed boot m .restore) :
    Inv boot (m.step .restore) (h.log boot m .restore) := by
  obtain ⟨huser, v, hv, hsaved⟩ := ha
  obtain ⟨-, t, ht, hcur, hrsp0, -, -, -⟩ := hi.running v hv
  have hframes_v : h.frames v ≠ [] := by rwa [h.frames_of_none (hi.not_first hv)]
  have hframes : ∀ u ∈ h.created, h.frames u ≠ [] := by
    intro u hu
    by_cases he : u = v
    · exact he ▸ hframes_v
    · refine hi.waiting u hu ?_
      rw [hv]
      exact fun h => he (Option.some.inj h).symm
  obtain ⟨f, fs, hf⟩ := List.exists_cons_of_ne_nil (hframes t ht)
  have hstep : m.step .restore = m.restore_context t := by
    simp [Machine.step, hcur]
  have hother : ∀ u, u ≠ t → (h.log boot m .restore).frames u = h.frames u := by
    intro u hu
    simp [History.frames, History.log, hcur, Function.update_of_ne hu]
  have hself : (h.log boot m .restore).frames t = fs := by
    have hlog : (h.log boot m .restore).frames t = (h.frames t).tail := by
      simp [History.frames, History.log, hcur]
    rw [hlog, hf]
    rfl
  have hlow : (h.log boot m .restore).low = h.low := by simp [History.log, hcur]
  have hhigh : (h.log boot m .restore).high = h.high := by simp [History.log, hcur]
  have hcreated : (h.log boot m .restore).created = h.created := by simp [History.log, hcur]
  have hrunning : (h.log boot m .restore).running = some t := by simp [History.log, hcur]
  have hc := hi.chain t ht
  rw [hf] at hc
  obtain ⟨-, -, -, hl, hrest⟩ := hc
  obtain ⟨hcpu, -⟩ := hi.restored ht hf
  rw [hstep]
  refine ⟨fun u hu => ?_, ?_, fun u hu hne => ?_, fun u n hn => ?_, fun hc => ?_, fun u hr => ?_⟩
  · rw [hcreated] at hu
    rw [restore_threads, hlow, hhigh]
    by_cases he : u = t
    · subst he
      rw [hself, if_pos rfl]
      exact hrest
    · rw [hother u he, if_neg he]
      exact hi.chain u hu
  · rw [hcreated, hlow, hhigh]
    exact hi.apart
  · rw [hcreated] at hu
    have he : u ≠ t := by
      rintro rfl
      exact hne hrunning
    rw [hother u he]
    exact hframes u hu
  · have he : u ≠ t := by
      rintro rfl
      simp [History.log, hcur] at hn
    have hn' : h.first u = some n := by
      simpa [History.log, hcur, Function.update_of_ne he] using hn
    obtain ⟨hu, -, hcount⟩ := hi.first u n hn'
    rw [hcreated, hrunning, restore_threads]
    exact ⟨hu, fun heq => he (Option.some.inj heq).symm, hcount⟩
  · rw [hrunning] at hc
    cases hc
  · obtain rfl : t = u := Option.some.inj (hrunning.symm.trans hr)
    rw [hcreated, hself, hhigh, restore_threads, if_pos rfl, hcpu, resumed_user, resumed_rsp]
    refine ⟨ht, t, ht, hcur, ?_, fun hne => absurd rfl hne, hl.user, hl.kernel⟩
    rw [restore_threads]
    exact hrsp0

/-! ## Contexts that are written -/

/-- The last context of a thread is written, and nothing else is changed that counts. -/
structure Rewrites (m m' : Machine) (h h' : History) (t : ℕ) : Prop where
  created : h'.created = h.created
  low : h'.low = h.low
  high : h'.high = h.high
  running : h'.running = h.running
  frames : ∀ u, u ≠ t → h'.frames u = h.frames u
  before : h.frames t ≠ []
  after : h'.frames t ≠ []
  cpu : m'.cpu = m.cpu
  rsp0 : m'.rsp0 = m.rsp0
  current_thread : m'.current_thread = m.current_thread
  ctx : m'.ctx = m.ctx
  kernel_stack : ∀ u, (m'.threads u).kernel_stack = (m.threads u).kernel_stack
  native_context : ∀ u, (m'.threads u).native_context = (m.threads u).native_context
  mem : ∀ a, a < h.low t ∨ h.high t ≤ a → m'.mem a = m.mem a

theorem Inv.rewrite (hi : Inv boot m h) (ht : t ∈ h.created) (hw : Rewrites m m' h h' t)
    (hchain : Chain m'.mem (m.threads t).kernel_stack (m.ctx t) (h.low t) (h.high t)
      (m.threads t).native_context (h'.frames t))
    (hfirst : ∀ u n, h'.first u = some n → u ∈ h.created ∧ h.running ≠ some u ∧
      (m'.threads u)._current_entry_argument = min 4 n.args.length) : Inv boot m' h' := by
  have htop : ∀ u, top (h'.high u) (m'.threads u).native_context (h'.frames u) =
      top (h.high u) (m.threads u).native_context (h.frames u) := by
    intro u
    rw [hw.high, hw.native_context]
    by_cases hu : u = t
    · subst hu
      unfold top
      rw [if_neg hw.before, if_neg hw.after]
    · rw [hw.frames u hu]
  have hempty : ∀ u, h'.frames u = [] ↔ h.frames u = [] := by
    intro u
    by_cases hu : u = t
    · subst hu
      exact iff_of_false hw.after hw.before
    · rw [hw.frames u hu]
  refine ⟨fun u hu => ?_, ?_, fun u hu hr => ?_, fun u n hn => ?_, fun hr => ?_, fun u hr => ?_⟩
  · rw [hw.created] at hu
    rw [hw.kernel_stack, hw.native_context, hw.ctx, hw.low, hw.high]
    by_cases he : u = t
    · subst he
      exact hchain
    · rw [hw.frames u he]
      refine (hi.chain u hu).frame fun a hlow _ hhigh => hw.mem a ?_
      have := hi.apart u hu t ht he
      omega
  · rw [hw.created, hw.low, hw.high]
    exact hi.apart
  · rw [hw.created] at hu
    rw [hw.running] at hr
    exact (hempty u).not.mpr (hi.waiting u hu hr)
  · rw [hw.created, hw.running]
    exact hfirst u n hn
  · rw [hw.running] at hr
    rw [hw.current_thread, hw.cpu, hw.created, hw.low, hw.high]
    exact hi.booting hr
  · rw [hw.running] at hr
    simp only [hw.current_thread, hw.cpu, hw.created, hw.rsp0, hw.kernel_stack, htop, hempty,
      ne_eq]
    rw [hw.high]
    exact hi.running u hr

theorem resumed_field (f : Saved) (value previous extra : ℕ) :
    ({ f with result := some value }.resumed.field previous extra : Field → ℕ) =
      Function.update (f.resumed.field previous extra) (.gpr .rax) value := by
  obtain ⟨c, irq, result⟩ := f
  funext g
  by_cases hg : g = .gpr .rax
  · subst hg
    simp [Saved.resumed, Cpu.field]
  · rw [Function.update_of_ne hg]
    cases g with
    | gpr r =>
      have hr : r ≠ .rax := fun he => hg (he ▸ rfl)
      cases result <;> simp [Saved.resumed, Cpu.field, Function.update_of_ne hr]
    | _ => cases result <;> rfl

/-- A field is set in the context at `p`. -/
theorem Stored.set {c c' : Cpu} {extra value : ℕ} {g : Field}
    (hs : Stored mem p (c.field (mem p) extra)) (hg : g ≠ .previous_context)
    (hc : ∀ previous, c'.field previous extra = Function.update (c.field previous extra) g value) :
    Stored (Function.update mem (p + X86Context.offset g) value) p
      (c'.field (Function.update mem (p + X86Context.offset g) value p) extra) := by
  have hne : p ≠ p + X86Context.offset g := by
    intro he
    have h0 : X86Context.offset .previous_context = X86Context.offset g := by
      show 0 = _
      omega
    exact hg (offset_inj h0).symm
  rw [Function.update_of_ne hne, hc]
  exact hs.update g

/-- The result of a system call is put into its context. -/
theorem Inv.user_syscall_return {value : ℕ} (hi : Inv boot m h)
    (ha : h.Allowed boot m (.user_syscall_return value)) :
    Inv boot (m.step (.user_syscall_return value))
      (h.log boot m (.user_syscall_return value)) := by
  obtain ⟨huser, t, f, fs, hrun, hcur, hsaved, hirq⟩ := ha
  have hnone := hi.not_first hrun
  have hf : h.frames t = f :: fs := (h.frames_of_none hnone).trans hsaved
  obtain ⟨ht, -⟩ := hi.running t hrun
  have hc := hi.chain t ht
  rw [hf] at hc
  obtain ⟨⟨extra, hs⟩, hlow, hnext, hl, -⟩ := hc
  obtain ⟨hfu, hctx⟩ := hl.syscall hirq
  obtain ⟨rfl, hhigh⟩ := hl.user hfu
  have hoffset := offset_lt (.gpr .rax)
  rw [top, if_pos rfl] at hnext
  have hstep : m.step (.user_syscall_return value) = m.user_syscall_return value t := by
    simp [Machine.step, hcur]
  have hself : (h.log boot m (.user_syscall_return value)).frames t =
      [{ f with result := some value }] := by
    simp [History.frames, History.log, hcur, hnone, hsaved]
  have hfirst : (h.log boot m (.user_syscall_return value)).first = h.first := by
    simp [History.log, hcur]
  refine hi.rewrite ht ⟨?_, ?_, ?_, ?_, fun u hu => ?_, ?_, ?_, ?_, ?_, ?_, ?_, fun u => ?_,
    fun u => ?_, fun a ha => ?_⟩ ?_ fun u n hn => ?_
  · simp [History.log, hcur]
  · simp [History.log, hcur]
  · simp [History.log, hcur]
  · simp [History.log, hcur]
  · simp [History.frames, History.log, hcur, Function.update_of_ne hu]
  · simp [hf]
  · simp [hself]
  all_goals rw [hstep]
  any_goals rfl
  · refine Function.update_of_ne ?_ _ _
    rw [hctx]
    omega
  · rw [hself]
    show Chain (Function.update m.mem (m.ctx t + X86Context.offset (.gpr .rax)) value) _ _ _ _ _ _
    rw [hctx]
    refine ⟨⟨extra, hs.set (by simp) fun previous => ?_⟩, hlow, hnext, ⟨?_, ?_, ?_, ?_⟩, trivial⟩
    · exact resumed_field f value previous extra
    · exact fun _ => ⟨rfl, hhigh⟩
    · exact fun hk => absurd hfu hk
    · exact fun _ => ⟨hfu, rfl⟩
    · exact fun _ => hirq
  · rw [hfirst] at hn
    exact hi.first u n hn

/-- What a new thread starts with is changed. -/
structure Adjusts (m m' : Machine) (t : ℕ) (n n' : First) : Prop where
  cpu : m'.cpu = m.cpu
  rsp0 : m'.rsp0 = m.rsp0
  current_thread : m'.current_thread = m.current_thread
  ctx : m'.ctx = m.ctx
  threads : ∀ u, (m'.threads u).kernel_stack = (m.threads u).kernel_stack ∧
    (m'.threads u).native_context = (m.threads u).native_context
  counts : ∀ u, u ≠ t → m'.threads u = m.threads u
  count : (m'.threads t)._current_entry_argument = min 4 n'.args.length
  mem : ∀ a, a < (m.threads t).native_context ∨ (m.threads t).native_context + 176 ≤ a →
    m'.mem a = m.mem a
  stored : ∀ extra,
    Stored m.mem (m.threads t).native_context
      (n.cpu.field (m.mem (m.threads t).native_context) extra) →
    Stored m'.mem (m.threads t).native_context
      (n'.cpu.field (m'.mem (m.threads t).native_context) extra)
  user : n'.cpu.User ↔ n.cpu.User
  rsp : ¬ n.cpu.User → n'.cpu.rsp = n.cpu.rsp

theorem Inv.adjust {n n' : First} (hi : Inv boot m h) (hn : h.first t = some n)
    (ha : Adjusts m m' t n n') :
    Inv boot m' { h with first := Function.update h.first t (some n') } := by
  obtain ⟨ht, hrun, hcount⟩ := hi.first t n hn
  have hf := h.frames_of_some hn
  have hc := hi.chain t ht
  rw [hf] at hc
  obtain ⟨⟨extra, hs⟩, hlow, hnext, hl, -⟩ := hc
  have hself : ({ h with first := Function.update h.first t (some n') } : History).frames t =
      [⟨n'.cpu, none, none⟩] := by
    simp [History.frames]
  rw [top, if_pos rfl] at hnext
  refine hi.rewrite ht ⟨rfl, rfl, rfl, rfl, fun u hu => ?_, ?_, ?_, ha.cpu, ha.rsp0,
    ha.current_thread, ha.ctx, fun u => (ha.threads u).1, fun u => (ha.threads u).2,
    fun a hout => ha.mem a (by omega)⟩ ?_ fun u k hk => ?_
  · simp [History.frames, Function.update_of_ne hu]
  · simp [hf]
  · simp [hself]
  · rw [hself]
    refine ⟨⟨extra, ha.stored extra hs⟩, hlow, ?_, ⟨fun hu => ?_, fun hk => ?_, ?_, ?_⟩, trivial⟩
    · rwa [top, if_pos rfl]
    · exact ⟨rfl, (hl.user (ha.user.mp hu)).2⟩
    · have hk' : ¬ n.cpu.User := ha.user.not.mp hk
      have hle := hl.kernel hk'
      show n'.cpu.rsp ≤ _
      rw [ha.rsp hk']
      exact hle
    · simp
    · simp
  · by_cases hu : u = t
    · subst hu
      have hk' : n' = k := by simpa using hk
      subst hk'
      exact ⟨ht, hrun, ha.count⟩
    · rw [ha.counts u hu]
      exact hi.first u k (by simpa [Function.update_of_ne hu] using hk)

/-- A field of the first context of a thread is set. -/
theorem adjusts_field {n n' : First} {g : Field} {value : ℕ} {th : Thread}
    (hg : g ≠ .previous_context)
    (hfield : ∀ previous extra,
      n'.cpu.field previous extra = Function.update (n.cpu.field previous extra) g value)
    (hstack : th.kernel_stack = (m.threads t).kernel_stack)
    (hnative : th.native_context = (m.threads t).native_context)
    (hcount : th._current_entry_argument = min 4 n'.args.length)
    (huser : n'.cpu.User ↔ n.cpu.User) (hrsp : ¬ n.cpu.User → n'.cpu.rsp = n.cpu.rsp) :
    Adjusts m ((m.set_field t g value).set_thread t th) t n n' := by
  refine ⟨rfl, rfl, rfl, rfl, fun u => ?_, fun u hu => ?_, ?_, fun a ha => ?_, fun extra hs => ?_,
    huser, hrsp⟩
  · by_cases hu : u = t
    · subst hu
      simp [Machine.set_thread, hstack, hnative]
    · simp [Machine.set_thread, Machine.set_field, Function.update_of_ne hu]
  · simp [Machine.set_thread, Machine.set_field, Function.update_of_ne hu]
  · simp [Machine.set_thread, hcount]
  · have := offset_lt g
    refine Function.update_of_ne ?_ _ _
    omega
  · exact hs.set hg fun previous => hfield previous extra

/-- The next argument goes into its register. -/
theorem adjusts_register {n : First} {r : Reg} {arg : ℕ}
    (hm : m.add_entry_argument t arg = (m.set_field t (.gpr r) arg).set_thread t
      { m.threads t with _current_entry_argument := (m.threads t)._current_entry_argument + 1 })
    (hcount : (m.threads t)._current_entry_argument + 1 = min 4 (n.args.length + 1))
    (hgpr : ∀ r', { n with args := n.args ++ [arg] }.cpu.gpr r' =
      Function.update n.cpu.gpr r arg r') :
    Adjusts m (m.add_entry_argument t arg) t n { n with args := n.args ++ [arg] } := by
  rw [hm]
  refine adjusts_field (by simp) (fun previous extra => funext fun g => ?_) rfl rfl ?_ Iff.rfl
    fun _ => rfl
  · by_cases hg : g = .gpr r
    · subst hg
      rw [Function.update_self]
      exact (hgpr r).trans (Function.update_self _ _ _)
    · rw [Function.update_of_ne hg]
      cases g with
      | gpr r' =>
        have hr : r' ≠ r := fun he => hg (he ▸ rfl)
        exact (hgpr r').trans (Function.update_of_ne hr _ _)
      | _ => rfl
  · rw [List.length_append]
    exact hcount

theorem adjusts_argument {n : First} {arg : ℕ}
    (hcount : (m.threads t)._current_entry_argument = min 4 n.args.length) :
    Adjusts m (m.add_entry_argument t arg) t n { n with args := n.args ++ [arg] } := by
  obtain ⟨kernel, entry, args, sp⟩ := n
  rcases args with _ | ⟨a₁, _ | ⟨a₂, _ | ⟨a₃, _ | ⟨a₄, rest⟩⟩⟩⟩
  · refine adjusts_register (r := .rdi) ?_ ?_ fun r => ?_
    · simp [Machine.add_entry_argument, hcount]
    · simp [hcount]
    · cases r <;> rfl
  · refine adjusts_register (r := .rsi) ?_ ?_ fun r => ?_
    · simp [Machine.add_entry_argument, hcount]
    · simp [hcount]
    · cases r <;> rfl
  · refine adjusts_register (r := .rdx) ?_ ?_ fun r => ?_
    · simp [Machine.add_entry_argument, hcount]
    · simp [hcount]
    · cases r <;> rfl
  · refine adjusts_register (r := .rcx) ?_ ?_ fun r => ?_
    · simp [Machine.add_entry_argument, hcount]
    · simp [hcount]
    · cases r <;> rfl
  · have hfour : (m.threads t)._current_entry_argument = 4 := by
      rw [hcount]
      simp
    have hm : m.add_entry_argument t arg = m := by
      simp [Machine.add_entry_argument, hfour]
    rw [hm]
    refine ⟨rfl, rfl, rfl, rfl, fun _ => ⟨rfl, rfl⟩, fun _ _ => rfl, ?_, fun _ _ => rfl,
      fun extra hs => hs, Iff.rfl, fun _ => rfl⟩
    rw [hfour]
    simp

theorem Inv.add_entry_argument {arg : ℕ} (hi : Inv boot m h)
    (ha : h.Allowed boot m (.add_entry_argument t arg)) :
    Inv boot (m.step (.add_entry_argument t arg)) (h.log boot m (.add_entry_argument t arg)) := by
  obtain ⟨-, hsome⟩ := ha
  obtain ⟨n, hn⟩ := Option.isSome_iff_exists.mp hsome
  obtain ⟨-, -, hcount⟩ := hi.first t n hn
  simp only [History.log, hn]
  exact hi.adjust hn (adjusts_argument hcount)

theorem Inv.allocate_user_stack {vaddr size : ℕ} (hi : Inv boot m h)
    (ha : h.Allowed boot m (.allocate_user_stack t vaddr size)) :
    Inv boot (m.step (.allocate_user_stack t vaddr size))
      (h.log boot m (.allocate_user_stack t vaddr size)) := by
  obtain ⟨-, n, hn, huser⟩ := ha
  obtain ⟨-, -, hcount⟩ := hi.first t n hn
  have hu : n.cpu.User := by
    simp [First.cpu, Cpu.User, huser]
  have hset : m.step (.allocate_user_stack t vaddr size) =
      (m.set_field t .rsp (vaddr + size)).set_thread t (m.threads t) := by
    simp [Machine.step, Machine.allocate_user_stack, Machine.set_thread, Machine.set_field]
  simp only [History.log, hn]
  rw [hset]
  refine hi.adjust hn (adjusts_field (by simp) (fun previous extra => funext fun g => ?_) rfl rfl
    hcount Iff.rfl fun hk => absurd hu hk)
  by_cases hg : g = .rsp
  · subst hg
    rfl
  · rw [Function.update_of_ne hg]
    cases g with
    | rsp => exact absurd rfl hg
    | _ => rfl

/-! ## New threads -/

/-- The words of `prepare_initial_stack` are those of a context. -/
theorem create_stored (m : Machine) (t : ℕ) (k : Bool) (entry base : ℕ) :
    ((m.create_thread t k entry base).threads t) = ⟨k, entry, 0, base + 8016, base + 8192⟩ ∧
      (∃ extra, Stored (m.create_thread t k entry base).mem (base + 8016)
        ((First.cpu ⟨k, entry, [], base + 8192⟩).field
          ((m.create_thread t k entry base).mem (base + 8016)) extra)) ∧
      ∀ a, a < base ∨ base + 8192 ≤ a → (m.create_thread t k entry base).mem a = m.mem a := by
  let th : Thread := ⟨k, entry, 0, 0, base + 8192⟩
  let ws := [if k then 0x10 else 0x23, 0, 0x202, if k then 0x8 else 0x1b, entry, 0,
    0, 0, 0, 0, 0, 0, 0, 0, 0, 0, 0, 0, 0, 0, 0, 0]
  have hlen : ws.length = 22 := rfl
  have hsp : (push_all ws ⟨base + 8192, m.mem⟩).sp = base + 8016 := by
    rw [push_all_sp, hlen]
    dsimp only
    omega
  have hm : m.create_thread t k entry base =
      ({ m with mem := (push_all ws ⟨base + 8192, m.mem⟩).mem }.set_thread t
        { th with native_context := base + 8016 }).set_field t .rsp (base + 8192) := by
    rw [← hsp]
    simp [Machine.create_thread, Machine.prepare_initial_stack, Machine.set_thread,
      Machine.set_field, th, ws]
  have hmem : (m.create_thread t k entry base).mem = Function.update
      (push_all ws ⟨base + 8192, m.mem⟩).mem (base + 8016 + X86Context.offset .rsp)
      (base + 8192) := by
    rw [hm]
    simp [Machine.set_field, Machine.set_thread]
  have hws : ws.reverse = X86Context.map ((First.cpu ⟨k, entry, [], 0⟩).field 0 0) := by
    cases k <;> rfl
  have hstored := stored_push_all (s := ⟨base + 8192, m.mem⟩) hws (by simp)
  have hbase : base + 8192 - 176 = base + 8016 := by omega
  dsimp only at hstored
  rw [hbase] at hstored
  have hzero : (push_all ws ⟨base + 8192, m.mem⟩).mem (base + 8016) = 0 :=
    hstored .previous_context
  refine ⟨?_, ⟨0, ?_⟩, fun a ha => ?_⟩
  · rw [hm]
    simp [Machine.set_field, Machine.set_thread, th]
  · rw [hmem]
    refine Stored.set (c := First.cpu ⟨k, entry, [], 0⟩) ?_ (by simp)
      fun previous => funext fun g => ?_
    · rw [hzero]
      exact hstored
    · by_cases hg : g = .rsp
      · subst hg
        rfl
      · rw [Function.update_of_ne hg]
        cases g with
        | rsp => exact absurd rfl hg
        | _ => rfl
  · have hoffset := offset_lt .rsp
    rw [hmem, Function.update_of_ne (by omega)]
    refine push_all_above ?_ ?_
    · rw [hlen]
      dsimp only
      omega
    · rw [hlen]
      dsimp only
      omega

theorem create_frame (m : Machine) (t : ℕ) (k : Bool) (entry base : ℕ) :
    (m.create_thread t k entry base).cpu = m.cpu ∧
      (m.create_thread t k entry base).rsp0 = m.rsp0 ∧
      (m.create_thread t k entry base).current_thread = m.current_thread ∧
      (m.create_thread t k entry base).ctx = m.ctx ∧
      ∀ u, u ≠ t → (m.create_thread t k entry base).threads u = m.threads u := by
  refine ⟨rfl, rfl, rfl, rfl, fun u hu => ?_⟩
  simp [Machine.create_thread, Machine.prepare_initial_stack, Machine.set_thread,
    Machine.set_field, Function.update_of_ne hu]

theorem Inv.create_thread {k : Bool} {entry base : ℕ} (hi : Inv boot m h)
    (ha : h.Allowed boot m (.create_thread t k entry base)) :
    Inv boot (m.step (.create_thread t k entry base))
      (h.log boot m (.create_thread t k entry base)) := by
  obtain ⟨huser, hnew, hboot, hapart⟩ := ha
  obtain ⟨hth, ⟨extra, hstored⟩, hmem⟩ := create_stored m t k entry base
  obtain ⟨hcpu, hrsp0, hcur, hctx, hthreads⟩ := create_frame m t k entry base
  have hold : ∀ u ∈ h.created, u ≠ t := fun u hu he => hnew (he ▸ hu)
  have hother : ∀ u, u ≠ t →
      (h.log boot m (.create_thread t k entry base)).frames u = h.frames u := by
    intro u hu
    simp [History.frames, History.log, Function.update_of_ne hu]
  have hself : (h.log boot m (.create_thread t k entry base)).frames t =
      [⟨First.cpu ⟨k, entry, [], base + 8192⟩, none, none⟩] := by
    simp [History.frames, History.log]
  have hlow : ∀ u, u ≠ t → (h.log boot m (.create_thread t k entry base)).low u = h.low u :=
    fun u hu => Function.update_of_ne hu _ _
  have hhigh : ∀ u, u ≠ t → (h.log boot m (.create_thread t k entry base)).high u = h.high u :=
    fun u hu => Function.update_of_ne hu _ _
  have hlow_t : (h.log boot m (.create_thread t k entry base)).low t = base :=
    Function.update_self _ _ _
  have hhigh_t : (h.log boot m (.create_thread t k entry base)).high t = base + 8192 :=
    Function.update_self _ _ _
  refine ⟨fun u hu => ?_, fun u hu v hv hne => ?_, fun u hu hr => ?_, fun u n hn => ?_,
    fun hr => ?_, fun u hr => ?_⟩
  · rcases List.mem_cons.mp hu with rfl | hu
    · rw [hself, hlow_t, hhigh_t]
      show Chain (m.create_thread u k entry base).mem _ _ _ _ _ _
      simp only [Machine.step, hth]
      refine ⟨⟨extra, hstored⟩, by omega, ?_, ⟨fun _ => ⟨rfl, rfl⟩, fun _ => ?_, ?_, ?_⟩, trivial⟩
      · rw [top, if_pos rfl]
      · exact le_rfl
      · simp
      · simp
    · have hu' := hold u hu
      rw [hother u hu', hlow u hu', hhigh u hu']
      simp only [Machine.step, hthreads u hu', hctx]
      refine (hi.chain u hu).frame fun a hla _ hha => hmem a ?_
      have := hapart u hu
      omega
  · rcases List.mem_cons.mp hu with hut | hold_u
    · rcases List.mem_cons.mp hv with hvt | hold_v
      · exact absurd (hut.trans hvt.symm) hne
      · have hv' := hold v hold_v
        rw [hut, hlow_t, hhigh_t, hlow v hv', hhigh v hv']
        exact hapart v hold_v
    · have hu' := hold u hold_u
      have hapart_u := hapart u hold_u
      rcases List.mem_cons.mp hv with hvt | hold_v
      · rw [hvt, hlow_t, hhigh_t, hlow u hu', hhigh u hu']
        exact hapart_u.symm
      · have hv' := hold v hold_v
        rw [hlow u hu', hhigh u hu', hlow v hv', hhigh v hv']
        exact hi.apart u hold_u v hold_v hne
  · rcases List.mem_cons.mp hu with rfl | hu
    · simp [hself]
    · rw [hother u (hold u hu)]
      exact hi.waiting u hu hr
  · by_cases he : u = t
    · subst he
      have hn' : ⟨k, entry, [], base + 8192⟩ = n := by simpa [History.log] using hn
      subst hn'
      refine ⟨List.mem_cons_self, fun hr => hnew (hi.running u hr).1, ?_⟩
      simp [Machine.step, hth]
    · obtain ⟨hu, hr, hcount⟩ := hi.first u n (by
        simpa [History.log, Function.update_of_ne he] using hn)
      refine ⟨List.mem_cons_of_mem _ hu, hr, ?_⟩
      simpa [Machine.step, hthreads u he] using hcount
  · obtain ⟨hcur', huser', hsp, hbt⟩ := hi.booting hr
    refine ⟨hcur', huser', hsp, fun u hu => ?_⟩
    rcases List.mem_cons.mp hu with rfl | hu
    · rw [hlow_t, hhigh_t]
      exact hboot.symm
    · rw [hlow u (hold u hu), hhigh u (hold u hu)]
      exact hbt u hu
  · obtain ⟨hu, v, hv, hcur', hrsp0', hwin, husr, hsp⟩ := hi.running u hr
    have hu' := hold u hu
    refine ⟨List.mem_cons_of_mem _ hu, v, List.mem_cons_of_mem _ hv, hcur', ?_, ?_⟩
    · simpa [Machine.step, hthreads v (hold v hv), hrsp0] using hrsp0'
    · rw [hother u hu', hhigh u hu']
      simp only [Machine.step, hthreads u hu', hcpu]
      exact ⟨hwin, husr, hsp⟩

/-! ## Traps -/

/-- A context with the registers is put on top of the stack, which begins at `sp`. -/
structure Traps (m m' : Machine) (t nr sp : ℕ) : Prop where
  stored : ∃ extra, Stored m'.mem (sp - 176) (m.cpu.field (m'.mem (sp - 176)) extra)
  previous : m'.mem (sp - 176) = (m.threads t).native_context
  mem : ∀ a, a < sp - 176 ∨ sp ≤ a → m'.mem a = m.mem a
  thread : m'.threads t = { m.threads t with native_context := sp - 176 }
  threads : ∀ u, u ≠ t → m'.threads u = m.threads u
  cpu : ¬ m'.cpu.User ∧ m'.cpu.rsp = sp - 176
  ctx : m'.ctx = if nr = IRQ_USER_SYSCALL then Function.update m.ctx t (sp - 176) else m.ctx
  rsp0 : m'.rsp0 = m.rsp0
  current_thread : m'.current_thread = m.current_thread

theorem defirq_traps {nr error_code sp : ℕ}
    (hsp : (if m.cpu.User then m.rsp0 else m.cpu.rsp) / 16 * 16 = sp) (hroom : 176 ≤ sp) :
    Traps m (m.defirq nr error_code t) t nr sp := by
  let ws := ([m.cpu.ss, m.cpu.rsp, m.cpu.rflags, m.cpu.cs, m.cpu.rip] ++
      (if Machine.has_arg nr then [error_code] else [])) ++
    ((if Machine.has_arg nr then [] else [0]) ++
      [m.cpu.gpr .rax, m.cpu.gpr .rbx, m.cpu.gpr .rcx, m.cpu.gpr .rdx, m.cpu.gpr .rsi,
        m.cpu.gpr .rdi, m.cpu.gpr .rbp, m.cpu.gpr .r8, m.cpu.gpr .r9, m.cpu.gpr .r10,
        m.cpu.gpr .r11, m.cpu.gpr .r12, m.cpu.gpr .r13, m.cpu.gpr .r14, m.cpu.gpr .r15] ++
      [(m.threads t).native_context])
  let extra := if Machine.has_arg nr then error_code else 0
  have hws : ws.reverse = X86Context.map
      (m.cpu.field (m.threads t).native_context extra) := by
    unfold ws extra
    cases Machine.has_arg nr <;> rfl
  have hlen : ws.length = 22 := by
    rw [← List.length_reverse, hws, List.length_map]
    rfl
  have hpush : push_all ws ⟨sp, m.mem⟩ = push_all _ (push_all _ ⟨sp, m.mem⟩) :=
    push_all_append _ _
  have hmem : (m.defirq nr error_code t).mem = (push_all ws ⟨sp, m.mem⟩).mem := by
    rw [hpush, ← hsp]
    rfl
  have hp : (push_all ws ⟨sp, m.mem⟩).sp = sp - 176 := by
    rw [push_all_sp, hlen]
  have hstack : ((m.defirq nr error_code t).cpu.rsp) = sp - 176 := by
    rw [← hp, hpush, ← hsp]
    rfl
  have hnative : (m.defirq nr error_code t).threads =
      Function.update m.threads t { m.threads t with native_context := sp - 176 } := by
    rw [← hp, hpush, ← hsp]
    rfl
  have hstored := stored_push_all (s := ⟨sp, m.mem⟩) hws hroom
  have hoffset : X86Context.offset .previous_context = 0 := rfl
  dsimp only at hstored
  have hprevious : (push_all ws ⟨sp, m.mem⟩).mem (sp - 176) = (m.threads t).native_context := by
    have h₀ := hstored .previous_context
    rw [hoffset, Nat.add_zero] at h₀
    exact h₀
  refine ⟨⟨extra, ?_⟩, ?_, fun a ha => ?_, ?_, fun u hu => ?_, ⟨?_, hstack⟩, ?_, rfl, rfl⟩
  · rw [hmem, hprevious]
    exact hstored
  · rw [hmem, hprevious]
  · rw [hmem]
    refine push_all_above ?_ ?_
    · rw [hlen]
      dsimp only
      omega
    · rw [hlen]
      dsimp only
      omega
  · rw [hnative, Function.update_self]
  · rw [hnative, Function.update_of_ne hu]
  · simp [Machine.defirq, Machine.save_context, Machine.interrupt, Machine.set_thread, Cpu.User]
  · have hctx : (m.defirq nr error_code t).ctx = if nr = IRQ_USER_SYSCALL then
        Function.update m.ctx t ((m.defirq nr error_code t).threads t).native_context
        else m.ctx := rfl
    rw [hctx, hnative, Function.update_self]

/-- The thread that runs has one more context. -/
def History.push (h : History) (t : ℕ) (f : Saved) : History :=
  { h with saved := Function.update h.saved t (f :: h.saved t) }

theorem History.frames_push (hn : h.first t = none) : (h.push t f).frames t = f :: h.frames t := by
  simp [frames, push, hn]

theorem History.frames_push_of_ne (hu : u ≠ t) : (h.push t f).frames u = h.frames u := by
  simp [frames, push, Function.update_of_ne hu]

/-- The code that runs is below the contexts of its stack: the stack of a user is empty, and the code
of the kernel is below what is saved. -/
theorem Inv.running_le (hi : Inv boot m h) (hrun : h.running = some t)
    (hcur : m.current_thread = some t) : (if m.cpu.User then m.rsp0 else m.cpu.rsp) ≤
      top (h.high t) (m.threads t).native_context (h.frames t) := by
  obtain ⟨-, v, -, hv, hrsp0, -, huser, hkernel⟩ := hi.running t hrun
  obtain rfl : t = v := Option.some.inj (hcur.symm.trans hv)
  split
  next hu =>
    obtain ⟨hempty, hhigh⟩ := huser hu
    rw [top, if_pos hempty, hrsp0, hhigh]
  next hk => exact hkernel hk

/-- The new context is the first of the chain of the thread that runs. -/
theorem Traps.chain {nr sp : ℕ} (htraps : Traps m m' t nr sp) (hi : Inv boot m h)
    (hrun : h.running = some t) (hcur : m.current_thread = some t) (hsize : 176 ≤ sp)
    (hlow : h.low t ≤ sp - 176)
    (hhigh : sp ≤ top (h.high t) (m.threads t).native_context (h.frames t))
    (hsys : nr = IRQ_USER_SYSCALL → m.cpu.User) :
    Chain m'.mem (m.threads t).kernel_stack (m'.ctx t) (h.low t) (h.high t) (sp - 176)
      (⟨m.cpu, some nr, none⟩ :: h.frames t) := by
  obtain ⟨ht, v, -, hv, -, -, huser, hkernel⟩ := hi.running t hrun
  obtain rfl : t = v := Option.some.inj (hcur.symm.trans hv)
  refine ⟨htraps.stored, hlow, ?_, ⟨fun hu => huser hu, fun hk => ?_, fun hirq => ?_, ?_⟩, ?_⟩
  · rw [htraps.previous]
    omega
  · rw [htraps.previous]
    exact hkernel hk
  · obtain rfl : nr = IRQ_USER_SYSCALL := Option.some.inj hirq
    refine ⟨hsys rfl, ?_⟩
    rw [htraps.ctx, if_pos rfl, Function.update_self]
  · simp
  · rw [htraps.previous]
    by_cases hsyscall : nr = IRQ_USER_SYSCALL
    · rw [(huser (hsys hsyscall)).1]
      trivial
    · rw [htraps.ctx, if_neg hsyscall]
      exact (hi.chain t ht).frame fun a _ hta _ => htraps.mem a (by omega)

/-- The contexts of the other threads are on other stacks. -/
theorem Traps.chain_other {nr sp : ℕ} (htraps : Traps m m' t nr sp) (hi : Inv boot m h)
    (ht : t ∈ h.created) (hu : u ∈ h.created) (hut : u ≠ t)
    (hlow : h.low t ≤ sp - 176) (hhigh : sp ≤ h.high t) :
    Chain m'.mem (m'.threads u).kernel_stack (m'.ctx u) (h.low u) (h.high u)
      (m'.threads u).native_context (h.frames u) := by
  have hctx : m'.ctx u = m.ctx u := by
    rw [htraps.ctx]
    split
    · exact Function.update_of_ne hut _ _
    · rfl
  rw [htraps.threads u hut, hctx]
  refine (hi.chain u hu).frame fun a hla _ hha => htraps.mem a ?_
  have := hi.apart u hu t ht hut
  omega

theorem Inv.trapped {nr sp : ℕ} (hi : Inv boot m h) (htraps : Traps m m' t nr sp)
    (hrun : h.running = some t) (hcur : m.current_thread = some t) (hsize : 176 ≤ sp)
    (hlow : h.low t ≤ sp - 176)
    (hhigh : sp ≤ top (h.high t) (m.threads t).native_context (h.frames t))
    (hsys : nr = IRQ_USER_SYSCALL → m.cpu.User) :
    Inv boot m' (h.push t ⟨m.cpu, some nr, none⟩) := by
  obtain ⟨ht, v, -, hv, hrsp0, -⟩ := hi.running t hrun
  obtain rfl : t = v := Option.some.inj (hcur.symm.trans hv)
  have hself := History.frames_push (f := ⟨m.cpu, some nr, none⟩) (hi.not_first hrun)
  refine ⟨fun u hu => ?_, hi.apart, fun u hu hr => ?_, fun u n hn => ?_, fun hr => ?_,
    fun u hr => ?_⟩
  · by_cases hut : u = t
    · subst hut
      rw [hself, htraps.thread]
      exact htraps.chain hi hrun hcur hsize hlow hhigh hsys
    · rw [History.frames_push_of_ne hut]
      exact htraps.chain_other hi ht hu hut hlow (hhigh.trans (hi.chain t ht).top_le)
  · have hut : u ≠ t := by
      rintro rfl
      exact hr hrun
    rw [History.frames_push_of_ne hut]
    exact hi.waiting u hu hr
  · obtain ⟨hu, hr, hcount⟩ := hi.first u n hn
    have hut : u ≠ t := by
      rintro rfl
      exact hr hrun
    rw [htraps.threads u hut]
    exact ⟨hu, hr, hcount⟩
  · exact absurd (hr.symm.trans hrun) (by simp)
  · obtain rfl : t = u := Option.some.inj (hrun.symm.trans hr)
    rw [hself, htraps.thread, top_cons]
    refine ⟨ht, t, ht, htraps.current_thread.trans hcur, ?_, fun hne => absurd rfl hne,
      fun hu => absurd hu htraps.cpu.1, fun _ => htraps.cpu.2.le⟩
    rw [htraps.rsp0, htraps.thread]
    exact hrsp0

/-- A trap saves the registers, below the contexts that are on its stack already. -/
theorem Inv.trap {nr error_code : ℕ} (hi : Inv boot m h)
    (ha : h.Allowed boot m (.trap nr error_code)) :
    Inv boot (m.step (.trap nr error_code)) (h.log boot m (.trap nr error_code)) := by
  obtain ⟨t, hrun, hcur, hroom, hsys⟩ := ha
  have htop := hi.running_le hrun hcur
  have hstep : m.step (.trap nr error_code) = m.defirq nr error_code t := by
    simp [Machine.step, hcur]
  have hlog : h.log boot m (.trap nr error_code) = h.push t ⟨m.cpu, some nr, none⟩ := by
    simp [History.log, History.push, hcur]
  rw [hstep, hlog]
  exact hi.trapped (defirq_traps rfl (by omega)) hrun hcur (by omega) (by omega) (by omega) hsys

/-! ## Whole runs -/

theorem Inv.step {e : Event} (hi : Inv boot m h) (ha : h.Allowed boot m e) :
    Inv boot (m.step e) (h.log boot m e) := by
  cases e with
  | run cpu mem => exact hi.run ha
  | trap nr error_code => exact hi.trap ha
  | user_syscall_return value => exact hi.user_syscall_return ha
  | schedule next => exact hi.schedule ha
  | restore => exact hi.restore ha
  | create_thread t k entry base => exact hi.create_thread ha
  | add_entry_argument t arg => exact hi.add_entry_argument ha
  | allocate_user_stack t vaddr size => exact hi.allocate_user_stack ha
  | activate t => exact hi.activate ha

theorem Inv.reachable (hr : (system boot).Reachable (m, h)) : Inv boot m h := by
  refine System.Reachable.preserves (I := fun s => Inv boot s.1 s.2) hr ?_ ?_
  · rintro ⟨m, h⟩ h0
    exact Inv.start h0
  · rintro ⟨m, h⟩ e s hi ha hs
    cases hs
    exact hi.step ha

theorem Saved.resumed_eq (hr : f.result ≠ none → f.irq = some IRQ_USER_SYSCALL) :
    f.resumed = f.cpu ∨ f.irq = some IRQ_USER_SYSCALL ∧
      ∃ value, f.resumed = { f.cpu with gpr := Function.update f.cpu.gpr .rax value } := by
  unfold Saved.resumed
  cases hf : f.result with
  | none => exact .inl rfl
  | some value => exact .inr ⟨hr (by simp [hf]), value, rfl⟩

/-- A thread that becomes the current one goes on where it was interrupted last. Only the result
of a system call is new to it. When it is new itself, it goes on as it was created. -/
theorem traps_resumed (hr : (system boot).Reachable (m, h)) (ha : h.Allowed boot m .restore) :
    ∃ t f fs, m.current_thread = some t ∧ h.frames t = f :: fs ∧
      (h.log boot m .restore).frames t = fs ∧ (m.step .restore).cpu = f.resumed ∧
      (f.resumed = f.cpu ∨ f.irq = some IRQ_USER_SYSCALL ∧
        ∃ value, f.resumed = { f.cpu with gpr := Function.update f.cpu.gpr .rax value }) ∧
      ∀ n, h.first t = some n → (m.step .restore).cpu = n.cpu := by
  have hi := Inv.reachable hr
  obtain ⟨huser, v, hv, hsaved⟩ := ha
  obtain ⟨-, t, ht, hcur, -, hwin, -, -⟩ := hi.running v hv
  have hne : h.frames t ≠ [] := by
    by_cases he : t = v
    · subst he
      rwa [h.frames_of_none (hi.not_first hv)]
    · refine hi.waiting t ht ?_
      rw [hv]
      exact fun h => he (Option.some.inj h).symm
  obtain ⟨f, fs, hf⟩ := List.exists_cons_of_ne_nil hne
  have hc := hi.chain t ht
  rw [hf] at hc
  obtain ⟨-, -, -, hl, -⟩ := hc
  have hstep : m.step .restore = m.restore_context t := by
    simp [Machine.step, hcur]
  have hcpu : (m.step .restore).cpu = f.resumed := by
    rw [hstep]
    exact (hi.restored ht hf).1
  refine ⟨t, f, fs, hcur, hf, ?_, hcpu, Saved.resumed_eq hl.result, fun n hn => ?_⟩
  · have hlog : (h.log boot m .restore).frames t = (h.frames t).tail := by
      simp [History.frames, History.log, hcur]
    rw [hlog, hf]
    rfl
  · rw [h.frames_of_some hn] at hf
    obtain ⟨rfl, -⟩ := List.cons.inj hf
    exact hcpu

/-! ## The first run of a user -/

/-- The stack of the boot code is from 0x1000 to 0x2000. -/
def booted : Machine where
  cpu := ⟨fun _ => 0, 0, 8, 2, 0x2000, 0⟩
  mem _ := 0
  rsp0 := 0
  threads _ := ⟨false, 0, 0, 0, 0⟩
  current_thread := none
  ctx _ := 0

def after (es : List Event) : Machine × History :=
  es.foldl (fun s e => (s.1.step e, s.2.log (0x1000, 0x2000) s.1 e)) (booted, History.start)

theorem after_concat {es : List Event} {e : Event}
    (hr : (system (0x1000, 0x2000)).Reachable (after es))
    (ha : (after es).2.Allowed (0x1000, 0x2000) (after es).1 e) :
    (system (0x1000, 0x2000)).Reachable (after (es ++ [e])) := by
  refine hr.step (c := e) ha ?_
  unfold after
  rw [List.foldl_append]
  rfl

/-- A timer interrupt makes a thread the current one that is new. -/
def first_turn : List Event :=
  [.create_thread 0 true 0x200000 0x10000] ++ [.activate 0] ++
    [.create_thread 1 false 0x400000 0x20000] ++ [.allocate_user_stack 1 0x100000 0x2000] ++
    [.trap 32 0] ++ [.schedule 1]

theorem first_turn_reachable : (system (0x1000, 0x2000)).Reachable (after first_turn) := by
  have h0 : (system (0x1000, 0x2000)).Reachable (after []) :=
    .of_start ⟨rfl, rfl, by decide, by decide⟩
  have h1 := after_concat (e := .create_thread 0 true 0x200000 0x10000) h0 (by
    refine ⟨by decide, by decide, by decide, by decide⟩)
  have h2 := after_concat (e := .activate 0) h1 ⟨rfl, by decide⟩
  have h3 := after_concat (e := .create_thread 1 false 0x400000 0x20000) h2 (by
    refine ⟨by decide, by decide, by decide, by decide⟩)
  have h4 := after_concat (e := .allocate_user_stack 1 0x100000 0x2000) h3
    ⟨by decide, _, rfl, rfl⟩
  have h5 := after_concat (e := .trap 32 0) h4 ⟨0, rfl, rfl, by decide, by decide⟩
  have h6 := after_concat (e := .schedule 1) h5 ⟨by decide, by decide, 0, rfl, by decide⟩
  exact h6

theorem first_turn_restore :
    (after first_turn).2.Allowed (0x1000, 0x2000) (after first_turn).1 .restore :=
  ⟨by decide, 0, rfl, by decide⟩

/-- It starts as a user, on the stack of the user. -/
theorem traps_resumed_first : ((after first_turn).1.step .restore).cpu =
    First.cpu ⟨false, 0x400000, [], 0x102000⟩ := by
  obtain ⟨t, -, -, hcur, -, -, -, -, hn⟩ :=
    traps_resumed first_turn_reachable first_turn_restore
  obtain rfl : 1 = t := Option.some.inj hcur
  exact hn _ rfl

/-- A system call gives 7 back, and the thread that is activated first has never started. -/
theorem not_as_saved :
    (¬ ∀ boot m h, (system boot).Reachable (m, h) → h.Allowed boot m .restore →
      ∃ t f fs, m.current_thread = some t ∧ h.frames t = f :: fs ∧
        (m.step .restore).cpu = f.cpu) ∧
    ∃ boot s₀ m h, (system boot).start s₀ ∧ (system boot).Run s₀
        [.create_thread 0 true 0x200000 0x10000, .activate 0, .trap 32 0] (m, h) ∧
      h.Allowed boot m .restore ∧ m.current_thread = some 0 ∧
      (m.step .restore).cpu.rip ≠ 0x200000 := by
  constructor
  · intro hall
    have h1 := after_concat (e := .restore) first_turn_reachable first_turn_restore
    have h2 := after_concat (e := .trap 0x81 0) h1 ⟨1, rfl, rfl, by decide, by decide⟩
    have h3 := after_concat (e := .user_syscall_return 7) h2
      ⟨by decide, 1, _, [], rfl, rfl, rfl, rfl⟩
    obtain ⟨t, f, fs, hcur, hf, hcpu⟩ := hall _ _ _ h3 ⟨by decide, 1, rfl, by decide⟩
    obtain rfl : 1 = t := Option.some.inj hcur
    obtain ⟨rfl, -⟩ := List.cons.inj hf
    have hrax := congrArg (fun c => c.gpr .rax) hcpu
    revert hrax
    decide
  · refine ⟨(0x1000, 0x2000), (booted, History.start), _, _, ⟨rfl, rfl, by decide, by decide⟩,
      .cons ⟨by decide, by decide, by decide, by decide⟩ rfl
        (.cons ⟨rfl, by decide⟩ rfl (.cons ⟨0, rfl, rfl, by decide, by decide⟩ rfl (.nil _))),
      ⟨by decide, 0, rfl, by decide⟩, rfl, by decide⟩

end Infos.Arch
