import TenProf.Library.Runs
import TenProf.TorchMonitor.Profiler
import Mathlib.Data.List.Count

/-!
# The nesting level of an op

`init_callback_data` decides twice for each op whether to count it: the EXIT takes one off the
thread's counter before it looks at the scope, the ENTER adds one after it. The two decisions agree
because every scope that `register_domain` registers is one that `aten_scope_match` reports, and
`start_profiling` does not register an empty set of scopes, for which ATen would run the callbacks
of all ops. So the counter of a thread is the number of its open reported ops, as a 32-bit word
(`nestedLevel_of_run`). At a depth of `2^32` it is `0` again (`nestedLevel_not_exact`).
-/

namespace TenProf.Profiler

/-- The number of reported ops among open ones. -/
def reportedOps (ops : List OpenOp) : ℕ := ops.countP fun op => op.report.isSome

/-- The number of reported ops that are open on a thread. -/
def Monitor.enclosing (m : Monitor) (t : ℕ) : ℕ := reportedOps (m.threads t).ops

/-- The levels in a state: what the next callbacks report, and the counters. -/
structure LevelsRight (m : Monitor) : Prop where
  /-- An ENTER reports the number of enclosing reported ops. -/
  enter : ∀ t fn d, m.report (.enter t fn) = some d → d.nested_level = u32 (m.enclosing t)
  /-- An EXIT reports the level that the matching ENTER reported, or nothing if that did not. -/
  exit : ∀ t op ops, (m.threads t).ops = op :: ops →
    (m.report (.exit t)).map CallbackData.nested_level =
      op.report.map CallbackData.nested_level
  /-- The counter of a thread is the number of its open reported ops. -/
  counter : ∀ t, (m.threads t).nested_level = u32 (m.enclosing t)
  /-- Only with a reported op open does an EXIT take one off the counter. -/
  positive : ∀ t op ops, (m.threads t).ops = op :: ops →
    m.aten.runs m.registered op.fn.scope = true → 0 < m.enclosing t
  /-- When all ops of a thread have ended, its counter is as it was at the start. -/
  idle : ∀ t, (m.threads t).ops = [] → (m.threads t).nested_level = 0

/-- The scopes of a profiler are scopes that are reported. -/
def ScopesReported (scopes : Finset RecordScope) : Prop :=
  ∀ scope ∈ scopes, atenScopeMatch scope ≠ .COUNT

/-- The invariant of a process whose profiler has been started. -/
structure Counted (m : Monitor) : Prop where
  /-- Some scope is registered. -/
  nonempty : m.registered.scopes.Nonempty
  /-- The registered scopes are reported. -/
  scopes : ScopesReported m.registered.scopes
  /-- The reported ops are those with a registered scope. -/
  reported : ∀ t, ∀ op ∈ (m.threads t).ops,
    op.report.isSome = true ↔ op.fn.scope ∈ m.registered.scopes
  /-- An open op was reported with the number of the reported ops outside it. -/
  levels : ∀ t inner op outer d, (m.threads t).ops = inner ++ op :: outer → op.report = some d →
    d.nested_level = u32 (reportedOps outer)
  /-- The counter of a thread is the number of its open reported ops. -/
  counter : ∀ t, (m.threads t).nested_level = u32 (m.enclosing t)

section Callback

variable (p : TorchProfiler) {fn : RecordFunction} (t level : ℕ)

/-- An ENTER of a scope that is reported reports the level and adds one to it. -/
theorem initCallbackData_enter (h : atenScopeMatch fn.scope ≠ .COUNT) :
    ∃ d, initCallbackData p .ENTER fn t level = (some d, u32 (level + 1)) ∧
      d.nested_level = level := by
  simp only [initCallbackData, if_neg h, reduceCtorEq, if_false]
  split_ifs <;> exact ⟨_, rfl, rfl⟩

/-- An EXIT of a scope that is reported takes one off the level and reports it. -/
theorem initCallbackData_exit (h : atenScopeMatch fn.scope ≠ .COUNT) :
    ∃ d, initCallbackData p .EXIT fn t level = (some d, subU32 level 1) ∧
      d.nested_level = subU32 level 1 := by
  simp only [initCallbackData, if_neg h, if_true]
  split_ifs <;> exact ⟨_, rfl, rfl⟩

end Callback

section Settings

/-- A domain that is enabled leaves only scopes that are reported. -/
theorem scopesReported_registerDomain {p : TorchProfiler} (h : ScopesReported p.scopes)
    (domain : Domain) : ScopesReported (registerDomain p domain).2.scopes := by
  unfold registerDomain
  split_ifs with hmem
  · exact h
  · dsimp only
    split_ifs with hnone
    · exact h
    · -- The scope of a domain that has one is reported.
      intro scope hscope
      rcases Finset.mem_insert.1 hscope with rfl | hscope
      · cases domain <;> simp_all [torchMonitorDomainMatch, atenScopeMatch]
      · exact h scope hscope

/-- Whatever is set, the scopes are reported. -/
theorem scopesReported_apply {p : TorchProfiler} (h : ScopesReported p.scopes) (e : Setting) :
    ScopesReported (p.apply e).scopes := by
  cases e with
  | subscribe func =>
    simp only [TorchProfiler.apply, torchMonitorCallbackSubscribe]
    split <;> exact h
  | enable domain =>
    have hreg := scopesReported_registerDomain h domain
    simp only [TorchProfiler.apply, torchMonitorDomainEnable]
    split_ifs
    · split <;> rename_i heq <;> rwa [heq] at hreg
    · exact h
  | inputsCapture val => exact h
  | outputsCapture val => exact h
  | finalize => simp [TorchProfiler.apply, torchMonitorFinalize, ScopesReported]
  | threadFinalize popped =>
    simp only [TorchProfiler.apply, torchMonitorThreadFinalize]
    split_ifs <;> exact h

/-- After any settings the scopes are reported. -/
theorem scopesReported_settings (es : List Setting) :
    ScopesReported (es.foldl TorchProfiler.apply initial).scopes := by
  have hfold : ∀ p : TorchProfiler, ScopesReported p.scopes →
      ScopesReported (es.foldl TorchProfiler.apply p).scopes := by
    induction es with
    | nil => exact fun p h => h
    | cons e es ih => exact fun p h => ih _ (scopesReported_apply h e)
  exact hfold initial (by simp [initial, ScopesReported])

/-- A start registers the scopes, if there is one. -/
theorem startProfiling_eq_some {aten : Aten} {p q : TorchProfiler} {cb : RecordFunctionCallback}
    (h : startProfiling aten p = some (q, cb)) :
    p.scopes ≠ ∅ ∧ cb = ⟨p.inputs_capture_enable, p.outputs_capture_enable, p.scopes⟩ := by
  unfold startProfiling at h
  by_cases hnone : p.callback = none ∨ p.scopes = ∅
  · rw [if_pos hnone] at h
    exact absurd h (by simp)
  · rw [if_neg hnone] at h
    dsimp only at h
    split at h
    · simp only [Option.some.injEq, Prod.mk.injEq] at h
      exact ⟨fun he => hnone (Or.inr he), h.2.symm⟩
    · exact absurd h (by simp)

/-- A profiler that starts meets the invariant. -/
theorem counted_start {aten : Aten} {p : TorchProfiler} {m : Monitor} (h : ScopesReported p.scopes)
    (hstart : Monitor.start aten p = some m) : Counted m := by
  obtain ⟨⟨q, cb⟩, hq, rfl⟩ := Option.map_eq_some_iff.1 hstart
  obtain ⟨hnone, rfl⟩ := startProfiling_eq_some hq
  exact
    { nonempty := Finset.nonempty_iff_ne_empty.2 fun he => hnone he
      scopes := h
      reported := by simp
      levels := by simp
      counter := fun t => rfl }

end Settings

section Step

variable {m m' : Monitor}

/-- ATen runs the callbacks for the ops with a registered scope. -/
theorem Counted.runs_iff (h : Counted m) (scope : RecordScope) :
    m.aten.runs m.registered scope = true ↔ scope ∈ m.registered.scopes :=
  m.aten.runs_iff m.registered h.nonempty scope

/-- What an ENTER reports. -/
theorem Counted.report_enter (h : Counted m) (t : ℕ) (fn : RecordFunction) :
    (fn.scope ∈ m.registered.scopes → ∃ d, m.report (.enter t fn) = some d ∧
      d.nested_level = u32 (m.enclosing t)) ∧
    (fn.scope ∉ m.registered.scopes → m.report (.enter t fn) = none) := by
  have hruns := h.runs_iff fn.scope
  unfold Monitor.report
  dsimp only
  constructor
  · intro hscope
    obtain ⟨d, hd, hlevel⟩ := initCallbackData_enter m.profiler t (m.threads t).nested_level
      (h.scopes _ hscope)
    rw [if_pos (hruns.2 hscope), hd]
    exact ⟨d, rfl, hlevel.trans (h.counter t)⟩
  · intro hscope
    rw [if_neg (mt hruns.1 hscope)]

/-- An ENTER reports the op exactly when its scope is registered. -/
theorem Counted.report_enter_isSome (h : Counted m) (t : ℕ) (fn : RecordFunction) :
    (m.report (.enter t fn)).isSome = true ↔ fn.scope ∈ m.registered.scopes := by
  obtain ⟨hin, hout⟩ := h.report_enter t fn
  constructor
  · intro hsome
    by_contra hscope
    rw [hout hscope] at hsome
    exact absurd hsome (by simp)
  · intro hscope
    obtain ⟨d, hd, -⟩ := hin hscope
    rw [hd]
    rfl

/-- The counter after a callback at the begin of an op. -/
theorem Counted.level_enter (h : Counted m) (t : ℕ) (fn : RecordFunction) :
    (m.afterCallback .ENTER fn t).nested_level =
      u32 (reportedOps (⟨fn, m.report (.enter t fn)⟩ :: (m.threads t).ops)) := by
  have hcount := h.report_enter_isSome t fn
  have hruns := h.runs_iff fn.scope
  unfold Monitor.afterCallback reportedOps
  rw [List.countP_cons]
  dsimp only
  by_cases hscope : fn.scope ∈ m.registered.scopes
  · -- The op is counted by the counter and among the open ops.
    obtain ⟨d, hd, -⟩ := initCallbackData_enter m.profiler t (m.threads t).nested_level
      (h.scopes _ hscope)
    rw [h.counter t, u32_u32_add_one] at hd
    rw [if_pos (hruns.2 hscope), if_pos (hcount.2 hscope)]
    split_ifs <;> simp only [h.counter t, hd] <;> rfl
  · rw [if_neg (mt hruns.1 hscope), if_neg (mt hcount.1 hscope)]
    exact h.counter t

/-- The counter after a callback at the end of an op. -/
theorem Counted.level_exit (h : Counted m) {t : ℕ} {op : OpenOp} {ops : List OpenOp}
    (hops : (m.threads t).ops = op :: ops) :
    (m.afterCallback .EXIT op.fn t).nested_level = u32 (reportedOps ops) := by
  have hcount := h.reported t op (by rw [hops]; exact List.mem_cons_self)
  have hlevel := h.counter t
  unfold Monitor.enclosing reportedOps at hlevel
  rw [hops, List.countP_cons] at hlevel
  have hruns := h.runs_iff op.fn.scope
  unfold Monitor.afterCallback
  dsimp only
  by_cases hscope : op.fn.scope ∈ m.registered.scopes
  · obtain ⟨d, hd, -⟩ := initCallbackData_exit m.profiler t (m.threads t).nested_level
      (h.scopes _ hscope)
    rw [if_pos (hcount.2 hscope)] at hlevel
    rw [hlevel, subU32_u32_succ] at hd
    rw [if_pos (hruns.2 hscope), if_neg (by simp)]
    simp only [hlevel, hd]
    rfl
  · rw [if_neg (mt hcount.1 hscope)] at hlevel
    rw [if_neg (mt hruns.1 hscope)]
    exact hlevel

/-- An event changes the state of its own thread only. -/
theorem Counted.update (h : Counted m) {t : ℕ} {th : Thread}
    (hreported : ∀ op ∈ th.ops, op.report.isSome = true ↔ op.fn.scope ∈ m.registered.scopes)
    (hlevels : ∀ inner op outer d, th.ops = inner ++ op :: outer → op.report = some d →
      d.nested_level = u32 (reportedOps outer))
    (hcounter : th.nested_level = u32 (reportedOps th.ops)) :
    Counted { m with threads := Function.update m.threads t th } where
  nonempty := h.nonempty
  scopes := h.scopes
  reported t' := by
    rcases eq_or_ne t' t with rfl | hne
    · simpa using hreported
    · simpa [hne] using h.reported t'
  levels t' := by
    rcases eq_or_ne t' t with rfl | hne
    · simpa using hlevels
    · simpa [hne] using h.levels t'
  counter t' := by
    rcases eq_or_ne t' t with rfl | hne
    · simpa [Monitor.enclosing] using hcounter
    · simpa [Monitor.enclosing, hne] using h.counter t'

/-- An event keeps the invariant. -/
theorem Counted.step {e : Event} (h : Counted m) (hstep : m.step e = some m') : Counted m' := by
  cases e with
  | enter t fn =>
    cases hstep
    refine h.update ?_ ?_ (h.level_enter t fn)
    · intro op hop
      rcases List.mem_cons.1 hop with rfl | hop
      · exact h.report_enter_isSome t fn
      · exact h.reported t op hop
    · -- The op that begins has all open ops outside it.
      intro inner op outer d hsplit hd
      rcases List.cons_eq_append_iff.1 hsplit with ⟨rfl, heq⟩ | ⟨inner', rfl, heq⟩
      · obtain ⟨rfl, rfl⟩ := List.cons.inj heq
        by_cases hscope : fn.scope ∈ m.registered.scopes
        · obtain ⟨d', hd', hlevel⟩ := (h.report_enter t fn).1 hscope
          rw [hd'] at hd
          cases hd
          exact hlevel
        · rw [(h.report_enter t fn).2 hscope] at hd
          exact absurd hd (by simp)
      · exact h.levels t inner' op outer d heq hd
  | exit t =>
    unfold Monitor.step at hstep
    cases hops : (m.threads t).ops with
    | nil => simp [hops] at hstep
    | cons op ops =>
      simp only [hops, Option.some.injEq] at hstep
      subst hstep
      refine h.update ?_ ?_ (h.level_exit hops)
      · intro op' hop'
        exact h.reported t op' (by rw [hops]; exact List.mem_cons_of_mem _ hop')
      · intro inner op' outer d hsplit hd
        have hsplit' : ops = inner ++ op' :: outer := hsplit
        exact h.levels t (op :: inner) op' outer d (by rw [hops, hsplit']; rfl) hd

/-- In a state with the invariant the levels are right. -/
theorem Counted.levelsRight (h : Counted m) : LevelsRight m where
  enter t fn d hd := by
    by_cases hscope : fn.scope ∈ m.registered.scopes
    · obtain ⟨d', hd', hlevel⟩ := (h.report_enter t fn).1 hscope
      rw [hd'] at hd
      cases hd
      exact hlevel
    · rw [(h.report_enter t fn).2 hscope] at hd
      exact absurd hd (by simp)
  exit t op ops hops := by
    have hcount := h.reported t op (by rw [hops]; exact List.mem_cons_self)
    have hlevel := h.counter t
    unfold Monitor.enclosing reportedOps at hlevel
    rw [hops, List.countP_cons] at hlevel
    have hruns := h.runs_iff op.fn.scope
    unfold Monitor.report
    simp only [hops]
    by_cases hscope : op.fn.scope ∈ m.registered.scopes
    · -- The counter without this op is the number that its ENTER reported.
      obtain ⟨d, hd, hdl⟩ := initCallbackData_exit m.profiler t (m.threads t).nested_level
        (h.scopes _ hscope)
      obtain ⟨d₀, hd₀⟩ := Option.isSome_iff_exists.1 (hcount.2 hscope)
      rw [if_pos (hcount.2 hscope)] at hlevel
      rw [if_pos (hruns.2 hscope), hd, hd₀, Option.map_some, Option.map_some, hdl, hlevel,
        subU32_u32_succ, h.levels t [] op ops d₀ hops hd₀]
      rfl
    · have hnone : op.report = none := Option.not_isSome_iff_eq_none.1 (mt hcount.1 hscope)
      rw [if_neg (mt hruns.1 hscope), hnone]
  counter := h.counter
  positive t op ops hops hruns := by
    have hmem : op ∈ (m.threads t).ops := by rw [hops]; exact List.mem_cons_self
    exact List.countP_pos_iff.2 ⟨op, hmem, (h.reported t op hmem).2 ((h.runs_iff _).1 hruns)⟩
  idle t hops := by
    rw [h.counter t, Monitor.enclosing, hops]
    rfl

end Step

/-- Whatever is set before the start, in every run of properly nested ops on any threads the levels
are right in the state that is reached. -/
theorem nestedLevel_of_run (aten : Aten) (settings : List Setting) (es : List Event)
    {m m' : Monitor}
    (hstart : Monitor.start aten (settings.foldl TorchProfiler.apply initial) = some m)
    (hrun : run Monitor.step m es = some m') : LevelsRight m' :=
  (run_invariant' (fun _ _ _ => Counted.step)
    (counted_start (scopesReported_settings settings) hstart) hrun).levelsRight

/-- ATen as it runs the callbacks: for the scopes that are set, or for all ops if none is. -/
def Aten.standard : Aten where
  addGlobalCallback _ := 1
  runs cb scope := cb.scopes = ∅ ∨ scope ∈ cb.scopes
  runs_iff cb hcb scope := by simp [hcb.ne_empty]

/-- The settings of a tool that asks for the forward ops. -/
def forwardOnly : List Setting := [.subscribe (some 1), .enable .FUNCTION, .enable .USER_SCOPE]

/-- An op without tensors. -/
def plainOp (scope : RecordScope) : RecordFunction := ⟨[], scope, -1, 0, [], []⟩

/-- A forward op in a backward op, which is not reported, and an op on another thread. -/
theorem nestedLevel_forwardOnly : ∃ m m', Monitor.start .standard
      (forwardOnly.foldl TorchProfiler.apply initial) = some m ∧
    run Monitor.step m [.enter 0 (plainOp .BACKWARD_FUNCTION), .enter 0 (plainOp .FUNCTION),
      .enter 1 (plainOp .FUNCTION), .exit 0] = some m' ∧ LevelsRight m' := by
  obtain ⟨m, hm⟩ : ∃ m, Monitor.start .standard
      (forwardOnly.foldl TorchProfiler.apply initial) = some m := ⟨_, rfl⟩
  obtain ⟨m', hm'⟩ : ∃ m', run Monitor.step m [.enter 0 (plainOp .BACKWARD_FUNCTION),
      .enter 0 (plainOp .FUNCTION), .enter 1 (plainOp .FUNCTION), .exit 0] = some m' := by
    cases hm
    exact ⟨_, rfl⟩
  exact ⟨m, m', hm, hm', nestedLevel_of_run .standard forwardOnly _ hm hm'⟩

/-- Ops can be nested to any depth. -/
theorem exists_run_nested {m : Monitor} (h : Counted m) (t : ℕ) (fn : RecordFunction)
    (hscope : fn.scope ∈ m.registered.scopes) (n : ℕ) :
    ∃ m', run Monitor.step m (List.replicate n (.enter t fn)) = some m' ∧
      m'.registered = m.registered ∧ m'.enclosing t = m.enclosing t + n := by
  induction n generalizing m with
  | zero => exact ⟨m, rfl, rfl, rfl⟩
  | succ n ih =>
    obtain ⟨m₁, hm₁⟩ : ∃ m₁, m.step (.enter t fn) = some m₁ := ⟨_, rfl⟩
    have hone : m₁.registered = m.registered ∧ m₁.enclosing t = m.enclosing t + 1 := by
      cases hm₁
      refine ⟨rfl, ?_⟩
      simp [Monitor.enclosing, reportedOps, (h.report_enter_isSome t fn).2 hscope]
    obtain ⟨hreg, hcount⟩ := hone
    obtain ⟨m', hrun, hreg', hcount'⟩ := ih (h.step hm₁) (by rwa [hreg])
    refine ⟨m', ?_, hreg'.trans hreg, by omega⟩
    rw [List.replicate_succ, run_cons, hm₁]
    exact hrun

/-- Inside `2^32` nested ops the level that is reported is `0`. -/
theorem nestedLevel_not_exact : ¬∀ (aten : Aten) (settings : List Setting) (es : List Event)
    (m m' : Monitor),
    Monitor.start aten (settings.foldl TorchProfiler.apply initial) = some m →
    run Monitor.step m es = some m' →
    ∀ t fn d, m'.report (.enter t fn) = some d → d.nested_level = m'.enclosing t := by
  intro hall
  obtain ⟨m, hm⟩ : ∃ m, Monitor.start .standard
      (forwardOnly.foldl TorchProfiler.apply initial) = some m := ⟨_, rfl⟩
  have hcounted := counted_start (scopesReported_settings forwardOnly) hm
  have hfacts : RecordScope.FUNCTION ∈ m.registered.scopes ∧ m.enclosing 0 = 0 := by
    cases hm
    decide
  obtain ⟨m', hrun, hreg, hcount⟩ :=
    exists_run_nested hcounted 0 (plainOp .FUNCTION) hfacts.1 (2^32)
  have hcounted' := run_invariant' (fun _ _ _ => Counted.step) hcounted hrun
  obtain ⟨d, hd, hlevel⟩ :=
    (hcounted'.report_enter 0 (plainOp .FUNCTION)).1 (by rw [hreg]; exact hfacts.1)
  have hexact := hall .standard forwardOnly _ m m' hm hrun 0 (plainOp .FUNCTION) d hd
  rw [hlevel, hcount, hfacts.2] at hexact
  exact absurd hexact (by decide)

end TenProf.Profiler
