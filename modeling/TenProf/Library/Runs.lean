import Mathlib.Data.List.Induction
import Mathlib.Data.Option.Basic
import Mathlib.Tactic.Basic

/-!
# Runs of a partial step function

A system with state `σ` and events `ε` is a function `step : σ → ε → Option σ`; `none` stands for a
step that has no defined result. `run` performs a list of events. `AllSteps` says that every step
of a run meets a condition on the state it starts from, and `AllStates` that every state of the run
has a property. The two rules that the development uses are `run_invariant`, by which what holds at
the start and survives every step under the condition holds at the end, and
`allStates_iff_allSteps`, by which a condition that is exact for one step is exact for whole runs.
`runLog` collects what is observed on the way, and `runLog_invariant` is the rule for it.
-/

namespace TenProf

variable {σ ε : Type*}

/-- The state after a list of events, `none` when a step on the way has no result. -/
def run (step : σ → ε → Option σ) : σ → List ε → Option σ
  | s, [] => some s
  | s, e :: es => (step s e).bind fun s' => run step s' es

/-- Every step of the run from `s` meets the condition `C` on the state that it starts from. -/
def AllSteps (step : σ → ε → Option σ) (C : σ → ε → Prop) : σ → List ε → Prop
  | _, [] => True
  | s, e :: es => C s e ∧ ∀ s', step s e = some s' → AllSteps step C s' es

/-- Every state of the run from `s`, the first and the last included, has the property `P`. -/
def AllStates (step : σ → ε → Option σ) (P : σ → Prop) : σ → List ε → Prop
  | s, [] => P s
  | s, e :: es => P s ∧ ∀ s', step s e = some s' → AllStates step P s' es

/-- What is observed in a run, when `obs` is what is observed in a step, from the state that the
step starts from. -/
def runLog {ι : Type*} (step : σ → ε → Option σ) (obs : σ → ε → List ι) : σ → List ε → List ι
  | _, [] => []
  | s, e :: es => obs s e ++ ((step s e).map fun s' => runLog step obs s' es).getD []

variable {step : σ → ε → Option σ} {C : σ → ε → Prop} {P I : σ → Prop}

@[simp] theorem run_nil (s : σ) : run step s [] = some s := rfl

@[simp] theorem run_cons (s : σ) (e : ε) (es : List ε) :
    run step s (e :: es) = (step s e).bind fun s' => run step s' es := rfl

/-- A run of one event. -/
theorem run_singleton (s : σ) (e : ε) : run step s [e] = step s e := by
  rw [run_cons]
  exact Option.bind_fun_some (step s e)

/-- A run of two lists of events is the run of the first, then that of the second. -/
theorem run_append (s : σ) (es es' : List ε) :
    run step s (es ++ es') = (run step s es).bind fun s' => run step s' es' := by
  induction es generalizing s with
  | nil => rfl
  | cons e es ih =>
    calc run step s (e :: es ++ es')
        = (step s e).bind fun s₁ => run step s₁ (es ++ es') := run_cons s e (es ++ es')
      _ = (step s e).bind fun s₁ => (run step s₁ es).bind fun s' => run step s' es' := by
        simp only [ih]
      _ = (run step s (e :: es)).bind fun s' => run step s' es' := by
        rw [run_cons, Option.bind_assoc]

/-- The state before the last step of a run. -/
theorem run_append_singleton {s s' : σ} {es : List ε} {e : ε} :
    run step s (es ++ [e]) = some s' ↔ ∃ s₁, run step s es = some s₁ ∧ step s₁ e = some s' := by
  rw [run_append, Option.bind_eq_some_iff]
  refine exists_congr fun s₁ => and_congr_right fun _ => ?_
  rw [run_cons, Option.bind_eq_some_iff]
  exact ⟨fun ⟨s₂, h, hrun⟩ => h.trans hrun, fun h => ⟨s', h, rfl⟩⟩

/-- What holds at the start and survives every step under the condition holds at the end. -/
theorem run_invariant (hstep : ∀ s e s', I s → C s e → step s e = some s' → I s') {s s' : σ}
    {es : List ε} (h0 : I s) (hC : AllSteps step C s es) (hrun : run step s es = some s') :
    I s' := by
  -- By induction on the events: the rest of the run starts from a state with the invariant.
  induction es generalizing s with
  | nil =>
    cases hrun
    exact h0
  | cons e es ih =>
    obtain ⟨s₁, h₁, hrun⟩ := Option.bind_eq_some_iff.1 hrun
    exact ih (hstep s e s₁ h0 hC.1 h₁) (hC.2 s₁ h₁) hrun

/-- The condition that asks nothing holds of every step. -/
theorem allSteps_true (s : σ) (es : List ε) : AllSteps step (fun _ _ => True) s es := by
  induction es generalizing s with
  | nil => trivial
  | cons e es ih => exact ⟨trivial, fun s' _ => ih s'⟩

/-- What holds at the start and survives every step holds at the end of every run. -/
theorem run_invariant' (hstep : ∀ s e s', I s → step s e = some s' → I s') {s s' : σ}
    {es : List ε} (h0 : I s) (hrun : run step s es = some s') : I s' :=
  run_invariant (C := fun _ _ => True) (fun s e s' hI _ h => hstep s e s' hI h) h0
    (allSteps_true s es) hrun

/-- A condition that follows from another one. -/
theorem AllSteps.imp {D : σ → ε → Prop} (h : ∀ s e, C s e → D s e) {s : σ} {es : List ε}
    (hC : AllSteps step C s es) : AllSteps step D s es := by
  induction es generalizing s with
  | nil => trivial
  | cons e es ih => exact ⟨h s e hC.1, fun s' h' => ih (hC.2 s' h')⟩

/-- What ties a state to what has been observed so far, and survives every step with what is
observed in it, holds at the end of a run. -/
theorem runLog_invariant {ι : Type*} {obs : σ → ε → List ι} {J : σ → List ι → Prop}
    (hstep : ∀ s e s' log, J s log → step s e = some s' → J s' (log ++ obs s e)) {s s' : σ}
    {es : List ε} {log : List ι} (h0 : J s log) (hrun : run step s es = some s') :
    J s' (log ++ runLog step obs s es) := by
  induction es generalizing s log with
  | nil =>
    cases hrun
    rwa [runLog, List.append_nil]
  | cons e es ih =>
    obtain ⟨s₁, h₁, hrun⟩ := Option.bind_eq_some_iff.1 hrun
    have hrest := ih (hstep s e s₁ log h0 h₁) hrun
    rw [List.append_assoc] at hrest
    rwa [runLog, h₁, Option.map_some, Option.getD_some]

/-- What is observed in a run is observed in one of its steps. -/
theorem forall_mem_runLog {ι : Type*} {obs : σ → ε → List ι} {p : ι → Prop}
    (h : ∀ s e, ∀ x ∈ obs s e, p x) (s : σ) (es : List ε) : ∀ x ∈ runLog step obs s es, p x := by
  induction es generalizing s with
  | nil => simp [runLog]
  | cons e es ih =>
    rw [runLog]
    intro x hx
    rcases List.mem_append.1 hx with hx | hx
    · exact h s e x hx
    · cases h₁ : step s e with
      | none => simp [h₁] at hx
      | some s₁ =>
        rw [h₁, Option.map_some, Option.getD_some] at hx
        exact ih s₁ x hx

/-- When an invariant survives every step under a condition, and with the condition gives another
one, all steps of a run that meet the one meet the other. -/
theorem AllSteps.imp_of_invariant {D : σ → ε → Prop} (h : ∀ s e, I s → C s e → D s e)
    (hstep : ∀ s e s', I s → C s e → step s e = some s' → I s') {s : σ} {es : List ε} (h0 : I s)
    (hC : AllSteps step C s es) : AllSteps step D s es := by
  induction es generalizing s with
  | nil => trivial
  | cons e es ih =>
    exact ⟨h s e h0 hC.1, fun s' h' => ih (hstep s e s' h0 hC.1 h') (hC.2 s' h')⟩

/-- The last step of a run meets what all steps meet. -/
theorem AllSteps.last {s s' : σ} {es : List ε} {e : ε} (hC : AllSteps step C s (es ++ [e]))
    (hrun : run step s es = some s') : C s' e := by
  induction es generalizing s with
  | nil =>
    cases hrun
    exact hC.1
  | cons e' es ih =>
    obtain ⟨s₁, h₁, hrun⟩ := Option.bind_eq_some_iff.1 hrun
    exact ih (hC.2 s₁ h₁) hrun

/-- The first steps of a run meet what all steps meet. -/
theorem AllSteps.of_append {s : σ} {es es' : List ε} (hC : AllSteps step C s (es ++ es')) :
    AllSteps step C s es := by
  induction es generalizing s with
  | nil => trivial
  | cons e es ih => exact ⟨hC.1, fun s' h' => ih (hC.2 s' h')⟩

/-- A condition that can be decided can be decided for all steps of a run. -/
instance AllSteps.decidable [∀ s e, Decidable (C s e)] :
    (s : σ) → (es : List ε) → Decidable (AllSteps step C s es)
  | _, [] => isTrue trivial
  | s, e :: es =>
    match h : step s e with
    | none => decidable_of_iff (C s e) ⟨fun hC => ⟨hC, by simp [h]⟩, fun hC => hC.1⟩
    | some s' =>
      have := AllSteps.decidable s' es
      decidable_of_iff (C s e ∧ AllSteps step C s' es)
        ⟨fun hC => ⟨hC.1, by simpa [h] using hC.2⟩, fun hC => ⟨hC.1, hC.2 s' h⟩⟩

/-- A run is the fold of its steps. -/
theorem run_eq_foldlM (s : σ) (es : List ε) : run step s es = es.foldlM step s := by
  induction es generalizing s with
  | nil => rfl
  | cons e es ih =>
    rw [run_cons, List.foldlM_cons]
    exact congrArg _ (funext ih)

/-- The steps of a run whose first step has a result. -/
theorem allSteps_cons {s s' : σ} {e : ε} {es : List ε} (h : step s e = some s') :
    AllSteps step C s (e :: es) ↔ C s e ∧ AllSteps step C s' es :=
  and_congr_right fun _ => ⟨fun hall => hall s' h, fun hall s₁ h₁ => by
    rwa [← Option.some.inj (h.symm.trans h₁)]⟩

/-- The first state of a run is one of its states. -/
theorem AllStates.start {s : σ} {es : List ε} (h : AllStates step P s es) : P s := by
  cases es with
  | nil => exact h
  | cons e es => exact h.1

/-- The last state of a run is one of its states. -/
theorem AllStates.of_run {s s' : σ} {es : List ε} (h : AllStates step P s es)
    (hrun : run step s es = some s') : P s' := by
  induction es generalizing s with
  | nil =>
    cases hrun
    exact h
  | cons e es ih =>
    obtain ⟨s₁, h₁, hrun⟩ := Option.bind_eq_some_iff.1 hrun
    exact ih (h.2 s₁ h₁) hrun

/-- When an invariant survives every step under the condition and gives the property, every state
of a run whose steps meet the condition has the property. -/
theorem AllSteps.allStates (hstep : ∀ s e s', I s → C s e → step s e = some s' → I s')
    (hP : ∀ s, I s → P s) {s : σ} {es : List ε} (h0 : I s) (hC : AllSteps step C s es) :
    AllStates step P s es := by
  induction es generalizing s with
  | nil => exact hP s h0
  | cons e es ih =>
    exact ⟨hP s h0, fun s' h' => ih (hstep s e s' h0 hC.1 h') (hC.2 s' h')⟩

/-- When, from a state with the property, a step keeps the property exactly if it meets the
condition, and a step without a result meets it, every state of a run has the property exactly if
every step meets the condition. -/
theorem allStates_iff_allSteps (hinv : ∀ s e s', I s → step s e = some s' → I s')
    (hnone : ∀ s e, I s → P s → step s e = none → C s e)
    (hstep : ∀ s e s', I s → P s → step s e = some s' → (P s' ↔ C s e)) {s : σ} {es : List ε}
    (h0 : I s) (hP : P s) : AllStates step P s es ↔ AllSteps step C s es := by
  induction es generalizing s with
  | nil => exact ⟨fun _ => trivial, fun _ => hP⟩
  | cons e es ih =>
    constructor
    · -- The state after the step has the property, so the step met the condition.
      rintro ⟨-, hall⟩
      refine ⟨?_, fun s' h' => ?_⟩
      · cases h₁ : step s e with
        | none => exact hnone s e h0 hP h₁
        | some s₁ => exact (hstep s e s₁ h0 hP h₁).1 (hall s₁ h₁).start
      · exact (ih (hinv s e s' h0 h') (hall s' h').start).1 (hall s' h')
    · -- The step meets the condition, so the state after it has the property.
      rintro ⟨hC, hall⟩
      refine ⟨hP, fun s' h' => ?_⟩
      have hP' := (hstep s e s' h0 hP h').2 hC
      exact (ih (hinv s e s' h0 h') hP').2 (hall s' h')

/-- When two conditions agree at every step of a kind that starts from a state with the invariant,
and the invariant survives a step that meets them, all steps of a run of that kind meet the one
exactly if they meet the other. -/
theorem allSteps_iff {D N : σ → ε → Prop} (hiff : ∀ s e, I s → N s e → (C s e ↔ D s e))
    (hstep : ∀ s e s', I s → N s e → C s e → step s e = some s' → I s') {s : σ} {es : List ε}
    (h0 : I s) (hN : AllSteps step N s es) : AllSteps step C s es ↔ AllSteps step D s es := by
  induction es generalizing s with
  | nil => exact Iff.rfl
  | cons e es ih =>
    -- The two conditions agree at this step, and the invariant carries them to the rest.
    constructor
    · rintro ⟨hC, hall⟩
      refine ⟨(hiff s e h0 hN.1).1 hC, fun s' h' => ?_⟩
      exact (ih (hstep s e s' h0 hN.1 hC h') (hN.2 s' h')).1 (hall s' h')
    · rintro ⟨hD, hall⟩
      have hC := (hiff s e h0 hN.1).2 hD
      exact ⟨hC, fun s' h' => (ih (hstep s e s' h0 hN.1 hC h') (hN.2 s' h')).2 (hall s' h')⟩

/-- A split of a run at an event, when one more event has been performed: either the event is the
last one, or the split is one of the run before. -/
theorem split_append_singleton {es before later : List ε} {e e' : ε}
    (h : es ++ [e] = before ++ e' :: later) :
    (before = es ∧ e' = e ∧ later = []) ∨
      ∃ later', later = later' ++ [e] ∧ es = before ++ e' :: later' := by
  induction later using List.reverseRecOn with
  | nil =>
    obtain ⟨heq, he⟩ := List.append_inj' h rfl
    exact .inl ⟨heq.symm, (List.singleton_inj.1 he).symm, rfl⟩
  | append_singleton later' last _ =>
    rw [← List.cons_append, ← List.append_assoc] at h
    obtain ⟨heq, he⟩ := List.append_inj' h rfl
    exact .inr ⟨later', by rw [List.singleton_inj.1 he], heq⟩

end TenProf
