import TenProf.TorchView.History

/-!
# Whose inputs are cached

A kernel is attributed to the nodes in `_input_viewnode_forest_ptrs`, which should be those of the
inputs of the operation on top of `_op_stack`. An ENTER overwrites them and an EXIT leaves them, so
after an EXIT they are still those of the operation that was left. They are those of the top in
every state of a run exactly when every EXIT uncovers no operation or one that was entered with the
same nodes (`allCacheIsTop_iff`).
-/

namespace TenProf.TorchView

namespace History

/-- While an operation is on the stack, the pointers are the nodes of the inputs of the top. -/
def CacheIsTop (h : History) : Prop :=
  ∀ op ops, h.state.op_stack = op :: ops → ∃ p, h.stack.head? = some p ∧ p.op = op ∧
    ∀ i, h.state.input_viewnode_forest_ptrs.find? i = p.nodes[i]?

/-- An EXIT uncovers no operation, or one that was entered with the same nodes. -/
def UncoversSame (h : History) : ℕ × Event → Prop
  | (_, .exit _ _) => ∀ p q ps, h.stack = p :: q :: ps → q.nodes = p.nodes
  | _ => True

variable {env : Env} {h h' : History} {e : ℕ × Event}

/-- When the history agrees with the stack, the pointers have to agree with its first push. -/
theorem Consistent.cacheIsTop_iff (hc : Consistent h) : CacheIsTop h ↔
    ∀ p ps, h.stack = p :: ps →
      ∀ i, h.state.input_viewnode_forest_ptrs.find? i = p.nodes[i]? := by
  unfold CacheIsTop
  rw [hc.op_stack]
  cases h.stack with
  | nil => simp
  | cons p ps => simp

/-- From a state in which the pointers are those of the top, an event keeps them so exactly if it
is not an EXIT that uncovers an operation with other nodes. -/
theorem Consistent.cacheIsTop_step (hc : Consistent h) (htop : CacheIsTop h)
    (hstep : step env h e = some h') : CacheIsTop h' ↔ UncoversSame h e := by
  rw [(hc.after_step hstep).cacheIsTop_iff]
  rw [hc.cacheIsTop_iff] at htop
  obtain ⟨s', hs, rfl⟩ := Option.map_eq_some_iff.1 hstep
  obtain ⟨thread, e⟩ := e
  -- No event but those of an operation changes the pointers.
  have hkept : ¬e.IsOperation → ∀ p ps, h.stack = p :: ps →
      ∀ i, s'.input_viewnode_forest_ptrs.find? i = p.nodes[i]? := fun he p ps hstack => by
    rw [(context_step he hs).2.2]
    exact htop p ps hstack
  cases e with
  | enter op frames =>
    refine iff_of_true (fun p ps hstack => ?_) trivial
    rw [record, List.cons.injEq] at hstack
    rw [← hstack.1]
    exact (context_onEnter hs).2.2
  | exit op frames =>
    simp only [record, UncoversSame, (context_onExit hs).2.2.1]
    rcases hstack : h.stack with _ | ⟨p, _ | ⟨q, ps⟩⟩
    · simp
    · simp
    · -- The pointers are still those of the first push.
      have hfirst := htop p (q :: ps) hstack
      simp only [List.tail_cons, List.cons.injEq, hfirst]
      constructor
      · rintro hsecond _ _ _ ⟨rfl, rfl, rfl⟩
        exact List.ext_getElem? fun i => (hsecond q ps ⟨rfl, rfl⟩ i).symm
      · rintro hsame _ _ ⟨rfl, rfl⟩ i
        rw [hsame p q ps ⟨rfl, rfl, rfl⟩]
  | _ => exact iff_of_true (hkept id) trivial

/-- The pointers are those of the operation on top of the stack in every state of a run exactly
when every EXIT uncovers no operation or one that was entered with the same nodes. -/
theorem allCacheIsTop_iff (hinj : Function.Injective env.update_op_id_func) (ongpu : Bool)
    (es : List (ℕ × Event)) : AllStates (step env) CacheIsTop (start ongpu) es ↔
      AllSteps (step env) UncoversSame (start ongpu) es := by
  refine allStates_iff_allSteps (I := fun h => Consistent h ∧ Inv env h.state)
    (fun h e h' hI hstep => ⟨hI.1.after_step hstep, ?_⟩) (fun h e hI _ hnone => ?_)
    (fun h e h' hI htop hstep => hI.1.cacheIsTop_step htop hstep)
    ⟨consistent_start ongpu, inv_initial env ongpu⟩ (by simp [CacheIsTop, start, initial])
  · obtain ⟨s', hs, rfl⟩ := Option.map_eq_some_iff.1 hstep
    rw [record_state]
    exact hI.2.after_step hinj hs
  · obtain ⟨thread, e⟩ := e
    cases e with
    | exit op frames =>
      have hsome := hI.2.onExit_isSome hinj op frames
      have hexit : onExit env h.state op frames = none := Option.map_eq_none_iff.1 hnone
      rw [hexit] at hsome
      exact absurd hsome (by simp)
    | _ => trivial

/-- An operation inside one with the same input leaves the pointers as that one needs them. -/
theorem cacheIsTop_vectors : AllStates (step countingEnv) CacheIsTop (start false)
    [(0, .enter ⟨['a'], [vector 0 1000 2]⟩ []), (0, .enter ⟨['b'], [vector 0 1000 2]⟩ []),
      (0, .exit ⟨['b'], []⟩ [])] := by
  refine (allCacheIsTop_iff countingEnv_injective false _).2
    ⟨trivial, fun h₁ hs₁ => ⟨trivial, fun h₂ hs₂ => ⟨?_, fun _ _ => trivial⟩⟩⟩
  -- Both ENTERs got the node of the one vector.
  have hrun : run (step countingEnv) (start false) [(0, .enter ⟨['a'], [vector 0 1000 2]⟩ []),
      (0, .enter ⟨['b'], [vector 0 1000 2]⟩ [])] = some h₂ := by
    rw [run_cons, hs₁, Option.bind_some, run_cons, hs₂, Option.bind_some, run_nil]
  have hnodes : (run (step countingEnv) (start false) [(0, .enter ⟨['a'], [vector 0 1000 2]⟩ []),
      (0, .enter ⟨['b'], [vector 0 1000 2]⟩ [])]).map (fun h => h.stack.map Push.nodes) =
      some [[some 0], [some 0]] := by decide +kernel
  rw [hrun, Option.map_some, Option.some.injEq] at hnodes
  rintro p q ps hstack
  simp only [hstack, List.map_cons, List.cons.injEq] at hnodes
  rw [hnodes.1, hnodes.2.1]

/-- When the inner of two nested operations with different inputs is left, the pointers are still
those of its input. -/
theorem not_cacheIsTop_vectors : ¬∀ (env : Env) (ongpu : Bool) (es : List (ℕ × Event)),
    Function.Injective env.update_op_id_func → (∀ e ∈ es, e.1 = 0 ∧ e.2.IsOperation) →
    AllSteps (step env) Nested (start ongpu) es →
    AllStates (step env) CacheIsTop (start ongpu) es := by
  intro hall
  have hevents : ∀ e ∈ [((0 : ℕ), Event.enter ⟨['a'], [vector 0 1000 2]⟩ []),
      (0, .enter ⟨['b'], [vector 0 2000 2]⟩ []), (0, .exit ⟨['b'], []⟩ [])],
      e.1 = 0 ∧ e.2.IsOperation := by simp [Event.IsOperation]
  have hnested : AllSteps (step countingEnv) Nested (start false)
      [(0, .enter ⟨['a'], [vector 0 1000 2]⟩ []), (0, .enter ⟨['b'], [vector 0 2000 2]⟩ []),
        (0, .exit ⟨['b'], []⟩ [])] := by
    refine ⟨trivial, fun h₁ hs₁ => ⟨trivial, fun h₂ hs₂ => ⟨?_, fun _ _ => trivial⟩⟩⟩
    obtain ⟨s₂, -, rfl⟩ := Option.map_eq_some_iff.1 hs₂
    exact ⟨_, rfl, rfl⟩
  obtain ⟨h, hrun, hfacts⟩ := Option.map_eq_some_iff.1
    (show (run (step countingEnv) (start false)
        [(0, .enter ⟨['a'], [vector 0 1000 2]⟩ []), (0, .enter ⟨['b'], [vector 0 2000 2]⟩ []),
          (0, .exit ⟨['b'], []⟩ [])]).map
      (fun h => (h.state.op_stack, h.stack.map Push.nodes,
        h.state.input_viewnode_forest_ptrs.find? 0)) =
      some ([⟨['a'], [vector 0 1000 2]⟩], [[some 0]], some (some 1)) by decide +kernel)
  simp only [Prod.mk.injEq] at hfacts
  obtain ⟨hstack, hnodes, hcache⟩ := hfacts
  obtain ⟨p, hp, -, htop⟩ := ((hall countingEnv false _ countingEnv_injective hevents
    hnested).of_run hrun) _ _ hstack
  -- The pointer is that of the inner input, the node of the outer one is the first.
  have hpnodes : p.nodes = [some 0] := by
    have hhead := congrArg List.head? hnodes
    rw [List.head?_map, hp] at hhead
    exact Option.some.inj hhead
  have hfirst := htop 0
  rw [hcache, hpnodes] at hfirst
  exact absurd hfirst (by decide)

end History

end TenProf.TorchView
