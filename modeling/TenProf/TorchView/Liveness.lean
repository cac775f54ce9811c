import TenProf.TorchView.Context
import TenProf.TorchView.Free

/-!
# When cached pointers are live

`_input_viewnode_forest_ptrs` and `torchview_memory_snapshot` hold pointers to nodes. A FREE drops
the snapshot's entries in the interval that it deletes, and leaves the pointers to the inputs. So
all cached pointers are live in every state of a run exactly when no FREE of the run deletes a tree
that holds the node of a current input (`allCachesLive_iff`). While they are live, a lookup reads no
deleted node (`Inv.lookup_isSome`).
-/

namespace TenProf.TorchView

/-- A pointer to the node of a current input. -/
def IsInput (s : TorchView) (p : ℕ) : Prop :=
  some p ∈ s.input_viewnode_forest_ptrs.toList.map Prod.snd

/-- Every cached pointer is that of a live node. -/
structure CachesLive (s : TorchView) : Prop where
  inputs : ∀ p, IsInput s p → p ∈ s.live_nodes
  snapshot : ∀ e ∈ s.torchview_memory_snapshot.toList, e.2.2 ∈ s.live_nodes

/-- A FREE deletes no tree that holds the node of a current input. -/
def FreeSparesInputs (s : TorchView) : Event → Prop
  | .free mem => ∀ r ∈ reachedRoots (stopOf mem) (rootsFrom s mem.ptr), ∀ n ∈ r.nodes,
      ¬IsInput s n.ptr
  | _ => True

variable {env : Env} {s s' : TorchView}

/-- The snapshot holds nodes of current inputs, so its pointers are live if theirs are. -/
theorem Inv.cachesLive_iff (h : Inv env s) :
    CachesLive s ↔ ∀ p, IsInput s p → p ∈ s.live_nodes :=
  ⟨CachesLive.inputs, fun hlive => ⟨hlive, fun e he => hlive _ (h.snapshot e he)⟩⟩

/-- The node that an update returns is live. -/
theorem Inv.live_updateTensor (h : Inv env s) {frames : List PythonState} {t : TensorData}
    {q : ℕ} (hstep : updateTensor env frames s t = some (some q, s')) : q ∈ s'.live_nodes := by
  have hupdated := updated_of_updateViewForest hstep
  generalize hs₁ : ({ s with op_ids := s.op_ids + 1 } : TorchView) = s₁ at hupdated
  cases hupdated with
  | @found r n hroot hnode =>
    subst hs₁
    have hmem : n ∈ Tree.nodesOf s.roots :=
      Tree.mem_nodesOf.2 ⟨r, mem_of_findRootNodeOf hroot, (findNode_eq_some hnode).1⟩
    exact (h.live _).2 (List.mem_map_of_mem hmem)
  | view hroot hnode hop hfather hn => exact Finset.mem_insert_self _ _
  | root hroot hn => exact Finset.mem_insert_self _ _

/-- After an assignment the pointers are the assigned one and old ones. -/
theorem isInput_set {i : ℕ} {p : Option ℕ} {q : ℕ}
    (h : IsInput { s with
      input_viewnode_forest_ptrs := s.input_viewnode_forest_ptrs.set i p } q) :
    p = some q ∨ IsInput s q := by
  obtain ⟨e, he, hq⟩ := List.mem_map.1 h
  rcases (OrderedMap.mem_set _ _ _ _).1 he with rfl | ⟨he, -⟩
  · exact Or.inl hq
  · exact Or.inr (List.mem_map.2 ⟨e, he, hq⟩)

/-- One turn of the loop at ENTER keeps the pointers live. -/
theorem Inv.live_enterInput (h : Inv env s) {frames : List PythonState} {input : TensorData × ℕ}
    (hlive : ∀ p, IsInput s p → p ∈ s.live_nodes)
    (hstep : enterInput env frames s input = some s') :
    ∀ p, IsInput s' p → p ∈ s'.live_nodes := by
  unfold enterInput at hstep
  split_ifs at hstep
  · cases hstep
    intro q hq
    exact hlive q ((isInput_set hq).resolve_left (by simp))
  · obtain ⟨⟨p, s₁⟩, h₁, rfl⟩ := Option.map_eq_some_iff.1 hstep
    have hkept := contextKept_updateTensor h₁
    intro q hq
    rcases isInput_set (s := s₁) hq with rfl | hold
    · have hnew : q ∈ s₁.live_nodes := h.live_updateTensor h₁
      exact hnew
    · exact hkept.live (hlive q (by rwa [IsInput, hkept.inputs] at hold))

/-- Pointers that stay, to nodes that stay live, are live. -/
theorem isInput_kept (hinputs : s'.input_viewnode_forest_ptrs = s.input_viewnode_forest_ptrs)
    (hsub : s.live_nodes ⊆ s'.live_nodes) (hlive : ∀ p, IsInput s p → p ∈ s.live_nodes) :
    ∀ p, IsInput s' p → p ∈ s'.live_nodes := fun p hp =>
  hsub (hlive p (by rwa [IsInput, hinputs] at hp))

/-- After a FREE the pointers to the inputs are live exactly if none is that of a deleted node. -/
theorem Inv.live_free (h : Inv env s) {mem : MemData} (hlive : ∀ p, IsInput s p → p ∈ s.live_nodes)
    (hstep : onFree s mem = some s') :
    (∀ p, IsInput s' p → p ∈ s'.live_nodes) ↔ FreeSparesInputs s (.free mem) := by
  obtain ⟨-, hlive', -, hinputs⟩ := h.onFree_eq_some hstep
  simp only [IsInput, hinputs, hlive', FreeSparesInputs]
  constructor
  · intro hall r hr n hn hp
    exact (hall _ hp).2 (List.mem_map_of_mem (Tree.mem_nodesOf.2 ⟨r, hr, hn⟩))
  · intro hspare p hp
    refine ⟨hlive p hp, fun hin => ?_⟩
    obtain ⟨n, hn, rfl⟩ := List.mem_map.1 hin
    obtain ⟨r, hr, hn⟩ := Tree.mem_nodesOf.1 hn
    exact hspare r hr n hn hp

/-- From a state in which cached pointers are live, an event keeps them live exactly if it is not a
FREE that deletes the node of a current input. -/
theorem Inv.cachesLive_step (hinj : Function.Injective env.update_op_id_func) (h : Inv env s)
    {e : Event} (hlive : CachesLive s) (hstep : step env s e = some s') :
    CachesLive s' ↔ FreeSparesInputs s e := by
  have hinputs := hlive.inputs
  rw [(h.after_step hinj hstep).cachesLive_iff]
  cases e with
  | enter op frames =>
    -- The pointers are cleared first, and each turn of the loop stores that of a live node.
    refine iff_of_true ?_ trivial
    refine (foldlM_invariant (I := fun s => (Inv env s ∧ s.torchview_memory_snapshot = ∅) ∧
      ∀ p, IsInput s p → p ∈ s.live_nodes) (fun s₁ _ s₂ hs _ hstep =>
        ⟨hs.1.1.after_enterInput hinj hs.1.2 hstep, hs.1.1.live_enterInput hs.2 hstep⟩)
      ⟨⟨h.after_pushOp op, rfl⟩, ?_⟩ hstep).2
    simp [IsInput, pushOp]
  | exit op frames =>
    obtain ⟨-, -, hsame, hsub⟩ := context_onExit hstep
    exact iff_of_true (isInput_kept hsame hsub hinputs) trivial
  | free mem => exact h.live_free hinputs hstep
  | _ =>
    obtain ⟨hkept, -⟩ := contextKept_step hstep id (by simp)
    exact iff_of_true (isInput_kept hkept.inputs hkept.live hinputs) trivial

/-- Cached pointers are live in every state of a run exactly when no FREE of the run deletes a tree
that holds the node of a current input. -/
theorem allCachesLive_iff (hinj : Function.Injective env.update_op_id_func) (ongpu : Bool)
    (es : List Event) : AllStates (step env) CachesLive (initial ongpu) es ↔
      AllSteps (step env) FreeSparesInputs (initial ongpu) es := by
  refine allStates_iff_allSteps (I := Inv env) (fun s e s' h hstep => h.after_step hinj hstep)
    (fun s e h _ hnone => ?_) (fun s e s' h hlive hstep => h.cachesLive_step hinj hlive hstep)
    (inv_initial env ongpu) ⟨by simp [IsInput, initial], by simp [initial]⟩
  cases e with
  | free mem =>
    have hsome := h.onFree_isSome mem
    rw [show onFree s mem = none from hnone] at hsome
    exact absurd hsome (by simp)
  | _ => trivial

/-- While cached pointers are live, a lookup finds the nodes that it tests. -/
theorem Inv.possibleNodes_isSome (h : Inv env s) (hlive : CachesLive s) (a : ℕ) (is_delay : Bool) :
    (possibleNodes s a is_delay).isSome := by
  by_cases hcurrent : !is_delay && s.op_stack ≠ []
  · -- A live pointer is that of a node of the forest.
    have hderef : ∀ p ∈ s.input_viewnode_forest_ptrs.toList.filterMap Prod.snd,
        (deref s.roots p).isSome := by
      intro p hp
      obtain ⟨e, he, heq⟩ := List.mem_filterMap.1 hp
      have hmem := (h.live p).1 (hlive.inputs p (List.mem_map.2 ⟨e, he, heq⟩))
      obtain ⟨n, hn, rfl⟩ := List.mem_map.1 hmem
      rw [h.deref_eq hn]
      rfl
    unfold possibleNodes
    rw [if_pos hcurrent]
    exact isSome_mapM_iff.2 hderef
  · unfold possibleNodes
    rw [if_neg hcurrent]
    rfl

/-- While cached pointers are live, a lookup reads no deleted node. -/
theorem Inv.lookup_isSome (h : Inv env s) (hlive : CachesLive s) (a : ℕ) (is_delay : Bool) :
    (newGetViewNodesByMemAddr env s s.attribution.cells a is_delay).isSome := by
  obtain ⟨ns, hns⟩ := Option.isSome_iff_exists.1 (h.possibleNodes_isSome hlive a is_delay)
  obtain ⟨hits, cells, hlookup, -⟩ := newGetViewNodesByMemAddr_eq_some env hns fun n hn =>
    h.cells n (possibleNodes_subset hns n hn)
  rw [hlookup]
  rfl

/-- A FREE of memory that holds no input's node keeps the cached pointers live. -/
theorem cachesLive_vectors : AllStates (step countingEnv) CachesLive (initial false)
    [.enter ⟨[], [vector 0 2000 2]⟩ [], .free ⟨1000, 8, 8⟩] := by
  refine (allCachesLive_iff countingEnv_injective false _).2
    ⟨trivial, fun s hs => ⟨?_, fun s' _ => trivial⟩⟩
  -- The only root ends behind the freed block.
  have hreached : (step countingEnv (initial false) (.enter ⟨[], [vector 0 2000 2]⟩ [])).map
      (fun s => reachedRoots (stopOf ⟨1000, 8, 8⟩) (rootsFrom s 1000)) = some [] := by
    decide +kernel
  rw [hs, Option.map_some, Option.some.injEq] at hreached
  intro r hr
  rw [hreached] at hr
  exact absurd hr List.not_mem_nil

/-- A FREE of an input's memory leaves the pointer to its deleted node. -/
theorem not_cachesLive_vector : ¬∀ (env : Env) (ongpu : Bool) (es : List Event),
    Function.Injective env.update_op_id_func →
    AllStates (step env) CachesLive (initial ongpu) es := by
  intro h
  obtain ⟨s, hrun, hfacts⟩ := Option.map_eq_some_iff.1
    (show (run (step countingEnv) (initial false)
        [.enter ⟨[], [vector 0 1000 2]⟩ [], .free ⟨1000, 8, 8⟩]).map
      (fun s => (s.input_viewnode_forest_ptrs.toList, s.live_nodes)) =
      some ([(0, some 0)], ∅) by decide +kernel)
  simp only [Prod.mk.injEq] at hfacts
  obtain ⟨hinputs, hempty⟩ := hfacts
  have hlive := ((h countingEnv false _ countingEnv_injective).of_run hrun).inputs 0
    (by simp [IsInput, hinputs])
  rw [hempty] at hlive
  exact Finset.notMem_empty 0 hlive

end TenProf.TorchView
