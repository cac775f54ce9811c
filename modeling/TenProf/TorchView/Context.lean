import TenProf.TorchView.Exactness
import TenProf.TorchView.Invariant

/-!
# The stacks and the pointers to the inputs

`_op_stack`, `_domain_name` and `_input_viewnode_forest_ptrs` belong to the operation that is
running. An ENTER pushes on the stacks and fills the pointers, an EXIT pops the stacks, and no
other event changes any of the three (`context_step`). ENTER and EXIT have a result in every
reachable state (`onEnter_isSome`, `Inv.onExit_isSome`).
-/

namespace TenProf.TorchView

/-- The stacks and the pointers to the inputs are as they were, and no node is less live. -/
structure ContextKept (s s' : TorchView) : Prop where
  op_stack : s'.op_stack = s.op_stack
  domain_name : s'.domain_name = s.domain_name
  inputs : s'.input_viewnode_forest_ptrs = s.input_viewnode_forest_ptrs
  live : s.live_nodes ⊆ s'.live_nodes

theorem ContextKept.refl (s : TorchView) : ContextKept s s :=
  ⟨rfl, rfl, rfl, Finset.Subset.refl _⟩

theorem ContextKept.trans {s₁ s₂ s₃ : TorchView} (h₁ : ContextKept s₁ s₂)
    (h₂ : ContextKept s₂ s₃) : ContextKept s₁ s₃ :=
  ⟨h₂.op_stack.trans h₁.op_stack, h₂.domain_name.trans h₁.domain_name, h₂.inputs.trans h₁.inputs,
    h₁.live.trans h₂.live⟩

variable {env : Env} {s s' : TorchView} {frames : List PythonState} {op : OpData}

theorem contextKept_updateTensor {t : TensorData} {p : Option ℕ}
    (hstep : updateTensor env frames s t = some (p, s')) : ContextKept s s' := by
  have hupdated := updated_of_updateViewForest hstep
  obtain ⟨hstack, hname, hinputs, -⟩ := hupdated.frame
  refine ⟨hstack, hname, hinputs, ?_⟩
  generalize hs₁ : ({ s with op_ids := s.op_ids + 1 } : TorchView) = s₁ at hupdated
  cases hupdated with
  | found hroot hnode =>
    subst hs₁
    exact Finset.Subset.refl _
  | orphan hroot hnode hop hfather =>
    subst hs₁
    exact Finset.Subset.refl _
  | view hroot hnode hop hfather hn =>
    subst hs₁
    exact Finset.subset_insert _ _
  | root hroot hn =>
    subst hs₁
    exact Finset.subset_insert _ _

theorem contextKept_exitOutputs {outputs : List TensorData}
    (h : outputs.foldlM (exitOutput env frames) s = some s') : ContextKept s s' := by
  refine foldlM_rel ContextKept.refl ContextKept.trans (fun s t s' _ hstep => ?_) h
  unfold exitOutput at hstep
  split_ifs at hstep
  · cases hstep
    exact ContextKept.refl _
  · obtain ⟨⟨p, s₁⟩, h₁, rfl⟩ := Option.map_eq_some_iff.1 hstep
    exact contextKept_updateTensor h₁

/-- `redshow_torchview_ongpu_get_range_size` keeps the forest, the stacks and the pointers. -/
theorem contextKept_getRangeSize (hstep : getRangeSize s = some s') :
    ContextKept s s' ∧ s'.roots = s.roots := by
  unfold getRangeSize at hstep
  split_ifs at hstep
  · refine foldlM_invariant (I := fun s₁ => ContextKept s s₁ ∧ s₁.roots = s.roots)
      (fun s₁ e s₂ hs _ hstep => ?_) ⟨ContextKept.refl s, rfl⟩ hstep
    rcases updataTorchviewMemorySnapshot_eq_some hstep with rfl | ⟨ptr, n, c, hp, hn, hc, hdims⟩
    · exact hs
    · rw [hp] at hstep
      rw [updataTorchviewMemorySnapshot_of_dims hn hc hdims hstep]
      exact ⟨hs.1.trans ⟨rfl, rfl, rfl, Finset.Subset.refl _⟩, hs.2⟩
  · cases hstep
    exact ⟨ContextKept.refl s, rfl⟩

/-- A FREE leaves the stacks and the pointers to the inputs as they are. -/
theorem context_onFree {mem : MemData} (hstep : onFree s mem = some s') :
    s'.op_stack = s.op_stack ∧ s'.domain_name = s.domain_name ∧
      s'.input_viewnode_forest_ptrs = s.input_viewnode_forest_ptrs := by
  obtain ⟨s₁, h₁, rfl⟩ := Option.map_eq_some_iff.1 hstep
  obtain ⟨s₂, hdel, rfl⟩ := deleteForestTree_eq_some rfl h₁
  unfold unregisterMemoryBlock
  rw [hdel.frame]
  exact ⟨rfl, rfl, rfl⟩

/-- An EXIT pops both stacks if there is an operation on the first. -/
theorem context_onExit (hstep : onExit env s op frames = some s') :
    s'.op_stack = s.op_stack.tail ∧
      s'.domain_name = (if s.op_stack = [] then s.domain_name else s.domain_name.tail) ∧
      s'.input_viewnode_forest_ptrs = s.input_viewnode_forest_ptrs ∧
      s.live_nodes ⊆ s'.live_nodes := by
  obtain ⟨s₁, h₁, hstep⟩ := Option.bind_eq_some_iff.1 hstep
  obtain ⟨a, -, rfl⟩ := Option.map_eq_some_iff.1 hstep
  split_ifs at h₁ ⊢ with hempty
  · cases h₁
    exact ⟨by rw [hempty]; rfl, rfl, rfl, Finset.Subset.refl _⟩
  · obtain ⟨s₂, h₂, rfl⟩ := Option.map_eq_some_iff.1 h₁
    have hkept := contextKept_exitOutputs h₂
    exact ⟨congrArg List.tail hkept.op_stack, congrArg List.tail hkept.domain_name,
      hkept.inputs, hkept.live⟩

/-- The events of an operation, its ENTER and its EXIT. -/
def Event.IsOperation : Event → Prop
  | .enter _ _ => True
  | .exit _ _ => True
  | _ => False

/-- An event that is no ENTER, EXIT or FREE keeps the forest, the stacks and the pointers. -/
theorem contextKept_step {e : Event} (hstep : step env s e = some s') (he : ¬e.IsOperation)
    (hfree : ∀ mem, e ≠ .free mem) : ContextKept s s' ∧ s'.roots = s.roots := by
  have hattribution : ∀ a, ContextKept s { s with attribution := a } := fun a =>
    ⟨rfl, rfl, rfl, Finset.Subset.refl _⟩
  cases e with
  | enter op frames => exact absurd trivial he
  | exit op frames => exact absurd trivial he
  | free mem => exact absurd rfl (hfree mem)
  | getRangeSize => exact contextKept_getRangeSize hstep
  | alloc mem =>
    cases hstep
    exact ⟨⟨rfl, rfl, rfl, Finset.Subset.refl _⟩, rfl⟩
  | analysisBegin dict =>
    cases hstep
    exact ⟨hattribution _, rfl⟩
  | analysisEnd =>
    cases hstep
    exact ⟨hattribution _, rfl⟩
  | unitAccess pc addr flags =>
    obtain ⟨a, -, rfl⟩ := Option.map_eq_some_iff.1 hstep
    exact ⟨hattribution a, rfl⟩
  | kernelOp ctx_id frames =>
    obtain ⟨a, -, rfl⟩ := Option.map_eq_some_iff.1 hstep
    exact ⟨hattribution a, rfl⟩

/-- No event but those of an operation changes the stacks or the pointers to the inputs. -/
theorem context_step {e : Event} (he : ¬e.IsOperation) (hstep : step env s e = some s') :
    s'.op_stack = s.op_stack ∧ s'.domain_name = s.domain_name ∧
      s'.input_viewnode_forest_ptrs = s.input_viewnode_forest_ptrs := by
  by_cases hfree : ∃ mem, e = .free mem
  · obtain ⟨mem, rfl⟩ := hfree
    exact context_onFree hstep
  · obtain ⟨hkept, -⟩ := contextKept_step hstep he fun mem heq => hfree ⟨mem, heq⟩
    exact ⟨hkept.op_stack, hkept.domain_name, hkept.inputs⟩

/-- The node of an input: the one that the update returns, null for an input that is skipped. -/
def inputNode (env : Env) (frames : List PythonState) (s : TorchView) (t : TensorData) :
    Option ℕ :=
  if t.isSkipped then none else (updateTensor env frames s t).bind Prod.fst

/-- The nodes of the inputs from the state on in which the first of them is handled. -/
def inputNodes (env : Env) (frames : List PythonState) :
    TorchView → List (TensorData × ℕ) → List (Option ℕ)
  | _, [] => []
  | s, input :: inputs =>
    inputNode env frames s input.1 ::
      ((enterInput env frames s input).map fun s' => inputNodes env frames s' inputs).getD []

/-- One turn of the loop at ENTER stores the node of the input. -/
theorem context_enterInput {input : TensorData × ℕ}
    (hstep : enterInput env frames s input = some s') :
    s'.op_stack = s.op_stack ∧ s'.domain_name = s.domain_name ∧
      s'.input_viewnode_forest_ptrs =
        s.input_viewnode_forest_ptrs.set input.2 (inputNode env frames s input.1) := by
  unfold enterInput at hstep
  unfold inputNode
  split_ifs at hstep ⊢
  · cases hstep
    exact ⟨rfl, rfl, rfl⟩
  · obtain ⟨⟨p, s₁⟩, h₁, rfl⟩ := Option.map_eq_some_iff.1 hstep
    have hkept := contextKept_updateTensor h₁
    rw [h₁]
    exact ⟨hkept.op_stack, hkept.domain_name, congrArg (OrderedMap.set · _ _) hkept.inputs⟩

/-- The loop at ENTER stores the nodes of all inputs behind those that are stored. -/
theorem context_enterInputs {inputs : List TensorData} {nodes : List (Option ℕ)}
    (hnodes : ∀ i, s.input_viewnode_forest_ptrs.find? i = nodes[i]?)
    (h : (inputs.zipIdx nodes.length).foldlM (enterInput env frames) s = some s') :
    s'.op_stack = s.op_stack ∧ s'.domain_name = s.domain_name ∧
      ∀ i, s'.input_viewnode_forest_ptrs.find? i =
        (nodes ++ inputNodes env frames s (inputs.zipIdx nodes.length))[i]? := by
  induction inputs generalizing s nodes with
  | nil =>
    cases h
    exact ⟨rfl, rfl, by simpa [inputNodes] using hnodes⟩
  | cons t inputs ih =>
    obtain ⟨s₁, h₁, h⟩ := Option.bind_eq_some_iff.1 h
    obtain ⟨hstack, hname, hinputs⟩ := context_enterInput h₁
    have hnodes₁ : ∀ i, s₁.input_viewnode_forest_ptrs.find? i =
        (nodes ++ [inputNode env frames s t])[i]? := by
      -- The input's own position is the first behind those that are stored.
      intro i
      rw [hinputs, OrderedMap.find?_set, hnodes]
      rcases lt_trichotomy i nodes.length with hi | rfl | hi
      · rw [if_neg hi.ne, List.getElem?_append_left hi]
      · simp
      · rw [if_neg hi.ne', List.getElem?_eq_none hi.le, List.getElem?_eq_none (by simp; omega)]
    have hlength : (nodes ++ [inputNode env frames s t]).length = nodes.length + 1 := by simp
    rw [← hlength] at h
    obtain ⟨hstack', hname', hinputs'⟩ := ih hnodes₁ h
    refine ⟨hstack'.trans hstack, hname'.trans hname, fun i => ?_⟩
    rw [hinputs', hlength, List.zipIdx_cons, inputNodes, h₁, List.append_assoc]
    rfl

/-- An ENTER pushes on both stacks, and the pointers are the nodes of its inputs. -/
theorem context_onEnter (hstep : onEnter env s op frames = some s') :
    s'.op_stack = op :: s.op_stack ∧ s'.domain_name = op.name :: s.domain_name ∧
      ∀ i, s'.input_viewnode_forest_ptrs.find? i =
        (inputNodes env frames (pushOp s op) op.tensor_data.zipIdx)[i]? := by
  have hnone : ∀ i, (pushOp s op).input_viewnode_forest_ptrs.find? i =
      ([] : List (Option ℕ))[i]? := fun i => by simp [pushOp]
  exact context_enterInputs hnone hstep

/-- An ENTER has a result. -/
theorem onEnter_isSome (env : Env) (s : TorchView) (op : OpData) (frames : List PythonState) :
    (onEnter env s op frames).isSome := by
  refine foldlM_isSome (I := fun s => s.op_stack ≠ []) (fun s input s' hs _ hstep => ?_)
    (fun s input hs _ => ?_) (by simp [pushOp])
  · rwa [(context_enterInput hstep).1]
  · unfold enterInput
    split_ifs
    · rfl
    · rw [Option.isSome_map]
      exact updateViewForest_isSome hs

/-- A live node has a cell, whatever a callback did to the cells. -/
theorem Inv.cell_isSome (h : Inv env s) {a : Attribution} (hkept : Kept s.attribution a) {p : ℕ}
    (hp : p ∈ s.live_nodes) : (a.cells.find? p).isSome := by
  obtain ⟨n, hn, rfl⟩ := List.mem_map.1 ((h.live p).1 hp)
  exact hkept.cells.isSome (h.cells n hn)

/-- `update_node_total_access` has a result. -/
theorem Inv.updateNodeTotalAccess_isSome (h : Inv env s) {a : Attribution}
    (hkept : Kept s.attribution a) (ptrs : List ℕ) (pc : ℕ) :
    (updateNodeTotalAccess s.live_nodes a ptrs pc).isSome := by
  refine foldlM_isSome (I := Kept s.attribution) (fun a ptr a' ha _ hstep => ?_)
    (fun a ptr ha _ => ?_) hkept
  · split_ifs at hstep
    · obtain ⟨c, hc, rfl⟩ := Option.map_eq_some_iff.1 hstep
      exact ha.trans ⟨CellsKept.set hc (NodeCell.sort_dims_congr rfl rfl), fun _ h => h⟩
    · cases hstep
      exact ha
  · split_ifs with hlive
    · rw [Option.isSome_map]
      exact h.cell_isSome ha hlive
    · rfl

/-- The nodes that a lookup tests are nodes of the forest. -/
theorem possibleNodes_subset {addr : ℕ} {is_delay : Bool} {ns : List ViewNode}
    (h : possibleNodes s addr is_delay = some ns) : ∀ n ∈ ns, n ∈ Tree.nodesOf s.roots := by
  intro n hn
  unfold possibleNodes at h
  split_ifs at h
  · obtain ⟨p, -, hp⟩ := exists_of_mem_mapM h hn
    exact (deref_eq_some hp).1
  · rw [← Option.some.inj h] at hn
    obtain ⟨r, hr, rfl⟩ := List.mem_map.1 (List.mem_filter.1 hn).1
    have hmem : r ∈ s.roots := by
      rw [← lowerBound_append s.roots addr]
      exact List.mem_append_right _ (List.takeWhile_subset _ hr)
    exact Tree.mem_nodesOf.2 ⟨r, hmem, r.root_mem_nodes⟩

/-- A delayed lookup tests roots, whatever the operation on top. -/
theorem possibleNodes_delayed (s : TorchView) (addr : ℕ) :
    ∃ ns, possibleNodes s addr true = some ns := ⟨_, rfl⟩

/-- A delayed lookup has a result, and finds nodes of the forest. -/
theorem Inv.delayedLookup_isSome (h : Inv env s) {a : Attribution}
    (hkept : Kept s.attribution a) (addr : ℕ) :
    ∃ hits cells, newGetViewNodesByMemAddr env s a.cells addr true = some (hits, cells) ∧
      ∀ n ∈ hits, n ∈ Tree.nodesOf s.roots := by
  obtain ⟨ns, hns⟩ := possibleNodes_delayed s addr
  have hmem := possibleNodes_subset hns
  obtain ⟨hits, cells, hlookup, hsub⟩ := newGetViewNodesByMemAddr_eq_some env hns fun n hn =>
    hkept.cells.isSome (h.cells n (hmem n hn))
  exact ⟨hits, cells, hlookup, fun n hn => hmem n (hsub n hn)⟩

theorem pushDelayed_isSome (a : Attribution) (d : DelayedTrace) (object_type : MemObject)
    (view_id c pc : ℕ) : (pushDelayed a d object_type view_id c pc).isSome := by
  simp [pushDelayed, pushPc, pushCallPath, OrderedMap.findD]

/-- One turn of the loop of `map_delayed_access` has a result. -/
theorem Inv.delayedAccess_isSome (h : Inv env s) (d : DelayedTrace)
    {st : Attribution × OrderedMap ℕ (List ViewNode)} (hkept : Kept s.attribution st.1)
    (access : ℕ × ℕ × ℕ) : (delayedAccess env s d st access).isSome := by
  obtain ⟨a, cache⟩ := st
  obtain ⟨pc, mem_start, c⟩ := access
  simp only [delayedAccess]
  cases cache.find? pc with
  | some ns =>
    rw [Option.isSome_map]
    exact h.updateNodeTotalAccess_isSome hkept _ pc
  | none =>
    obtain ⟨hits, cells, hlookup, hmem⟩ := h.delayedLookup_isSome hkept mem_start
    have hsorted : Kept s.attribution { a with cells := cells } :=
      hkept.trans ⟨cellsKept_newGetViewNodesByMemAddr hlookup, fun _ h => h⟩
    obtain ⟨a₁, h₁⟩ := Option.isSome_iff_exists.1
      (h.updateNodeTotalAccess_isSome hsorted (hits.map ViewNode.ptr) pc)
    have hkept₁ := hsorted.trans (onlyCells_updateNodeTotalAccess h₁).kept
    -- Every node that is hit has a cell, whatever was logged before its turn.
    have hnodes : (hits.foldlM (fun a n =>
        (pushDelayed a d .VIEW_NODE n.view_id c pc).bind fun a =>
          setMemoryWritePc a n.ptr (pc ∈ d.write_pcs)) a₁).isSome := by
      refine foldlM_isSome (I := Kept s.attribution) (fun a n a' ha _ hstep => ?_)
        (fun a n ha hn => ?_) hkept₁
      · obtain ⟨a₂, h₂, h₃⟩ := Option.bind_eq_some_iff.1 hstep
        exact (ha.trans (kept_pushDelayed h₂)).trans (onlyCells_setMemoryWritePc h₃).kept
      · have hpushed := pushDelayed_isSome a d .VIEW_NODE n.view_id c pc
        obtain ⟨a₂, h₂⟩ := Option.isSome_iff_exists.1 hpushed
        rw [h₂, Option.bind_some, setMemoryWritePc, Option.isSome_map]
        exact (ha.trans (kept_pushDelayed h₂)).cells.isSome (h.cells n (hmem n hn))
    obtain ⟨a₂, h₂⟩ := Option.isSome_iff_exists.1 hnodes
    rw [hlookup, Option.bind_some, h₁, Option.bind_some, h₂, Option.bind_some, Option.isSome_map]
    split_ifs
    · exact foldlM_isSome (I := fun _ => True) (fun _ _ _ _ _ _ => trivial)
        (fun a b _ _ => pushDelayed_isSome a d .MEMORY_BLOCK b.block_id c pc) trivial
    · rfl

/-- `map_delayed_access` has a result in every state with the invariant. -/
theorem Inv.mapDelayedAccess_isSome (h : Inv env s) : (mapDelayedAccess env s).isSome := by
  unfold mapDelayedAccess
  cases s.attribution.delayed_trace with
  | none => rfl
  | some d =>
    rw [Option.isSome_map]
    exact foldlM_isSome (I := fun st => Kept s.attribution st.1)
      (fun _ _ _ hkept _ hstep => hkept.trans (kept_delayedAccess hstep))
      (fun _ access hkept _ => h.delayedAccess_isSome d hkept access) (Kept.refl _)

/-- An EXIT has a result in every state with the invariant. -/
theorem Inv.onExit_isSome (hinj : Function.Injective env.update_op_id_func) (h : Inv env s)
    (op : OpData) (frames : List PythonState) : (onExit env s op frames).isSome := by
  unfold onExit
  split_ifs with hempty
  · rw [Option.bind_some, Option.isSome_map]
    exact h.mapDelayedAccess_isSome
  · -- The loop over the outputs leaves the operation on the stack.
    have hloop : (op.tensor_data.foldlM (exitOutput env frames) s).isSome := by
      refine foldlM_isSome (I := fun s => s.op_stack ≠ []) (fun s t s' hs _ hstep => ?_)
        (fun s t hs _ => ?_) hempty
      · have hrun : [t].foldlM (exitOutput env frames) s = some s' := by
          rw [List.foldlM_cons, hstep]
          rfl
        rwa [(contextKept_exitOutputs hrun).op_stack]
      · unfold exitOutput
        split_ifs
        · rfl
        · rw [Option.isSome_map]
          exact updateViewForest_isSome hs
    obtain ⟨s₁, h₁⟩ := Option.isSome_iff_exists.1 hloop
    rw [h₁, Option.map_some, Option.bind_some, Option.isSome_map]
    exact (h.after_exitOutputs hinj h₁).mapDelayedAccess_isSome

end TenProf.TorchView
