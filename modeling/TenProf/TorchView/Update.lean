import TenProf.TorchView.Callback

/-!
# What an update of the forest does

`update_view_forest` has four outcomes, the constructors of `Updated`: the tensor's node exists, no
father is found for it, a view is added under its father, or a root is added. Every later fact about
an update is a case analysis on these.
-/

namespace TenProf.TorchView

/-- The outcomes of `update_view_forest`. -/
inductive Updated (s : TorchView) (frames : List PythonState) (t : TensorData) (global_id : ℕ) :
    Option ℕ → TorchView → Prop
  /-- The node is in the tree that was found: its call path is logged. -/
  | found {r : Tree ViewNode} {n : ViewNode} (hroot : findRootNode s.roots t = some r)
    (hnode : findNode r t = some n) :
    Updated s frames t global_id (some n.ptr)
      { s with attribution :=
          pushCallPath s.attribution n.view_id (callPathState s frames t.index) }
  /-- No input has a node in the tree: nothing happens. -/
  | orphan {r : Tree ViewNode} {op : OpData} (hroot : findRootNode s.roots t = some r)
    (hnode : findNode r t = none) (hop : s.op_stack.head? = some op)
    (hfather : findFather r t op.tensor_data = none) : Updated s frames t global_id none s
  /-- A view is added under its father. -/
  | view {r : Tree ViewNode} {op : OpData} {v n : ViewNode}
    (hroot : findRootNode s.roots t = some r) (hnode : findNode r t = none)
    (hop : s.op_stack.head? = some op) (hfather : findFather r t op.tensor_data = some v)
    (hn : n = ViewNode.ofView s.next_ptr global_id t v.mem_block_range) :
    Updated s frames t global_id (some n.ptr)
      { newNode s n t false (callPathState s frames t.index) with
        roots := s.roots.map (Tree.insertUnder ViewNode.ptr v.ptr n) }
  /-- A root is added. -/
  | root {n : ViewNode} (hroot : findRootNode s.roots t = none)
    (hn : n = ViewNode.ofRoot s.next_ptr global_id t) :
    Updated s frames t global_id (some n.ptr)
      { newNode s n t true (callPathState s frames t.index) with
        roots := (lowerBound s.roots t.data_ptr).1 ++
          ⟨n, .nil⟩ :: (lowerBound s.roots t.data_ptr).2 }

variable {s s' : TorchView} {frames : List PythonState} {t : TensorData} {global_id : ℕ}
  {p : Option ℕ}

/-- Every result of `update_view_forest` is one of the four outcomes. -/
theorem updated_of_updateViewForest
    (h : updateViewForest s frames t global_id = some (p, s')) :
    Updated s frames t global_id p s' := by
  unfold updateViewForest at h
  cases hroot : findRootNode s.roots t with
  | none =>
    simp only [hroot, Option.some.injEq, Prod.mk.injEq] at h
    obtain ⟨rfl, rfl⟩ := h
    exact .root hroot rfl
  | some r =>
    cases hnode : findNode r t with
    | some n =>
      simp only [hroot, hnode, Option.some.injEq, Prod.mk.injEq] at h
      obtain ⟨rfl, rfl⟩ := h
      exact .found hroot hnode
    | none =>
      cases hop : s.op_stack with
      | nil => simp [hroot, hnode, hop] at h
      | cons op ops =>
        have hhead : s.op_stack.head? = some op := by rw [hop]; rfl
        cases hfather : findFather r t op.tensor_data with
        | none =>
          simp only [hroot, hnode, hop, hfather, Option.some.injEq, Prod.mk.injEq] at h
          obtain ⟨rfl, rfl⟩ := h
          exact .orphan hroot hnode hhead hfather
        | some v =>
          simp only [hroot, hnode, hop, hfather, Option.some.injEq, Prod.mk.injEq] at h
          obtain ⟨rfl, rfl⟩ := h
          exact .view hroot hnode hhead hfather rfl

/-- With an operation on the stack, `update_view_forest` has a result. -/
theorem updateViewForest_isSome (h : s.op_stack ≠ []) :
    (updateViewForest s frames t global_id).isSome := by
  unfold updateViewForest
  cases findRootNode s.roots t with
  | none => rfl
  | some r =>
    cases hnode : findNode r t with
    | some n => simp [hnode]
    | none =>
      cases hop : s.op_stack with
      | nil => exact absurd hop h
      | cons op ops => cases hfather : findFather r t op.tensor_data <;> simp [hnode, hfather]

/-- What an update leaves as it is. -/
theorem Updated.frame (h : Updated s frames t global_id p s') :
    s'.op_stack = s.op_stack ∧ s'.domain_name = s.domain_name ∧
      s'.input_viewnode_forest_ptrs = s.input_viewnode_forest_ptrs ∧
      s'.torchview_memory_snapshot = s.torchview_memory_snapshot ∧
      s'.viewnode_mem_range_map = s.viewnode_mem_range_map ∧ s'.op_ids = s.op_ids ∧
      s'.torch_view_ongpu = s.torch_view_ongpu := by
  cases h <;> exact ⟨rfl, rfl, rfl, rfl, rfl, rfl, rfl⟩

/-- A root that is found is one of the roots. -/
theorem mem_of_findRootNodeOf {roots : List (Tree ViewNode)} {r : Tree ViewNode} {x y : ℕ}
    (h : findRootNodeOf roots x y = some r) : r ∈ roots := by
  unfold findRootNodeOf at h
  split_ifs at h
  obtain ⟨i, -, hi⟩ := Option.bind_eq_some_iff.1 h
  exact List.mem_of_getElem? hi

/-- A node that is found is one of the tree's, and has the tensor's pair. -/
theorem findNode_eq_some {r : Tree ViewNode} {n : ViewNode} (h : findNode r t = some n) :
    n ∈ r.nodes ∧ n.key = t.key := by
  unfold findNode at h
  rw [Tree.find?_eq] at h
  exact ⟨List.mem_of_find?_eq_some h, by simpa using List.find?_some h⟩

/-- A tensor without a node in the tree has its pair at none of the tree's nodes. -/
theorem findNode_eq_none_iff {r : Tree ViewNode} :
    findNode r t = none ↔ ∀ n ∈ r.nodes, n.key ≠ t.key := by
  unfold findNode
  rw [Tree.find?_eq, List.find?_eq_none]
  simp

/-- A father is the node of one of the captured inputs, in the tree, and its range holds the
tensor's first byte. -/
theorem findFather_eq_some {r : Tree ViewNode} {inputs : List TensorData} {v : ViewNode}
    (h : findFather r t inputs = some v) :
    v ∈ r.nodes ∧ v.mem_block_range.1 ≤ t.data_ptr ∧ t.data_ptr ≤ v.mem_block_range.2 ∧
      ∃ u ∈ inputs, u.isSkipped = false ∧ v.key = u.key := by
  obtain ⟨u, hu, hv⟩ := List.exists_of_findSome?_eq_some h
  split_ifs at hv with hskip
  obtain ⟨hfind, hrange⟩ := Option.filter_eq_some_iff.1 hv
  obtain ⟨hmem, hkey⟩ := findNode_eq_some hfind
  simp only [decide_eq_true_eq] at hrange
  exact ⟨hmem, hrange.1, hrange.2, u, hu, by simpa using hskip, hkey⟩

/-- The two halves of a lower bound are the roots. -/
theorem lowerBound_append (roots : List (Tree ViewNode)) (x : ℕ) :
    (lowerBound roots x).1 ++ (lowerBound roots x).2 = roots := by
  unfold lowerBound
  rw [List.span_eq_takeWhile_dropWhile]
  exact List.takeWhile_append_dropWhile

/-- Below the lower bound the roots start earlier. -/
theorem lt_of_mem_lowerBound {roots : List (Tree ViewNode)} {x : ℕ} {r : Tree ViewNode}
    (h : r ∈ (lowerBound roots x).1) : r.root.data_ptr < x := by
  unfold lowerBound at h
  rw [List.span_eq_takeWhile_dropWhile] at h
  simpa using List.all_eq_true.1 List.all_takeWhile r h

/-- Above the lower bound of sorted roots no root starts earlier. -/
theorem le_of_mem_lowerBound {roots : List (Tree ViewNode)}
    (hsorted : roots.Pairwise fun a b => a.root.data_ptr ≤ b.root.data_ptr) {x : ℕ}
    {r : Tree ViewNode} (h : r ∈ (lowerBound roots x).2) : x ≤ r.root.data_ptr := by
  unfold lowerBound at h
  rw [List.span_eq_takeWhile_dropWhile] at h
  simp only at h
  induction roots with
  | nil => simp at h
  | cons a roots ih =>
    obtain ⟨ha, hsorted⟩ := List.pairwise_cons.1 hsorted
    rw [List.dropWhile_cons] at h
    split_ifs at h with hlt
    · exact ih hsorted h
    · -- The first root that is not dropped starts no earlier, nor do those behind it.
      have hx : x ≤ a.root.data_ptr := by simpa using hlt
      rcases List.mem_cons.1 h with rfl | h
      · exact hx
      · exact hx.trans (ha r h)

/-- A new root is the one node that is added. -/
theorem nodesOf_insertRoot_perm (roots : List (Tree ViewNode)) (x : ℕ) (n : ViewNode) :
    (Tree.nodesOf ((lowerBound roots x).1 ++ ⟨n, .nil⟩ :: (lowerBound roots x).2)).Perm
      (n :: Tree.nodesOf roots) := by
  have happend : Tree.nodesOf roots =
      Tree.nodesOf (lowerBound roots x).1 ++ Tree.nodesOf (lowerBound roots x).2 := by
    rw [← Tree.nodesOf_append, lowerBound_append]
  rw [happend, Tree.nodesOf_append, Tree.nodesOf_cons]
  exact List.perm_middle

/-- A root in its place keeps sorted roots sorted. -/
theorem sorted_insertRoot {roots : List (Tree ViewNode)}
    (hsorted : roots.Pairwise fun a b => a.root.data_ptr ≤ b.root.data_ptr) (r : Tree ViewNode) :
    ((lowerBound roots r.root.data_ptr).1 ++ r :: (lowerBound roots r.root.data_ptr).2).Pairwise
      fun a b => a.root.data_ptr ≤ b.root.data_ptr := by
  have happend := lowerBound_append roots r.root.data_ptr
  have hparts := hsorted
  rw [← happend] at hparts
  obtain ⟨hbelow, habove, hcross⟩ := List.pairwise_append.1 hparts
  refine List.pairwise_append.2 ⟨hbelow, List.pairwise_cons.2 ⟨?_, habove⟩, ?_⟩
  · exact fun b hb => le_of_mem_lowerBound hsorted hb
  · intro a ha b hb
    rcases List.mem_cons.1 hb with rfl | hb
    · exact (lt_of_mem_lowerBound ha).le
    · exact hcross a ha b hb

/-- The trees after a root is added. -/
theorem mem_insertRoot {roots : List (Tree ViewNode)} {x : ℕ} {r r' : Tree ViewNode} :
    r' ∈ (lowerBound roots x).1 ++ r :: (lowerBound roots x).2 ↔ r' = r ∨ r' ∈ roots := by
  have happend : r' ∈ roots ↔ r' ∈ (lowerBound roots x).1 ∨ r' ∈ (lowerBound roots x).2 := by
    rw [← List.mem_append, lowerBound_append]
  simp only [happend, List.mem_append, List.mem_cons]
  exact or_left_comm

end TenProf.TorchView
