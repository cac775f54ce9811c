import TenProf.TorchView.RootSearch
import TenProf.TorchView.Invariant

/-!
# Where a tensor is placed

A root's range, and the range for which `find_root_node` looks for a root, end `numel` elements
behind the tensor's first. The last element of a tensor is its `extent` behind the first, which is
smaller than `numel` when no stride leaves a gap, and may be larger when one does. So a new root
covers its tensor exactly when the extent is smaller than `numel`, and a tensor under a root that
exists is covered when the root happens to be long enough (`placedRight_iff`).
-/

namespace TenProf.TorchView

/-- The distance from the first element of a tensor to its last, in elements. -/
def extent (t : TensorData) : ℕ := Strided.maxOffset (t.dims.map fun d => (d.size, d.stride))

/-- The bytes of the elements of a tensor. -/
def footprint (t : TensorData) : Set ℕ :=
  {b | ∃ x ∈ Strided.offsets (t.dims.map fun d => (d.size, d.stride)),
    t.data_ptr + t.itemsize * x ≤ b ∧ b < t.data_ptr + t.itemsize * x + t.itemsize}

/-- The byte behind the last element of a tensor. -/
def footprintEnd (t : TensorData) : ℕ := t.data_ptr + t.itemsize * extent t + t.itemsize

/-- The nodes of the forest are distinct, and the next identity is new. -/
structure DistinctNodes (s : TorchView) : Prop where
  /-- Nodes are distinct. -/
  ptr_nodup : ((Tree.nodesOf s.roots).map ViewNode.ptr).Nodup
  /-- The next identity is new. -/
  ptr_lt : ∀ n ∈ Tree.nodesOf s.roots, n.ptr < s.next_ptr

/-- The tensor is placed in the right tree: the range of the root above the node that an update
returns for it covers every byte of every element. -/
def PlacedRight (t : TensorData) (p : Option ℕ) (s' : TorchView) : Prop :=
  ∀ r ∈ s'.roots, ∀ n ∈ r.nodes, p = some n.ptr → ∀ b ∈ footprint t,
    r.root.mem_block_range.1 ≤ b ∧ b < r.root.mem_block_range.2

/-- A tensor that lies in a root's range, as the source computes it, gets no node there, since it
has none and no input is its father. -/
def IsOrphan (s : TorchView) (r : Tree ViewNode) (t : TensorData) : Prop :=
  findNode r t = none ∧ ∀ op ∈ s.op_stack.head?, findFather r t op.tensor_data = none

/-- The last element of the tensor ends in the range that it gets: that of the root that is found
for it, unless it gets no node there, or else the one up to the tensor's `r_end`. -/
def FootprintFits (s : TorchView) (t : TensorData) : Prop :=
  match findRootNode s.roots t with
  | none => footprintEnd t ≤ endAddress t
  | some r => IsOrphan s r t ∨ footprintEnd t ≤ r.root.mem_block_range.2

variable {s s' : TorchView} {t : TensorData}

/-- The nodes of a reachable state are distinct. -/
theorem Inv.distinctNodes {env : Env} (h : Inv env s) : DistinctNodes s := ⟨h.ptr_nodup, h.ptr_lt⟩

/-- A range that starts no later than a tensor covers it when its last element ends there. -/
theorem footprint_covered_iff (hsize : ∀ d ∈ t.dims, 0 < d.size) {range : ℕ × ℕ}
    (hstart : range.1 ≤ t.data_ptr) :
    (∀ b ∈ footprint t, range.1 ≤ b ∧ b < range.2) ↔ footprintEnd t ≤ range.2 := by
  have hsize' : ∀ d ∈ t.dims.map fun d => (d.size, d.stride), 0 < d.1 := by
    simpa using hsize
  unfold footprintEnd extent
  rw [← Strided.forall_bytes_lt_iff hsize' t.itemsize_pos]
  constructor
  · intro h x hx b hle hlt
    exact (h b ⟨x, hx, hle, hlt⟩).2
  · rintro h b ⟨x, hx, hle, hlt⟩
    exact ⟨by omega, h x hx b hle hlt⟩

/-- Unless the end wraps around, the last element ends before it exactly when the extent is smaller
than the element count. -/
theorem footprintEnd_le_endAddress_iff (hwrap : t.data_ptr + t.itemsize * t.numel < 2^64) :
    footprintEnd t ≤ endAddress t ↔ extent t < t.numel := by
  unfold footprintEnd endAddress
  rw [u64_of_lt hwrap, Nat.add_assoc, Nat.add_le_add_iff_left, ← Nat.mul_succ,
    Nat.mul_le_mul_left_iff t.itemsize_pos, Nat.succ_le_iff]

/-- A tensor without gaps between its elements fits wherever it is placed. -/
theorem footprintFits_of_extent_lt (hwrap : t.data_ptr + t.itemsize * t.numel < 2^64)
    (hextent : extent t < t.numel) : FootprintFits s t := by
  have hend := (footprintEnd_le_endAddress_iff hwrap).2 hextent
  unfold FootprintFits
  cases hroot : findRootNode s.roots t with
  | none => exact hend
  | some r => exact Or.inr (hend.trans (contains_of_findRootNodeOf hroot).2.2)

/-- When one tree holds the node that is returned, its range decides. -/
theorem placedRight_iff_of_unique {r : Tree ViewNode} (hr : r ∈ s'.roots) {n : ViewNode}
    (hn : n ∈ r.nodes)
    (hunique : ∀ r' ∈ s'.roots, ∀ n' ∈ r'.nodes, n.ptr = n'.ptr → r'.root = r.root) :
    PlacedRight t (some n.ptr) s' ↔
      ∀ b ∈ footprint t, r.root.mem_block_range.1 ≤ b ∧ b < r.root.mem_block_range.2 := by
  constructor
  · intro h
    exact h r hr n hn rfl
  · intro h r' hr' n' hn' hptr
    rw [hunique r' hr' n' hn' (Option.some.inj hptr)]
    exact h

/-- An update places a tensor in the right tree exactly when its last element ends in the range that
it gets. -/
theorem placedRight_iff (hnodes : DistinctNodes s) (hsize : ∀ d ∈ t.dims, 0 < d.size)
    {frames : List PythonState} {global_id : ℕ} {p : Option ℕ}
    (hupdate : updateViewForest s frames t global_id = some (p, s')) :
    PlacedRight t p s' ↔ FootprintFits s t := by
  unfold FootprintFits
  cases updated_of_updateViewForest hupdate with
  | @found r n hroot hnode =>
    -- The node that exists is in the tree that was found.
    obtain ⟨hr, hstart, -⟩ := contains_of_findRootNodeOf hroot
    have hn := (findNode_eq_some hnode).1
    have horphan : ¬IsOrphan s r t := fun h => by simp [h.1] at hnode
    rw [hroot]
    simp only [horphan, false_or]
    refine (placedRight_iff_of_unique hr hn fun r' hr' n' hn' hptr => ?_).trans
      (footprint_covered_iff hsize hstart)
    rw [Tree.eq_of_mem_nodes hnodes.ptr_nodup hr hr' hn hn' hptr]
  | @orphan r op hroot hnode hop hfather =>
    rw [hroot]
    refine iff_of_true (fun r' _ n' _ hptr => absurd hptr (by simp)) (Or.inl ⟨hnode, ?_⟩)
    intro op' hop'
    rw [hop] at hop'
    rwa [← Option.some.inj hop']
  | @view r op v n hroot hnode hop hfather hn =>
    obtain ⟨hr, hstart, -⟩ := contains_of_findRootNodeOf hroot
    have hv := (findFather_eq_some hfather).1
    have hnew : n.ptr = s.next_ptr := by rw [hn]; rfl
    have horphan : ¬IsOrphan s r t := fun h => by simp [h.2 op hop] at hfather
    rw [hroot]
    simp only [horphan, false_or]
    rw [← footprint_covered_iff hsize hstart, ← Tree.insertUnder_root ViewNode.ptr v.ptr n r]
    refine placedRight_iff_of_unique (List.mem_map_of_mem hr)
      ((Tree.mem_nodes_insertUnder _ _ _ _ _).2 (Or.inr ⟨rfl, List.mem_map_of_mem hv⟩)) ?_
    -- The new node is in the tree of its father only, since its identity is new.
    intro r' hr' n' hn' hptr
    obtain ⟨r₀, hr₀, rfl⟩ := List.mem_map.1 hr'
    rw [Tree.insertUnder_root, Tree.insertUnder_root]
    rcases (Tree.mem_nodes_insertUnder _ _ _ _ _).1 hn' with hold | ⟨-, hkey⟩
    · have hlt := hnodes.ptr_lt n' (Tree.mem_nodesOf.2 ⟨r₀, hr₀, hold⟩)
      omega
    · obtain ⟨m, hm, hmv⟩ := List.mem_map.1 hkey
      rw [Tree.eq_of_mem_nodes hnodes.ptr_nodup hr₀ hr hm hv hmv]
  | @root n hroot hn =>
    have hnew : n.ptr = s.next_ptr := by rw [hn]; rfl
    have hcovered : (∀ b ∈ footprint t, n.mem_block_range.1 ≤ b ∧ b < n.mem_block_range.2) ↔
        footprintEnd t ≤ endAddress t := by
      rw [hn]
      exact footprint_covered_iff hsize le_rfl
    rw [hroot]
    refine (placedRight_iff_of_unique (mem_insertRoot.2 (Or.inl rfl))
      (Tree.root_mem_nodes ⟨n, .nil⟩) fun r' hr' n' hn' hptr => ?_).trans hcovered
    rcases mem_insertRoot.1 hr' with rfl | hr'
    · rfl
    · have hlt := hnodes.ptr_lt n' (Tree.mem_nodesOf.2 ⟨r', hr', hn'⟩)
      rw [← hptr, hnew] at hlt
      exact absurd hlt (lt_irrefl _)

/-- Every second element of a vector of 4-byte elements, as a tensor of its own. -/
def everySecond (data_ptr numel : ℕ) : TensorData :=
  { vector 1 data_ptr numel with
    dims := [⟨numel, 2⟩]
    metadata_ptr := data_ptr + 1
    dim_le := (vector 1 data_ptr numel).dim_le }

/-- Under the root of the vector, two of its elements are placed right. -/
theorem placedRight_everySecond : ∃ s p s',
    run (step countingEnv) (initial false) [.enter ⟨[], [vector 0 1000 10]⟩ []] = some s ∧
      updateViewForest s [] (everySecond 1000 2) 7 = some (p, s') ∧
      PlacedRight (everySecond 1000 2) p s' := by
  obtain ⟨s, hrun, hfacts⟩ := Option.map_eq_some_iff.1
    (show (run (step countingEnv) (initial false) [.enter ⟨[], [vector 0 1000 10]⟩ []]).map
      (fun s => ((updateViewForest s [] (everySecond 1000 2) 7).isSome,
        (findRootNode s.roots (everySecond 1000 2)).map fun r => r.root.mem_block_range)) =
      some (true, some (1000, 1040)) by decide +kernel)
  simp only [Prod.mk.injEq, Option.map_eq_some_iff] at hfacts
  obtain ⟨hsome, r, hroot, hrange⟩ := hfacts
  obtain ⟨⟨p, s'⟩, hupdate⟩ := Option.isSome_iff_exists.1 hsome
  refine ⟨s, p, s', hrun, hupdate, (placedRight_iff
    (inv_of_reachable countingEnv_injective (reachable_of_run hrun)).distinctNodes (by decide)
    hupdate).2 ?_⟩
  unfold FootprintFits
  rw [hroot]
  exact Or.inr (by rw [hrange]; decide)

/-- In a forest without roots, two elements with a gap between them get a root that ends before the
second. -/
theorem not_placedRight_everySecond : ¬∀ (s s' : TorchView) (t : TensorData)
    (frames : List PythonState) (global_id : ℕ) (p : Option ℕ), DistinctNodes s →
    (∀ d ∈ t.dims, 0 < d.size) → updateViewForest s frames t global_id = some (p, s') →
    PlacedRight t p s' := by
  intro h
  have hnodes : DistinctNodes (initial false) := (inv_initial countingEnv false).distinctNodes
  have hplaced := h _ _ (everySecond 1000 2) [] 1 _ hnodes (by decide) rfl
  -- The second element starts at the end of the root.
  have hsecond : 2 ∈ Strided.offsets ((everySecond 1000 2).dims.map fun d => (d.size, d.stride)) :=
    (Strided.mem_offsets_cons _ _ _).2 ⟨1, by decide, 0, by simp, rfl⟩
  have hend := hplaced _ List.mem_cons_self _ (Tree.root_mem_nodes _) rfl 1008
    ⟨2, hsecond, by decide, by decide⟩
  exact absurd hend.2 (by decide)

end TenProf.TorchView
