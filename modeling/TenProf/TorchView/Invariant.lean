import TenProf.TorchView.Frames
import TenProf.TorchView.Delete

/-!
# The invariant of reachable states

`Inv` says how the forest, the live nodes, the call paths, the cells and the recorded ranges fit
together. It holds at the start and survives every event, when `update_op_id_func` never returns an
id twice (`inv_of_reachable`). An event changes the forest in three ways: a node is added
(`Inv.insert`), trees are deleted (`Inv.delete`), or only members change that the invariant bounds
from one side (`Inv.frame`).
-/

namespace TenProf.TorchView

/-- An id that a call of `update_op_id_func` has returned. -/
def Issued (env : Env) (s : TorchView) (id : ℕ) : Prop :=
  ∃ k < s.op_ids, env.update_op_id_func k = id

/-- The range that `updata_torchview_memory_snapshot` records for a node. -/
def ownRange (n : ViewNode) : MemoryRange := ⟨n.data_ptr, u64 (n.data_ptr + n.itemsize)⟩

/-- The invariant. -/
structure Inv (env : Env) (s : TorchView) : Prop where
  /-- The roots are sorted. -/
  sorted : s.roots.Pairwise fun a b => a.root.data_ptr ≤ b.root.data_ptr
  /-- A root's range starts at the root. -/
  root_range : ∀ r ∈ s.roots, r.root.mem_block_range.1 = r.root.data_ptr
  /-- All nodes of a tree have the root's range. -/
  node_range : ∀ r ∈ s.roots, ∀ n ∈ r.nodes, n.mem_block_range = r.root.mem_block_range
  /-- Nodes are distinct. -/
  ptr_nodup : ((Tree.nodesOf s.roots).map ViewNode.ptr).Nodup
  /-- The next identity is new. -/
  ptr_lt : ∀ n ∈ Tree.nodesOf s.roots, n.ptr < s.next_ptr
  /-- The live nodes are those of the forest. -/
  live : ∀ p, p ∈ s.live_nodes ↔ p ∈ (Tree.nodesOf s.roots).map ViewNode.ptr
  /-- The ids of the nodes are distinct. -/
  id_nodup : ((Tree.nodesOf s.roots).map ViewNode.view_id).Nodup
  id_issued : ∀ n ∈ Tree.nodesOf s.roots, Issued env s n.view_id
  /-- Every node has a call path. -/
  call_path : ∀ n ∈ Tree.nodesOf s.roots, s.attribution.call_path_map.findD n.view_id [] ≠ []
  /-- Every node has a cell. -/
  cells : ∀ n ∈ Tree.nodesOf s.roots, (s.attribution.cells.find? n.ptr).isSome
  range_issued : ∀ id rs, s.viewnode_mem_range_map.find? id = some rs → Issued env s id
  /-- The ranges that are recorded for a node are its own range. -/
  ranges : ∀ n ∈ Tree.nodesOf s.roots, ∀ rs,
    s.viewnode_mem_range_map.find? n.view_id = some rs → rs = [ownRange n]
  /-- The nodes of the snapshot are nodes of the current inputs. -/
  snapshot : ∀ e ∈ s.torchview_memory_snapshot.toList,
    some e.2.2 ∈ s.input_viewnode_forest_ptrs.toList.map Prod.snd
  /-- A range of the snapshot starts at its node. -/
  snapshot_start : ∀ e ∈ s.torchview_memory_snapshot.toList, e.2.2 < s.next_ptr ∧
    ∀ n ∈ Tree.nodesOf s.roots, n.ptr = e.2.2 → n.data_ptr = e.1

section

variable {env : Env} {s s' : TorchView}

/-- The invariant holds at the start. -/
theorem inv_initial (env : Env) (ongpu : Bool) : Inv env (initial ongpu) where
  sorted := List.Pairwise.nil
  root_range := by simp [initial]
  node_range := by simp [initial]
  ptr_nodup := List.nodup_nil
  ptr_lt := by simp [initial]
  live := by simp [initial]
  id_nodup := List.nodup_nil
  id_issued := by simp [initial]
  call_path := by simp [initial]
  cells := by simp [initial]
  range_issued := by simp [initial]
  ranges := by simp [initial]
  snapshot := by simp [initial]
  snapshot_start := by simp [initial]

theorem Issued.mono {id : ℕ} (h : Issued env s id) (hle : s.op_ids ≤ s'.op_ids) :
    Issued env s' id := by
  obtain ⟨k, hk, rfl⟩ := h
  exact ⟨k, hk.trans_le hle, rfl⟩

/-- The invariant survives a change that leaves the forest as it is, keeps cells and call paths,
and adds no wrong ranges. -/
theorem Inv.frame (h : Inv env s) (hroots : s'.roots = s.roots)
    (hlive : s'.live_nodes = s.live_nodes) (hptr : s'.next_ptr = s.next_ptr)
    (hop : s.op_ids ≤ s'.op_ids) (hkept : Kept s.attribution s'.attribution)
    (hranges : ∀ id rs, s'.viewnode_mem_range_map.find? id = some rs →
      s.viewnode_mem_range_map.find? id = some rs ∨
        ∃ n ∈ Tree.nodesOf s.roots, n.view_id = id ∧ rs = [ownRange n])
    (hsnapshot : ∀ e ∈ s'.torchview_memory_snapshot.toList,
      some e.2.2 ∈ s'.input_viewnode_forest_ptrs.toList.map Prod.snd ∧
        (e ∈ s.torchview_memory_snapshot.toList ∨
          ∃ n ∈ Tree.nodesOf s.roots, n.ptr = e.2.2 ∧ n.data_ptr = e.1)) : Inv env s' where
  sorted := hroots ▸ h.sorted
  root_range := hroots ▸ h.root_range
  node_range := hroots ▸ h.node_range
  ptr_nodup := hroots ▸ h.ptr_nodup
  ptr_lt := by
    rw [hroots, hptr]
    exact h.ptr_lt
  live := by
    rw [hroots, hlive]
    exact h.live
  id_nodup := hroots ▸ h.id_nodup
  id_issued n hn := (h.id_issued n (hroots ▸ hn)).mono hop
  call_path n hn := hkept.call_path _ (h.call_path n (hroots ▸ hn))
  cells n hn := hkept.cells.isSome (h.cells n (hroots ▸ hn))
  range_issued id rs hrs := by
    rcases hranges id rs hrs with hold | ⟨n, hn, rfl, -⟩
    · exact (h.range_issued id rs hold).mono hop
    · exact (h.id_issued n hn).mono hop
  ranges n hn rs hrs := by
    rw [hroots] at hn
    rcases hranges _ rs hrs with hold | ⟨m, hm, hid, rfl⟩
    · exact h.ranges n hn rs hold
    · rw [List.inj_on_of_nodup_map h.id_nodup hm hn hid]
  snapshot e he := (hsnapshot e he).1
  snapshot_start e he := by
    rw [hroots, hptr]
    rcases (hsnapshot e he).2 with hold | ⟨n, hn, heq, hstart⟩
    · exact h.snapshot_start e hold
    · refine ⟨heq ▸ h.ptr_lt n hn, fun m hm hmeq => ?_⟩
      rwa [List.inj_on_of_nodup_map h.ptr_nodup hm hn (hmeq.trans heq.symm)]

/-- The invariant survives a change of the attribution and of the stacks. -/
theorem Inv.frame' (h : Inv env s) (hroots : s'.roots = s.roots)
    (hlive : s'.live_nodes = s.live_nodes) (hptr : s'.next_ptr = s.next_ptr)
    (hop : s.op_ids ≤ s'.op_ids) (hkept : Kept s.attribution s'.attribution)
    (hranges : s'.viewnode_mem_range_map = s.viewnode_mem_range_map)
    (hinputs : s'.input_viewnode_forest_ptrs = s.input_viewnode_forest_ptrs)
    (hsnapshot : s'.torchview_memory_snapshot.toList ⊆ s.torchview_memory_snapshot.toList) :
    Inv env s' := by
  refine h.frame hroots hlive hptr hop hkept (fun id rs hrs => Or.inl (hranges ▸ hrs)) ?_
  intro e he
  rw [hinputs]
  exact ⟨h.snapshot e (hsnapshot he), Or.inl (hsnapshot he)⟩

/-- The invariant survives the addition of a node with a new id, wherever it is put. -/
theorem Inv.insert {n : ViewNode} {t : TensorData} {is_sorted : Bool} {state : PyStateCTX}
    (roots : List (Tree ViewNode)) (h : Inv env s) (hptr : n.ptr = s.next_ptr)
    (hid : ¬Issued env s n.view_id) (hid' : env.update_op_id_func s.op_ids = n.view_id)
    (hs' : s' = { newNode s n t is_sorted state with op_ids := s.op_ids + 1, roots := roots })
    (hsorted : roots.Pairwise fun a b => a.root.data_ptr ≤ b.root.data_ptr)
    (hroot : ∀ r ∈ roots, r.root.mem_block_range.1 = r.root.data_ptr)
    (hnode : ∀ r ∈ roots, ∀ m ∈ r.nodes, m.mem_block_range = r.root.mem_block_range)
    (hnodes : (Tree.nodesOf roots).Perm (n :: Tree.nodesOf s.roots)) : Inv env s' := by
  have hmem : ∀ m, m ∈ Tree.nodesOf roots ↔ m = n ∨ m ∈ Tree.nodesOf s.roots := fun m => by
    rw [hnodes.mem_iff, List.mem_cons]
  -- No node of the forest has the id or the identity of the new one.
  have hfresh : ∀ m ∈ Tree.nodesOf s.roots, m.view_id ≠ n.view_id :=
    fun m hm heq => hid (heq ▸ h.id_issued m hm)
  have hnew : ∀ m ∈ Tree.nodesOf s.roots, m.ptr ≠ n.ptr := fun m hm heq =>
    absurd (h.ptr_lt m hm) (by rw [heq, hptr]; exact lt_irrefl _)
  have hop : s.op_ids ≤ s.op_ids + 1 := Nat.le_succ _
  subst hs'
  exact
    { sorted := hsorted
      root_range := hroot
      node_range := hnode
      ptr_nodup := by
        rw [(hnodes.map ViewNode.ptr).nodup_iff, List.map_cons, List.nodup_cons]
        refine ⟨fun hmem => ?_, h.ptr_nodup⟩
        obtain ⟨m, hm, heq⟩ := List.mem_map.1 hmem
        exact hnew m hm heq
      ptr_lt := by
        intro m hm
        rcases (hmem m).1 hm with rfl | hm
        · exact hptr ▸ Nat.lt_succ_self _
        · exact (h.ptr_lt m hm).trans (Nat.lt_succ_self _)
      live := by
        intro p
        rw [(hnodes.map ViewNode.ptr).mem_iff, List.map_cons, List.mem_cons, ← h.live]
        exact Finset.mem_insert
      id_nodup := by
        rw [(hnodes.map ViewNode.view_id).nodup_iff, List.map_cons, List.nodup_cons]
        refine ⟨fun hmem => ?_, h.id_nodup⟩
        obtain ⟨m, hm, heq⟩ := List.mem_map.1 hmem
        exact hfresh m hm heq
      id_issued := by
        intro m hm
        rcases (hmem m).1 hm with rfl | hm
        · exact ⟨s.op_ids, Nat.lt_succ_self _, hid'⟩
        · exact (h.id_issued m hm).mono hop
      call_path := by
        intro m hm
        simp only [newNode, OrderedMap.findD, OrderedMap.find?_set]
        rcases (hmem m).1 hm with rfl | hm
        · simp
        · rw [if_neg (hfresh m hm)]
          exact h.call_path m hm
      cells := by
        intro m hm
        simp only [newNode, OrderedMap.find?_set]
        rcases (hmem m).1 hm with rfl | hm
        · simp
        · rw [if_neg (hnew m hm)]
          exact h.cells m hm
      range_issued := fun id rs hrs => (h.range_issued id rs hrs).mono hop
      ranges := by
        intro m hm rs hrs
        rcases (hmem m).1 hm with rfl | hm
        · exact absurd (h.range_issued _ rs hrs) hid
        · exact h.ranges m hm rs hrs
      snapshot := h.snapshot
      snapshot_start := by
        intro e he
        obtain ⟨hlt, hstart⟩ := h.snapshot_start e he
        refine ⟨hlt.trans (Nat.lt_succ_self _), fun m hm heq => ?_⟩
        rcases (hmem m).1 hm with rfl | hm
        · omega
        · exact hstart m hm heq }

/-- An id that is drawn has not been issued before. -/
theorem not_issued (hinj : Function.Injective env.update_op_id_func) :
    ¬Issued env s (env.update_op_id_func s.op_ids) := by
  rintro ⟨k, hk, heq⟩
  exact hk.ne (hinj heq)

/-- The invariant survives the handling of a tensor. -/
theorem Inv.after_updateTensor (hinj : Function.Injective env.update_op_id_func) (h : Inv env s)
    {frames : List PythonState} {t : TensorData} {p : Option ℕ}
    (hstep : updateTensor env frames s t = some (p, s')) : Inv env s' := by
  have hop : s.op_ids ≤ s.op_ids + 1 := Nat.le_succ _
  have hupdated := updated_of_updateViewForest hstep
  -- The update starts after an id is drawn.
  generalize hs₁ : ({ s with op_ids := s.op_ids + 1 } : TorchView) = s₁ at hupdated
  cases hupdated with
  | found hroot hnode =>
    subst hs₁
    exact h.frame' rfl rfl rfl hop (kept_pushCallPath _ _ _) rfl rfl (List.Subset.refl _)
  | orphan hroot hnode hhead hfather =>
    subst hs₁
    exact h.frame' rfl rfl rfl hop (Kept.refl _) rfl rfl (List.Subset.refl _)
  | @view r op v n hroot hnode hhead hfather hn =>
    subst hs₁
    obtain ⟨hv, -⟩ := findFather_eq_some hfather
    have hr : r ∈ s.roots := mem_of_findRootNodeOf hroot
    have hvmem : v ∈ Tree.nodesOf s.roots := Tree.mem_nodesOf.2 ⟨r, hr, hv⟩
    have hid : n.view_id = env.update_op_id_func s.op_ids := by rw [hn]; rfl
    refine Inv.insert (n := n) (t := t) (s.roots.map (Tree.insertUnder ViewNode.ptr v.ptr n)) h
      (by rw [hn]; rfl) (hid ▸ not_issued hinj) hid.symm rfl ?_ ?_ ?_ ?_
    · rw [List.pairwise_map]
      simpa using h.sorted
    · intro r' hr'
      obtain ⟨r, hr, rfl⟩ := List.mem_map.1 hr'
      simpa using h.root_range r hr
    · intro r' hr' m hm
      obtain ⟨r₁, hr₁, rfl⟩ := List.mem_map.1 hr'
      rw [Tree.insertUnder_root]
      rcases (Tree.mem_nodes_insertUnder _ _ _ _ _).1 hm with hm | ⟨rfl, hkey⟩
      · exact h.node_range r₁ hr₁ m hm
      · -- The new node is in the tree of its father, from which it has its range.
        obtain ⟨u, hu, heq⟩ := List.mem_map.1 hkey
        have huv : u = v := List.inj_on_of_nodup_map h.ptr_nodup
          (Tree.mem_nodesOf.2 ⟨r₁, hr₁, hu⟩) hvmem heq
        rw [hn, ← h.node_range r₁ hr₁ v (huv ▸ hu)]
        rfl
    · exact Tree.nodesOf_map_insertUnder_perm _ _ _ _ h.ptr_nodup (List.mem_map_of_mem hvmem)
  | @root n hroot hn =>
    subst hs₁
    have hid : n.view_id = env.update_op_id_func s.op_ids := by rw [hn]; rfl
    have hdata : t.data_ptr = (⟨n, .nil⟩ : Tree ViewNode).root.data_ptr := by rw [hn]; rfl
    refine Inv.insert (n := n) (t := t)
      ((lowerBound s.roots t.data_ptr).1 ++ ⟨n, .nil⟩ :: (lowerBound s.roots t.data_ptr).2) h
      (by rw [hn]; rfl) (hid ▸ not_issued hinj) hid.symm rfl ?_ ?_ ?_ ?_
    · rw [hdata]
      exact sorted_insertRoot h.sorted _
    · intro r hr
      rcases mem_insertRoot.1 hr with rfl | hr
      · rw [hn]
        rfl
      · exact h.root_range r hr
    · intro r hr m hm
      rcases mem_insertRoot.1 hr with rfl | hr
      · simp only [Tree.nodes, Forest.nodes, List.mem_singleton] at hm
        rw [hm]
      · exact h.node_range r hr m hm
    · exact nodesOf_insertRoot_perm _ _ _

/-- The invariant survives the deletion of trees. -/
theorem Inv.delete {ns : List ViewNode} {roots : List (Tree ViewNode)} (h : Inv env s)
    (hsub : roots.Sublist s.roots)
    (hnodes : (Tree.nodesOf s.roots).Perm (ns ++ Tree.nodesOf roots)) (hdel : Deleted ns s s') :
    Inv env { s' with roots := roots } := by
  have hmem : ∀ m ∈ Tree.nodesOf roots, m ∈ Tree.nodesOf s.roots := fun m hm =>
    hnodes.mem_iff.2 (List.mem_append_right _ hm)
  -- The nodes that are left share no identity and no id with the deleted ones.
  obtain ⟨-, hptr, hptrs⟩ := List.nodup_append.1
    (List.map_append ▸ (hnodes.map ViewNode.ptr).nodup_iff.1 h.ptr_nodup)
  obtain ⟨-, hid, hids⟩ := List.nodup_append.1
    (List.map_append ▸ (hnodes.map ViewNode.view_id).nodup_iff.1 h.id_nodup)
  have hop : s'.op_ids = s.op_ids := by rw [hdel.frame]
  exact
    { sorted := h.sorted.sublist hsub
      root_range := fun r hr => h.root_range r (hsub.subset hr)
      node_range := fun r hr => h.node_range r (hsub.subset hr)
      ptr_nodup := hptr
      ptr_lt := fun m hm => by
        rw [hdel.frame]
        exact h.ptr_lt m (hmem m hm)
      live := fun p => by
        rw [hdel.live, h.live, (hnodes.map ViewNode.ptr).mem_iff, List.map_append, List.mem_append]
        constructor
        · rintro ⟨hin | hin, hout⟩
          · exact absurd hin hout
          · exact hin
        · exact fun hin => ⟨Or.inr hin, fun hns => hptrs p hns p hin rfl⟩
      id_nodup := hid
      id_issued := fun m hm => (h.id_issued m (hmem m hm)).mono hop.ge
      call_path := fun m hm => by
        have hout : m.view_id ∉ ns.map ViewNode.view_id :=
          fun hns => hids _ hns _ (List.mem_map_of_mem hm) rfl
        simp only [OrderedMap.findD, hdel.call_path _ hout]
        exact h.call_path m (hmem m hm)
      cells := fun m hm => by
        have hout : m.ptr ∉ ns.map ViewNode.ptr :=
          fun hns => hptrs _ hns _ (List.mem_map_of_mem hm) rfl
        simp only [hdel.cells _ hout]
        exact h.cells m (hmem m hm)
      range_issued := fun id rs hrs => (h.range_issued id rs (hdel.ranges id rs hrs)).mono hop.ge
      ranges := fun m hm rs hrs => h.ranges m (hmem m hm) rs (hdel.ranges _ rs hrs)
      snapshot := by
        rw [hdel.frame]
        exact h.snapshot
      snapshot_start := by
        rw [hdel.frame]
        intro e he
        obtain ⟨hlt, hstart⟩ := h.snapshot_start e he
        exact ⟨hlt, fun m hm => hstart m (hmem m hm)⟩ }

/-- The roots are those that are deleted and those that are left. -/
theorem roots_perm_removed (roots : List (Tree ViewNode)) (mem_start_addr stop : ℕ) :
    roots.Perm (removedRoots roots mem_start_addr stop ++
      ((lowerBound roots mem_start_addr).1 ++
        keptAbove mem_start_addr stop (lowerBound roots mem_start_addr).2)) := by
  -- From the lower bound on, the reached roots are those that are deleted and those that start
  -- before the pointer.
  have habove : ∀ rs : List (Tree ViewNode), rs.Perm
      ((reachedRoots stop rs).filter (fun r => mem_start_addr ≤ r.root.mem_block_range.1) ++
        keptAbove mem_start_addr stop rs) := by
    intro rs
    unfold keptAbove
    rw [← List.append_assoc]
    nth_rewrite 1 [← List.takeWhile_append_dropWhile (p := fun r : Tree ViewNode =>
      decide (r.root.mem_block_range.2 ≤ stop)) (l := rs)]
    refine List.Perm.append_right _ ?_
    change (reachedRoots stop rs).Perm _
    simpa only [decide_not] using (List.filter_append_perm
      (fun r : Tree ViewNode => decide (mem_start_addr ≤ r.root.mem_block_range.1))
      (reachedRoots stop rs)).symm
  refine (List.Perm.of_eq (lowerBound_append roots mem_start_addr).symm).trans ?_
  refine ((habove _).append_left _).trans ?_
  rw [← List.append_assoc, ← List.append_assoc]
  exact List.perm_append_comm.append_right _

/-- The nodes of the roots that are left are not among those that are removed. -/
theorem ptr_notMem_removed {roots : List (Tree ViewNode)} {mem_start_addr stop : ℕ}
    (hnodup : ((Tree.nodesOf roots).map ViewNode.ptr).Nodup) {n : ViewNode}
    (hn : n ∈ Tree.nodesOf ((lowerBound roots mem_start_addr).1 ++
      keptAbove mem_start_addr stop (lowerBound roots mem_start_addr).2)) :
    n.ptr ∉ (Tree.nodesOf (removedRoots roots mem_start_addr stop)).map ViewNode.ptr := by
  have hsplit := (((roots_perm_removed roots mem_start_addr stop).flatMap_right
    Tree.nodes).map ViewNode.ptr).nodup_iff.1 hnodup
  rw [List.flatMap_append, List.map_append, List.nodup_append] at hsplit
  exact fun hin => hsplit.2.2 _ hin _ (List.mem_map_of_mem hn) rfl

/-- The invariant survives `delete_forest_tree`. -/
theorem Inv.after_deleteForestTree {mem_start_addr total_allocated : ℕ} (h : Inv env s)
    (hstep : deleteForestTree s mem_start_addr total_allocated = some s') : Inv env s' := by
  obtain ⟨s₁, hdel, rfl⟩ := deleteForestTree_eq_some rfl hstep
  generalize u64 (mem_start_addr + total_allocated) = stop at hdel
  have hdrop : Inv env (dropSnapshot s mem_start_addr stop) := by
    refine h.frame' rfl rfl rfl le_rfl (Kept.refl _) rfl rfl fun e he => ?_
    exact ((OrderedMap.mem_filter _ _ _).1 he).1
  refine hdrop.delete (roots_sublist s.roots mem_start_addr stop) ?_ hdel
  rw [← Tree.nodesOf_append]
  exact (roots_perm_removed s.roots mem_start_addr stop).flatMap_right _

/-- The invariant survives a turn of the loop of ENTER, during which nothing is in the snapshot. -/
theorem Inv.after_enterInput (hinj : Function.Injective env.update_op_id_func)
    {frames : List PythonState} {input : TensorData × ℕ} (h : Inv env s)
    (hempty : s.torchview_memory_snapshot = ∅)
    (hstep : enterInput env frames s input = some s') :
    Inv env s' ∧ s'.torchview_memory_snapshot = ∅ := by
  unfold enterInput at hstep
  split_ifs at hstep
  · cases hstep
    refine ⟨h.frame rfl rfl rfl le_rfl (Kept.refl _) (fun _ _ => Or.inl) ?_, hempty⟩
    simp [hempty]
  · obtain ⟨⟨p, s₁⟩, h₁, rfl⟩ := Option.map_eq_some_iff.1 hstep
    have hsnap : s₁.torchview_memory_snapshot = ∅ := by
      rw [← hempty]
      exact (updated_of_updateViewForest h₁).frame.2.2.2.1
    refine ⟨(h.after_updateTensor hinj h₁).frame rfl rfl rfl le_rfl (Kept.refl _)
      (fun _ _ => Or.inl) ?_, hsnap⟩
    simp [hsnap]

/-- What `updata_torchview_memory_snapshot` does for a node with dimensions. -/
theorem updataTorchviewMemorySnapshot_of_dims {ptr : ℕ} {n : ViewNode} {c : NodeCell}
    (hn : deref s.roots ptr = some n) (hc : s.attribution.cells.find? ptr = some c)
    (hdims : c.dims ≠ []) (h : updataTorchviewMemorySnapshot s (some ptr) = some s') :
    s' = { s with
      attribution := { s.attribution with cells := s.attribution.cells.set ptr c.sort }
      viewnode_mem_range_map := s.viewnode_mem_range_map.set n.view_id (rangesOf s n c.sort.dims)
      torchview_memory_snapshot :=
        (rangesOf s n c.sort.dims).foldl (insertSnapshot ptr) s.torchview_memory_snapshot } := by
  simp only [updataTorchviewMemorySnapshot, hn, hc, if_neg hdims] at h
  split_ifs at h
  exact (Option.some.inj h).symm

/-- `updata_torchview_memory_snapshot` only has an effect for a node with dimensions. -/
theorem updataTorchviewMemorySnapshot_eq_some {p : Option ℕ}
    (h : updataTorchviewMemorySnapshot s p = some s') :
    s' = s ∨ ∃ ptr n c, p = some ptr ∧ deref s.roots ptr = some n ∧
      s.attribution.cells.find? ptr = some c ∧ c.dims ≠ [] := by
  cases p with
  | none => exact Or.inl (Option.some.inj h).symm
  | some ptr =>
    unfold updataTorchviewMemorySnapshot at h
    cases hn : deref s.roots ptr with
    | none => simp [hn] at h
    | some n =>
      cases hc : s.attribution.cells.find? ptr with
      | none => simp [hn, hc] at h
      | some c =>
        simp only [hn, hc] at h
        split_ifs at h with hdims
        · exact Or.inl (Option.some.inj h).symm
        · exact Or.inr ⟨ptr, n, c, rfl, hn, hc, hdims⟩

/-- A pointer that can be read is that of a node of the forest. -/
theorem deref_eq_some {roots : List (Tree ViewNode)} {ptr : ℕ} {n : ViewNode}
    (h : deref roots ptr = some n) : n ∈ Tree.nodesOf roots ∧ n.ptr = ptr :=
  ⟨List.mem_of_find?_eq_some h, by simpa using List.find?_some h⟩

/-- A node of the forest is what its pointer points to. -/
theorem Inv.deref_eq (h : Inv env s) {n : ViewNode} (hn : n ∈ Tree.nodesOf s.roots) :
    deref s.roots n.ptr = some n := by
  have hsome : (deref s.roots n.ptr).isSome :=
    List.find?_isSome.2 ⟨n, hn, by simp⟩
  obtain ⟨m, hm⟩ := Option.isSome_iff_exists.1 hsome
  obtain ⟨hmem, hptr⟩ := deref_eq_some hm
  rw [hm, List.inj_on_of_nodup_map h.ptr_nodup hn hmem hptr.symm]

/-- The loop of `updata_torchview_memory_snapshot` leaves `last_ele` at the first element. -/
theorem lastEle_eq (data_ptr : ℕ) (dims : List Dim) : lastEle data_ptr dims = data_ptr := by
  induction dims with
  | nil => rfl
  | cons d dims ih => exact ih

/-- The range that is recorded for a node of the forest is its own. -/
theorem Inv.rangesOf_eq (h : Inv env s) {n : ViewNode} (hn : n ∈ Tree.nodesOf s.roots)
    (dims : List Dim) : rangesOf s n dims = [ownRange n] := by
  unfold rangesOf
  cases hrs : s.viewnode_mem_range_map.find? n.view_id with
  | some rs => exact h.ranges n hn rs hrs
  | none => simp only [lastEle_eq, ownRange]

/-- The invariant survives an update of the snapshot for a current input. -/
theorem Inv.after_updataTorchviewMemorySnapshot (h : Inv env s) {p : Option ℕ}
    (hp : p ∈ s.input_viewnode_forest_ptrs.toList.map Prod.snd)
    (hstep : updataTorchviewMemorySnapshot s p = some s') :
    Inv env s' ∧ s'.input_viewnode_forest_ptrs = s.input_viewnode_forest_ptrs := by
  rcases updataTorchviewMemorySnapshot_eq_some hstep with
    rfl | ⟨ptr, n, c, rfl, hn, hc, hdims⟩
  · exact ⟨h, rfl⟩
  · obtain rfl := updataTorchviewMemorySnapshot_of_dims hn hc hdims hstep
    obtain ⟨hmem, hptr⟩ := deref_eq_some hn
    have hkept : CellsKept s.attribution.cells (s.attribution.cells.set ptr c.sort) :=
      CellsKept.set hc (by rw [NodeCell.sort_sort])
    -- The node's own range is recorded, in both maps.
    refine ⟨h.frame rfl rfl rfl le_rfl ⟨hkept, fun _ h => h⟩ ?_ ?_, rfl⟩
    · intro id rs hrs
      rw [OrderedMap.find?_set] at hrs
      split_ifs at hrs with hid
      · exact Or.inr ⟨n, hmem, hid.symm, by rw [← Option.some.inj hrs, h.rangesOf_eq hmem]⟩
      · exact Or.inl hrs
    · intro e he
      simp only [h.rangesOf_eq hmem, List.foldl_cons, List.foldl_nil, insertSnapshot,
        OrderedMap.mem_set] at he
      rcases he with rfl | ⟨he, -⟩
      · exact ⟨hp, Or.inr ⟨n, hmem, hptr, rfl⟩⟩
      · exact ⟨h.snapshot e he, Or.inl he⟩

/-- The invariant holds after the loop over the outputs and the pop. -/
theorem Inv.after_exitOutputs (hinj : Function.Injective env.update_op_id_func) (h : Inv env s)
    {frames : List PythonState} {outputs : List TensorData}
    (hloop : outputs.foldlM (exitOutput env frames) s = some s') : Inv env (popOp s') := by
  have hinv : Inv env s' := by
    refine foldlM_invariant (I := Inv env) (fun s t s' hs _ hstep => ?_) h hloop
    unfold exitOutput at hstep
    split_ifs at hstep
    · cases hstep
      exact hs
    · obtain ⟨⟨p, s₁⟩, h₁, rfl⟩ := Option.map_eq_some_iff.1 hstep
      exact hs.after_updateTensor hinj h₁
  exact hinv.frame' rfl rfl rfl le_rfl (Kept.refl _) rfl rfl (List.nil_subset _)

/-- The invariant holds at ENTER before the loop over the inputs. -/
theorem Inv.after_pushOp (h : Inv env s) (op : OpData) : Inv env (pushOp s op) :=
  h.frame rfl rfl rfl le_rfl (Kept.refl _) (fun _ _ => Or.inl) (by simp [pushOp])

/-- The invariant survives every event. -/
theorem Inv.after_step (hinj : Function.Injective env.update_op_id_func) (h : Inv env s) {e : Event}
    (hstep : step env s e = some s') : Inv env s' := by
  have hattribution : ∀ a, Kept s.attribution a → Inv env { s with attribution := a } :=
    fun a ha => h.frame' rfl rfl rfl le_rfl ha rfl rfl (List.Subset.refl _)
  cases e with
  | enter op frames =>
    -- The snapshot is emptied first, and the loop over the inputs keeps it empty.
    exact (foldlM_invariant (I := fun s => Inv env s ∧ s.torchview_memory_snapshot = ∅)
      (fun _ _ _ hs _ hstep => hs.1.after_enterInput hinj hs.2 hstep)
      ⟨h.after_pushOp op, rfl⟩ hstep).1
  | exit op frames =>
    obtain ⟨s₁, h₁, hstep⟩ := Option.bind_eq_some_iff.1 hstep
    obtain ⟨a, ha, rfl⟩ := Option.map_eq_some_iff.1 hstep
    -- Without an operation on the stack only the delayed accesses are mapped.
    have hinv₁ : Inv env s₁ := by
      split_ifs at h₁
      · cases h₁
        exact h
      · obtain ⟨s₂, h₂, rfl⟩ := Option.map_eq_some_iff.1 h₁
        exact h.after_exitOutputs hinj h₂
    exact hinv₁.frame' rfl rfl rfl le_rfl (kept_mapDelayedAccess ha) rfl rfl (List.Subset.refl _)
  | alloc mem =>
    cases hstep
    exact h.frame' rfl rfl rfl (Nat.le_succ _) (Kept.refl _) rfl rfl (List.Subset.refl _)
  | free mem =>
    obtain ⟨s₁, h₁, rfl⟩ := Option.map_eq_some_iff.1 hstep
    have hinv₁ := h.after_deleteForestTree h₁
    exact hinv₁.frame' rfl rfl rfl le_rfl (Kept.refl _) rfl rfl (List.Subset.refl _)
  | getRangeSize =>
    simp only [step, getRangeSize] at hstep
    split_ifs at hstep
    · -- The loop does not change the inputs that it goes over.
      refine (foldlM_invariant (I := fun s₁ => Inv env s₁ ∧
        s₁.input_viewnode_forest_ptrs = s.input_viewnode_forest_ptrs)
        (fun s₁ e s₂ hs he hstep => ?_) ⟨h, rfl⟩ hstep).1
      have hp : e.2 ∈ s₁.input_viewnode_forest_ptrs.toList.map Prod.snd := by
        rw [hs.2]
        exact List.mem_map_of_mem he
      obtain ⟨hinv, hsame⟩ := hs.1.after_updataTorchviewMemorySnapshot hp hstep
      exact ⟨hinv, hsame.trans hs.2⟩
    · cases hstep
      exact h
  | analysisBegin dict =>
    cases hstep
    exact hattribution _ (kept_analysisBegin s dict)
  | unitAccess pc addr flags =>
    obtain ⟨a, ha, rfl⟩ := Option.map_eq_some_iff.1 hstep
    exact hattribution a (kept_unitAccess ha)
  | kernelOp ctx_id frames =>
    obtain ⟨a, ha, rfl⟩ := Option.map_eq_some_iff.1 hstep
    exact hattribution a (kept_kernelOpCallback ha)
  | analysisEnd =>
    cases hstep
    exact hattribution _ (kept_analysisEnd _)

/-- The invariant holds in every reachable state, when ids are never issued twice. -/
theorem inv_of_reachable (hinj : Function.Injective env.update_op_id_func)
    (h : Reachable env s) : Inv env s := by
  obtain ⟨ongpu, es, hrun⟩ := h
  exact run_invariant' (fun _ _ _ hs hstep => hs.after_step hinj hstep) (inv_initial env ongpu) hrun

end

end TenProf.TorchView
