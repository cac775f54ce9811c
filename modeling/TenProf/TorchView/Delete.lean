import TenProf.TorchView.Update

/-!
# What a deletion does

`delete_forest_tree` keeps the roots below the lower bound of the freed pointer. Of the others it
walks the prefix of those that end inside the interval (`reachedRoots`) and deletes the ones among
them that start behind the pointer (`removedRoots`). Everything that a deletion does to the rest of
the state is said by `Deleted`: the nodes' cells, call paths and ranges may go, and nothing else
changes.
-/

namespace TenProf.TorchView

/-- The roots that the loop of `delete_forest_tree` reaches before it breaks. -/
def reachedRoots (stop : ℕ) (rs : List (Tree ViewNode)) : List (Tree ViewNode) :=
  rs.takeWhile fun r => r.root.mem_block_range.2 ≤ stop

/-- The roots that `delete_forest_tree` deletes. -/
def removedRoots (roots : List (Tree ViewNode)) (mem_start_addr stop : ℕ) :
    List (Tree ViewNode) :=
  (reachedRoots stop (lowerBound roots mem_start_addr).2).filter fun r =>
    mem_start_addr ≤ r.root.mem_block_range.1

/-- The roots that the loop of `delete_forest_tree` leaves of those from the lower bound on. -/
def keptAbove (mem_start_addr stop : ℕ) (rs : List (Tree ViewNode)) : List (Tree ViewNode) :=
  (reachedRoots stop rs).filter (fun r => ¬mem_start_addr ≤ r.root.mem_block_range.1) ++
    rs.dropWhile fun r => r.root.mem_block_range.2 ≤ stop

/-- What is left of the roots stands in the same order. -/
theorem keptAbove_sublist (mem_start_addr stop : ℕ) (rs : List (Tree ViewNode)) :
    (keptAbove mem_start_addr stop rs).Sublist rs := by
  unfold keptAbove
  nth_rewrite 3 [← List.takeWhile_append_dropWhile (p := fun r : Tree ViewNode =>
    decide (r.root.mem_block_range.2 ≤ stop)) (l := rs)]
  exact List.filter_sublist.append_right _

/-- When no root that is reached starts before the pointer, those that are left are the others. -/
theorem keptAbove_eq_dropWhile {mem_start_addr stop : ℕ} {rs : List (Tree ViewNode)}
    (hfrom : ∀ r ∈ reachedRoots stop rs, mem_start_addr ≤ r.root.mem_block_range.1) :
    keptAbove mem_start_addr stop rs =
      rs.dropWhile fun r => r.root.mem_block_range.2 ≤ stop := by
  unfold keptAbove
  rw [List.filter_eq_nil_iff.2 fun r hr => by simpa using hfrom r hr, List.nil_append]

/-- The roots after a deletion stand in the order in which they stood. -/
theorem roots_sublist (roots : List (Tree ViewNode)) (mem_start_addr stop : ℕ) :
    ((lowerBound roots mem_start_addr).1 ++
      keptAbove mem_start_addr stop (lowerBound roots mem_start_addr).2).Sublist roots := by
  have hkept := keptAbove_sublist mem_start_addr stop (lowerBound roots mem_start_addr).2
  have hsub := hkept.append_left (lowerBound roots mem_start_addr).1
  rwa [lowerBound_append] at hsub

/-- What the deletion of a list of nodes does outside the forest. -/
structure Deleted (ns : List ViewNode) (s s' : TorchView) : Prop where
  /-- Only these members change. -/
  frame : s' = { s with
    live_nodes := s'.live_nodes
    viewnode_mem_range_map := s'.viewnode_mem_range_map
    attribution := { s.attribution with
      cells := s'.attribution.cells
      call_path_map := s'.attribution.call_path_map } }
  /-- The nodes are no longer live, and the others are as they were. -/
  live : ∀ p, p ∈ s'.live_nodes ↔ p ∈ s.live_nodes ∧ p ∉ ns.map ViewNode.ptr
  /-- The other nodes' cells are as they were. -/
  cells : ∀ p, p ∉ ns.map ViewNode.ptr →
    s'.attribution.cells.find? p = s.attribution.cells.find? p
  /-- The call paths of other ids are as they were. -/
  call_path : ∀ id, id ∉ ns.map ViewNode.view_id →
    s'.attribution.call_path_map.find? id = s.attribution.call_path_map.find? id
  /-- Ranges are only erased. -/
  ranges : ∀ id rs, s'.viewnode_mem_range_map.find? id = some rs →
    s.viewnode_mem_range_map.find? id = some rs

theorem Deleted.refl (s : TorchView) : Deleted [] s s where
  frame := rfl
  live p := by simp
  cells p _ := rfl
  call_path id _ := rfl
  ranges id rs h := h

/-- Two deletions in a row delete the nodes of both. -/
theorem Deleted.trans {ns ms : List ViewNode} {s₁ s₂ s₃ : TorchView} (h₁ : Deleted ns s₁ s₂)
    (h₂ : Deleted ms s₂ s₃) : Deleted (ns ++ ms) s₁ s₃ where
  frame := by
    rw [h₂.frame, h₁.frame]
  live p := by
    rw [h₂.live, h₁.live, List.map_append, List.mem_append, not_or, and_assoc]
  cells p hp := by
    rw [List.map_append, List.mem_append, not_or] at hp
    rw [h₂.cells p hp.2, h₁.cells p hp.1]
  call_path id hid := by
    rw [List.map_append, List.mem_append, not_or] at hid
    rw [h₂.call_path id hid.2, h₁.call_path id hid.1]
  ranges id rs h := h₁.ranges id rs (h₂.ranges id rs h)

/-- `delete` of a list of nodes. -/
theorem deleted_deleteNodes (s : TorchView) (ns : List ViewNode) :
    Deleted ns s (deleteNodes s ns) := by
  induction ns generalizing s with
  | nil => exact Deleted.refl s
  | cons n ns ih =>
    have hone : Deleted [n] s { s with
        live_nodes := s.live_nodes.erase n.ptr
        attribution := { s.attribution with cells := s.attribution.cells.erase n.ptr } } :=
      { frame := rfl
        live := fun p => by simp [and_comm]
        cells := fun p hp => OrderedMap.find?_erase_of_ne _ (by simpa using hp)
        call_path := fun id _ => rfl
        ranges := fun id rs h => h }
    exact hone.trans (ih _)

/-- Erasing the ranges of a list of nodes leaves ranges that were there. -/
theorem find?_foldl_erase {m : OrderedMap ℕ (List MemoryRange)} {ns : List ViewNode} {id : ℕ}
    {rs : List MemoryRange} (h : (ns.foldl (fun m n => m.erase n.view_id) m).find? id = some rs) :
    m.find? id = some rs := by
  induction ns generalizing m with
  | nil => exact h
  | cons n ns ih =>
    have h' := ih h
    rw [OrderedMap.find?_erase] at h'
    split_ifs at h'
    exact h'

/-- The deletion of a tree deletes its nodes. -/
theorem deleted_deleteTree {s s' : TorchView} {r : Tree ViewNode} (h : deleteTree s r = some s') :
    Deleted r.nodes s s' := by
  -- Whatever the branch, ranges and call paths go first, the nodes after them.
  have herase : Deleted r.nodes s (deleteNodes (eraseRanges s r.nodes) r.nodes) := by
    have hranges : Deleted [] s (eraseRanges s r.nodes) :=
      { frame := rfl
        live := fun p => by simp [eraseRanges]
        cells := fun _ _ => rfl
        call_path := fun _ _ => rfl
        ranges := fun id rs h => find?_foldl_erase h }
    exact hranges.trans (deleted_deleteNodes _ r.nodes)
  unfold deleteTree at h
  split_ifs at h with hleaf
  · cases hstates : s.attribution.call_path_map.findD r.root.view_id [] with
    | nil => simp [hstates] at h
    | cons c cs =>
      simp only [hstates] at h
      split_ifs at h
      · -- A root without children and without an attributed access: its call path goes too.
        cases h
        have hnodes : r.nodes = [r.root] := by simp [Tree.nodes, hleaf.1, Forest.nodes]
        rw [hnodes]
        have hdead := deleted_deleteNodes { s with attribution := { s.attribution with
          call_path_map := s.attribution.call_path_map.erase r.root.view_id } } [r.root]
        refine ⟨hdead.frame, hdead.live, hdead.cells, fun id hid => ?_, hdead.ranges⟩
        rw [hdead.call_path id hid]
        exact OrderedMap.find?_erase_of_ne _ (by simpa using hid)
      · cases h
        exact herase
  · cases h
    exact herase

/-- A root with a call path can be deleted. -/
theorem deleteTree_isSome {s : TorchView} {r : Tree ViewNode}
    (h : s.attribution.call_path_map.findD r.root.view_id [] ≠ []) : (deleteTree s r).isSome := by
  unfold deleteTree
  cases hstates : s.attribution.call_path_map.findD r.root.view_id [] with
  | nil => exact absurd hstates h
  | cons c cs => simp only; split_ifs <;> rfl

/-- The loop deletes the reached roots that start behind the pointer, and leaves the others. -/
theorem deleteLoop_eq (mem_start_addr stop : ℕ) (rs : List (Tree ViewNode)) (s : TorchView) :
    deleteLoop mem_start_addr stop rs s =
      (((reachedRoots stop rs).filter fun r =>
        mem_start_addr ≤ r.root.mem_block_range.1).foldlM deleteTree s).map fun s' =>
          (keptAbove mem_start_addr stop rs, s') := by
  induction rs generalizing s with
  | nil => rfl
  | cons r rs ih =>
    unfold deleteLoop
    split_ifs with hstop hstart
    · -- The loop breaks: this root and those behind it are left.
      have hreach : ¬r.root.mem_block_range.2 ≤ stop := not_le.2 hstop
      simp [reachedRoots, keptAbove, hreach]
    · -- The root is deleted.
      have hreach : r.root.mem_block_range.2 ≤ stop := not_lt.1 hstop
      simp only [ih, reachedRoots, keptAbove, List.takeWhile_cons, List.dropWhile_cons, hreach,
        decide_true, if_true, List.filter_cons, hstart, not_true_eq_false, decide_false,
        Bool.false_eq_true, if_false, List.foldlM_cons]
      cases deleteTree s r <;> rfl
    · -- The root starts before the pointer and is left.
      have hreach : r.root.mem_block_range.2 ≤ stop := not_lt.1 hstop
      simp only [ih, reachedRoots, keptAbove, List.takeWhile_cons, List.dropWhile_cons, hreach,
        decide_true, if_true, List.filter_cons, hstart, not_false_eq_true, decide_false,
        Bool.false_eq_true, if_false, Option.map_map]
      rfl

/-- A fold of tree deletions deletes the nodes of all the trees. -/
theorem deleted_foldlM {rs : List (Tree ViewNode)} {s s' : TorchView}
    (h : rs.foldlM deleteTree s = some s') : Deleted (Tree.nodesOf rs) s s' := by
  induction rs generalizing s with
  | nil =>
    cases h
    exact Deleted.refl _
  | cons r rs ih =>
    obtain ⟨s₁, h₁, h⟩ := Option.bind_eq_some_iff.1 h
    rw [Tree.nodesOf_cons]
    exact (deleted_deleteTree h₁).trans (ih h)

/-- The state in which the loop of `delete_forest_tree` starts: the snapshot entries that start in
the interval are gone. -/
def dropSnapshot (s : TorchView) (mem_start_addr stop : ℕ) : TorchView :=
  { s with torchview_memory_snapshot :=
      s.torchview_memory_snapshot.filter fun e => ¬(mem_start_addr ≤ e.1 ∧ e.1 ≤ stop) }

/-- What `delete_forest_tree` does. -/
theorem deleteForestTree_eq_some {s s' : TorchView} {mem_start_addr total_allocated stop : ℕ}
    (hstop : stop = u64 (mem_start_addr + total_allocated))
    (h : deleteForestTree s mem_start_addr total_allocated = some s') :
    ∃ s₁, Deleted (Tree.nodesOf (removedRoots s.roots mem_start_addr stop))
        (dropSnapshot s mem_start_addr stop) s₁ ∧
      s' = { s₁ with
        roots := (lowerBound s.roots mem_start_addr).1 ++
          keptAbove mem_start_addr stop (lowerBound s.roots mem_start_addr).2 } := by
  simp only [deleteForestTree, ← hstop, deleteLoop_eq, Option.map_map, Option.map_eq_some_iff] at h
  obtain ⟨s₁, h₁, rfl⟩ := h
  exact ⟨s₁, deleted_foldlM h₁, rfl⟩

end TenProf.TorchView
