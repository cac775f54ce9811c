import TenProf.TorchView.Invariant

/-!
# What a FREE deletes

`torch_view_callback` passes `total_allocated`, the device-wide running total, to
`delete_forest_tree` as the length of the freed block, where `torch_memory_callback` uses `size`.
A FREE therefore deletes the roots from the freed pointer on up to the first that ends behind
`ptr + total_allocated` (`onFree_eq_some`). These are the trees of the freed block exactly when a
root from the pointer on lies in `[ptr, ptr + size)` if and only if neither it nor a root before it
ends behind `ptr + total_allocated` (`freedExactly_iff`).
-/

namespace TenProf.TorchView

/-- A prefix that is dropped is what a filter takes away exactly when the filter rejects the
elements of the prefix and no others. -/
theorem dropWhile_eq_filter_iff {α : Type*} (p q : α → Bool) (l : List α) :
    l.dropWhile p = l.filter q ↔
      ∀ i (hi : i < l.length), q l[i] = false ↔ ∀ j (hj : j ≤ i), p l[j] = true := by
  induction l with
  | nil => simp
  | cons a l ih =>
    cases hp : p a with
    | true =>
      rw [List.dropWhile_cons_of_pos hp]
      cases hq : q a with
      | true =>
        -- The filter keeps an element of the prefix.
        refine iff_of_false (fun h => ?_) (fun h => ?_)
        · rw [List.filter_cons_of_pos hq] at h
          have hhead := List.head?_dropWhile_not p l
          rw [h, List.head?_cons] at hhead
          simp [hp] at hhead
        · have h0 := (h 0 (by simp)).2 fun j hj => by simpa [Nat.le_zero.1 hj] using hp
          simp [hq] at h0
      | false =>
        -- The first element goes either way; positions in the rest move by one.
        rw [List.filter_cons_of_neg (by simp [hq]), ih]
        constructor
        · intro h i hi
          cases i with
          | zero =>
            refine iff_of_true hq fun j hj => ?_
            simpa [Nat.le_zero.1 hj] using hp
          | succ i =>
            refine (h i (by simpa using hi)).trans ⟨fun h j hj => ?_, fun h j hj => ?_⟩
            · cases j with
              | zero => exact hp
              | succ j => exact h j (by omega)
            · exact h (j + 1) (by omega)
        · intro h i hi
          refine (h (i + 1) (by simpa using hi)).trans ⟨fun h j hj => ?_, fun h j hj => ?_⟩
          · exact h (j + 1) (by omega)
          · cases j with
            | zero => exact hp
            | succ j => exact h j (by omega)
    | false =>
      -- Nothing is dropped, so the filter has to keep everything.
      rw [List.dropWhile_cons_of_neg (by simp [hp]), eq_comm, List.filter_eq_self]
      constructor
      · intro h i hi
        refine iff_of_false (by simp [h _ (List.getElem_mem hi)]) fun hall => ?_
        have h0 := hall 0 (Nat.zero_le i)
        simp [hp] at h0
      · intro h b hb
        obtain ⟨i, hi, rfl⟩ := List.getElem_of_mem hb
        by_contra hq
        have h0 := (h i hi).1 (by simpa using hq) 0 (Nat.zero_le i)
        simp [hp] at h0

/-- The address up to which a FREE deletes. -/
def stopOf (mem : MemData) : ℕ := u64 (mem.ptr + u64OfInt mem.total_allocated)

/-- The roots from the freed pointer on. -/
def rootsFrom (s : TorchView) (ptr : ℕ) : List (Tree ViewNode) := (lowerBound s.roots ptr).2

/-- A root's range lies inside the freed block. -/
def InsideBlock (mem : MemData) (r : Tree ViewNode) : Prop :=
  mem.ptr ≤ r.root.mem_block_range.1 ∧ r.root.mem_block_range.2 ≤ mem.ptr + mem.size

instance (mem : MemData) (r : Tree ViewNode) : Decidable (InsideBlock mem r) :=
  inferInstanceAs (Decidable (_ ∧ _))

variable {env : Env} {s s' : TorchView}

/-- The roots from a pointer on have ranges from the pointer on. -/
theorem Inv.le_of_mem_rootsFrom (h : Inv env s) {ptr : ℕ} {r : Tree ViewNode}
    (hr : r ∈ rootsFrom s ptr) : ptr ≤ r.root.mem_block_range.1 := by
  have hmem : r ∈ s.roots := by
    rw [← lowerBound_append s.roots ptr]
    exact List.mem_append_right _ hr
  rw [h.root_range r hmem]
  exact le_of_mem_lowerBound h.sorted hr

/-- The deletion of the trees of a forest with distinct ids and call paths has a result. -/
theorem deleteTrees_isSome {rs : List (Tree ViewNode)}
    (hnodup : ((Tree.nodesOf rs).map ViewNode.view_id).Nodup)
    (hpath : ∀ r ∈ rs, s.attribution.call_path_map.findD r.root.view_id [] ≠ []) :
    (rs.foldlM deleteTree s).isSome := by
  induction rs generalizing s with
  | nil => rfl
  | cons r rs ih =>
    obtain ⟨s₁, h₁⟩ := Option.isSome_iff_exists.1 (deleteTree_isSome (hpath r List.mem_cons_self))
    rw [Tree.nodesOf_cons, List.map_append, List.nodup_append] at hnodup
    rw [List.foldlM_cons, h₁]
    -- The deletion of the first tree leaves the call paths of the others.
    refine ih hnodup.2.1 fun r' hr' => ?_
    have hout : r'.root.view_id ∉ r.nodes.map ViewNode.view_id := fun hin =>
      hnodup.2.2 _ hin _ (List.mem_map_of_mem
        (Tree.mem_nodesOf.2 ⟨r', hr', r'.root_mem_nodes⟩)) rfl
    simp only [OrderedMap.findD, (deleted_deleteTree h₁).call_path _ hout]
    exact hpath r' (List.mem_cons_of_mem _ hr')

/-- A FREE has a result in every state with the invariant. -/
theorem Inv.onFree_isSome (h : Inv env s) (mem : MemData) : (onFree s mem).isSome := by
  have hperm := roots_perm_removed s.roots mem.ptr (stopOf mem)
  have hnodup : ((Tree.nodesOf (removedRoots s.roots mem.ptr (stopOf mem))).map
      ViewNode.view_id).Nodup := by
    have hall := ((hperm.flatMap_right Tree.nodes).map ViewNode.view_id).nodup_iff.1 h.id_nodup
    rw [List.flatMap_append, List.map_append, List.nodup_append] at hall
    exact hall.1
  have hsome : ((removedRoots s.roots mem.ptr (stopOf mem)).foldlM deleteTree
      (dropSnapshot s mem.ptr (stopOf mem))).isSome := by
    refine deleteTrees_isSome hnodup fun r hr => ?_
    have hmem : r ∈ s.roots := hperm.mem_iff.2 (List.mem_append_left _ hr)
    exact h.call_path _ (Tree.mem_nodesOf.2 ⟨r, hmem, r.root_mem_nodes⟩)
  simp only [onFree, deleteForestTree, deleteLoop_eq, Option.isSome_map]
  exact hsome

/-- What a FREE does: it deletes the roots from the pointer on that it reaches. -/
theorem Inv.onFree_eq_some (h : Inv env s) {mem : MemData} (hstep : onFree s mem = some s') :
    s'.roots = (lowerBound s.roots mem.ptr).1 ++
        (rootsFrom s mem.ptr).dropWhile (fun r => r.root.mem_block_range.2 ≤ stopOf mem) ∧
      (∀ p, p ∈ s'.live_nodes ↔ p ∈ s.live_nodes ∧
        p ∉ (Tree.nodesOf (reachedRoots (stopOf mem) (rootsFrom s mem.ptr))).map ViewNode.ptr) ∧
      (∀ n ∈ Tree.nodesOf s'.roots,
        s'.attribution.cells.find? n.ptr = s.attribution.cells.find? n.ptr) ∧
      s'.input_viewnode_forest_ptrs = s.input_viewnode_forest_ptrs := by
  obtain ⟨s₁, h₁, rfl⟩ := Option.map_eq_some_iff.1 hstep
  obtain ⟨s₂, hdel, rfl⟩ := deleteForestTree_eq_some rfl h₁
  -- Every root that is reached starts at the pointer or behind it, so it is deleted.
  have hfrom : ∀ r ∈ reachedRoots (stopOf mem) (rootsFrom s mem.ptr),
      mem.ptr ≤ r.root.mem_block_range.1 := fun r hr =>
    h.le_of_mem_rootsFrom (List.takeWhile_subset _ hr)
  have hremoved : removedRoots s.roots mem.ptr (stopOf mem) =
      reachedRoots (stopOf mem) (rootsFrom s mem.ptr) :=
    List.filter_eq_self.2 fun r hr => decide_eq_true (hfrom r hr)
  refine ⟨congrArg _ (keptAbove_eq_dropWhile hfrom), fun p => ?_, fun n hn => ?_, ?_⟩
  · rw [← hremoved]
    exact hdel.live p
  · exact hdel.cells _ (ptr_notMem_removed h.ptr_nodup hn)
  · change s₂.input_viewnode_forest_ptrs = _
    rw [hdel.frame]
    rfl

/-- The trees of the freed block are gone, and every other tree is there as it was: in its place,
with its nodes and their cells. -/
structure FreedExactly (s s' : TorchView) (mem : MemData) : Prop where
  roots : s'.roots = s.roots.filter fun r => ¬InsideBlock mem r
  cells : ∀ n ∈ Tree.nodesOf s'.roots,
    s'.attribution.cells.find? n.ptr = s.attribution.cells.find? n.ptr

/-- The roots outside the freed block are those below the pointer, and those from it on that are
outside. -/
theorem Inv.filter_outside_eq (h : Inv env s) (mem : MemData) :
    (s.roots.filter fun r => ¬InsideBlock mem r) = (lowerBound s.roots mem.ptr).1 ++
      (rootsFrom s mem.ptr).filter fun r => ¬InsideBlock mem r := by
  have hbelow : (lowerBound s.roots mem.ptr).1.filter (fun r => ¬InsideBlock mem r) =
      (lowerBound s.roots mem.ptr).1 := by
    refine List.filter_eq_self.2 fun r hr => ?_
    have hmem : r ∈ s.roots := by
      rw [← lowerBound_append s.roots mem.ptr]
      exact List.mem_append_left _ hr
    have hlt := lt_of_mem_lowerBound hr
    rw [← h.root_range r hmem] at hlt
    exact decide_eq_true fun hin => absurd hin.1 (not_le.2 hlt)
  nth_rewrite 1 [← lowerBound_append s.roots mem.ptr]
  rw [List.filter_append, hbelow]
  rfl

/-- In every reachable state a FREE has a result. It deletes exactly the trees of the freed block if
and only if, among the roots from the freed pointer on, a root lies inside the block exactly when
neither it nor a root before it ends behind `ptr + total_allocated`. -/
theorem freedExactly_iff (hinj : Function.Injective env.update_op_id_func) (hs : Reachable env s)
    (mem : MemData) : ∃ s', step env s (.free mem) = some s' ∧
      (FreedExactly s s' mem ↔
        ∀ i (hi : i < (rootsFrom s mem.ptr).length), InsideBlock mem (rootsFrom s mem.ptr)[i] ↔
          ∀ j (hj : j ≤ i), (rootsFrom s mem.ptr)[j].root.mem_block_range.2 ≤ stopOf mem) := by
  have h := inv_of_reachable hinj hs
  obtain ⟨s', hstep⟩ := Option.isSome_iff_exists.1 (h.onFree_isSome mem)
  refine ⟨s', hstep, ?_⟩
  obtain ⟨hroots, -, hcells, -⟩ := h.onFree_eq_some hstep
  -- Below the pointer nothing is deleted, so only the roots from it on have to agree.
  have hiff : FreedExactly s s' mem ↔
      (rootsFrom s mem.ptr).dropWhile (fun r => r.root.mem_block_range.2 ≤ stopOf mem) =
        (rootsFrom s mem.ptr).filter fun r => ¬InsideBlock mem r := by
    constructor
    · intro hfreed
      have heq := hfreed.roots
      rw [hroots, h.filter_outside_eq] at heq
      exact List.append_cancel_left heq
    · intro heq
      refine ⟨?_, hcells⟩
      rw [hroots, h.filter_outside_eq, heq]
  rw [hiff, dropWhile_eq_filter_iff]
  simp

/-- A FREE of the only block deletes its tree, when the total is the block's size. -/
theorem freedExactly_vector : ∃ s s',
    run (step countingEnv) (initial false) [.enter ⟨[], [vector 0 1000 2]⟩ []] = some s ∧
      step countingEnv s (.free ⟨1000, 8, 8⟩) = some s' ∧ FreedExactly s s' ⟨1000, 8, 8⟩ := by
  obtain ⟨s, hrun, hfrom⟩ := Option.map_eq_some_iff.1
    (show (run (step countingEnv) (initial false) [.enter ⟨[], [vector 0 1000 2]⟩ []]).map
      (fun s => rootsFrom s 1000) = some [⟨firstVector 2, .nil⟩] by decide +kernel)
  obtain ⟨s', hstep, hiff⟩ :=
    freedExactly_iff countingEnv_injective (reachable_of_run hrun) ⟨1000, 8, 8⟩
  refine ⟨s, s', hrun, hstep, hiff.2 ?_⟩
  have hin : InsideBlock ⟨1000, 8, 8⟩ ⟨firstVector 2, .nil⟩ := by decide
  have hend : (firstVector 2).mem_block_range.2 ≤ stopOf ⟨1000, 8, 8⟩ := by decide
  simp only [hfrom]
  intro i hi
  obtain rfl := Nat.lt_one_iff.1 hi
  refine iff_of_true hin fun j hj => ?_
  obtain rfl := Nat.le_zero.1 hj
  exact hend

/-- With a large total, a FREE of one block deletes the tree of another. -/
theorem not_freedExactly_vectors : ¬∀ (env : Env) (s s' : TorchView) (mem : MemData),
    Function.Injective env.update_op_id_func → Reachable env s →
    step env s (.free mem) = some s' → FreedExactly s s' mem := by
  intro h
  obtain ⟨s, hrun, hfacts⟩ := Option.map_eq_some_iff.1
    (show (run (step countingEnv) (initial false)
        [.enter ⟨[], [vector 0 1000 2, vector 1 2000 2]⟩ []]).map
      (fun s => (s.roots.map fun r => r.root.mem_block_range,
        (step countingEnv s (.free ⟨1000, 8, 1000000⟩)).map fun s' => s'.roots)) =
      some ([(1000, 1008), (2000, 2008)], some []) by decide +kernel)
  simp only [Prod.mk.injEq, Option.map_eq_some_iff] at hfacts
  obtain ⟨hranges, s', hstep, hroots⟩ := hfacts
  have hfreed := (h countingEnv s s' _ countingEnv_injective (reachable_of_run hrun) hstep).roots
  have hmem : (2000, 2008) ∈ s.roots.map fun r => r.root.mem_block_range := by simp [hranges]
  obtain ⟨r, hr, hrange⟩ := List.mem_map.1 hmem
  have hkept : r ∈ s'.roots := by
    rw [hfreed, List.mem_filter]
    refine ⟨hr, decide_eq_true fun hin => ?_⟩
    have hend := hin.2
    rw [hrange] at hend
    exact absurd hend (by decide)
  rw [hroots] at hkept
  exact List.not_mem_nil hkept

end TenProf.TorchView
