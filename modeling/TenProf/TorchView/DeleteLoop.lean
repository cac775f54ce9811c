import Mathlib.Data.List.TakeWhile
import TenProf.Library.While
import TenProf.TorchView.Free

/-!
# The loop of a deletion

`delete_forest_tree` erases from the vector of roots while it runs through it with an unsigned
counter, which it decrements after an erasure. `deleteTurn` is one turn of that loop on the vector
itself. As long as the vector has fewer than `2^32` roots the counter never leaves it, and the loop
does what `deleteForestTree` does on the list of roots (`settles_deleteForestTree`).

The loop ends at the first root that ends behind the interval. So it deletes exactly the roots
inside an interval when no root that it reaches before one of them ends behind it
(`deletesInside_iff`).
-/

namespace TenProf.TorchView

/-- The counter and the vector of the loop, with the rest of the state. -/
structure DeleteState where
  i : ℕ
  roots : List (Tree ViewNode)
  s : TorchView

/-- One turn of the loop of `delete_forest_tree`. It ends the process when `at` fails. -/
def deleteTurn (mem_start_addr stop : ℕ) (st : DeleteState) :
    DeleteState ⊕ Option (List (Tree ViewNode) × TorchView) :=
  if st.i < st.roots.length then
    match st.roots[st.i]? with
    | none => .inr none
    | some r =>
      if stop < r.root.mem_block_range.2 then .inr (some (st.roots, st.s))
      else if mem_start_addr ≤ r.root.mem_block_range.1 then
        match deleteTree st.s r with
        | none => .inr none
        | some s => .inl ⟨u32 (subU32 st.i 1 + 1), st.roots.eraseIdx st.i, s⟩
      else .inl { st with i := u32 (st.i + 1) }
  else .inr (some (st.roots, st.s))

/-- `delete_forest_tree` on the vector, with at most `fuel` turns of its loop. -/
def deleteForestTreeVector (s : TorchView) (mem_start_addr total_allocated fuel : ℕ) :
    Option (Option TorchView) :=
  let stop := u64 (mem_start_addr + total_allocated)
  let i := u32 (lowerBound s.roots mem_start_addr).1.length
  (loop (deleteTurn mem_start_addr stop) fuel ⟨i, s.roots, dropSnapshot s mem_start_addr stop⟩).map
    fun result => result.map fun (roots, s) => { s with roots := roots }

/-- A root's range lies inside an interval. -/
def InsideInterval (mem_start_addr len : ℕ) (r : Tree ViewNode) : Prop :=
  mem_start_addr ≤ r.root.mem_block_range.1 ∧ r.root.mem_block_range.2 ≤ mem_start_addr + len

instance (mem_start_addr len : ℕ) (r : Tree ViewNode) :
    Decidable (InsideInterval mem_start_addr len r) :=
  inferInstanceAs (Decidable (_ ∧ _))

/-- A vector of roots that is sorted by start, of distinct nodes with call paths. -/
structure RootsVector (s : TorchView) : Prop where
  /-- The roots are sorted. -/
  sorted : s.roots.Pairwise fun a b => a.root.data_ptr ≤ b.root.data_ptr
  /-- A root's range starts at the root. -/
  root_range : ∀ r ∈ s.roots, r.root.mem_block_range.1 = r.root.data_ptr
  /-- Nodes are distinct. -/
  ptr_nodup : ((Tree.nodesOf s.roots).map ViewNode.ptr).Nodup
  /-- The ids of the nodes are distinct. -/
  id_nodup : ((Tree.nodesOf s.roots).map ViewNode.view_id).Nodup
  /-- Every root has a call path. -/
  call_path : ∀ r ∈ s.roots, s.attribution.call_path_map.findD r.root.view_id [] ≠ []
  /-- The counter can count the roots. -/
  length_lt : s.roots.length < 2^32

/-- The deletion of the roots inside an interval: the loop ends with all its indices in range, no
root inside the interval remains, and every other root is there in its place as it was. -/
def DeletesInside (s : TorchView) (mem_start_addr len : ℕ) : Prop :=
  ∃ s', Settles (deleteForestTreeVector s mem_start_addr len) (some s') ∧
    s'.roots = s.roots.filter (fun r => ¬InsideInterval mem_start_addr len r) ∧
    ∀ n ∈ Tree.nodesOf s'.roots,
      s'.attribution.cells.find? n.ptr = s.attribution.cells.find? n.ptr

/-- The loop on the vector does what the loop on the list of the roots from the counter on does. -/
theorem loop_deleteTurn (mem_start_addr stop : ℕ) (below above : List (Tree ViewNode))
    (s : TorchView) {fuel : ℕ} (hlen : (below ++ above).length < 2^32)
    (hfuel : above.length < fuel) :
    loop (deleteTurn mem_start_addr stop) fuel ⟨below.length, below ++ above, s⟩ =
      some ((deleteLoop mem_start_addr stop above s).map
        fun (kept, s') => (below ++ kept, s')) := by
  induction above generalizing below s fuel with
  | nil =>
    obtain ⟨fuel, rfl⟩ : ∃ n, fuel = n + 1 := ⟨fuel - 1, by omega⟩
    rw [loop_of_inr (by rw [deleteTurn, if_neg (by simp)])]
    rfl
  | cons r rs ih =>
    obtain ⟨fuel, rfl⟩ : ∃ n, fuel = n + 1 := ⟨fuel - 1, by omega⟩
    have hlt : below.length < (below ++ r :: rs).length := by simp
    have hat : (below ++ r :: rs)[below.length]? = some r := by simp
    have hlen' : below.length + (rs.length + 1) < 2^32 := by simpa using hlen
    have hfuel' : rs.length < fuel := by simpa using hfuel
    rw [deleteLoop]
    split_ifs with hstop hstart
    · -- The loop breaks.
      rw [loop_of_inr (by rw [deleteTurn, if_pos hlt, hat]; exact if_pos hstop)]
      rfl
    · cases hdel : deleteTree s r with
      | none =>
        have hturn : deleteTurn mem_start_addr stop ⟨below.length, below ++ r :: rs, s⟩ =
            .inr none := by
          rw [deleteTurn, if_pos hlt, hat]
          simp only [if_neg hstop, if_pos hstart, hdel]
        rw [loop_of_inr hturn]
        rfl
      | some s₁ =>
        -- The erasure and the two changes of the counter leave it at the next root.
        have hi : u32 (subU32 below.length 1 + 1) = below.length := by
          unfold u32 subU32
          omega
        have hturn : deleteTurn mem_start_addr stop ⟨below.length, below ++ r :: rs, s⟩ =
            .inl ⟨below.length, below ++ rs, s₁⟩ := by
          rw [deleteTurn, if_pos hlt, hat]
          simp only [if_neg hstop, if_pos hstart, hdel, hi]
          simp [List.eraseIdx_append_of_length_le]
        rw [loop_of_inl hturn, ih below s₁ (by simp; omega) hfuel']
        rfl
    · -- The root is left, and the counter goes on behind it.
      have hi : u32 (below.length + 1) = (below ++ [r]).length := by
        rw [u32_of_lt (by omega)]
        simp
      have hturn : deleteTurn mem_start_addr stop ⟨below.length, below ++ r :: rs, s⟩ =
          .inl ⟨(below ++ [r]).length, below ++ [r] ++ rs, s⟩ := by
        rw [deleteTurn, if_pos hlt, hat]
        simp only [if_neg hstop, if_neg hstart, hi]
        simp
      rw [loop_of_inl hturn, ih (below ++ [r]) s (by simp; omega) hfuel', Option.map_map]
      congr 2
      funext x
      simp

variable {s : TorchView} {mem_start_addr len : ℕ}

/-- On a vector of fewer than `2^32` roots the loop ends, and `delete_forest_tree` does what it does
on the list of the roots. -/
theorem settles_deleteForestTree (hlen : s.roots.length < 2^32) (mem_start_addr len : ℕ) :
    Settles (deleteForestTreeVector s mem_start_addr len)
      (deleteForestTree s mem_start_addr len) := by
  have happend := lowerBound_append s.roots mem_start_addr
  refine ⟨(lowerBound s.roots mem_start_addr).2.length + 1, fun fuel hfuel => ?_⟩
  have hbelow : (lowerBound s.roots mem_start_addr).1.length ≤ s.roots.length := by
    conv_rhs => rw [← happend]
    simp
  have hloop := loop_deleteTurn mem_start_addr (u64 (mem_start_addr + len))
    (lowerBound s.roots mem_start_addr).1 (lowerBound s.roots mem_start_addr).2
    (dropSnapshot s mem_start_addr (u64 (mem_start_addr + len))) (by rwa [happend])
    (show _ < fuel by omega)
  rw [happend] at hloop
  unfold deleteForestTreeVector deleteForestTree
  dsimp only
  rw [u32_of_lt (by omega), hloop, Option.map_some, Option.map_map]
  rfl

/-- What a deletion leaves of a vector of roots: those below the lower bound, and those behind it
from the first that ends behind the interval on. -/
theorem RootsVector.deleteForestTree_eq (h : RootsVector s) (mem_start_addr len : ℕ) :
    ∃ s', deleteForestTree s mem_start_addr len = some s' ∧
      s'.roots = (lowerBound s.roots mem_start_addr).1 ++
        (lowerBound s.roots mem_start_addr).2.dropWhile
          (fun r => r.root.mem_block_range.2 ≤ u64 (mem_start_addr + len)) ∧
      ∀ n ∈ Tree.nodesOf s'.roots,
        s'.attribution.cells.find? n.ptr = s.attribution.cells.find? n.ptr := by
  generalize hstop : u64 (mem_start_addr + len) = stop
  have hperm := roots_perm_removed s.roots mem_start_addr stop
  -- Every root from the lower bound on starts in the interval or behind it.
  have hfrom : ∀ r ∈ reachedRoots stop (lowerBound s.roots mem_start_addr).2,
      mem_start_addr ≤ r.root.mem_block_range.1 := by
    intro r hr
    have habove : r ∈ (lowerBound s.roots mem_start_addr).2 := List.takeWhile_subset _ hr
    rw [h.root_range r (by
      rw [← lowerBound_append s.roots mem_start_addr]
      exact List.mem_append_right _ habove)]
    exact le_of_mem_lowerBound h.sorted habove
  have hsome : (deleteForestTree s mem_start_addr len).isSome := by
    have hids := ((hperm.flatMap_right Tree.nodes).map ViewNode.view_id).nodup_iff.1 h.id_nodup
    rw [List.flatMap_append, List.map_append, List.nodup_append] at hids
    have htrees := deleteTrees_isSome (s := dropSnapshot s mem_start_addr stop) hids.1
      fun r hr => h.call_path r (hperm.mem_iff.2 (List.mem_append_left _ hr))
    simp only [deleteForestTree, deleteLoop_eq, hstop, Option.isSome_map]
    exact htrees
  obtain ⟨s', hs'⟩ := Option.isSome_iff_exists.1 hsome
  obtain ⟨s₁, hdel, rfl⟩ := deleteForestTree_eq_some hstop.symm hs'
  exact ⟨_, hs', congrArg _ (keptAbove_eq_dropWhile hfrom), fun n hn =>
    hdel.cells _ (ptr_notMem_removed h.ptr_nodup hn)⟩

/-- The deletion is right exactly when the loop drops the roots inside the interval from those that
it goes over. -/
theorem deletesInside_iff_dropWhile (h : RootsVector s) (mem_start_addr len : ℕ) :
    DeletesInside s mem_start_addr len ↔
      (rootsFrom s mem_start_addr).dropWhile
        (fun r => r.root.mem_block_range.2 ≤ u64 (mem_start_addr + len)) =
      (rootsFrom s mem_start_addr).filter (fun r => ¬InsideInterval mem_start_addr len r) := by
  obtain ⟨s', hs', hroots, hcells⟩ := h.deleteForestTree_eq mem_start_addr len
  have hsettles := settles_deleteForestTree h.length_lt mem_start_addr len
  rw [hs'] at hsettles
  -- The roots below the lower bound are outside the interval.
  have hfilter : s.roots.filter (fun r => ¬InsideInterval mem_start_addr len r) =
      (lowerBound s.roots mem_start_addr).1 ++
        (rootsFrom s mem_start_addr).filter (fun r => ¬InsideInterval mem_start_addr len r) := by
    have hbelow : (lowerBound s.roots mem_start_addr).1.filter
        (fun r => ¬InsideInterval mem_start_addr len r) =
        (lowerBound s.roots mem_start_addr).1 := by
      refine List.filter_eq_self.2 fun r hr => ?_
      have hlt := lt_of_mem_lowerBound hr
      rw [← h.root_range r (by
        rw [← lowerBound_append s.roots mem_start_addr]
        exact List.mem_append_left _ hr)] at hlt
      exact decide_eq_true fun hin => absurd hin.1 (not_le.2 hlt)
    nth_rewrite 1 [← lowerBound_append s.roots mem_start_addr]
    rw [List.filter_append, hbelow]
    rfl
  constructor
  · rintro ⟨s'', hs'', heq, -⟩
    obtain rfl := Option.some.inj (hs''.unique hsettles)
    rw [hroots, hfilter] at heq
    exact List.append_cancel_left heq
  · intro heq
    exact ⟨s', hsettles, by rw [hroots, hfilter, ← heq]; rfl, hcells⟩

/-- The deletion is right exactly when, among the roots from the lower bound on, no root at or
before one inside the interval ends behind it. -/
theorem deletesInside_iff (h : RootsVector s) (mem_start_addr len : ℕ) :
    DeletesInside s mem_start_addr len ↔
      ∀ i j (hi : i < (rootsFrom s mem_start_addr).length) (hj : j ≤ i),
        InsideInterval mem_start_addr len (rootsFrom s mem_start_addr)[i] →
          (rootsFrom s mem_start_addr)[j].root.mem_block_range.2 ≤ u64 (mem_start_addr + len) := by
  have hmem : ∀ r ∈ rootsFrom s mem_start_addr, r ∈ s.roots := by
    intro r hr
    rw [← lowerBound_append s.roots mem_start_addr]
    exact List.mem_append_right _ hr
  rw [deletesInside_iff_dropWhile h, dropWhile_eq_filter_iff]
  constructor
  · intro hall i j hi hj hin
    have hreach := (hall i hi).1 (by simpa using hin) j hj
    simpa using hreach
  · -- A root that is reached starts behind the lower bound and ends in the interval.
    intro hall i hi
    refine ⟨fun hin j hj => ?_, fun hreach => ?_⟩
    · simpa using hall i j hi hj (by simpa using hin)
    · have hend : (rootsFrom s mem_start_addr)[i].root.mem_block_range.2 ≤
          u64 (mem_start_addr + len) := by simpa using hreach i le_rfl
      have hi' := List.getElem_mem hi
      have hstart := le_of_mem_lowerBound h.sorted hi'
      rw [← h.root_range _ (hmem _ hi')] at hstart
      have hmod : u64 (mem_start_addr + len) ≤ mem_start_addr + len := Nat.mod_le _ _
      simpa using show InsideInterval mem_start_addr len _ from ⟨hstart, hend.trans hmod⟩

/-- The roots of a reachable state, if they can be counted. -/
theorem Inv.rootsVector {env : Env} (h : Inv env s) (hlen : s.roots.length < 2^32) :
    RootsVector s where
  sorted := h.sorted
  root_range := h.root_range
  ptr_nodup := h.ptr_nodup
  id_nodup := h.id_nodup
  call_path r hr := h.call_path _ (Tree.mem_nodesOf.2 ⟨r, hr, r.root_mem_nodes⟩)
  length_lt := hlen

/-- Two vectors, the second of which starts before the first and contains it. -/
def nestedVectors : List Event := [.enter ⟨[], [vector 0 1040 10, vector 1 1000 100]⟩ []]

/-- The roots of the two vectors. -/
theorem exists_nestedVectors : ∃ s, run (step countingEnv) (initial false) nestedVectors = some s ∧
    RootsVector s ∧ s.roots.map (fun r => r.root.mem_block_range) = [(1000, 1400), (1040, 1080)] ∧
    (rootsFrom s 1000).map (fun r => r.root.mem_block_range) = [(1000, 1400), (1040, 1080)] := by
  obtain ⟨s, hrun, hfacts⟩ := Option.map_eq_some_iff.1
    (show (run (step countingEnv) (initial false) nestedVectors).map
      (fun s => (s.roots.map fun r => r.root.mem_block_range,
        (rootsFrom s 1000).map fun r => r.root.mem_block_range)) =
      some ([(1000, 1400), (1040, 1080)], [(1000, 1400), (1040, 1080)]) by decide +kernel)
  simp only [Prod.mk.injEq] at hfacts
  have hlen : s.roots.length = 2 := by simpa using congrArg List.length hfacts.1
  exact ⟨s, hrun, (inv_of_reachable countingEnv_injective (reachable_of_run hrun)).rootsVector
    (by omega), hfacts⟩

/-- The deletion of the whole of the longer vector deletes both. -/
theorem deletesInside_nestedVectors : ∃ s,
    run (step countingEnv) (initial false) nestedVectors = some s ∧ DeletesInside s 1000 400 := by
  obtain ⟨s, hrun, hroots, -, hfrom⟩ := exists_nestedVectors
  refine ⟨s, hrun, (deletesInside_iff hroots 1000 400).2 fun i j hi hj _ => ?_⟩
  have hj' : j < (rootsFrom s 1000).length := by omega
  have hrange : (rootsFrom s 1000)[j].root.mem_block_range ∈ [(1000, 1400), (1040, 1080)] :=
    hfrom ▸ List.mem_map_of_mem (List.getElem_mem hj')
  have hall : ∀ x ∈ [(1000, 1400), (1040, 1080)], x.2 ≤ u64 (1000 + 400) := by decide
  exact hall _ hrange

/-- The deletion of the first half of the longer vector, in which the shorter one lies, deletes
none. -/
theorem not_deletesInside_nestedVectors : ¬∀ (s : TorchView) (mem_start_addr len : ℕ),
    RootsVector s → DeletesInside s mem_start_addr len := by
  intro h
  obtain ⟨s, -, hroots, -, hfrom⟩ := exists_nestedVectors
  have hlen : (rootsFrom s 1000).length = 2 := by simpa using congrArg List.length hfrom
  have hget : ∀ k (hk : k < (rootsFrom s 1000).length),
      some (rootsFrom s 1000)[k].root.mem_block_range = [(1000, 1400), (1040, 1080)][k]? := by
    intro k hk
    rw [← hfrom, List.getElem?_map, List.getElem?_eq_getElem hk]
    rfl
  have h0 := hget 0 (by omega)
  have h1 := hget 1 (by omega)
  simp only [List.getElem?_cons_zero, List.getElem?_cons_succ, Option.some.injEq] at h0 h1
  -- The loop stops at the longer vector, so that it keeps the shorter one.
  have hkept := (deletesInside_iff_dropWhile hroots 1000 200).1 (h s 1000 200 hroots)
  rw [List.dropWhile_eq_self_iff.2 fun hl => by rw [h0]; decide] at hkept
  have hshort := List.getElem_mem (show 1 < (rootsFrom s 1000).length by omega)
  have hout := of_decide_eq_true (List.filter_eq_self.1 hkept.symm _ hshort)
  exact hout (by unfold InsideInterval; rw [h1]; decide)

end TenProf.TorchView
