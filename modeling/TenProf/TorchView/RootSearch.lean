import TenProf.TorchView.Delete

/-!
# Which forests the root search is right for

`find_root_node` bisects the roots by their ranges, which is right when the ranges are disjoint
(`findRootNodeOf_isSome_iff`). An insertion keeps them disjoint when the new tensor lies inside a
root, or apart from all of them; a deletion always does. So the search is right in every forest
built by calls of that kind (`findRootNode_right`). A larger tensor that arrives after a view of
its bytes makes a root that overlaps, and the search may then miss it.
-/

namespace TenProf.TorchView

/-- A root's range contains the bytes from `x` to `y`. -/
def Contains (r : Tree ViewNode) (x y : ℕ) : Prop :=
  r.root.mem_block_range.1 ≤ x ∧ y ≤ r.root.mem_block_range.2

/-- `r_end` of a tensor. -/
def endAddress (t : TensorData) : ℕ := u64 (t.data_ptr + t.itemsize * t.numel)

/-- The ranges of the roots are disjoint, and no range is empty. -/
structure Separated (roots : List (Tree ViewNode)) : Prop where
  /-- A root's range starts at the root. -/
  start : ∀ r ∈ roots, r.root.mem_block_range.1 = r.root.data_ptr
  /-- No range is empty. -/
  lt : ∀ r ∈ roots, r.root.mem_block_range.1 < r.root.mem_block_range.2
  /-- A range ends before the next one starts. -/
  apart : roots.Pairwise fun a b => a.root.mem_block_range.2 ≤ b.root.mem_block_range.1

variable {roots : List (Tree ViewNode)} {x y : ℕ}

/-- What a probe finds is in the range of the root at its position. -/
theorem probeRoot_found {i : ℕ} {r : Tree ViewNode} (h : probeRoot roots x y i = .found)
    (hr : roots[i]? = some r) : Contains r x y := by
  unfold probeRoot at h
  rw [hr] at h
  simp only at h
  split_ifs at h with hin
  exact hin

/-- Whatever the forest, a root that the search returns contains the bytes. -/
theorem contains_of_findRootNodeOf {r : Tree ViewNode} (h : findRootNodeOf roots x y = some r) :
    r ∈ roots ∧ Contains r x y := by
  refine ⟨mem_of_findRootNodeOf h, ?_⟩
  unfold findRootNodeOf at h
  split_ifs at h
  obtain ⟨i, hi, hr⟩ := Option.bind_eq_some_iff.1 h
  exact probeRoot_found (bisect_spec hi).2.2 hr

/-- With disjoint ranges, every probe points to a root that contains the bytes. -/
theorem Separated.probeRoot (h : Separated roots) {t : ℕ} (ht : t < roots.length)
    (hin : Contains roots[t] x y) {i : ℕ} (hi : i < roots.length) :
    (i < t → probeRoot roots x y i = .found ∨ probeRoot roots x y i = .right) ∧
      (i = t → probeRoot roots x y i = .found) ∧
      (t < i → probeRoot roots x y i = .found ∨ probeRoot roots x y i = .left) := by
  obtain ⟨hstart, hend⟩ := hin
  have hlt := h.lt _ (List.getElem_mem hi)
  have hlt' := h.lt _ (List.getElem_mem ht)
  simp only [TorchView.probeRoot, List.getElem?_eq_getElem hi]
  refine ⟨fun hit => ?_, fun hit => ?_, fun hit => ?_⟩
  · -- A root before the target ends before the target starts.
    have hap := List.pairwise_iff_getElem.1 h.apart i t hi ht hit
    rw [if_pos (show roots[i].root.mem_block_range.1 < x by omega)]
    split_ifs
    · exact Or.inl rfl
    · exact Or.inr rfl
  · subst hit
    rw [if_pos ⟨hstart, hend⟩]
  · -- A root behind the target starts behind the bytes, unless these are empty.
    have hap := List.pairwise_iff_getElem.1 h.apart t i ht hi hit
    by_cases hix : roots[i].root.mem_block_range.1 ≤ x
    · rw [if_pos ⟨hix, by omega⟩]
      exact Or.inl rfl
    · rw [if_neg (fun hin => hix hin.1), if_neg (by omega), if_pos (by omega)]
      exact Or.inr rfl

/-- With disjoint ranges, the search returns a root exactly when one contains the bytes. -/
theorem findRootNodeOf_isSome_iff (h : Separated roots) :
    (findRootNodeOf roots x y).isSome ↔ ∃ r ∈ roots, Contains r x y := by
  constructor
  · intro hsome
    obtain ⟨r, hr⟩ := Option.isSome_iff_exists.1 hsome
    exact ⟨r, contains_of_findRootNodeOf hr⟩
  · rintro ⟨r, hr, hin⟩
    obtain ⟨t, ht, rfl⟩ := List.getElem_of_mem hr
    have hprobe := fun i hi => h.probeRoot (x := x) (y := y) ht hin (i := i) hi
    have hsome : (bisect (TorchView.probeRoot roots x y) 0 (roots.length - 1)).isSome := by
      refine bisect_isSome ((hprobe t ht).2.1 rfl) (fun i _ hi => (hprobe i (by omega)).1 hi)
        (fun i hi hle => (hprobe i (by omega)).2.2 hi) (Nat.zero_le t) (by omega)
    obtain ⟨i, hi⟩ := Option.isSome_iff_exists.1 hsome
    have hlt : i < roots.length := by
      have hle := (bisect_spec hi).2.1
      omega
    unfold findRootNodeOf
    rw [if_neg (by omega), hi, Option.bind_some, List.getElem?_eq_getElem hlt]
    rfl

/-- Disjoint ranges stay disjoint when roots are taken away. -/
theorem Separated.sublist {roots' : List (Tree ViewNode)} (h : Separated roots)
    (hsub : roots'.Sublist roots) : Separated roots' where
  start r hr := h.start r (hsub.subset hr)
  lt r hr := h.lt r (hsub.subset hr)
  apart := h.apart.sublist hsub

/-- Disjoint ranges stay as they are when views are added. -/
theorem Separated.insertUnder (h : Separated roots) (k : ℕ) (n : ViewNode) :
    Separated (roots.map (Tree.insertUnder ViewNode.ptr k n)) where
  start := by simpa using h.start
  lt := by simpa using h.lt
  apart := by
    rw [List.pairwise_map]
    simpa using h.apart

/-- Disjoint ranges stay disjoint when a root is added apart from all of them. -/
theorem Separated.insertRoot (h : Separated roots) {r : Tree ViewNode}
    (hstart : r.root.mem_block_range.1 = r.root.data_ptr)
    (hlt : r.root.mem_block_range.1 < r.root.mem_block_range.2)
    (hapart : ∀ r' ∈ roots, r.root.mem_block_range.2 ≤ r'.root.mem_block_range.1 ∨
      r'.root.mem_block_range.2 ≤ r.root.mem_block_range.1) :
    Separated ((lowerBound roots r.root.data_ptr).1 ++ r ::
      (lowerBound roots r.root.data_ptr).2) where
  start r' hr' := by
    rcases mem_insertRoot.1 hr' with rfl | hr'
    · exact hstart
    · exact h.start r' hr'
  lt r' hr' := by
    rcases mem_insertRoot.1 hr' with rfl | hr'
    · exact hlt
    · exact h.lt r' hr'
  apart := by
    have hsorted : roots.Pairwise fun a b => a.root.data_ptr ≤ b.root.data_ptr := by
      refine h.apart.imp_of_mem fun {a b} ha hb hab => ?_
      rw [← h.start a ha, ← h.start b hb]
      exact (h.lt a ha).le.trans hab
    have hmem : ∀ r', r' ∈ (lowerBound roots r.root.data_ptr).1 ∨
        r' ∈ (lowerBound roots r.root.data_ptr).2 → r' ∈ roots := by
      intro r' hr'
      rw [← lowerBound_append roots r.root.data_ptr]
      exact List.mem_append.2 hr'
    have hparts := h.apart
    rw [← lowerBound_append roots r.root.data_ptr] at hparts
    obtain ⟨hbelow, habove, hcross⟩ := List.pairwise_append.1 hparts
    -- A root that starts earlier lies before the new one, and any other behind it.
    refine List.pairwise_append.2 ⟨hbelow, List.pairwise_cons.2 ⟨?_, habove⟩, ?_⟩
    · intro b hb
      have hle := le_of_mem_lowerBound hsorted hb
      have hb' := hmem b (Or.inr hb)
      have hbstart := h.start b hb'
      have hblt := h.lt b hb'
      rcases hapart b hb' with hout | hout <;> omega
    · intro a ha b hb
      rcases List.mem_cons.1 hb with rfl | hb
      · have hlt' := lt_of_mem_lowerBound ha
        have ha' := hmem a (Or.inl ha)
        have hastart := h.start a ha'
        rcases hapart a ha' with hout | hout <;> omega
      · exact hcross a ha b hb

/-- A call that changes the forest; an update sees the operations that are on the stack. -/
inductive ForestCall
  /-- `update_view_forest`. -/
  | update (op_stack : List OpData) (frames : List PythonState) (t : TensorData) (global_id : ℕ)
  /-- `delete_forest_tree`. -/
  | delete (mem_start_addr total_allocated : ℕ)

/-- The forest after a call. -/
def callStep (s : TorchView) : ForestCall → Option TorchView
  | .update op_stack frames t global_id =>
    (updateViewForest { s with op_stack := op_stack } frames t global_id).map Prod.snd
  | .delete mem_start_addr total_allocated => deleteForestTree s mem_start_addr total_allocated

/-- A tensor with elements whose bytes are inside a root's range, or apart from every root's. -/
structure InsideOrApart (roots : List (Tree ViewNode)) (t : TensorData) : Prop where
  /-- The tensor has elements. -/
  numel_pos : 0 < t.numel
  /-- Its end does not wrap around. -/
  no_wrap : t.data_ptr + t.itemsize * t.numel < 2^64
  /-- It is inside a root or apart from all. -/
  place : (∃ r ∈ roots, Contains r t.data_ptr (endAddress t)) ∨
    ∀ r ∈ roots, endAddress t ≤ r.root.mem_block_range.1 ∨ r.root.mem_block_range.2 ≤ t.data_ptr

/-- The condition on a call: an update's tensor is inside a root or apart from all. -/
def PlacedCall (s : TorchView) : ForestCall → Prop
  | .update _ _ t _ => InsideOrApart s.roots t
  | .delete _ _ => True

/-- An update with a tensor inside a root or apart from all keeps the ranges disjoint. -/
theorem Separated.updated {s s' : TorchView} (h : Separated s.roots) {frames : List PythonState}
    {t : TensorData} {global_id : ℕ} {p : Option ℕ} (ht : InsideOrApart s.roots t)
    (hupdate : Updated s frames t global_id p s') : Separated s'.roots := by
  cases hupdate with
  | found hroot hnode => exact h
  | orphan hroot hnode hop hfather => exact h
  | view hroot hnode hop hfather hn => exact h.insertUnder _ _
  | @root n hroot hn =>
    -- No root contains the tensor, because the search would have found it.
    have hapart := ht.place.resolve_left fun hin => by
      have hsome := (findRootNodeOf_isSome_iff h).2 hin
      rw [show findRootNodeOf s.roots t.data_ptr (endAddress t) = none from hroot] at hsome
      exact absurd hsome (by simp)
    have hlt : t.data_ptr < endAddress t := by
      unfold endAddress
      rw [u64_of_lt ht.no_wrap]
      have hpos := Nat.mul_pos t.itemsize_pos ht.numel_pos
      omega
    subst hn
    exact h.insertRoot (r := ⟨ViewNode.ofRoot s.next_ptr global_id t, .nil⟩) rfl hlt hapart

/-- A call whose update is inside a root or apart from all keeps the ranges disjoint. -/
theorem Separated.callStep {s s' : TorchView} {e : ForestCall} (h : Separated s.roots)
    (he : PlacedCall s e) (hstep : callStep s e = some s') : Separated s'.roots := by
  cases e with
  | update op_stack frames t global_id =>
    obtain ⟨⟨p, s₁⟩, h₁, rfl⟩ := Option.map_eq_some_iff.1 hstep
    exact Separated.updated (s := { s with op_stack := op_stack }) h he
      (updated_of_updateViewForest h₁)
  | delete mem_start_addr total_allocated =>
    obtain ⟨s₁, -, rfl⟩ := deleteForestTree_eq_some rfl hstep
    exact h.sublist (roots_sublist s.roots mem_start_addr _)

/-- The search is right in a state: for every tensor it returns a root exactly when some root
contains the tensor, and then it returns one that does. -/
def SearchRight (s : TorchView) : Prop :=
  ∀ q : TensorData,
    ((findRootNode s.roots q).isSome ↔ ∃ r ∈ s.roots, Contains r q.data_ptr (endAddress q)) ∧
      ∀ r, findRootNode s.roots q = some r → r ∈ s.roots ∧ Contains r q.data_ptr (endAddress q)

/-- In every run of updates and deletions whose updates are inside a root or apart from all, the
search is right in every state. -/
theorem findRootNode_right (ongpu : Bool) (calls : List ForestCall)
    (h : AllSteps callStep PlacedCall (initial ongpu) calls) :
    AllStates callStep SearchRight (initial ongpu) calls := by
  have hinit : Separated (initial ongpu).roots :=
    ⟨by simp [initial], by simp [initial], List.Pairwise.nil⟩
  exact h.allStates (I := fun s => Separated s.roots)
    (fun _ _ _ hs he hstep => hs.callStep he hstep)
    (fun s hs q => ⟨findRootNodeOf_isSome_iff hs, fun r hr => contains_of_findRootNodeOf hr⟩) hinit

/-- Two vectors that are apart: the search is right before, between and after them. -/
theorem findRootNode_right_vectors : AllStates callStep SearchRight (initial false)
    [.update [] [] (vector 0 1000 2) 1, .update [] [] (vector 0 2000 2) 2, .delete 1000 8] := by
  refine findRootNode_right false _ ⟨⟨by decide, by decide, Or.inr (by simp [initial])⟩,
    fun s hs => ⟨⟨by decide, by decide, Or.inr ?_⟩, fun s' _ => ⟨trivial, fun s'' _ => trivial⟩⟩⟩
  -- The first vector ends before the second one starts.
  have hroots : (callStep (initial false) (.update [] [] (vector 0 1000 2) 1)).map
      (fun s => s.roots.map fun r => r.root.mem_block_range) = some [(1000, 1008)] := by
    decide +kernel
  rw [hs, Option.map_some, Option.some.injEq] at hroots
  intro r hr
  have hrange : r.root.mem_block_range ∈ [(1000, 1008)] := hroots ▸ List.mem_map_of_mem hr
  rw [List.mem_singleton.1 hrange]
  exact Or.inr (by decide)

/-- A vector that arrives after a view of its bytes, with another root behind it: the search for
bytes of the vector behind the view probes the view and goes on past the vector. -/
theorem findRootNode_not_right : ¬∀ (ongpu : Bool) (calls : List ForestCall),
    AllStates callStep SearchRight (initial ongpu) calls := by
  intro h
  obtain ⟨s, hrun, hfacts⟩ := Option.map_eq_some_iff.1
    (show (run callStep (initial false) [.update [] [] (vector 0 1040 10) 1,
      .update [] [] (vector 0 1800 10) 2, .update [] [] (vector 0 1000 100) 3]).map
        (fun s => (s.roots.map fun r => r.root.mem_block_range,
          findRootNode s.roots (vector 0 1120 10))) =
      some ([(1000, 1400), (1040, 1080), (1800, 1840)], none) by decide +kernel)
  simp only [Prod.mk.injEq] at hfacts
  obtain ⟨hranges, hnone⟩ := hfacts
  have hright := (h false _).of_run hrun (vector 0 1120 10)
  have hmem : (1000, 1400) ∈ s.roots.map fun r => r.root.mem_block_range := by simp [hranges]
  obtain ⟨r, hr, hrange⟩ := List.mem_map.1 hmem
  have hin : Contains r (vector 0 1120 10).data_ptr (endAddress (vector 0 1120 10)) := by
    unfold Contains
    rw [hrange]
    decide
  have hsome := hright.1.2 ⟨r, hr, hin⟩
  rw [hnone] at hsome
  exact absurd hsome (by simp)

end TenProf.TorchView
