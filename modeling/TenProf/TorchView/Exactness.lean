import TenProf.TorchView.Frames

/-!
# Which lookups are exact

`new_get_view_nodes_by_mem_addr` is meant to return the inputs that have an element at an address.
`lookup_exact_iff` says for which inputs it does, at every address that does not overflow and
whatever stands in memory in front of the arrays: for those with a non-null address and at least one
dimension, whose strides before the last, in the order in which `sort_tensor_strides` leaves them,
are all `0`. For every other layout the search, which does not stop at the size of a dimension,
credits the tensor with an address behind its last element.
-/

namespace TenProf.TorchView

variable {env : Env} {s : TorchView} {cells cells' : OrderedMap ℕ NodeCell}

/-- After the sort of some nodes, their cells are sorted. -/
theorem isSorted_of_sortCells {ns : List ViewNode} (h : sortCells cells ns = some cells')
    {n : ViewNode} (hn : n ∈ ns) : ∃ c, cells'.find? n.ptr = some c ∧ c.is_sorted = true := by
  -- A cell that is sorted stays so, whichever nodes are sorted after it.
  have hstays : ∀ {ns : List ViewNode} {cells : OrderedMap ℕ NodeCell} {p : ℕ},
      sortCells cells ns = some cells' → (∃ c, cells.find? p = some c ∧ c.is_sorted = true) →
      ∃ c, cells'.find? p = some c ∧ c.is_sorted = true := by
    intro ns cells p h hp
    refine foldlM_invariant (I := fun m : OrderedMap ℕ NodeCell =>
      ∃ c, m.find? p = some c ∧ c.is_sorted = true) (fun m n m' hm _ hstep => ?_) hp h
    obtain ⟨c, hc, rfl⟩ := Option.map_eq_some_iff.1 hstep
    rw [OrderedMap.find?_set]
    split_ifs
    · exact ⟨_, rfl, c.is_sorted_sort⟩
    · exact hm
  -- The node's own turn sorts its cell.
  induction ns generalizing cells with
  | nil => simp at hn
  | cons m ns ih =>
    obtain ⟨cells₁, h₁, h⟩ := Option.bind_eq_some_iff.1 h
    rcases List.mem_cons.1 hn with rfl | hn
    · obtain ⟨c, hc, rfl⟩ := Option.map_eq_some_iff.1 h₁
      exact hstays h ⟨_, OrderedMap.find?_set_self _ _ _, c.is_sorted_sort⟩
    · exact ih h hn

/-- The sort of nodes with cells has a result. -/
theorem sortCells_isSome {ns : List ViewNode} (h : ∀ n ∈ ns, (cells.find? n.ptr).isSome) :
    (sortCells cells ns).isSome := by
  refine foldlM_isSome (I := CellsKept cells) (fun m n m' hm _ hstep => ?_)
    (fun m n hm hn => ?_) (CellsKept.refl cells)
  · obtain ⟨c, hc, rfl⟩ := Option.map_eq_some_iff.1 hstep
    exact hm.trans (CellsKept.set hc (by rw [NodeCell.sort_sort]))
  · rw [Option.isSome_map]
    exact hm.isSome (h n hn)

/-- A lookup whose possible nodes have cells has a result, which lists some of them. -/
theorem newGetViewNodesByMemAddr_eq_some (env : Env) {addr : ℕ} {is_delay : Bool}
    {possible : List ViewNode} (hpossible : possibleNodes s addr is_delay = some possible)
    (h : ∀ n ∈ possible, (cells.find? n.ptr).isSome) :
    ∃ hits cells', newGetViewNodesByMemAddr env s cells addr is_delay = some (hits, cells') ∧
      ∀ n ∈ hits, n ∈ possible := by
  obtain ⟨cells', hsort⟩ := Option.isSome_iff_exists.1 (sortCells_isSome h)
  unfold newGetViewNodesByMemAddr
  rw [hpossible, Option.bind_some, hsort, Option.map_some]
  exact ⟨_, _, rfl, fun n hn => List.mem_of_mem_filter hn⟩

/-- The dimensions of a node after the sort. -/
def sortedDims (cells : OrderedMap ℕ NodeCell) (n : ViewNode) : List Dim :=
  ((cells.find? n.ptr).map fun c => c.sort.dims).getD []

/-- A lookup returns the possible nodes that are hit with sorted dimensions. -/
theorem mem_newGetViewNodesByMemAddr {addr : ℕ} {is_delay : Bool} {possible hits : List ViewNode}
    (hpossible : possibleNodes s addr is_delay = some possible)
    (h : newGetViewNodesByMemAddr env s cells addr is_delay = some (hits, cells')) (n : ViewNode) :
    n ∈ hits ↔ n ∈ possible ∧ isHit env n (sortedDims cells n) addr = true := by
  simp only [newGetViewNodesByMemAddr, hpossible, Option.bind_some, Option.map_eq_some_iff,
    Prod.mk.injEq] at h
  obtain ⟨cells₁, hsort, rfl, rfl⟩ := h
  rw [List.mem_filter]
  refine and_congr_right fun hn => ?_
  -- The cell that is tested has the dimensions that the old one has after the sort.
  obtain ⟨c, hc, hsorted⟩ := isSorted_of_sortCells hsort hn
  have hdims : sortedDims cells n = c.dims := by
    calc sortedDims cells n = ((cells₁.find? n.ptr).map fun c => c.sort.dims).getD [] := by
          unfold sortedDims
          rw [cellsKept_sortCells hsort n.ptr]
      _ = c.sort.dims := by rw [hc, Option.map_some, Option.getD_some]
      _ = c.dims := by rw [NodeCell.sort_of_isSorted hsorted]
  rw [hc, Option.any_some, hdims]

/-- The bytes that the search may go beyond an address in a node, and one element. -/
def reach (n : ViewNode) (dims : List Dim) : ℕ :=
  Strided.span (byteDims n.itemsize dims) + n.itemsize

/-- The elements of a node by the distances in bytes. -/
theorem isElement_iff {n : ViewNode} {dims dims' : List Dim} (hperm : dims'.Perm dims) (a : ℕ) :
    IsElement n dims a ↔
      n.data_ptr ≤ a ∧ a - n.data_ptr ∈ Strided.offsets (byteDims n.itemsize dims') := by
  have hbytes : byteDims n.itemsize dims' =
      (dims'.map fun d => (d.size, d.stride)).map fun d => (d.1, d.2 * n.itemsize) := by
    simp [byteDims, Function.comp_def]
  rw [hbytes, Strided.mem_offsets_scale, ← Strided.offsets_perm (hperm.symm.map _), IsElement]
  constructor
  · rintro ⟨x, hx, rfl⟩
    exact ⟨Nat.le_add_right _ _, x, hx, by omega⟩
  · rintro ⟨hle, x, hx, heq⟩
    exact ⟨x, hx, by omega⟩

/-- The sum of sizes times strides does not depend on their order. -/
theorem reach_perm {n : ViewNode} {dims dims' : List Dim} (hperm : dims'.Perm dims) :
    reach n dims' = reach n dims := by
  unfold reach Strided.span
  congr 1
  exact ((hperm.map _).map _).sum_eq

/-- A node at the null address is not hit there. -/
theorem isHit_null {n : ViewNode} {dims : List Dim} (hdims : ∀ d ∈ dims, 0 < d.size)
    (hnull : n.data_ptr = 0) : isHit env n dims 0 = false := by
  have hsit : findClosestStartingAddress n dims 0 = 0 := by
    unfold findClosestStartingAddress
    split_ifs
    · exact hnull
    · rw [hnull]
      cases hinit : dims.dropLast with
      | nil => rfl
      | cons d ds =>
        have hd : 0 < d.size :=
          hdims d (List.dropLast_subset dims (hinit ▸ List.mem_cons_self))
        simp [closestLoop, findLocalStartingAddress_eq n.itemsize_pos hd]
  simp [isHit, hsit]

/-- A layout for which a lookup is exact: the address is not null, there is a dimension, and only
the last stride may be positive. -/
def ExactLayout (n : ViewNode) (dims : List Dim) : Prop :=
  0 < n.data_ptr ∧ dims ≠ [] ∧ ∀ d ∈ dims.dropLast, d.stride = 0

section Node

variable {n : ViewNode} {dims dims' : List Dim}

/-- A node with an exact layout is hit exactly by its elements. -/
theorem isHit_iff_isElement (hperm : dims'.Perm dims) (hdims : ∀ d ∈ dims, 0 < d.size)
    (hlayout : ExactLayout n dims') (hroom : n.data_ptr + reach n dims < 2^64) {a : ℕ}
    (ha : a < 2^64) : isHit env n dims' a = true ↔ IsElement n dims a := by
  obtain ⟨hptr, hne, hzero⟩ := hlayout
  -- The dimensions are those before the last, whose strides are `0`, and the last.
  obtain ⟨init, last, rfl⟩ := (List.eq_nil_or_concat dims').resolve_left hne
  rw [List.concat_eq_append] at *
  rw [List.dropLast_concat] at hzero
  have hdims' : ∀ d ∈ init ++ [last], 0 < d.size := fun d hd => hdims d (hperm.mem_iff.1 hd)
  have hspan : n.data_ptr + Strided.span (byteDims n.itemsize (init ++ [last])) < 2^64 := by
    rw [← reach_perm hperm, reach] at hroom
    omega
  rw [isHit_iff hptr hdims' hspan ha, isElement_iff hperm, byteDims, byteDims, List.map_append]
  refine and_congr_right fun _ => Strided.greedyTest_iff ?_ (hdims' last (by simp)) ?_ _
  · simpa using fun d hd => hdims' d (List.mem_append_left _ hd)
  · intro d hd
    obtain ⟨e, he, rfl⟩ := List.mem_map.1 hd
    simp [hzero e he]

variable (env) in
/-- For any other layout there are words in front of the arrays, and an address within reach, for
which the node is hit without an element there, or not hit with one. -/
theorem exists_not_exact (hperm : dims'.Perm dims) (hdims : ∀ d ∈ dims, 0 < d.size)
    (hlayout : ¬ExactLayout n dims') (hroom : n.data_ptr + 2 * reach n dims < 2^64) :
    ∃ before a, a ≤ n.data_ptr + reach n dims ∧
      ¬(isHit { env with before := before } n dims' a = true ↔ IsElement n dims a) := by
  have hdims' : ∀ d ∈ dims', 0 < d.size := fun d hd => hdims d (hperm.mem_iff.1 hd)
  have hpos := n.itemsize_pos
  rcases Nat.eq_zero_or_pos n.data_ptr with hnull | hptr
  · -- The null address is that of the first element, but it is never hit.
    refine ⟨env.before, 0, Nat.zero_le _, fun h => ?_⟩
    have helement : IsElement n dims 0 :=
      ⟨0, Strided.zero_mem_offsets (by simpa using hdims), by simp [hnull]⟩
    rw [isHit_null hdims' hnull] at h
    exact absurd (h.2 helement) (by simp)
  rcases List.eq_nil_or_concat dims' with rfl | ⟨init, last, rfl⟩
  · -- Without dimensions, what stands in front of the arrays decides.
    refine ⟨fun _ => ⟨2, 1⟩, n.data_ptr + n.itemsize, by simp [reach], fun h => ?_⟩
    obtain rfl := hperm.nil_eq
    have hhit : isHit { env with before := fun _ => ⟨2, 1⟩ } n [] (n.data_ptr + n.itemsize) =
        true := by
      simp only [reach, byteDims, List.map_nil, Strided.span, List.sum_nil, Nat.zero_add] at hroom
      have hsit : findClosestStartingAddress n [] (n.data_ptr + n.itemsize) = n.data_ptr := rfl
      simp only [isHit, hsit, lastDim, List.getLast?_nil, Option.getD_none, Nat.one_mul,
        u64_of_lt (show n.itemsize < 2^64 by omega),
        u64_of_lt (show 2 * n.itemsize < 2^64 by omega),
        subU64_of_le (show n.data_ptr + n.itemsize < 2^64 by omega) (Nat.le_add_right _ _),
        Nat.add_sub_cancel_left, Nat.mod_self, decide_eq_true_eq]
      exact ⟨by omega, Or.inr ⟨by omega, trivial⟩⟩
    obtain ⟨x, hx, heq⟩ := h.1 hhit
    simp only [List.map_nil, Strided.mem_offsets_nil] at hx
    subst hx
    omega
  · -- A positive stride before the last lets an address behind the last element pass.
    rw [List.concat_eq_append] at *
    have hstride : ∃ d ∈ byteDims n.itemsize init, d.2 ≠ 0 := by
      by_contra hnone
      push Not at hnone
      refine hlayout ⟨hptr, by simp, fun d hd => ?_⟩
      rw [List.dropLast_concat] at hd
      have hmul := hnone _ (List.mem_map_of_mem hd)
      exact (Nat.mul_eq_zero.1 hmul).resolve_right (Nat.ne_of_gt hpos)
    -- The greedy test accepts a distance that no element has.
    obtain ⟨r, hr, htest, hout⟩ :=
      Strided.exists_greedyTest (last.size, last.stride * n.itemsize) hstride
    have hbytes : byteDims n.itemsize init ++ [(last.size, last.stride * n.itemsize)] =
        byteDims n.itemsize (init ++ [last]) := by simp [byteDims]
    rw [hbytes] at hr hout
    have hreach : r + n.itemsize ≤ reach n dims := by
      rw [← reach_perm hperm, reach]
      omega
    refine ⟨env.before, n.data_ptr + r, by omega, fun h => ?_⟩
    have hhit : isHit env n (init ++ [last]) (n.data_ptr + r) = true := by
      rw [isHit_iff hptr hdims' (by rw [← reach_perm hperm, reach] at hroom; omega) (by omega)]
      exact ⟨Nat.le_add_right _ _, by rwa [Nat.add_sub_cancel_left]⟩
    have helement := (isElement_iff hperm _).1 (h.1 hhit)
    rw [Nat.add_sub_cancel_left] at helement
    exact hout helement.2

end Node

/-- With an operation on the stack, a lookup returns exactly the input nodes with an element at the
address, for all addresses that the search can take without overflow and whatever stands in front of
the arrays, if and only if every input node has an exact layout after the sort. -/
theorem lookup_exact_iff (env : Env) (s : TorchView) (hstack : s.op_stack ≠ [])
    (ns : List ViewNode)
    (hns : (s.input_viewnode_forest_ptrs.toList.filterMap Prod.snd).mapM (deref s.roots) = some ns)
    (cell : ViewNode → NodeCell)
    (hcells : ∀ n ∈ ns, s.attribution.cells.find? n.ptr = some (cell n))
    (hsize : ∀ n ∈ ns, ∀ d ∈ (cell n).dims, 0 < d.size)
    (hroom : ∀ n ∈ ns, ∀ m ∈ ns,
      n.data_ptr + reach n (cell n).dims + reach m (cell m).dims < 2^64) :
    (∀ (before : ℕ → Dim) (a : ℕ), (∀ n ∈ ns, a + reach n (cell n).dims < 2^64) →
      ∃ hits cells, newGetViewNodesByMemAddr { env with before := before } s s.attribution.cells a
          false = some (hits, cells) ∧
        ∀ n, n ∈ hits ↔ n ∈ ns ∧ IsElement n (cell n).dims a) ↔
    ∀ n ∈ ns, ExactLayout n (cell n).sort.dims := by
  have hpossible : ∀ a, possibleNodes s a false = some ns := by
    intro a
    simp [possibleNodes, hstack, hns]
  have hsorted : ∀ n ∈ ns, sortedDims s.attribution.cells n = (cell n).sort.dims := by
    intro n hn
    unfold sortedDims
    rw [hcells n hn]
    rfl
  have hroom' : ∀ n ∈ ns, n.data_ptr + 2 * reach n (cell n).dims < 2^64 := by
    intro n hn
    have hself := hroom n hn n hn
    omega
  constructor
  · -- A node with another layout is wrongly hit or missed at some address within reach.
    intro h n hn
    by_contra hlayout
    obtain ⟨before, a, ha, hwrong⟩ := exists_not_exact env (cell n).sort_dims_perm
      (hsize n hn) hlayout (hroom' n hn)
    obtain ⟨hits, cells, hlookup, hhits⟩ := h before a fun m hm => by
      have hboth := hroom n hn m hm
      omega
    refine hwrong ?_
    have hhit := (mem_newGetViewNodesByMemAddr (hpossible a) hlookup n).symm.trans (hhits n)
    rw [hsorted n hn] at hhit
    simpa [hn] using hhit
  · -- The lookup has a result, and every node is hit exactly by its elements.
    intro hlayout before a ha
    obtain ⟨hits, cells, hlookup, -⟩ := newGetViewNodesByMemAddr_eq_some
      { env with before := before } (hpossible a) fun n hn => by rw [hcells n hn]; rfl
    refine ⟨hits, cells, hlookup, fun n => ?_⟩
    rw [mem_newGetViewNodesByMemAddr (hpossible a) hlookup n]
    refine and_congr_right fun hn => ?_
    have hself := hroom' n hn
    have hword := ha n hn
    rw [hsorted n hn]
    exact isHit_iff_isElement (cell n).sort_dims_perm (hsize n hn) (hlayout n hn) (by omega)
      (by omega)

/-- The lookups in a vector are exact. -/
theorem lookup_exact_vector : ∃ s,
    run (step countingEnv) (initial false) [.enter ⟨[], [vector 0 1000 2]⟩ []] = some s ∧
      ∀ (before : ℕ → Dim) (a : ℕ), a + 12 < 2^64 →
        ∃ hits cells, newGetViewNodesByMemAddr { countingEnv with before := before } s
            s.attribution.cells a false = some (hits, cells) ∧
          ∀ n, n ∈ hits ↔ n ∈ [firstVector 2] ∧ IsElement n [⟨2, 1⟩] a := by
  obtain ⟨s, hrun, hfacts⟩ := Option.map_eq_some_iff.1
    (show (run (step countingEnv) (initial false) [.enter ⟨[], [vector 0 1000 2]⟩ []]).map
      (fun s => (s.op_stack, (s.input_viewnode_forest_ptrs.toList.filterMap Prod.snd).mapM
        (deref s.roots), s.attribution.cells.find? 0)) =
      some ([⟨[], [vector 0 1000 2]⟩], some [firstVector 2], some ⟨[⟨2, 1⟩], true, false, ∅⟩) by
        decide +kernel)
  simp only [Prod.mk.injEq] at hfacts
  obtain ⟨hstack, hns, hcell⟩ := hfacts
  refine ⟨s, hrun, fun before a ha => ?_⟩
  refine (lookup_exact_iff countingEnv s (by simp [hstack]) [firstVector 2] hns
    (fun _ => ⟨[⟨2, 1⟩], true, false, ∅⟩) ?_ ?_ ?_).2 ?_ before a ?_
  · intro n hn
    rw [List.mem_singleton.1 hn]
    exact hcell
  · intro n hn
    simp
  · intro n hn m hm
    rw [List.mem_singleton.1 hn, List.mem_singleton.1 hm]
    decide
  · intro n hn
    rw [List.mem_singleton.1 hn]
    exact ⟨by decide, by decide, by decide⟩
  · intro n hn
    rw [List.mem_singleton.1 hn]
    exact ha

/-- A contiguous 2×2 matrix of 4-byte elements at 1000. -/
def matrix : TensorData :=
  { vector 0 1000 4 with
    dims := [⟨2, 2⟩, ⟨2, 1⟩]
    dim_le := by decide }

/-- The lookups in a matrix are not exact: it is credited with the byte behind its last element. -/
theorem not_lookup_exact_matrix : ¬∀ (env : Env) (s : TorchView), s.op_stack ≠ [] →
    ∀ (ns : List ViewNode),
    (s.input_viewnode_forest_ptrs.toList.filterMap Prod.snd).mapM (deref s.roots) = some ns →
    ∀ (cell : ViewNode → NodeCell),
    (∀ n ∈ ns, s.attribution.cells.find? n.ptr = some (cell n)) →
    (∀ n ∈ ns, ∀ d ∈ (cell n).dims, 0 < d.size) →
    (∀ n ∈ ns, ∀ m ∈ ns, n.data_ptr + reach n (cell n).dims + reach m (cell m).dims < 2^64) →
    ∀ (a : ℕ), (∀ n ∈ ns, a + reach n (cell n).dims < 2^64) →
      ∃ hits cells, newGetViewNodesByMemAddr env s s.attribution.cells a false =
          some (hits, cells) ∧
        ∀ n, n ∈ hits ↔ n ∈ ns ∧ IsElement n (cell n).dims a := by
  intro h
  obtain ⟨s, hrun, hfacts⟩ := Option.map_eq_some_iff.1
    (show (run (step countingEnv) (initial false) [.enter ⟨[], [matrix]⟩ []]).map
      (fun s => (s.op_stack, (s.input_viewnode_forest_ptrs.toList.filterMap Prod.snd).mapM
        (deref s.roots), s.attribution.cells.find? 0,
        (newGetViewNodesByMemAddr countingEnv s s.attribution.cells 1016 false).map Prod.fst)) =
      some ([⟨[], [matrix]⟩], some [firstVector 4],
        some ⟨[⟨2, 2⟩, ⟨2, 1⟩], true, false, ∅⟩, some [firstVector 4]) by decide +kernel)
  simp only [Prod.mk.injEq] at hfacts
  obtain ⟨hstack, hns, hcell, hhits⟩ := hfacts
  obtain ⟨hits, cells, hlookup, hexact⟩ := h countingEnv s (by simp [hstack]) [firstVector 4] hns
    (fun _ => ⟨[⟨2, 2⟩, ⟨2, 1⟩], true, false, ∅⟩)
    (fun n hn => by rw [List.mem_singleton.1 hn]; exact hcell) (fun n hn => by simp)
    (fun n hn m hm => by rw [List.mem_singleton.1 hn, List.mem_singleton.1 hm]; decide) 1016
    (fun n hn => by rw [List.mem_singleton.1 hn]; decide)
  rw [hlookup, Option.map_some, Option.some.injEq] at hhits
  simp only at hhits
  have helement := ((hexact (firstVector 4)).1 (hhits ▸ List.mem_singleton_self _)).2
  -- The offsets of the matrix are at most 3 elements.
  obtain ⟨x, hx, heq⟩ := helement
  have hle := Strided.le_maxOffset hx
  change x ≤ 3 at hle
  change 1016 = 1000 + 4 * x at heq
  omega

end TenProf.TorchView
