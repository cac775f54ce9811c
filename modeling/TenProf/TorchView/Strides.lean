import TenProf.Library.Strided
import TenProf.Words
import TenProf.TorchView.State

/-!
# From an address to an element

`sort_tensor_strides`, `find_local_starting_address`, `find_closest_starting_address`, and the test
of `new_get_view_nodes_by_mem_addr` on one node. The sort is a bubble sort whose passes end at once
when the first pair is in order; it permutes the dimensions (`sortTensorStrides_perm`) and need not
sort them. The search for a starting address subtracts from the distance to the first element, as
the greedy test of `Library/Strided.lean` does, the multiples of each stride but the last
(`findClosestStartingAddress_eq`). It does not stop at the size of a dimension.

Addresses are natural numbers in the search, so the sums that it forms do not wrap around.
-/

namespace TenProf.TorchView

/-- One pass of the bubble sort: `k` comparisons of neighbours, of which the first that swaps
nothing ends the pass unless an earlier one swapped. -/
def bubblePass : ℕ → Bool → List Dim → List Dim
  | k + 1, swapped, a :: b :: ds =>
    if a.stride < b.stride then b :: bubblePass k true (a :: ds)
    else if swapped then a :: bubblePass k swapped (b :: ds)
    else a :: b :: ds
  | _, _, ds => ds

/-- `sort_tensor_strides` on the dimensions. -/
def sortTensorStrides (dims : List Dim) : List Dim :=
  (List.range (dims.length - 1)).foldl
    (fun ds i => bubblePass (dims.length - i - 1) false ds) dims

/-- `sort_tensor_strides` on a node. -/
def NodeCell.sort (c : NodeCell) : NodeCell :=
  if c.is_sorted then c else { c with dims := sortTensorStrides c.dims, is_sorted := true }

/-- `find_local_starting_address`. -/
def findLocalStartingAddress (init_address size stride itemsize mem_addr_hit : ℕ)
    (hpos : 0 < itemsize) : ℕ :=
  if 1 ≤ size then
    let sit := init_address + (size - 1) / 2 * itemsize * stride
    if sit = mem_addr_hit then sit
    else if mem_addr_hit < sit then
      findLocalStartingAddress init_address ((size - 1) / 2) stride itemsize mem_addr_hit hpos
    else if mem_addr_hit < sit + itemsize * stride then sit
    else if stride ≠ 0 then
      findLocalStartingAddress (sit + itemsize * stride) (size - size / 2) stride itemsize
        mem_addr_hit hpos
    else sit
  else 0
termination_by mem_addr_hit + 1 - init_address + size
decreasing_by
  · omega
  · have hw : 0 < itemsize * stride := Nat.mul_pos hpos (by omega)
    omega

/-- The loop of `find_closest_starting_address` over the dimensions before the last. -/
def closestLoop (itemsize mem_addr_hit : ℕ) (hpos : 0 < itemsize) : ℕ → List Dim → ℕ
  | sit, [] => sit
  | sit, d :: ds =>
    let sit := findLocalStartingAddress sit d.size d.stride itemsize mem_addr_hit hpos
    if sit = 0 then sit else closestLoop itemsize mem_addr_hit hpos sit ds

/-- `find_closest_starting_address`. -/
def findClosestStartingAddress (n : ViewNode) (dims : List Dim) (mem_addr_hit : ℕ) : ℕ :=
  if dims.length ≤ 1 then n.data_ptr
  else closestLoop n.itemsize mem_addr_hit n.itemsize_pos n.data_ptr dims.dropLast

/-- The dimension `sizes[dim - 1]`, `strides[dim - 1]`. Without dimensions it is read in front of
the arrays. -/
def lastDim (env : Env) (n : ViewNode) (dims : List Dim) : Dim :=
  dims.getLast?.getD (env.before n.ptr)

/-- Whether a node with the given dimensions is hit. -/
def isHit (env : Env) (n : ViewNode) (dims : List Dim) (mem_addr_hit : ℕ) : Bool :=
  let sit := findClosestStartingAddress n dims mem_addr_hit
  let d := lastDim env n dims
  sit ≠ 0 ∧
    (mem_addr_hit = sit ∨
      (subU64 mem_addr_hit sit < u64 (d.size * u64 (d.stride * n.itemsize)) ∧
        subU64 mem_addr_hit sit % u64 (d.stride * n.itemsize) = 0))

/-- The addresses of the elements of a node with the given dimensions: its `data_ptr` plus, in
units of `itemsize`, an index times the stride over all dimensions, one index below the size for
each. -/
def IsElement (n : ViewNode) (dims : List Dim) (a : ℕ) : Prop :=
  ∃ x ∈ Strided.offsets (dims.map fun d => (d.size, d.stride)), a = n.data_ptr + n.itemsize * x

/-- A pass permutes the dimensions. -/
theorem bubblePass_perm (k : ℕ) (swapped : Bool) (ds : List Dim) :
    (bubblePass k swapped ds).Perm ds := by
  fun_induction bubblePass k swapped ds with
  | case1 k swapped a b ds hlt ih => exact (ih.cons b).trans (List.Perm.swap a b ds)
  | case2 k a b ds hge ih => exact ih.cons a
  | case3 k a b ds hge => exact List.Perm.refl _
  | case4 k swapped ds => exact List.Perm.refl _

/-- The sort permutes the dimensions. -/
theorem sortTensorStrides_perm (dims : List Dim) : (sortTensorStrides dims).Perm dims := by
  have hfold : ∀ (is : List ℕ) (ds : List Dim), (is.foldl (fun ds i =>
      bubblePass (dims.length - i - 1) false ds) ds).Perm ds := by
    intro is
    induction is with
    | nil => exact fun ds => List.Perm.refl _
    | cons i is ih => exact fun ds => (ih _).trans (bubblePass_perm _ _ _)
  exact hfold _ _

/-- A sorted node has its dimensions permuted, and is otherwise as before. -/
theorem NodeCell.sort_dims_perm (c : NodeCell) : c.sort.dims.Perm c.dims := by
  unfold NodeCell.sort
  split_ifs
  · exact List.Perm.refl _
  · exact sortTensorStrides_perm _

/-- A sorted node is marked as sorted. -/
theorem NodeCell.is_sorted_sort (c : NodeCell) : c.sort.is_sorted = true := by
  unfold NodeCell.sort
  split_ifs with h
  · exact h
  · rfl

/-- A node that is marked as sorted is left as it is. -/
theorem NodeCell.sort_of_isSorted {c : NodeCell} (h : c.is_sorted = true) : c.sort = c := if_pos h

/-- Sorting a sorted node does nothing. -/
@[simp] theorem NodeCell.sort_sort (c : NodeCell) : c.sort.sort = c.sort :=
  NodeCell.sort_of_isSorted c.is_sorted_sort

/-- The search ends at the largest multiple of the stride that is not behind the address, however
large the dimension, and at `0` when the address lies before its start. -/
theorem findLocalStartingAddress_eq {init_address size stride itemsize mem_addr_hit : ℕ}
    (hpos : 0 < itemsize) (hsize : 0 < size) :
    findLocalStartingAddress init_address size stride itemsize mem_addr_hit hpos =
      if mem_addr_hit < init_address then 0
      else mem_addr_hit - (mem_addr_hit - init_address) % (stride * itemsize) := by
  have hdiv : ∀ (init k w r : ℕ), init + k * w + r - (init + k * w + r - init) % w =
      init + k * w + (r - r % w) := by
    intro init k w r
    have hsub : init + k * w + r - init = r + k * w := by omega
    rw [hsub, Nat.add_mul_mod_self_right]
    have hle := Nat.mod_le r w
    omega
  fun_induction findLocalStartingAddress init_address size stride itemsize mem_addr_hit hpos with
  | case1 init_address size _ sit hsit =>
    -- The middle element has the address.
    have hw : (size - 1) / 2 * itemsize * stride = (size - 1) / 2 * (stride * itemsize) := by ring
    have heq := hdiv init_address ((size - 1) / 2) (stride * itemsize) 0
    simp only [Nat.add_zero, Nat.zero_mod, Nat.sub_zero] at heq
    rw [if_neg (by omega), ← hsit]
    simp only [sit, hw]
    exact heq.symm
  | case2 init_address size _ sit hne hlt ih =>
    rcases Nat.eq_zero_or_pos ((size - 1) / 2) with hzero | hhalf
    · -- Only one index is left, and the address lies before its element.
      have hsit : sit = init_address := by simp [sit, hzero]
      rw [hzero, if_pos (by omega)]
      unfold findLocalStartingAddress
      rfl
    · exact ih hhalf
  | case3 init_address size _ sit hne hge hlt =>
    -- The address lies between the middle element and the next.
    have hw : (size - 1) / 2 * itemsize * stride = (size - 1) / 2 * (stride * itemsize) := by ring
    have hw' : itemsize * stride = stride * itemsize := Nat.mul_comm _ _
    have heq := hdiv init_address ((size - 1) / 2) (stride * itemsize) (mem_addr_hit - sit)
    rw [Nat.mod_eq_of_lt (show mem_addr_hit - sit < stride * itemsize by omega)] at heq
    rw [if_neg (by omega)]
    have hsum : init_address + (size - 1) / 2 * (stride * itemsize) + (mem_addr_hit - sit) =
        mem_addr_hit := by
      rw [← hw]
      omega
    rw [hsum] at heq
    omega
  | case4 init_address size _ sit hne hge hlt hstride ih =>
    have hw : (size - 1) / 2 * itemsize * stride = (size - 1) / 2 * (stride * itemsize) := by ring
    have hw' : itemsize * stride = stride * itemsize := Nat.mul_comm _ _
    rw [ih (by omega), if_neg (by omega), if_neg (by omega)]
    -- Both remainders are that of the distance to the new start.
    have hsub : mem_addr_hit - init_address = mem_addr_hit - (sit + itemsize * stride) +
        ((size - 1) / 2 + 1) * (stride * itemsize) := by
      have hring : ((size - 1) / 2 + 1) * (stride * itemsize) =
          (size - 1) / 2 * (stride * itemsize) + stride * itemsize := by ring
      omega
    rw [hsub, Nat.add_mul_mod_self_right]
  | case5 init_address size _ sit hne hge hlt hstride =>
    -- With stride `0` all elements have the start's address.
    have h0 : stride = 0 := not_not.1 hstride
    have hsit : sit = init_address := by simp [sit, h0]
    rw [if_neg (by omega), h0, Nat.zero_mul, Nat.mod_zero]
    omega
  | case6 init_address size hlt => omega

/-- Dimensions with their steps in bytes. -/
def byteDims (itemsize : ℕ) (dims : List Dim) : List (ℕ × ℕ) :=
  dims.map fun d => (d.size, d.stride * itemsize)

/-- From a start that the address has passed, the loop takes the remainders by all strides. -/
theorem closestLoop_eq {itemsize mem_addr_hit sit : ℕ} (hpos : 0 < itemsize) {ds : List Dim}
    (hds : ∀ d ∈ ds, 0 < d.size) (hsit : 0 < sit) (hle : sit ≤ mem_addr_hit) :
    closestLoop itemsize mem_addr_hit hpos sit ds = mem_addr_hit -
      Strided.residue ((byteDims itemsize ds).map Prod.snd) (mem_addr_hit - sit) := by
  induction ds generalizing sit with
  | nil =>
    simp only [closestLoop, byteDims, List.map_nil, Strided.residue_nil]
    omega
  | cons d ds ih =>
    obtain ⟨hd, hds⟩ := List.forall_mem_cons.1 hds
    have hmod := Nat.mod_le (mem_addr_hit - sit) (d.stride * itemsize)
    have hsub : mem_addr_hit - (mem_addr_hit - (mem_addr_hit - sit) % (d.stride * itemsize)) =
        (mem_addr_hit - sit) % (d.stride * itemsize) := by omega
    simp only [closestLoop, findLocalStartingAddress_eq hpos hd, if_neg (not_lt.2 hle)]
    rw [if_neg (by omega), ih hds (by omega) (by omega), hsub]
    rfl

/-- From a start behind the address, the loop ends at `0`. -/
theorem closestLoop_of_lt {itemsize mem_addr_hit sit : ℕ} (hpos : 0 < itemsize) {d : Dim}
    {ds : List Dim} (hd : 0 < d.size) (hlt : mem_addr_hit < sit) :
    closestLoop itemsize mem_addr_hit hpos sit (d :: ds) = 0 := by
  simp only [closestLoop, findLocalStartingAddress_eq hpos hd, if_pos hlt, if_true]

/-- A node with a non-null address is hit exactly by the addresses whose distance from it passes
the greedy test. -/
theorem isHit_iff {env : Env} {n : ViewNode} {init : List Dim} {last : Dim} {mem_addr_hit : ℕ}
    (hptr : 0 < n.data_ptr) (hsize : ∀ d ∈ init ++ [last], 0 < d.size)
    (hroom : n.data_ptr + Strided.span (byteDims n.itemsize (init ++ [last])) < 2^64)
    (haddr : mem_addr_hit < 2^64) :
    isHit env n (init ++ [last]) mem_addr_hit = true ↔ n.data_ptr ≤ mem_addr_hit ∧
      Strided.GreedyTest (byteDims n.itemsize init) (last.size, last.stride * n.itemsize)
        (mem_addr_hit - n.data_ptr) := by
  have hinit : ∀ d ∈ init, 0 < d.size := fun d hd => hsize d (List.mem_append_left _ hd)
  have hlast : 0 < last.size := hsize last (by simp)
  -- The size of the last dimension in bytes is a word.
  have hspan : last.size * (last.stride * n.itemsize) ≤
      Strided.span (byteDims n.itemsize (init ++ [last])) := by
    simp [Strided.span, byteDims]
  have hstep : last.stride * n.itemsize ≤ last.size * (last.stride * n.itemsize) :=
    Nat.le_mul_of_pos_left _ hlast
  have hdim : lastDim env n (init ++ [last]) = last := by simp [lastDim]
  have hstep64 : u64 (last.stride * n.itemsize) = last.stride * n.itemsize :=
    u64_of_lt (by omega)
  have hdim64 : u64 (last.size * (last.stride * n.itemsize)) =
      last.size * (last.stride * n.itemsize) := u64_of_lt (by omega)
  simp only [isHit, hdim, decide_eq_true_eq, hstep64, hdim64]
  rcases Nat.lt_or_ge mem_addr_hit n.data_ptr with hlt | hge
  · -- Before the first element the search ends at `0`, or the wrapped distance is out of range.
    simp only [hlt.not_ge, false_and, iff_false, not_and, not_or]
    cases init with
    | nil =>
      have hsit : findClosestStartingAddress n ([] ++ [last]) mem_addr_hit = n.data_ptr := by
        simp [findClosestStartingAddress]
      rw [hsit, subU64_of_lt (by omega) hlt]
      omega
    | cons d ds =>
      have hsit : findClosestStartingAddress n (d :: ds ++ [last]) mem_addr_hit = 0 := by
        rw [findClosestStartingAddress, if_neg (by simp), List.dropLast_concat]
        exact closestLoop_of_lt _ (hinit d List.mem_cons_self) hlt
      exact fun hne => absurd hsit hne
  · -- From the first element on, what the search leaves is the residue.
    have hsit : findClosestStartingAddress n (init ++ [last]) mem_addr_hit = mem_addr_hit -
        Strided.residue ((byteDims n.itemsize init).map Prod.snd) (mem_addr_hit - n.data_ptr) := by
      rw [← closestLoop_eq n.itemsize_pos hinit hptr hge, findClosestStartingAddress,
        List.dropLast_concat]
      cases init with
      | nil => rfl
      | cons d ds => rw [if_neg (by simp)]
    have hres : Strided.residue ((byteDims n.itemsize init).map Prod.snd)
        (mem_addr_hit - n.data_ptr) ≤ mem_addr_hit - n.data_ptr := Strided.residue_le _ _
    rw [hsit, subU64_of_le haddr (by omega)]
    simp only [Strided.GreedyTest, hge, true_and]
    generalize Strided.residue ((byteDims n.itemsize init).map Prod.snd)
      (mem_addr_hit - n.data_ptr) = r at hres ⊢
    have hsub : mem_addr_hit - (mem_addr_hit - r) = r := by omega
    rw [hsub]
    constructor
    · rintro ⟨-, heq | htest⟩
      · exact Or.inl (by omega)
      · exact Or.inr htest
    · rintro (hzero | htest)
      · exact ⟨by omega, Or.inl (by omega)⟩
      · exact ⟨by omega, Or.inr htest⟩

end TenProf.TorchView
