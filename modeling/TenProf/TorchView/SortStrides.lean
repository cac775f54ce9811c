import TenProf.Library.BubbleSort
import TenProf.TorchView.Strides
import TenProf.TorchView.Callback

/-!
# Which strides are sorted

`sort_tensor_strides` is a bubble sort, but the test that ends it when nothing was swapped stands
inside the loop over the pairs, so that a pass ends at once when its first pair is in order. A pass
that does not end at once is one of bubble sort, and after one that does nothing changes any more
(`exists_passes`). So the strides end up sorted exactly when the first element of which not all
strides before it are smaller, at position `p`, is followed only by elements of which fewer than `p`
are (`stridesSorted_sortTensorStrides_iff`). The overload for nodes leaves a node that is marked as
sorted as it is, and a root is marked so when it is made, whatever its strides.
-/

namespace TenProf.TorchView

/-- The strides do not increase. -/
def StridesSorted (dims : List Dim) : Prop := dims.Pairwise fun a b => b.stride ≤ a.stride

/-- The number of dimensions before a position with a smaller stride than the one there. -/
def smallerBefore (dims : List Dim) (m : ℕ) : ℕ :=
  (dims[m]?.map fun d => (dims.take m).countP fun e => e.stride < d.stride).getD 0

/-- Once the stride at a position `p` is not larger than all `p` strides before it, no stride from
there on is larger than `p` of those before it. -/
def Sortable (dims : List Dim) : Prop :=
  ∀ p m, 1 ≤ p → p ≤ m → m < dims.length → smallerBefore dims p < p → smallerBefore dims m < p

/-- A sort is right: the strides do not increase, and the dimensions are permuted. -/
def SortRight (before after : List Dim) : Prop := StridesSorted after ∧ after.Perm before

/-- `sort_tensor_strides` on a tensor. -/
def sortTensor (t : TensorData) : TensorData :=
  { t with
    dims := sortTensorStrides t.dims
    dim_le := by rw [(sortTensorStrides_perm t.dims).length_eq]; exact t.dim_le }

instance (dims : List Dim) : Decidable (StridesSorted dims) := by
  unfold StridesSorted
  infer_instance

/-- No more strides are smaller than there are before it. -/
theorem smallerBefore_le (dims : List Dim) (m : ℕ) : smallerBefore dims m ≤ m := by
  unfold smallerBefore
  cases dims[m]? with
  | none => exact Nat.zero_le m
  | some d => exact List.countP_le_length.trans (List.length_take_le m dims)

/-- The table of the bubble sort counts the smaller strides. -/
theorem getElem?_table_stride {dims : List Dim} {m : ℕ} (h : m < dims.length) :
    (Bubble.table Dim.stride 0 dims)[m]? = some (smallerBefore dims m) := by
  rw [Bubble.getElem?_table, List.getElem?_eq_getElem h]
  simp [smallerBefore, List.getElem?_eq_getElem h]

/-- A pass that has swapped goes on as one of bubble sort. -/
theorem bubblePass_true (k : ℕ) (c : Dim) (ds : List Dim) :
    bubblePass k true (c :: ds) = Bubble.pass Dim.stride k c ds := by
  induction ds generalizing k c with
  | nil => cases k <;> rfl
  | cons b ds ih =>
    cases k with
    | zero => rfl
    | succ k =>
      rw [bubblePass, Bubble.pass]
      split_ifs with h
      · rw [ih]
      · exact congrArg (c :: ·) (ih k b)
      · exact absurd rfl ‹¬true = true›

/-- A pass whose first pair is in order does nothing. -/
theorem bubblePass_of_le (k : ℕ) {a b : Dim} (ds : List Dim) (h : b.stride ≤ a.stride) :
    bubblePass k false (a :: b :: ds) = a :: b :: ds := by
  cases k with
  | zero => rfl
  | succ k => rw [bubblePass, if_neg (not_lt.2 h), if_neg (by simp)]

/-- A pass whose first pair is out of order is one of bubble sort. -/
theorem bubblePass_of_lt (k : ℕ) {a b : Dim} (ds : List Dim) (h : a.stride < b.stride) :
    bubblePass (k + 1) false (a :: b :: ds) = Bubble.pass Dim.stride (k + 1) a (b :: ds) := by
  rw [bubblePass, Bubble.pass, if_pos h, if_pos h, bubblePass_true]

/-- The dimensions after the first `j` passes. -/
def afterPasses (dims : List Dim) (j : ℕ) : List Dim :=
  (List.range j).foldl (fun ds i => bubblePass (dims.length - i - 1) false ds) dims

/-- One more pass. -/
theorem afterPasses_succ (dims : List Dim) (j : ℕ) :
    afterPasses dims (j + 1) = bubblePass (dims.length - j - 1) false (afterPasses dims j) := by
  unfold afterPasses
  rw [List.range_succ, List.foldl_append]
  rfl

/-- Passes permute the dimensions. -/
theorem afterPasses_perm (dims : List Dim) (j : ℕ) : (afterPasses dims j).Perm dims := by
  induction j with
  | zero => exact List.Perm.refl _
  | succ j ih =>
    rw [afterPasses_succ]
    exact (bubblePass_perm _ _ _).trans ih

/-- After `i` passes of bubble sort, a pass whose first pair is out of order is one more. -/
theorem table_bubblePass_of_lt {dims ds : List Dim} {i : ℕ} {a b : Dim} (hi : i + 1 < dims.length)
    (htable : Bubble.table Dim.stride 0 (a :: b :: ds) =
      Bubble.shifted i (Bubble.table Dim.stride 0 dims)) (hlt : a.stride < b.stride) :
    Bubble.table Dim.stride 0 (bubblePass (dims.length - i - 1) false (a :: b :: ds)) =
      Bubble.shifted (i + 1) (Bubble.table Dim.stride 0 dims) := by
  obtain ⟨k, hk⟩ : ∃ k, dims.length - i - 1 = k + 1 := ⟨dims.length - i - 2, by omega⟩
  have htail : Bubble.table Dim.stride {a.stride} (b :: ds) =
      (Bubble.shifted i (Bubble.table Dim.stride 0 dims)).tail := by
    rw [← htable]
    rfl
  rw [hk, bubblePass_of_lt k ds hlt, Bubble.table_pass Dim.stride (by simp) ?_]
  · show (Bubble.table Dim.stride {a.stride} (b :: ds)).map (· - 1) ++ [0] = _
    rw [htail, Bubble.shifted_succ (by simp; omega)]
  · -- Behind the comparisons of this pass the entries are zero.
    show ∀ t ∈ (Bubble.table Dim.stride {a.stride} (b :: ds)).drop (k + 1), t = 0
    have hdrop : (Bubble.shifted i (Bubble.table Dim.stride 0 dims)).drop (1 + (k + 1)) =
        List.replicate i 0 := by
      unfold Bubble.shifted
      refine List.drop_left' ?_
      rw [List.length_map, List.length_drop, Bubble.length_table]
      omega
    rw [htail, ← List.drop_one, List.drop_drop, hdrop]
    exact fun t ht => List.eq_of_mem_replicate ht

/-- The first `j` passes are `i` passes of bubble sort, each of them because its first pair is out
of order, and then, if there are more, passes that do nothing. -/
theorem exists_passes {dims : List Dim} {j : ℕ} (hj : j < dims.length) :
    ∃ i ≤ j, Bubble.table Dim.stride 0 (afterPasses dims j) =
        Bubble.shifted i (Bubble.table Dim.stride 0 dims) ∧
      (∀ p, 1 ≤ p → p ≤ i → smallerBefore dims p = p) ∧
      (i = j ∨ i + 1 < dims.length ∧ smallerBefore dims (i + 1) ≤ i) := by
  induction j with
  | zero => exact ⟨0, le_rfl, (Bubble.shifted_zero _).symm, by omega, Or.inl rfl⟩
  | succ j ih =>
    obtain ⟨i, hij, htable, hgrow, hstop⟩ := ih (by omega)
    -- There are two dimensions at least, and the table says whether the first pair is in order.
    have hlen := (afterPasses_perm dims j).length_eq
    obtain ⟨a, b, ds, hds⟩ : ∃ a b ds, afterPasses dims j = a :: b :: ds := by
      match h : afterPasses dims j with
      | [] => simp [h] at hlen; omega
      | [a] => simp [h] at hlen; omega
      | a :: b :: ds => exact ⟨a, b, ds, rfl⟩
    have hpair : (if a.stride < b.stride then 1 else 0) = smallerBefore dims (i + 1) - i := by
      have hsecond := congrArg (fun t : List ℕ => t[1]?) htable
      simp only [hds, Bubble.getElem?_table, Bubble.shifted] at hsecond
      rw [List.getElem?_append_left (by simp; omega), List.getElem?_map, List.getElem?_drop,
        getElem?_table_stride (by omega)] at hsecond
      simpa using hsecond
    rw [afterPasses_succ, hds]
    by_cases hlt : a.stride < b.stride
    · -- The first pair is out of order, so no pass has ended at once, nor does this one.
      rw [if_pos hlt] at hpair
      have hgt : i < smallerBefore dims (i + 1) := Nat.lt_of_sub_pos (hpair ▸ Nat.one_pos)
      have hall : smallerBefore dims (i + 1) = i + 1 :=
        le_antisymm (smallerBefore_le dims (i + 1)) hgt
      obtain rfl : i = j := hstop.resolve_right fun h => absurd hgt (not_lt.2 h.2)
      refine ⟨i + 1, le_rfl, table_bubblePass_of_lt hj (hds ▸ htable) hlt, fun p hp hpi => ?_,
        Or.inl rfl⟩
      rcases Nat.lt_or_ge i p with hip | hip
      · rw [show p = i + 1 by omega, hall]
      · exact hgrow p hp hip
    · -- The first pair is in order: this pass does nothing.
      rw [if_neg hlt] at hpair
      rw [bubblePass_of_le _ ds (not_lt.1 hlt), ← hds]
      exact ⟨i, by omega, htable, hgrow, Or.inr ⟨by omega, by omega⟩⟩

/-- The strides end up sorted exactly when, from the first stride on that is not larger than all
before it, no stride is larger than as many as stand before that one. -/
theorem stridesSorted_sortTensorStrides_iff (dims : List Dim) :
    StridesSorted (sortTensorStrides dims) ↔ Sortable dims := by
  rcases Nat.eq_zero_or_pos dims.length with hzero | hpos
  · rw [List.eq_nil_of_length_eq_zero hzero]
    simp [StridesSorted, sortTensorStrides, Sortable]
  obtain ⟨i, hi, htable, hgrow, hstop⟩ :=
    exists_passes (show dims.length - 1 < dims.length by omega)
  have hsorted := Bubble.table_eq_zero_iff Dim.stride 0 (afterPasses dims (dims.length - 1))
  rw [htable, Bubble.shifted_eq_zero_iff] at hsorted
  have hresult : StridesSorted (sortTensorStrides dims) ↔ ∀ m x, i ≤ m →
      (Bubble.table Dim.stride 0 dims)[m]? = some x → x ≤ i := by
    rw [hsorted]
    simp only [Multiset.notMem_zero, false_implies, implies_true, and_true]
    rfl
  rw [hresult]
  constructor
  · -- The passes of bubble sort are at positions with only smaller strides before them.
    intro h p m hp hpm hm hsmall
    have hip : i < p := by
      by_contra hge
      have heq := hgrow p hp (by omega)
      omega
    exact (h m _ (by omega) (getElem?_table_stride hm)).trans_lt hip
  · intro h m x him hx
    have hm : m < dims.length := by
      have hlt := (List.getElem?_eq_some_iff.1 hx).1
      simpa using hlt
    rw [getElem?_table_stride hm, Option.some.injEq] at hx
    subst hx
    rcases Nat.eq_or_lt_of_le him with rfl | him
    · exact smallerBefore_le dims i
    · rcases hstop with rfl | ⟨hlt, hle⟩
      · omega
      · exact Nat.lt_succ_iff.1 (h (i + 1) m (by omega) him hm (by omega))

/-- The overload for tensors is right exactly on sortable strides, the one for nodes on sortable
strides if the node is not marked as sorted, and on sorted ones if it is. -/
theorem sortRight_iff (t : TensorData) (c : NodeCell) :
    (SortRight t.dims (sortTensor t).dims ↔ Sortable t.dims) ∧
      (SortRight c.dims c.sort.dims ↔
        if c.is_sorted then StridesSorted c.dims else Sortable c.dims) := by
  have hboth : ∀ dims : List Dim, SortRight dims (sortTensorStrides dims) ↔ Sortable dims :=
    fun dims => (and_iff_left (sortTensorStrides_perm dims)).trans
      (stridesSorted_sortTensorStrides_iff dims)
  refine ⟨hboth t.dims, ?_⟩
  unfold NodeCell.sort
  split_ifs
  · exact and_iff_left (List.Perm.refl _)
  · exact hboth c.dims

/-- A contiguous 2×2×3 tensor whose last two dimensions are transposed. -/
def transposed : TensorData :=
  { vector 0 1000 12 with
    dims := [⟨2, 6⟩, ⟨3, 1⟩, ⟨2, 3⟩]
    metadata_ptr := 1
    dim_le := by decide }

/-- The strides of the tensor are left as they are, and so are those of a root that has only the
last two dimensions. -/
theorem not_sortRight_transposed : ¬SortRight transposed.dims (sortTensor transposed).dims ∧
    ¬∀ c : NodeCell, c = ⟨[⟨3, 1⟩, ⟨2, 3⟩], true, false, ∅⟩ → SortRight c.dims c.sort.dims := by
  constructor
  · intro h
    exact absurd h.1 (by decide +kernel)
  · intro h
    exact absurd (h _ rfl).1 (by decide +kernel)

end TenProf.TorchView
