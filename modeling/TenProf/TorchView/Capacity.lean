import TenProf.Library.Loops
import TenProf.TorchMonitor.Profiler
import TenProf.TorchView.Strides
import Mathlib.Algebra.BigOperators.Ring.List

/-!
# The capacities of the callback data

`store_inputs_outputs_info` fills the entries of `tensor_data`, and `store_tensor_info` the
dimensions of an entry, up to the capacity of the arrays, and stores the number of all of them
beside. The loops of `torch_view_callback` and the search of `update_view_forest` for a parent go by
that number, and so do `sort_tensor_strides` and `find_closest_starting_address`, on nodes whose
constructor keeps to the capacity again. Here an array is the list of its filled entries, and a read
that is not of one of them has no result. `reads_right_iff` says for which operations all reads are
right.
-/

namespace TenProf.TorchView

open Profiler

/-! ## The reads -/

/-- A read of an array with a capacity, of which the first entries are filled. -/
def readAt {α : Type*} (capacity : ℕ) (filled : List α) (i : ℕ) : Option α :=
  if i < capacity then filled[i]? else none

/-- A read of `tensor_data`. -/
def readTensor (data : InputOutputData) (i : ℕ) : Option TensorEntry :=
  readAt TORCH_MONITOR_MAX_INPUTS_OUTPUTS_SIZE data.tensor_data i

/-- A read of `sizes` and `strides`. -/
def readDim (dims : List Dim) (i : ℕ) : Option Dim :=
  readAt TORCH_MONITOR_MAX_TENSOR_DIMENSION dims i

/-- The entries that the consumers skip. -/
def skips (titer : TensorEntry) : Bool := titer.index = -1 || titer.numel ≤ 0

/-- The loop of `torch_view_callback` at ENTER: for each position the tensor that the forest is
updated with, if it is not skipped. -/
def enterLoop (data : InputOutputData) : Option (List (Option TensorEntry)) :=
  (List.range data.size).mapM fun i => (readTensor data i).map fun titer =>
    if skips titer then none else some titer

/-- The loop of `torch_view_callback` at EXIT, if there is an operation on the stack: the tensors
that the forest is updated with. -/
def exitLoop (op_stack : List InputOutputData) (data : InputOutputData) :
    Option (List TensorEntry) :=
  match op_stack with
  | [] => some []
  | _ :: _ => (enterLoop data).map fun titers => titers.filterMap id

/-- The turns that are left of the search of `update_view_forest` for the parent of a tensor at
`data_ptr` in a tree, from the position `i` on. -/
def parentLoop (r : Tree ViewNode) (data_ptr : ℕ) (data : InputOutputData) :
    (turns i : ℕ) → Option (Option ViewNode)
  | 0, _ => some none
  | turns + 1, i => (readTensor data i).bind fun u =>
    if skips u then parentLoop r data_ptr data turns (i + 1)
    else
      match (r.find? fun n => n.key = (u.data_ptr, u.metadata_ptr)).filter fun v =>
        v.mem_block_range.1 ≤ data_ptr ∧ data_ptr ≤ v.mem_block_range.2 with
      | none => parentLoop r data_ptr data turns (i + 1)
      | some v => some (some v)

/-- The search of `update_view_forest` for a parent among the inputs on top of the stack. -/
def parentSearch (r : Tree ViewNode) (data_ptr : ℕ) (data : InputOutputData) :
    Option (Option ViewNode) :=
  parentLoop r data_ptr data data.size 0

/-- A `ViewNode`, as far as the two functions below read it, with the dimensions that its
constructor has filled. -/
structure ArrayNode where
  dim : ℕ
  dims : List Dim
  is_sorted : Bool
  data_ptr : ℕ
  itemsize : ℕ
  itemsize_pos : 0 < itemsize

/-- The constructor of a root, which counts as sorted, and of any other node. It compares the number
of dimensions as an `int`. -/
def ArrayNode.new (is_sorted : Bool) (t : TensorEntry) (hpos : 0 < t.itemsize) : ArrayNode where
  dim := t.dim
  dims := t.dims.take (min (TORCH_MONITOR_MAX_TENSOR_DIMENSION : ℤ) (i32 t.dim)).toNat
  is_sorted := is_sorted
  data_ptr := t.data_ptr
  itemsize := t.itemsize
  itemsize_pos := hpos

/-- The comparisons that are left of a pass of `sort_tensor_strides`, from the position `j` on. -/
def sortPass : (turns j : ℕ) → Bool → List Dim → Option (List Dim)
  | 0, _, _, dims => some dims
  | turns + 1, j, swapped, dims =>
    (readDim dims j).bind fun a => (readDim dims (j + 1)).bind fun b =>
      if a.stride < b.stride then sortPass turns (j + 1) true ((dims.set j b).set (j + 1) a)
      else if swapped then sortPass turns (j + 1) swapped dims
      else some dims

/-- `sort_tensor_strides`. -/
def ArrayNode.sort (n : ArrayNode) : Option ArrayNode :=
  if n.is_sorted then some n
  else
    ((List.range (n.dim - 1)).foldlM (fun dims i => sortPass (n.dim - i - 1) 0 false dims)
      n.dims).map fun dims => { n with dims := dims, is_sorted := true }

/-- The turns that are left of the loop of `find_closest_starting_address`, from the dimension `i`
on. -/
def closestFrom (itemsize mem_addr_hit : ℕ) (hpos : 0 < itemsize) (dims : List Dim) :
    (turns i sit : ℕ) → Option ℕ
  | 0, _, sit => some sit
  | turns + 1, i, sit => (readDim dims i).bind fun d =>
    let sit := findLocalStartingAddress sit d.size d.stride itemsize mem_addr_hit hpos
    if sit = 0 then some sit
    else closestFrom itemsize mem_addr_hit hpos dims turns (i + 1) sit

/-- `find_closest_starting_address`. -/
def ArrayNode.findClosest (n : ArrayNode) (mem_addr_hit : ℕ) : Option ℕ :=
  if n.dim ≤ 1 then some n.data_ptr
  else closestFrom n.itemsize mem_addr_hit n.itemsize_pos n.dims (n.dim - 1) 0 n.data_ptr

/-! ## What is right -/

/-- A node is sorted with reads that are right, and then searched with reads that are right,
whatever the address. -/
def ArrayNode.ReadsRight (n : ArrayNode) : Prop :=
  ∃ sorted, n.sort = some sorted ∧ ∀ mem_addr_hit, (sorted.findClosest mem_addr_hit).isSome

/-- All reads of the data of an operation are right: those of the two loops, whatever is on the
stack, those of the search for a parent in any tree, and those of the nodes that are made from its
tensors, as roots or not. -/
structure ReadsRight (inputs outputs : List IValue) : Prop where
  enter : (enterLoop (storeInputsOutputsInfo inputs)).isSome
  exit : ∀ op_stack, (exitLoop op_stack (storeInputsOutputsInfo outputs)).isSome
  parent : ∀ r data_ptr, (parentSearch r data_ptr (storeInputsOutputsInfo inputs)).isSome
  nodes : ∀ t ∈ (storeInputsOutputsInfo inputs).tensor_data ++
      (storeInputsOutputsInfo outputs).tensor_data, skips t = false →
    ∀ hpos is_sorted, (ArrayNode.new is_sorted t hpos).ReadsRight

/-- The first two strides do not increase. -/
def FrontInOrder : List Dim → Prop
  | a :: b :: _ => b.stride ≤ a.stride
  | _ => True

/-- The dimensions of a tensor fit in the arrays, or no read behind them is made: the first two
strides, if they are filled, are in order, so that the sort stops there, and there is but one more
dimension than fit, which the search does not read, or the search stops at the first one, at a null
pointer. -/
def DimsFit (t : Tensor) : Prop :=
  t.dims.length ≤ TORCH_MONITOR_MAX_TENSOR_DIMENSION ∨ FrontInOrder t.dims ∧
    (t.dims.length = TORCH_MONITOR_MAX_TENSOR_DIMENSION + 1 ∨
      t.data_ptr = 0 ∧ t.dims.head?.map Dim.stride = some 0 ∧ 2 ≤ i32 t.dims.length)

/-- What ATen says of a tensor: the number of its elements is the product of its sizes, and an
element has at least one byte. -/
structure FromAten (t : Tensor) : Prop where
  numel_eq : t.numel = (t.dims.map Dim.size).prod
  itemsize_pos : 0 < t.itemsize

/-! ## The entries -/

section

variable {α : Type*} {capacity i : ℕ} {filled : List α}

/-- A read of an entry that is filled. -/
theorem readAt_of_lt (hle : filled.length ≤ capacity) (hi : i < filled.length) :
    readAt capacity filled i = filled[i]? :=
  if_pos (hi.trans_le hle)

/-- A read behind the entries that are filled. -/
theorem readAt_of_le (hi : filled.length ≤ i) : readAt capacity filled i = none := by
  unfold readAt
  split
  · exact List.getElem?_eq_none hi
  · rfl

/-- A read has a result where an entry is filled. -/
theorem isSome_readAt (hle : filled.length ≤ capacity) :
    (readAt capacity filled i).isSome ↔ i < filled.length := by
  refine ⟨fun hsome => ?_, fun hi => ?_⟩
  · by_contra hge
    rw [readAt_of_le (not_lt.1 hge)] at hsome
    cases hsome
  · rw [readAt_of_lt hle hi, List.getElem?_eq_getElem hi, Option.isSome_some]

end

section

variable {data : InputOutputData} {values : List IValue}

/-- The entries that `store_inputs_outputs_info` fills. -/
theorem length_tensor_data (values : List IValue) :
    (storeInputsOutputsInfo values).tensor_data.length =
      min TORCH_MONITOR_MAX_INPUTS_OUTPUTS_SIZE values.length := by
  unfold storeInputsOutputsInfo
  rw [List.length_mapIdx, List.length_take]

/-- The loops read right when the number of values is not above the capacity. -/
theorem isSome_enterLoop_iff (values : List IValue) :
    (enterLoop (storeInputsOutputsInfo values)).isSome ↔
      values.length ≤ TORCH_MONITOR_MAX_INPUTS_OUTPUTS_SIZE := by
  have hlen := length_tensor_data values
  have hread : ∀ i, (readTensor (storeInputsOutputsInfo values) i).isSome ↔
      i < min TORCH_MONITOR_MAX_INPUTS_OUTPUTS_SIZE values.length := fun i => by
    rw [← hlen]
    exact isSome_readAt (hlen ▸ min_le_left _ _)
  unfold enterLoop
  simp only [isSome_mapM_iff, List.mem_range, Option.isSome_map, hread]
  refine ⟨fun hall => ?_, fun hfits i hi => ?_⟩
  · by_contra hmany
    -- The loop reads the first entry behind the array.
    have hfirst := hall TORCH_MONITOR_MAX_INPUTS_OUTPUTS_SIZE (not_le.1 hmany)
    omega
  · have hlt : i < values.length := hi
    omega

/-- The search for a parent reads right when there are no more turns than entries. -/
theorem isSome_parentLoop (r : Tree ViewNode) (data_ptr : ℕ)
    (hle : data.tensor_data.length ≤ TORCH_MONITOR_MAX_INPUTS_OUTPUTS_SIZE) {turns i : ℕ}
    (hturns : i + turns ≤ data.tensor_data.length) :
    (parentLoop r data_ptr data turns i).isSome := by
  induction turns generalizing i with
  | zero => rfl
  | succ turns ih =>
    obtain ⟨u, hu⟩ := Option.isSome_iff_exists.1
      ((isSome_readAt (i := i) hle).2 (by omega))
    have hread : readTensor data i = some u := hu
    rw [parentLoop, hread, Option.bind_some]
    split
    · exact ih (by omega)
    · split
      · exact ih (by omega)
      · rfl

/-- An entry that is not skipped is that of a tensor with elements. -/
theorem exists_of_mem_tensor_data {t : TensorEntry}
    (ht : t ∈ (storeInputsOutputsInfo values).tensor_data) (hskips : skips t = false) :
    ∃ tensor i, some tensor ∈ values ∧ 0 < tensor.numel ∧ t = storeTensorInfo i tensor := by
  obtain ⟨i, hi, rfl⟩ := List.mem_mapIdx.1 ht
  have hmem := List.mem_of_mem_take (List.getElem_mem hi)
  cases hele : (List.take TORCH_MONITOR_MAX_INPUTS_OUTPUTS_SIZE values)[i] with
  | none =>
    rw [hele] at hskips
    cases hskips
  | some tensor =>
    rw [hele] at hmem hskips
    refine ⟨tensor, i, hmem, Nat.pos_of_ne_zero fun hzero => ?_, rfl⟩
    simp [skips, storeTensorInfo, hzero] at hskips

/-- A tensor with elements has an entry that is not skipped, if there is room for all entries. -/
theorem mem_tensor_data (hfits : values.length ≤ TORCH_MONITOR_MAX_INPUTS_OUTPUTS_SIZE)
    {tensor : Tensor} (hmem : some tensor ∈ values) (hnumel : 0 < tensor.numel) :
    ∃ i, storeTensorInfo i tensor ∈ (storeInputsOutputsInfo values).tensor_data ∧
      skips (storeTensorInfo i tensor) = false := by
  obtain ⟨i, hi, hget⟩ := List.getElem_of_mem hmem
  refine ⟨i, List.mem_mapIdx.2 ⟨i, by simp; omega, by simp [hget]⟩, ?_⟩
  have hindex : ¬(i : ℤ) = -1 := by omega
  simp [skips, storeTensorInfo, hnumel, hindex, Nat.pos_iff_ne_zero.1 hnumel]

end

/-! ## The sort -/

section

variable {dims : List Dim} {turns i j : ℕ}

theorem readDim_eq (hle : dims.length ≤ TORCH_MONITOR_MAX_TENSOR_DIMENSION)
    (hi : i < dims.length) : readDim dims i = some dims[i] := by
  rw [← List.getElem?_eq_getElem hi]
  exact readAt_of_lt hle hi

theorem readDim_of_le (hi : dims.length ≤ i) : readDim dims i = none := readAt_of_le hi

/-- Inside the array, a pass is the one on lists, on what is left of the list. -/
theorem sortPass_append (pre ds : List Dim)
    (hle : (pre ++ ds).length ≤ TORCH_MONITOR_MAX_TENSOR_DIMENSION) (hturns : turns < ds.length)
    (swapped : Bool) : sortPass turns pre.length swapped (pre ++ ds) =
      some (pre ++ bubblePass turns swapped ds) := by
  -- By induction on the comparisons that are left: the first element goes to the part in front.
  induction turns generalizing pre ds swapped with
  | zero => rfl
  | succ turns ih =>
    obtain _ | ⟨a, _ | ⟨b, ds⟩⟩ := ds
    · simp at hturns
    · simp at hturns
    · have hturns' : turns < (a :: ds).length := by simpa using hturns
      have hlen : (pre ++ a :: b :: ds).length = pre.length + (ds.length + 2) := by simp
      have ha : readDim (pre ++ a :: b :: ds) pre.length = some a := by
        rw [readDim_eq hle (by omega)]
        simp
      have hb : readDim (pre ++ a :: b :: ds) (pre.length + 1) = some b := by
        rw [readDim_eq hle (by omega)]
        simp
      rw [sortPass, ha, hb, Option.bind_some, Option.bind_some, bubblePass]
      split_ifs with hlt hswapped
      · -- The first element is the smaller one, and the other one goes to the front.
        have hset : ((pre ++ a :: b :: ds).set pre.length b).set (pre.length + 1) a =
            (pre ++ [b]) ++ a :: ds := by simp
        have hlength : pre.length + 1 = (pre ++ [b]).length := by simp
        calc sortPass turns (pre.length + 1) true
              (((pre ++ a :: b :: ds).set pre.length b).set (pre.length + 1) a)
            = sortPass turns (pre ++ [b]).length true ((pre ++ [b]) ++ a :: ds) := by
              rw [hset, hlength]
          _ = some ((pre ++ [b]) ++ bubblePass turns true (a :: ds)) :=
              ih (pre ++ [b]) (a :: ds) (by simpa using hle) hturns' true
          _ = some (pre ++ b :: bubblePass turns true (a :: ds)) := by
              rw [List.append_assoc, List.singleton_append]
      · have hsplit : pre ++ a :: b :: ds = (pre ++ [a]) ++ b :: ds := by simp
        have hlength : pre.length + 1 = (pre ++ [a]).length := by simp
        calc sortPass turns (pre.length + 1) swapped (pre ++ a :: b :: ds)
            = sortPass turns (pre ++ [a]).length swapped ((pre ++ [a]) ++ b :: ds) := by
              rw [hsplit, hlength]
          _ = some ((pre ++ [a]) ++ bubblePass turns swapped (b :: ds)) :=
              ih (pre ++ [a]) (b :: ds) (by simpa using hle) hturns' swapped
          _ = some (pre ++ a :: bubblePass turns swapped (b :: ds)) := by
              rw [List.append_assoc, List.singleton_append]
      · rfl

/-- A pass that has swapped goes on to the end of its pairs. -/
theorem sortPass_swapped (hturns : 0 < turns) (hend : dims.length ≤ j + turns) :
    sortPass turns j true dims = none := by
  -- By induction on the comparisons that are left: none of them ends the pass.
  induction turns generalizing j dims with
  | zero => omega
  | succ turns ih =>
    rw [sortPass]
    cases ha : readDim dims j with
    | none => rfl
    | some a =>
      cases hb : readDim dims (j + 1) with
      | none => rfl
      | some b =>
        have hlt : j + 1 < dims.length := by
          by_contra hge
          rw [readDim_of_le (not_lt.1 hge)] at hb
          cases hb
        rw [Option.bind_some, Option.bind_some, if_pos rfl]
        split_ifs
        · exact ih (by omega) (by simp; omega)
        · exact ih (by omega) (by omega)

/-- A pass whose first pair is in order stops there. -/
theorem sortPass_of_inOrder {a b : Dim} (ha : readDim dims 0 = some a)
    (hb : readDim dims 1 = some b) (hle : b.stride ≤ a.stride) (turns : ℕ) :
    sortPass turns 0 false dims = some dims := by
  cases turns with
  | zero => rfl
  | succ turns =>
    rw [sortPass, ha, Option.bind_some, Nat.zero_add, hb, Option.bind_some, if_neg (not_lt.2 hle),
      if_neg (by simp)]

end

section

variable {n : ArrayNode}

/-- A node whose dimensions are all filled is sorted as the lists are. -/
theorem ArrayNode.sort_eq (hsorted : n.is_sorted = false) (hdim : n.dims.length = n.dim)
    (hle : n.dim ≤ TORCH_MONITOR_MAX_TENSOR_DIMENSION) :
    n.sort = some { n with dims := sortTensorStrides n.dims, is_sorted := true } := by
  have hpasses : ∀ (is : List ℕ) (dims : List Dim), dims.length = n.dim → (∀ i ∈ is, i < n.dim) →
      is.foldlM (fun dims i => sortPass (n.dim - i - 1) 0 false dims) dims =
        some (is.foldl (fun dims i => bubblePass (n.dim - i - 1) false dims) dims) := by
    intro is
    induction is with
    | nil => exact fun _ _ _ => rfl
    | cons i is ih =>
      intro dims hlen his
      obtain ⟨hi, his⟩ := List.forall_mem_cons.1 his
      have hpass := sortPass_append [] dims (by simpa [hlen] using hle)
        (show n.dim - i - 1 < dims.length by omega) false
      rw [List.nil_append, List.nil_append, List.length_nil] at hpass
      rw [List.foldlM_cons, hpass, List.foldl_cons]
      exact ih _ ((bubblePass_perm _ _ _).length_eq.trans hlen) his
  unfold ArrayNode.sort sortTensorStrides
  rw [hsorted, if_neg (by simp), hpasses _ _ hdim fun i hi => by
    have := List.mem_range.1 hi
    omega, hdim]
  rfl

/-- A node with one dimension more than are filled, or even more, is sorted if its first two
dimensions are filled and in order, and is left as it is. -/
theorem ArrayNode.sort_eq_of_inOrder {a b : Dim} (ha : readDim n.dims 0 = some a)
    (hb : readDim n.dims 1 = some b) (hle : b.stride ≤ a.stride) :
    n.sort = some { n with is_sorted := true } := by
  have hpasses : ∀ is : List ℕ,
      is.foldlM (fun dims i => sortPass (n.dim - i - 1) 0 false dims) n.dims = some n.dims := by
    intro is
    induction is with
    | nil => rfl
    | cons i is ih =>
      rw [List.foldlM_cons, sortPass_of_inOrder ha hb hle]
      exact ih
  unfold ArrayNode.sort
  split_ifs with hsorted
  · cases n
    cases hsorted
    rfl
  · rw [hpasses]
    rfl

/-- A node with more dimensions than are filled is sorted only if the first two dimensions are
filled and in order. -/
theorem ArrayNode.inOrder_of_sort {sorted : ArrayNode} (hsorted : n.is_sorted = false)
    (hmany : n.dims.length < n.dim) (hdim : 2 ≤ n.dim) (h : n.sort = some sorted) :
    ∃ a b, readDim n.dims 0 = some a ∧ readDim n.dims 1 = some b ∧ b.stride ≤ a.stride := by
  obtain ⟨turns, hturns⟩ : ∃ turns, n.dim = turns + 2 := ⟨n.dim - 2, by omega⟩
  unfold ArrayNode.sort at h
  rw [hsorted, if_neg (by simp), hturns] at h
  have hrange : List.range (turns + 2 - 1) = 0 :: (List.range turns).map Nat.succ :=
    List.range_succ_eq_map
  rw [hrange, List.foldlM_cons] at h
  obtain ⟨_, h, -⟩ := Option.map_eq_some_iff.1 h
  obtain ⟨dims, hfirst, -⟩ := Option.bind_eq_some_iff.1 h
  -- The first pass reads the first pair, and all others unless the first one is in order.
  rw [show turns + 2 - 0 - 1 = turns + 1 by omega, sortPass] at hfirst
  obtain ⟨a, ha, hfirst⟩ := Option.bind_eq_some_iff.1 hfirst
  obtain ⟨b, hb, hfirst⟩ := Option.bind_eq_some_iff.1 hfirst
  refine ⟨a, b, ha, hb, not_lt.1 fun hlt => ?_⟩
  rw [if_pos hlt] at hfirst
  rcases Nat.eq_zero_or_pos turns with rfl | hpos
  · -- Two dimensions, of which the second one is not filled.
    rw [Nat.zero_add, readDim_of_le (by omega)] at hb
    cases hb
  · rw [sortPass_swapped hpos (by simp; omega)] at hfirst
    cases hfirst

end

/-! ## The search -/

section

variable {dims : List Dim} {itemsize mem_addr_hit turns i sit : ℕ} {hpos : 0 < itemsize}

/-- Inside the array, the search is the one on lists. -/
theorem closestFrom_eq (hle : dims.length ≤ TORCH_MONITOR_MAX_TENSOR_DIMENSION)
    (hend : i + turns ≤ dims.length) : closestFrom itemsize mem_addr_hit hpos dims turns i sit =
      some (closestLoop itemsize mem_addr_hit hpos sit ((dims.drop i).take turns)) := by
  induction turns generalizing i sit with
  | zero => rfl
  | succ turns ih =>
    have hi : i < dims.length := by omega
    rw [closestFrom, readDim_eq hle hi, Option.bind_some, List.drop_eq_getElem_cons hi,
      List.take_succ_cons, closestLoop]
    simp only
    split_ifs
    · rfl
    · exact ih (by omega)

/-- What a read of `sizes` and `strides` gives is one of the dimensions. -/
theorem mem_of_readDim {d : Dim} (h : readDim dims i = some d) : d ∈ dims ∧ i < dims.length := by
  unfold readDim readAt at h
  split_ifs at h
  exact ⟨List.mem_of_getElem? h, (List.getElem?_eq_some_iff.1 h).1⟩

/-- A search that stands at the address itself goes on, up to a read behind the entries that are
filled. -/
theorem closestFrom_self (hsize : ∀ d ∈ dims, 0 < d.size) (haddr : 0 < mem_addr_hit)
    (hi : i ≤ dims.length) (hend : dims.length < i + turns) :
    closestFrom itemsize mem_addr_hit hpos dims turns i mem_addr_hit = none := by
  induction turns generalizing i with
  | zero => omega
  | succ turns ih =>
    rw [closestFrom]
    cases hread : readDim dims i with
    | none => rfl
    | some d =>
      obtain ⟨hmem, hlt⟩ := mem_of_readDim hread
      have hsit : findLocalStartingAddress mem_addr_hit d.size d.stride itemsize mem_addr_hit hpos =
          mem_addr_hit := by
        rw [findLocalStartingAddress_eq hpos (hsize d hmem), if_neg (lt_irrefl _), Nat.sub_self,
          Nat.zero_mod, Nat.sub_zero]
      rw [Option.bind_some]
      simp only [hsit]
      rw [if_neg haddr.ne']
      exact ih (by omega) (by omega)

/-- From a null pointer, the search reads right behind the entries that are filled only if it stops
at the first dimension, because all its elements have one address. -/
theorem isSome_closestFrom_zero {d : Dim} (hsize : ∀ d ∈ dims, 0 < d.size)
    (hread : readDim dims 0 = some d) (hend : dims.length < turns) :
    (∀ mem_addr_hit, (closestFrom itemsize mem_addr_hit hpos dims turns 0 0).isSome) ↔
      d.stride = 0 := by
  obtain ⟨hmem, hlen⟩ := mem_of_readDim hread
  obtain ⟨turns, rfl⟩ : ∃ k, turns = k + 1 := ⟨turns - 1, by omega⟩
  have hfirst : ∀ mem_addr_hit,
      findLocalStartingAddress 0 d.size d.stride itemsize mem_addr_hit hpos =
        mem_addr_hit - mem_addr_hit % (d.stride * itemsize) := fun mem_addr_hit => by
    rw [findLocalStartingAddress_eq hpos (hsize d hmem), if_neg (Nat.not_lt_zero _), Nat.sub_zero]
  simp only [closestFrom, hread, Option.bind_some, hfirst]
  refine ⟨fun hall => by_contra fun hstride => ?_, fun hstride mem_addr_hit => ?_⟩
  · -- At the second element of the first dimension the search goes on.
    have hstep : 0 < d.stride * itemsize := Nat.mul_pos (Nat.pos_of_ne_zero hstride) hpos
    have hgoes := hall (d.stride * itemsize)
    rw [Nat.mod_self, Nat.sub_zero, if_neg hstep.ne',
      closestFrom_self hsize hstep hlen (by omega)] at hgoes
    cases hgoes
  · rw [hstride, Nat.zero_mul, Nat.mod_zero, Nat.sub_self, if_pos rfl]
    rfl

end

/-! ## A tensor -/

section

variable {n : ArrayNode} {tensor : Tensor} {i : ℕ}

/-- A search that reads no dimension behind those that are filled. -/
theorem ArrayNode.isSome_findClosest (hle : n.dims.length ≤ TORCH_MONITOR_MAX_TENSOR_DIMENSION)
    (hdim : n.dim - 1 ≤ n.dims.length) (mem_addr_hit : ℕ) :
    (n.findClosest mem_addr_hit).isSome := by
  unfold ArrayNode.findClosest
  split_ifs
  · rfl
  · rw [closestFrom_eq hle (by omega)]
    rfl

/-- A node whose dimensions are all filled is read right. -/
theorem ArrayNode.readsRight_of_filled (hdim : n.dims.length = n.dim)
    (hle : n.dim ≤ TORCH_MONITOR_MAX_TENSOR_DIMENSION) : n.ReadsRight := by
  cases hsorted : n.is_sorted with
  | true =>
    refine ⟨n, by rw [ArrayNode.sort, if_pos hsorted], fun mem_addr_hit => ?_⟩
    exact n.isSome_findClosest (by omega) (by omega) mem_addr_hit
  | false =>
    refine ⟨_, ArrayNode.sort_eq hsorted hdim hle, fun mem_addr_hit => ?_⟩
    have hlen : (sortTensorStrides n.dims).length = n.dim :=
      (sortTensorStrides_perm n.dims).length_eq.trans hdim
    refine ArrayNode.isSome_findClosest ?_ ?_ mem_addr_hit
    · exact hlen.le.trans hle
    · show n.dim - 1 ≤ (sortTensorStrides n.dims).length
      omega

/-- A node with more dimensions than are filled is searched with reads that are right, whatever the
address, exactly when only the last dimension is not filled, which the search does not read, or it
stops at the first one. -/
theorem ArrayNode.isSome_findClosest_iff {a : Dim} (hsize : ∀ d ∈ n.dims, 0 < d.size)
    (hle : n.dims.length ≤ TORCH_MONITOR_MAX_TENSOR_DIMENSION) (hmany : n.dims.length < n.dim)
    (ha : readDim n.dims 0 = some a) : (∀ mem_addr_hit, (n.findClosest mem_addr_hit).isSome) ↔
      n.dim = n.dims.length + 1 ∨ n.data_ptr = 0 ∧ a.stride = 0 := by
  have hlen := (mem_of_readDim ha).2
  by_cases hlast : n.dim = n.dims.length + 1
  · exact iff_of_true (fun mem_addr_hit => n.isSome_findClosest hle (by omega) mem_addr_hit)
      (.inl hlast)
  · have hdim : ¬n.dim ≤ 1 := by omega
    simp only [ArrayNode.findClosest, if_neg hdim, or_iff_right hlast]
    rcases Nat.eq_zero_or_pos n.data_ptr with hnull | hptr
    · -- At a null pointer only a first dimension without a stride stops every search.
      rw [hnull, isSome_closestFrom_zero hsize ha (by omega)]
      exact (and_iff_right rfl).symm
    · -- At the address of the first element the search goes on to the end.
      refine iff_of_false (fun hall => ?_) fun hnull => hptr.ne' hnull.1
      have hgoes := hall n.data_ptr
      rw [closestFrom_self hsize hptr (Nat.zero_le _) (by omega)] at hgoes
      cases hgoes

/-- A node with more dimensions than are filled, and no root, is read right exactly when the first
two are filled and in order, and the search reads right. -/
theorem ArrayNode.readsRight_iff_of_many (hsorted : n.is_sorted = false)
    (hmany : n.dims.length < n.dim) (hdim : 2 ≤ n.dim) : n.ReadsRight ↔
      (∃ a b, readDim n.dims 0 = some a ∧ readDim n.dims 1 = some b ∧ b.stride ≤ a.stride) ∧
        ∀ mem_addr_hit, (n.findClosest mem_addr_hit).isSome := by
  constructor
  · rintro ⟨sorted, hsort, hsearch⟩
    obtain ⟨a, b, ha, hb, hle⟩ := ArrayNode.inOrder_of_sort hsorted hmany hdim hsort
    rw [ArrayNode.sort_eq_of_inOrder ha hb hle] at hsort
    cases hsort
    exact ⟨⟨a, b, ha, hb, hle⟩, hsearch⟩
  · rintro ⟨⟨a, b, ha, hb, hle⟩, hsearch⟩
    exact ⟨_, ArrayNode.sort_eq_of_inOrder ha hb hle, hsearch⟩

/-- The number of dimensions that a node of a tensor keeps. -/
@[irreducible] def kept (tensor : Tensor) : ℕ :=
  (min (TORCH_MONITOR_MAX_TENSOR_DIMENSION : ℤ) (i32 tensor.dims.length)).toNat

theorem kept_le (tensor : Tensor) : kept tensor ≤ TORCH_MONITOR_MAX_TENSOR_DIMENSION := by
  unfold kept
  omega

/-- A node of a tensor with elements. -/
def ArrayNode.ofTensor (h : FromAten tensor) (is_sorted : Bool) : ArrayNode where
  dim := tensor.dims.length
  dims := tensor.dims.take (kept tensor)
  is_sorted := is_sorted
  data_ptr := tensor.data_ptr
  itemsize := tensor.itemsize
  itemsize_pos := h.itemsize_pos

/-- The nodes that are made from the entry of a tensor with elements. -/
theorem new_storeTensorInfo (h : FromAten tensor) (hnumel : 0 < tensor.numel) (is_sorted : Bool)
    (hpos : 0 < (storeTensorInfo i tensor).itemsize) :
    ArrayNode.new is_sorted (storeTensorInfo i tensor) hpos = .ofTensor h is_sorted := by
  have hkept : (min (TORCH_MONITOR_MAX_TENSOR_DIMENSION : ℤ) (i32 tensor.dims.length)).toNat =
      kept tensor := by
    unfold kept
    rfl
  have hle := kept_le tensor
  simp only [ArrayNode.new, ArrayNode.ofTensor, storeTensorInfo, hnumel, if_true, List.take_take,
    hkept, min_eq_left hle]

/-- Every size of a tensor with elements is positive. -/
theorem FromAten.size_pos (h : FromAten tensor) (hnumel : 0 < tensor.numel) :
    ∀ d ∈ tensor.dims, 0 < d.size := by
  intro d hd
  refine Nat.pos_of_ne_zero fun hzero => ?_
  have hprod : (tensor.dims.map Dim.size).prod = 0 :=
    List.prod_eq_zero (List.mem_map.2 ⟨d, hd, hzero⟩)
  rw [h.numel_eq, hprod] at hnumel
  exact lt_irrefl _ hnumel

/-- A node keeps all dimensions that fit. -/
theorem kept_of_le (h : tensor.dims.length ≤ TORCH_MONITOR_MAX_TENSOR_DIMENSION) :
    kept tensor = tensor.dims.length := by
  unfold kept i32
  unfold TORCH_MONITOR_MAX_TENSOR_DIMENSION at h ⊢
  omega

/-- A node of a tensor with one dimension more than fit keeps as many as fit. -/
theorem kept_of_eq (h : tensor.dims.length = TORCH_MONITOR_MAX_TENSOR_DIMENSION + 1) :
    kept tensor = TORCH_MONITOR_MAX_TENSOR_DIMENSION := by
  unfold kept i32
  unfold TORCH_MONITOR_MAX_TENSOR_DIMENSION at h ⊢
  omega

/-- A node keeps two dimensions when the `int` is not below two, if there are more than fit. -/
theorem two_le_kept_iff : 2 ≤ kept tensor ↔ 2 ≤ i32 tensor.dims.length := by
  unfold kept TORCH_MONITOR_MAX_TENSOR_DIMENSION
  omega

/-- The first two dimensions that a node keeps are those of its tensor. -/
theorem readDim_take_iff {a b : Dim} {dims : List Dim} {k : ℕ}
    (hk : k ≤ TORCH_MONITOR_MAX_TENSOR_DIMENSION) :
    readDim (dims.take k) 0 = some a ∧ readDim (dims.take k) 1 = some b ↔
      2 ≤ k ∧ ∃ rest, dims = a :: b :: rest := by
  have hle : (dims.take k).length ≤ TORCH_MONITOR_MAX_TENSOR_DIMENSION :=
    (List.length_take_le k dims).trans hk
  constructor
  · rintro ⟨ha, hb⟩
    have hlen := (mem_of_readDim hb).2
    have hlen' := List.length_take_le k dims
    refine ⟨by omega, ?_⟩
    unfold readDim at ha hb
    rw [readAt_of_lt hle (by omega), List.getElem?_take_of_lt (by omega)] at ha hb
    obtain _ | ⟨a', _ | ⟨b', rest⟩⟩ := dims
    · cases ha
    · cases hb
    · cases ha
      cases hb
      exact ⟨rest, rfl⟩
  · rintro ⟨htwo, rest, rfl⟩
    have hlen : 2 ≤ ((a :: b :: rest).take k).length := by simp; omega
    unfold readDim
    rw [readAt_of_lt hle (by omega), readAt_of_lt hle (by omega),
      List.getElem?_take_of_lt (by omega), List.getElem?_take_of_lt (by omega)]
    exact ⟨rfl, rfl⟩

/-- The nodes of a tensor with more dimensions than fit are read right when they keep two
dimensions, these are in order, and they keep all but the last one or stop at the first one. -/
theorem forall_readsRight_new_iff_of_many {a b : Dim} {rest : List Dim} (h : FromAten tensor)
    (hnumel : 0 < tensor.numel) (hdims : tensor.dims = a :: b :: rest)
    (hmany : TORCH_MONITOR_MAX_TENSOR_DIMENSION < tensor.dims.length) :
    (∀ hpos is_sorted, (ArrayNode.new is_sorted (storeTensorInfo i tensor) hpos).ReadsRight) ↔
      (2 ≤ kept tensor ∧ b.stride ≤ a.stride) ∧
        (tensor.dims.length = kept tensor + 1 ∨ tensor.data_ptr = 0 ∧ a.stride = 0) := by
  have hpos : 0 < (storeTensorInfo i tensor).itemsize := by
    simpa [storeTensorInfo, hnumel] using h.itemsize_pos
  have hkept := kept_le tensor
  have hlen : (tensor.dims.take (kept tensor)).length = kept tensor :=
    List.length_take_of_le (by omega)
  have hless : (tensor.dims.take (kept tensor)).length < tensor.dims.length := by omega
  have hroom : (tensor.dims.take (kept tensor)).length ≤ TORCH_MONITOR_MAX_TENSOR_DIMENSION := by
    omega
  have hsize : ∀ d ∈ tensor.dims.take (kept tensor), 0 < d.size := fun d hd =>
    h.size_pos hnumel d (List.mem_of_mem_take hd)
  have htwo : 2 ≤ tensor.dims.length := by simp [hdims]
  have hsearch : ∀ is_sorted, readDim (tensor.dims.take (kept tensor)) 0 = some a →
      ((∀ mem_addr_hit, ((ArrayNode.ofTensor h is_sorted).findClosest mem_addr_hit).isSome) ↔
        tensor.dims.length = kept tensor + 1 ∨ tensor.data_ptr = 0 ∧ a.stride = 0) := by
    intro is_sorted ha
    have hkeeps : (ArrayNode.ofTensor h is_sorted).dims.length = kept tensor := hlen
    rw [ArrayNode.isSome_findClosest_iff (n := .ofTensor h is_sorted) hsize hroom hless ha, hkeeps]
    rfl
  constructor
  · intro hall
    have hright := hall hpos false
    rw [new_storeTensorInfo h hnumel] at hright
    rw [ArrayNode.readsRight_iff_of_many (n := .ofTensor h false) rfl hless htwo] at hright
    obtain ⟨⟨a', b', ha, hb, hle⟩, hends⟩ := hright
    obtain ⟨htwo, rest', hdims'⟩ := (readDim_take_iff hkept).1 ⟨ha, hb⟩
    cases hdims.symm.trans hdims'
    exact ⟨⟨htwo, hle⟩, (hsearch false ha).1 hends⟩
  · rintro ⟨⟨htwo, hle⟩, hends⟩ _ is_sorted
    obtain ⟨ha, hb⟩ := (readDim_take_iff hkept).2 ⟨htwo, rest, hdims⟩
    rw [new_storeTensorInfo h hnumel]
    exact ⟨_, ArrayNode.sort_eq_of_inOrder (n := .ofTensor h is_sorted) ha hb hle,
      (hsearch true ha).2 hends⟩

/-- The nodes of a tensor are read right exactly when its dimensions fit. -/
theorem forall_readsRight_new_iff (h : FromAten tensor) (hnumel : 0 < tensor.numel) :
    (∀ hpos is_sorted, (ArrayNode.new is_sorted (storeTensorInfo i tensor) hpos).ReadsRight) ↔
      DimsFit tensor := by
  by_cases hfits : tensor.dims.length ≤ TORCH_MONITOR_MAX_TENSOR_DIMENSION
  · refine iff_of_true (fun hpos is_sorted => ?_) (.inl hfits)
    rw [new_storeTensorInfo h hnumel]
    refine ArrayNode.readsRight_of_filled (n := .ofTensor h is_sorted) ?_ hfits
    show (tensor.dims.take (kept tensor)).length = tensor.dims.length
    rw [kept_of_le hfits, List.take_length]
  · -- Behind the capacity the node keeps all but the last dimension, or is not searched on.
    unfold DimsFit
    rw [or_iff_right hfits]
    have hkept := kept_le tensor
    obtain ⟨a, b, rest, hdims⟩ : ∃ a b rest, tensor.dims = a :: b :: rest := by
      match hdims : tensor.dims with
      | a :: b :: rest => exact ⟨a, b, rest, rfl⟩
      | [_] => simp [hdims, TORCH_MONITOR_MAX_TENSOR_DIMENSION] at hfits
      | [] => simp [hdims] at hfits
    rw [forall_readsRight_new_iff_of_many h hnumel hdims (by omega), two_le_kept_iff]
    have hfront : FrontInOrder tensor.dims ↔ b.stride ≤ a.stride := by rw [hdims]; rfl
    have hhead : tensor.dims.head?.map Dim.stride = some 0 ↔ a.stride = 0 := by
      rw [hdims]
      exact Option.some_inj
    rw [hfront, hhead]
    constructor
    · rintro ⟨⟨htwo, hle⟩, hlast | ⟨hnull, hstride⟩⟩
      · exact ⟨hle, .inl (by omega)⟩
      · exact ⟨hle, .inr ⟨hnull, hstride, htwo⟩⟩
    · rintro ⟨hle, hlast | ⟨hnull, hstride, htwo⟩⟩
      · have heq := kept_of_eq hlast
        refine ⟨⟨two_le_kept_iff.1 ?_, hle⟩, .inl (by omega)⟩
        rw [heq]
        decide
      · exact ⟨⟨htwo, hle⟩, .inr ⟨hnull, hstride⟩⟩

end

/-! ## An operation -/

variable {inputs outputs : List IValue}

/-- What the loops over the values of an operation hand over are its tensors with elements. -/
theorem forall_nodes_iff (hin : inputs.length ≤ TORCH_MONITOR_MAX_INPUTS_OUTPUTS_SIZE)
    (hout : outputs.length ≤ TORCH_MONITOR_MAX_INPUTS_OUTPUTS_SIZE)
    (h : ∀ tensor, some tensor ∈ inputs ++ outputs → FromAten tensor) :
    (∀ t ∈ (storeInputsOutputsInfo inputs).tensor_data ++
        (storeInputsOutputsInfo outputs).tensor_data, skips t = false →
      ∀ hpos is_sorted, (ArrayNode.new is_sorted t hpos).ReadsRight) ↔
    ∀ tensor, some tensor ∈ inputs ++ outputs → 0 < tensor.numel → DimsFit tensor := by
  constructor
  · intro hnodes tensor hmem hnumel
    obtain ⟨i, ht, hskips⟩ : ∃ i, storeTensorInfo i tensor ∈
        (storeInputsOutputsInfo inputs).tensor_data ++
          (storeInputsOutputsInfo outputs).tensor_data ∧
        skips (storeTensorInfo i tensor) = false := by
      rcases List.mem_append.1 hmem with hmem' | hmem'
      · obtain ⟨i, ht, hskips⟩ := mem_tensor_data hin hmem' hnumel
        exact ⟨i, List.mem_append_left _ ht, hskips⟩
      · obtain ⟨i, ht, hskips⟩ := mem_tensor_data hout hmem' hnumel
        exact ⟨i, List.mem_append_right _ ht, hskips⟩
    exact (forall_readsRight_new_iff (h tensor hmem) hnumel).1 (hnodes _ ht hskips)
  · intro hfit t ht hskips
    obtain ⟨tensor, i, hmem, hnumel, rfl⟩ : ∃ tensor i, some tensor ∈ inputs ++ outputs ∧
        0 < tensor.numel ∧ t = storeTensorInfo i tensor := by
      rcases List.mem_append.1 ht with ht | ht
      · obtain ⟨tensor, i, hmem, hnumel, ht⟩ := exists_of_mem_tensor_data ht hskips
        exact ⟨tensor, i, List.mem_append_left _ hmem, hnumel, ht⟩
      · obtain ⟨tensor, i, hmem, hnumel, ht⟩ := exists_of_mem_tensor_data ht hskips
        exact ⟨tensor, i, List.mem_append_right _ hmem, hnumel, ht⟩
    exact (forall_readsRight_new_iff (h tensor hmem) hnumel).2 (hfit tensor hmem hnumel)

/-- All reads of the data of an operation are right exactly when it has no more inputs and no more
outputs than there is room for, and the dimensions of each tensor with elements fit. -/
theorem reads_right_iff (h : ∀ tensor, some tensor ∈ inputs ++ outputs → FromAten tensor) :
    ReadsRight inputs outputs ↔
      inputs.length ≤ TORCH_MONITOR_MAX_INPUTS_OUTPUTS_SIZE ∧
        outputs.length ≤ TORCH_MONITOR_MAX_INPUTS_OUTPUTS_SIZE ∧
        ∀ tensor, some tensor ∈ inputs ++ outputs → 0 < tensor.numel → DimsFit tensor := by
  constructor
  · intro hright
    have hin := (isSome_enterLoop_iff inputs).1 hright.enter
    have hout : outputs.length ≤ TORCH_MONITOR_MAX_INPUTS_OUTPUTS_SIZE := by
      have hexit := hright.exit [storeInputsOutputsInfo inputs]
      rw [exitLoop, Option.isSome_map] at hexit
      exact (isSome_enterLoop_iff outputs).1 hexit
    exact ⟨hin, hout, (forall_nodes_iff hin hout h).1 hright.nodes⟩
  · rintro ⟨hin, hout, hfit⟩
    have hlen := length_tensor_data inputs
    refine ⟨(isSome_enterLoop_iff inputs).2 hin, fun op_stack => ?_, fun r data_ptr => ?_,
      (forall_nodes_iff hin hout h).2 hfit⟩
    · cases op_stack with
      | nil => rfl
      | cons op op_stack =>
        rw [exitLoop, Option.isSome_map]
        exact (isSome_enterLoop_iff outputs).2 hout
    · refine isSome_parentLoop r data_ptr (by omega) ?_
      show 0 + inputs.length ≤ _
      omega

/-- A tensor of two times three elements. -/
def twoByThree : Tensor where
  numel := 6
  dims := [⟨2, 3⟩, ⟨3, 1⟩]
  dtype := 6
  itemsize := 4
  storage_offset := 0
  data_ptr := 1000
  intrusive_ptr := 2000

/-- An operation on a tensor and a number that returns the tensor. -/
theorem reads_right_two_by_three : ReadsRight [some twoByThree, none] [some twoByThree] := by
  refine (reads_right_iff fun tensor hmem => ?_).2
    ⟨by decide, by decide, fun tensor hmem _ => .inl ?_⟩
  · obtain rfl : tensor = twoByThree := by simpa using hmem
    exact ⟨rfl, by decide⟩
  · obtain rfl : tensor = twoByThree := by simpa using hmem
    decide

/-- The loop at ENTER reads a 129th input of an operation. -/
theorem reads_behind_inputs : ¬ReadsRight (List.replicate 129 none) [] := by
  intro hright
  have hmany : ¬(List.replicate 129 (none : IValue)).length ≤
      TORCH_MONITOR_MAX_INPUTS_OUTPUTS_SIZE := by
    rw [List.length_replicate]
    decide
  exact hmany ((isSome_enterLoop_iff _).1 hright.enter)

end TenProf.TorchView
