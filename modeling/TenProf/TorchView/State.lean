import TenProf.Library.OrderedMap
import TenProf.Library.Forest
import TenProf.TorchMonitor.Callback
import TenProf.GpuPatch.AuxTorchview
import Mathlib.Data.Finset.Basic

/-!
# The state of the torch-view analysis

The members of `TorchView` that its callbacks read and write. A `ViewNode*` is an identity `ptr`
that `new` issues and never issues again. The part of a node that no function changes is the
record `ViewNode`, which stands in the forest `roots`; the part that the kernel callbacks change is
its `NodeCell`, in `cells` under the node's `ptr` from `new` until `delete`. Everything that the
kernel callbacks write is gathered in the record `Attribution`, so that a function on attributions
leaves the forest, the stacks and the caches as they are.

An `Option` result is `none` where the source has no defined behaviour or ends the process: a
dangling pointer is read, `top`, `back` or `at` is called on an empty container, or an assertion
fails.
-/

namespace TenProf.TorchView

open GpuPatch

/-- What the analysis takes from code outside it. -/
structure Env where
  /-- `update_op_id_func`: the value of its n-th call. -/
  update_op_id_func : ℕ → ℕ
  /-- `std::hash` on strings. -/
  hash : CString → ℕ
  /-- The words that stand in front of a node's `sizes` and `strides` in memory. -/
  before : ℕ → Dim

/-- `MAX_NUM_STATES`. -/
def MAX_NUM_STATES : ℕ := 30

/-- `mem_object_t`. -/
inductive MemObject
  | VIEW_NODE
  | MEMORY_BLOCK
  | INIT_TYPE
  deriving DecidableEq, Repr

/-- `MemoryBlock`, less the device type and the two totals, which nothing reads. -/
structure MemoryBlock where
  block_id : ℕ
  ptr : ℕ
  size : ℕ
  deriving DecidableEq, Repr

/-- The members of a `ViewNode` that no function changes, with the node's identity. -/
structure ViewNode where
  ptr : ℕ
  view_id : ℕ
  index : ℤ
  numel : ℕ
  itemsize : ℕ
  data_ptr : ℕ
  metadata_ptr : ℕ
  mem_block_range : ℕ × ℕ
  /-- An element has at least one byte. -/
  itemsize_pos : 1 ≤ itemsize
  deriving DecidableEq, Repr

/-- The members of a `ViewNode` that the lookups and the kernel callbacks change. -/
structure NodeCell where
  dims : List Dim
  is_sorted : Bool
  is_memory_write_pc : Bool
  pc_access : OrderedMap ℕ ℕ
  deriving DecidableEq, Repr

/-- `PyStateCTX`. `py_state` lists the entries that its constructor fills. -/
structure PyStateCTX where
  index : ℤ
  num_states : ℕ
  py_state : List PythonState
  object_type : MemObject
  ctxid_pcs : OrderedMap ℕ (List ℕ)
  deriving DecidableEq, Repr

/-- `TorchViewTrace`: for each instruction the addresses of its accesses. -/
structure Trace where
  access_memory : OrderedMap ℕ (OrderedMap ℕ ℕ)
  write_pcs : Finset ℕ

/-- `TorchViewDelayedTrace`: the accesses that hit no input, with the launch's Python state. -/
structure DelayedTrace where
  python_state : PyStateCTX
  access_memory : OrderedMap ℕ (OrderedMap ℕ ℕ)
  write_pcs : Finset ℕ

/-- The members that the kernel callbacks change. -/
structure Attribution where
  cells : OrderedMap ℕ NodeCell
  call_path_map : OrderedMap ℕ (List PyStateCTX)
  write_after_write_map : OrderedMap ℕ (List (ℕ × ℕ))
  device_view_copy_map : OrderedMap ℕ (OrderedMap ℕ ℕ)
  is_aten_copy_domain : Bool
  aten_copy_pystate_hash : ℕ
  aten_copy_tar : ℕ
  aten_copy_src : ℕ
  trace : Option Trace
  delayed_trace : Option DelayedTrace
  torchview_dict : Option TorchviewDict

end TorchView

open TorchView in
/-- `TorchView`. `torchview_memory_snapshot` is keyed by the start of a range, by which the source
orders ranges, and holds the range's end and the node. -/
structure TorchView where
  op_stack : List OpData
  domain_name : List CString
  allocated_mem_blocks : List MemoryBlock
  viewnode_mem_range_map : OrderedMap ℕ (List MemoryRange)
  torch_view_ongpu : Bool
  roots : List (Tree ViewNode)
  live_nodes : Finset ℕ
  input_viewnode_forest_ptrs : OrderedMap ℕ (Option ℕ)
  torchview_memory_snapshot : OrderedMap ℕ (ℕ × ℕ)
  /-- The identity that the next `new ViewNode` returns. -/
  next_ptr : ℕ
  /-- The calls of `update_op_id_func` so far. -/
  op_ids : ℕ
  attribution : Attribution

namespace TorchView

/-- The empty state, with `torch_view_ongpu` as `redshow_torchview_ongpu_set_ongpu` left it. -/
def initial (torch_view_ongpu : Bool) : TorchView where
  op_stack := []
  domain_name := []
  allocated_mem_blocks := []
  viewnode_mem_range_map := ∅
  torch_view_ongpu := torch_view_ongpu
  roots := []
  live_nodes := ∅
  input_viewnode_forest_ptrs := ∅
  torchview_memory_snapshot := ∅
  next_ptr := 0
  op_ids := 0
  attribution :=
    { cells := ∅
      call_path_map := ∅
      write_after_write_map := ∅
      device_view_copy_map := ∅
      is_aten_copy_domain := false
      aten_copy_pystate_hash := 0
      aten_copy_tar := 0
      aten_copy_src := 0
      trace := none
      delayed_trace := none
      torchview_dict := none }

/-- `ViewNode::operator==` compares these two members. -/
def ViewNode.key (n : ViewNode) : ℕ × ℕ := (n.data_ptr, n.metadata_ptr)

end TorchView

end TenProf
