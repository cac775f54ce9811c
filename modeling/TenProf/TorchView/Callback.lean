import TenProf.Library.Runs
import TenProf.TorchView.Kernel

/-!
# The callbacks of the torch-view analysis

`torch_view_callback` with its four cases, and the calls around a kernel, as one step function. The
callbacks hold one mutex, so a run is a list of events in the order in which they take it. An event
carries the Python frames that its thread has stored, and the capture of inputs and outputs is
enabled.
-/

namespace TenProf.TorchView

open GpuPatch

/-- What the analysis is called with. -/
inductive Event
  /-- `TORCH_MONITOR_CALLBACK_ENTER` of an operation with its inputs. -/
  | enter (op : OpData) (frames : List PythonState)
  /-- `TORCH_MONITOR_CALLBACK_EXIT` of an operation with its outputs. -/
  | exit (op : OpData) (frames : List PythonState)
  /-- `TORCH_MONITOR_MEM_DATA_ALLOC`. -/
  | alloc (mem : MemData)
  /-- `TORCH_MONITOR_MEM_DATA_FREE`. -/
  | free (mem : MemData)
  /-- `redshow_torchview_ongpu_get_range_size`. -/
  | getRangeSize
  /-- `analysis_begin`, with the dictionary that the device filled. -/
  | analysisBegin (dict : TorchviewDict)
  /-- `unit_access`. -/
  | unitAccess (pc addr flags : ℕ)
  /-- `kernel_op_callback`. -/
  | kernelOp (ctx_id : ℕ) (frames : List PythonState)
  /-- `analysis_end`. -/
  | analysisEnd

/-- The handling of one tensor: an id is drawn, then the forest is updated. -/
def updateTensor (env : Env) (frames : List PythonState) (s : TorchView) (t : TensorData) :
    Option (Option ℕ × TorchView) :=
  updateViewForest { s with op_ids := s.op_ids + 1 } frames t (env.update_op_id_func s.op_ids)

/-- One turn of the loop at ENTER, for the input at a position. -/
def enterInput (env : Env) (frames : List PythonState) (s : TorchView)
    (input : TensorData × ℕ) : Option TorchView :=
  if input.1.isSkipped then
    some { s with
      input_viewnode_forest_ptrs := s.input_viewnode_forest_ptrs.set input.2 none }
  else
    (updateTensor env frames s input.1).map fun res =>
      { res.2 with
        input_viewnode_forest_ptrs := res.2.input_viewnode_forest_ptrs.set input.2 res.1 }

/-- The state at ENTER before the loop over the inputs. -/
def pushOp (s : TorchView) (op : OpData) : TorchView :=
  { s with
    op_stack := op :: s.op_stack
    domain_name := op.name :: s.domain_name
    input_viewnode_forest_ptrs := ∅
    torchview_memory_snapshot := ∅ }

/-- `torch_view_callback` at ENTER. -/
def onEnter (env : Env) (s : TorchView) (op : OpData) (frames : List PythonState) :
    Option TorchView :=
  (op.tensor_data.zipIdx).foldlM (enterInput env frames) (pushOp s op)

/-- One turn of the loop at EXIT. -/
def exitOutput (env : Env) (frames : List PythonState) (s : TorchView) (t : TensorData) :
    Option TorchView :=
  if t.isSkipped then some s else (updateTensor env frames s t).map Prod.snd

/-- The state at EXIT after the loop over the outputs. -/
def popOp (s : TorchView) : TorchView :=
  { s with
    op_stack := s.op_stack.tail
    domain_name := s.domain_name.tail
    torchview_memory_snapshot := ∅ }

/-- `torch_view_callback` at EXIT. -/
def onExit (env : Env) (s : TorchView) (op : OpData) (frames : List PythonState) :
    Option TorchView :=
  (if s.op_stack = [] then some s
    else (op.tensor_data.foldlM (exitOutput env frames) s).map popOp).bind fun s =>
      (mapDelayedAccess env s).map fun a => { s with attribution := a }

/-- `register_memory_block` with a new id. -/
def onAlloc (env : Env) (s : TorchView) (mem : MemData) : TorchView :=
  { s with
    op_ids := s.op_ids + 1
    allocated_mem_blocks :=
      s.allocated_mem_blocks ++ [⟨env.update_op_id_func s.op_ids, mem.ptr, mem.size⟩] }

/-- `unregister_memory_block`. -/
def unregisterMemoryBlock (s : TorchView) (ptr : ℕ) : TorchView :=
  { s with allocated_mem_blocks := s.allocated_mem_blocks.eraseP fun b => b.ptr = ptr }

/-- `torch_view_callback` at a FREE. -/
def onFree (s : TorchView) (mem : MemData) : Option TorchView :=
  (deleteForestTree s mem.ptr (u64OfInt mem.total_allocated)).map fun s =>
    unregisterMemoryBlock s mem.ptr

/-- The handling of one event. -/
def step (env : Env) (s : TorchView) : Event → Option TorchView
  | .enter op frames => onEnter env s op frames
  | .exit op frames => onExit env s op frames
  | .alloc mem => some (onAlloc env s mem)
  | .free mem => onFree s mem
  | .getRangeSize => getRangeSize s
  | .analysisBegin dict => some { s with attribution := analysisBegin s dict }
  | .unitAccess pc addr flags =>
    (unitAccess s.attribution pc addr flags).map fun a => { s with attribution := a }
  | .kernelOp ctx_id frames =>
    (kernelOpCallback env s ctx_id frames).map fun a => { s with attribution := a }
  | .analysisEnd => some { s with attribution := analysisEnd s.attribution }

/-- The states that the analysis reaches. -/
def Reachable (env : Env) (s : TorchView) : Prop :=
  ∃ ongpu es, run (step env) (initial ongpu) es = some s

/-- An environment whose ids count up from 1. -/
def countingEnv : Env where
  update_op_id_func n := n + 1
  hash _ := 0
  before _ := ⟨1, 0⟩

theorem countingEnv_injective : Function.Injective countingEnv.update_op_id_func :=
  Nat.succ_injective

/-- A contiguous vector of 4-byte elements. -/
def vector (index : ℤ) (data_ptr numel : ℕ) : TensorData where
  index := index
  numel := numel
  dims := [⟨numel, 1⟩]
  itemsize := 4
  data_ptr := data_ptr
  metadata_ptr := data_ptr
  dim_le := by simp [TORCH_MONITOR_MAX_TENSOR_DIMENSION]

/-- The node of a contiguous tensor of 4-byte elements at 1000 that is the first of a run. -/
def firstVector (numel : ℕ) : ViewNode where
  ptr := 0
  view_id := 1
  index := 0
  numel := numel
  itemsize := 4
  data_ptr := 1000
  metadata_ptr := 1000
  mem_block_range := (1000, 1000 + 4 * numel)
  itemsize_pos := by decide

/-- A dictionary without ranges. -/
def emptyDict : TorchviewDict where
  function_pc_offset := 0
  view_range_size := 0
  start_end _ := ⟨0, 0⟩
  current_read_pc_size := 0
  current_write_pc_size := 0
  read_pc_range_bit_map _ := 0
  write_pc_range_bit_map _ := 0

/-- The state after a run in which every step has a result. -/
theorem reachable_of_run {env : Env} {ongpu : Bool} {es : List Event} {s : TorchView}
    (h : run (step env) (initial ongpu) es = some s) : Reachable env s := ⟨ongpu, es, h⟩

end TenProf.TorchView
