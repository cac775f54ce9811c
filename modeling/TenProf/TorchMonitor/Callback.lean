import Mathlib.Data.Int.Notation
import Mathlib.Data.Nat.Notation

/-!
# What torch-monitor hands to a callback

The records of `torch_monitor.h` that the torch-view analysis reads. `sizes` and `strides` stand
side by side as one list of dimensions, whose length is `dim`. A tensor's element count, sizes,
and strides are never negative, an element has at least one byte, and the dimensions fit in the
arrays; the last two are fields of the record. `tensor_data` lists the entries that the loops over
`size` read.
-/

namespace TenProf

/-- A C string, without the terminating NUL. -/
abbrev CString := List Char

/-- One dimension of a tensor: its entry of `sizes` and its entry of `strides`. -/
structure Dim where
  /-- The number of indices. -/
  size : ℕ
  /-- The distance between neighbours, in elements. -/
  stride : ℕ
  deriving DecidableEq, Repr

/-- `TORCH_MONITOR_MAX_TENSOR_DIMENSION`, the length of the arrays `sizes` and `strides`. -/
def TORCH_MONITOR_MAX_TENSOR_DIMENSION : ℕ := 128

/-- `torch_monitor_callback_tensor_data_t`, less the data type and the storage offset, which the
analysis only copies. -/
structure TensorData where
  index : ℤ
  numel : ℕ
  dims : List Dim
  itemsize : ℕ
  data_ptr : ℕ
  metadata_ptr : ℕ
  /-- An element has at least one byte. -/
  itemsize_pos : 0 < itemsize := by decide
  /-- The dimensions fit in the arrays. -/
  dim_le : dims.length ≤ TORCH_MONITOR_MAX_TENSOR_DIMENSION := by decide
  deriving DecidableEq, Repr

/-- `torch_monitor_op_data_t`: an operation's name and its inputs, or its outputs at its exit. -/
structure OpData where
  name : CString
  tensor_data : List TensorData
  deriving DecidableEq, Repr

/-- `torch_monitor_mem_data_t`: a memory block with the device-wide running total. -/
structure MemData where
  ptr : ℕ
  size : ℕ
  total_allocated : ℤ
  deriving DecidableEq, Repr

/-- `torch_monitor_python_state_t`: one Python frame. -/
structure PythonState where
  file_name : CString
  function_name : CString
  function_first_lineno : ℕ
  lineno : ℕ
  deriving DecidableEq, Repr

/-- The callbacks skip placeholders: no tensor at the index, or a tensor without elements. -/
def TensorData.isSkipped (t : TensorData) : Bool := t.index = -1 || t.numel ≤ 0

/-- The two addresses by which a tensor is recognised. -/
def TensorData.key (t : TensorData) : ℕ × ℕ := (t.data_ptr, t.metadata_ptr)

end TenProf
