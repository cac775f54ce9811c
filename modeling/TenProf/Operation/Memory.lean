import TenProf.Words

/-!
# Memory objects and the operations on them

The structures of `operation/*.h`, less the operation type, which the analyses only use to tell
which structure they are given, and the addresses of the shadow memory. A range, which is also the
layout of `gpu_patch_analysis_address_t`, holds the bytes from `start` up to, and without, the byte
at the range's end. The source orders ranges by their start alone. A memory object is an allocation
on the device; `value` and `value_cache` are the addresses of its two buffers on the host.
-/

namespace TenProf

/-- `REDSHOW_MEMORY_UVM`. -/
def REDSHOW_MEMORY_UVM : ℕ := 5

/-- `REDSHOW_MEMORY_HOST`, the largest of the op ids that stand for no allocation. -/
def REDSHOW_MEMORY_HOST : ℕ := 6

/-- A half-open range of bytes; `stop` is the field `end` of the source. -/
structure MemoryRange where
  start : ℕ
  stop : ℕ
  deriving DecidableEq, Repr

/-- `Memory`. -/
structure Memory where
  op_id : ℕ
  ctx_id : ℤ
  stream_id : ℕ
  memory_range : MemoryRange
  len : ℕ
  value : ℕ
  value_cache : ℕ
  deriving DecidableEq, Repr

/-- The constructor of an allocated object: its length is that of its range, and its buffers are
those that `new` returns. -/
def Memory.ofRange (stream_id op_id : ℕ) (ctx_id : ℤ) (memory_range : MemoryRange)
    (value value_cache : ℕ) : Memory :=
  ⟨op_id, ctx_id, stream_id, memory_range, subU64 memory_range.stop memory_range.start, value,
    value_cache⟩

/-- `Memfree`. -/
structure Memfree where
  op_id : ℕ
  ctx_id : ℤ
  stream_id : ℕ
  memory_range : MemoryRange
  len : ℕ
  deriving DecidableEq, Repr

/-- The constructor of the release of a range. -/
def Memfree.ofRange (stream_id op_id : ℕ) (ctx_id : ℤ) (memory_range : MemoryRange) : Memfree :=
  ⟨op_id, ctx_id, stream_id, memory_range, subU64 memory_range.stop memory_range.start⟩

/-- `Memcpy`. -/
structure Memcpy where
  op_id : ℕ
  ctx_id : ℤ
  src_memory_op_id : ℕ
  src_stream_id : ℕ
  src_start : ℕ
  dst_memory_op_id : ℕ
  dst_stream_id : ℕ
  dst_start : ℕ
  len : ℕ
  deriving DecidableEq, Repr

/-- `Memset`. -/
structure Memset where
  op_id : ℕ
  ctx_id : ℤ
  memory_op_id : ℕ
  stream_id : ℕ
  start : ℕ
  len : ℕ
  deriving DecidableEq, Repr

/-- `Kernel`, less the ids of its code, which nothing reads. -/
structure Kernel where
  op_id : ℕ
  ctx_id : ℤ
  cpu_thread : ℕ
  stream_id : ℕ
  deriving DecidableEq, Repr

end TenProf
