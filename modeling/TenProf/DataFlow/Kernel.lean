import TenProf.DataFlow.State
import TenProf.Operation.Memcpy

/-!
# The kernel callback of the data flow analysis

`kernel_op_callback`, which takes over the reads and writes of a kernel. For a written object it
first copies bytes of the device to the object's buffer `value_cache`: the written ranges one by
one, or everything between the first and the last written byte, by a policy on the amount and the
number of the ranges. Then it compares the written ranges of the cache with those of the buffer
`value`, counts the bytes that are the same, and copies the others.
-/

namespace TenProf.DataFlow

/-- `CopyType`, less its default, which is never left. -/
inductive CopyType
  | MIN_MAX_FRAGMENT
  | NON_CONTINOUS_FRAGMENT
  deriving DecidableEq, Repr

/-- `dtoh(host, device, len)`: `len` bytes of the device are copied to the host. -/
def dtoh (host_mem device_mem : ByteMem) (host device len : ℕ) : ByteMem :=
  copyBytes host_mem device_mem host device len

/-- The number of bytes of the ranges, as the source sums them up in an `int`. -/
def rangesLen (ranges : RangeSet) : ℤ :=
  ranges.toList.foldl (fun len range_iter => i32 (len + subU64 range_iter.2 range_iter.1)) 0

/-- The policy by which the bytes written are copied from the device. -/
def copyType (env : Env) (memory : Memory) (ranges : RangeSet) : CopyType :=
  if env.ratio_below_limit (rangesLen ranges) memory.len ∧ env.FRAGMENT_SIZE_LIMIT < memory.len ∧
      ranges.size < env.FRAGMENT_LEN_LIMIT then
    .NON_CONTINOUS_FRAGMENT
  else
    .MIN_MAX_FRAGMENT

/-- The copy to the cache when the first written byte is at `device_start_min` and the last one
before `device_end_max`. -/
def copyToCache (env : Env) (device_mem host_mem : ByteMem) (memory : Memory) (ranges : RangeSet)
    (device_start_min device_end_max : ℕ) : ByteMem :=
  let host_cache := memory.value_cache
  let device := memory.memory_range.start
  match copyType env memory ranges with
  | .MIN_MAX_FRAGMENT =>
    dtoh host_mem device_mem (host_cache + device_start_min - device) device
      (device_end_max - device_start_min)
  | .NON_CONTINOUS_FRAGMENT =>
    ranges.toList.foldl (fun host_mem range_iter =>
      dtoh host_mem device_mem (host_cache + range_iter.1 - device) range_iter.1
        (range_iter.2 - range_iter.1)) host_mem

/-- The turn of the comparison for one range: the memory with the range updated in the buffer
`value`, and the number of same bytes so far, as an `int`. -/
def compareRange (memory : Memory) (res : ByteMem × ℤ) (range : ℕ × ℕ) : ByteMem × ℤ :=
  let host := memory.value
  let host_cache := memory.value_cache
  let device := memory.memory_range.start
  let host_cache_start := host_cache + range.1 - device
  let host_start := host + range.1 - device
  let compared := computeMemcpyRedundancy res.1 host_start host_cache_start (range.2 - range.1)
  (compared.1, i32 (res.2 + compared.2))

/-- The comparison of the cache with the buffer `value`, range by range. -/
def compareWithCache (host_mem : ByteMem) (memory : Memory) (ranges : List (ℕ × ℕ)) :
    ByteMem × ℤ :=
  ranges.foldl (compareRange memory) (host_mem, 0)

/-- The bytes of a written object are taken over from the device: the memory after it, and the
redundancy. There is no result without a written range. -/
def updateHost (env : Env) (device_mem host_mem : ByteMem) (memory : Memory) (ranges : RangeSet) :
    Option (ByteMem × ℤ) :=
  match ranges.toList.head?, ranges.toList.getLast? with
  | some first, some last =>
    let host_mem := copyToCache env device_mem host_mem memory ranges first.1 last.2
    some (compareWithCache host_mem memory ranges.toList)
  | _, _ => none

/-- `compute_memory_hash`. The length is a `u64`, and `sha256` takes an `unsigned int`. -/
def computeMemoryHash (env : Env) (host_mem : ByteMem) (start len : ℕ) : String :=
  env.sha256 ((List.range (u32 len)).map fun i => host_mem (start + i))

/-- The turn of the first loop for the ranges read of an object. -/
def readMemory (op : Kernel) (s : DataFlow) (mem_iter : ℕ × RangeSet) : Option DataFlow :=
  (s.memories.find? mem_iter.1).bind fun memory =>
    if REDSHOW_MEMORY_HOST < memory.op_id then
      (s.op_node.find? memory.op_id).map fun node_id =>
        let len := if s.read_trace_ignore then i32 memory.len else rangesLen mem_iter.2
        let s := linkCtxNode s node_id op.ctx_id memory.ctx_id .DATA_FLOW_EDGE_READ
        updateOpMetrics s memory.op_id op.ctx_id memory.ctx_id 0 (u64OfInt len) memory.len
          .DATA_FLOW_EDGE_READ
    else
      some s

/-- The turn of the second loop for the ranges written of an object. -/
def writeMemory (env : Env) (device_mem : ByteMem) (op : Kernel) (s : DataFlow)
    (mem_iter : ℕ × RangeSet) : Option DataFlow :=
  (s.memories.find? mem_iter.1).bind fun memory =>
    if REDSHOW_MEMORY_HOST < memory.op_id then
      (updateHost env device_mem s.host memory mem_iter.2).map fun res =>
        let s := { s with host := res.1 }
        let s := linkOpNode s memory.op_id op.ctx_id memory.ctx_id
        let s := updateOpMetrics s memory.op_id op.ctx_id memory.ctx_id (u64OfInt res.2)
          (u64OfInt (rangesLen mem_iter.2)) memory.len .DATA_FLOW_EDGE_ORDER
        let s := updateOpNode s memory.op_id op.ctx_id
        if s.data_flow_hash then
          let hash := computeMemoryHash env s.host memory.value_cache memory.len
          { s with
            node_hash :=
              s.node_hash.set op.ctx_id ((s.node_hash.findD op.ctx_id ∅).insert hash) }
        else
          s
    else
      some s

/-- `kernel_op_callback`, while the device memory is `device_mem`. -/
def kernelOpCallback (env : Env) (device_mem : ByteMem) (s : DataFlow) (op : Kernel) :
    Option DataFlow :=
  match s.trace with
  | none => some s
  | some trace =>
    (trace.read_memory.toList.foldlM (readMemory op) s).bind fun s =>
      (trace.write_memory.toList.foldlM (writeMemory env device_mem op) s).map fun s =>
        { s with trace := none }

end TenProf.DataFlow
