import TenProf.DataFlow.Kernel

/-!
# The callbacks of the data flow analysis

`init`, the callbacks for allocations, memsets and memcpys, and `op_callback`, which makes a node
for the calling context of an operation and hands the operation on. What `analysis_begin` and
`unit_access` left in `_trace` comes with the kernel. `_node_count`, which only counts calls, is
left out. A callback has no result where the source fails in `at`. The addresses that a memcpy is
given for its two places on the host are those of regions that do not overlap.
-/

namespace TenProf.DataFlow

/-- `REDSHOW_MEMORY_SHARED`. -/
def REDSHOW_MEMORY_SHARED : ℕ := 1

/-- `REDSHOW_MEMORY_LOCAL`. -/
def REDSHOW_MEMORY_LOCAL : ℕ := 2

/-- `REDSHOW_MEMORY_CONSTANT`. -/
def REDSHOW_MEMORY_CONSTANT : ℕ := 4

/-- `SHARED_MEMORY_CTX_ID`. -/
def SHARED_MEMORY_CTX_ID : ℤ := 2^30

/-- `CONSTANT_MEMORY_CTX_ID`. -/
def CONSTANT_MEMORY_CTX_ID : ℤ := 2^30 + 1

/-- `UVM_MEMORY_CTX_ID`. -/
def UVM_MEMORY_CTX_ID : ℤ := 2^30 + 2

/-- `HOST_MEMORY_CTX_ID`. -/
def HOST_MEMORY_CTX_ID : ℤ := 2^30 + 3

/-- `LOCAL_MEMORY_CTX_ID`. -/
def LOCAL_MEMORY_CTX_ID : ℤ := 2^30 + 4

/-- The memories that are not tracked, with their calling contexts, in the order of their ids. -/
def specialMemories : List (ℕ × ℤ) :=
  [(REDSHOW_MEMORY_SHARED, SHARED_MEMORY_CTX_ID), (REDSHOW_MEMORY_LOCAL, LOCAL_MEMORY_CTX_ID),
    (REDSHOW_MEMORY_CONSTANT, CONSTANT_MEMORY_CTX_ID), (REDSHOW_MEMORY_UVM, UVM_MEMORY_CTX_ID),
    (REDSHOW_MEMORY_HOST, HOST_MEMORY_CTX_ID)]

/-- The constructor of a memory that is not tracked; nothing reads what it leaves open. -/
def specialMemory (op_id : ℕ) (ctx_id : ℤ) : Memory := ⟨op_id, ctx_id, 0, ⟨0, 0⟩, 0, 0, 0⟩

/-- `init`. -/
def init (host : ByteMem) (read_trace_ignore data_flow_hash : Bool) : DataFlow where
  host := host
  trace := none
  graph := specialMemories.foldl
    (fun graph m => graph.addNode m.2 ⟨m.2, .OPERATION_TYPE_MEMORY⟩) Graph.empty
  op_node := specialMemories.foldl (fun op_node m => op_node.set m.1 m.2) ∅
  node_hash := ∅
  memories := specialMemories.foldl (fun memories m => memories.set m.1 (specialMemory m.1 m.2)) ∅
  read_trace_ignore := read_trace_ignore
  data_flow_hash := data_flow_hash

/-- `Memset`, with its place on the host and the value that it sets. -/
structure ShadowMemset extends Memset where
  shadow_start : ℕ
  value : ℕ
  deriving DecidableEq, Repr

/-- `Memcpy`, with its two places on the host. -/
structure ShadowMemcpy extends Memcpy where
  src_shadow_start : ℕ
  dst_shadow_start : ℕ
  deriving DecidableEq, Repr

/-- `memset`. -/
def fillBytes (mem : ByteMem) (dst : ℕ) (value : UInt8) (len : ℕ) : ByteMem := fun a =>
  if dst ≤ a ∧ a < dst + len then value else mem a

/-- `compute_memset_redundancy`. -/
def computeMemsetRedundancy (host : ByteMem) (start value len : ℕ) : ℕ :=
  (List.range len).foldl (fun same i =>
    if host (start + i) = UInt8.ofNat value then u64 (same + 1) else same) 0

/-- `compute_memcpy_redundancy<false>`, which only counts. -/
def countMemcpyRedundancy (host : ByteMem) (dst_start src_start len : ℕ) : ℕ :=
  (List.range len).foldl (fun same i =>
    if host (dst_start + i) = host (src_start + i) then doubleSucc same else same) 0

/-- With `REDSHOW_ANALYSIS_DATA_FLOW_HASH`, the hash of some bytes of the host is put to those of a
calling context. -/
def hashNode (env : Env) (s : DataFlow) (ctx_id : ℤ) (start len : ℕ) : DataFlow :=
  if s.data_flow_hash then
    let hash := computeMemoryHash env s.host start len
    { s with node_hash := s.node_hash.set ctx_id ((s.node_hash.findD ctx_id ∅).insert hash) }
  else s

/-- `memory_op_callback`, while the device memory is `device_mem`. -/
def memoryOpCallback (device_mem : ByteMem) (s : DataFlow) (op : Memory) : DataFlow :=
  let s := updateOpNode s op.op_id op.ctx_id
  { s with
    memories := s.memories.emplace op.op_id op
    host := dtoh s.host device_mem op.value op.memory_range.start op.len }

/-- `memset_op_callback`. -/
def memsetOpCallback (env : Env) (s : DataFlow) (op : ShadowMemset) : Option DataFlow :=
  (s.memories.find? op.memory_op_id).map fun memory =>
    let redundancy := computeMemsetRedundancy s.host op.shadow_start op.value op.len
    let overwrite := op.len
    let s := linkOpNode s op.memory_op_id op.ctx_id memory.ctx_id
    let s := updateOpMetrics s op.memory_op_id op.ctx_id memory.ctx_id redundancy overwrite
      memory.len .DATA_FLOW_EDGE_ORDER
    let s := updateOpNode s op.memory_op_id op.ctx_id
    let s := { s with host := fillBytes s.host op.shadow_start (UInt8.ofNat op.value) op.len }
    hashNode env s op.ctx_id memory.value memory.len

/-- The destination of a memcpy is memory that the analysis does not track. -/
def ShadowMemcpy.IsSink (op : ShadowMemcpy) : Prop :=
  op.dst_memory_op_id = REDSHOW_MEMORY_HOST ∨ op.dst_memory_op_id = REDSHOW_MEMORY_UVM

instance (op : ShadowMemcpy) : Decidable op.IsSink := inferInstanceAs (Decidable (_ ∨ _))

/-- The length of a memory in a memcpy: that of the memcpy for one that is not tracked. -/
def lenOf (memory : Memory) (op : ShadowMemcpy) : ℕ :=
  if memory.len = 0 then op.len else memory.len

/-- The part of `memcpy_op_callback` for the destination. -/
def linkDst (s : DataFlow) (op : ShadowMemcpy) (src_memory dst_memory : Memory)
    (redundancy : ℕ) : Option DataFlow :=
  let overwrite := op.len
  let dst_len := lenOf dst_memory op
  if op.IsSink then
    (s.op_node.find? op.dst_memory_op_id).map fun dst_ctx_id =>
      let s := linkCtxNode s op.ctx_id dst_ctx_id src_memory.ctx_id .DATA_FLOW_EDGE_SINK
      updateEdgeMetrics s op.ctx_id dst_ctx_id src_memory.ctx_id redundancy overwrite dst_len
        .DATA_FLOW_EDGE_SINK
  else
    let s := linkOpNode s op.dst_memory_op_id op.ctx_id dst_memory.ctx_id
    let s := updateOpMetrics s op.dst_memory_op_id op.ctx_id dst_memory.ctx_id redundancy overwrite
      dst_len .DATA_FLOW_EDGE_ORDER
    some (updateOpNode s op.dst_memory_op_id op.ctx_id)

/-- The part of `memcpy_op_callback` for the source. -/
def linkSrc (s : DataFlow) (op : ShadowMemcpy) (src_memory : Memory) : Option DataFlow :=
  (s.op_node.find? op.src_memory_op_id).bind fun src_ctx_id =>
    (s.op_node.find? op.dst_memory_op_id).map fun _ =>
      let s := linkCtxNode s src_ctx_id op.ctx_id src_memory.ctx_id .DATA_FLOW_EDGE_READ
      updateOpMetrics s op.src_memory_op_id op.ctx_id src_memory.ctx_id 0 op.len
        (lenOf src_memory op) .DATA_FLOW_EDGE_READ

/-- `memcpy_op_callback`. -/
def memcpyOpCallback (env : Env) (s : DataFlow) (op : ShadowMemcpy) : Option DataFlow :=
  (s.memories.find? op.src_memory_op_id).bind fun src_memory =>
    (s.memories.find? op.dst_memory_op_id).bind fun dst_memory =>
      let redundancy :=
        countMemcpyRedundancy s.host op.dst_shadow_start op.src_shadow_start op.len
      (linkDst s op src_memory dst_memory redundancy).bind fun s =>
        (linkSrc s op src_memory).map fun s =>
          let s := { s with
            host := copyBytes s.host s.host op.dst_shadow_start op.src_shadow_start op.len }
          let host := if op.IsSink then op.dst_shadow_start else dst_memory.value
          hashNode env s op.ctx_id host (lenOf dst_memory op)

/-- An operation of the program. -/
inductive Operation
  | memory (op : Memory)
  | kernel (op : Kernel) (trace : Option DataFlowTrace)
  | memcpy (op : ShadowMemcpy)
  | memset (op : ShadowMemset)
  | memfree (op : Memfree)

/-- `ctx_id`. -/
def Operation.ctx_id : Operation → ℤ
  | memory op => op.ctx_id
  | kernel op _ => op.ctx_id
  | memcpy op => op.ctx_id
  | memset op => op.ctx_id
  | memfree op => op.ctx_id

/-- `type`. -/
def Operation.type : Operation → OperationType
  | memory _ => .OPERATION_TYPE_MEMORY
  | kernel _ _ => .OPERATION_TYPE_KERNEL
  | memcpy _ => .OPERATION_TYPE_MEMCPY
  | memset _ => .OPERATION_TYPE_MEMSET
  | memfree _ => .OPERATION_TYPE_MEMFREE

/-- The part of `op_callback` that allocates the node of the calling context. -/
def addCtxNode (s : DataFlow) (op : Operation) : DataFlow :=
  if s.graph.hasNode op.ctx_id then s
  else { s with graph := s.graph.addNode op.ctx_id ⟨op.ctx_id, op.type⟩ }

/-- The callback for the type of an operation. -/
def typeCallback (env : Env) (device_mem : ByteMem) (s : DataFlow) : Operation → Option DataFlow
  | .kernel op trace => kernelOpCallback env device_mem { s with trace := trace } op
  | .memory op => some (memoryOpCallback device_mem s op)
  | .memcpy op => memcpyOpCallback env s op
  | .memset op => memsetOpCallback env s op
  | .memfree _ => some s

/-- `op_callback` of an operation, with the device memory at the call. -/
def opCallback (env : Env) (s : DataFlow) (e : ByteMem × Operation) : Option DataFlow :=
  typeCallback env e.1 (addCtxNode s e.2) e.2

end TenProf.DataFlow
