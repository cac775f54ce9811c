import Mathlib.Data.Prod.Lex
import TenProf.GpuPatch.AddressDict
import TenProf.Library.Loops
import TenProf.MemoryLiveness.DependencyGraph

/-!
# The callbacks of the liveness analysis

`MemoryLiveness` in the build of the header, with `REDSHOW_GPU_ANALYSIS`: what a kernel accessed is
read from the dictionary of its patch. The members that the three builders of the dependency graph
read and write are `Dependencies`. Left out are the logs that are only written to files (the sizes,
the streams of the operations, the list of the edges) and the members for sub-memories, which share
nothing with the others. A callback has no result where the source fails in `at` or dereferences
the end of a map.
-/

namespace TenProf

namespace MemoryLiveness

/-- `memory_operation_t`, less the number of its values. -/
inductive MemoryOperation
  | REDSHOW_MEMORY_ALLOC
  | REDSHOW_MEMORY_SET
  | REDSHOW_MEMORY_COPYT
  | REDSHOW_MEMORY_COPYF
  | REDSHOW_MEMORY_ACCESS
  | REDSHOW_MEMORY_FREE
  | REDSHOW_SUBMEMORY_ALLOC
  | REDSHOW_SUBMEMORY_FREE
  deriving DecidableEq, Repr

/-- `Node`. -/
structure Node where
  op_id : ℕ
  stream_id : ℕ
  op_type : MemoryOperation
  deriving DecidableEq, Repr

/-- The constructor of a node, whose stream is always 0. -/
def Node.ofType (op_id : ℕ) (op_type : MemoryOperation) : Node := ⟨op_id, 0, op_type⟩

/-- `EdgeType`. -/
inductive EdgeType
  | STREAM_DEPENDENCY
  | DATA_DEPENDENCY
  deriving DecidableEq, Repr

/-- The value of the enumeration. -/
def EdgeType.toNat : EdgeType → ℕ
  | STREAM_DEPENDENCY => 0
  | DATA_DEPENDENCY => 1

/-- `AccessType`. -/
inductive AccessType
  | READ
  | WRITE
  deriving DecidableEq, Repr

/-- `EdgeIndex`; `source` and `target` are the fields `from` and `to`. -/
structure EdgeIndex where
  source : ℕ
  target : ℕ
  edge_type : EdgeType
  deriving DecidableEq, Repr

instance : EdgeEnds EdgeIndex ℕ := ⟨EdgeIndex.source, EdgeIndex.target⟩

/-- What the comparison of edge indices looks at, in that order. -/
def EdgeIndex.key (e : EdgeIndex) : ℕ ×ₗ ℕ ×ₗ ℕ :=
  toLex (e.source, toLex (e.target, e.edge_type.toNat))

/-- The comparison looks at everything. -/
theorem EdgeIndex.key_injective : Function.Injective EdgeIndex.key := by
  rintro ⟨s, t, type⟩ ⟨s', t', type'⟩ h
  simp only [key, EmbeddingLike.apply_eq_iff_eq, Prod.mk.injEq] at h
  obtain ⟨rfl, rfl, htype⟩ := h
  cases type <;> cases type' <;> first | rfl | exact absurd htype (by decide)

instance : LinearOrder EdgeIndex := LinearOrder.lift' EdgeIndex.key EdgeIndex.key_injective

/-- `Edge`. -/
structure Edge where
  touched_objs : OrderedMap ℕ AccessType
  deriving DecidableEq, Repr

/-- The constructor of an edge without objects. -/
def Edge.empty : Edge := ⟨∅⟩

/-- The constructor of an edge for the access to an object. -/
def Edge.ofAccess (obj : ℕ) (access_type : AccessType) : Edge :=
  ⟨OrderedMap.emplace ∅ obj access_type⟩

/-- `touched_objs.emplace`. -/
def Edge.touch (edge : Edge) (obj : ℕ) (access_type : AccessType) : Edge :=
  ⟨edge.touched_objs.emplace obj access_type⟩

/-- The members that the builders of the dependency graph read and write. -/
structure Dependencies where
  graph : DependencyGraph ℕ Node EdgeIndex Edge
  obj_ownership_map : OrderedMap ℕ ℕ
  stream_ownership_map : OrderedMap ℕ ℕ
  read_nodes : OrderedMap ℕ (List ℕ)

namespace Dependencies

/-- The members before the first callback. -/
def empty : Dependencies := ⟨DependencyGraph.empty, ∅, ∅, ∅⟩

/-- The node of an operation is made when it is not there. -/
def addNode (d : Dependencies) (op_id : ℕ) (op_type : MemoryOperation) : Dependencies :=
  if d.graph.hasNode op_id then d else
    { d with graph := d.graph.addNode op_id (Node.ofType op_id op_type) }

/-- The operation follows the last one of its stream. -/
def linkStream (d : Dependencies) (op_id stream_id : ℕ) : Dependencies :=
  match d.stream_ownership_map.find? stream_id with
  | none => { d with stream_ownership_map := d.stream_ownership_map.emplace stream_id op_id }
  | some prev_stream_node =>
    { d with
      graph := d.graph.addEdge ⟨prev_stream_node, op_id, .STREAM_DEPENDENCY⟩ Edge.empty
      stream_ownership_map := d.stream_ownership_map.set stream_id op_id }

/-- The operation follows the last one of its stream, unless it is the last one itself. -/
def linkStreamOnce (d : Dependencies) (op_id stream_id : ℕ) : Dependencies :=
  if d.stream_ownership_map.find? stream_id = some op_id then d else d.linkStream op_id stream_id

/-- `update_graph_at_malloc`. -/
def updateGraphAtMalloc (d : Dependencies) (op_id stream_id : ℕ) (op_type : MemoryOperation) :
    Dependencies :=
  let d :=
    if d.graph.hasNode op_id then d else
      { d with
        graph := d.graph.addNode op_id (Node.ofType op_id op_type)
        obj_ownership_map := d.obj_ownership_map.emplace op_id op_id }
  d.linkStream op_id stream_id

/-- What a write and a release do for an object: the operation follows the last one that wrote the
object, or those that have read it since, whose list is cleared. It owns the object then. -/
def overwrite (d : Dependencies)
    (link : DependencyGraph ℕ Node EdgeIndex Edge → ℕ → DependencyGraph ℕ Node EdgeIndex Edge)
    (op_id obj_op_id owner : ℕ) (read_nodes : List ℕ) : Dependencies :=
  let d :=
    if read_nodes.isEmpty then
      { d with graph := link d.graph owner }
    else
      { d with
        graph := read_nodes.foldl link d.graph
        read_nodes := d.read_nodes.set obj_op_id [] }
  { d with obj_ownership_map := d.obj_ownership_map.set obj_op_id op_id }

/-- `update_graph_at_free`. -/
def updateGraphAtFree (d : Dependencies) (op_id stream_id memory_op_id : ℕ)
    (op_type : MemoryOperation) : Option Dependencies :=
  let d := d.addNode op_id op_type
  (d.obj_ownership_map.find? memory_op_id).bind fun owner =>
    (d.read_nodes.find? memory_op_id).map fun read_nodes =>
      let link := fun graph rnode =>
        DependencyGraph.addEdge graph ⟨rnode, op_id, .DATA_DEPENDENCY⟩
          (Edge.ofAccess memory_op_id .WRITE)
      let d := d.overwrite link op_id memory_op_id owner read_nodes
      d.linkStream op_id stream_id

/-- An edge for the access to an object: it is made, or the object is put into the one that is
there. -/
def linkData (graph : DependencyGraph ℕ Node EdgeIndex Edge) (edge_index : EdgeIndex)
    (obj_op_id : ℕ) (access_type : AccessType) : DependencyGraph ℕ Node EdgeIndex Edge :=
  match graph.edges.find? edge_index with
  | some edge => graph.setEdge edge_index (edge.touch obj_op_id access_type)
  | none => graph.addEdge edge_index (Edge.ofAccess obj_op_id access_type)

/-- `update_graph_at_access`. -/
def updateGraphAtAccess (d : Dependencies) (op_id : ℕ) (op_type : MemoryOperation)
    (stream_id obj_op_id : ℕ) (access_type : AccessType) : Option Dependencies :=
  let d := d.addNode op_id op_type
  let d := d.linkStreamOnce op_id stream_id
  let link := fun graph rnode =>
    linkData graph ⟨rnode, op_id, .DATA_DEPENDENCY⟩ obj_op_id access_type
  (d.obj_ownership_map.find? obj_op_id).bind fun prev_obj_node =>
    (d.read_nodes.find? obj_op_id).map fun read_nodes =>
      match access_type with
      | .READ =>
        { d with
          read_nodes := d.read_nodes.set obj_op_id (read_nodes ++ [op_id])
          graph := link d.graph prev_obj_node }
      | .WRITE => d.overwrite link op_id obj_op_id prev_obj_node read_nodes

end Dependencies

end MemoryLiveness

/-- `MemoryLiveness`. -/
structure MemoryLiveness where
  op_node : OrderedMap ℕ ℤ
  ctx_node : OrderedMap ℤ MemoryLiveness.MemoryOperation
  current_memories : OrderedMap ℕ Memory
  addresses_map : OrderedMap ℕ ℕ
  operations : OrderedMap ℕ (OrderedMap ℕ MemoryLiveness.MemoryOperation)
  current_memory_usage : ℕ
  current_memory_peak : ℕ
  optimal_memory_peak : ℕ
  memory_peak_kernel : ℕ
  deps : MemoryLiveness.Dependencies

namespace MemoryLiveness

open GpuPatch (AddressDict AddressEntry)

/-- The analysis before the first callback. -/
def empty : MemoryLiveness := ⟨∅, ∅, ∅, ∅, ∅, 0, 0, 0, 0, Dependencies.empty⟩

/-- `update_op_node`. -/
def updateOpNode (s : MemoryLiveness) (op_id : ℕ) (ctx_id : ℤ) : MemoryLiveness :=
  { s with
    op_node := if REDSHOW_MEMORY_HOST < op_id then s.op_node.set op_id ctx_id else s.op_node }

/-- `update_ctx_node`. -/
def updateCtxNode (s : MemoryLiveness) (ctx_id : ℤ) (op : MemoryOperation) : MemoryLiveness :=
  { s with ctx_node := s.ctx_node.emplace ctx_id op }

/-- `memory_operation_register`. -/
def memoryOperationRegister (s : MemoryLiveness) (memory_op_id op_id : ℕ)
    (mem_op : MemoryOperation) : MemoryLiveness :=
  let op_list := (s.operations.findD memory_op_id ∅).emplace op_id mem_op
  { s with operations := s.operations.set memory_op_id op_list }

/-- `memory_op_callback`. -/
def memoryOpCallback (s : MemoryLiveness) (op : Memory) : MemoryLiveness :=
  let s := s.updateOpNode op.op_id op.ctx_id
  let s := s.updateCtxNode op.ctx_id .REDSHOW_MEMORY_ALLOC
  let deps := s.deps.updateGraphAtMalloc op.op_id op.stream_id .REDSHOW_MEMORY_ALLOC
  let current_memory_usage := u64 (s.current_memory_usage + op.len)
  let s :=
    { s with
      deps := { deps with read_nodes := deps.read_nodes.emplace op.op_id [] }
      current_memories := s.current_memories.emplace op.op_id op
      addresses_map := s.addresses_map.emplace op.memory_range.start op.op_id
      current_memory_usage := current_memory_usage
      current_memory_peak :=
        if s.current_memory_peak < current_memory_usage then current_memory_usage
        else s.current_memory_peak }
  { s with
    operations :=
      if (s.operations.find? op.op_id).isSome then s.operations
      else (s.memoryOperationRegister op.op_id op.op_id .REDSHOW_MEMORY_ALLOC).operations }

/-- `memfree_op_callback`. -/
def memfreeOpCallback (s : MemoryLiveness) (op : Memfree) : Option MemoryLiveness :=
  let s := s.updateOpNode op.op_id op.ctx_id
  let s := s.updateCtxNode op.ctx_id .REDSHOW_MEMORY_FREE
  let address := op.memory_range.start
  (s.addresses_map.find? address).bind fun malloc_op_id =>
    let s :=
      { s with
        addresses_map := s.addresses_map.erase address
        current_memories := s.current_memories.erase malloc_op_id
        current_memory_usage := subU64 s.current_memory_usage op.len }
    let s := s.memoryOperationRegister malloc_op_id op.op_id .REDSHOW_MEMORY_FREE
    (s.deps.updateGraphAtFree op.op_id op.stream_id malloc_op_id .REDSHOW_MEMORY_FREE).map
      fun deps => { s with deps := deps }

/-- The turn of the loop of `update_aux_hit`. -/
def auxHit (kernel_op_id : ℕ) (res : MemoryLiveness × ℕ) (entry : AddressEntry) :
    Option (MemoryLiveness × ℕ) :=
  if entry.hit = 1 then
    (res.1.addresses_map.find? entry.start_end.start).bind fun memory_op_id =>
      let s := res.1.memoryOperationRegister memory_op_id kernel_op_id .REDSHOW_MEMORY_ACCESS
      (s.current_memories.find? memory_op_id).map fun memory => (s, u64 (res.2 + memory.len))
  else
    some res

/-- `update_aux_hit`. -/
def updateAuxHit (s : MemoryLiveness) (kernel_aux : AddressDict) (kernel_op_id : ℕ) :
    Option MemoryLiveness :=
  (kernel_aux.entries.foldlM (auxHit kernel_op_id) (s, 0)).map fun res =>
    if res.1.optimal_memory_peak < res.2 then
      { res.1 with memory_peak_kernel := kernel_op_id, optimal_memory_peak := res.2 }
    else
      res.1

/-- The turn of the loop of `update_graph_at_kernel`. -/
def graphAtEntry (addresses_map : OrderedMap ℕ ℕ) (op_id stream_id : ℕ) (d : Dependencies)
    (entry : AddressEntry) : Option Dependencies :=
  if entry.hit = 1 then
    (addresses_map.find? entry.start_end.start).bind fun memory_op_id =>
      if entry.write = 1 then
        d.updateGraphAtAccess op_id .REDSHOW_MEMORY_ACCESS stream_id memory_op_id .WRITE
      else if entry.read = 1 then
        d.updateGraphAtAccess op_id .REDSHOW_MEMORY_ACCESS stream_id memory_op_id .READ
      else
        some d
  else
    some d

/-- `update_graph_at_kernel`. -/
def updateGraphAtKernel (s : MemoryLiveness) (kernel_aux : AddressDict) (op_id stream_id : ℕ) :
    Option MemoryLiveness :=
  (kernel_aux.entries.foldlM (graphAtEntry s.addresses_map op_id stream_id) s.deps).map fun deps =>
    { s with deps := deps }

/-- `analysis_begin`, with the dictionary of the patch when it has one. -/
def analysisBegin (s : MemoryLiveness) (host_op_id stream_id : ℕ) (aux : Option AddressDict) :
    Option MemoryLiveness :=
  match aux with
  | none => some s
  | some aux =>
    (s.updateAuxHit aux host_op_id).bind fun s => s.updateGraphAtKernel aux host_op_id stream_id

/-- `kernel_op_callback`. -/
def kernelOpCallback (s : MemoryLiveness) (op : Kernel) : MemoryLiveness :=
  (s.updateOpNode op.op_id op.ctx_id).updateCtxNode op.ctx_id .REDSHOW_MEMORY_ACCESS

/-- The part of `memcpy_op_callback` for one of its two objects. -/
def copyAccess (s : MemoryLiveness) (op_id : ℕ) (ctx_id : ℤ) (op_type : MemoryOperation)
    (stream_id memory_op_id : ℕ) (access_type : AccessType) : Option MemoryLiveness :=
  if memory_op_id ≠ REDSHOW_MEMORY_HOST then
    let s := s.updateCtxNode ctx_id op_type
    let s := s.memoryOperationRegister memory_op_id op_id op_type
    (s.deps.updateGraphAtAccess op_id op_type stream_id memory_op_id access_type).map fun deps =>
      { s with deps := deps }
  else
    some s

/-- `memcpy_op_callback`. -/
def memcpyOpCallback (s : MemoryLiveness) (op : Memcpy) : Option MemoryLiveness :=
  let s := s.updateOpNode op.op_id op.ctx_id
  (s.copyAccess op.op_id op.ctx_id .REDSHOW_MEMORY_COPYF op.src_stream_id op.src_memory_op_id
    .READ).bind fun s =>
      s.copyAccess op.op_id op.ctx_id .REDSHOW_MEMORY_COPYT op.dst_stream_id op.dst_memory_op_id
        .WRITE

/-- `memset_op_callback`. -/
def memsetOpCallback (s : MemoryLiveness) (op : Memset) : Option MemoryLiveness :=
  let s := s.updateOpNode op.op_id op.ctx_id
  let s := s.updateCtxNode op.ctx_id .REDSHOW_MEMORY_SET
  (s.deps.updateGraphAtAccess op.op_id .REDSHOW_MEMORY_SET op.stream_id op.memory_op_id
    .WRITE).map fun deps =>
      ({ s with deps := deps } : MemoryLiveness).memoryOperationRegister op.memory_op_id op.op_id
        .REDSHOW_MEMORY_SET

/-- What the analysis is told: `op_callback`, and `analysis_begin` before that of a kernel. -/
inductive Callback
  | memory (op : Memory)
  | memfree (op : Memfree)
  | kernel (op : Kernel) (aux : Option AddressDict)
  | memcpy (op : Memcpy)
  | memset (op : Memset)

/-- The id of the operation. -/
def Callback.op_id : Callback → ℕ
  | memory op => op.op_id
  | memfree op => op.op_id
  | kernel op _ => op.op_id
  | memcpy op => op.op_id
  | memset op => op.op_id

/-- The callback of an operation. -/
def opCallback (s : MemoryLiveness) : Callback → Option MemoryLiveness
  | .memory op => some (s.memoryOpCallback op)
  | .memfree op => s.memfreeOpCallback op
  | .kernel op aux => (s.analysisBegin op.op_id op.stream_id aux).map (·.kernelOpCallback op)
  | .memcpy op => s.memcpyOpCallback op
  | .memset op => s.memsetOpCallback op

/-! ## `dump_topological_order` -/

/-- The name under which the operations of a type are written, if any. -/
def opName : MemoryOperation → Option String
  | .REDSHOW_MEMORY_ALLOC => some "ALLOC"
  | .REDSHOW_MEMORY_FREE => some "FREE"
  | .REDSHOW_MEMORY_ACCESS => some "ACCESS"
  | .REDSHOW_MEMORY_SET => some "SET"
  | .REDSHOW_MEMORY_COPYT => some "COPYT"
  | .REDSHOW_MEMORY_COPYF => some "COPYF"
  | .REDSHOW_SUBMEMORY_ALLOC => none
  | .REDSHOW_SUBMEMORY_FREE => none

/-- A line of the output for an operation: its id, its name, and its round. -/
structure OrderLine where
  op_id : ℕ
  name : String
  top_index : ℕ
  deriving DecidableEq, Repr

/-- What is written for an operation of a round. -/
def writeOp (s : MemoryLiveness) (top_index j : ℕ) : Option (List OrderLine) :=
  (s.op_node.find? j).bind fun ctx_id =>
    (s.ctx_node.find? ctx_id).map fun op_type =>
      match opName op_type with
      | some name => [⟨j, name, top_index⟩]
      | none => []

/-- `dump_topological_order`: for each round its number and its lines, when the loop ends within
`fuel` turns. -/
def dumpTopologicalOrder (s : MemoryLiveness) (fuel : ℕ) : Option (List (ℕ × List OrderLine)) :=
  (s.deps.graph.peel fuel).bind fun topological_index =>
    topological_index.toList.mapM fun i =>
      (i.2.mapM (s.writeOp i.1)).map fun lines => (i.1, lines.flatten)

end MemoryLiveness

end TenProf
