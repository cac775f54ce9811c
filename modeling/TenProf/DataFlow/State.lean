import Mathlib.Data.Prod.Lex
import Mathlib.Data.String.Basic
import TenProf.Common.Graph
import TenProf.Library.Bytes
import TenProf.Operation.MergeMemoryRange

/-!
# The state of the data flow analysis

The members of `DataFlow` that its kernel callback reads and writes, and the small functions on
them. `DataDependency` is the same class under another name. The buffers of the memory objects lie
in the host memory, which is part of the state.
-/

namespace TenProf.DataFlow

/-- What the analysis takes from code outside it, and its limits. -/
structure Env where
  /-- `static_cast<double>(overwrite) / len < _FRAGMENT_RATIO_LIMIT`. -/
  ratio_below_limit : ℤ → ℕ → Bool
  /-- `sha256` of a block of bytes. -/
  sha256 : List UInt8 → String
  /-- `_FRAGMENT_SIZE_LIMIT`, with the value that the source gives it. -/
  FRAGMENT_SIZE_LIMIT : ℕ := 128 * 1024 * 1024
  /-- `_FRAGMENT_LEN_LIMIT`. -/
  FRAGMENT_LEN_LIMIT : ℕ := 10000

/-- `EdgeType`. -/
inductive EdgeType
  | DATA_FLOW_EDGE_ORDER
  | DATA_FLOW_EDGE_READ
  | DATA_FLOW_EDGE_SINK
  deriving DecidableEq, Repr

/-- The value of the enumeration. -/
def EdgeType.toNat : EdgeType → ℕ
  | DATA_FLOW_EDGE_ORDER => 0
  | DATA_FLOW_EDGE_READ => 1
  | DATA_FLOW_EDGE_SINK => 2

/-- `OperationType`, as far as the nodes of the graph have it. -/
inductive OperationType
  | OPERATION_TYPE_KERNEL
  | OPERATION_TYPE_MEMORY
  | OPERATION_TYPE_MEMCPY
  | OPERATION_TYPE_MEMSET
  | OPERATION_TYPE_MEMFREE
  deriving DecidableEq, Repr

/-- `Node`. -/
structure Node where
  ctx_id : ℤ
  type : OperationType
  deriving DecidableEq, Repr

/-- `EdgeIndex`; `source` and `target` are the fields `from` and `to`. -/
structure EdgeIndex where
  source : ℤ
  target : ℤ
  mem_ctx_id : ℤ
  type : EdgeType
  deriving DecidableEq, Repr

instance : EdgeEnds EdgeIndex ℤ := ⟨EdgeIndex.source, EdgeIndex.target⟩

/-- What the comparison of edge indices looks at, in that order. -/
def EdgeIndex.key (e : EdgeIndex) : ℤ ×ₗ ℤ ×ₗ ℤ ×ₗ ℕ :=
  toLex (e.source, toLex (e.target, toLex (e.mem_ctx_id, e.type.toNat)))

/-- The comparison looks at everything. -/
theorem EdgeIndex.key_injective : Function.Injective EdgeIndex.key := by
  rintro ⟨s, t, m, type⟩ ⟨s', t', m', type'⟩ h
  simp only [key, EmbeddingLike.apply_eq_iff_eq, Prod.mk.injEq] at h
  obtain ⟨rfl, rfl, rfl, htype⟩ := h
  cases type <;> cases type' <;> first | rfl | exact absurd htype (by decide)

instance : LinearOrder EdgeIndex := LinearOrder.lift' EdgeIndex.key EdgeIndex.key_injective

/-- `Edge`. -/
structure Edge where
  type : EdgeType
  redundancy : ℕ
  overwrite : ℕ
  count : ℕ
  deriving DecidableEq, Repr

/-- The constructor of an edge of a type. -/
def Edge.ofType (type : EdgeType) : Edge := ⟨type, 0, 0, 0⟩

/-- `DataFlowTrace`: the ranges read and written by the kernel, for each memory object. -/
structure DataFlowTrace where
  read_memory : OrderedMap ℕ RangeSet
  write_memory : OrderedMap ℕ RangeSet

end DataFlow

open DataFlow in
/-- The analysis. -/
structure DataFlow where
  host : ByteMem
  trace : Option DataFlowTrace
  graph : Graph ℤ Node EdgeIndex Edge
  op_node : OrderedMap ℕ ℤ
  node_hash : OrderedMap ℤ (OrderedSet String)
  memories : OrderedMap ℕ Memory
  read_trace_ignore : Bool
  data_flow_hash : Bool

namespace DataFlow

/-- `link_ctx_node`. -/
def linkCtxNode (s : DataFlow) (src_ctx_id dst_ctx_id mem_ctx_id : ℤ) (type : EdgeType) :
    DataFlow :=
  { s with graph := s.graph.addEdge ⟨src_ctx_id, dst_ctx_id, mem_ctx_id, type⟩ (Edge.ofType type) }

/-- `link_op_node`. -/
def linkOpNode (s : DataFlow) (op_id : ℕ) (ctx_id mem_ctx_id : ℤ) : DataFlow :=
  match s.op_node.find? op_id with
  | some prev_ctx_id =>
    linkCtxNode s prev_ctx_id ctx_id mem_ctx_id EdgeType.DATA_FLOW_EDGE_ORDER
  | none => s

/-- `update_op_node`. -/
def updateOpNode (s : DataFlow) (op_id : ℕ) (ctx_id : ℤ) : DataFlow :=
  if REDSHOW_MEMORY_HOST < op_id then { s with op_node := s.op_node.set op_id ctx_id } else s

/-- `update_edge_metrics`. -/
def updateEdgeMetrics (s : DataFlow) (src_ctx_id dst_ctx_id mem_ctx_id : ℤ)
    (redundancy overwrite count : ℕ) (type : EdgeType) : DataFlow :=
  let edge_index : EdgeIndex := ⟨src_ctx_id, dst_ctx_id, mem_ctx_id, type⟩
  match s.graph.edges.find? edge_index with
  | some edge =>
    { s with
      graph := { s.graph with
        edges := s.graph.edges.set edge_index
          { edge with
            redundancy := u64 (edge.redundancy + redundancy)
            overwrite := u64 (edge.overwrite + overwrite)
            count := u64 (edge.count + count) } } }
  | none => s

/-- `update_op_metrics`. -/
def updateOpMetrics (s : DataFlow) (op_id : ℕ) (ctx_id mem_ctx_id : ℤ)
    (redundancy overwrite count : ℕ) (type : EdgeType) : DataFlow :=
  match s.op_node.find? op_id with
  | some prev_ctx_id =>
    updateEdgeMetrics s prev_ctx_id ctx_id mem_ctx_id redundancy overwrite count type
  | none => s

end DataFlow

end TenProf
