import TenProf.DataFlow.Callbacks
import TenProf.Library.Loops
import TenProf.Library.Runs

/-!
# What `dump` writes

`dump` makes a vertex for each node, then goes over the incoming edges of each node. The properties
of the vertices and the averages of an edge are left out; an edge comes out with its index and its
metrics. In every state that a run of `op_callback` reaches from `init`, the graph is well formed,
nodes are found under their contexts, and the last writers are nodes (`Inv`). So the traversal finds
every node and every edge, and writes each edge once (`graph_wellFormed_of_run`).
-/

namespace TenProf.DataFlow

/-- An edge that is written, between two vertices. -/
structure DotEdge where
  source : ℕ
  target : ℕ
  edge_index : EdgeIndex
  edge : Edge
  deriving DecidableEq, Repr

/-- `vertice`: the vertex of each context, numbered as they are added. -/
def vertices (g : Graph ℤ Node EdgeIndex Edge) : OrderedMap ℤ ℕ :=
  g.nodes.toList.foldl (fun vertice node_iter =>
    let ctx_id := node_iter.2.ctx_id
    if (vertice.find? ctx_id).isNone then vertice.set ctx_id vertice.size else vertice) ∅

/-- The turn of the loop for an incoming edge of the vertex `v`. -/
def dumpEdge (g : Graph ℤ Node EdgeIndex Edge) (vertice : OrderedMap ℤ ℕ) (v : ℕ)
    (edge_index : EdgeIndex) : Option DotEdge :=
  (g.nodes.find? edge_index.source).bind fun incoming_node =>
    (g.edges.find? edge_index).map fun edge =>
      ⟨vertice.findD incoming_node.ctx_id 0, v, edge_index, edge⟩

/-- The turn of the loop for a node. -/
def dumpNode (g : Graph ℤ Node EdgeIndex Edge) (vertice : OrderedMap ℤ ℕ)
    (node_iter : ℤ × Node) : Option (List DotEdge) :=
  let ctx_id := node_iter.2.ctx_id
  if 0 < g.incomingEdgeSize ctx_id then
    (g.incoming_edges.find? ctx_id).bind fun incoming_edges =>
      incoming_edges.elems.mapM (dumpEdge g vertice (vertice.findD ctx_id 0))
  else some []

/-- The edges that `dump` writes. -/
def dump (s : DataFlow) : Option (List DotEdge) :=
  (s.graph.nodes.toList.mapM (dumpNode s.graph (vertices s.graph))).map List.flatten

/-- The invariant. -/
structure Inv (s : DataFlow) : Prop where
  graph : s.graph.WellFormed
  /-- A node is found under its context. -/
  node_ctx : ∀ i n, s.graph.nodes.find? i = some n → n.ctx_id = i
  /-- The context of every last writer is a node. -/
  op_node : ∀ m c, s.op_node.find? m = some c → s.graph.hasNode c

/-- The invariant, with a node for the context of the operation that is handled. -/
structure InvAt (ctx_id : ℤ) (s : DataFlow) : Prop extends Inv s where
  ctx : s.graph.hasNode ctx_id

section

variable {env : Env} {device_mem : ByteMem} {s s' : DataFlow} {c : ℤ}

/-- The invariant is about the graph and the last writers. -/
theorem InvAt.congr (h : InvAt c s) (hgraph : s'.graph = s.graph) (hop : s'.op_node = s.op_node) :
    InvAt c s' := by
  obtain ⟨⟨hwf, hnode, hwriter⟩, hctx⟩ := h
  exact ⟨⟨hgraph ▸ hwf, hgraph ▸ hnode, hop ▸ hgraph ▸ hwriter⟩, hgraph ▸ hctx⟩

/-- `link_ctx_node` between nodes. -/
theorem InvAt.linkCtxNode (h : InvAt c s) {src dst : ℤ} (hsrc : s.graph.hasNode src)
    (hdst : s.graph.hasNode dst) (mem_ctx_id : ℤ) (type : EdgeType) :
    InvAt c (linkCtxNode s src dst mem_ctx_id type) where
  graph := h.graph.addEdge (e := (⟨src, dst, mem_ctx_id, type⟩ : EdgeIndex)) hsrc hdst _
  node_ctx i n hn := h.node_ctx i n (by rwa [DataFlow.linkCtxNode, Graph.nodes_addEdge] at hn)
  op_node m c hm := by
    rw [DataFlow.linkCtxNode, Graph.hasNode_addEdge]
    exact h.op_node m c hm
  ctx := by
    rw [DataFlow.linkCtxNode, Graph.hasNode_addEdge]
    exact h.ctx

/-- `link_op_node` of an operation in the context. -/
theorem InvAt.linkOpNode (h : InvAt c s) (op_id : ℕ) (mem_ctx_id : ℤ) :
    InvAt c (linkOpNode s op_id c mem_ctx_id) := by
  unfold DataFlow.linkOpNode
  cases hprev : s.op_node.find? op_id with
  | none => exact h
  | some prev_ctx_id => exact h.linkCtxNode (h.op_node _ _ hprev) h.ctx _ _

/-- `update_op_node` to the context. -/
theorem InvAt.updateOpNode (h : InvAt c s) (op_id : ℕ) : InvAt c (updateOpNode s op_id c) := by
  unfold DataFlow.updateOpNode
  split_ifs
  · refine ⟨⟨h.graph, h.node_ctx, fun m c' hm => ?_⟩, h.ctx⟩
    rw [OrderedMap.find?_set] at hm
    split_ifs at hm
    · cases hm
      exact h.ctx
    · exact h.op_node m c' hm
  · exact h

/-- `update_edge_metrics`. -/
theorem InvAt.updateEdgeMetrics (h : InvAt c s) (src dst mem_ctx_id : ℤ)
    (redundancy overwrite count : ℕ) (type : EdgeType) :
    InvAt c (updateEdgeMetrics s src dst mem_ctx_id redundancy overwrite count type) := by
  unfold DataFlow.updateEdgeMetrics
  simp only
  split
  · next edge hedge => exact ⟨⟨h.graph.setEdge hedge _, h.node_ctx, h.op_node⟩, h.ctx⟩
  · exact h

/-- `update_op_metrics`. -/
theorem InvAt.updateOpMetrics (h : InvAt c s) (op_id : ℕ) (ctx_id mem_ctx_id : ℤ)
    (redundancy overwrite count : ℕ) (type : EdgeType) :
    InvAt c (updateOpMetrics s op_id ctx_id mem_ctx_id redundancy overwrite count type) := by
  unfold DataFlow.updateOpMetrics
  cases s.op_node.find? op_id with
  | none => exact h
  | some prev_ctx_id => exact h.updateEdgeMetrics _ _ _ _ _ _ _

/-- `hashNode` changes neither the graph nor the last writers. -/
theorem InvAt.hashNode (h : InvAt c s) (ctx_id : ℤ) (start len : ℕ) :
    InvAt c (hashNode env s ctx_id start len) := by
  unfold DataFlow.hashNode
  split_ifs
  · exact h.congr rfl rfl
  · exact h

/-- The invariant holds after a turn of the loop over the objects read. -/
theorem InvAt.after_readMemory {op : Kernel} {mem_iter : ℕ × RangeSet} (h : InvAt op.ctx_id s)
    (hstep : readMemory op s mem_iter = some s') : InvAt op.ctx_id s' := by
  obtain ⟨memory, -, hstep⟩ := Option.bind_eq_some_iff.1 hstep
  by_cases htracked : REDSHOW_MEMORY_HOST < memory.op_id
  · rw [if_pos htracked] at hstep
    obtain ⟨node_id, hnode, rfl⟩ := Option.map_eq_some_iff.1 hstep
    exact (h.linkCtxNode (h.op_node _ _ hnode) h.ctx _ _).updateOpMetrics _ _ _ _ _ _ _
  · rw [if_neg htracked] at hstep
    cases hstep
    exact h

/-- The invariant holds after a turn of the loop over the objects written. -/
theorem InvAt.after_writeMemory {op : Kernel} {mem_iter : ℕ × RangeSet} (h : InvAt op.ctx_id s)
    (hstep : writeMemory env device_mem op s mem_iter = some s') : InvAt op.ctx_id s' := by
  obtain ⟨memory, -, hstep⟩ := Option.bind_eq_some_iff.1 hstep
  split_ifs at hstep
  · obtain ⟨res, -, rfl⟩ := Option.map_eq_some_iff.1 hstep
    have hhost : InvAt op.ctx_id { s with host := res.1 } := h.congr rfl rfl
    have hlinked := ((hhost.linkOpNode memory.op_id memory.ctx_id).updateOpMetrics memory.op_id
      op.ctx_id memory.ctx_id (u64OfInt res.2) (u64OfInt (rangesLen mem_iter.2)) memory.len
      .DATA_FLOW_EDGE_ORDER).updateOpNode memory.op_id
    simp only
    split_ifs
    · exact hlinked.congr rfl rfl
    · exact hlinked
  · cases hstep
    exact h

/-- The invariant holds after `kernel_op_callback`. -/
theorem InvAt.after_kernelOpCallback {op : Kernel} (h : InvAt op.ctx_id s)
    (hstep : kernelOpCallback env device_mem s op = some s') : InvAt op.ctx_id s' := by
  unfold kernelOpCallback at hstep
  cases htrace : s.trace with
  | none =>
    simp only [htrace, Option.some.injEq] at hstep
    exact hstep ▸ h
  | some trace =>
    simp only [htrace] at hstep
    obtain ⟨s₁, hread, hstep⟩ := Option.bind_eq_some_iff.1 hstep
    obtain ⟨s₂, hwrite, rfl⟩ := Option.map_eq_some_iff.1 hstep
    have h₁ : InvAt op.ctx_id s₁ :=
      foldlM_invariant (fun _ _ _ hs _ hstep => hs.after_readMemory hstep) h hread
    have h₂ : InvAt op.ctx_id s₂ :=
      foldlM_invariant (fun _ _ _ hs _ hstep => hs.after_writeMemory hstep) h₁ hwrite
    exact h₂.congr rfl rfl

/-- The invariant holds after `memset_op_callback`. -/
theorem InvAt.after_memsetOpCallback {op : ShadowMemset} (h : InvAt op.ctx_id s)
    (hstep : memsetOpCallback env s op = some s') : InvAt op.ctx_id s' := by
  obtain ⟨memory, -, rfl⟩ := Option.map_eq_some_iff.1 hstep
  refine InvAt.hashNode ?_ _ _ _
  have hlinked := ((h.linkOpNode op.memory_op_id memory.ctx_id).updateOpMetrics op.memory_op_id
    op.ctx_id memory.ctx_id (computeMemsetRedundancy s.host op.shadow_start op.value op.len)
    op.len memory.len .DATA_FLOW_EDGE_ORDER).updateOpNode op.memory_op_id
  exact hlinked.congr rfl rfl

/-- The invariant holds after the part of a memcpy for the destination. -/
theorem InvAt.after_linkDst {op : ShadowMemcpy} {src_memory dst_memory : Memory} {redundancy : ℕ}
    (h : InvAt op.ctx_id s) (hstep : linkDst s op src_memory dst_memory redundancy = some s') :
    InvAt op.ctx_id s' := by
  unfold linkDst at hstep
  simp only at hstep
  split_ifs at hstep
  · obtain ⟨dst_ctx_id, hdst, rfl⟩ := Option.map_eq_some_iff.1 hstep
    exact (h.linkCtxNode h.ctx (h.op_node _ _ hdst) _ _).updateEdgeMetrics _ _ _ _ _ _ _
  · cases hstep
    exact ((h.linkOpNode _ _).updateOpMetrics _ _ _ _ _ _ _).updateOpNode _

/-- The invariant holds after the part of a memcpy for the source. -/
theorem InvAt.after_linkSrc {op : ShadowMemcpy} {src_memory : Memory} (h : InvAt op.ctx_id s)
    (hstep : linkSrc s op src_memory = some s') : InvAt op.ctx_id s' := by
  obtain ⟨src_ctx_id, hsrc, hstep⟩ := Option.bind_eq_some_iff.1 hstep
  obtain ⟨dst_ctx_id, -, rfl⟩ := Option.map_eq_some_iff.1 hstep
  exact (h.linkCtxNode (h.op_node _ _ hsrc) h.ctx _ _).updateOpMetrics _ _ _ _ _ _ _

/-- The invariant holds after `memcpy_op_callback`. -/
theorem InvAt.after_memcpyOpCallback {op : ShadowMemcpy} (h : InvAt op.ctx_id s)
    (hstep : memcpyOpCallback env s op = some s') : InvAt op.ctx_id s' := by
  obtain ⟨src_memory, -, hstep⟩ := Option.bind_eq_some_iff.1 hstep
  obtain ⟨dst_memory, -, hstep⟩ := Option.bind_eq_some_iff.1 hstep
  obtain ⟨s₁, hdst, hstep⟩ := Option.bind_eq_some_iff.1 hstep
  obtain ⟨s₂, hsrc, rfl⟩ := Option.map_eq_some_iff.1 hstep
  have hlinked := (h.after_linkDst hdst).after_linkSrc hsrc
  have hcopied : InvAt op.ctx_id { s₂ with
      host := copyBytes s₂.host s₂.host op.dst_shadow_start op.src_shadow_start op.len } :=
    hlinked.congr rfl rfl
  exact hcopied.hashNode _ _ _

/-- A node that is added under its context is found there. -/
theorem ctx_id_addNode {g : Graph ℤ Node EdgeIndex Edge}
    (h : ∀ i n, g.nodes.find? i = some n → n.ctx_id = i) (ctx_id : ℤ) (type : OperationType) :
    ∀ i n, (g.addNode ctx_id ⟨ctx_id, type⟩).nodes.find? i = some n → n.ctx_id = i := by
  intro i n hn
  simp only [Graph.addNode, OrderedMap.find?_emplace] at hn
  split_ifs at hn with hi
  · cases hold : g.nodes.find? ctx_id with
    | none =>
      rw [hold, Option.getD_none, Option.some.injEq] at hn
      rw [← hn, hi]
    | some old =>
      rw [hold, Option.getD_some, Option.some.injEq] at hn
      rw [← hn, hi]
      exact h _ _ hold
  · exact h i n hn

/-- The context of the operation gets its node. -/
theorem Inv.after_addCtxNode (h : Inv s) (op : Operation) : InvAt op.ctx_id (addCtxNode s op) := by
  unfold addCtxNode
  split_ifs with hnode
  · exact ⟨h, hnode⟩
  · refine ⟨⟨h.graph.addNode _ _, ctx_id_addNode h.node_ctx _ _, fun m c hm => ?_⟩, by simp⟩
    rw [Graph.hasNode_addNode]
    exact .inr (h.op_node m c hm)

/-- The invariant survives every operation. -/
theorem Inv.after_opCallback (h : Inv s) {e : ByteMem × Operation}
    (hstep : opCallback env s e = some s') : Inv s' := by
  obtain ⟨device_mem, op⟩ := e
  have hat := h.after_addCtxNode op
  unfold opCallback at hstep
  cases op with
  | memory op =>
    cases hstep
    have hwriter := hat.updateOpNode op.op_id
    have hcopied : InvAt op.ctx_id (memoryOpCallback device_mem (addCtxNode s (.memory op)) op) :=
      hwriter.congr rfl rfl
    exact hcopied.toInv
  | kernel op trace =>
    have htrace : InvAt op.ctx_id { addCtxNode s (.kernel op trace) with trace := trace } :=
      hat.congr rfl rfl
    exact (htrace.after_kernelOpCallback hstep).toInv
  | memcpy op => exact (hat.after_memcpyOpCallback hstep).toInv
  | memset op => exact (hat.after_memsetOpCallback hstep).toInv
  | memfree op =>
    cases hstep
    exact hat.toInv

/-- The invariant holds after `init`. -/
theorem inv_init (host : ByteMem) (read_trace_ignore data_flow_hash : Bool) :
    Inv (init host read_trace_ignore data_flow_hash) := by
  -- Every node that `init` adds stands under its context.
  have hgraph : (init host read_trace_ignore data_flow_hash).graph.WellFormed ∧
      ∀ i n, (init host read_trace_ignore data_flow_hash).graph.nodes.find? i = some n →
        n.ctx_id = i := by
    refine List.foldlRecOn (motive := fun g : Graph ℤ Node EdgeIndex Edge =>
      g.WellFormed ∧ ∀ i n, g.nodes.find? i = some n → n.ctx_id = i) _ _
      ⟨Graph.wellFormed_empty, by simp [Graph.empty]⟩ fun g hg m _ => ?_
    exact ⟨hg.1.addNode _ _, ctx_id_addNode hg.2 _ _⟩
  -- The contexts of the memories that are not tracked are among them.
  have hwriters : ∀ e ∈ (init (fun _ => 0) false false).op_node.toList,
      (init (fun _ => 0) false false).graph.hasNode e.2 := by decide +kernel
  exact ⟨hgraph.1, hgraph.2, fun m c hm =>
    hwriters (m, c) ((OrderedMap.find?_eq_some_iff _ _ _).1 hm)⟩

/-- A vertex that is there stays. -/
theorem isSome_vertices_foldl {ns : List (ℤ × Node)} {vertice : OrderedMap ℤ ℕ} {c : ℤ}
    (h : (vertice.find? c).isSome ∨ c ∈ ns.map fun n => n.2.ctx_id) :
    ((ns.foldl (fun vertice node_iter =>
      let ctx_id := node_iter.2.ctx_id
      if (vertice.find? ctx_id).isNone then vertice.set ctx_id vertice.size else vertice)
      vertice).find? c).isSome := by
  induction ns generalizing vertice with
  | nil => simpa using h
  | cons n ns ih =>
    rw [List.foldl_cons]
    refine ih ?_
    -- The context of the first node has a vertex after its turn.
    by_cases hfirst : c = n.2.ctx_id
    · left
      simp only
      split_ifs with hnone
      · simp [hfirst]
      · rw [hfirst]
        simpa [Option.isSome_iff_ne_none] using hnone
    · rw [List.map_cons, List.mem_cons, or_iff_right hfirst] at h
      refine h.imp_left fun hc => ?_
      simp only
      split_ifs
      · rw [OrderedMap.find?_set_of_ne _ hfirst]
        exact hc
      · exact hc

/-- A node that is found under its context has a vertex. -/
theorem Inv.vertices_find? (h : Inv s) {i : ℤ} (hi : s.graph.hasNode i) :
    (vertices s.graph).find? i = some ((vertices s.graph).findD i 0) := by
  obtain ⟨n, hn⟩ := Option.isSome_iff_exists.1 hi
  have hmem : i ∈ s.graph.nodes.toList.map fun n => n.2.ctx_id :=
    List.mem_map.2 ⟨(i, n), (OrderedMap.find?_eq_some_iff _ _ _).1 hn, h.node_ctx i n hn⟩
  have hsome := @isSome_vertices_foldl _ ∅ i (.inr hmem)
  obtain ⟨v, hv⟩ := Option.isSome_iff_exists.1 hsome
  change (vertices s.graph).find? i = some v at hv
  rw [OrderedMap.findD, hv, Option.getD_some]

/-- A turn for an edge of the graph writes it. -/
theorem Inv.dumpEdge_eq_some (h : Inv s) {v : ℕ} {e : EdgeIndex} (he : s.graph.hasEdge e) :
    ∃ edge, s.graph.edges.find? e = some edge ∧ dumpEdge s.graph (vertices s.graph) v e =
      some ⟨(vertices s.graph).findD e.source 0, v, e, edge⟩ := by
  obtain ⟨edge, hedge⟩ := Option.isSome_iff_exists.1 he
  obtain ⟨n, hn⟩ := Option.isSome_iff_exists.1 (h.graph.source_node e he)
  change s.graph.nodes.find? e.source = some n at hn
  refine ⟨edge, hedge, ?_⟩
  rw [dumpEdge, hn, Option.bind_some, hedge, Option.map_some, h.node_ctx _ _ hn]

/-- What a turn for a node writes: its incoming edges. -/
structure NodeDumped (s : DataFlow) (n : ℤ × Node) (out : List DotEdge) : Prop where
  index : out.map DotEdge.edge_index = (s.graph.incoming_edges.findD n.1 ∅).elems
  edge : ∀ d ∈ out, s.graph.edges.find? d.edge_index = some d.edge
  source : ∀ d ∈ out, d.source = (vertices s.graph).findD d.edge_index.source 0
  target : ∀ d ∈ out, d.target = (vertices s.graph).findD d.edge_index.target 0

/-- The turn for a node has a result. -/
theorem Inv.dumpNode_eq_some (h : Inv s) {n : ℤ × Node} (hn : n ∈ s.graph.nodes.toList) :
    ∃ out, dumpNode s.graph (vertices s.graph) n = some out ∧ NodeDumped s n out := by
  have hctx : n.2.ctx_id = n.1 := h.node_ctx n.1 n.2 ((OrderedMap.find?_eq_some_iff _ _ _).2 hn)
  have hincoming := h.graph.incoming n.1
  unfold dumpNode
  simp only [hctx, Graph.incomingEdgeSize, OrderedMap.findD] at hincoming ⊢
  cases hfind : s.graph.incoming_edges.find? n.1 with
  | none =>
    refine ⟨[], by simp, ?_, by simp, by simp, by simp⟩
    rw [OrderedMap.findD, hfind]
    rfl
  | some incoming_edges =>
    simp only [hfind, Option.getD_some] at hincoming
    have hedges : ∀ e ∈ incoming_edges.elems, s.graph.hasEdge e ∧ e.target = n.1 := fun e he =>
      (hincoming e).1 he
    split_ifs with hsize
    · -- The loop writes every edge of the list.
      have hsome : (incoming_edges.elems.mapM (dumpEdge s.graph (vertices s.graph)
          (((vertices s.graph).find? n.1).getD 0))).isSome := isSome_mapM_iff.2 fun e he => by
        obtain ⟨edge, -, hdump⟩ := h.dumpEdge_eq_some (hedges e he).1
        rw [hdump]
        rfl
      obtain ⟨out, hout⟩ := Option.isSome_iff_exists.1 hsome
      have hone : ∀ d ∈ out, s.graph.edges.find? d.edge_index = some d.edge ∧
          d.source = (vertices s.graph).findD d.edge_index.source 0 ∧
          d.target = (vertices s.graph).findD d.edge_index.target 0 := by
        intro d hd
        obtain ⟨e, he, hdump⟩ := exists_of_mem_mapM hout hd
        obtain ⟨edge, hedge, hdump'⟩ := h.dumpEdge_eq_some (hedges e he).1
        rw [hdump', Option.some.injEq] at hdump
        rw [← hdump, (hedges e he).2]
        exact ⟨hedge, rfl, rfl⟩
      refine ⟨out, hout, ?_, fun d hd => (hone d hd).1, fun d hd => (hone d hd).2.1,
        fun d hd => (hone d hd).2.2⟩
      rw [OrderedMap.findD, hfind, Option.getD_some]
      refine (map_eq_of_mapM (h := id) hout fun e _ d hdump => ?_).trans (List.map_id _)
      obtain ⟨_, -, hdump⟩ := Option.bind_eq_some_iff.1 hdump
      obtain ⟨_, -, rfl⟩ := Option.map_eq_some_iff.1 hdump
      rfl
    · -- An empty list.
      have hempty : incoming_edges.toList = [] := List.eq_nil_of_length_eq_zero (by
        simpa [OrderedMap.size] using hsize)
      refine ⟨[], rfl, ?_, by simp, by simp, by simp⟩
      rw [OrderedMap.findD, hfind, Option.getD_some, OrderedSet.elems, hempty]
      rfl

/-- The traversal of a graph with the invariant finds every node and every edge, and writes every
edge once, between the vertices of its ends. -/
theorem Inv.dump_eq_some (h : Inv s) : ∃ out, dump s = some out ∧
    (out.map fun d => (d.edge_index, d.edge)).Perm s.graph.edges.toList ∧
    ∀ d ∈ out, (vertices s.graph).find? d.edge_index.source = some d.source ∧
      (vertices s.graph).find? d.edge_index.target = some d.target := by
  have hsome : (s.graph.nodes.toList.mapM (dumpNode s.graph (vertices s.graph))).isSome :=
    isSome_mapM_iff.2 fun n hn => by
      obtain ⟨out, hout, -⟩ := h.dumpNode_eq_some hn
      rw [hout]
      rfl
  obtain ⟨outs, houts⟩ := Option.isSome_iff_exists.1 hsome
  have hdumped : ∀ n ∈ s.graph.nodes.toList, ∀ out,
      dumpNode s.graph (vertices s.graph) n = some out → NodeDumped s n out := by
    intro n hn out hout
    obtain ⟨out', hout', hd⟩ := h.dumpNode_eq_some hn
    rwa [Option.some.inj (hout.symm.trans hout')]
  have hall : ∀ d ∈ outs.flatten, s.graph.edges.find? d.edge_index = some d.edge ∧
      d.source = (vertices s.graph).findD d.edge_index.source 0 ∧
      d.target = (vertices s.graph).findD d.edge_index.target 0 := by
    intro d hd
    obtain ⟨out, hout, hd⟩ := List.mem_flatten.1 hd
    obtain ⟨n, hn, hnode⟩ := exists_of_mem_mapM houts hout
    have hone := hdumped n hn out hnode
    exact ⟨hone.edge d hd, hone.source d hd, hone.target d hd⟩
  -- The indices that are written are those of the lists, node after node.
  have hindex : outs.flatten.map DotEdge.edge_index =
      (s.graph.nodes.toList.map fun n => (s.graph.incoming_edges.findD n.1 ∅).elems).flatten := by
    rw [List.map_flatten]
    exact congrArg _ (map_eq_of_mapM houts fun n hn out hout => (hdumped n hn out hout).index)
  refine ⟨outs.flatten, by rw [dump, houts, Option.map_some], ?_, fun d hd => ?_⟩
  · have hpairs : (outs.flatten.map fun d => (d.edge_index, d.edge)).Nodup := by
      refine List.Nodup.of_map Prod.fst ?_
      rw [List.map_map]
      exact hindex ▸ h.graph.nodup_incoming
    refine (List.perm_ext_iff_of_nodup hpairs s.graph.edges.nodup_toList).2 fun e => ?_
    constructor
    · intro he
      obtain ⟨d, hd, rfl⟩ := List.mem_map.1 he
      exact (OrderedMap.find?_eq_some_iff _ _ _).1 (hall d hd).1
    · intro he
      have hfind := (OrderedMap.find?_eq_some_iff _ _ _).2 he
      have hhas : s.graph.hasEdge e.1 := by rw [Graph.hasEdge, hfind]; rfl
      have hlisted : e.1 ∈ outs.flatten.map DotEdge.edge_index := by
        rw [hindex]
        exact (h.graph.mem_incoming e.1).2 hhas
      obtain ⟨d, hd, hde⟩ := List.mem_map.1 hlisted
      refine List.mem_map.2 ⟨d, hd, ?_⟩
      have hedge := (hall d hd).1
      rw [hde, hfind, Option.some.injEq] at hedge
      rw [hde, ← hedge]
  · obtain ⟨hedge, hsource, htarget⟩ := hall d hd
    have hhas : s.graph.hasEdge d.edge_index := by rw [Graph.hasEdge, hedge]; rfl
    rw [hsource, htarget]
    exact ⟨h.vertices_find? (h.graph.source_node _ hhas),
      h.vertices_find? (h.graph.target_node _ hhas)⟩

/-- The invariant holds in every state that a run reaches from `init`. -/
theorem inv_of_run {host : ByteMem} {read_trace_ignore data_flow_hash : Bool}
    {es : List (ByteMem × Operation)}
    (hrun : run (opCallback env) (init host read_trace_ignore data_flow_hash) es = some s) :
    Inv s :=
  run_invariant' (fun _ _ _ hs hstep => hs.after_opCallback hstep) (inv_init _ _ _) hrun

/-- After every run from `init` the graph is well formed, and `dump` finds everything that it looks
up and writes every edge once. -/
theorem graph_wellFormed_of_run {host : ByteMem} {read_trace_ignore data_flow_hash : Bool}
    {es : List (ByteMem × Operation)}
    (hrun : run (opCallback env) (init host read_trace_ignore data_flow_hash) es = some s) :
    s.graph.WellFormed ∧ ∃ out, dump s = some out ∧
      (out.map fun d => (d.edge_index, d.edge)).Perm s.graph.edges.toList ∧
      ∀ d ∈ out, (vertices s.graph).find? d.edge_index.source = some d.source ∧
        (vertices s.graph).find? d.edge_index.target = some d.target :=
  ⟨(inv_of_run hrun).graph, (inv_of_run hrun).dump_eq_some⟩

end

/-- An analysis that copies everything between the first and the last byte, and hashes nothing. -/
def plainEnv : Env where
  ratio_below_limit _ _ := false
  sha256 _ := ""

/-- An object of 8 bytes. -/
def smallObject (op_id : ℕ) (ctx_id : ℤ) : Memory :=
  ⟨op_id, ctx_id, 0, ⟨1000 * op_id, 1000 * op_id + 8⟩, 8, 2000 * op_id, 2000 * op_id + 1000⟩

/-- An object is allocated, set, copied to the host, and read and written by a kernel. -/
def someOperations : List (ByteMem × Operation) :=
  let ranges : RangeSet := OrderedMap.set ∅ 7000 7004
  [(fun _ => 0, .memory (smallObject 7 1)),
    (fun _ => 0, .memset ⟨⟨8, 2, 7, 0, 7000, 8⟩, 14000, 0⟩),
    (fun _ => 0, .memcpy ⟨⟨9, 3, 7, 0, 7000, REDSHOW_MEMORY_HOST, 0, 500, 8⟩, 14000, 500⟩),
    (fun _ => 0, .kernel ⟨10, 4, 0, 0⟩
      (some ⟨OrderedMap.set ∅ 7 ranges, OrderedMap.set ∅ 7 ranges⟩))]

theorem wellFormed_someOperations : ∃ s,
    run (opCallback plainEnv) (init (fun _ => 0) false false) someOperations = some s ∧
      s.graph.WellFormed ∧ ∃ out, dump s = some out ∧ out.length = 5 := by
  have hsome : (run (opCallback plainEnv) (init (fun _ => 0) false false) someOperations).any
      (fun s => s.graph.edges.toList.length = 5) = true := by decide +kernel
  obtain ⟨s, hrun, hlength⟩ := (Option.any_eq_true _ _).1 hsome
  obtain ⟨hwf, out, hdump, hperm, -⟩ := graph_wellFormed_of_run hrun
  refine ⟨s, hrun, hwf, out, hdump, ?_⟩
  rw [← of_decide_eq_true hlength, ← hperm.length_eq, List.length_map]

end TenProf.DataFlow
