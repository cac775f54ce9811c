import Mathlib.Data.Fintype.Order
import Mathlib.Logic.Relation
import Mathlib.Order.WellFoundedSet
import TenProf.Common.Graph
import TenProf.Library.While

/-!
# `DependencyGraph`

The graph of the liveness analysis: nodes, edges, and for each node the indices of the edges that
enter and leave it. The lists of a node are made with it, and a read through `operator[]` makes them
too. `WellFormed` says that the lists are those of the edges and that the ends of every edge are
nodes; under it, the graph is its nodes and its edges (`hasNode`, `hasEdge`).

`peel` is the loop of `dump_topological_order`, which removes the nodes without incoming edges round
by round until the graph is empty. For every acyclic graph it ends with every node in one round
(`peel_spec`); with a node that has an edge to itself it does not end (`peel_diverges`).
-/

namespace TenProf.MemoryLiveness

/-- `NeighborEdgeMap`. -/
abbrev NeighborEdgeMap (ι ε : Type*) [LinearOrder ι] [LinearOrder ε] := OrderedMap ι (OrderedSet ε)

/-- `DependencyGraph<NodeIndex, Node, EdgeIndex, Edge>`. -/
structure DependencyGraph (ι ν ε δ : Type*) [LinearOrder ι] [LinearOrder ε] where
  incoming_edges : NeighborEdgeMap ι ε
  outcoming_edges : NeighborEdgeMap ι ε
  edges : OrderedMap ε δ
  nodes : OrderedMap ι ν

namespace DependencyGraph

variable {ι ν ε δ : Type*} [LinearOrder ι] [LinearOrder ε]

/-- The graph without nodes. -/
def empty : DependencyGraph ι ν ε δ := ⟨∅, ∅, ∅, ∅⟩

/-- `add_node`. -/
def addNode (g : DependencyGraph ι ν ε δ) (node_index : ι) (node : ν) :
    DependencyGraph ι ν ε δ where
  incoming_edges := g.incoming_edges.set node_index ∅
  outcoming_edges := g.outcoming_edges.set node_index ∅
  edges := g.edges
  nodes := g.nodes.emplace node_index node

/-- `add_edge`. -/
def addEdge [EdgeEnds ε ι] (g : DependencyGraph ι ν ε δ) (edge_index : ε) (edge : δ) :
    DependencyGraph ι ν ε δ :=
  let source := EdgeEnds.source edge_index
  let target := EdgeEnds.target edge_index
  { incoming_edges :=
      g.incoming_edges.set target ((g.incoming_edges.findD target ∅).insert edge_index)
    outcoming_edges :=
      g.outcoming_edges.set source ((g.outcoming_edges.findD source ∅).insert edge_index)
    edges := g.edges.emplace edge_index edge
    nodes := g.nodes }

/-- `has_node`. -/
def hasNode (g : DependencyGraph ι ν ε δ) (node_index : ι) : Bool :=
  (g.nodes.find? node_index).isSome

/-- `has_edge`. -/
def hasEdge (g : DependencyGraph ι ν ε δ) (edge_index : ε) : Bool :=
  (g.edges.find? edge_index).isSome

/-- An assignment to the reference that `edge` returns, for an edge that is there. -/
def setEdge (g : DependencyGraph ι ν ε δ) (edge_index : ε) (edge : δ) :
    DependencyGraph ι ν ε δ :=
  { g with edges := g.edges.set edge_index edge }

/-- `remove_edge`. -/
def removeEdge [EdgeEnds ε ι] (g : DependencyGraph ι ν ε δ) (edge_index : ε) :
    DependencyGraph ι ν ε δ :=
  let source := EdgeEnds.source edge_index
  let target := EdgeEnds.target edge_index
  { incoming_edges :=
      g.incoming_edges.set target ((g.incoming_edges.findD target ∅).erase edge_index)
    outcoming_edges :=
      g.outcoming_edges.set source ((g.outcoming_edges.findD source ∅).erase edge_index)
    edges := g.edges.erase edge_index
    nodes := g.nodes }

/-- `remove_node`. -/
def removeNode [EdgeEnds ε ι] (g : DependencyGraph ι ν ε δ) (node_index : ι) :
    DependencyGraph ι ν ε δ :=
  let e_list :=
    (g.incoming_edges.findD node_index ∅).elems ++ (g.outcoming_edges.findD node_index ∅).elems
  let g := e_list.foldl removeEdge g
  { incoming_edges := g.incoming_edges.erase node_index
    outcoming_edges := g.outcoming_edges.erase node_index
    edges := g.edges
    nodes := g.nodes.erase node_index }

/-- `get_no_inedge_nodes`. -/
def getNoInedgeNodes (g : DependencyGraph ι ν ε δ) : List ι :=
  (g.incoming_edges.toList.filter fun i => i.2.toList.isEmpty).map Prod.fst

/-- `is_empty`. -/
def isEmpty (g : DependencyGraph ι ν ε δ) : Bool := g.nodes.toList.isEmpty

/-- The state of the loop of `dump_topological_order`. -/
structure Peel (ι ν ε δ : Type*) [LinearOrder ι] [LinearOrder ε] where
  graph : DependencyGraph ι ν ε δ
  top_index : ℕ
  topological_index : OrderedMap ℕ (List ι)

/-- A turn of the loop: the nodes without incoming edges are removed, and listed under the number of
the round. -/
def peelTurn [EdgeEnds ε ι] (s : Peel ι ν ε δ) : Peel ι ν ε δ ⊕ OrderedMap ℕ (List ι) :=
  if s.graph.isEmpty then
    .inr s.topological_index
  else
    let nodes := s.graph.getNoInedgeNodes
    .inl
      { graph := nodes.foldl removeNode s.graph
        top_index := s.top_index + 1
        topological_index := s.topological_index.emplace s.top_index nodes }

/-- The loop of `dump_topological_order`. -/
def peel [EdgeEnds ε ι] (g : DependencyGraph ι ν ε δ) (fuel : ℕ) :
    Option (OrderedMap ℕ (List ι)) :=
  loop peelTurn fuel ⟨g, 0, ∅⟩

/-- The nodes of all rounds, round after round. -/
def listed (topological_index : OrderedMap ℕ (List ι)) : List ι :=
  topological_index.toList.flatMap Prod.snd

/-! ## The lists of edges of the nodes -/

/-- The map has a list for each node, with the edges of which the node is the given end. -/
structure Lists (m : NeighborEdgeMap ι ε) (stop : ε → ι) (N : ι → Bool) (E : ε → Bool) :
    Prop where
  isSome_eq : ∀ i, (m.find? i).isSome = N i
  mem_iff : ∀ i e, e ∈ (m.findD i ∅).elems ↔ E e ∧ stop e = i

namespace Lists

variable {m : NeighborEdgeMap ι ε} {stop : ε → ι} {N N' : ι → Bool} {E E' : ε → Bool}

/-- A new node gets an empty list. -/
theorem addNode (h : Lists m stop N E) {i : ι} (hnew : ∀ e, E e → stop e ≠ i)
    (hN : ∀ j, N' j ↔ j = i ∨ N j) : Lists (m.set i ∅) stop N' E := by
  constructor
  · intro j
    rw [OrderedMap.find?_set, Bool.eq_iff_iff, hN, ← h.isSome_eq]
    split_ifs with hj <;> simp [hj]
  · intro j e
    rw [OrderedMap.findD_set]
    split_ifs with hj
    · rw [hj]
      exact iff_of_false (by simp) fun he => hnew e he.1 he.2
    · exact h.mem_iff j e

/-- A new edge enters the list of its end. -/
theorem addEdge (h : Lists m stop N E) {e : ε} (hnode : N (stop e))
    (hE : ∀ e', E' e' ↔ e' = e ∨ E e') :
    Lists (m.set (stop e) ((m.findD (stop e) ∅).insert e)) stop N E' := by
  constructor
  · intro j
    rw [OrderedMap.find?_set]
    split_ifs with hj
    · rw [hj, hnode]
      rfl
    · exact h.isSome_eq j
  · intro j e'
    rw [OrderedMap.findD_set, hE]
    split_ifs with hj
    · rw [OrderedSet.mem_insert, h.mem_iff, hj, or_and_right]
      exact or_congr_left ⟨fun he => ⟨he, by rw [he]⟩, And.left⟩
    · rw [h.mem_iff]
      refine and_congr_left fun hend => (or_iff_right ?_).symm
      rintro rfl
      exact hj hend.symm

/-- A removed edge leaves the list of its end. -/
theorem removeEdge (h : Lists m stop N E) {e : ε} (hnode : N (stop e))
    (hE : ∀ e', E' e' ↔ e' ≠ e ∧ E e') :
    Lists (m.set (stop e) ((m.findD (stop e) ∅).erase e)) stop N E' := by
  constructor
  · intro j
    rw [OrderedMap.find?_set]
    split_ifs with hj
    · rw [hj, hnode]
      rfl
    · exact h.isSome_eq j
  · intro j e'
    rw [OrderedMap.findD_set, hE]
    split_ifs with hj
    · rw [OrderedSet.mem_erase, h.mem_iff, hj, and_assoc]
    · rw [h.mem_iff, and_assoc]
      refine (and_iff_right_of_imp ?_).symm
      rintro ⟨-, hend⟩ rfl
      exact hj hend.symm

/-- The list of a node without edges goes with it. -/
theorem removeNode (h : Lists m stop N E) {i : ι} (hnone : ∀ e, E e → stop e ≠ i)
    (hN : ∀ j, N' j ↔ j ≠ i ∧ N j) : Lists (m.erase i) stop N' E := by
  constructor
  · intro j
    rw [OrderedMap.find?_erase, Bool.eq_iff_iff, hN, ← h.isSome_eq]
    split_ifs with hj <;> simp [hj]
  · intro j e
    rw [OrderedMap.findD_erase]
    split_ifs with hj
    · rw [hj]
      exact iff_of_false (by simp) fun he => hnone e he.1 he.2
    · exact h.mem_iff j e

/-- Lists of the same edges. -/
theorem congr (h : Lists m stop N E) (hE : ∀ e, E' e = E e) : Lists m stop N E' := by
  constructor
  · exact h.isSome_eq
  · intro i e
    rw [hE]
    exact h.mem_iff i e

end Lists

/-! ## Nodes and edges after an operation -/

variable {g : DependencyGraph ι ν ε δ}

@[simp] theorem hasNode_empty (i : ι) : (empty : DependencyGraph ι ν ε δ).hasNode i = false := rfl

@[simp] theorem hasEdge_empty (e : ε) : (empty : DependencyGraph ι ν ε δ).hasEdge e = false := rfl

@[simp] theorem hasEdge_addNode (i : ι) (node : ν) (e : ε) :
    (g.addNode i node).hasEdge e = g.hasEdge e := rfl

@[simp] theorem hasNode_addNode (i j : ι) (node : ν) :
    (g.addNode i node).hasNode j ↔ j = i ∨ g.hasNode j := by
  unfold hasNode addNode
  rw [OrderedMap.find?_emplace]
  split_ifs with h <;> simp [h]

@[simp] theorem hasNode_setEdge (e : ε) (edge : δ) (i : ι) :
    (g.setEdge e edge).hasNode i = g.hasNode i := rfl

/-- An assignment to an edge that is there makes no edge. -/
theorem hasEdge_setEdge {e : ε} (h : g.hasEdge e) (edge : δ) (e' : ε) :
    (g.setEdge e edge).hasEdge e' = g.hasEdge e' := by
  unfold hasEdge setEdge
  rw [OrderedMap.find?_set]
  split_ifs with he
  · rw [he]
    exact h.symm
  · rfl

/-- `get_no_inedge_nodes` lists no node twice. -/
theorem nodup_getNoInedgeNodes : g.getNoInedgeNodes.Nodup :=
  g.incoming_edges.nodup_keys.sublist (List.filter_sublist.map _)

/-- A graph without nodes is empty. -/
theorem isEmpty_iff : g.isEmpty ↔ ∀ i, g.hasNode i = false := by
  unfold isEmpty hasNode
  simp only [List.isEmpty_iff, Option.isSome_eq_false_iff, Option.isNone_iff_eq_none,
    OrderedMap.find?_eq_none_iff]
  constructor
  · intro h i e he
    simp [h] at he
  · intro h
    exact List.eq_nil_iff_forall_not_mem.2 fun e he => h e.1 e he rfl

variable [EdgeEnds ε ι]

/-- The lists of edges of the nodes are those of the graph's edges, and the edges join nodes. -/
structure WellFormed (g : DependencyGraph ι ν ε δ) : Prop where
  incoming : Lists g.incoming_edges EdgeEnds.target g.hasNode g.hasEdge
  outcoming : Lists g.outcoming_edges EdgeEnds.source g.hasNode g.hasEdge
  source_node : ∀ e, g.hasEdge e → g.hasNode (EdgeEnds.source e)
  target_node : ∀ e, g.hasEdge e → g.hasNode (EdgeEnds.target e)

@[simp] theorem hasNode_addEdge (e : ε) (edge : δ) (i : ι) :
    (g.addEdge e edge).hasNode i = g.hasNode i := rfl

@[simp] theorem hasEdge_addEdge (e e' : ε) (edge : δ) :
    (g.addEdge e edge).hasEdge e' ↔ e' = e ∨ g.hasEdge e' := by
  unfold hasEdge addEdge
  simp only
  rw [OrderedMap.find?_emplace]
  split_ifs with h <;> simp [h]

@[simp] theorem hasNode_removeEdge (e : ε) (i : ι) :
    (g.removeEdge e).hasNode i = g.hasNode i := rfl

@[simp] theorem hasEdge_removeEdge (e e' : ε) :
    (g.removeEdge e).hasEdge e' ↔ e' ≠ e ∧ g.hasEdge e' := by
  unfold hasEdge removeEdge
  simp only
  rw [OrderedMap.find?_erase]
  split_ifs with h <;> simp [h]

/-- The graph without nodes is well formed. -/
theorem wellFormed_empty : (empty : DependencyGraph ι ν ε δ).WellFormed where
  incoming := ⟨fun _ => rfl, fun i e => iff_of_false (by simp [empty, OrderedMap.findD]) (by simp)⟩
  outcoming := ⟨fun _ => rfl, fun i e => iff_of_false (by simp [empty, OrderedMap.findD]) (by simp)⟩
  source_node e h := absurd h (by simp)
  target_node e h := absurd h (by simp)

/-- A new node has no edges. -/
theorem WellFormed.addNode (hg : g.WellFormed) {i : ι} (hnew : g.hasNode i = false) (node : ν) :
    (g.addNode i node).WellFormed := by
  constructor
  · apply hg.incoming.addNode
    · rintro e he rfl
      exact absurd (hg.target_node e he) (by simp [hnew])
    · exact fun j => hasNode_addNode i j node
  · apply hg.outcoming.addNode
    · rintro e he rfl
      exact absurd (hg.source_node e he) (by simp [hnew])
    · exact fun j => hasNode_addNode i j node
  · exact fun e he => (hasNode_addNode i _ node).2 (.inr (hg.source_node e he))
  · exact fun e he => (hasNode_addNode i _ node).2 (.inr (hg.target_node e he))

/-- An edge between nodes is listed at its ends. -/
theorem WellFormed.addEdge (hg : g.WellFormed) {e : ε} (hsource : g.hasNode (EdgeEnds.source e))
    (htarget : g.hasNode (EdgeEnds.target e)) (edge : δ) : (g.addEdge e edge).WellFormed := by
  constructor
  · exact hg.incoming.addEdge htarget fun e' => hasEdge_addEdge e e' edge
  · exact hg.outcoming.addEdge hsource fun e' => hasEdge_addEdge e e' edge
  · intro e' he'
    rcases (hasEdge_addEdge e e' edge).1 he' with rfl | he'
    · exact hsource
    · exact hg.source_node e' he'
  · intro e' he'
    rcases (hasEdge_addEdge e e' edge).1 he' with rfl | he'
    · exact htarget
    · exact hg.target_node e' he'

/-- An assignment to an edge that is there leaves the graph well formed. -/
theorem WellFormed.setEdge (hg : g.WellFormed) {e : ε} (h : g.hasEdge e) (edge : δ) :
    (g.setEdge e edge).WellFormed := by
  have hedge := hasEdge_setEdge h edge
  constructor
  · exact hg.incoming.congr hedge
  · exact hg.outcoming.congr hedge
  · intro e' he'
    rw [hedge] at he'
    exact hg.source_node e' he'
  · intro e' he'
    rw [hedge] at he'
    exact hg.target_node e' he'

/-- An edge between nodes leaves the lists of its ends. -/
theorem WellFormed.removeEdge (hg : g.WellFormed) {e : ε}
    (hsource : g.hasNode (EdgeEnds.source e)) (htarget : g.hasNode (EdgeEnds.target e)) :
    (g.removeEdge e).WellFormed := by
  constructor
  · exact hg.incoming.removeEdge htarget fun e' => hasEdge_removeEdge e e'
  · exact hg.outcoming.removeEdge hsource fun e' => hasEdge_removeEdge e e'
  · exact fun e' he' => hg.source_node e' ((hasEdge_removeEdge e e').1 he').2
  · exact fun e' he' => hg.target_node e' ((hasEdge_removeEdge e e').1 he').2

/-- The edges and the nodes after edges of the graph are removed one by one. -/
theorem WellFormed.foldl_removeEdge (hg : g.WellFormed) {es : List ε}
    (hends : ∀ e ∈ es, g.hasNode (EdgeEnds.source e) ∧ g.hasNode (EdgeEnds.target e)) :
    (es.foldl DependencyGraph.removeEdge g).WellFormed ∧
      (es.foldl DependencyGraph.removeEdge g).nodes = g.nodes ∧
        ∀ e, (es.foldl DependencyGraph.removeEdge g).hasEdge e ↔ e ∉ es ∧ g.hasEdge e := by
  induction es generalizing g with
  | nil => exact ⟨hg, rfl, by simp⟩
  | cons e es ih =>
    obtain ⟨he, hes⟩ := List.forall_mem_cons.1 hends
    obtain ⟨hwf, hnodes, hedges⟩ := ih (hg.removeEdge he.1 he.2) hes
    refine ⟨hwf, hnodes, fun e' => ?_⟩
    rw [List.foldl_cons, hedges, hasEdge_removeEdge, List.mem_cons, not_or]
    tauto

/-- What `remove_node` leaves: the other nodes and the edges between them. -/
theorem WellFormed.removeNode (hg : g.WellFormed) {i : ι} :
    (g.removeNode i).WellFormed ∧ (g.removeNode i).nodes = g.nodes.erase i ∧
      ∀ e, (g.removeNode i).hasEdge e ↔
        g.hasEdge e ∧ EdgeEnds.source e ≠ i ∧ EdgeEnds.target e ≠ i := by
  unfold DependencyGraph.removeNode
  dsimp only
  generalize hes : (g.incoming_edges.findD i ∅).elems ++ (g.outcoming_edges.findD i ∅).elems = es
  have hmem : ∀ e, e ∈ es ↔ g.hasEdge e ∧ (EdgeEnds.target e = i ∨ EdgeEnds.source e = i) := by
    intro e
    rw [← hes, List.mem_append, hg.incoming.mem_iff, hg.outcoming.mem_iff, and_or_left]
  -- All edges in the list have their ends in the graph.
  obtain ⟨hwf, hnodes, hedges⟩ := hg.foldl_removeEdge (fun e (he : e ∈ es) =>
    ⟨hg.source_node e ((hmem e).1 he).1, hg.target_node e ((hmem e).1 he).1⟩)
  generalize es.foldl DependencyGraph.removeEdge g = g' at hwf hnodes hedges ⊢
  have hleft : ∀ e, g'.hasEdge e ↔
      g.hasEdge e ∧ EdgeEnds.source e ≠ i ∧ EdgeEnds.target e ≠ i := by
    intro e
    rw [hedges, hmem]
    tauto
  have hnode : ∀ j, ((g'.nodes.erase i).find? j).isSome ↔ j ≠ i ∧ g'.hasNode j := by
    intro j
    rw [OrderedMap.find?_erase]
    split_ifs with h <;> simp [h, hasNode]
  refine ⟨⟨?_, ?_, ?_, ?_⟩, by rw [hnodes], hleft⟩
  · exact hwf.incoming.removeNode (fun e he => ((hleft e).1 he).2.2) hnode
  · exact hwf.outcoming.removeNode (fun e he => ((hleft e).1 he).2.1) hnode
  · exact fun e he => (hnode _).2 ⟨((hleft e).1 he).2.1, hwf.source_node e he⟩
  · exact fun e he => (hnode _).2 ⟨((hleft e).1 he).2.2, hwf.target_node e he⟩

/-- What is left after nodes are removed one by one: the other nodes, and the edges between them. -/
structure Removed (g : DependencyGraph ι ν ε δ) (ns : List ι) (g' : DependencyGraph ι ν ε δ) :
    Prop where
  wellFormed : g'.WellFormed
  hasNode_iff : ∀ i, g'.hasNode i ↔ i ∉ ns ∧ g.hasNode i
  hasEdge_iff : ∀ e, g'.hasEdge e ↔
    g.hasEdge e ∧ EdgeEnds.source e ∉ ns ∧ EdgeEnds.target e ∉ ns
  size_le : g'.nodes.size ≤ g.nodes.size

/-- Nodes are removed one by one. -/
theorem WellFormed.foldl_removeNode (hg : g.WellFormed) (ns : List ι) :
    Removed g ns (ns.foldl DependencyGraph.removeNode g) := by
  induction ns generalizing g with
  | nil => exact ⟨hg, by simp, by simp, le_rfl⟩
  | cons i ns ih =>
    obtain ⟨hwf, hnodes, hedges⟩ := hg.removeNode (i := i)
    have hnode : ∀ j, (g.removeNode i).hasNode j ↔ j ≠ i ∧ g.hasNode j := by
      intro j
      unfold hasNode
      rw [hnodes, OrderedMap.find?_erase]
      split_ifs with h <;> simp [h]
    have hrest := ih hwf
    constructor
    · exact hrest.wellFormed
    · intro j
      rw [List.foldl_cons, hrest.hasNode_iff, hnode, List.mem_cons, not_or]
      tauto
    · intro e
      rw [List.foldl_cons, hrest.hasEdge_iff, hedges, List.mem_cons, List.mem_cons, not_or, not_or]
      tauto
    · refine hrest.size_le.trans ?_
      rw [hnodes]
      exact g.nodes.size_erase_le i

/-- `get_no_inedge_nodes` finds the nodes that no edge enters. -/
theorem WellFormed.mem_getNoInedgeNodes (hg : g.WellFormed) (i : ι) :
    i ∈ g.getNoInedgeNodes ↔ g.hasNode i ∧ ∀ e, g.hasEdge e → EdgeEnds.target e ≠ i := by
  have hlist : (∀ e, g.hasEdge e → EdgeEnds.target e ≠ i) ↔
      ∀ e, e ∉ (g.incoming_edges.findD i ∅).elems := by
    simp only [hg.incoming.mem_iff, not_and, ne_eq]
  rw [hlist, ← hg.incoming.isSome_eq, ← List.eq_nil_iff_forall_not_mem, Option.isSome_iff_exists]
  unfold getNoInedgeNodes OrderedMap.findD OrderedSet.elems
  simp only [List.mem_map, List.mem_filter, List.isEmpty_iff, Prod.exists, exists_and_right,
    exists_eq_right, ← OrderedMap.find?_eq_some_iff, List.map_eq_nil_iff]
  constructor
  · rintro ⟨s, hs, hnil⟩
    exact ⟨⟨s, hs⟩, by rw [hs]; exact hnil⟩
  · rintro ⟨⟨s, hs⟩, hnil⟩
    rw [hs] at hnil
    exact ⟨s, hs, hnil⟩

/-! ## The rounds of `peel` -/

/-- Two nodes are joined by an edge, from the first to the second. -/
def Adj (g : DependencyGraph ι ν ε δ) (x y : ι) : Prop :=
  ∃ e, g.hasEdge e ∧ EdgeEnds.source e = x ∧ EdgeEnds.target e = y

/-- No path of edges leads from a node back to it. -/
def Acyclic (g : DependencyGraph ι ν ε δ) : Prop := ∀ x, ¬Relation.TransGen g.Adj x x

/-- The rounds hold every node once, and each edge leads from an earlier round to a later one. -/
structure Topological (g : DependencyGraph ι ν ε δ) (topological_index : OrderedMap ℕ (List ι)) :
    Prop where
  nodup : (listed topological_index).Nodup
  mem_iff : ∀ i, i ∈ listed topological_index ↔ g.hasNode i
  earlier : ∀ e, g.hasEdge e → ∀ r ∈ topological_index.toList, EdgeEnds.target e ∈ r.2 →
    ∃ r' ∈ topological_index.toList, r'.1 < r.1 ∧ EdgeEnds.source e ∈ r'.2

/-- A graph whose edges increase a rank has no cycle. -/
theorem acyclic_of_lt (hlt : ∀ e, g.hasEdge e → EdgeEnds.source e < EdgeEnds.target e) :
    g.Acyclic := by
  have hpath : ∀ x y, Relation.TransGen g.Adj x y → x < y := by
    intro x y h
    induction h with
    | single h =>
      obtain ⟨e, he, rfl, rfl⟩ := h
      exact hlt e he
    | tail _ h ih =>
      obtain ⟨e, he, rfl, rfl⟩ := h
      exact ih.trans (hlt e he)
  exact fun x h => lt_irrefl x (hpath x x h)

/-- An acyclic graph with a node has one that no edge enters. -/
theorem WellFormed.exists_noInedge (hg : g.WellFormed) (hacyc : g.Acyclic) {i : ι}
    (hi : g.hasNode i) : ∃ j, j ∈ g.getNoInedgeNodes := by
  -- Reachability orders the finitely many nodes strictly, so that there is a minimal one.
  have : IsStrictOrder ι (Relation.TransGen g.Adj) :=
    { irrefl := hacyc, trans := fun _ _ _ => Relation.TransGen.trans }
  have hfin : {j | g.hasNode j}.Finite := by
    refine (g.nodes.toList.map Prod.fst).finite_toSet.subset fun j hj => ?_
    obtain ⟨v, hv⟩ := Option.isSome_iff_exists.1 hj
    exact List.mem_map.2 ⟨(j, v), (g.nodes.find?_eq_some_iff j v).1 hv, rfl⟩
  have hwf : {j | g.hasNode j}.WellFoundedOn (Relation.TransGen g.Adj) := hfin.wellFoundedOn
  obtain ⟨⟨j, hj⟩, -, hmin⟩ := hwf.has_min Set.univ ⟨⟨i, hi⟩, trivial⟩
  refine ⟨j, (hg.mem_getNoInedgeNodes j).2 ⟨hj, fun e he htarget => ?_⟩⟩
  exact hmin ⟨EdgeEnds.source e, hg.source_node e he⟩ trivial (.single ⟨e, he, rfl, htarget⟩)

/-- The loop of `dump_topological_order` has come so far: the graph has the nodes that are not
listed and the edges that leave them. -/
structure Peeled (g : DependencyGraph ι ν ε δ) (s : Peel ι ν ε δ) : Prop where
  wellFormed : s.graph.WellFormed
  hasEdge_iff : ∀ e, s.graph.hasEdge e ↔
    g.hasEdge e ∧ EdgeEnds.source e ∉ listed s.topological_index
  hasNode_iff : ∀ i, s.graph.hasNode i ↔ g.hasNode i ∧ i ∉ listed s.topological_index
  key_lt : ∀ r ∈ s.topological_index.toList, r.1 < s.top_index
  listed_node : ∀ i ∈ listed s.topological_index, g.hasNode i
  nodup : (listed s.topological_index).Nodup
  earlier : ∀ e, g.hasEdge e → ∀ r ∈ s.topological_index.toList, EdgeEnds.target e ∈ r.2 →
    ∃ r' ∈ s.topological_index.toList, r'.1 < r.1 ∧ EdgeEnds.source e ∈ r'.2

/-- Nothing is listed before the first round. -/
theorem peeled_start (hg : g.WellFormed) : Peeled g ⟨g, 0, ∅⟩ where
  wellFormed := hg
  hasEdge_iff e := by simp [listed]
  hasNode_iff i := by simp [listed]
  key_lt r hr := absurd hr (by simp)
  listed_node i hi := absurd hi (by simp [listed])
  nodup := List.nodup_nil
  earlier e _ r hr := absurd hr (by simp)

/-- A round lists the nodes without incoming edges. -/
theorem Peeled.round {s : Peel ι ν ε δ} (h : Peeled g s) :
    Peeled g
      { graph := s.graph.getNoInedgeNodes.foldl DependencyGraph.removeNode s.graph
        top_index := s.top_index + 1
        topological_index :=
          s.topological_index.emplace s.top_index s.graph.getNoInedgeNodes } := by
  have hremoved := h.wellFormed.foldl_removeNode s.graph.getNoInedgeNodes
  have hround := h.wellFormed.mem_getNoInedgeNodes
  have hlist : (s.topological_index.emplace s.top_index s.graph.getNoInedgeNodes).toList =
      s.topological_index.toList ++ [(s.top_index, s.graph.getNoInedgeNodes)] :=
    OrderedMap.toList_emplace_of_gt _ h.key_lt _
  have hlisted : listed (s.topological_index.emplace s.top_index s.graph.getNoInedgeNodes) =
      listed s.topological_index ++ s.graph.getNoInedgeNodes := by
    unfold listed
    rw [hlist, List.flatMap_append]
    simp
  constructor
  · exact hremoved.wellFormed
  · intro e
    rw [hremoved.hasEdge_iff, hlisted, List.mem_append, not_or, h.hasEdge_iff, and_assoc]
    refine and_congr_right fun he => and_congr_right fun hsource => ⟨And.left, fun hleft => ?_⟩
    -- An edge that is left enters its target, so that the target is not in the round.
    refine ⟨hleft, fun htarget => ?_⟩
    exact ((hround _).1 htarget).2 e ((h.hasEdge_iff e).2 ⟨he, hsource⟩) rfl
  · intro i
    rw [hremoved.hasNode_iff, hlisted, List.mem_append, not_or, h.hasNode_iff]
    tauto
  · rw [hlist, List.forall_mem_append, List.forall_mem_singleton]
    exact ⟨fun r hr => Nat.lt_succ_of_lt (h.key_lt r hr), Nat.lt_succ_self _⟩
  · rw [hlisted, List.forall_mem_append]
    exact ⟨h.listed_node, fun i hi => ((h.hasNode_iff i).1 ((hround i).1 hi).1).1⟩
  · rw [hlisted, List.nodup_append']
    refine ⟨h.nodup, nodup_getNoInedgeNodes, fun i hi hi' => ?_⟩
    exact ((h.hasNode_iff i).1 ((hround i).1 hi').1).2 hi
  · intro e he r hr htarget
    rw [hlist] at hr ⊢
    rcases List.mem_append.1 hr with hr | hr
    · obtain ⟨r', hr', hsource⟩ := h.earlier e he r hr htarget
      exact ⟨r', List.mem_append_left _ hr', hsource⟩
    · -- No edge enters a node of this round any more: the source is listed.
      rw [List.mem_singleton.1 hr] at htarget ⊢
      have hgone : EdgeEnds.source e ∈ listed s.topological_index := by
        by_contra hnot
        exact ((hround _).1 htarget).2 e ((h.hasEdge_iff e).2 ⟨he, hnot⟩) rfl
      obtain ⟨r', hr', hsource⟩ := List.mem_flatMap.1 hgone
      exact ⟨r', List.mem_append_left _ hr', h.key_lt r' hr', hsource⟩

/-- A turn of the loop is a round, while there are nodes. -/
theorem peelTurn_eq (s : Peel ι ν ε δ) :
    peelTurn s = if s.graph.isEmpty then .inr s.topological_index else
      .inl
        { graph := s.graph.getNoInedgeNodes.foldl DependencyGraph.removeNode s.graph
          top_index := s.top_index + 1
          topological_index :=
            s.topological_index.emplace s.top_index s.graph.getNoInedgeNodes } := rfl

/-- A round makes an acyclic graph smaller. -/
theorem Peeled.size_lt {s : Peel ι ν ε δ} (h : Peeled g s) (hacyc : g.Acyclic)
    (hne : ¬s.graph.isEmpty) :
    (s.graph.getNoInedgeNodes.foldl DependencyGraph.removeNode s.graph).nodes.size <
      s.graph.nodes.size := by
  have hsub : ∀ x y, s.graph.Adj x y → g.Adj x y := by
    rintro x y ⟨e, he, hends⟩
    exact ⟨e, ((h.hasEdge_iff e).1 he).1, hends⟩
  have hacyc' : s.graph.Acyclic := fun x hx => hacyc x (hx.lift id hsub)
  obtain ⟨i, hi⟩ : ∃ i, s.graph.hasNode i := by
    by_contra hnone
    exact hne (isEmpty_iff.2 fun i => Bool.eq_false_iff.2 fun hi => hnone ⟨i, hi⟩)
  obtain ⟨j, hj⟩ := h.wellFormed.exists_noInedge hacyc' hi
  cases hround : s.graph.getNoInedgeNodes with
  | nil => simp [hround] at hj
  | cons k ks =>
    have hk : s.graph.hasNode k := by
      refine ((h.wellFormed.mem_getNoInedgeNodes k).1 ?_).1
      rw [hround]
      exact List.mem_cons_self
    obtain ⟨hwf, hnodes, -⟩ := h.wellFormed.removeNode (i := k)
    calc (ks.foldl DependencyGraph.removeNode (s.graph.removeNode k)).nodes.size
        ≤ (s.graph.removeNode k).nodes.size := (hwf.foldl_removeNode ks).size_le
      _ = (s.graph.nodes.erase k).size := by rw [hnodes]
      _ < s.graph.nodes.size := s.graph.nodes.size_erase_lt hk

/-- For an acyclic graph the loop ends, with every node in one round behind those before it. -/
theorem peel_spec (hg : g.WellFormed) (hacyc : g.Acyclic) {fuel : ℕ}
    (hfuel : g.nodes.size < fuel) :
    ∃ topological_index, peel g fuel = some topological_index ∧
      g.Topological topological_index := by
  apply loop_total (I := Peeled g) (fun s => s.graph.nodes.size) ?_ ?_ (peeled_start hg) hfuel
  · intro s s' hs hturn
    rw [peelTurn_eq] at hturn
    split_ifs at hturn with hempty
    rw [← Sum.inl.inj hturn]
    exact ⟨hs.round, hs.size_lt hacyc hempty⟩
  · intro s b hs hturn
    rw [peelTurn_eq] at hturn
    split_ifs at hturn with hempty
    rw [← Sum.inr.inj hturn]
    refine ⟨hs.nodup, fun i => ⟨hs.listed_node i, fun hi => ?_⟩, hs.earlier⟩
    -- The graph is empty at the end, so the node has been listed.
    by_contra hnot
    have hleft := (hs.hasNode_iff i).2 ⟨hi, hnot⟩
    rw [isEmpty_iff.1 hempty i] at hleft
    exact Bool.false_ne_true hleft

/-- With a node that has an edge to itself, the loop does not end. -/
theorem peel_diverges (hg : g.WellFormed) {e : ε} (he : g.hasEdge e)
    (hself : EdgeEnds.source e = EdgeEnds.target e) (fuel : ℕ) : peel g fuel = none := by
  apply loop_diverges (I := fun s => s.graph.WellFormed ∧ s.graph.hasEdge e) ?_ ⟨hg, he⟩
  rintro s ⟨hwf, hedge⟩
  have hne : ¬s.graph.isEmpty := by
    intro hempty
    have hnode := hwf.source_node e hedge
    rw [isEmpty_iff.1 hempty] at hnode
    exact Bool.false_ne_true hnode
  rw [peelTurn_eq, if_neg hne]
  refine ⟨_, rfl, (hwf.foldl_removeNode _).wellFormed, ?_⟩
  -- The edge enters its source, so that neither of its ends is removed.
  have hkept : EdgeEnds.target e ∉ s.graph.getNoInedgeNodes := fun hmem =>
    ((hwf.mem_getNoInedgeNodes _).1 hmem).2 e hedge rfl
  exact ((hwf.foldl_removeNode _).hasEdge_iff e).2 ⟨hedge, by rwa [hself], hkept⟩

end DependencyGraph

end TenProf.MemoryLiveness
