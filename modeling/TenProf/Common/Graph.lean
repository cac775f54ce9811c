import TenProf.Library.OrderedMap
import Mathlib.Data.List.Nodup

/-!
# `Graph`

The directed graph of `common/graph.h`, with the edges of each node listed by their two ends. The
index of an edge names its ends, `from` and `to` in the source. In a graph that is `WellFormed` the
lists are those of the edges, and the ends of an edge are nodes; `add_node` keeps that, and so does
`add_edge` between nodes.
-/

namespace TenProf

/-- The ends of an edge index. -/
class EdgeEnds (ε : Type*) (ι : outParam Type*) where
  source : ε → ι
  target : ε → ι

/-- `Graph<Index, Node, EdgeIndex, Edge>`. -/
structure Graph (ι ν ε δ : Type*) [LinearOrder ι] [LinearOrder ε] where
  incoming_edges : OrderedMap ι (OrderedSet ε)
  outgoing_edges : OrderedMap ι (OrderedSet ε)
  edges : OrderedMap ε δ
  nodes : OrderedMap ι ν

namespace Graph

variable {ι ν ε δ : Type*} [LinearOrder ι] [LinearOrder ε]

/-- The graph without nodes. -/
def empty : Graph ι ν ε δ := ⟨∅, ∅, ∅, ∅⟩

/-- `has_edge`. -/
def hasEdge (g : Graph ι ν ε δ) (edge_index : ε) : Bool := (g.edges.find? edge_index).isSome

/-- `has_node`. -/
def hasNode (g : Graph ι ν ε δ) (index : ι) : Bool := (g.nodes.find? index).isSome

/-- `add_edge`: a new edge is listed at both of its ends, one that is there stays as it is. -/
def addEdge [EdgeEnds ε ι] (g : Graph ι ν ε δ) (edge_index : ε) (edge : δ) : Graph ι ν ε δ :=
  if g.hasEdge edge_index then
    g
  else
    let source := EdgeEnds.source edge_index
    let target := EdgeEnds.target edge_index
    { g with
      edges := g.edges.set edge_index edge
      incoming_edges :=
        g.incoming_edges.set target ((g.incoming_edges.findD target ∅).insert edge_index)
      outgoing_edges :=
        g.outgoing_edges.set source ((g.outgoing_edges.findD source ∅).insert edge_index) }

/-- `add_node`. -/
def addNode (g : Graph ι ν ε δ) (index : ι) (node : ν) : Graph ι ν ε δ :=
  { g with nodes := g.nodes.emplace index node }

/-- `incoming_edge_size`. -/
def incomingEdgeSize (g : Graph ι ν ε δ) (index : ι) : ℕ :=
  match g.incoming_edges.find? index with
  | none => 0
  | some edges => edges.size

/-- The ends of every edge are nodes, and the edges are listed at their two ends and nowhere
else. -/
structure WellFormed [EdgeEnds ε ι] (g : Graph ι ν ε δ) : Prop where
  source_node : ∀ e, g.hasEdge e → g.hasNode (EdgeEnds.source e)
  target_node : ∀ e, g.hasEdge e → g.hasNode (EdgeEnds.target e)
  incoming : ∀ i e, e ∈ (g.incoming_edges.findD i ∅).elems ↔
    g.hasEdge e ∧ EdgeEnds.target e = i
  outgoing : ∀ i e, e ∈ (g.outgoing_edges.findD i ∅).elems ↔
    g.hasEdge e ∧ EdgeEnds.source e = i

section

variable {g : Graph ι ν ε δ}

@[simp] theorem hasNode_addNode (i j : ι) (node : ν) :
    (g.addNode i node).hasNode j ↔ j = i ∨ g.hasNode j := by
  unfold hasNode addNode
  rw [OrderedMap.find?_emplace]
  split_ifs with h <;> simp [h]

@[simp] theorem hasEdge_addNode (i : ι) (node : ν) (e : ε) :
    (g.addNode i node).hasEdge e = g.hasEdge e := rfl

/-- An assignment to an edge that is there. -/
theorem hasEdge_setEdge {e : ε} {old : δ} (h : g.edges.find? e = some old) (edge : δ) (e' : ε) :
    ({ g with edges := g.edges.set e edge } : Graph ι ν ε δ).hasEdge e' = g.hasEdge e' := by
  unfold hasEdge
  simp only [OrderedMap.find?_set]
  split_ifs with he
  · rw [he, h]
    rfl
  · rfl

variable [EdgeEnds ε ι]

@[simp] theorem nodes_addEdge (e : ε) (edge : δ) : (g.addEdge e edge).nodes = g.nodes := by
  unfold addEdge
  split_ifs <;> rfl

@[simp] theorem hasNode_addEdge (e : ε) (edge : δ) (i : ι) :
    (g.addEdge e edge).hasNode i = g.hasNode i := by
  unfold hasNode
  rw [nodes_addEdge]

@[simp] theorem hasEdge_addEdge (e e' : ε) (edge : δ) :
    (g.addEdge e edge).hasEdge e' ↔ e' = e ∨ g.hasEdge e' := by
  unfold addEdge
  split_ifs with h
  · refine ⟨.inr, ?_⟩
    rintro (rfl | h')
    · exact h
    · exact h'
  · unfold hasEdge
    simp only [OrderedMap.find?_set]
    split_ifs with he <;> simp [he]

/-- The graph without nodes is well formed. -/
theorem wellFormed_empty : (empty : Graph ι ν ε δ).WellFormed where
  source_node e h := absurd h (by simp [empty, hasEdge])
  target_node e h := absurd h (by simp [empty, hasEdge])
  incoming i e := by simp [empty, hasEdge, OrderedMap.findD]
  outgoing i e := by simp [empty, hasEdge, OrderedMap.findD]

/-- The lists of incoming edges, node after node, hold the edges. -/
theorem WellFormed.mem_incoming (h : g.WellFormed) (e : ε) :
    e ∈ (g.nodes.toList.map fun n => (g.incoming_edges.findD n.1 ∅).elems).flatten ↔
      g.hasEdge e := by
  simp only [List.mem_flatten, List.mem_map, exists_exists_and_eq_and, h.incoming]
  constructor
  · rintro ⟨n, -, hhas, -⟩
    exact hhas
  · -- The target of an edge is a node.
    intro hhas
    obtain ⟨n, hn⟩ := Option.isSome_iff_exists.1 (h.target_node e hhas)
    exact ⟨_, (OrderedMap.find?_eq_some_iff _ _ _).1 hn, hhas, rfl⟩

/-- They hold every edge once. -/
theorem WellFormed.nodup_incoming (h : g.WellFormed) :
    (g.nodes.toList.map fun n => (g.incoming_edges.findD n.1 ∅).elems).flatten.Nodup := by
  rw [List.nodup_flatten]
  constructor
  · intro l hl
    obtain ⟨n, -, rfl⟩ := List.mem_map.1 hl
    exact OrderedMap.nodup_keys _
  · -- An edge has one target.
    rw [List.pairwise_map]
    refine (List.pairwise_map.1 g.nodes.nodup_keys).imp fun hne => ?_
    intro e he he'
    rw [h.incoming] at he he'
    exact hne (he.2.symm.trans he'.2)

/-- A new node has no edges. -/
theorem WellFormed.addNode (h : g.WellFormed) (i : ι) (node : ν) :
    (g.addNode i node).WellFormed where
  source_node e he := (hasNode_addNode i _ node).2 (.inr (h.source_node e he))
  target_node e he := (hasNode_addNode i _ node).2 (.inr (h.target_node e he))
  incoming := h.incoming
  outgoing := h.outgoing

/-- An edge between nodes is listed at both. -/
theorem WellFormed.addEdge (h : g.WellFormed) {e : ε} (hsource : g.hasNode (EdgeEnds.source e))
    (htarget : g.hasNode (EdgeEnds.target e)) (edge : δ) : (g.addEdge e edge).WellFormed := by
  -- One of the two lists of a new edge.
  have hlist : ∀ (m : OrderedMap ι (OrderedSet ε)) (stop : ε → ι),
      (∀ i e, e ∈ (m.findD i ∅).elems ↔ g.hasEdge e ∧ stop e = i) → ∀ i e',
        e' ∈ ((m.set (stop e) ((m.findD (stop e) ∅).insert e)).findD i ∅).elems ↔
          (e' = e ∨ g.hasEdge e') ∧ stop e' = i := by
    intro m stop hm i e'
    rw [OrderedMap.findD_set]
    split_ifs with hi
    · rw [OrderedSet.mem_insert, hm, hi, or_and_right]
      exact or_congr_left ⟨fun he => ⟨he, by rw [he]⟩, And.left⟩
    · rw [hm]
      refine and_congr_left fun hend => (or_iff_right ?_).symm
      rintro rfl
      exact hi hend.symm
  refine ⟨fun e' he' => ?_, fun e' he' => ?_, fun i e' => ?_, fun i e' => ?_⟩
  · rw [hasNode_addEdge]
    rcases (hasEdge_addEdge e e' edge).1 he' with rfl | he'
    · exact hsource
    · exact h.source_node e' he'
  · rw [hasNode_addEdge]
    rcases (hasEdge_addEdge e e' edge).1 he' with rfl | he'
    · exact htarget
    · exact h.target_node e' he'
  · rw [hasEdge_addEdge]
    unfold Graph.addEdge
    split_ifs with hhas
    · rw [h.incoming]
      exact and_congr_left' ⟨.inr, fun hor => hor.elim (fun he => he ▸ hhas) id⟩
    · exact hlist _ _ h.incoming i e'
  · rw [hasEdge_addEdge]
    unfold Graph.addEdge
    split_ifs with hhas
    · rw [h.outgoing]
      exact and_congr_left' ⟨.inr, fun hor => hor.elim (fun he => he ▸ hhas) id⟩
    · exact hlist _ _ h.outgoing i e'

/-- An assignment to an edge that is there keeps the graph well formed. -/
theorem WellFormed.setEdge (h : g.WellFormed) {e : ε} {old : δ} (hold : g.edges.find? e = some old)
    (edge : δ) : ({ g with edges := g.edges.set e edge } : Graph ι ν ε δ).WellFormed where
  source_node e' he' := h.source_node e' (hasEdge_setEdge hold edge e' ▸ he')
  target_node e' he' := h.target_node e' (hasEdge_setEdge hold edge e' ▸ he')
  incoming i e' := by
    rw [hasEdge_setEdge hold]
    exact h.incoming i e'
  outgoing i e' := by
    rw [hasEdge_setEdge hold]
    exact h.outgoing i e'

end

end Graph

end TenProf
