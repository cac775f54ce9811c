import TenProf.MemoryLiveness.DependencyGraph
import TenProf.MemoryLiveness.State

/-!
# The topological order of a graph that is built call by call

A graph is built by `add_node`, once for each node, and by `add_edge` between nodes that were added.
`Built` says which nodes and edges it then has; there may be several edges of different types
between two nodes. When no cycle is built, `dump_topological_order` returns every node exactly once,
and the start of every edge in an earlier round than its end (`Built.peel_rounds`).
-/

namespace TenProf.MemoryLiveness

namespace DependencyGraph

variable {ι ν ε δ : Type*} [LinearOrder ι] [LinearOrder ε] [EdgeEnds ε ι]

/-- The graph that is built by adding some nodes and edges, the last one first in each list. -/
inductive Built : DependencyGraph ι ν ε δ → List ι → List ε → Prop
  | empty : Built empty [] []
  | add_node {g is es} (h : Built g is es) {i : ι} (hnew : i ∉ is) (node : ν) :
      Built (g.addNode i node) (i :: is) es
  | add_edge {g is es} (h : Built g is es) {e : ε} (hsource : EdgeEnds.source e ∈ is)
      (htarget : EdgeEnds.target e ∈ is) (edge : δ) : Built (g.addEdge e edge) is (e :: es)

variable {g : DependencyGraph ι ν ε δ} {is : List ι} {es : List ε}

/-- What a graph that was built consists of. -/
structure Consists (g : DependencyGraph ι ν ε δ) (is : List ι) (es : List ε) : Prop where
  wellFormed : g.WellFormed
  nodup : is.Nodup
  hasNode_iff : ∀ i, g.hasNode i ↔ i ∈ is
  hasEdge_iff : ∀ e, g.hasEdge e ↔ e ∈ es

/-- A graph consists of what was added to it. -/
theorem Built.consists (h : Built g is es) : Consists g is es := by
  induction h with
  | empty => exact ⟨wellFormed_empty, List.nodup_nil, by simp, by simp⟩
  | add_node _ hnew node ih =>
    refine ⟨ih.wellFormed.addNode ?_ node, List.nodup_cons.2 ⟨hnew, ih.nodup⟩, fun i => ?_,
      ih.hasEdge_iff⟩
    · exact Bool.eq_false_iff.2 fun hnode => hnew ((ih.hasNode_iff _).1 hnode)
    · rw [hasNode_addNode, ih.hasNode_iff, List.mem_cons]
  | add_edge _ hsource htarget edge ih =>
    have hsource := (ih.hasNode_iff _).2 hsource
    have htarget := (ih.hasNode_iff _).2 htarget
    refine ⟨ih.wellFormed.addEdge hsource htarget edge, ih.nodup, ih.hasNode_iff, fun e => ?_⟩
    rw [hasEdge_addEdge, ih.hasEdge_iff, List.mem_cons]

/-- For an acyclic graph that was built so, the loop ends with every node that was added exactly
once, and the start of each edge in an earlier round than its end. -/
theorem Built.peel_rounds (h : Built g is es) (hacyc : g.Acyclic) {fuel : ℕ}
    (hfuel : g.nodes.size < fuel) :
    ∃ rounds, DependencyGraph.peel g fuel = some rounds ∧ (listed rounds).Perm is ∧
      ∀ e ∈ es, ∃ r ∈ rounds.toList, ∃ r' ∈ rounds.toList,
        EdgeEnds.source e ∈ r.2 ∧ EdgeEnds.target e ∈ r'.2 ∧ r.1 < r'.1 := by
  have hg := h.consists
  obtain ⟨rounds, hpeel, htop⟩ := peel_spec hg.wellFormed hacyc hfuel
  refine ⟨rounds, hpeel, ?_, fun e he => ?_⟩
  · rw [List.perm_ext_iff_of_nodup htop.nodup hg.nodup]
    exact fun i => (htop.mem_iff i).trans (hg.hasNode_iff i)
  · have hedge := (hg.hasEdge_iff e).2 he
    obtain ⟨r', hr', htarget⟩ := List.mem_flatMap.1
      ((htop.mem_iff _).2 (hg.wellFormed.target_node e hedge))
    obtain ⟨r, hr, hlt, hsource⟩ := htop.earlier e hedge r' hr' htarget
    exact ⟨r, hr, r', hr', hsource, htarget, hlt⟩

/-- Two nodes, joined by an edge of each type. -/
def twoEdges : DependencyGraph ℕ Node EdgeIndex Edge :=
  (((empty.addNode 7 (Node.ofType 7 .REDSHOW_MEMORY_ALLOC)).addNode 8
    (Node.ofType 8 .REDSHOW_MEMORY_SET)).addEdge ⟨7, 8, .STREAM_DEPENDENCY⟩ Edge.empty).addEdge
      ⟨7, 8, .DATA_DEPENDENCY⟩ (Edge.ofAccess 7 .WRITE)

theorem peel_twoEdges : ∃ rounds, DependencyGraph.peel twoEdges 3 = some rounds ∧
    (listed rounds).Perm [8, 7] ∧
    ∀ e ∈ [(⟨7, 8, .DATA_DEPENDENCY⟩ : EdgeIndex), ⟨7, 8, .STREAM_DEPENDENCY⟩],
      ∃ r ∈ rounds.toList, ∃ r' ∈ rounds.toList,
        EdgeEnds.source e ∈ r.2 ∧ EdgeEnds.target e ∈ r'.2 ∧ r.1 < r'.1 := by
  have hbuilt : Built twoEdges [8, 7]
      [⟨7, 8, .DATA_DEPENDENCY⟩, ⟨7, 8, .STREAM_DEPENDENCY⟩] :=
    .add_edge (.add_edge (.add_node (.add_node .empty (by decide) _) (by decide) _) (by decide)
      (by decide) _) (by decide) (by decide) _
  have hacyc : twoEdges.Acyclic := acyclic_of_lt fun e he => by
    rcases List.mem_cons.1 ((hbuilt.consists.hasEdge_iff e).1 he) with rfl | he
    · exact (by decide : 7 < 8)
    · rw [List.mem_singleton.1 he]
      exact (by decide : 7 < 8)
  exact hbuilt.peel_rounds hacyc (by decide)

end DependencyGraph

end TenProf.MemoryLiveness
