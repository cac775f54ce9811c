import TenProf.Library.Levels
import TenProf.MemoryLiveness.DependencyGraph

/-!
# The rounds of the topological order

`dump_topological_order` lists every node in the earliest round that its predecessors allow: the
number of the round is the number of edges of the longest path that leads to the node
(`peel_levels`). The reason is that a node that is listed now, and was not listed a round ago, has
a predecessor that was listed a round ago.
-/

namespace TenProf.MemoryLiveness.DependencyGraph

variable {ι ν ε δ : Type*} [LinearOrder ι] [LinearOrder ε] [EdgeEnds ε ι]
  {g : DependencyGraph ι ν ε δ} {s : Peel ι ν ε δ} {i : ι} {k : ℕ}

/-- The node is listed in the round. -/
def InRound (topological_index : OrderedMap ℕ (List ι)) (k : ℕ) (i : ι) : Prop :=
  ∃ r ∈ topological_index.toList, r.1 = k ∧ i ∈ r.2

/-- Every node that is listed, or will be in the next round, follows one of the round before. -/
structure Tight (g : DependencyGraph ι ν ε δ) (s : Peel ι ν ε δ) : Prop where
  follows : ∀ i k, InRound s.topological_index (k + 1) i →
    ∃ j, g.Adj j i ∧ InRound s.topological_index k j
  next : ∀ i k, s.top_index = k + 1 → i ∈ s.graph.getNoInedgeNodes →
    ∃ j, g.Adj j i ∧ InRound s.topological_index k j

/-- Before the first round. -/
theorem tight_start : Tight g ⟨g, 0, ∅⟩ where
  follows i k h := by
    obtain ⟨r, hr, -⟩ := h
    exact absurd hr (by simp)
  next i k h := absurd h (Nat.succ_ne_zero k).symm

/-- What is listed after one more round. -/
theorem Peeled.inRound_iff (h : Peeled g s) :
    InRound (s.topological_index.emplace s.top_index s.graph.getNoInedgeNodes) k i ↔
      InRound s.topological_index k i ∨ k = s.top_index ∧ i ∈ s.graph.getNoInedgeNodes := by
  unfold InRound
  rw [OrderedMap.toList_emplace_of_gt _ h.key_lt _]
  simp only [List.mem_append, List.mem_singleton, or_and_right, exists_or, exists_eq_left,
    eq_comm (a := s.top_index)]

/-- One more round. -/
theorem Tight.round (ht : Tight g s) (h : Peeled g s) :
    Tight g
      { graph := s.graph.getNoInedgeNodes.foldl DependencyGraph.removeNode s.graph
        top_index := s.top_index + 1
        topological_index :=
          s.topological_index.emplace s.top_index s.graph.getNoInedgeNodes } := by
  have hremoved := h.wellFormed.foldl_removeNode s.graph.getNoInedgeNodes
  constructor
  · intro i k hi
    rcases h.inRound_iff.1 hi with hi | ⟨hk, hi⟩
    · obtain ⟨j, hadj, hj⟩ := ht.follows i k hi
      exact ⟨j, hadj, h.inRound_iff.2 (.inl hj)⟩
    · obtain ⟨j, hadj, hj⟩ := ht.next i k hk.symm hi
      exact ⟨j, hadj, h.inRound_iff.2 (.inl hj)⟩
  · intro i k hk hi
    obtain ⟨hnode, hnone⟩ := (hremoved.wellFormed.mem_getNoInedgeNodes i).1 hi
    obtain ⟨hkept, hnode⟩ := (hremoved.hasNode_iff i).1 hnode
    -- An edge entered the node before, and its source is gone.
    obtain ⟨e, he, rfl⟩ : ∃ e, s.graph.hasEdge e ∧ EdgeEnds.target e = i := by
      by_contra hno
      push Not at hno
      exact hkept ((h.wellFormed.mem_getNoInedgeNodes i).2 ⟨hnode, hno⟩)
    have hsource : EdgeEnds.source e ∈ s.graph.getNoInedgeNodes := by
      by_contra hnot
      exact hnone e ((hremoved.hasEdge_iff e).2 ⟨he, hnot, hkept⟩) rfl
    refine ⟨_, ⟨e, ((h.hasEdge_iff e).1 he).1, rfl, rfl⟩, h.inRound_iff.2 (.inr ⟨?_, hsource⟩)⟩
    exact (Nat.succ.inj hk).symm

/-- Every node is listed in the round whose number is that of the edges of the longest path to
it. -/
theorem peel_levels (hg : g.WellFormed) {fuel : ℕ} {topological_index : OrderedMap ℕ (List ι)}
    (hpeel : peel g fuel = some topological_index) (hi : InRound topological_index k i) :
    IsLevel g.Adj k i := by
  have hall : ∀ i k, InRound topological_index k i → IsLevel g.Adj k i := by
    refine loop_invariant (I := fun s => Peeled g s ∧ Tight g s)
      (Q := fun index => ∀ i k, InRound index k i → IsLevel g.Adj k i) ?_ ?_
      ⟨peeled_start hg, tight_start⟩ hpeel
    · rintro s s' ⟨hs, ht⟩ hturn
      rw [peelTurn_eq] at hturn
      split_ifs at hturn
      rw [← Sum.inl.inj hturn]
      exact ⟨hs.round, ht.round hs⟩
    · rintro s b ⟨hs, ht⟩ hturn i k hi
      rw [peelTurn_eq] at hturn
      split_ifs at hturn
      rw [← Sum.inr.inj hturn] at hi
      refine isLevel_of_labels (L := InRound s.topological_index) ?_ ht.follows hi
      rintro x y n ⟨e, he, rfl, rfl⟩ ⟨r, hr, rfl, htarget⟩
      obtain ⟨r', hr', hlt, hsource⟩ := hs.earlier e he r hr htarget
      exact ⟨r'.1, hlt, r', hr', rfl, hsource⟩
  exact hall i k hi

end TenProf.MemoryLiveness.DependencyGraph
