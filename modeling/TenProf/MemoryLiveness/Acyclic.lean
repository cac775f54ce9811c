import TenProf.Library.Runs
import TenProf.MemoryLiveness.Callbacks

/-!
# The dependency graph has no cycle, and its topological order is complete

In a run with increasing ids, every edge leads from an earlier operation to a later one as long as
no object is copied to itself. So the graph is acyclic, and `dump_topological_order` ends and writes
every operation of the graph once. After a copy from an object to itself an edge leads from the
operation to itself, and the loop of `dump_topological_order` does not end. An operation whose id
is not above `REDSHOW_MEMORY_HOST` gets no calling context, so that its line cannot be written
(`dumpTopologicalOrder_iff`).
-/

namespace TenProf.MemoryLiveness

open Dependencies
open GpuPatch (AddressDict AddressEntry)

variable {s s' : MemoryLiveness} {e : Callback}

/-- The operations of callbacks that have a node in the graph, in their order. -/
def inGraph (es : List Callback) : List ℕ := (es.filter fun e => e.InGraph).map Callback.op_id

/-- All edges lead from earlier operations to later ones. -/
def Increasing (d : Dependencies) : Prop := ∀ e, d.graph.hasEdge e → e.source < e.target

/-- The state after callbacks whose ids are at most `b`, of which those of `ids` are in the graph:
their operations can be written. -/
structure Inv (s : MemoryLiveness) (b : ℕ) (ids : List ℕ) : Prop where
  linked : s.deps.Linked b
  host_le : REDSHOW_MEMORY_HOST ≤ b
  hasNode_iff : ∀ i, s.deps.graph.hasNode i ↔ i ∈ ids
  labelled : ∀ i, s.deps.graph.hasNode i →
    ∃ ctx_id, s.op_node.find? i = some ctx_id ∧ (s.ctx_node.find? ctx_id).isSome
  named : ∀ ctx_id op_type, s.ctx_node.find? ctx_id = some op_type → (opName op_type).isSome
  address_le : ∀ a obj, s.addresses_map.find? a = some obj → obj ≤ b
  injective : s.AddressesInjective

/-- The invariant before the first callback. -/
theorem inv_empty : Inv empty REDSHOW_MEMORY_HOST [] where
  linked :=
    { wellFormed := DependencyGraph.wellFormed_empty
      node_le := fun i hi => absurd hi (by simp [empty, Dependencies.empty])
      last_node := fun obj i hi => absurd hi (by simp [Last, empty, Dependencies.empty])
      stream_node := fun st i hi => absurd hi (by simp [empty, Dependencies.empty]) }
  host_le := le_rfl
  hasNode_iff i := by simp [empty, Dependencies.empty]
  labelled i hi := absurd hi (by simp [empty, Dependencies.empty])
  named ctx_id op_type h := absurd h (by simp [empty])
  address_le a obj h := absurd h (by simp [empty])
  injective a a' obj h := absurd h (by simp [empty])

/-- What a callback does to the graph. -/
structure GraphStep (s : MemoryLiveness) (e : Callback) (s' : MemoryLiveness) : Prop where
  linked : s'.deps.Linked e.op_id
  hasNode_iff : ∀ i, s'.deps.graph.hasNode i ↔
    e.InGraph ∧ i = e.op_id ∨ s.deps.graph.hasNode i
  hasEdge : ∀ edge, s.deps.graph.hasEdge edge → s'.deps.graph.hasEdge edge
  increasing : ¬e.SelfCopy → Increasing s.deps → Increasing s'.deps

/-- What the callback of a new operation does to the graph. -/
theorem Inv.graphStep {b : ℕ} {ids : List ℕ} (hs : Inv s b ids) (hlt : b < e.op_id)
    (h : s.opCallback e = some s') : GraphStep s e s' := by
  have hlinked := hs.linked.mono hlt.le
  by_cases hmem : ∃ op, e = .memory op
  · obtain ⟨op, rfl⟩ := hmem
    rw [← Option.some.inj h]
    have hgraph :=
      allocated_updateGraphAtMalloc s.deps op.op_id op.stream_id .REDSHOW_MEMORY_ALLOC
    constructor
    · exact hgraph.linked hlinked
    · intro i
      refine (hgraph.grows.hasNode_iff i).trans (or_congr_left ?_)
      exact (and_iff_right trivial).symm
    · exact fun edge he => hgraph.grows.hasEdge he
    · exact fun _ hincr edge he => hgraph.edge_lt hs.linked hlt hincr he
  · have hfresh : ∀ st, s.deps.stream_ownership_map.find? st ≠ some e.op_id := fun st hst =>
      absurd (hs.linked.node_le _ (hs.linked.stream_node st _ hst)) (not_le.2 hlt)
    obtain ⟨objs, haccesses, hnodup, hne⟩ :=
      accesses_opCallback hfresh hs.injective (fun op he => hmem ⟨op, he⟩) h
    constructor
    · exact haccesses.linked hlinked
    · intro i
      rw [haccesses.hasNode_iff, hne]
    · exact fun edge he => haccesses.hasEdge he
    · intro hself hincr
      obtain ⟨T, hbefore⟩ := haccesses.before hlinked (hs.linked.before hlt hincr)
        (by simpa using hnodup hself)
      exact hbefore.edge_lt

/-- The callback of a new operation keeps the invariant. -/
theorem Inv.step {b : ℕ} {ids : List ℕ} (hs : Inv s b ids) (hlt : b < e.op_id)
    (h : s.opCallback e = some s') : Inv s' e.op_id (ids ++ inGraph [e]) := by
  have hgraph := hs.graphStep hlt h
  have hmaps := performed_opCallback h
  have hhost : REDSHOW_MEMORY_HOST < e.op_id := hs.host_le.trans_lt hlt
  have hop : ∀ i, s'.op_node.find? i =
      if i = e.op_id then some e.ctx_id else s.op_node.find? i := by
    intro i
    rw [hmaps.op_node]
    unfold updateOpNode
    dsimp only
    rw [if_pos hhost, OrderedMap.find?_set]
  constructor
  · exact hgraph.linked
  · exact hhost.le
  · intro i
    rw [hgraph.hasNode_iff, List.mem_append, hs.hasNode_iff, or_comm]
    refine or_congr_right ?_
    unfold inGraph
    by_cases he : e.InGraph <;> simp [he]
  · intro i hi
    rcases (hgraph.hasNode_iff i).1 hi with ⟨he, rfl⟩ | hi
    · exact ⟨e.ctx_id, by rw [hop, if_pos rfl], hmaps.ctx_inGraph he⟩
    · obtain ⟨ctx_id, hctx, htype⟩ := hs.labelled i hi
      have hne : i ≠ e.op_id := ((hs.linked.node_le i hi).trans_lt hlt).ne
      exact ⟨ctx_id, by rw [hop, if_neg hne, hctx], hmaps.typed.kept ctx_id htype⟩
  · intro ctx_id op_type hctx
    rcases hmaps.typed.named ctx_id op_type hctx with hctx | hname
    · exact hs.named ctx_id op_type hctx
    · exact hname
  · intro a obj ha
    rcases hmaps.address a obj ha with ha | ⟨op, rfl, -, rfl⟩
    · exact (hs.address_le a obj ha).trans hlt.le
    · exact le_rfl
  · -- The object of an allocation is new, so that no other address has it.
    have hnew : ∀ a obj, s.addresses_map.find? a = some obj → obj ≠ e.op_id := fun a obj ha =>
      ((hs.address_le a obj ha).trans_lt hlt).ne
    intro a a' obj ha ha'
    rcases hmaps.address a obj ha with ha | ⟨op, he, rfl, rfl⟩ <;>
      rcases hmaps.address a' _ ha' with ha' | ⟨op', he', rfl, hobj⟩
    · exact hs.injective a a' obj ha ha'
    · subst he'
      exact absurd hobj (hnew a obj ha)
    · subst he
      exact absurd rfl (hnew a' _ ha')
    · rw [he, Callback.memory.injEq] at he'
      rw [he']

/-- What a run does to the graph. -/
structure GraphRun (s : MemoryLiveness) (es : List Callback) (s' : MemoryLiveness) : Prop where
  hasEdge : ∀ edge, s.deps.graph.hasEdge edge → s'.deps.graph.hasEdge edge
  increasing : (∀ e ∈ es, ¬e.SelfCopy) → Increasing s.deps → Increasing s'.deps
  selfEdge : (∃ e ∈ es, e.SelfCopy) → ∃ i, s'.deps.graph.hasEdge ⟨i, i, .DATA_DEPENDENCY⟩

/-- A run with increasing ids keeps the invariant. -/
theorem Inv.run {es : List Callback} {b : ℕ} {ids : List ℕ} (hs : Inv s b ids)
    (hids : (b :: es.map Callback.op_id).Pairwise (· < ·)) (h : run opCallback s es = some s') :
    (∃ b', Inv s' b' (ids ++ inGraph es)) ∧ GraphRun s es s' := by
  induction es generalizing s b ids with
  | nil =>
    cases h
    refine ⟨⟨b, by simpa [inGraph] using hs⟩, ⟨fun _ => id, fun _ => id, ?_⟩⟩
    rintro ⟨e, he, -⟩
    exact absurd he List.not_mem_nil
  | cons e es ih =>
    obtain ⟨s₁, h₁, hrest⟩ := Option.bind_eq_some_iff.1 h
    obtain ⟨hb, hids⟩ := List.pairwise_cons.1 hids
    have hlt : b < e.op_id := hb e.op_id List.mem_cons_self
    have hgraph := hs.graphStep hlt h₁
    obtain ⟨⟨b', hs'⟩, hrun⟩ := ih (hs.step hlt h₁) hids hrest
    refine ⟨⟨b', ?_⟩, ⟨fun edge he => hrun.hasEdge edge (hgraph.hasEdge edge he), ?_, ?_⟩⟩
    · rw [List.append_assoc] at hs'
      have happ : inGraph [e] ++ inGraph es = inGraph (e :: es) := by
        unfold inGraph
        rw [← List.map_append, ← List.filter_append]
        rfl
      rwa [happ] at hs'
    · intro hself hincr
      obtain ⟨hfirst, hself⟩ := List.forall_mem_cons.1 hself
      exact hrun.increasing hself (hgraph.increasing hfirst hincr)
    · rintro ⟨e', he', hself⟩
      rcases List.mem_cons.1 he' with rfl | he'
      · exact ⟨e'.op_id, hrun.hasEdge _ (hasEdge_of_selfCopy hself h₁)⟩
      · exact hrun.selfEdge ⟨e', he', hself⟩

/-! ## The output -/

/-- The operations of the lines that are written. -/
def written (out : List (ℕ × List OrderLine)) : List ℕ :=
  out.flatMap fun round => round.2.map OrderLine.op_id

/-- An operation of the graph is written on one line. -/
theorem Inv.writeOp_eq {b : ℕ} {ids : List ℕ} (hs : Inv s b ids) (top_index : ℕ) {j : ℕ}
    (hj : s.deps.graph.hasNode j) :
    ∃ name, s.writeOp top_index j = some [⟨j, name, top_index⟩] := by
  obtain ⟨ctx_id, hctx, htype⟩ := hs.labelled j hj
  obtain ⟨op_type, htype⟩ := Option.isSome_iff_exists.1 htype
  obtain ⟨name, hname⟩ := Option.isSome_iff_exists.1 (hs.named ctx_id op_type htype)
  refine ⟨name, ?_⟩
  unfold writeOp
  rw [hctx, Option.bind_some, htype, Option.map_some, hname]

/-- The operations of a round are written one after the other. -/
theorem Inv.writeOps {b : ℕ} {ids : List ℕ} (hs : Inv s b ids) (top_index : ℕ) {js : List ℕ}
    (hjs : ∀ j ∈ js, s.deps.graph.hasNode j) :
    ∃ lines, js.mapM (s.writeOp top_index) = some lines ∧
      lines.flatten.map OrderLine.op_id = js := by
  induction js with
  | nil => exact ⟨[], rfl, rfl⟩
  | cons j js ih =>
    obtain ⟨hj, hjs⟩ := List.forall_mem_cons.1 hjs
    obtain ⟨name, hname⟩ := hs.writeOp_eq top_index hj
    obtain ⟨lines, hlines, hops⟩ := ih hjs
    refine ⟨[⟨j, name, top_index⟩] :: lines, ?_, ?_⟩
    · rw [List.mapM_cons, hname, hlines]
      rfl
    · rw [List.flatten_cons, List.map_append, hops]
      rfl

/-- The rounds are written one after the other. -/
theorem Inv.writeRounds {b : ℕ} {ids : List ℕ} (hs : Inv s b ids) {rounds : List (ℕ × List ℕ)}
    (hnodes : ∀ i ∈ rounds, ∀ j ∈ i.2, s.deps.graph.hasNode j) :
    ∃ out, (rounds.mapM fun i =>
        (i.2.mapM (s.writeOp i.1)).map fun lines => (i.1, lines.flatten)) = some out ∧
      written out = rounds.flatMap Prod.snd := by
  induction rounds with
  | nil => exact ⟨[], rfl, rfl⟩
  | cons i rounds ih =>
    obtain ⟨hfirst, hrest⟩ := List.forall_mem_cons.1 hnodes
    obtain ⟨lines, hlines, hops⟩ := hs.writeOps i.1 hfirst
    obtain ⟨out, hout, hwritten⟩ := ih hrest
    refine ⟨(i.1, lines.flatten) :: out, ?_, ?_⟩
    · rw [List.mapM_cons, hlines, hout]
      rfl
    · unfold written at hwritten ⊢
      rw [List.flatMap_cons, List.flatMap_cons, hops, hwritten]

/-- With an acyclic graph, `dump_topological_order` ends and writes every operation of the graph
once. -/
theorem Inv.dumpTopologicalOrder {b : ℕ} {ids : List ℕ} (hs : Inv s b ids) (hnodup : ids.Nodup)
    (hacyc : s.deps.graph.Acyclic) : ∃ fuel out, s.dumpTopologicalOrder fuel = some out ∧
      (written out).Perm ids := by
  obtain ⟨topological_index, hpeel, htop⟩ :=
    DependencyGraph.peel_spec hs.linked.wellFormed hacyc (Nat.lt_succ_self _)
  have hnodes : ∀ i ∈ topological_index.toList, ∀ j ∈ i.2, s.deps.graph.hasNode j :=
    fun i hi j hj => (htop.mem_iff j).1 (List.mem_flatMap.2 ⟨i, hi, hj⟩)
  obtain ⟨out, hout, hwritten⟩ := hs.writeRounds hnodes
  refine ⟨s.deps.graph.nodes.size + 1, out, ?_, ?_⟩
  · unfold MemoryLiveness.dumpTopologicalOrder
    rw [hpeel]
    exact hout
  · rw [hwritten]
    refine (List.perm_ext_iff_of_nodup htop.nodup hnodup).2 fun i => ?_
    rw [htop.mem_iff, hs.hasNode_iff]

/-- With an edge from an operation to itself, `dump_topological_order` does not end. -/
theorem Inv.dumpTopologicalOrder_diverges {b : ℕ} {ids : List ℕ} (hs : Inv s b ids) {i : ℕ}
    (hedge : s.deps.graph.hasEdge ⟨i, i, .DATA_DEPENDENCY⟩) :
    ¬s.deps.graph.Acyclic ∧ ∀ fuel, s.dumpTopologicalOrder fuel = none := by
  constructor
  · exact fun hacyc => hacyc i (.single ⟨_, hedge, rfl, rfl⟩)
  · intro fuel
    unfold MemoryLiveness.dumpTopologicalOrder
    rw [DependencyGraph.peel_diverges hs.linked.wellFormed hedge rfl]
    rfl

/-! ## Operations whose ids stand for no allocation -/

/-- The state before any operation has a node in the graph. -/
structure Bare (s : MemoryLiveness) : Prop where
  deps : s.deps = Dependencies.empty
  address : ∀ a obj, s.addresses_map.find? a ≠ some obj
  named : ∀ ctx_id op_type, s.ctx_node.find? ctx_id = some op_type → (opName op_type).isSome

/-- Before the first callback there is no operation. -/
theorem bare_empty : Bare empty where
  deps := rfl
  address a obj := by simp [empty]
  named ctx_id op_type h := absurd h (by simp [empty])

/-- An operation that touches no object leaves the graph empty. -/
theorem Bare.step (hs : Bare s) (he : ¬e.InGraph) (h : s.opCallback e = some s') : Bare s' := by
  have hmem : ∀ op, e ≠ .memory op := by
    rintro op rfl
    exact he trivial
  have hfresh : ∀ st, s.deps.stream_ownership_map.find? st ≠ some e.op_id := fun st => by
    simp [hs.deps, Dependencies.empty]
  obtain ⟨objs, haccesses, -, hne⟩ :=
    accesses_opCallback hfresh (fun a _ obj ha => absurd ha (hs.address a obj)) hmem h
  have hnil : objs = [] := not_not.1 fun hobjs => he (hne.1 hobjs)
  rw [hnil] at haccesses
  have hmaps := performed_opCallback h
  constructor
  · rw [haccesses.eq_of_nil]
    exact hs.deps
  · intro a obj ha
    rcases hmaps.address a obj ha with ha | ⟨op, hop, -⟩
    · exact hs.address a obj ha
    · exact hmem op hop
  · intro ctx_id op_type hctx
    rcases hmaps.typed.named ctx_id op_type hctx with hctx | hname
    · exact hs.named ctx_id op_type hctx
    · exact hname

/-- With an empty graph the invariant holds for every bound. -/
theorem Bare.inv (hs : Bare s) : Inv s REDSHOW_MEMORY_HOST [] where
  linked := by
    rw [hs.deps]
    exact inv_empty.linked
  host_le := le_rfl
  hasNode_iff i := by
    rw [hs.deps]
    exact inv_empty.hasNode_iff i
  labelled i hi := by
    rw [hs.deps] at hi
    exact absurd hi (by simp [Dependencies.empty])
  named := hs.named
  address_le a obj h := absurd h (hs.address a obj)
  injective a _ obj h := absurd h (hs.address a obj)

/-- A copy of an object to itself touches it. -/
theorem Callback.SelfCopy.inGraph (h : e.SelfCopy) : e.InGraph := by
  cases e with
  | memcpy op => exact .inl h.2
  | _ => exact absurd h id

/-- A run with increasing ids in which the operations of the graph have ids above
`REDSHOW_MEMORY_HOST`. -/
theorem Bare.run {es : List Callback} (hs : Bare s)
    (hids : (es.map Callback.op_id).Pairwise (· < ·))
    (hhost : ∀ e ∈ es, e.InGraph → REDSHOW_MEMORY_HOST < e.op_id)
    (h : run opCallback s es = some s') :
    (∃ b, Inv s' b (inGraph es)) ∧ GraphRun s es s' := by
  induction es generalizing s with
  | nil =>
    rw [← List.nil_append (inGraph [])]
    exact hs.inv.run (List.pairwise_singleton _ _) h
  | cons e es ih =>
    obtain ⟨hlater, hrest⟩ := List.pairwise_cons.1 hids
    by_cases hlt : REDSHOW_MEMORY_HOST < e.op_id
    · rw [← List.nil_append (inGraph (e :: es))]
      refine hs.inv.run (List.pairwise_cons.2 ⟨?_, hids⟩) h
      exact List.forall_mem_cons.2 ⟨hlt, fun i hi => hlt.trans (hlater i hi)⟩
    · -- The operation is not in the graph, and so it changes nothing that the rest looks at.
      obtain ⟨hfirst, hhost⟩ := List.forall_mem_cons.1 hhost
      have he : ¬e.InGraph := fun he => hlt (hfirst he)
      obtain ⟨s₁, h₁, hlast⟩ := Option.bind_eq_some_iff.1 h
      have hs₁ := hs.step he h₁
      obtain ⟨hinv, hrun⟩ := ih hs₁ hrest hhost hlast
      have hdeps : s.deps = s₁.deps := hs.deps.trans hs₁.deps.symm
      refine ⟨?_, fun edge hedge => hrun.hasEdge edge (hdeps ▸ hedge), ?_, ?_⟩
      · unfold inGraph
        rw [List.filter_cons_of_neg (by simpa using he)]
        exact hinv
      · intro hself hincr
        exact hrun.increasing (List.forall_mem_cons.1 hself).2 (hdeps ▸ hincr)
      · rintro ⟨e', he', hself⟩
        rcases List.mem_cons.1 he' with rfl | he'
        · exact absurd hself.inGraph he
        · exact hrun.selfEdge ⟨e', he', hself⟩

/-- Only operations with ids above `REDSHOW_MEMORY_HOST` get a calling context. -/
theorem host_lt_of_op_node {es : List Callback} (h : run opCallback empty es = some s) {i : ℕ}
    (hi : (s.op_node.find? i).isSome) : REDSHOW_MEMORY_HOST < i := by
  revert i
  refine run_invariant' (I := fun s : MemoryLiveness =>
    ∀ {i}, (s.op_node.find? i).isSome → REDSHOW_MEMORY_HOST < i) ?_ ?_ h
  · intro s e s' hs hstep i hi
    rw [(performed_opCallback hstep).op_node] at hi
    unfold updateOpNode at hi
    dsimp only at hi
    split_ifs at hi with hhost
    · rw [OrderedMap.find?_set] at hi
      split_ifs at hi with heq
      · rwa [heq]
      · exact hs hi
    · exact hs hi
  · intro i hi
    exact absurd hi (by simp [empty])

/-- The lines of an operation are for this operation, which has a calling context. -/
theorem line_of_writeOp {top_index j : ℕ} {line : List OrderLine} {l : OrderLine}
    (h : s.writeOp top_index j = some line) (hl : l ∈ line) :
    l.op_id = j ∧ l.top_index = top_index ∧ (s.op_node.find? j).isSome := by
  obtain ⟨ctx_id, hctx, h⟩ := Option.bind_eq_some_iff.1 h
  obtain ⟨op_type, -, rfl⟩ := Option.map_eq_some_iff.1 h
  cases hname : opName op_type with
  | none =>
    rw [hname] at hl
    exact absurd hl List.not_mem_nil
  | some name =>
    rw [hname] at hl
    rw [List.mem_singleton.1 hl, hctx]
    exact ⟨rfl, rfl, rfl⟩

/-- Every line that is written is for an operation of its round, which has a calling context. -/
theorem line_of_dump {fuel : ℕ} {out : List (ℕ × List OrderLine)}
    (h : s.dumpTopologicalOrder fuel = some out) : ∃ rounds, s.deps.graph.peel fuel = some rounds ∧
      ∀ round ∈ out, ∀ l ∈ round.2, ∃ r ∈ rounds.toList, l.top_index = r.1 ∧ l.op_id ∈ r.2 ∧
        (s.op_node.find? l.op_id).isSome := by
  obtain ⟨rounds, hpeel, hmap⟩ := Option.bind_eq_some_iff.1 h
  refine ⟨rounds, hpeel, fun round hround l hl => ?_⟩
  obtain ⟨r, hr, hlines⟩ := exists_of_mem_mapM hmap hround
  obtain ⟨lines, hops, rfl⟩ := Option.map_eq_some_iff.1 hlines
  obtain ⟨line, hline, hl⟩ := List.mem_flatten.1 hl
  obtain ⟨j, hj, hop⟩ := exists_of_mem_mapM hops hline
  obtain ⟨rfl, htop, hctx⟩ := line_of_writeOp hop hl
  exact ⟨r, hr, htop, hj, hctx⟩

/-- An operation that is written has a calling context. -/
theorem op_node_of_mem_written {fuel : ℕ} {out : List (ℕ × List OrderLine)} {j : ℕ}
    (h : s.dumpTopologicalOrder fuel = some out) (hj : j ∈ written out) :
    (s.op_node.find? j).isSome := by
  obtain ⟨rounds, -, hlines⟩ := line_of_dump h
  obtain ⟨round, hround, hj⟩ := List.mem_flatMap.1 hj
  obtain ⟨l, hl, rfl⟩ := List.mem_map.1 hj
  obtain ⟨r, -, -, -, hctx⟩ := hlines round hround l hl
  exact hctx

/-- In every run with increasing ids, the dependency graph is acyclic and
`dump_topological_order` ends with every operation of the graph written once, if and only if no
object is copied to itself and the operations of the graph have ids above `REDSHOW_MEMORY_HOST`. -/
theorem dumpTopologicalOrder_iff {es : List Callback} {s : MemoryLiveness}
    (hids : (es.map Callback.op_id).Pairwise (· < ·))
    (hrun : run opCallback empty es = some s) :
    (s.deps.graph.Acyclic ∧ ∃ fuel out, s.dumpTopologicalOrder fuel = some out ∧
      (written out).Perm (inGraph es)) ↔
        (∀ e ∈ es, ¬e.SelfCopy) ∧ ∀ e ∈ es, e.InGraph → REDSHOW_MEMORY_HOST < e.op_id := by
  constructor
  · rintro ⟨hacyc, fuel, out, hout, hperm⟩
    have hhost : ∀ e ∈ es, e.InGraph → REDSHOW_MEMORY_HOST < e.op_id := fun e he hgraph => by
      have hmem : e.op_id ∈ inGraph es :=
        List.mem_map.2 ⟨e, List.mem_filter.2 ⟨he, by simpa using hgraph⟩, rfl⟩
      exact host_lt_of_op_node hrun (op_node_of_mem_written hout (hperm.mem_iff.2 hmem))
    refine ⟨fun e he hself => ?_, hhost⟩
    obtain ⟨⟨b, hs⟩, hgraph⟩ := bare_empty.run hids hhost hrun
    obtain ⟨i, hedge⟩ := hgraph.selfEdge ⟨e, he, hself⟩
    exact (hs.dumpTopologicalOrder_diverges hedge).1 hacyc
  · rintro ⟨hself, hhost⟩
    obtain ⟨⟨b, hs⟩, hgraph⟩ := bare_empty.run hids hhost hrun
    have hacyc : s.deps.graph.Acyclic := by
      apply DependencyGraph.acyclic_of_lt
      exact hgraph.increasing hself fun edge he => absurd he (by simp [empty, Dependencies.empty])
    have hnodup : (inGraph es).Nodup := (hids.imp ne_of_lt).sublist (List.filter_sublist.map _)
    exact ⟨hacyc, hs.dumpTopologicalOrder hnodup hacyc⟩

/-- The callbacks of an allocation and of a copy from it to itself. -/
def copyToItself : List Callback :=
  [.memory (Memory.ofRange 0 7 1 ⟨1000, 1016⟩ 0 0), .memcpy ⟨8, 2, 7, 0, 1000, 7, 0, 1008, 8⟩]

/-- After a copy from an object to itself the graph has a cycle, and the loop does not end. -/
theorem not_acyclic_copyToItself :
    (REDSHOW_MEMORY_HOST :: copyToItself.map Callback.op_id).Pairwise (· < ·) ∧
      ∃ s, run opCallback empty copyToItself = some s ∧
        ¬s.deps.graph.Acyclic ∧ ∀ fuel, s.dumpTopologicalOrder fuel = none := by
  have hids : (REDSHOW_MEMORY_HOST :: copyToItself.map Callback.op_id).Pairwise (· < ·) := by decide
  have hsome : (run opCallback empty copyToItself).isSome := by rfl
  obtain ⟨s, hrun⟩ := Option.isSome_iff_exists.1 hsome
  obtain ⟨⟨b, hs⟩, hgraph⟩ := inv_empty.run hids hrun
  obtain ⟨i, hedge⟩ := hgraph.selfEdge (by decide)
  exact ⟨hids, s, hrun, hs.dumpTopologicalOrder_diverges hedge⟩

/-- The callbacks of two allocations, a copy between them, a kernel that reads the first and writes
the second, and the release of the first. -/
def copyBetween : List Callback :=
  [.memory (Memory.ofRange 0 7 1 ⟨1000, 1016⟩ 0 0),
    .memory (Memory.ofRange 0 8 1 ⟨2000, 2016⟩ 0 0),
    .memcpy ⟨9, 2, 7, 0, 1000, 8, 0, 2000, 16⟩,
    .kernel ⟨10, 3, 0, 1⟩ (some ⟨[⟨⟨1000, 1016⟩, 1, 1, 0⟩, ⟨⟨2000, 2016⟩, 1, 0, 1⟩], by decide⟩),
    .memfree (Memfree.ofRange 0 11 4 ⟨1000, 1016⟩)]

/-- The statement about runs applies to a run with all kinds of edges. -/
theorem dumpTopologicalOrder_copyBetween : ∃ s, run opCallback empty copyBetween = some s ∧
    s.deps.graph.Acyclic ∧ ∃ fuel out, s.dumpTopologicalOrder fuel = some out ∧
      (written out).Perm [7, 8, 9, 10, 11] := by
  have hsome : (run opCallback empty copyBetween).isSome := by rfl
  obtain ⟨s, hrun⟩ := Option.isSome_iff_exists.1 hsome
  have hself : ∀ e ∈ copyBetween, ¬e.SelfCopy := by decide
  have hhost : ∀ e ∈ copyBetween, e.InGraph → REDSHOW_MEMORY_HOST < e.op_id := by decide
  exact ⟨s, hrun, (dumpTopologicalOrder_iff (by decide) hrun).2 ⟨hself, hhost⟩⟩

end TenProf.MemoryLiveness
