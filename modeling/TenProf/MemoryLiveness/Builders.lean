import TenProf.MemoryLiveness.State

/-!
# What the builders of the dependency graph do

Every builder makes the node of its operation and edges that lead to it, and nothing else: `Grows`
says so of two graphs, with the sources of the new edges. `malloc_grows` and `Accessed` give those
sources and the other members after each builder. A release follows the same operations as a write.
-/

namespace TenProf.MemoryLiveness

/-- The graph of the analysis. -/
abbrev LivenessGraph := DependencyGraph ℕ Node EdgeIndex Edge

/-- The second graph is the first one with the node `op` and the edges that lead to it from the
operations of `P`. -/
structure Grows (g : LivenessGraph) (op : ℕ) (P : EdgeType → ℕ → Prop) (g' : LivenessGraph) :
    Prop where
  hasNode_iff : ∀ j, g'.hasNode j ↔ j = op ∨ g.hasNode j
  hasEdge_iff : ∀ e, g'.hasEdge e ↔ g.hasEdge e ∨ e.target = op ∧ P e.edge_type e.source
  wellFormed : g.WellFormed → (∀ type i, P type i → i = op ∨ g.hasNode i) → g'.WellFormed

namespace Grows

variable {g g₁ g₂ : LivenessGraph} {op : ℕ} {P Q : EdgeType → ℕ → Prop}

/-- What is there is kept. -/
theorem hasNode (h : Grows g op P g₁) {i : ℕ} (hi : g.hasNode i) : g₁.hasNode i :=
  (h.hasNode_iff i).2 (.inr hi)

/-- What is there is kept. -/
theorem hasEdge (h : Grows g op P g₁) {e : EdgeIndex} (he : g.hasEdge e) : g₁.hasEdge e :=
  (h.hasEdge_iff e).2 (.inl he)

/-- Two steps for the same operation. -/
theorem trans (h₁ : Grows g op P g₁) (h₂ : Grows g₁ op Q g₂) :
    Grows g op (fun type i => P type i ∨ Q type i) g₂ := by
  constructor
  · intro j
    rw [h₂.hasNode_iff, h₁.hasNode_iff]
    tauto
  · intro e
    rw [h₂.hasEdge_iff, h₁.hasEdge_iff]
    tauto
  · intro hwf hP
    apply h₂.wellFormed
    · exact h₁.wellFormed hwf fun type i hi => hP type i (.inl hi)
    · intro type i hi
      exact (hP type i (.inr hi)).imp_right h₁.hasNode

/-- The same new edges, said in another way. -/
theorem congr (h : Grows g op P g₁) (hPQ : ∀ type i, P type i ↔ Q type i) : Grows g op Q g₁ := by
  constructor
  · exact h.hasNode_iff
  · intro e
    rw [h.hasEdge_iff, hPQ]
  · intro hwf hQ
    exact h.wellFormed hwf fun type i hi => hQ type i ((hPQ type i).1 hi)

/-- A graph with the node. -/
theorem refl (hop : g.hasNode op) : Grows g op (fun _ _ => False) g := by
  constructor
  · intro j
    refine (or_iff_right_of_imp ?_).symm
    rintro rfl
    exact hop
  · simp
  · exact fun hwf _ => hwf

/-- A graph that gets the node. -/
theorem addNode (hop : g.hasNode op = false) (node : Node) :
    Grows g op (fun _ _ => False) (g.addNode op node) := by
  constructor
  · exact fun j => DependencyGraph.hasNode_addNode op j node
  · simp
  · exact fun hwf _ => hwf.addNode hop node

/-- A graph that gets an edge. -/
theorem addEdge (hop : g.hasNode op) (source : ℕ) (edge_type : EdgeType) (edge : Edge) :
    Grows g op (fun type i => type = edge_type ∧ i = source)
      (g.addEdge ⟨source, op, edge_type⟩ edge) := by
  constructor
  · exact (refl hop).hasNode_iff
  · intro e
    rw [DependencyGraph.hasEdge_addEdge, EdgeIndex.mk.injEq, or_comm]
    tauto
  · intro hwf hP
    refine hwf.addEdge ?_ hop edge
    rcases hP _ _ ⟨rfl, rfl⟩ with hsource | hsource
    · rw [hsource]
      exact hop
    · exact hsource

end Grows

namespace Dependencies

variable {d d' : Dependencies} {op stream_id obj : ℕ} {op_type : MemoryOperation}

/-- The graph gets the node of the operation. -/
theorem grows_addNode : Grows d.graph op (fun _ _ => False) (d.addNode op op_type).graph := by
  unfold addNode
  split_ifs with h
  · exact Grows.refl h
  · exact Grows.addNode (Bool.eq_false_iff.2 h) _

/-- The graph gets an edge from the last operation of the stream. -/
theorem grows_linkStream (hop : d.graph.hasNode op) (stream_id : ℕ) :
    Grows d.graph op (fun type i => type = .STREAM_DEPENDENCY ∧
      d.stream_ownership_map.find? stream_id = some i) (d.linkStream op stream_id).graph := by
  unfold linkStream
  cases h : d.stream_ownership_map.find? stream_id with
  | none => exact (Grows.refl hop).congr (by simp)
  | some prev =>
    refine (Grows.addEdge hop prev .STREAM_DEPENDENCY Edge.empty).congr fun type i => ?_
    rw [Option.some.injEq, eq_comm (a := i)]

/-- The graph gets an edge from the last operation of the stream, unless it is the same one. -/
theorem grows_linkStreamOnce (hop : d.graph.hasNode op) (stream_id : ℕ) :
    Grows d.graph op (fun type i => type = .STREAM_DEPENDENCY ∧ i ≠ op ∧
      d.stream_ownership_map.find? stream_id = some i) (d.linkStreamOnce op stream_id).graph := by
  unfold linkStreamOnce
  split_ifs with h
  · exact (Grows.refl hop).congr (by rw [h]; grind)
  · exact (grows_linkStream hop stream_id).congr (by grind)

/-- The graph gets the edge for an access. -/
theorem grows_linkData {g : LivenessGraph} (hop : g.hasNode op) (source : ℕ)
    (access_type : AccessType) :
    Grows g op (fun type i => type = .DATA_DEPENDENCY ∧ i = source)
      (linkData g ⟨source, op, .DATA_DEPENDENCY⟩ obj access_type) := by
  unfold linkData
  cases h : g.edges.find? ⟨source, op, .DATA_DEPENDENCY⟩ with
  | none => exact Grows.addEdge hop source .DATA_DEPENDENCY _
  | some edge =>
    -- The edge is there, so that it stays one of the graph.
    have hedge : g.hasEdge ⟨source, op, .DATA_DEPENDENCY⟩ := by
      unfold DependencyGraph.hasEdge
      rw [h]
      rfl
    constructor
    · exact (Grows.refl hop).hasNode_iff
    · intro e
      rw [DependencyGraph.hasEdge_setEdge hedge]
      refine (or_iff_left_of_imp ?_).symm
      obtain ⟨s, t, type⟩ := e
      rintro ⟨rfl, rfl, rfl⟩
      exact hedge
    · exact fun hwf _ => hwf.setEdge hedge _

/-- The graph gets an edge from each operation of a list. -/
theorem grows_foldl {link : LivenessGraph → ℕ → LivenessGraph} {froms : List ℕ}
    (hlink : ∀ g r, g.hasNode op →
      Grows g op (fun type i => type = .DATA_DEPENDENCY ∧ i = r) (link g r))
    {g : LivenessGraph} (hop : g.hasNode op) :
    Grows g op (fun type i => type = .DATA_DEPENDENCY ∧ i ∈ froms) (froms.foldl link g) := by
  induction froms generalizing g with
  | nil => exact (Grows.refl hop).congr (by simp)
  | cons r froms ih =>
    refine ((hlink g r hop).trans (ih ((hlink g r hop).hasNode hop))).congr fun type i => ?_
    rw [List.mem_cons]
    tauto

/-- The last operation of each stream after an operation. -/
theorem find?_linkStream (d : Dependencies) (op stream_id st : ℕ) :
    (d.linkStream op stream_id).stream_ownership_map.find? st =
      if st = stream_id then some op else d.stream_ownership_map.find? st := by
  unfold linkStream
  cases h : d.stream_ownership_map.find? stream_id with
  | none =>
    simp only
    rw [OrderedMap.emplace_of_none h, OrderedMap.find?_set]
  | some prev => exact OrderedMap.find?_set _ _ _ _

/-- The last operation of each stream after an operation. -/
theorem find?_linkStreamOnce (d : Dependencies) (op stream_id st : ℕ) :
    (d.linkStreamOnce op stream_id).stream_ownership_map.find? st =
      if st = stream_id then some op else d.stream_ownership_map.find? st := by
  unfold linkStreamOnce
  split_ifs with h hst hst
  · rw [hst, h]
  · rfl
  · rw [find?_linkStream, if_pos hst]
  · rw [find?_linkStream, if_neg hst]

/-- The other members are kept by a new node and by an edge of the stream. -/
theorem linkStream_frame (d : Dependencies) (op stream_id : ℕ) :
    (d.linkStream op stream_id).obj_ownership_map = d.obj_ownership_map ∧
    (d.linkStream op stream_id).read_nodes = d.read_nodes := by
  unfold linkStream
  split <;> exact ⟨rfl, rfl⟩

/-- The other members are kept by a new node and by an edge of the stream. -/
theorem linkStreamOnce_frame (d : Dependencies) (op stream_id : ℕ) :
    (d.linkStreamOnce op stream_id).obj_ownership_map = d.obj_ownership_map ∧
      (d.linkStreamOnce op stream_id).read_nodes = d.read_nodes := by
  unfold linkStreamOnce
  split_ifs
  · exact ⟨rfl, rfl⟩
  · exact linkStream_frame d op stream_id

/-- A new node is all that changes. -/
theorem addNode_frame (d : Dependencies) (op : ℕ) (op_type : MemoryOperation) :
    (d.addNode op op_type).obj_ownership_map = d.obj_ownership_map ∧
    (d.addNode op op_type).read_nodes = d.read_nodes ∧
    (d.addNode op op_type).stream_ownership_map = d.stream_ownership_map := by
  unfold addNode
  split_ifs <;> exact ⟨rfl, rfl, rfl⟩

/-- The operations that an access to an object follows, from the last one that wrote it and those
that have read it since. -/
def followed (access_type : AccessType) (owner : ℕ) (readers : List ℕ) : List ℕ :=
  match access_type with
  | .READ => [owner]
  | .WRITE => if readers.isEmpty then [owner] else readers

/-- The last operation that wrote an object after an access. -/
def ownerAfter (access_type : AccessType) (owner op : ℕ) : ℕ :=
  match access_type with
  | .READ => owner
  | .WRITE => op

/-- The operations that have read an object since, after an access. -/
def readersAfter (access_type : AccessType) (readers : List ℕ) (op : ℕ) : List ℕ :=
  match access_type with
  | .READ => readers ++ [op]
  | .WRITE => []

/-- What an access to an object, or its release, does. The edge of the stream is made whenever the
condition `link` on the last operation of the stream holds. -/
structure Accessed (d : Dependencies) (op stream_id obj : ℕ) (access_type : AccessType)
    (link : ℕ → Prop) (owner : ℕ) (readers : List ℕ) (d' : Dependencies) : Prop where
  owner_eq : d.obj_ownership_map.find? obj = some owner
  readers_eq : d.read_nodes.find? obj = some readers
  grows : Grows d.graph op (fun type i =>
    type = .STREAM_DEPENDENCY ∧ link i ∧ d.stream_ownership_map.find? stream_id = some i ∨
      type = .DATA_DEPENDENCY ∧ i ∈ followed access_type owner readers) d'.graph
  owner : ∀ obj', d'.obj_ownership_map.find? obj' =
    if obj' = obj then some (ownerAfter access_type owner op) else d.obj_ownership_map.find? obj'
  readers : ∀ obj', d'.read_nodes.find? obj' =
    if obj' = obj then some (readersAfter access_type readers op) else d.read_nodes.find? obj'
  stream : ∀ st, d'.stream_ownership_map.find? st =
    if st = stream_id then some op else d.stream_ownership_map.find? st

/-- The part of an access, or of a release, for the object. -/
structure AccessedObject (d : Dependencies) (op obj : ℕ) (access_type : AccessType) (owner : ℕ)
    (readers : List ℕ) (d' : Dependencies) : Prop where
  grows : Grows d.graph op (fun type i =>
    type = .DATA_DEPENDENCY ∧ i ∈ followed access_type owner readers) d'.graph
  owner : ∀ obj', d'.obj_ownership_map.find? obj' =
    if obj' = obj then some (ownerAfter access_type owner op) else d.obj_ownership_map.find? obj'
  readers : ∀ obj', d'.read_nodes.find? obj' =
    if obj' = obj then some (readersAfter access_type readers op) else d.read_nodes.find? obj'
  stream : d'.stream_ownership_map = d.stream_ownership_map

/-- What a write and a release do for the object. -/
theorem accessedObject_overwrite (link : LivenessGraph → ℕ → LivenessGraph) (owner : ℕ)
    {readers : List ℕ} (hop : d.graph.hasNode op) (hreaders : d.read_nodes.find? obj = some readers)
    (hlink : ∀ g r, g.hasNode op →
      Grows g op (fun type i => type = .DATA_DEPENDENCY ∧ i = r) (link g r)) :
    AccessedObject d op obj .WRITE owner readers (d.overwrite link op obj owner readers) := by
  unfold overwrite
  dsimp only
  split_ifs with hempty
  · -- Without readers nothing is cleared.
    constructor
    · refine (hlink d.graph owner hop).congr fun type i => ?_
      simp only [followed, hempty, if_true, List.mem_singleton]
    · exact fun obj' => OrderedMap.find?_set _ _ _ _
    · intro obj'
      split_ifs with hobj
      · rw [hobj, hreaders, List.isEmpty_iff.1 hempty]
        rfl
      · rfl
    · rfl
  · constructor
    · refine (grows_foldl hlink hop).congr fun type i => ?_
      simp only [followed, hempty, if_false, Bool.false_eq_true]
    · exact fun obj' => OrderedMap.find?_set _ _ _ _
    · exact fun obj' => OrderedMap.find?_set _ _ _ _
    · rfl

/-- `update_graph_at_access`. -/
theorem accessed_updateGraphAtAccess {access_type : AccessType}
    (h : d.updateGraphAtAccess op op_type stream_id obj access_type = some d') :
    ∃ owner readers, Accessed d op stream_id obj access_type (· ≠ op) owner readers d' := by
  unfold updateGraphAtAccess at h
  simp only [Option.bind_eq_some_iff, Option.map_eq_some_iff] at h
  obtain ⟨owner, howner, readers, hreaders, h⟩ := h
  -- First the node and the edge of the stream.
  have hnode : Grows d.graph op (fun _ _ => False) (d.addNode op op_type).graph := grows_addNode
  obtain ⟨howner₁, hreaders₁, hstream₁⟩ := addNode_frame d op op_type
  generalize d.addNode op op_type = d₁ at h howner hreaders hnode howner₁ hreaders₁ hstream₁
  have hop₁ : d₁.graph.hasNode op := (hnode.hasNode_iff op).2 (.inl rfl)
  have hlink := grows_linkStreamOnce hop₁ stream_id
  obtain ⟨howner₂, hreaders₂⟩ := linkStreamOnce_frame d₁ op stream_id
  have hstream₂ := find?_linkStreamOnce d₁ op stream_id
  generalize d₁.linkStreamOnce op stream_id = d₂ at *
  have hop₂ : d₂.graph.hasNode op := hlink.hasNode hop₁
  -- Then the edges of the object.
  have hobject : AccessedObject d₂ op obj access_type owner readers d' := by
    rw [← h]
    cases access_type with
    | READ =>
      constructor
      · refine (grows_linkData hop₂ owner .READ).congr fun type i => ?_
        simp only [followed, List.mem_singleton]
      · intro obj'
        split_ifs with hobj
        · rw [hobj]
          exact howner
        · rfl
      · exact fun obj' => OrderedMap.find?_set _ _ _ _
      · rfl
    | WRITE =>
      exact accessedObject_overwrite _ owner hop₂ hreaders fun g r hg =>
        grows_linkData hg r .WRITE
  refine ⟨owner, readers, ?_, ?_, ?_, ?_, ?_, ?_⟩
  · rw [← howner₁, ← howner₂, howner]
  · rw [← hreaders₁, ← hreaders₂, hreaders]
  · refine ((hnode.trans hlink).trans hobject.grows).congr fun type i => ?_
    rw [hstream₁]
    tauto
  · intro obj'
    rw [hobject.owner, howner₂, howner₁]
  · intro obj'
    rw [hobject.readers, hreaders₂, hreaders₁]
  · intro st
    rw [hobject.stream, hstream₂, hstream₁]

/-- `update_graph_at_free`. -/
theorem accessed_updateGraphAtFree
    (h : d.updateGraphAtFree op stream_id obj op_type = some d') :
    ∃ owner readers, Accessed d op stream_id obj .WRITE (fun _ => True) owner readers d' := by
  unfold updateGraphAtFree at h
  simp only [Option.bind_eq_some_iff, Option.map_eq_some_iff] at h
  obtain ⟨owner, howner, readers, hreaders, h⟩ := h
  have hnode : Grows d.graph op (fun _ _ => False) (d.addNode op op_type).graph := grows_addNode
  obtain ⟨howner₁, hreaders₁, hstream₁⟩ := addNode_frame d op op_type
  generalize d.addNode op op_type = d₁ at h howner hreaders hnode howner₁ hreaders₁ hstream₁
  have hop₁ : d₁.graph.hasNode op := (hnode.hasNode_iff op).2 (.inl rfl)
  -- The edges of the object, which are like those of a write.
  have hobject := accessedObject_overwrite (fun graph rnode =>
    graph.addEdge ⟨rnode, op, .DATA_DEPENDENCY⟩ (Edge.ofAccess obj .WRITE)) owner hop₁ hreaders
    fun g r hg => Grows.addEdge hg r .DATA_DEPENDENCY _
  generalize d₁.overwrite _ op obj owner readers = d₂ at h hobject
  have hop₂ : d₂.graph.hasNode op := hobject.grows.hasNode hop₁
  have hlink := grows_linkStream hop₂ stream_id
  obtain ⟨howner₃, hreaders₃⟩ := linkStream_frame d₂ op stream_id
  have hstream₃ := find?_linkStream d₂ op stream_id
  rw [h] at hlink howner₃ hreaders₃ hstream₃
  refine ⟨owner, readers, ?_, ?_, ?_, ?_, ?_, ?_⟩
  · rw [← howner₁, howner]
  · rw [← hreaders₁, hreaders]
  · refine ((hnode.trans hobject.grows).trans hlink).congr fun type i => ?_
    rw [hobject.stream, hstream₁]
    tauto
  · intro obj'
    rw [howner₃, hobject.owner, howner₁]
  · intro obj'
    rw [hreaders₃, hobject.readers, hreaders₁]
  · intro st
    rw [hstream₃, hobject.stream, hstream₁]

/-- The release of an object that has an owner and a list of readers does not fail. -/
theorem exists_updateGraphAtFree (howner : (d.obj_ownership_map.find? obj).isSome)
    (hreaders : (d.read_nodes.find? obj).isSome) (op stream_id : ℕ) (op_type : MemoryOperation) :
    ∃ d', d.updateGraphAtFree op stream_id obj op_type = some d' := by
  obtain ⟨owner, howner⟩ := Option.isSome_iff_exists.1 howner
  obtain ⟨readers, hreaders⟩ := Option.isSome_iff_exists.1 hreaders
  obtain ⟨howner₁, hreaders₁, -⟩ := addNode_frame d op op_type
  unfold updateGraphAtFree
  dsimp only
  rw [howner₁, howner, hreaders₁, hreaders]
  exact ⟨_, rfl⟩

/-- The access to an object that has an owner and a list of readers does not fail. -/
theorem exists_updateGraphAtAccess (howner : (d.obj_ownership_map.find? obj).isSome)
    (hreaders : (d.read_nodes.find? obj).isSome) (op stream_id : ℕ) (op_type : MemoryOperation)
    (access_type : AccessType) :
    ∃ d', d.updateGraphAtAccess op op_type stream_id obj access_type = some d' := by
  obtain ⟨owner, howner⟩ := Option.isSome_iff_exists.1 howner
  obtain ⟨readers, hreaders⟩ := Option.isSome_iff_exists.1 hreaders
  obtain ⟨howner₁, hreaders₁, -⟩ := addNode_frame d op op_type
  obtain ⟨howner₂, hreaders₂⟩ := linkStreamOnce_frame (d.addNode op op_type) op stream_id
  unfold updateGraphAtAccess
  dsimp only
  rw [howner₂, howner₁, howner, hreaders₂, hreaders₁, hreaders]
  exact ⟨_, rfl⟩

/-- What the builder for an allocation does, when its operation has no node yet. -/
structure Allocated (d : Dependencies) (op stream_id : ℕ) (d' : Dependencies) : Prop where
  grows : Grows d.graph op (fun type i => type = .STREAM_DEPENDENCY ∧
    d.stream_ownership_map.find? stream_id = some i) d'.graph
  owner : d'.obj_ownership_map =
    if d.graph.hasNode op then d.obj_ownership_map else d.obj_ownership_map.emplace op op
  readers : d'.read_nodes = d.read_nodes
  stream : ∀ st, d'.stream_ownership_map.find? st =
    if st = stream_id then some op else d.stream_ownership_map.find? st

/-- `update_graph_at_malloc`. -/
theorem allocated_updateGraphAtMalloc (d : Dependencies) (op stream_id : ℕ)
    (op_type : MemoryOperation) :
    Allocated d op stream_id (d.updateGraphAtMalloc op stream_id op_type) := by
  unfold updateGraphAtMalloc
  dsimp only
  split_ifs with hnode
  · obtain ⟨howner, hreaders⟩ := linkStream_frame d op stream_id
    constructor
    · exact grows_linkStream hnode stream_id
    · rw [howner, if_pos hnode]
    · exact hreaders
    · exact find?_linkStream d op stream_id
  · generalize hd₁ : ({ d with
      graph := d.graph.addNode op (Node.ofType op op_type)
      obj_ownership_map := d.obj_ownership_map.emplace op op } : Dependencies) = d₁
    have hgrows : Grows d.graph op (fun _ _ => False) d₁.graph := by
      rw [← hd₁]
      exact Grows.addNode (Bool.eq_false_iff.2 hnode) _
    have hop₁ : d₁.graph.hasNode op := (hgrows.hasNode_iff op).2 (.inl rfl)
    have hstream₁ : d₁.stream_ownership_map = d.stream_ownership_map := by rw [← hd₁]
    obtain ⟨howner, hreaders⟩ := linkStream_frame d₁ op stream_id
    constructor
    · refine (hgrows.trans (grows_linkStream hop₁ stream_id)).congr fun type i => ?_
      rw [hstream₁, false_or]
    · rw [howner, if_neg hnode, ← hd₁]
    · rw [hreaders, ← hd₁]
    · intro st
      rw [find?_linkStream, hstream₁]

end Dependencies

end TenProf.MemoryLiveness
