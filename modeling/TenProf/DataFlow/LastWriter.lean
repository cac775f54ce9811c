import TenProf.DataFlow.Dump

/-!
# Where the edges start

An edge for a read or a write of a memory is to start at the context that wrote the memory last.
`lastWriter` says from the operations so far which one that is, and `_op_node` holds it after every
run (`Tracked`). Kernels and memsets look it up before they become the last writer themselves. A
memcpy looks it up for its source after it has become the last writer of its destination, so that a
memcpy inside one object links a read from itself: its edges are right exactly when that makes no
difference (`linksRight_iff`).
-/

namespace TenProf.DataFlow

/-- The operation reads a memory. -/
def Operation.Reads : Operation → ℕ → Prop
  | .kernel _ (some trace), m => (trace.read_memory.find? m).isSome ∧ REDSHOW_MEMORY_HOST < m
  | .memcpy op, m => op.src_memory_op_id = m
  | _, _ => False

/-- The operation writes a memory. -/
def Operation.Writes : Operation → ℕ → Prop
  | .kernel _ (some trace), m => (trace.write_memory.find? m).isSome ∧ REDSHOW_MEMORY_HOST < m
  | .memcpy op, m => op.dst_memory_op_id = m ∧ ¬op.IsSink
  | .memset op, m => op.memory_op_id = m
  | _, _ => False

/-- The operation allocates a memory. -/
def Operation.Allocates : Operation → ℕ → Prop
  | .memory op, m => op.op_id = m
  | _, _ => False

instance (op : Operation) (m : ℕ) : Decidable (op.Writes m) :=
  match op with
  | .kernel _ (some _) => inferInstanceAs (Decidable (_ ∧ _))
  | .memcpy _ => inferInstanceAs (Decidable (_ ∧ _))
  | .memset _ => inferInstanceAs (Decidable (_ = _))
  | .kernel _ none => inferInstanceAs (Decidable False)
  | .memory _ => inferInstanceAs (Decidable False)
  | .memfree _ => inferInstanceAs (Decidable False)

instance (op : Operation) (m : ℕ) : Decidable (op.Allocates m) :=
  match op with
  | .memory _ => inferInstanceAs (Decidable (_ = _))
  | .kernel _ _ => inferInstanceAs (Decidable False)
  | .memcpy _ => inferInstanceAs (Decidable False)
  | .memset _ => inferInstanceAs (Decidable False)
  | .memfree _ => inferInstanceAs (Decidable False)

/-- The operation writes or allocates an object. -/
def Operation.Produces (op : Operation) (m : ℕ) : Prop :=
  REDSHOW_MEMORY_HOST < m ∧ (op.Writes m ∨ op.Allocates m)

instance (op : Operation) (m : ℕ) : Decidable (op.Produces m) :=
  inferInstanceAs (Decidable (_ ∧ _))

/-- The context of the last operation that wrote an object, or allocated it; memory that is not
tracked has a context of its own. -/
def lastWriter (ops : List Operation) (m : ℕ) : Option ℤ :=
  match (ops.filter fun op => op.Produces m).getLast? with
  | some op => some op.ctx_id
  | none => specialMemories.lookup m

/-- One more operation. -/
theorem lastWriter_append (ops : List Operation) (op : Operation) (m : ℕ) :
    lastWriter (ops ++ [op]) m = if op.Produces m then some op.ctx_id else lastWriter ops m := by
  unfold lastWriter
  rw [List.filter_append]
  split_ifs with hop
  · simp [hop]
  · simp [hop]

/-- The edges of an operation are right, where `writer` is the last writer of each memory before it:
there is an edge from the writer for every memory that it reads and for every memory that it writes,
every new edge is one of them, and it is the last writer of the objects that it writes. -/
structure LinksRight (writer : ℕ → Option ℤ) (op : Operation) (s s' : DataFlow) : Prop where
  read : ∀ m, op.Reads m → ∃ src memory, writer m = some src ∧ s.memories.find? m = some memory ∧
    s'.graph.hasEdge ⟨src, op.ctx_id, memory.ctx_id, .DATA_FLOW_EDGE_READ⟩
  read_new : ∀ e, s'.graph.hasEdge e → ¬s.graph.hasEdge e → e.type = .DATA_FLOW_EDGE_READ →
    ∃ m memory, op.Reads m ∧ writer m = some e.source ∧ s.memories.find? m = some memory ∧
      e = ⟨e.source, op.ctx_id, memory.ctx_id, .DATA_FLOW_EDGE_READ⟩
  write : ∀ m, op.Writes m → ∀ src, writer m = some src → ∃ memory,
    s.memories.find? m = some memory ∧
      s'.graph.hasEdge ⟨src, op.ctx_id, memory.ctx_id, .DATA_FLOW_EDGE_ORDER⟩
  write_new : ∀ e, s'.graph.hasEdge e → ¬s.graph.hasEdge e → e.type = .DATA_FLOW_EDGE_ORDER →
    ∃ m memory, op.Writes m ∧ writer m = some e.source ∧ s.memories.find? m = some memory ∧
      e = ⟨e.source, op.ctx_id, memory.ctx_id, .DATA_FLOW_EDGE_ORDER⟩
  last : ∀ m, op.Writes m → REDSHOW_MEMORY_HOST < m → s'.op_node.find? m = some op.ctx_id

/-- A memcpy inside one object makes no difference to the edges: its own context wrote the object
last, or both the edge from the last writer and the edge from itself were there before. -/
def SelfCopyHarmless (writer : ℕ → Option ℤ) (s : DataFlow) : Operation → Prop
  | .memcpy op => op.src_memory_op_id = op.dst_memory_op_id →
      REDSHOW_MEMORY_HOST < op.dst_memory_op_id →
      writer op.dst_memory_op_id = some op.ctx_id ∨
        ∃ src memory, writer op.dst_memory_op_id = some src ∧
          s.memories.find? op.dst_memory_op_id = some memory ∧
          s.graph.hasEdge ⟨src, op.ctx_id, memory.ctx_id, .DATA_FLOW_EDGE_READ⟩ ∧
          s.graph.hasEdge ⟨op.ctx_id, op.ctx_id, memory.ctx_id, .DATA_FLOW_EDGE_READ⟩
  | _ => True

/-! ## What the link functions do -/

section

variable {env : Env} {device_mem : ByteMem} {s s' : DataFlow}

@[simp] theorem hasEdge_linkCtxNode (src dst mem_ctx_id : ℤ) (type : EdgeType) (e : EdgeIndex) :
    (linkCtxNode s src dst mem_ctx_id type).graph.hasEdge e ↔
      e = ⟨src, dst, mem_ctx_id, type⟩ ∨ s.graph.hasEdge e :=
  Graph.hasEdge_addEdge _ _ _

@[simp] theorem op_node_linkCtxNode (src dst mem_ctx_id : ℤ) (type : EdgeType) :
    (linkCtxNode s src dst mem_ctx_id type).op_node = s.op_node := rfl

@[simp] theorem memories_linkCtxNode (src dst mem_ctx_id : ℤ) (type : EdgeType) :
    (linkCtxNode s src dst mem_ctx_id type).memories = s.memories := rfl

@[simp] theorem hasEdge_linkOpNode (op_id : ℕ) (ctx_id mem_ctx_id : ℤ) (e : EdgeIndex) :
    (linkOpNode s op_id ctx_id mem_ctx_id).graph.hasEdge e ↔
      (∃ src, s.op_node.find? op_id = some src ∧
        e = ⟨src, ctx_id, mem_ctx_id, .DATA_FLOW_EDGE_ORDER⟩) ∨ s.graph.hasEdge e := by
  unfold linkOpNode
  cases s.op_node.find? op_id with
  | none => simp
  | some src => simp

@[simp] theorem op_node_linkOpNode (op_id : ℕ) (ctx_id mem_ctx_id : ℤ) :
    (linkOpNode s op_id ctx_id mem_ctx_id).op_node = s.op_node := by
  unfold linkOpNode
  split <;> rfl

@[simp] theorem memories_linkOpNode (op_id : ℕ) (ctx_id mem_ctx_id : ℤ) :
    (linkOpNode s op_id ctx_id mem_ctx_id).memories = s.memories := by
  unfold linkOpNode
  split <;> rfl

@[simp] theorem hasEdge_updateEdgeMetrics (src dst mem_ctx_id : ℤ)
    (redundancy overwrite count : ℕ) (type : EdgeType) (e : EdgeIndex) :
    (updateEdgeMetrics s src dst mem_ctx_id redundancy overwrite count type).graph.hasEdge e =
      s.graph.hasEdge e := by
  unfold updateEdgeMetrics
  simp only
  split
  · next edge hedge => exact Graph.hasEdge_setEdge hedge _ e
  · rfl

@[simp] theorem op_node_updateEdgeMetrics (src dst mem_ctx_id : ℤ)
    (redundancy overwrite count : ℕ) (type : EdgeType) :
    (updateEdgeMetrics s src dst mem_ctx_id redundancy overwrite count type).op_node =
      s.op_node := by
  unfold updateEdgeMetrics
  simp only
  split <;> rfl

@[simp] theorem memories_updateEdgeMetrics (src dst mem_ctx_id : ℤ)
    (redundancy overwrite count : ℕ) (type : EdgeType) :
    (updateEdgeMetrics s src dst mem_ctx_id redundancy overwrite count type).memories =
      s.memories := by
  unfold updateEdgeMetrics
  simp only
  split <;> rfl

@[simp] theorem hasEdge_updateOpMetrics (op_id : ℕ) (ctx_id mem_ctx_id : ℤ)
    (redundancy overwrite count : ℕ) (type : EdgeType) (e : EdgeIndex) :
    (updateOpMetrics s op_id ctx_id mem_ctx_id redundancy overwrite count type).graph.hasEdge e =
      s.graph.hasEdge e := by
  unfold updateOpMetrics
  split
  · exact hasEdge_updateEdgeMetrics _ _ _ _ _ _ _ _
  · rfl

@[simp] theorem op_node_updateOpMetrics (op_id : ℕ) (ctx_id mem_ctx_id : ℤ)
    (redundancy overwrite count : ℕ) (type : EdgeType) :
    (updateOpMetrics s op_id ctx_id mem_ctx_id redundancy overwrite count type).op_node =
      s.op_node := by
  unfold updateOpMetrics
  split
  · exact op_node_updateEdgeMetrics _ _ _ _ _ _ _
  · rfl

@[simp] theorem memories_updateOpMetrics (op_id : ℕ) (ctx_id mem_ctx_id : ℤ)
    (redundancy overwrite count : ℕ) (type : EdgeType) :
    (updateOpMetrics s op_id ctx_id mem_ctx_id redundancy overwrite count type).memories =
      s.memories := by
  unfold updateOpMetrics
  split
  · exact memories_updateEdgeMetrics _ _ _ _ _ _ _
  · rfl

@[simp] theorem graph_updateOpNode (op_id : ℕ) (ctx_id : ℤ) :
    (updateOpNode s op_id ctx_id).graph = s.graph := by
  unfold updateOpNode
  split_ifs <;> rfl

@[simp] theorem memories_updateOpNode (op_id : ℕ) (ctx_id : ℤ) :
    (updateOpNode s op_id ctx_id).memories = s.memories := by
  unfold updateOpNode
  split_ifs <;> rfl

@[simp] theorem find?_updateOpNode (op_id : ℕ) (ctx_id : ℤ) (m : ℕ) :
    (updateOpNode s op_id ctx_id).op_node.find? m =
      if m = op_id ∧ REDSHOW_MEMORY_HOST < m then some ctx_id else s.op_node.find? m := by
  unfold updateOpNode
  by_cases htracked : REDSHOW_MEMORY_HOST < op_id
  · rw [if_pos htracked, OrderedMap.find?_set]
    by_cases hm : m = op_id
    · rw [if_pos hm, if_pos ⟨hm, hm ▸ htracked⟩]
    · rw [if_neg hm, if_neg fun h => hm h.1]
  · rw [if_neg htracked, if_neg fun h : m = op_id ∧ _ => htracked (h.1 ▸ h.2)]

@[simp] theorem graph_hashNode (ctx_id : ℤ) (start len : ℕ) :
    (hashNode env s ctx_id start len).graph = s.graph := by
  unfold hashNode
  split_ifs <;> rfl

@[simp] theorem op_node_hashNode (ctx_id : ℤ) (start len : ℕ) :
    (hashNode env s ctx_id start len).op_node = s.op_node := by
  unfold hashNode
  split_ifs <;> rfl

@[simp] theorem memories_hashNode (ctx_id : ℤ) (start len : ℕ) :
    (hashNode env s ctx_id start len).memories = s.memories := by
  unfold hashNode
  split_ifs <;> rfl

/-! ## What the callbacks link -/

/-- An edge for an access to a memory, from the context that stands at it in `_op_node`. -/
def LinkFrom (s : DataFlow) (ctx_id : ℤ) (type : EdgeType) (m : ℕ) (e : EdgeIndex) : Prop :=
  ∃ memory src, s.memories.find? m = some memory ∧ s.op_node.find? m = some src ∧
    e = ⟨src, ctx_id, memory.ctx_id, type⟩

/-- What an operation in a context links that reads some memories before it writes some. -/
structure Linked (ctx_id : ℤ) (reads writes : ℕ → Prop) (s s' : DataFlow) : Prop where
  memories : s'.memories = s.memories
  op_node : ∀ m, (writes m ∧ REDSHOW_MEMORY_HOST < m → s'.op_node.find? m = some ctx_id) ∧
    (¬(writes m ∧ REDSHOW_MEMORY_HOST < m) → s'.op_node.find? m = s.op_node.find? m)
  read : ∀ m, reads m → ∃ e, LinkFrom s ctx_id .DATA_FLOW_EDGE_READ m e
  write : ∀ m, writes m → (s.memories.find? m).isSome
  edge : ∀ e, e.type ≠ .DATA_FLOW_EDGE_SINK → (s'.graph.hasEdge e ↔ s.graph.hasEdge e ∨
    (∃ m, reads m ∧ LinkFrom s ctx_id .DATA_FLOW_EDGE_READ m e) ∨
      ∃ m, writes m ∧ LinkFrom s ctx_id .DATA_FLOW_EDGE_ORDER m e)

/-- A memory stands under its id. -/
def Keyed (s : DataFlow) : Prop :=
  ∀ m memory, s.memories.find? m = some memory → memory.op_id = m

/-- An operation that accesses nothing. -/
theorem Linked.refl (s : DataFlow) (ctx_id : ℤ) :
    Linked ctx_id (fun _ => False) (fun _ => False) s s where
  memories := rfl
  op_node m := ⟨fun h => absurd h.1 id, fun _ => rfl⟩
  read m h := absurd h id
  write m h := absurd h id
  edge e _ := by simp

/-- An access after others, which reads no memory that they wrote and writes none twice. -/
theorem Linked.trans {ctx_id : ℤ} {reads writes reads' writes' : ℕ → Prop} {s₁ s₂ s₃ : DataFlow}
    (h₁ : Linked ctx_id reads writes s₁ s₂) (h₂ : Linked ctx_id reads' writes' s₂ s₃)
    (hread : ∀ m, reads' m → ¬(writes m ∧ REDSHOW_MEMORY_HOST < m))
    (hwrite : ∀ m, writes' m → ¬(writes m ∧ REDSHOW_MEMORY_HOST < m)) :
    Linked ctx_id (fun m => reads m ∨ reads' m) (fun m => writes m ∨ writes' m) s₁ s₃ := by
  -- The later accesses find the writers from before the first ones.
  have hlink : ∀ m type e, ¬(writes m ∧ REDSHOW_MEMORY_HOST < m) →
      (LinkFrom s₂ ctx_id type m e ↔ LinkFrom s₁ ctx_id type m e) := by
    intro m type e hm
    unfold LinkFrom
    rw [h₁.memories, (h₁.op_node m).2 hm]
  refine ⟨h₂.memories.trans h₁.memories, fun m => ⟨fun hm => ?_, fun hm => ?_⟩, fun m hm => ?_,
    fun m hm => ?_, fun e he => ?_⟩
  · by_cases hlater : writes' m
    · exact (h₂.op_node m).1 ⟨hlater, hm.2⟩
    · rw [(h₂.op_node m).2 fun h => hlater h.1]
      exact (h₁.op_node m).1 ⟨hm.1.resolve_right hlater, hm.2⟩
  · rw [(h₂.op_node m).2 fun h => hm ⟨.inr h.1, h.2⟩, (h₁.op_node m).2 fun h => hm ⟨.inl h.1, h.2⟩]
  · rcases hm with hm | hm
    · exact h₁.read m hm
    · obtain ⟨e, he⟩ := h₂.read m hm
      exact ⟨e, (hlink m _ e (hread m hm)).1 he⟩
  · rcases hm with hm | hm
    · exact h₁.write m hm
    · rw [← h₁.memories]
      exact h₂.write m hm
  · have hreads : (∃ m, reads' m ∧ LinkFrom s₂ ctx_id .DATA_FLOW_EDGE_READ m e) ↔
        ∃ m, reads' m ∧ LinkFrom s₁ ctx_id .DATA_FLOW_EDGE_READ m e :=
      exists_congr fun m => and_congr_right fun hm => hlink m _ e (hread m hm)
    have hwrites : (∃ m, writes' m ∧ LinkFrom s₂ ctx_id .DATA_FLOW_EDGE_ORDER m e) ↔
        ∃ m, writes' m ∧ LinkFrom s₁ ctx_id .DATA_FLOW_EDGE_ORDER m e :=
      exists_congr fun m => and_congr_right fun hm => hlink m _ e (hwrite m hm)
    rw [h₂.edge e he, h₁.edge e he, hreads, hwrites]
    simp only [or_and_right, exists_or]
    rw [or_assoc, or_or_or_comm]

/-- The same accesses, said in another way. -/
theorem Linked.congr {ctx_id : ℤ} {reads writes reads' writes' : ℕ → Prop}
    (h : Linked ctx_id reads writes s s') (hreads : ∀ m, reads' m ↔ reads m)
    (hwrites : ∀ m, writes' m ↔ writes m) : Linked ctx_id reads' writes' s s' := by
  obtain rfl : reads' = reads := funext fun m => propext (hreads m)
  obtain rfl : writes' = writes := funext fun m => propext (hwrites m)
  exact h

/-- A read of a memory that is found under its id. -/
theorem linked_read (ctx_id : ℤ) {src : ℤ} {m : ℕ} {memory : Memory}
    (hmemory : s.memories.find? m = some memory) (hsrc : s.op_node.find? m = some src) :
    Linked ctx_id (fun m' => m' = m) (fun _ => False) s
      (linkCtxNode s src ctx_id memory.ctx_id .DATA_FLOW_EDGE_READ) where
  memories := rfl
  op_node m := ⟨fun h => absurd h.1 id, fun _ => rfl⟩
  read m' hm' := hm' ▸ ⟨_, memory, src, hmemory, hsrc, rfl⟩
  write m h := absurd h id
  edge e _ := by
    simp only [hasEdge_linkCtxNode, exists_eq_left, false_and, exists_const, or_false]
    rw [or_comm]
    refine or_congr_right ⟨fun he => ⟨memory, src, hmemory, hsrc, he⟩, ?_⟩
    rintro ⟨memory', src', hmemory', hsrc', rfl⟩
    rw [Option.some.inj (hmemory'.symm.trans hmemory), Option.some.inj (hsrc'.symm.trans hsrc)]

/-- A write of a memory that is found under its id. -/
theorem linked_write (ctx_id : ℤ) {m : ℕ} {memory : Memory}
    (hmemory : s.memories.find? m = some memory) :
    Linked ctx_id (fun _ => False) (fun m' => m' = m) s
      (updateOpNode (linkOpNode s m ctx_id memory.ctx_id) m ctx_id) where
  memories := by simp
  op_node m' := by
    rw [find?_updateOpNode, op_node_linkOpNode]
    exact ⟨fun h => if_pos h, fun h => if_neg h⟩
  read m h := absurd h id
  write m' hm' := by rw [hm', hmemory]; rfl
  edge e _ := by
    simp only [graph_updateOpNode, hasEdge_linkOpNode, exists_eq_left, false_and, exists_const,
      false_or]
    rw [or_comm]
    refine or_congr_right ⟨?_, ?_⟩
    · rintro ⟨src, hsrc, rfl⟩
      exact ⟨memory, src, hmemory, hsrc, rfl⟩
    · rintro ⟨memory', src, hmemory', hsrc, rfl⟩
      rw [Option.some.inj (hmemory'.symm.trans hmemory)]
      exact ⟨src, hsrc, rfl⟩

/-- The links do not depend on metrics, hashes and the bytes of the host. -/
theorem Linked.of_eq {ctx_id : ℤ} {reads writes : ℕ → Prop} {s₁ : DataFlow}
    (h : Linked ctx_id reads writes s s₁) (hmemories : s'.memories = s₁.memories)
    (hop : ∀ m, s'.op_node.find? m = s₁.op_node.find? m)
    (hedge : ∀ e, s'.graph.hasEdge e ↔ s₁.graph.hasEdge e) : Linked ctx_id reads writes s s' where
  memories := hmemories.trans h.memories
  op_node m := by
    rw [hop]
    exact h.op_node m
  read := h.read
  write := h.write
  edge e he := by
    rw [hedge]
    exact h.edge e he

/-- The links from a state with the same memories, last writers and edges but for sinks. -/
theorem Linked.of_eq_left {ctx_id : ℤ} {reads writes : ℕ → Prop} {s₁ : DataFlow}
    (h : Linked ctx_id reads writes s₁ s') (hmemories : s₁.memories = s.memories)
    (hop : s₁.op_node = s.op_node) (hgraph : ∀ e : EdgeIndex, e.type ≠ .DATA_FLOW_EDGE_SINK →
      (s₁.graph.hasEdge e ↔ s.graph.hasEdge e)) : Linked ctx_id reads writes s s' where
  memories := h.memories.trans hmemories
  op_node m := by
    rw [← hop]
    exact h.op_node m
  read m hm := by
    obtain ⟨e, memory, src, hmemory, hsrc, he⟩ := h.read m hm
    exact ⟨e, memory, src, hmemories ▸ hmemory, hop ▸ hsrc, he⟩
  write m hm := by
    rw [← hmemories]
    exact h.write m hm
  edge e he := by
    have hsame := h.edge e he
    rw [hgraph e he] at hsame
    simp only [LinkFrom, hmemories, hop] at hsame
    exact hsame

/-- The turn for the ranges read of an object. -/
theorem linked_readMemory {op : Kernel} {mem_iter : ℕ × RangeSet} (hkeyed : Keyed s)
    (h : readMemory op s mem_iter = some s') :
    Linked op.ctx_id (fun m => m = mem_iter.1 ∧ REDSHOW_MEMORY_HOST < m) (fun _ => False) s s' := by
  obtain ⟨memory, hmemory, h⟩ := Option.bind_eq_some_iff.1 h
  have hkey := hkeyed _ _ hmemory
  by_cases htracked : REDSHOW_MEMORY_HOST < memory.op_id
  · rw [if_pos htracked] at h
    obtain ⟨src, hsrc, rfl⟩ := Option.map_eq_some_iff.1 h
    rw [hkey] at hsrc htracked
    have hlinked := (linked_read op.ctx_id hmemory hsrc).congr
      (fun m => and_iff_left_of_imp fun hm : m = mem_iter.1 => hm ▸ htracked) fun _ => Iff.rfl
    exact hlinked.of_eq (by simp) (by simp) (by simp)
  · rw [if_neg htracked] at h
    cases h
    refine (Linked.refl s op.ctx_id).congr (fun m => iff_of_false ?_ id) fun _ => Iff.rfl
    rintro ⟨rfl, hm⟩
    exact htracked (hkey ▸ hm)

/-- The turn for the ranges written of an object. -/
theorem linked_writeMemory {op : Kernel} {mem_iter : ℕ × RangeSet} (hkeyed : Keyed s)
    (h : writeMemory env device_mem op s mem_iter = some s') :
    Linked op.ctx_id (fun _ => False) (fun m => m = mem_iter.1 ∧ REDSHOW_MEMORY_HOST < m) s s' := by
  obtain ⟨memory, hmemory, h⟩ := Option.bind_eq_some_iff.1 h
  have hkey := hkeyed _ _ hmemory
  by_cases htracked : REDSHOW_MEMORY_HOST < memory.op_id
  · rw [if_pos htracked] at h
    obtain ⟨res, -, rfl⟩ := Option.map_eq_some_iff.1 h
    have hcopied : ({ s with host := res.1 } : DataFlow).memories.find? mem_iter.1 = some memory :=
      hmemory
    have hlinked := (linked_write op.ctx_id hcopied).of_eq_left (s := s) rfl rfl fun _ _ => Iff.rfl
    have hcongr := hlinked.congr (fun _ => Iff.rfl)
      fun m => and_iff_left_of_imp fun hm : m = mem_iter.1 => hm ▸ hkey ▸ htracked
    refine hcongr.of_eq ?_ ?_ ?_
    · simp only
      split_ifs <;> simp
    · intro m
      simp only [hkey]
      split_ifs <;> simp
    · intro e
      simp only [hkey]
      split_ifs <;> simp
  · rw [if_neg htracked] at h
    cases h
    refine (Linked.refl s op.ctx_id).congr (fun _ => Iff.rfl) fun m => iff_of_false ?_ id
    rintro ⟨rfl, hm⟩
    exact htracked (hkey ▸ hm)

/-- The loop over the objects read. -/
theorem linked_readMemories {op : Kernel} {l : List (ℕ × RangeSet)} (hkeyed : Keyed s)
    (h : l.foldlM (readMemory op) s = some s') :
    Linked op.ctx_id (fun m => m ∈ l.map Prod.fst ∧ REDSHOW_MEMORY_HOST < m) (fun _ => False)
      s s' := by
  induction l generalizing s with
  | nil =>
    cases h
    exact (Linked.refl _ _).congr (fun m => iff_of_false (by simp) id) fun _ => Iff.rfl
  | cons mem_iter l ih =>
    obtain ⟨s₁, h₁, h⟩ := Option.bind_eq_some_iff.1 h
    have hfirst := linked_readMemory hkeyed h₁
    have hrest := ih (fun m memory hm => hkeyed m memory (hfirst.memories ▸ hm)) h
    refine (hfirst.trans hrest (fun _ _ hm => hm.1) fun _ hm => absurd hm id).congr (fun m => ?_)
      (by simp)
    rw [List.map_cons, List.mem_cons, or_and_right]

/-- The loop over the objects written, each of which comes once. -/
theorem linked_writeMemories {op : Kernel} {l : List (ℕ × RangeSet)} (hkeyed : Keyed s)
    (hnodup : (l.map Prod.fst).Nodup)
    (h : l.foldlM (writeMemory env device_mem op) s = some s') :
    Linked op.ctx_id (fun _ => False) (fun m => m ∈ l.map Prod.fst ∧ REDSHOW_MEMORY_HOST < m)
      s s' := by
  induction l generalizing s with
  | nil =>
    cases h
    exact (Linked.refl _ _).congr (fun _ => Iff.rfl) fun m => iff_of_false (by simp) id
  | cons mem_iter l ih =>
    obtain ⟨s₁, h₁, h⟩ := Option.bind_eq_some_iff.1 h
    obtain ⟨hnew, hnodup⟩ := List.nodup_cons.1 hnodup
    have hfirst := linked_writeMemory hkeyed h₁
    have hrest := ih (fun m memory hm => hkeyed m memory (hfirst.memories ▸ hm)) hnodup h
    refine (hfirst.trans hrest (fun _ hm => absurd hm id) fun m hm hm' => ?_).congr (by simp)
      fun m => ?_
    · exact hnew (hm'.1.1 ▸ hm.1)
    · rw [List.map_cons, List.mem_cons, or_and_right]

/-- A memory stands in a map if and only if it is one of its keys. -/
theorem isSome_iff_mem_keys {m : OrderedMap ℕ RangeSet} {k : ℕ} :
    (m.find? k).isSome ↔ k ∈ m.toList.map Prod.fst := by
  rw [Option.isSome_iff_exists, List.mem_map]
  constructor
  · rintro ⟨v, hv⟩
    exact ⟨_, (OrderedMap.find?_eq_some_iff _ _ _).1 hv, rfl⟩
  · rintro ⟨e, he, rfl⟩
    exact ⟨e.2, (OrderedMap.find?_eq_some_iff _ _ _).2 he⟩

/-- A kernel looks up the last writers of all that it reads, then those of all that it writes. -/
theorem linked_kernelOpCallback {op : Kernel} {trace : Option DataFlowTrace} (hkeyed : Keyed s)
    (h : kernelOpCallback env device_mem { s with trace := trace } op = some s') :
    Linked op.ctx_id (Operation.kernel op trace).Reads (Operation.kernel op trace).Writes s s' := by
  unfold kernelOpCallback at h
  cases trace with
  | none =>
    cases h
    exact (Linked.refl s _).of_eq rfl (fun _ => rfl) fun _ => Iff.rfl
  | some trace =>
    obtain ⟨s₁, hread, h⟩ := Option.bind_eq_some_iff.1 h
    obtain ⟨s₂, hwrite, rfl⟩ := Option.map_eq_some_iff.1 h
    have hreads := (linked_readMemories (s := { s with trace := some trace }) hkeyed
      hread).of_eq_left (s := s) rfl rfl fun _ _ => Iff.rfl
    have hwrites := linked_writeMemories
      (fun m memory hm => hkeyed m memory (hreads.memories ▸ hm)) trace.write_memory.nodup_keys
      hwrite
    have hboth : Linked op.ctx_id _ _ s { s₂ with trace := none } :=
      (hreads.trans hwrites (fun _ hm => absurd hm id) fun _ _ hm => hm.1).of_eq rfl
        (fun _ => rfl) fun _ => Iff.rfl
    refine hboth.congr (fun m => ?_) fun m => ?_
    · simp only [Operation.Reads, isSome_iff_mem_keys, or_false]
    · simp only [Operation.Writes, isSome_iff_mem_keys, false_or]

/-- A memset looks up the last writer of what it sets. -/
theorem linked_memsetOpCallback {op : ShadowMemset}
    (h : memsetOpCallback env s op = some s') :
    Linked op.ctx_id (Operation.memset op).Reads (Operation.memset op).Writes s s' := by
  obtain ⟨memory, hmemory, rfl⟩ := Option.map_eq_some_iff.1 h
  refine ((linked_write op.ctx_id hmemory).congr (fun _ => Iff.rfl) fun _ => eq_comm).of_eq ?_ ?_ ?_
  all_goals simp

/-- The part of a memcpy for the destination. -/
theorem linked_linkDst {op : ShadowMemcpy} {src_memory dst_memory : Memory} {redundancy : ℕ}
    (hdst : s.memories.find? op.dst_memory_op_id = some dst_memory)
    (h : linkDst s op src_memory dst_memory redundancy = some s') :
    Linked op.ctx_id (fun _ => False) (Operation.memcpy op).Writes s s' := by
  unfold linkDst at h
  simp only at h
  split_ifs at h with hsink
  · -- A sink edge is no edge of a read or a write.
    obtain ⟨dst_ctx_id, -, rfl⟩ := Option.map_eq_some_iff.1 h
    have hnone := (Linked.refl (updateEdgeMetrics (linkCtxNode s op.ctx_id dst_ctx_id
      src_memory.ctx_id .DATA_FLOW_EDGE_SINK) op.ctx_id dst_ctx_id src_memory.ctx_id redundancy
      op.len (lenOf dst_memory op) .DATA_FLOW_EDGE_SINK) op.ctx_id).of_eq_left (s := s)
      (by simp) (by simp) fun e he => by
        simp only [hasEdge_updateEdgeMetrics, hasEdge_linkCtxNode]
        refine or_iff_right ?_
        rintro rfl
        exact he rfl
    exact hnone.congr (fun _ => Iff.rfl) fun m => iff_of_false (fun hm => hm.2 hsink) id
  · cases h
    have hwrites : ∀ m, (Operation.memcpy op).Writes m ↔ m = op.dst_memory_op_id := fun m =>
      ⟨fun hm => hm.1.symm, fun hm => ⟨hm.symm, hsink⟩⟩
    have hlinked := (linked_write op.ctx_id hdst).congr (fun _ => Iff.rfl) hwrites
    exact hlinked.of_eq (by simp) (by simp) (by simp)

/-- The part of a memcpy for the source. -/
theorem linked_linkSrc {op : ShadowMemcpy} {src_memory : Memory}
    (hsrc : s.memories.find? op.src_memory_op_id = some src_memory)
    (h : linkSrc s op src_memory = some s') :
    Linked op.ctx_id (Operation.memcpy op).Reads (fun _ => False) s s' := by
  obtain ⟨src_ctx_id, hctx, h⟩ := Option.bind_eq_some_iff.1 h
  obtain ⟨_, -, rfl⟩ := Option.map_eq_some_iff.1 h
  have hlinked := linked_read op.ctx_id hsrc hctx
  refine (hlinked.congr (fun _ => eq_comm) fun _ => Iff.rfl).of_eq ?_ ?_ ?_
  all_goals simp

/-- A memcpy looks up the last writer of its source in the state after it has written its
destination. -/
theorem linked_memcpyOpCallback {op : ShadowMemcpy}
    (h : memcpyOpCallback env s op = some s') : ∃ s₁,
    Linked op.ctx_id (fun _ => False) (Operation.memcpy op).Writes s s₁ ∧
      Linked op.ctx_id (Operation.memcpy op).Reads (fun _ => False) s₁ s' := by
  obtain ⟨src_memory, hsrc, h⟩ := Option.bind_eq_some_iff.1 h
  obtain ⟨dst_memory, hdst, h⟩ := Option.bind_eq_some_iff.1 h
  obtain ⟨s₁, h₁, h⟩ := Option.bind_eq_some_iff.1 h
  obtain ⟨s₂, h₂, rfl⟩ := Option.map_eq_some_iff.1 h
  have hfirst := linked_linkDst hdst h₁
  have hsecond := linked_linkSrc (hfirst.memories ▸ hsrc) h₂
  exact ⟨s₁, hfirst, hsecond.of_eq (by simp) (by simp) (by simp)⟩

/-- What an operation links, when it reads before it writes, is right. -/
theorem Linked.linksRight {writer : ℕ → Option ℤ} {op : Operation}
    (h : Linked op.ctx_id op.Reads op.Writes s s') (hwriter : ∀ m, s.op_node.find? m = writer m) :
    LinksRight writer op s s' where
  read m hm := by
    obtain ⟨e, memory, src, hmemory, hsrc, rfl⟩ := h.read m hm
    refine ⟨src, memory, by rw [← hwriter, hsrc], hmemory, ?_⟩
    exact (h.edge _ (by simp)).2 (.inr (.inl ⟨m, hm, memory, src, hmemory, hsrc, rfl⟩))
  read_new e he hnew htype := by
    rcases (h.edge e (by simp [htype])).1 he with hold | ⟨m, hm, memory, src, hmemory, hsrc, rfl⟩ |
      ⟨m, -, memory, src, -, -, rfl⟩
    · exact absurd hold hnew
    · exact ⟨m, memory, hm, by rw [← hwriter, hsrc], hmemory, rfl⟩
    · cases htype
  write m hm src hsrc := by
    obtain ⟨memory, hmemory⟩ := Option.isSome_iff_exists.1 (h.write m hm)
    rw [← hwriter] at hsrc
    refine ⟨memory, hmemory, ?_⟩
    exact (h.edge _ (by simp)).2 (.inr (.inr ⟨m, hm, memory, src, hmemory, hsrc, rfl⟩))
  write_new e he hnew htype := by
    rcases (h.edge e (by simp [htype])).1 he with hold | ⟨m, -, memory, src, -, -, rfl⟩ |
      ⟨m, hm, memory, src, hmemory, hsrc, rfl⟩
    · exact absurd hold hnew
    · cases htype
    · exact ⟨m, memory, hm, by rw [← hwriter, hsrc], hmemory, rfl⟩
  last m hm htracked := (h.op_node m).1 ⟨hm, htracked⟩

/-- A memcpy to an object that is tracked is no sink. -/
theorem not_isSink_of_tracked {op : ShadowMemcpy}
    (htracked : REDSHOW_MEMORY_HOST < op.dst_memory_op_id) : ¬op.IsSink := by
  unfold ShadowMemcpy.IsSink REDSHOW_MEMORY_UVM
  unfold REDSHOW_MEMORY_HOST at htracked ⊢
  omega

/-- The edges of a memcpy inside one object: the read starts at the memcpy itself. -/
theorem hasEdge_self {op : ShadowMemcpy} {s₁ : DataFlow}
    (h₁ : Linked op.ctx_id (fun _ => False) (Operation.memcpy op).Writes s s₁)
    (h₂ : Linked op.ctx_id (Operation.memcpy op).Reads (fun _ => False) s₁ s')
    (hself : op.src_memory_op_id = op.dst_memory_op_id)
    (htracked : REDSHOW_MEMORY_HOST < op.dst_memory_op_id) {memory : Memory}
    (hmemory : s.memories.find? op.dst_memory_op_id = some memory) (e : EdgeIndex)
    (he : e.type ≠ .DATA_FLOW_EDGE_SINK) : s'.graph.hasEdge e ↔ s.graph.hasEdge e ∨
      LinkFrom s op.ctx_id .DATA_FLOW_EDGE_ORDER op.dst_memory_op_id e ∨
        e = ⟨op.ctx_id, op.ctx_id, memory.ctx_id, .DATA_FLOW_EDGE_READ⟩ := by
  have hwrite : (Operation.memcpy op).Writes op.dst_memory_op_id :=
    ⟨rfl, not_isSink_of_tracked htracked⟩
  have hop := (h₁.op_node _).1 ⟨hwrite, htracked⟩
  rw [h₂.edge e he, h₁.edge e he, or_assoc]
  refine or_congr_right ?_
  simp only [false_and, exists_const, false_or, or_false]
  refine or_congr ⟨?_, fun hlink => ⟨_, hwrite, hlink⟩⟩ ⟨?_, ?_⟩
  · rintro ⟨m, ⟨rfl, -⟩, hlink⟩
    exact hlink
  · rintro ⟨m, rfl, memory', src, hmemory', hsrc, rfl⟩
    rw [hself] at hmemory' hsrc
    rw [h₁.memories, hmemory, Option.some.injEq] at hmemory'
    rw [hop, Option.some.injEq] at hsrc
    rw [hsrc, hmemory']
  · rintro rfl
    exact ⟨_, hself, memory, _, h₁.memories ▸ hmemory, hop, rfl⟩

section

variable {writer : ℕ → Option ℤ} {op : ShadowMemcpy} {s₁ : DataFlow} {memory : Memory} {src : ℤ}

/-- The one READ edge that a memcpy inside one object adds. -/
theorem hasEdge_self_read
    (h₁ : Linked op.ctx_id (fun _ => False) (Operation.memcpy op).Writes s s₁)
    (h₂ : Linked op.ctx_id (Operation.memcpy op).Reads (fun _ => False) s₁ s')
    (hself : op.src_memory_op_id = op.dst_memory_op_id)
    (htracked : REDSHOW_MEMORY_HOST < op.dst_memory_op_id)
    (hmemory : s.memories.find? op.dst_memory_op_id = some memory) (e : EdgeIndex)
    (htype : e.type = .DATA_FLOW_EDGE_READ) : s'.graph.hasEdge e ↔
      s.graph.hasEdge e ∨ e = ⟨op.ctx_id, op.ctx_id, memory.ctx_id, .DATA_FLOW_EDGE_READ⟩ := by
  rw [hasEdge_self h₁ h₂ hself htracked hmemory e (by simp [htype])]
  refine or_congr_right (or_iff_right ?_)
  rintro ⟨_, _, -, -, rfl⟩
  cases htype

/-- Where the edges of a memcpy inside one object are right, it makes no difference that its read
starts at the memcpy itself. -/
theorem LinksRight.selfCopyHarmless (hright : LinksRight writer (.memcpy op) s s')
    (hread : ∀ e : EdgeIndex, e.type = .DATA_FLOW_EDGE_READ → (s'.graph.hasEdge e ↔
      s.graph.hasEdge e ∨ e = ⟨op.ctx_id, op.ctx_id, memory.ctx_id, .DATA_FLOW_EDGE_READ⟩))
    (hmemory : s.memories.find? op.dst_memory_op_id = some memory)
    (hsrc : writer op.dst_memory_op_id = some src) :
    SelfCopyHarmless writer s (.memcpy op) := by
  intro hself _
  by_cases hctx : src = op.ctx_id
  · exact .inl (hctx ▸ hsrc)
  refine .inr ⟨src, memory, hsrc, hmemory, ?_, ?_⟩
  · obtain ⟨src', memory', hsrc', hmemory', hhas⟩ := hright.read op.src_memory_op_id rfl
    rw [hself] at hsrc' hmemory'
    rw [hsrc, Option.some.injEq] at hsrc'
    rw [hmemory, Option.some.injEq] at hmemory'
    rw [← hsrc', ← hmemory'] at hhas
    refine ((hread _ rfl).1 hhas).resolve_right fun heq => hctx ?_
    exact congrArg EdgeIndex.source heq
  · by_contra hnew
    obtain ⟨m, memory', hm, hsrc', -, -⟩ := hright.read_new _ ((hread _ rfl).2 (.inr rfl)) hnew rfl
    have hm : op.src_memory_op_id = m := hm
    rw [← hm, hself, hsrc, Option.some.injEq] at hsrc'
    exact hctx hsrc'

/-- The edges of a memcpy inside one object are right exactly if it makes no difference that the
read starts at the memcpy itself. -/
theorem linksRight_self_iff
    (h₁ : Linked op.ctx_id (fun _ => False) (Operation.memcpy op).Writes s s₁)
    (h₂ : Linked op.ctx_id (Operation.memcpy op).Reads (fun _ => False) s₁ s')
    (hwriter : ∀ m, s.op_node.find? m = writer m)
    (hself : op.src_memory_op_id = op.dst_memory_op_id)
    (htracked : REDSHOW_MEMORY_HOST < op.dst_memory_op_id)
    (hknown : (s.op_node.find? op.dst_memory_op_id).isSome) :
    LinksRight writer (.memcpy op) s s' ↔
      SelfCopyHarmless writer s (.memcpy op) := by
  have hwrite : (Operation.memcpy op).Writes op.dst_memory_op_id :=
    ⟨rfl, not_isSink_of_tracked htracked⟩
  obtain ⟨memory, hmemory⟩ := Option.isSome_iff_exists.1 (h₁.write _ hwrite)
  obtain ⟨src, hsrc⟩ := Option.isSome_iff_exists.1 hknown
  have hedge := hasEdge_self h₁ h₂ hself htracked hmemory
  have hread := hasEdge_self_read h₁ h₂ hself htracked hmemory
  rw [hwriter] at hsrc
  refine ⟨fun hright => hright.selfCopyHarmless hread hmemory hsrc, fun hharmless => ?_⟩
  have hcases := hharmless hself htracked
  refine ⟨fun m hm => ?_, fun e he hnew htype => ?_, fun m hm src' hsrc' => ?_,
    fun e he hnew htype => ?_, fun m hm _ => ?_⟩
  · obtain rfl : op.src_memory_op_id = m := hm
    rw [hself]
    refine ⟨src, memory, hsrc, hmemory, (hread _ rfl).2 ?_⟩
    rcases hcases with hctx | ⟨src', memory', hsrc', hmemory', hfrom, -⟩
    · rw [hsrc, Option.some.injEq] at hctx
      exact .inr (by rw [hctx]; rfl)
    · rw [hsrc, Option.some.injEq] at hsrc'
      rw [hmemory, Option.some.injEq] at hmemory'
      exact .inl (by rwa [hsrc', hmemory'])
  · -- The one new edge is from the memcpy itself, which then was the last writer.
    obtain rfl := ((hread e htype).1 he).resolve_left hnew
    rcases hcases with hctx | ⟨_, memory', -, hmemory', -, hitself⟩
    · exact ⟨_, memory, hself, hctx, hmemory, rfl⟩
    · rw [hmemory, Option.some.injEq] at hmemory'
      exact absurd (hmemory' ▸ hitself) hnew
  · obtain rfl : op.dst_memory_op_id = m := hm.1
    refine ⟨memory, hmemory, (hedge _ (by simp)).2 (.inr (.inl ?_))⟩
    exact ⟨memory, src', hmemory, by rw [hwriter, hsrc'], rfl⟩
  · rcases (hedge e (by simp [htype])).1 he with hthere | ⟨memory', src', hmemory', hsrc', rfl⟩ |
      rfl
    · exact absurd hthere hnew
    · exact ⟨_, memory', hwrite, by rw [← hwriter, hsrc'], hmemory', rfl⟩
    · cases htype
  · obtain rfl : op.dst_memory_op_id = m := hm.1
    rw [(h₂.op_node _).2 fun hm => hm.1]
    exact (h₁.op_node _).1 ⟨hwrite, htracked⟩

end

/-- `_op_node` holds the last writers, memories stand under their ids, and an object has a last
writer. -/
structure Tracked (ops : List Operation) (s : DataFlow) : Prop where
  writer : ∀ m, s.op_node.find? m = lastWriter ops m
  keyed : Keyed s
  known : ∀ m memory, s.memories.find? m = some memory → REDSHOW_MEMORY_HOST < m →
    (s.op_node.find? m).isSome

/-- The last writers after `init`. -/
theorem tracked_init (host : ByteMem) (read_trace_ignore data_flow_hash : Bool) :
    Tracked [] (init host read_trace_ignore data_flow_hash) := by
  -- The entries of the two maps, one by one.
  have hmemories : ∀ e ∈ (init host read_trace_ignore data_flow_hash).memories.toList,
      e.2.op_id = e.1 ∧ ¬REDSHOW_MEMORY_HOST < e.1 := by
    change ∀ e ∈ (init (fun _ => 0) false false).memories.toList, _
    decide +kernel
  refine ⟨fun m => ?_, fun m memory hm => ?_, fun m memory hm htracked => ?_⟩
  · change _ = specialMemories.lookup m
    simp only [init, specialMemories, List.foldl_cons, List.foldl_nil, OrderedMap.find?_set,
      OrderedMap.find?_empty, List.lookup_cons, List.lookup_nil, REDSHOW_MEMORY_SHARED,
      REDSHOW_MEMORY_LOCAL, REDSHOW_MEMORY_CONSTANT, REDSHOW_MEMORY_UVM, REDSHOW_MEMORY_HOST]
    by_cases hm : m ∈ [1, 2, 4, 5, 6]
    · simp only [List.mem_cons, List.not_mem_nil, or_false] at hm
      rcases hm with rfl | rfl | rfl | rfl | rfl <;> rfl
    · simp only [List.mem_cons, List.not_mem_nil, or_false, not_or] at hm
      obtain ⟨h₁, h₂, h₄, h₅, h₆⟩ := hm
      simp only [if_neg h₁, if_neg h₂, if_neg h₄, if_neg h₅, if_neg h₆, beq_eq_false_iff_ne.2 h₁,
        beq_eq_false_iff_ne.2 h₂, beq_eq_false_iff_ne.2 h₄, beq_eq_false_iff_ne.2 h₅,
        beq_eq_false_iff_ne.2 h₆]
  · exact (hmemories (m, memory) ((OrderedMap.find?_eq_some_iff _ _ _).1 hm)).1
  · exact absurd htracked (hmemories (m, memory) ((OrderedMap.find?_eq_some_iff _ _ _).1 hm)).2

/-- The last writers after an operation that links. -/
theorem Tracked.after_linked {ops : List Operation} {op : Operation} {reads : ℕ → Prop}
    (h : Tracked ops s) (hlinked : Linked op.ctx_id reads op.Writes s s')
    (halloc : ∀ m, ¬op.Allocates m) : Tracked (ops ++ [op]) s' := by
  have hproduces : ∀ m, op.Produces m ↔ op.Writes m ∧ REDSHOW_MEMORY_HOST < m := fun m => by
    simp only [Operation.Produces, halloc, or_false, and_comm]
  refine ⟨fun m => ?_, fun m memory hm => h.keyed m memory (hlinked.memories ▸ hm),
    fun m memory hm htracked => ?_⟩
  · rw [lastWriter_append]
    split_ifs with hm
    · exact (hlinked.op_node m).1 ((hproduces m).1 hm)
    · rw [(hlinked.op_node m).2 fun hw => hm ((hproduces m).2 hw)]
      exact h.writer m
  · by_cases hw : op.Writes m ∧ REDSHOW_MEMORY_HOST < m
    · rw [(hlinked.op_node m).1 hw]
      rfl
    · rw [(hlinked.op_node m).2 hw]
      exact h.known m memory (hlinked.memories ▸ hm) htracked

/-- The node of the context makes no link. -/
theorem Tracked.after_addCtxNode {ops : List Operation} (h : Tracked ops s) (op : Operation) :
    Tracked ops (addCtxNode s op) := by
  unfold addCtxNode
  split_ifs
  · exact h
  · exact ⟨h.writer, h.keyed, h.known⟩

/-- What one operation links: in one go, or, for a memcpy, first its write and then its read. -/
theorem linked_typeCallback (hkeyed : Keyed s) {op : Operation}
    (h : typeCallback env device_mem s op = some s') :
    (∃ memory, op = .memory memory ∧ s' = memoryOpCallback device_mem s memory) ∨
      (∃ copy, op = .memcpy copy ∧ ∃ s₁,
        Linked op.ctx_id (fun _ => False) op.Writes s s₁ ∧
          Linked op.ctx_id op.Reads (fun _ => False) s₁ s') ∨
      (∀ m, ¬op.Allocates m) ∧ (∀ copy, op ≠ .memcpy copy) ∧
        Linked op.ctx_id op.Reads op.Writes s s' := by
  cases op with
  | memory memory =>
    cases h
    exact .inl ⟨memory, rfl, rfl⟩
  | kernel op trace => exact .inr (.inr ⟨fun _ => id, by simp, linked_kernelOpCallback hkeyed h⟩)
  | memcpy op => exact .inr (.inl ⟨op, rfl, linked_memcpyOpCallback h⟩)
  | memset op => exact .inr (.inr ⟨fun _ => id, by simp, linked_memsetOpCallback h⟩)
  | memfree op =>
    cases h
    exact .inr (.inr ⟨fun _ => id, by simp, Linked.refl _ _⟩)

/-- An allocation stands under its id, with its context as the last writer. -/
theorem Tracked.after_memoryOpCallback {ops : List Operation} (h : Tracked ops s)
    (device_mem : ByteMem) (memory : Memory) :
    Tracked (ops ++ [.memory memory]) (memoryOpCallback device_mem s memory) := by
  refine ⟨fun m => ?_, fun m memory' hm => ?_, fun m memory' hm htracked => ?_⟩
  · change (updateOpNode s memory.op_id memory.ctx_id).op_node.find? m = _
    rw [find?_updateOpNode, lastWriter_append, h.writer]
    refine if_congr ?_ rfl rfl
    simp only [Operation.Produces, Operation.Writes, Operation.Allocates, false_or]
    rw [and_comm, eq_comm]
  · simp only [memoryOpCallback, memories_updateOpNode, OrderedMap.find?_emplace] at hm
    split_ifs at hm with hid
    · cases hold : s.memories.find? memory.op_id with
      | none =>
        rw [hold, Option.getD_none, Option.some.injEq] at hm
        rw [← hm, hid]
      | some old =>
        rw [hold, Option.getD_some, Option.some.injEq] at hm
        rw [← hm, hid]
        exact h.keyed _ _ hold
    · exact h.keyed m memory' hm
  · change ((updateOpNode s memory.op_id memory.ctx_id).op_node.find? m).isSome
    rw [find?_updateOpNode]
    split_ifs with hid
    · rfl
    · simp only [memoryOpCallback, memories_updateOpNode, OrderedMap.find?_emplace] at hm
      rw [if_neg fun h => hid ⟨h, htracked⟩] at hm
      exact h.known m memory' hm htracked

/-- The last writers after an operation. -/
theorem Tracked.after_opCallback {ops : List Operation} (h : Tracked ops s)
    {e : ByteMem × Operation} (hstep : opCallback env s e = some s') :
    Tracked (ops ++ [e.2]) s' := by
  obtain ⟨device_mem, op⟩ := e
  have hctx := h.after_addCtxNode op
  generalize hs₀ : addCtxNode s op = s₀ at hctx
  rw [opCallback, hs₀] at hstep
  rcases linked_typeCallback hctx.keyed hstep with ⟨memory, hop, rfl⟩ |
    ⟨copy, hop, s₁, h₁, h₂⟩ | ⟨halloc, -, hlinked⟩
  · rw [hop]
    exact hctx.after_memoryOpCallback device_mem memory
  · have hfirst := hctx.after_linked h₁ fun m => by rw [hop]; exact id
    refine ⟨fun m => ?_, fun m memory hm => hfirst.keyed m memory (h₂.memories ▸ hm),
      fun m memory hm htracked => ?_⟩
    · rw [(h₂.op_node m).2 fun hm => hm.1]
      exact hfirst.writer m
    · rw [(h₂.op_node m).2 fun hm => hm.1]
      exact hfirst.known m memory (h₂.memories ▸ hm) htracked
  · exact hctx.after_linked hlinked halloc

/-- The last writers after a run. -/
theorem Tracked.after_run {ops : List Operation} (h : Tracked ops s)
    {es : List (ByteMem × Operation)} (hrun : run (opCallback env) s es = some s') :
    Tracked (ops ++ es.map Prod.snd) s' := by
  induction es generalizing s ops with
  | nil =>
    cases hrun
    simpa using h
  | cons e es ih =>
    obtain ⟨s₁, h₁, hrun⟩ := Option.bind_eq_some_iff.1 hrun
    have hrest := ih (h.after_opCallback h₁) hrun
    rwa [List.append_assoc, List.singleton_append, ← List.map_cons] at hrest

/-- The node of the context changes no edge, no memory and no last writer. -/
theorem linksRight_addCtxNode_iff (writer : ℕ → Option ℤ) (s s' : DataFlow) (op : Operation) :
    (LinksRight writer op (addCtxNode s op) s' ↔ LinksRight writer op s s') ∧
      (SelfCopyHarmless writer (addCtxNode s op) op ↔ SelfCopyHarmless writer s op) := by
  have hedges : ∀ e, (addCtxNode s op).graph.hasEdge e = s.graph.hasEdge e := fun e => by
    unfold addCtxNode
    split_ifs <;> rfl
  have hmemories : (addCtxNode s op).memories = s.memories := by
    unfold addCtxNode
    split_ifs <;> rfl
  refine ⟨⟨?_, ?_⟩, ?_⟩
  · rintro ⟨h₁, h₂, h₃, h₄, h₅⟩
    simp only [hmemories, hedges] at h₁ h₂ h₃ h₄
    exact ⟨h₁, h₂, h₃, h₄, h₅⟩
  · rintro ⟨h₁, h₂, h₃, h₄, h₅⟩
    simp only [← hmemories, ← hedges] at h₁ h₂ h₃ h₄
    exact ⟨h₁, h₂, h₃, h₄, h₅⟩
  · cases op with
    | memcpy copy => simp only [SelfCopyHarmless, hmemories, hedges]
    | _ => exact Iff.rfl

/-- The edges of every operation of every run are right exactly if it is no memcpy inside one
object, unless such a memcpy makes no difference. -/
theorem linksRight_iff {host : ByteMem} {read_trace_ignore data_flow_hash : Bool}
    {es : List (ByteMem × Operation)} {e : ByteMem × Operation}
    (hrun : run (opCallback env) (init host read_trace_ignore data_flow_hash) es = some s)
    (hstep : opCallback env s e = some s') :
    LinksRight (lastWriter (es.map Prod.snd)) e.2 s s' ↔
      SelfCopyHarmless (lastWriter (es.map Prod.snd)) s e.2 := by
  have htracked := (tracked_init host read_trace_ignore data_flow_hash).after_run hrun
  rw [List.nil_append] at htracked
  generalize es.map Prod.snd = ops at htracked ⊢
  obtain ⟨device_mem, op⟩ := e
  have hctx := htracked.after_addCtxNode op
  obtain ⟨hright, hharmless⟩ := linksRight_addCtxNode_iff (lastWriter ops) s s' op
  rw [← hright, ← hharmless]
  change typeCallback env device_mem (addCtxNode s op) op = some s' at hstep
  generalize addCtxNode s op = s₀ at hctx hstep ⊢
  rcases linked_typeCallback hctx.keyed hstep with ⟨memory, rfl, rfl⟩ |
    ⟨copy, rfl, s₁, h₁, h₂⟩ | ⟨-, hcopy, hlinked⟩
  · -- An allocation has no edges.
    have hgraph : (memoryOpCallback device_mem s₀ memory).graph = s₀.graph := by
      simp [memoryOpCallback]
    refine iff_of_true ⟨fun m hm => absurd hm id, fun e he hnew => ?_, fun m hm => absurd hm id,
      fun e he hnew => ?_, fun m hm => absurd hm id⟩ trivial
    · exact absurd (hgraph ▸ he) hnew
    · exact absurd (hgraph ▸ he) hnew
  · by_cases hself : copy.src_memory_op_id = copy.dst_memory_op_id ∧
        REDSHOW_MEMORY_HOST < copy.dst_memory_op_id
    · -- The object has a last writer, since it is registered.
      have hread : s₀.memories.find? copy.dst_memory_op_id ≠ none := by
        obtain ⟨_, memory, src, hmemory, -⟩ := h₂.read copy.src_memory_op_id rfl
        rw [h₁.memories, hself.1] at hmemory
        simp [hmemory]
      obtain ⟨memory, hmemory⟩ := Option.ne_none_iff_exists'.1 hread
      exact linksRight_self_iff h₁ h₂ hctx.writer hself.1 hself.2
        (hctx.known _ memory hmemory hself.2)
    · -- The read looks up what the write has not changed.
      have hother : ∀ m, (Operation.memcpy copy).Reads m →
          ¬((Operation.memcpy copy).Writes m ∧ REDSHOW_MEMORY_HOST < m) := fun m hm hw => by
        have hsrc : copy.src_memory_op_id = m := hm
        exact hself ⟨hsrc.trans hw.1.1.symm, hw.1.1 ▸ hw.2⟩
      have hlinked : Linked (Operation.memcpy copy).ctx_id (Operation.memcpy copy).Reads
          (Operation.memcpy copy).Writes s₀ s' :=
        (h₁.trans h₂ hother fun _ hm => absurd hm id).congr (by simp) (by simp)
      refine iff_of_true (hlinked.linksRight hctx.writer) fun heq hlt => ?_
      exact absurd ⟨heq, hlt⟩ hself
  · refine iff_of_true (hlinked.linksRight hctx.writer) ?_
    cases op with
    | memcpy copy => exact absurd rfl (hcopy copy)
    | _ => trivial

end

/-- A kernel that reads and writes four bytes of the object. -/
def someKernel : ByteMem × Operation :=
  let ranges : RangeSet := OrderedMap.set ∅ 7000 7004
  (fun _ => 0, .kernel ⟨10, 4, 0, 0⟩ (some ⟨OrderedMap.set ∅ 7 ranges, OrderedMap.set ∅ 7 ranges⟩))

/-- The edges of a kernel that reads and writes what a memset and a memcpy wrote before. -/
theorem linksRight_someKernel : ∃ s s',
    run (opCallback plainEnv) (init (fun _ => 0) false false) (someOperations.take 3) = some s ∧
      opCallback plainEnv s someKernel = some s' ∧
      LinksRight (lastWriter ((someOperations.take 3).map Prod.snd)) someKernel.2 s s' := by
  have hsome : ((run (opCallback plainEnv) (init (fun _ => 0) false false)
      (someOperations.take 3)).bind fun s => opCallback plainEnv s someKernel).isSome := by
    decide +kernel
  obtain ⟨s', hs'⟩ := Option.isSome_iff_exists.1 hsome
  obtain ⟨s, hrun, hstep⟩ := Option.bind_eq_some_iff.1 hs'
  exact ⟨s, s', hrun, hstep, (linksRight_iff hrun hstep).2 trivial⟩

/-- A memcpy in the context 2 from an object to itself. -/
def selfCopy : ByteMem × Operation :=
  (fun _ => 0, .memcpy ⟨⟨8, 2, 7, 0, 7000, 7, 0, 7000, 8⟩, 14000, 14000⟩)

/-- The read of a memcpy inside one object does not start at the allocation, which wrote the object
last. -/
theorem not_linksRight_selfCopy : ¬∀ (es : List (ByteMem × Operation)) (e : ByteMem × Operation)
    (s s' : DataFlow), run (opCallback plainEnv) (init (fun _ => 0) false false) es = some s →
      opCallback plainEnv s e = some s' →
      LinksRight (lastWriter (es.map Prod.snd)) e.2 s s' := by
  intro hall
  have hsome : ((run (opCallback plainEnv) (init (fun _ => 0) false false)
      (someOperations.take 1)).bind fun s => (opCallback plainEnv s selfCopy).bind fun s' =>
        if s'.graph.hasEdge ⟨1, 2, 1, .DATA_FLOW_EDGE_READ⟩ then none else
          (s.memories.find? 7).bind fun memory =>
            if memory.ctx_id = 1 then some () else none).isSome := by
    decide +kernel
  obtain ⟨_, hs⟩ := Option.isSome_iff_exists.1 hsome
  obtain ⟨s, hrun, hs⟩ := Option.bind_eq_some_iff.1 hs
  obtain ⟨s', hstep, hs⟩ := Option.bind_eq_some_iff.1 hs
  split_ifs at hs with hedge
  obtain ⟨memory, hmemory, hs⟩ := Option.bind_eq_some_iff.1 hs
  split_ifs at hs with hctx
  obtain ⟨src, memory', hsrc, hmemory', hread⟩ := (hall _ _ _ _ hrun hstep).read 7 rfl
  obtain rfl : memory = memory' := Option.some.inj (hmemory.symm.trans hmemory')
  have hwriter : lastWriter ((someOperations.take 1).map Prod.snd) 7 = some 1 := by decide
  obtain rfl : 1 = src := Option.some.inj (hwriter.symm.trans hsrc)
  rw [hctx] at hread
  exact hedge hread

end TenProf.DataFlow
