import TenProf.DataFlow.NodeHash

/-!
# The counters of a kernel

What `kernel_op_callback` passes to `update_op_metrics`: for each object that the kernel read, the
number of bytes read, and for each that it wrote, the number of bytes written and the number of
those that did not change. The variables that the source sums them up in are initialised with `0`,
so that they are of type `int`, and hold no number from `2^31` on. The number of bytes that did not
change is taken from the cache, to which some bytes may be copied from other places of the device
than those that were written. `countersExact_iff` says exactly when all counters are right.
-/

namespace TenProf.DataFlow

/-- The arguments of a call of `update_op_metrics`. -/
structure MetricsCall where
  op_id : ℕ
  ctx_id : ℤ
  mem_ctx_id : ℤ
  redundancy : ℕ
  overwrite : ℕ
  count : ℕ
  type : EdgeType
  deriving DecidableEq, Repr

/-- The call. -/
def MetricsCall.run (call : MetricsCall) (s : DataFlow) : DataFlow :=
  updateOpMetrics s call.op_id call.ctx_id call.mem_ctx_id call.redundancy call.overwrite call.count
    call.type

/-- The call for the ranges read of an object, if it is tracked. -/
def readCall (op : Kernel) (s : DataFlow) (mem_iter : ℕ × RangeSet) : Option MetricsCall :=
  (s.memories.find? mem_iter.1).bind fun memory =>
    if REDSHOW_MEMORY_HOST < memory.op_id then
      (s.op_node.find? memory.op_id).map fun _ =>
        let len := if s.read_trace_ignore then i32 memory.len else rangesLen mem_iter.2
        ⟨memory.op_id, op.ctx_id, memory.ctx_id, 0, u64OfInt len, memory.len, .DATA_FLOW_EDGE_READ⟩
    else
      none

/-- The call for the ranges written of an object, if it is tracked. -/
def writeCall (env : Env) (device_mem : ByteMem) (op : Kernel) (s : DataFlow)
    (mem_iter : ℕ × RangeSet) : Option MetricsCall :=
  (s.memories.find? mem_iter.1).bind fun memory =>
    if REDSHOW_MEMORY_HOST < memory.op_id then
      (updateHost env device_mem s.host memory mem_iter.2).map fun res =>
        ⟨memory.op_id, op.ctx_id, memory.ctx_id, u64OfInt res.2, u64OfInt (rangesLen mem_iter.2),
          memory.len, .DATA_FLOW_EDGE_ORDER⟩
    else
      none

/-- The number of bytes of ranges. -/
def bytesOf (ranges : RangeSet) : ℕ := totalLength ranges.toList

/-- The counters of a kernel are right: for the bytes read, in each turn of the first loop, and for
the bytes written and those among them that are as before the kernel, in each turn of the second. -/
structure CountersExact (env : Env) (device_mem : ByteMem) (s : DataFlow) (op : Kernel)
    (trace : DataFlowTrace) : Prop where
  read : ∀ t ∈ turns (readMemory op) s trace.read_memory.toList, ∀ call,
    readCall op t.1 t.2 = some call → call.redundancy = 0 ∧ call.overwrite = bytesOf t.2.2
  write : ∀ s₁, trace.read_memory.toList.foldlM (readMemory op) s = some s₁ →
    ∀ t ∈ turns (writeMemory env device_mem op) s₁ trace.write_memory.toList, ∀ call memory,
      writeCall env device_mem op t.1 t.2 = some call → s.memories.find? t.2.1 = some memory →
        call.redundancy = redundantBytes device_mem s.host memory t.2.2 ∧
          call.overwrite = bytesOf t.2.2

/-- The bytes read and the bytes written of each object are fewer than `2^31`. Where the whole
object counts as read, the bytes read are as many as its length, as a 32-bit word. The bytes written
that are the same as in the cache are as many as those that are the same as before. -/
structure CountersFit (env : Env) (device_mem : ByteMem) (s : DataFlow) (trace : DataFlowTrace) :
    Prop where
  read : ∀ e ∈ trace.read_memory.toList, ∀ memory, s.memories.find? e.1 = some memory →
    REDSHOW_MEMORY_HOST < e.1 → bytesOf e.2 < 2^31 ∧
      (s.read_trace_ignore = true → memory.len % 2^32 = bytesOf e.2)
  write : ∀ e ∈ trace.write_memory.toList, ∀ memory, s.memories.find? e.1 = some memory →
    REDSHOW_MEMORY_HOST < e.1 → bytesOf e.2 < 2^31 ∧
      redundantBytes (fun a => device_mem (cachedFrom env memory e.2 a)) s.host memory e.2 =
        redundantBytes device_mem s.host memory e.2

/-- The objects of a trace are registered, and the ranges lie in them. -/
structure RegisteredTrace (s : DataFlow) (trace : DataFlowTrace) : Prop where
  buffers : Buffers s.memories
  read : ∀ e ∈ trace.read_memory.toList, ∃ memory, s.memories.find? e.1 = some memory ∧
    (REDSHOW_MEMORY_HOST < e.1 → (s.op_node.find? e.1).isSome ∧
      ∃ read : WrittenRanges memory, read.ranges = e.2)
  write : ∀ e ∈ trace.write_memory.toList, ∃ memory, s.memories.find? e.1 = some memory ∧
    (REDSHOW_MEMORY_HOST < e.1 → ∃ written : WrittenRanges memory, written.ranges = e.2)

variable {env : Env} {device_mem : ByteMem} {s s' : DataFlow} {op : Kernel}
  {mem_iter : ℕ × RangeSet} {trace : DataFlowTrace}

/-! ## The calls are those of the callback -/

/-- A turn of the first loop makes the call, if it has one. -/
theorem readMemory_eq (h : readMemory op s mem_iter = some s') :
    (readCall op s mem_iter = none ∧ s' = s) ∨
      ∃ call s₁, readCall op s mem_iter = some call ∧ s' = call.run s₁ := by
  obtain ⟨memory, hmemory, h⟩ := Option.bind_eq_some_iff.1 h
  unfold readCall
  rw [hmemory, Option.bind_some]
  by_cases htracked : REDSHOW_MEMORY_HOST < memory.op_id
  · rw [if_pos htracked] at h ⊢
    obtain ⟨node_id, hnode, rfl⟩ := Option.map_eq_some_iff.1 h
    rw [hnode]
    exact .inr ⟨_, _, rfl, rfl⟩
  · rw [if_neg htracked] at h ⊢
    exact .inl ⟨rfl, (Option.some.inj h).symm⟩

/-- A turn of the second loop makes the call, if it has one; it is the last change of the edges. -/
theorem writeMemory_eq (h : writeMemory env device_mem op s mem_iter = some s') :
    (writeCall env device_mem op s mem_iter = none ∧ s' = s) ∨
      ∃ call s₁, writeCall env device_mem op s mem_iter = some call ∧
        s'.graph = (call.run s₁).graph := by
  obtain ⟨memory, hmemory, h⟩ := Option.bind_eq_some_iff.1 h
  unfold writeCall
  rw [hmemory, Option.bind_some]
  by_cases htracked : REDSHOW_MEMORY_HOST < memory.op_id
  · rw [if_pos htracked] at h ⊢
    obtain ⟨res, hres, rfl⟩ := Option.map_eq_some_iff.1 h
    rw [hres]
    refine .inr ⟨_, linkOpNode { s with host := res.1 } memory.op_id op.ctx_id memory.ctx_id, rfl,
      ?_⟩
    simp only [MetricsCall.run]
    split_ifs <;> simp
  · rw [if_neg htracked] at h ⊢
    exact .inl ⟨rfl, (Option.some.inj h).symm⟩

/-- A call for what is read is one for a tracked object. -/
theorem tracked_of_readCall {call : MetricsCall} {memory : Memory}
    (hcall : readCall op s mem_iter = some call)
    (hm : s.memories.find? mem_iter.1 = some memory) : REDSHOW_MEMORY_HOST < memory.op_id := by
  unfold readCall at hcall
  by_contra htracked
  rw [hm, Option.bind_some, if_neg htracked] at hcall
  cases hcall

/-- A call for what is written is one for a tracked object. -/
theorem tracked_of_writeCall {call : MetricsCall} {memory : Memory}
    (hcall : writeCall env device_mem op s mem_iter = some call)
    (hm : s.memories.find? mem_iter.1 = some memory) : REDSHOW_MEMORY_HOST < memory.op_id := by
  unfold writeCall at hcall
  by_contra htracked
  rw [hm, Option.bind_some, if_neg htracked] at hcall
  cases hcall

/-! ## The sums -/

/-- A sum of distances that are taken as 64-bit words is the sum of the distances, as an `int`. -/
theorem foldl_rangesLen {l : List (ℕ × ℕ)} (h : Proper l) (len : ℤ) :
    l.foldl (fun len range_iter => i32 (len + subU64 range_iter.2 range_iter.1)) (i32 len) =
      i32 (len + totalLength l) := by
  induction l generalizing len with
  | nil => simp
  | cons e l ih =>
    obtain ⟨hlt, hproper⟩ := List.forall_mem_cons.1 h
    have hword : i32 (i32 len + subU64 e.2 e.1) = i32 (len + (e.2 - e.1 : ℕ)) := by
      unfold i32 subU64
      omega
    rw [List.foldl_cons, hword, ih hproper, totalLength_cons]
    push_cast
    rw [add_assoc]

/-- The bytes of ranges, as the source sums them up. -/
theorem rangesLen_eq {ranges : RangeSet} (h : Proper ranges.toList) :
    rangesLen ranges = i32 (bytesOf ranges) := by
  have hsum := foldl_rangesLen h 0
  rwa [zero_add] at hsum

section Object

variable {memory : AllocatedMemory} (written : WrittenRanges memory.toMemory)

/-- The bytes of the ranges are their points. -/
theorem bytesOf_eq_card : bytesOf written.ranges = (points written.ranges.toList).card :=
  (card_points_eq_totalLength (written.disjoint.imp fun {a b} hab x hx => by omega)).symm

/-- No more bytes are redundant than written. -/
theorem redundantBytes_le (new_value : ℕ → UInt8) (host_mem : ByteMem) :
    redundantBytes new_value host_mem memory.toMemory written.ranges ≤ bytesOf written.ranges := by
  rw [bytesOf_eq_card]
  exact Finset.card_filter_le _ _

/-- The counter of the bytes read is right exactly below `2^31`. -/
theorem u64OfInt_rangesLen_iff :
    u64OfInt (rangesLen written.ranges) = bytesOf written.ranges ↔
      bytesOf written.ranges < 2^31 := by
  rw [rangesLen_eq written.proper]
  exact u64OfInt_i32_eq_iff (bytesOf_eq_card written ▸ written.card_points_lt) fun _ => rfl

/-- The length of the object counts as the bytes read exactly when it is as many, as a word. -/
theorem u64OfInt_len_iff :
    u64OfInt (i32 memory.len) = bytesOf written.ranges ↔
      bytesOf written.ranges < 2^31 ∧ memory.len % 2^32 = bytesOf written.ranges := by
  have hlt := written.card_points_lt
  rw [← bytesOf_eq_card] at hlt
  unfold u64OfInt i32
  omega

/-- The two counters for the bytes written are right exactly when these are fewer than `2^31`, and
as many of them are the same in the cache as on the device. -/
theorem writeCounters_iff (env : Env) (device_mem host_mem : ByteMem) :
    ∃ res, updateHost env device_mem host_mem memory.toMemory written.ranges = some res ∧
      (u64OfInt res.2 = redundantBytes device_mem host_mem memory.toMemory written.ranges ∧
          u64OfInt (rangesLen written.ranges) = bytesOf written.ranges ↔
        bytesOf written.ranges < 2^31 ∧
          redundantBytes (fun a => device_mem (cachedFrom env memory.toMemory written.ranges a))
            host_mem memory.toMemory written.ranges =
          redundantBytes device_mem host_mem memory.toMemory written.ranges) := by
  obtain ⟨res, hres, -, hcount⟩ := updateHost_eq env device_mem host_mem written
  refine ⟨res, hres, ?_⟩
  rw [u64OfInt_rangesLen_iff written, and_comm]
  refine and_congr_right fun hlt => ?_
  have hle := redundantBytes_le written
    (fun a => device_mem (cachedFrom env memory.toMemory written.ranges a)) host_mem
  rw [(hcount _ rfl).2 (by omega)]

end Object

/-! ## The turns -/

/-- Nothing but the graph is changed. -/
def OnlyGraph (s s' : DataFlow) : Prop := ∃ graph, s' = { s with graph := graph }

theorem OnlyGraph.refl (s : DataFlow) : OnlyGraph s s := ⟨s.graph, rfl⟩

theorem OnlyGraph.trans {s₁ s₂ s₃ : DataFlow} (h : OnlyGraph s₁ s₂) (h' : OnlyGraph s₂ s₃) :
    OnlyGraph s₁ s₃ := by
  obtain ⟨_, rfl⟩ := h
  obtain ⟨graph, rfl⟩ := h'
  exact ⟨graph, rfl⟩

theorem OnlyGraph.memories (h : OnlyGraph s s') : s'.memories = s.memories := by
  obtain ⟨_, rfl⟩ := h
  rfl

/-- A call changes nothing but the graph. -/
theorem MetricsCall.onlyGraph_run (call : MetricsCall) (s : DataFlow) :
    OnlyGraph s (call.run s) := by
  unfold run updateOpMetrics
  split
  · unfold updateEdgeMetrics
    simp only
    split
    · exact ⟨_, rfl⟩
    · exact OnlyGraph.refl s
  · exact OnlyGraph.refl s

/-- A turn of the first loop changes nothing but the graph. -/
theorem onlyGraph_readMemory (h : readMemory op s mem_iter = some s') : OnlyGraph s s' := by
  obtain ⟨memory, -, h⟩ := Option.bind_eq_some_iff.1 h
  by_cases htracked : REDSHOW_MEMORY_HOST < memory.op_id
  · rw [if_pos htracked] at h
    obtain ⟨node_id, -, rfl⟩ := Option.map_eq_some_iff.1 h
    have hlink : OnlyGraph s (linkCtxNode s node_id op.ctx_id memory.ctx_id .DATA_FLOW_EDGE_READ) :=
      ⟨_, rfl⟩
    exact hlink.trans (MetricsCall.onlyGraph_run ⟨_, _, _, _, _, _, _⟩ _)
  · rw [if_neg htracked] at h
    obtain rfl := Option.some.inj h
    exact OnlyGraph.refl s

/-- A turn of the second loop finds the memories as they were, and the buffers of its object. -/
theorem sameBuffers_turn {l : List (ℕ × RangeSet)} (hbuffers : Buffers s.memories)
    (hnodup : (l.map Prod.fst).Nodup)
    (hwritten : ∀ e ∈ l, ∀ memory, s.memories.find? e.1 = some memory →
      REDSHOW_MEMORY_HOST < e.1 → ∃ written : WrittenRanges memory, written.ranges = e.2)
    {t : DataFlow × ℕ × RangeSet} (ht : t ∈ turns (writeMemory env device_mem op) s l) :
    t.1.memories = s.memories ∧ ∀ memory, s.memories.find? t.2.1 = some memory →
      REDSHOW_MEMORY_HOST < t.2.1 → SameBuffers memory s.host t.1.host := by
  induction l generalizing s with
  | nil => cases ht
  | cons e l ih =>
    obtain ⟨hnew, hnodup⟩ := List.nodup_cons.1 hnodup
    rcases List.mem_cons.1 ht with rfl | ht
    · exact ⟨rfl, fun _ _ _ _ _ => rfl⟩
    · cases hstep : writeMemory env device_mem op s e with
      | none => simp [hstep] at ht
      | some s₁ =>
        have ht : t ∈ turns (writeMemory env device_mem op) s₁ l := by simpa [hstep] using ht
        have hfirst := updated_writeMemory hbuffers (hwritten e List.mem_cons_self) hstep
        obtain ⟨hmemories, hsame⟩ := ih (hfirst.memories ▸ hbuffers) hnodup
          (fun e' he' memory hm => hwritten e' (List.mem_cons_of_mem e he') memory
            (hfirst.memories ▸ hm)) ht
        rw [hfirst.memories] at hmemories hsame
        refine ⟨hmemories, fun memory hm hlt x hx => (hsame memory hm hlt x hx).trans ?_⟩
        -- The first turn writes to the buffers of another object.
        refine hfirst.outside x fun e' he' memory' hm' hlt' => ?_
        rw [List.mem_singleton.1 he'] at hm' hlt'
        have hne : t.2.1 ≠ e.1 := fun heq => hnew (heq ▸ List.mem_map_of_mem (mem_of_mem_turns ht))
        exact hbuffers.apart _ _ _ _ hm hlt hm' hlt' hne x hx

/-- The redundant bytes are counted in the buffer `value`. -/
theorem SameBuffers.redundantBytes_eq {memory : AllocatedMemory}
    (written : WrittenRanges memory.toMemory) {host host' : ByteMem}
    (h : SameBuffers memory.toMemory host host') (new_value : ℕ → UInt8) :
    redundantBytes new_value host' memory.toMemory written.ranges =
      redundantBytes new_value host memory.toMemory written.ranges := by
  unfold redundantBytes
  refine congrArg _ (Finset.filter_congr fun a ha => ?_)
  obtain ⟨e, he, hge, hlt⟩ := (mem_points _ _).1 ha
  have hin := written.inside e he
  rw [(h.bufferByte_eq (a := a) (by omega) (by omega)).1]

section Registered

variable (h : RegisteredTrace s trace)
include h

/-- The ranges written are those of an object. -/
theorem RegisteredTrace.written {e : ℕ × RangeSet} (he : e ∈ trace.write_memory.toList)
    {memory : Memory} (hm : s.memories.find? e.1 = some memory) (hlt : REDSHOW_MEMORY_HOST < e.1) :
    ∃ written : WrittenRanges memory, written.ranges = e.2 := by
  obtain ⟨memory', hm', hwritten⟩ := h.write e he
  obtain rfl := Option.some.inj (hm'.symm.trans hm)
  exact hwritten hlt

/-- A turn of the first loop has a result. -/
theorem RegisteredTrace.readMemory_isSome (op : Kernel) {e : ℕ × RangeSet}
    (he : e ∈ trace.read_memory.toList) (hgraph : OnlyGraph s s') :
    (readMemory op s' e).isSome := by
  obtain ⟨graph, rfl⟩ := hgraph
  obtain ⟨memory, hm, hread⟩ := h.read e he
  have hkey := h.buffers.keyed _ _ hm
  unfold readMemory
  simp only [hm, Option.bind_some]
  by_cases htracked : REDSHOW_MEMORY_HOST < memory.op_id
  · obtain ⟨node_id, hnode⟩ := Option.isSome_iff_exists.1 (hread (hkey ▸ htracked)).1
    rw [if_pos htracked, hkey, hnode]
    rfl
  · rw [if_neg htracked]
    rfl

/-- A turn of the second loop has a result. -/
theorem RegisteredTrace.writeMemory_isSome {e : ℕ × RangeSet}
    (he : e ∈ trace.write_memory.toList) (hmemories : s'.memories = s.memories) :
    (writeMemory env device_mem op s' e).isSome := by
  obtain ⟨memory, hm, hwritten⟩ := h.write e he
  have hkey := h.buffers.keyed _ _ hm
  unfold writeMemory
  rw [hmemories, hm, Option.bind_some]
  by_cases htracked : REDSHOW_MEMORY_HOST < memory.op_id
  · obtain ⟨allocated, rfl⟩ := h.buffers.allocated _ _ hm (hkey ▸ htracked)
    obtain ⟨written, hranges⟩ := hwritten (hkey ▸ htracked)
    obtain ⟨res, hres, -⟩ := updateHost_eq env device_mem s'.host written
    rw [if_pos htracked, ← hranges, hres]
    rfl
  · rw [if_neg htracked]
    rfl

/-- Both loops have a result. -/
theorem RegisteredTrace.exists_loops (env : Env) (device_mem : ByteMem) (op : Kernel) :
    ∃ s₁ s₂, trace.read_memory.toList.foldlM (readMemory op) s = some s₁ ∧ OnlyGraph s s₁ ∧
      trace.write_memory.toList.foldlM (writeMemory env device_mem op) s₁ = some s₂ := by
  have hread := foldlM_isSome (I := OnlyGraph s)
    (fun _ _ _ hs _ hstep => hs.trans (onlyGraph_readMemory hstep))
    (fun _ _ hs he => h.readMemory_isSome op he hs) (OnlyGraph.refl s)
  obtain ⟨s₁, hs₁⟩ := Option.isSome_iff_exists.1 hread
  have hgraph : OnlyGraph s s₁ := foldlM_rel OnlyGraph.refl OnlyGraph.trans
    (fun _ _ _ _ hstep => onlyGraph_readMemory hstep) hs₁
  have hwrite : (trace.write_memory.toList.foldlM (writeMemory env device_mem op) s₁).isSome := by
    refine foldlM_isSome (I := fun s' => s'.memories = s.memories) (fun s' e s'' hs he hstep => ?_)
      (fun _ _ hs he => h.writeMemory_isSome he hs) hgraph.memories
    have hupdated := updated_writeMemory (hs ▸ h.buffers)
      (fun memory hm hlt => h.written he (hs ▸ hm) hlt) hstep
    exact hupdated.memories.trans hs
  obtain ⟨s₂, hs₂⟩ := Option.isSome_iff_exists.1 hwrite
  exact ⟨s₁, s₂, hs₁, hgraph, hs₂⟩

/-- The call for what is read of a tracked object, in any turn. -/
theorem RegisteredTrace.readCall_eq (op : Kernel) {e : ℕ × RangeSet}
    (he : e ∈ trace.read_memory.toList) {memory : Memory}
    (hm : s.memories.find? e.1 = some memory) (hlt : REDSHOW_MEMORY_HOST < e.1)
    (hgraph : OnlyGraph s s') : readCall op s' e = some ⟨memory.op_id, op.ctx_id, memory.ctx_id, 0,
      u64OfInt (if s.read_trace_ignore then i32 memory.len else rangesLen e.2), memory.len,
      .DATA_FLOW_EDGE_READ⟩ := by
  obtain ⟨graph, rfl⟩ := hgraph
  obtain ⟨memory', hm', hread⟩ := h.read e he
  obtain rfl := Option.some.inj (hm'.symm.trans hm)
  have hkey := h.buffers.keyed _ _ hm
  obtain ⟨node_id, hnode⟩ := Option.isSome_iff_exists.1 (hread hlt).1
  unfold readCall
  simp only [hm, Option.bind_some]
  rw [if_pos (hkey.symm ▸ hlt), hkey, hnode]
  rfl

/-- The counter of what is read of a tracked object is right exactly when it fits. -/
theorem RegisteredTrace.readCounter_iff {e : ℕ × RangeSet} (he : e ∈ trace.read_memory.toList)
    {memory : Memory} (hm : s.memories.find? e.1 = some memory)
    (hlt : REDSHOW_MEMORY_HOST < e.1) :
    u64OfInt (if s.read_trace_ignore then i32 memory.len else rangesLen e.2) = bytesOf e.2 ↔
      bytesOf e.2 < 2^31 ∧ (s.read_trace_ignore = true → memory.len % 2^32 = bytesOf e.2) := by
  obtain ⟨memory', hm', hread⟩ := h.read e he
  obtain rfl := Option.some.inj (hm'.symm.trans hm)
  obtain ⟨allocated, rfl⟩ := h.buffers.allocated _ _ hm hlt
  obtain ⟨-, ranges, hranges⟩ := hread hlt
  rw [← hranges]
  cases s.read_trace_ignore with
  | true => simpa using u64OfInt_len_iff ranges
  | false => simpa using u64OfInt_rangesLen_iff ranges

/-- The call for what is written of a tracked object, in its turn: its counters are right exactly
when they fit. -/
theorem RegisteredTrace.writeCall_iff (op : Kernel) {e : ℕ × RangeSet}
    (he : e ∈ trace.write_memory.toList) {memory : Memory}
    (hm : s.memories.find? e.1 = some memory) (hlt : REDSHOW_MEMORY_HOST < e.1)
    (hmemories : s'.memories = s.memories) (hsame : SameBuffers memory s.host s'.host) :
    ∃ call, writeCall env device_mem op s' e = some call ∧
      (call.redundancy = redundantBytes device_mem s.host memory e.2 ∧
          call.overwrite = bytesOf e.2 ↔
        bytesOf e.2 < 2^31 ∧
          redundantBytes (fun a => device_mem (cachedFrom env memory e.2 a)) s.host memory e.2 =
            redundantBytes device_mem s.host memory e.2) := by
  have hkey := h.buffers.keyed _ _ hm
  obtain ⟨allocated, rfl⟩ := h.buffers.allocated _ _ hm hlt
  obtain ⟨written, hranges⟩ := h.written he hm hlt
  obtain ⟨res, hres, hiff⟩ := writeCounters_iff written env device_mem s'.host
  rw [hsame.redundantBytes_eq, hsame.redundantBytes_eq, hranges] at hiff
  rw [hranges] at hres
  refine ⟨⟨allocated.op_id, op.ctx_id, allocated.ctx_id, u64OfInt res.2,
    u64OfInt (rangesLen e.2), allocated.len, .DATA_FLOW_EDGE_ORDER⟩, ?_, hiff⟩
  unfold writeCall
  rw [hmemories, hm, Option.bind_some, if_pos (hkey.symm ▸ hlt), hres]
  rfl

end Registered

/-- The callback has a result, and the counters that it passes are right exactly when they fit. -/
theorem countersExact_iff (h : RegisteredTrace s trace) (htrace : s.trace = some trace) :
    (kernelOpCallback env device_mem s op).isSome ∧
      (CountersExact env device_mem s op trace ↔ CountersFit env device_mem s trace) := by
  obtain ⟨s₁, s₂, hread, hgraph, hwrite⟩ := h.exists_loops env device_mem op
  have hsome : (kernelOpCallback env device_mem s op).isSome := by
    unfold kernelOpCallback
    simp only [htrace, hread, hwrite, Option.bind_some, Option.map_some, Option.isSome_some]
  have hreadTurn : ∀ t ∈ turns (readMemory op) s trace.read_memory.toList, OnlyGraph s t.1 := by
    intro t ht
    obtain ⟨-, -, hbefore, -⟩ := rel_of_mem_turns OnlyGraph.refl OnlyGraph.trans
      (fun _ _ _ _ hstep => onlyGraph_readMemory hstep) hread ht
    exact hbefore
  have hwriteTurn : ∀ t ∈ turns (writeMemory env device_mem op) s₁ trace.write_memory.toList,
      t.1.memories = s.memories ∧ ∀ memory, s.memories.find? t.2.1 = some memory →
        REDSHOW_MEMORY_HOST < t.2.1 → SameBuffers memory s.host t.1.host := by
    obtain ⟨graph, rfl⟩ := hgraph
    exact fun t ht => sameBuffers_turn (s := { s with graph := graph }) h.buffers
      trace.write_memory.nodup_keys (fun e he memory hm hlt => h.written he hm hlt) ht
  refine ⟨hsome, fun hexact => ⟨fun e he memory hm hlt => ?_, fun e he memory hm hlt => ?_⟩,
    fun hfit => ⟨fun t ht call hcall => ?_, fun s₁' hread' t ht call memory hcall hm => ?_⟩⟩
  · obtain ⟨s', ht⟩ := exists_mem_turns hread he
    have hcall := h.readCall_eq op he hm hlt (hreadTurn _ ht)
    exact (h.readCounter_iff he hm hlt).1 (hexact.read _ ht _ hcall).2
  · obtain ⟨s', ht⟩ := exists_mem_turns hwrite he
    obtain ⟨hmemories, hsame⟩ := hwriteTurn _ ht
    obtain ⟨call, hcall, hiff⟩ := h.writeCall_iff op he hm hlt hmemories (hsame _ hm hlt)
    exact hiff.1 (hexact.write s₁ hread _ ht call memory hcall hm)
  · have he := mem_of_mem_turns ht
    obtain ⟨memory, hm, -⟩ := h.read _ he
    have hmemories : t.1.memories = s.memories := (hreadTurn t ht).memories
    have hlt : REDSHOW_MEMORY_HOST < t.2.1 :=
      h.buffers.keyed _ _ hm ▸ tracked_of_readCall hcall (hmemories ▸ hm)
    have hcall' := h.readCall_eq op he hm hlt (hreadTurn t ht)
    obtain rfl := Option.some.inj (hcall'.symm.trans hcall)
    exact ⟨rfl, (h.readCounter_iff he hm hlt).2 (hfit.read _ he memory hm hlt)⟩
  · obtain rfl := Option.some.inj (hread.symm.trans hread')
    have he := mem_of_mem_turns ht
    obtain ⟨hmemories, hsame⟩ := hwriteTurn t ht
    have hlt : REDSHOW_MEMORY_HOST < t.2.1 :=
      h.buffers.keyed _ _ hm ▸ tracked_of_writeCall hcall (hmemories ▸ hm)
    obtain ⟨call', hcall', hiff⟩ := h.writeCall_iff op he hm hlt hmemories (hsame _ hm hlt)
    obtain rfl := Option.some.inj (hcall'.symm.trans hcall)
    exact hiff.2 (hfit.write _ he memory hm hlt)

/-- All bytes of an object. -/
def wholeObject (memory : Memory) : RangeSet :=
  OrderedMap.set ∅ memory.memory_range.start memory.memory_range.stop

/-- A kernel reads and writes an object as a whole. -/
def wholeTrace (memory : Memory) : DataFlowTrace :=
  ⟨OrderedMap.set ∅ memory.op_id (wholeObject memory),
    OrderedMap.set ∅ memory.op_id (wholeObject memory)⟩

/-- The first object has been allocated, and a kernel reads and writes it as a whole. -/
def oneObject (memory : Memory) : DataFlow :=
  let s := addCtxNode (init (fun _ => 0) false false) (.memory memory)
  { memoryOpCallback (fun _ => 0) s memory with trace := some (wholeTrace memory) }

/-- The trace is one of a registered object. -/
theorem registeredTrace_oneObject (memory : AllocatedMemory)
    (hpos : memory.memory_range.start < memory.memory_range.stop)
    (hfind : (oneObject memory.toMemory).memories.find? memory.op_id = some memory.toMemory)
    (hnode : ((oneObject memory.toMemory).op_node.find? memory.op_id).isSome) :
    RegisteredTrace (oneObject memory.toMemory) (wholeTrace memory.toMemory) := by
  have hallocated : opCallback plainEnv (init (fun _ => 0) false false)
      (fun _ => 0, .memory memory.toMemory) = some (memoryOpCallback (fun _ => 0)
        (addCtxNode (init (fun _ => 0) false false) (.memory memory.toMemory)) memory.toMemory) :=
    rfl
  have hplaced : (Operation.memory memory.toMemory).Placed
      (init (fun _ => 0) false false).memories :=
    ⟨⟨memory, rfl⟩, fun _ _ hm hlt => absurd hlt (untracked_init hm)⟩
  have hbuffers := (buffers_init (fun _ => 0) false false).after_opCallback
    (e := (fun _ => 0, .memory memory.toMemory)) hplaced hallocated
  let ranges : WrittenRanges memory.toMemory :=
    ⟨wholeObject memory.toMemory, List.cons_ne_nil _ _, List.forall_mem_singleton.2 hpos,
      List.pairwise_singleton _ _, List.forall_mem_singleton.2 ⟨le_rfl, le_rfl⟩⟩
  refine ⟨hbuffers, fun e he => ?_, fun e he => ?_⟩
  · obtain rfl : e = (memory.op_id, wholeObject memory.toMemory) := List.mem_singleton.1 he
    exact ⟨memory.toMemory, hfind, fun _ => ⟨hnode, ranges, rfl⟩⟩
  · obtain rfl : e = (memory.op_id, wholeObject memory.toMemory) := List.mem_singleton.1 he
    exact ⟨memory.toMemory, hfind, fun _ => ⟨ranges, rfl⟩⟩

/-- The counters are right for eight bytes. -/
theorem countersExact_smallObject :
    CountersExact plainEnv (fun _ => 1) (oneObject (smallObject 7 1)) ⟨8, 2, 0, 0⟩
      (wholeTrace (smallObject 7 1)) := by
  have hregistered := registeredTrace_oneObject
    ⟨smallObject 7 1, by decide, by decide, by decide, by decide⟩ (by decide)
    (by decide +kernel) (by decide +kernel)
  have hfind : (oneObject (smallObject 7 1)).memories.find? 7 = some (smallObject 7 1) := by
    decide +kernel
  refine (countersExact_iff hregistered rfl).2.2 ⟨fun e he memory hm _ => ?_,
    fun e he memory hm _ => ?_⟩
  · obtain rfl : e = (7, wholeObject (smallObject 7 1)) := List.mem_singleton.1 he
    exact ⟨by decide, fun hignore => absurd hignore (by decide)⟩
  · obtain rfl : e = (7, wholeObject (smallObject 7 1)) := List.mem_singleton.1 he
    exact ⟨by decide, rfl⟩

/-- An object of `2^31` bytes counts as one of `2^64 - 2^31` bytes. -/
theorem not_countersExact : ¬∀ (env : Env) (device_mem : ByteMem) (s : DataFlow) (op : Kernel)
    (trace : DataFlowTrace), RegisteredTrace s trace → s.trace = some trace →
      CountersExact env device_mem s op trace := by
  intro h
  let memory : AllocatedMemory :=
    ⟨⟨7, 1, 0, ⟨2^32, 2^32 + 2^31⟩, 2^31, 2^40, 2^41⟩, by decide, by decide, by decide, by decide⟩
  have hregistered := registeredTrace_oneObject memory (by decide) (by decide +kernel)
    (by decide +kernel)
  have hexact := h plainEnv (fun _ => 1) _ ⟨8, 2, 0, 0⟩ _ hregistered rfl
  have hread := hexact.read (_, 7, wholeObject memory.toMemory) List.mem_cons_self
    ⟨7, 2, 1, 0, 2^64 - 2^31, 2^31, .DATA_FLOW_EDGE_READ⟩ (by decide +kernel)
  exact absurd hread.2 (by decide)

end TenProf.DataFlow
