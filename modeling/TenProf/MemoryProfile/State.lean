import TenProf.Library.While
import TenProf.Operation.MergeMemoryRange

/-!
# The callbacks of the memory profile

`MemoryProfile`: what a kernel accesses is collected in its trace, object by object, and the
callback of the kernel takes it from the chunks of the objects that were blank so far. Left out are
the fragmentation of the blank chunks, which is computed in floating point and only written to
files, the members for sub-memories, and those that nothing reads. A callback has no result where
the source fails in `at` or dereferences a null pointer or the end of a set, and as long as the loop
of `update_blank_chunks` does not end within the bound `fuel` on its turns.
-/

namespace TenProf

/-- `MemoryProfileTrace`, with the op id of its kernel. -/
structure MemoryProfileTrace where
  op_id : ℕ
  access_memory : OrderedMap ℕ RangeSet

/-- `MemoryProfile`. -/
structure MemoryProfile where
  kernel_trace : OrderedMap ℕ (OrderedMap ℕ MemoryProfileTrace)
  /-- Where the trace that `_trace` points to is kept: its thread and its op id. -/
  trace : Option (ℕ × ℕ)
  op_node : OrderedMap ℕ ℤ
  memories : OrderedMap ℕ Memory
  current_memories : OrderedMap ℕ Memory
  addresses_map : OrderedMap ℕ ℕ
  blank_chunks : OrderedMap ℕ (OrderedMap ℕ RangeSet)
  accessed_memories : OrderedMap ℕ ℕ

namespace MemoryProfile

/-- The analysis before the first callback. -/
def empty : MemoryProfile := ⟨∅, none, ∅, ∅, ∅, ∅, ∅, ∅⟩

/-- `update_op_node`. -/
def updateOpNode (s : MemoryProfile) (op_id : ℕ) (ctx_id : ℤ) : MemoryProfile :=
  { s with
    op_node := if REDSHOW_MEMORY_HOST < op_id then s.op_node.set op_id ctx_id else s.op_node }

/-- `memory_op_callback`. -/
def memoryOpCallback (s : MemoryProfile) (op : Memory) : MemoryProfile :=
  let s := s.updateOpNode op.op_id op.ctx_id
  { s with
    memories := s.memories.emplace op.op_id op
    current_memories := s.current_memories.emplace op.op_id op
    addresses_map := s.addresses_map.emplace op.memory_range.start op.op_id }

/-- `memfree_op_callback`. -/
def memfreeOpCallback (s : MemoryProfile) (op : Memfree) : Option MemoryProfile :=
  let s := s.updateOpNode op.op_id op.ctx_id
  let address := op.memory_range.start
  (s.addresses_map.find? address).map fun malloc_op_id =>
    { s with
      current_memories := s.current_memories.erase malloc_op_id
      addresses_map := s.addresses_map.erase address }

/-! ## The trace of a kernel -/

/-- The trace of a kernel. -/
def traceAt (s : MemoryProfile) (i : ℕ × ℕ) : Option MemoryProfileTrace :=
  (s.kernel_trace.findD i.1 ∅).find? i.2

/-- The trace of a kernel is replaced. -/
def setTrace (s : MemoryProfile) (i : ℕ × ℕ) (trace : MemoryProfileTrace) : MemoryProfile :=
  { s with kernel_trace := s.kernel_trace.set i.1 ((s.kernel_trace.findD i.1 ∅).set i.2 trace) }

/-- `analysis_begin`. -/
def analysisBegin (s : MemoryProfile) (cpu_thread host_op_id : ℕ) : MemoryProfile :=
  let i := (cpu_thread, host_op_id)
  let s := if (s.traceAt i).isSome then s else s.setTrace i ⟨host_op_id, ∅⟩
  { s with trace := some i }

/-- An access, with the op id of its object. -/
structure Access where
  memory_op_id : ℕ
  memory_range : AccessRange

/-- The ranges accessed of an object, after one more access. -/
def addRange (memory : RangeSet) (memory_range : MemoryRange) : RangeSet :=
  if memory.toList.isEmpty then memory.emplace memory_range.start memory_range.stop
  else mergeMemoryRange memory memory_range

/-- `unit_access`. -/
def unitAccess (s : MemoryProfile) (memory : Access) : Option MemoryProfile :=
  if memory.memory_op_id ≤ REDSHOW_MEMORY_HOST then
    some s
  else
    s.trace.bind fun i =>
      (s.traceAt i).map fun trace =>
        let ranges := trace.access_memory.findD memory.memory_op_id ∅
        s.setTrace i { trace with
          access_memory := trace.access_memory.set memory.memory_op_id
            (addRange ranges memory.memory_range.toMemoryRange) }

/-! ## The blank chunks -/

/-- The state of the loop of `update_blank_chunks`: the set, the entries from the position of the
iterator on, and `start`. -/
abbrev ChunkState := RangeSet × List (ℕ × ℕ) × ℕ

/-- The turn of the loop of `update_blank_chunks` for an access that ends at `stop`. The result is
the set when the function returns; there is none where the source dereferences the end of the
set. -/
def chunkTurn (stop : ℕ) : ChunkState → ChunkState ⊕ Option RangeSet
  | (unuse_range_set, [], _) =>
    match unuse_range_set.toList with
    | [] => .inr none
    | first :: rest =>
      if stop ≤ first.1 then .inr (some unuse_range_set)
      else .inl (unuse_range_set, first :: rest, first.1)
  | (unuse_range_set, iter :: rest, start) =>
    if start = iter.1 then
      if stop < iter.2 then
        .inr (some ((unuse_range_set.erase iter.1).emplace stop iter.2))
      else
        match rest with
        | [] => .inr (some (unuse_range_set.erase iter.1))
        | next :: later =>
          if stop < next.1 then .inr (some (unuse_range_set.erase iter.1))
          else .inl (unuse_range_set.erase iter.1, next :: later, next.1)
    else if start < iter.2 then
      -- The chunk is split at the start of the access.
      .inl (((unuse_range_set.erase iter.1).emplace iter.1 start).emplace start iter.2,
        (start, iter.2) :: rest, start)
    else
      match rest with
      | [] => .inr (some unuse_range_set)
      | next :: later =>
        if next.1 < stop then .inl (unuse_range_set, next :: later, next.1)
        else .inr (some unuse_range_set)

/-- The position at which the loop of `update_blank_chunks` starts. -/
def chunkIter (unuse_range_set : RangeSet) (start : ℕ) : List (ℕ × ℕ) :=
  match unuse_range_set.prev start with
  | none => []
  | some iter => iter :: unuse_range_set.after iter.1

/-- The blank chunks of an object without those of a range. -/
def eraseRange (fuel : ℕ) (unuse_range_set : RangeSet) (range_iter : MemoryRange) :
    Option RangeSet :=
  if unuse_range_set.size = 0 then
    some unuse_range_set
  else
    (loop (chunkTurn range_iter.stop) fuel
      (unuse_range_set, chunkIter unuse_range_set range_iter.start, range_iter.start)).bind id

/-- The blank chunks of an object as of a kernel: `_blank_chunks.at(k).at(m)`. -/
def blankAt (s : MemoryProfile) (kernel_op_id memory_op_id : ℕ) : Option RangeSet :=
  (s.blank_chunks.find? kernel_op_id).bind fun memory_map => memory_map.find? memory_op_id

/-- The blank chunks of an object as of a kernel are replaced. -/
def setBlank (s : MemoryProfile) (kernel_op_id memory_op_id : ℕ) (unuse_range_set : RangeSet) :
    MemoryProfile :=
  { s with
    blank_chunks := s.blank_chunks.set kernel_op_id
      ((s.blank_chunks.findD kernel_op_id ∅).set memory_op_id unuse_range_set) }

/-- `update_blank_chunks`. -/
def updateBlankChunks (fuel : ℕ) (kernel_op_id memory_op_id : ℕ) (s : MemoryProfile)
    (range_iter : ℕ × ℕ) : Option MemoryProfile :=
  (s.blankAt kernel_op_id memory_op_id).bind fun unuse_range_set =>
    (eraseRange fuel unuse_range_set ⟨range_iter.1, range_iter.2⟩).map fun unuse_range_set =>
      s.setBlank kernel_op_id memory_op_id unuse_range_set

/-- The blank chunks that a kernel takes over for an object: those of the last kernel that accessed
it, or everything. -/
def unuseSet (s : MemoryProfile) (memory_op_id : ℕ) (memory : Memory) : Option RangeSet :=
  match s.accessed_memories.find? memory_op_id with
  | some kid => s.blankAt kid memory_op_id
  | none => some (OrderedMap.emplace ∅ memory.memory_range.start memory.memory_range.stop)

/-- The turn of the loop of `kernel_op_callback` for an object, with the op id of the trace. -/
def updateObject (fuel : ℕ) (op : Kernel) (trace_op_id : ℕ) (s : MemoryProfile)
    (mem_iter : ℕ × RangeSet) : Option MemoryProfile :=
  (s.memories.find? mem_iter.1).bind fun memory =>
    (s.unuseSet mem_iter.1 memory).bind fun mem_unuse_set =>
      let unuse_memory_map_in_kernel := s.blank_chunks.findD trace_op_id ∅
      let s :=
        { s with
          accessed_memories := s.accessed_memories.set mem_iter.1 trace_op_id
          blank_chunks := s.blank_chunks.set trace_op_id
            (unuse_memory_map_in_kernel.emplace mem_iter.1 mem_unuse_set) }
      (s.op_node.find? memory.op_id).bind fun _ =>
        mem_iter.2.toList.foldlM (updateBlankChunks fuel op.op_id mem_iter.1) s

/-- `kernel_op_callback`. -/
def kernelOpCallback (fuel : ℕ) (s : MemoryProfile) (op : Kernel) : Option MemoryProfile :=
  let s := s.updateOpNode op.op_id op.ctx_id
  match s.trace with
  | none => some s
  | some i =>
    (s.traceAt i).bind fun trace =>
      let s := { s with blank_chunks := s.blank_chunks.emplace trace.op_id ∅ }
      (trace.access_memory.toList.foldlM (updateObject fuel op trace.op_id) s).map fun s =>
        { s.setTrace i { trace with access_memory := ∅ } with trace := none }

/-! ## Runs -/

/-- What the analysis is told. A kernel is analysed, in as many patches as it takes, before its
callback; one that is not sampled is not analysed. -/
inductive Event
  | memory (op : Memory)
  | memfree (op : Memfree)
  | kernel (op : Kernel) (patches : List (List Access))

/-- The analysis of a patch. -/
def analyzePatch (op : Kernel) (s : MemoryProfile) (accesses : List Access) :
    Option MemoryProfile :=
  accesses.foldlM unitAccess (s.analysisBegin op.cpu_thread op.op_id)

/-- What an event does. -/
def step (fuel : ℕ) (s : MemoryProfile) : Event → Option MemoryProfile
  | .memory op => some (s.memoryOpCallback op)
  | .memfree op => s.memfreeOpCallback op
  | .kernel op patches =>
    (patches.foldlM (analyzePatch op) s).bind fun s => kernelOpCallback fuel s op

end MemoryProfile

end TenProf
