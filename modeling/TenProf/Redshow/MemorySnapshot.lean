import Mathlib.Data.List.Induction
import TenProf.Library.OrderedMap
import TenProf.Operation.Memory

/-!
# The snapshots of the live blocks

`redshow_memory_register` and `redshow_memory_unregister`, as far as they concern the store
`memory_snapshot`. A call copies the snapshot with the largest id that is not above its own, changes
the copy, and stores it under its own id. The keys of a snapshot are the ranges of its blocks, which
are ordered by their starts, so that a snapshot is a map from starts to blocks. The addresses of the
two buffers of a block are those that `new` returns.
-/

namespace TenProf

/-- `MemoryMap`. -/
abbrev MemoryMap := OrderedMap ℕ Memory

/-- `memory_snapshot`. -/
abbrev MemorySnapshot := OrderedMap ℕ MemoryMap

/-- `redshow_result_t`, as far as the two functions return it. -/
inductive RedshowResult
  | REDSHOW_SUCCESS
  | REDSHOW_ERROR_DUPLICATE_ENTRY
  | REDSHOW_ERROR_NOT_EXIST_ENTRY
  deriving DecidableEq, Repr

/-- A call of one of the two functions, with the buffers that a registered block gets. -/
inductive MemoryCall
  | register (stream_id : ℕ) (memory_id : ℤ) (host_op_id start stop value value_cache : ℕ)
  | unregister (stream_id : ℕ) (memory_id : ℤ) (host_op_id start stop : ℕ)
  deriving DecidableEq, Repr

/-- `redshow_memory_register`: the store after it, and its result. -/
def redshowMemoryRegister (memory_snapshot : MemorySnapshot) (memory : Memory) :
    MemorySnapshot × RedshowResult :=
  let host_op_id := memory.op_id
  let start := memory.memory_range.start
  if memory_snapshot.size = 0 then
    -- First snapshot
    (memory_snapshot.set host_op_id (OrderedMap.set ∅ start memory), .REDSHOW_SUCCESS)
  else
    match memory_snapshot.prev host_op_id with
    | some iter =>
      let memory_map := iter.2
      if (memory_map.find? start).isNone then
        (memory_snapshot.set host_op_id (memory_map.set start memory), .REDSHOW_SUCCESS)
      else
        (memory_snapshot, .REDSHOW_ERROR_DUPLICATE_ENTRY)
    | none => (memory_snapshot, .REDSHOW_ERROR_NOT_EXIST_ENTRY)

/-- `redshow_memory_unregister`: the store after it, and its result. -/
def redshowMemoryUnregister (memory_snapshot : MemorySnapshot) (memfree : Memfree) :
    MemorySnapshot × RedshowResult :=
  let host_op_id := memfree.op_id
  let start := memfree.memory_range.start
  match memory_snapshot.prev host_op_id with
  | some snapshot_iter =>
    let memory_map := snapshot_iter.2
    if (memory_map.find? start).isSome then
      (memory_snapshot.set host_op_id (memory_map.erase start), .REDSHOW_SUCCESS)
    else
      (memory_snapshot, .REDSHOW_ERROR_NOT_EXIST_ENTRY)
  | none => (memory_snapshot, .REDSHOW_ERROR_NOT_EXIST_ENTRY)

namespace MemoryCall

/-- The id of the call. -/
def host_op_id : MemoryCall → ℕ
  | register _ _ host_op_id _ _ _ _ => host_op_id
  | unregister _ _ host_op_id _ _ => host_op_id

/-- The start of the block. -/
def start : MemoryCall → ℕ
  | register _ _ _ start _ _ _ => start
  | unregister _ _ _ start _ => start

/-- The block that a call registers. -/
def registered : MemoryCall → Option Memory
  | register stream_id memory_id host_op_id start stop value value_cache =>
    some (Memory.ofRange stream_id host_op_id memory_id ⟨start, stop⟩ value value_cache)
  | unregister _ _ _ _ _ => none

/-- The release that a call asks for. -/
def released : MemoryCall → Option Memfree
  | register _ _ _ _ _ _ _ => none
  | unregister stream_id memory_id host_op_id start stop =>
    some (Memfree.ofRange stream_id host_op_id memory_id ⟨start, stop⟩)

end MemoryCall

/-- The store after a call, and the result of the call. -/
def storeStep (memory_snapshot : MemorySnapshot) : MemoryCall → MemorySnapshot × RedshowResult
  | .register stream_id memory_id host_op_id start stop value value_cache =>
    redshowMemoryRegister memory_snapshot
      (Memory.ofRange stream_id host_op_id memory_id ⟨start, stop⟩ value value_cache)
  | .unregister stream_id memory_id host_op_id start stop =>
    redshowMemoryUnregister memory_snapshot
      (Memfree.ofRange stream_id host_op_id memory_id ⟨start, stop⟩)

/-- The store after calls that arrive one after the other. -/
def storeAfter (calls : List MemoryCall) : MemorySnapshot :=
  calls.foldl (fun memory_snapshot c => (storeStep memory_snapshot c).1) ∅

/-- The blocks of the snapshot that is looked up for an id. -/
def contentAt (memory_snapshot : MemorySnapshot) (host_op_id : ℕ) : MemoryMap :=
  match memory_snapshot.prev host_op_id with
  | some iter => iter.2
  | none => ∅

/-- The blocks of a snapshot after a call whose own snapshot was made from it. -/
def MemoryCall.apply (c : MemoryCall) (memory_map : MemoryMap) : MemoryMap :=
  match c.registered with
  | some memory => memory_map.set c.start memory
  | none => memory_map.erase c.start

/-- A call is accepted. A block is registered when the store is empty or has a snapshot for its id
without a block at its start, and released when there is a snapshot with such a block. -/
def MemoryCall.Accepted (c : MemoryCall) (memory_snapshot : MemorySnapshot) : Prop :=
  match c.registered with
  | some _ => memory_snapshot.size = 0 ∨ (memory_snapshot.prev c.host_op_id).isSome ∧
      (contentAt memory_snapshot c.host_op_id).find? c.start = none
  | none => (memory_snapshot.prev c.host_op_id).isSome ∧
      ((contentAt memory_snapshot c.host_op_id).find? c.start).isSome

variable {memory_snapshot : MemorySnapshot} {c : MemoryCall} {calls : List MemoryCall}

/-- An empty store has no snapshot to look up. -/
theorem contentAt_of_size (h : memory_snapshot.size = 0) (host_op_id : ℕ) :
    contentAt memory_snapshot host_op_id = ∅ := by
  have hnil : memory_snapshot.toList = [] := List.length_eq_zero_iff.1 h
  have hprev : memory_snapshot.prev host_op_id = none := by
    rw [OrderedMap.prev_eq_none_iff, hnil]
    simp
  unfold contentAt
  rw [hprev]

/-- What a call does to the store: an accepted one adds a snapshot, a rejected one leaves it. -/
theorem storeStep_cases (memory_snapshot : MemorySnapshot) (c : MemoryCall) :
    (c.Accepted memory_snapshot ∧ storeStep memory_snapshot c =
      (memory_snapshot.set c.host_op_id (c.apply (contentAt memory_snapshot c.host_op_id)),
        .REDSHOW_SUCCESS)) ∨
    (¬c.Accepted memory_snapshot ∧ (storeStep memory_snapshot c).1 = memory_snapshot ∧
      (storeStep memory_snapshot c).2 ≠ .REDSHOW_SUCCESS) := by
  cases c with
  | register stream_id memory_id host_op_id start stop value value_cache =>
    unfold MemoryCall.Accepted storeStep redshowMemoryRegister MemoryCall.apply
    simp only [MemoryCall.registered, MemoryCall.host_op_id, MemoryCall.start, Memory.ofRange]
    by_cases hsize : memory_snapshot.size = 0
    · rw [if_pos hsize, contentAt_of_size hsize]
      exact .inl ⟨.inl hsize, rfl⟩
    · rw [if_neg hsize]
      unfold contentAt
      cases hprev : memory_snapshot.prev host_op_id with
      | none => simp [hsize]
      | some iter =>
        by_cases hfind : iter.2.find? start = none
        · simp [hfind]
        · simp [hsize, hfind]
  | unregister stream_id memory_id host_op_id start stop =>
    unfold MemoryCall.Accepted storeStep redshowMemoryUnregister MemoryCall.apply contentAt
    simp only [MemoryCall.registered, MemoryCall.host_op_id, MemoryCall.start, Memfree.ofRange]
    cases hprev : memory_snapshot.prev host_op_id with
    | none => simp
    | some iter =>
      by_cases hfind : (iter.2.find? start).isSome
      · simp [hfind]
      · simp [hfind]

/-- The snapshots of other ids stay as they are. -/
theorem find?_storeStep_of_ne {k : ℕ} (h : k ≠ c.host_op_id) :
    (storeStep memory_snapshot c).1.find? k = memory_snapshot.find? k := by
  rcases storeStep_cases memory_snapshot c with ⟨-, hstep⟩ | ⟨-, hstep, -⟩
  · rw [hstep]
    exact OrderedMap.find?_set_of_ne _ h _
  · rw [hstep]

/-- The calls of which the last one arrives now. -/
theorem storeAfter_append_singleton (calls : List MemoryCall) (c : MemoryCall) :
    storeAfter (calls ++ [c]) = (storeStep (storeAfter calls) c).1 := by
  unfold storeAfter
  rw [List.foldl_append]
  rfl

/-- The snapshots have ids of calls that have arrived. -/
theorem mem_of_find?_storeAfter {k : ℕ} (h : ((storeAfter calls).find? k).isSome) :
    k ∈ calls.map MemoryCall.host_op_id := by
  induction calls using List.reverseRecOn with
  | nil => exact absurd h (by simp [storeAfter])
  | append_singleton calls c ih =>
    rw [List.map_append, List.mem_append, List.map_singleton, List.mem_singleton]
    by_cases hk : k = c.host_op_id
    · exact .inr hk
    · rw [storeAfter_append_singleton, find?_storeStep_of_ne hk] at h
      exact .inl (ih h)

end TenProf
