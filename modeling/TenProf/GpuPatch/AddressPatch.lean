import TenProf.GpuAnalysis.IntervalCompact
import TenProf.GpuPatch.AuxPatch
import TenProf.GpuPatch.DefaultPatch
import TenProf.GpuPatch.QueueAccounts

/-!
# The callbacks that store addresses

`memory_access_callback` and `sanitizer_block_exit_callback` of `gpu-patch-address.cu`. The lanes of
a warp that are active together store one record with their addresses. When the buffer has a
dictionary of memory objects, a lane drops its read of global memory if it finds that the object
was hit before; the object is the last one that starts at the address or before, and each lane
loads and stores its mark at its own pace. When all lanes drop their reads, nothing is stored.

The buffer also counts the threads that have not exited, by which the analysis kernel knows that the
kernel is finished.
-/

namespace TenProf.GpuPatch

open Warp (ballot)

/-- The arguments of a callback for a memory access in all lanes. -/
structure AddressAccess extends ActiveWarp where
  space : Space
  pc : ℕ
  address : ℕ → ℕ
  size : ℕ
  flags : ℕ

/-- The number of words of a record: four fields, and the addresses. -/
abbrev addressWords : ℕ := 4 + 32

namespace AddressAccess

/-- The flags that `sanitizer_global_memory_access_callback`,
`sanitizer_shared_memory_access_callback` and `sanitizer_local_memory_access_callback` pass on. -/
def callbackFlags (a : AddressAccess) : ℕ :=
  match a.space with
  | .global => a.flags
  | .shared => a.flags ||| SHARED
  | .local_memory => a.flags ||| LOCAL

/-- Read address can be filtered. -/
def readOnly (a : AddressAccess) : Bool :=
  a.callbackFlags &&& READ ≠ 0 && a.callbackFlags &&& (WRITE ||| SHARED ||| LOCAL) = 0

/-- The words that a callback stores, when `all_keep` are the lanes that keep their accesses. -/
def wordStores (a : AddressAccess) (all_keep : BitVec 32) : ℕ → Option ℕ
  | 0 => some a.pc
  | 1 => some a.callbackFlags
  | 2 => some (all_keep &&& a.active_mask).toNat
  | 3 => some a.size
  | laneid + 4 =>
    if a.active_mask.getLsbD laneid && all_keep.getLsbD laneid then some (a.address laneid)
    else none

/-- What a callback stores into its slot. -/
def stores (a : AddressAccess) (all_keep : BitVec 32) : GpuQueue.Stores addressWords := fun n =>
  a.wordStores all_keep n

/-- A byte is accessed by an active lane that keeps its access, at an address that is not zero. -/
def Accesses (a : AddressAccess) (all_keep : BitVec 32) (x : ℕ) : Prop :=
  ∃ l ∈ a.lanes, all_keep.getLsbD l = true ∧ a.address l ≠ 0 ∧ a.address l ≤ x ∧
    x < a.address l + a.size

end AddressAccess

/-! ## The records -/

/-- The record that some words are. -/
def recordAddress (record : GpuQueue.Record addressWords) : RecordAddress where
  pc := record 0
  flags := record 1
  active := BitVec.ofNat 32 (record 2)
  size := record 3
  address l := if h : l + 4 < addressWords then record ⟨l + 4, h⟩ else 0

/-- A record shows an access of the lanes that keep theirs. -/
structure ShowsAddress (a : AddressAccess) (all_keep : BitVec 32) (record : RecordAddress) :
    Prop where
  pc : record.pc = a.pc
  flags : record.flags = a.callbackFlags
  active : record.active = all_keep &&& a.active_mask
  size : record.size = a.size
  address : ∀ l ∈ a.lanes, all_keep.getLsbD l = true → record.address l = a.address l

variable {a : AddressAccess} {all_keep : BitVec 32}

/-- Words that hold what a callback stored show it as a record. -/
theorem showsAddress_of_holds {words : GpuQueue.Record addressWords}
    (h : GpuQueue.Holds (a.stores all_keep) words) :
    ShowsAddress a all_keep (recordAddress words) where
  pc := h 0 _ rfl
  flags := h 1 _ rfl
  active := by
    show BitVec.ofNat 32 (words 2) = _
    rw [h 2 _ rfl, BitVec.ofNat_toNat, BitVec.setWidth_eq]
  size := h 3 _ rfl
  address l hl hkeep := by
    obtain ⟨hlt, hactive⟩ := ActiveWarp.mem_lanes_iff.1 hl
    have hword : l + 4 < addressWords := by
      show l + 4 < 4 + 32
      omega
    show (if h : l + 4 < addressWords then words ⟨l + 4, h⟩ else 0) = a.address l
    rw [dif_pos hword]
    refine h ⟨l + 4, hword⟩ _ ?_
    show (if a.active_mask.getLsbD l && all_keep.getLsbD l then some (a.address l) else none) = _
    rw [hactive, hkeep]
    rfl

/-- The active lanes of a record are those that keep their accesses. -/
theorem ShowsAddress.getLsbD_active {record : RecordAddress} (h : ShowsAddress a all_keep record)
    {l : ℕ} (hl : l < 32) :
    record.active.getLsbD l = true ↔ l ∈ a.lanes ∧ all_keep.getLsbD l = true := by
  rw [h.active, BitVec.getLsbD_and, Bool.and_eq_true, ActiveWarp.mem_lanes_iff]
  tauto

/-- A record accesses the bytes of the lanes that keep their accesses. -/
theorem ShowsAddress.accesses_iff {record : RecordAddress} (h : ShowsAddress a all_keep record)
    (x : ℕ) : record.Accesses x ↔ a.Accesses all_keep x := by
  constructor
  · rintro ⟨l, hl, hactive, hne, hle, hlt⟩
    obtain ⟨hlane, hkeep⟩ := (h.getLsbD_active hl).1 hactive
    rw [h.address l hlane hkeep] at hne hle hlt
    rw [h.size] at hlt
    exact ⟨l, hlane, hkeep, hne, hle, hlt⟩
  · rintro ⟨l, hlane, hkeep, hne, hle, hlt⟩
    have hl := (ActiveWarp.mem_lanes_iff.1 hlane).1
    refine ⟨l, hl, (h.getLsbD_active hl).2 ⟨hlane, hkeep⟩, ?_⟩
    rw [h.address l hlane hkeep, h.size]
    exact ⟨hne, hle, hlt⟩

/-! ## The steps -/

/-- What a lane knows about its read: nothing, or that the object at a position was not hit before
and is to be marked, or whether the read is kept. -/
inductive LaneFilter
  | start
  | first (pos : ℕ)
  | done (keep : Bool)
  deriving DecidableEq, Repr

/-- A warp whose lanes look for the objects that they read. -/
structure Filter where
  access : AddressAccess
  lanes : ℕ → LaneFilter

namespace Filter

/-- All active lanes know whether they keep their reads. -/
def Settled (f : Filter) : Prop := ∀ l ∈ f.access.lanes, f.lanes l = .done true ∨
  f.lanes l = .done false

instance : DecidablePred Settled := fun f => inferInstanceAs (Decidable (∀ l ∈ f.access.lanes, _))

/-- `all_keep`. -/
def allKeep (f : Filter) : BitVec 32 :=
  ballot fun l => f.access.active_mask.getLsbD l && decide (f.lanes l = .done true)

/-- A lane knows more. -/
def setLane (f : Filter) (l : ℕ) (v : LaneFilter) : Filter :=
  { f with lanes := Function.update f.lanes l v }

end Filter

/-- The state. The threads of a warp that have not exited, the accesses of the callbacks in sampled
blocks and what of them was brought into the queue are not read by any step. -/
structure PatchState (W : ℕ) where
  queue : GpuQueue.State W addressWords
  filters : Fin W → Option Filter
  hit : ℕ → ℕ
  num_threads : ℕ
  threads : Fin W → ℕ
  accesses : List AddressAccess
  recorded : List (AddressAccess × BitVec 32)

/-- A warp enters the callback for an access, a lane looks for its object, the lanes of a warp come
together after that, a warp goes on in the callback, threads of a warp exit, or the consumer takes
a step. -/
inductive PatchAction (W : ℕ)
  | callback (w : Fin W) (a : AddressAccess)
  | lane (w : Fin W) (laneid : ℕ)
  | join (w : Fin W)
  | warp (w : Fin W)
  | block_exit (w : Fin W) (e : ActiveWarp)
  | consumer

namespace PatchState

variable {W : ℕ}

/-- The kernel starts with threads in its warps, and their number in the buffer. -/
def start (threads : Fin W → ℕ) (num_threads : ℕ) (hit : ℕ → ℕ)
    (records : ℕ → GpuQueue.Record addressWords) : PatchState W where
  queue := GpuQueue.start W records
  filters := fun _ => none
  hit := hit
  num_threads := num_threads
  threads := threads
  accesses := []
  recorded := []

/-- A warp is outside of the callbacks. -/
def isIdle (s : PatchState W) (w : Fin W) : Bool :=
  match s.queue.warps w, s.filters w with
  | .idle, none => true
  | _, _ => false

/-- A warp brings its record into the queue. -/
def record (size : ℕ) (analysis : Bool) (s : PatchState W) (w : Fin W) (a : AddressAccess)
    (all_keep : BitVec 32) : Option (PatchState W) :=
  (GpuQueue.step size analysis s.queue (.enter w (a.stores all_keep))).map fun queue =>
    { s with
      queue := queue
      filters := Function.update s.filters w none
      recorded := s.recorded ++ [(a, all_keep)] }

/-- A lane takes its next step in the dictionary. -/
def lane (dict : AddressDict) (s : PatchState W) (w : Fin W) (f : Filter) (laneid : ℕ) :
    Option (PatchState W) :=
  let setLane (v : LaneFilter) : PatchState W :=
    { s with filters := Function.update s.filters w (some (f.setLane laneid v)) }
  match f.lanes laneid with
  | .start =>
    let pos := dict.findPrev (f.access.address laneid)
    if pos ≠ dict.size then
      -- Find an existing entry
      if s.hit pos = 0 then some (setLane (.first pos)) else some (setLane (.done false))
    else some (setLane (.done true))
  | .first pos =>
    -- Update
    some { setLane (.done true) with hit := Function.update s.hit pos 1 }
  | .done _ => none

/-- The lanes of a warp come together. -/
def join (size : ℕ) (analysis : Bool) (s : PatchState W) (w : Fin W) (f : Filter) :
    Option (PatchState W) :=
  if f.Settled then
    -- Fast path
    if f.allKeep = 0 then some { s with filters := Function.update s.filters w none }
    else s.record size analysis w f.access f.allKeep
  else none

end PatchState

section Step

variable (dict : Option AddressDict) (frequency offset size : ℕ) (analysis : Bool) {W : ℕ}

/-- The reads of an access are filtered. -/
def isFiltered (a : AddressAccess) : Bool := dict.isSome && a.readOnly

/-- The callback for an access. It returns at once in a block that is not sampled. -/
def accessCallback (s : PatchState W) (w : Fin W) (a : AddressAccess) : Option (PatchState W) :=
  if sampleCallback frequency offset a.flat_block_id then
    let s := { s with accesses := s.accesses ++ [a] }
    if isFiltered dict a then
      some { s with filters := Function.update s.filters w (some ⟨a, fun _ => .start⟩) }
    else s.record size analysis w a a.active_mask
  else some s

/-- `sanitizer_block_exit_callback`: threads of a warp exit. -/
def blockExit (s : PatchState W) (w : Fin W) (e : ActiveWarp) : PatchState W :=
  let s := { s with threads := Function.update s.threads w (s.threads w - e.lanes.length) }
  if sampleCallback frequency offset e.flat_block_id then
    -- Finish a bunch of threads
    { s with num_threads := subU32 s.num_threads e.lanes.length }
  else s

/-- One step. A warp enters a callback when it is outside of them, and has threads left. -/
def patchStep (s : PatchState W) : PatchAction W → Option (PatchState W)
  | .callback w a =>
    if s.isIdle w ∧ s.threads w ≠ 0 then accessCallback dict frequency offset size analysis s w a
    else none
  | .lane w laneid =>
    dict.bind fun dict => (s.filters w).bind fun f =>
      if laneid ∈ f.access.lanes then s.lane dict w f laneid else none
  | .join w => (s.filters w).bind fun f => s.join size analysis w f
  | .warp w =>
    (GpuQueue.step size analysis s.queue (.warp w)).map fun queue => { s with queue := queue }
  | .block_exit w e =>
    if s.isIdle w ∧ e.lanes.length ≤ s.threads w then some (blockExit frequency offset s w e)
    else none
  | .consumer =>
    (GpuQueue.step size analysis s.queue .consumer).map fun queue => { s with queue := queue }

end Step

end TenProf.GpuPatch
