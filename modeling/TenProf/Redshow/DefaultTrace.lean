import TenProf.Binutils.AccessKinds
import TenProf.DataFlow.Callbacks
import TenProf.Redshow.AddressPatch
import TenProf.ValuePattern.UnitAccess

/-!
# The analysis of full records

`trace_analyze_default` goes over the records of a buffer and, in each, over the active lanes, and
hands the units of a lane's access to the analyses under a memory object: the block that is the
predecessor of the address in the map if the access lies in it, and the local or the shared memory
when there is no predecessor. An access that does not lie in the predecessor is skipped, whether or
not it has anything to do with it. `trace_resolves_iff` says for which accesses the object is the
one that the address calls for: the block that holds the access, the memory that the flags name
when the access meets no block, and none when it meets one without lying in it.
-/

namespace TenProf

open Binutils GpuPatch DataFlow ValuePattern

/-! ## The records -/

namespace GpuPatch

/-- `GPU_PATCH_BLOCK_ENTER_FLAG`. -/
def BLOCK_ENTER_FLAG : ℕ := 0x20

/-- `GPU_PATCH_BLOCK_EXIT_FLAG`. -/
def BLOCK_EXIT_FLAG : ℕ := 0x40

/-- `gpu_patch_record_t`. -/
structure Record where
  pc : ℕ
  size : ℕ
  active : BitVec 32
  flat_thread_id : ℕ
  flat_block_id : ℕ
  flags : ℕ
  address : ℕ → ℕ
  value : ℕ → ℕ → UInt8

/-- The lane is active. -/
def Record.isActive (record : Record) (j : ℕ) : Bool := record.active.getLsbD j

/-- The thread of a lane. -/
def Record.thread (record : Record) (j : ℕ) : ThreadId :=
  ⟨record.flat_block_id, u32 (record.flat_thread_id / 32 * 32 + j)⟩

/-- A record of an access: some thread was active, and it does not stand for the start or the end of
a block. -/
def Record.isAccess (record : Record) : Bool :=
  record.size ≠ 0 && record.flags &&& BLOCK_ENTER_FLAG = 0 && record.flags &&& BLOCK_EXIT_FLAG = 0

end GpuPatch

/-! ## The kind of an access -/

/-- The kind of a record whose instruction has the given one. -/
def recordKindOf (default_data_type : DataType) (size : ℕ) (access_kind : AccessKind) :
    AccessKind :=
  if access_kind.data_type = .UNKNOWN then
    -- Default mode
    if access_kind.vec_size = 0 then
      ⟨u32 (size * 8), min 32 (u32 (size * 8)), default_data_type⟩
    else
      { access_kind with data_type := default_data_type }
  else
    access_kind

/-- The kind of a record at a pc, which has no result when the instruction graph is not empty and
does not have the pc. -/
def recordKind (default_data_type : DataType) (inst_graph : InstructionGraph) (real_pc : RealPC)
    (size : ℕ) : Option AccessKind :=
  if inst_graph.nodes.size ≠ 0 then
    -- Accurate mode, when we have instruction information
    (inst_graph.nodes.find? real_pc.cubin_offset).map fun inst =>
      recordKindOf default_data_type size (inst.access_kind.getD {})
  else
    some (recordKindOf default_data_type size {})

/-- `AccessKind::value_to_basic_type`. -/
def valueToBasicType (access_kind : AccessKind) (a : ℕ) (digits : ℕ × ℕ) : ℕ :=
  match access_kind.data_type with
  | .UNKNOWN => a
  | .INT =>
    if access_kind.unit_size = 8 then a &&& 0xff
    else if access_kind.unit_size = 16 then a &&& 0xffff
    else if access_kind.unit_size = 32 then a &&& 0xffffffff
    else a
  | .FLOAT =>
    if access_kind.unit_size = 32 then valueToFloat a digits.1
    else if access_kind.unit_size = 64 then valueToDouble a digits.2
    else a

/-! ## The object of an access -/

/-- A memory object under which units are delivered. -/
inductive LaneObject
  | block (op_id : ℕ) (ctx_id : ℤ) (start len : ℕ)
  | local_memory (start len : ℕ)
  | shared_memory (start len : ℕ)
  deriving DecidableEq, Repr

/-- The constructor of an object from its start and length; nobody reads its stream. -/
def Memory.ofStart (op_id : ℕ) (ctx_id : ℤ) (start len : ℕ) : Memory :=
  ⟨op_id, ctx_id, 0, ⟨start, u64 (start + len)⟩, len, 0, 0⟩

/-- The `Memory` of an object. -/
def LaneObject.memory : LaneObject → Memory
  | block op_id ctx_id start len => Memory.ofStart op_id ctx_id start len
  | local_memory start len => Memory.ofStart REDSHOW_MEMORY_LOCAL LOCAL_MEMORY_CTX_ID start len
  | shared_memory start len => Memory.ofStart REDSHOW_MEMORY_SHARED SHARED_MEMORY_CTX_ID start len

/-- The object of a block. -/
def LaneObject.ofBlock (iter : Memory) : LaneObject :=
  .block iter.op_id iter.ctx_id iter.memory_range.start iter.len

/-- The memory that the flags name. -/
def localOrShared (flags memory_addr memory_size : ℕ) : Option LaneObject :=
  if flags &&& LOCAL ≠ 0 then some (.local_memory memory_addr memory_size)
  else if flags &&& SHARED ≠ 0 then some (.shared_memory memory_addr memory_size)
  -- Unknown allocation
  else none

/-- The object of the access of a lane, and none when it is skipped. -/
def laneObject (memory_map : MemoryMap) (record : Record) (j : ℕ) : Option LaneObject :=
  match memory_map.prev (record.address j) with
  -- Memory object not found
  | none => localOrShared record.flags 0 0
  | some iter =>
    if record.address j ≥ iter.2.memory_range.start ∧
        u64 (record.address j + record.size) ≤ iter.2.memory_range.stop then
      if iter.2.op_id = 0 then
        localOrShared record.flags iter.2.memory_range.start iter.2.len
      else some (.ofBlock iter.2)
    -- Prevent out of bound memory accesses
    else none

/-! ## The loops -/

/-- What is delivered for the units of a lane under an object. -/
def laneUnits (digits : ℕ × ℕ) (record : Record) (j : ℕ) (access_kind : AccessKind)
    (units : List (ℕ × ℕ)) (object : LaneObject) : List ThreadAccess :=
  let unit_access_kind := { access_kind with vec_size := access_kind.unit_size }
  units.zipIdx.map fun ((offset, byte_size), m) =>
    let bytes := (List.range byte_size).map fun i => (record.value j (offset + i)).toNat * 256^i
    { thread_id := record.thread j
      access_kind := unit_access_kind
      memory := object.memory
      pc := record.pc
      value := valueToBasicType unit_access_kind (u64 bytes.sum) digits
      addr := record.address j
      index := m
      flags := record.flags }

/-- What the analyses are told: that a thread leaves its block, or, for an active lane of an access,
the units of the access with their object, unless it is skipped. -/
inductive TraceStep
  | block_exit (thread_id : ThreadId)
  | lane (record : Record) (j : ℕ) (delivered : Option (LaneObject × List ThreadAccess))

/-- The active lanes of a record. -/
def activeLanes (record : Record) : List ℕ := (List.range 32).filter record.isActive

/-- The units of a lane of a record. A lane that is not skipped has no result where the number of
units is a division by zero. -/
def laneStep (digits : ℕ × ℕ) (memory_map : MemoryMap) (record : Record) (access_kind : AccessKind)
    (j : ℕ) : Option TraceStep :=
  match laneObject memory_map record j with
  | none => some (.lane record j none)
  | some object => (unitsOf access_kind).map fun units =>
    .lane record j (some (object, laneUnits digits record j access_kind units object))

/-- `trace_analyze_default`: what the analyses are told for the records of a buffer, and its
result. -/
def traceAnalyzeDefault (default_data_type : DataType) (digits : ℕ × ℕ)
    (inst_graph : InstructionGraph) (symbols : List Symbol) (memory_map : MemoryMap) :
    List Record → Option (List TraceStep × PatchResult)
  | [] => some ([], .REDSHOW_SUCCESS)
  | record :: records =>
    let rest := traceAnalyzeDefault default_data_type digits inst_graph symbols memory_map records
    -- Fast path, no thread active
    if record.size = 0 then rest
    -- Skip analysis
    else if record.flags &&& BLOCK_ENTER_FLAG ≠ 0 then rest
    else if record.flags &&& BLOCK_EXIT_FLAG ≠ 0 then
      rest.map fun (steps, result) =>
        ((activeLanes record).map (fun j => .block_exit (record.thread j)) ++ steps, result)
    else
      match transformPc symbols record.pc with
      | none => some ([], .REDSHOW_ERROR_FAILED_ANALYZE_CUBIN)
      | some real_pc =>
        (recordKind default_data_type inst_graph real_pc record.size).bind fun access_kind =>
          let lanes := (activeLanes record).mapM (laneStep digits memory_map record access_kind)
          lanes.bind fun lanes => rest.map fun (steps, result) => (lanes ++ steps, result)

/-! ## What is right -/

/-- A block contains the bytes from an address on. -/
def Contained (memory_map : MemoryMap) (addr size : ℕ) : Prop :=
  ∃ e ∈ memory_map.toList,
    e.2.memory_range.start ≤ addr ∧ addr + size ≤ e.2.memory_range.stop

/-- A block has one of the bytes from an address on. -/
def Meets (memory_map : MemoryMap) (addr size : ℕ) : Prop :=
  ∃ e ∈ memory_map.toList,
    max addr e.2.memory_range.start < min (addr + size) e.2.memory_range.stop

instance (memory_map : MemoryMap) (addr size : ℕ) : Decidable (Meets memory_map addr size) :=
  inferInstanceAs (Decidable (∃ e ∈ memory_map.toList, _))

/-- The object that an address calls for. -/
def resolvedObject (memory_map : MemoryMap) (flags addr size : ℕ) : Option LaneObject :=
  match memory_map.toList.find? fun e =>
      e.2.memory_range.start ≤ addr ∧ addr + size ≤ e.2.memory_range.stop with
  | some e => some (.ofBlock e.2)
  | none => if Meets memory_map addr size then none else localOrShared flags 0 0

/-- The kind of a record and the units of its accesses, when its pc has a symbol, the instruction
is known and the number of units is no division by zero. -/
def recordUnits (default_data_type : DataType) (inst_graph : InstructionGraph)
    (symbols : List Symbol) (record : Record) : Option (AccessKind × List (ℕ × ℕ)) :=
  (transformPc symbols record.pc).bind fun real_pc =>
    (recordKind default_data_type inst_graph real_pc record.size).bind fun access_kind =>
      (unitsOf access_kind).map fun units => (access_kind, units)

/-- The flags name the local or the shared memory. -/
def NamesMemory (flags : ℕ) : Prop := flags &&& LOCAL ≠ 0 ∨ flags &&& SHARED ≠ 0

/-- The analysis finds the object of an access: a block contains it, or it does not reach the
predecessor of its address by running over the last address, and, if the flags name a memory, it
meets a block exactly when some block starts at or below it. -/
def Resolvable (memory_map : MemoryMap) (flags addr size : ℕ) : Prop :=
  Contained memory_map addr size ∨
    ((2^64 ≤ addr + size → ∀ e, memory_map.prev addr = some e →
      e.2.memory_range.stop < u64 (addr + size)) ∧
    (NamesMemory flags →
      (Meets memory_map addr size ↔ ∃ e ∈ memory_map.toList, e.2.memory_range.start ≤ addr)))

/-- A map of disjoint blocks with op ids, each at its start. -/
structure BlockMap (memory_map : MemoryMap) : Prop where
  blocks : DisjointBlocks memory_map
  keys : ∀ e ∈ memory_map.toList, e.2.memory_range.start = e.1

variable {memory_map : MemoryMap} {record : Record} {j : ℕ}

/-- There is no memory when the flags name none. -/
theorem localOrShared_eq_none_iff {flags memory_addr memory_size : ℕ} :
    localOrShared flags memory_addr memory_size = none ↔ ¬ NamesMemory flags := by
  unfold localOrShared NamesMemory
  split_ifs <;> simp_all

/-- The memory that the flags name is no block. -/
theorem localOrShared_ne_block {flags memory_addr memory_size : ℕ} (m : Memory) :
    some (LaneObject.ofBlock m) ≠ localOrShared flags memory_addr memory_size := by
  unfold localOrShared LaneObject.ofBlock
  split_ifs <;> simp

/-- A block that contains an access is the predecessor of its address. -/
theorem BlockMap.prev_eq (h : BlockMap memory_map) {e : ℕ × Memory} (he : e ∈ memory_map.toList)
    {addr size : ℕ} (hsize : 0 < size) (hstart : e.2.memory_range.start ≤ addr)
    (hstop : addr + size ≤ e.2.memory_range.stop) : memory_map.prev addr = some e :=
  h.blocks.prev_eq he ((h.keys e he).symm.trans_le hstart) (by omega)

/-- An access that a block contains is delivered under it, as it should be. -/
theorem BlockMap.laneObject_of_contained (h : BlockMap memory_map) (hsize : 0 < record.size)
    (hcontained : Contained memory_map (record.address j) record.size) :
    laneObject memory_map record j =
      resolvedObject memory_map record.flags (record.address j) record.size := by
  obtain ⟨e, he, hstart, hstop⟩ := hcontained
  have hprev := h.prev_eq he hsize hstart hstop
  have hword : u64 (record.address j + record.size) ≤ e.2.memory_range.stop :=
    (Nat.mod_le _ _).trans hstop
  have hlane : laneObject memory_map record j = some (.ofBlock e.2) := by
    unfold laneObject
    simp only [hprev]
    rw [if_pos ⟨hstart, hword⟩, if_neg (h.blocks.op_id_ne_zero e he)]
  unfold resolvedObject
  split
  case h_1 d hd =>
    -- Both blocks are the predecessor.
    have htest := List.find?_some hd
    simp only [decide_eq_true_eq] at htest
    have hprev' := h.prev_eq (List.mem_of_find?_eq_some hd) hsize htest.1 htest.2
    rw [hprev] at hprev'
    rw [hlane, Option.some.inj hprev']
  case h_2 hd =>
    have htest : e.2.memory_range.start ≤ record.address j ∧
        record.address j + record.size ≤ e.2.memory_range.stop := ⟨hstart, hstop⟩
    exact absurd (decide_eq_true htest) (List.find?_eq_none.1 hd e he)

/-- The object of an access that no block contains. -/
theorem resolvedObject_of_not_contained {flags addr size : ℕ}
    (h : ¬ Contained memory_map addr size) : resolvedObject memory_map flags addr size =
      if Meets memory_map addr size then none else localOrShared flags 0 0 := by
  have hnone : (memory_map.toList.find? fun e =>
      e.2.memory_range.start ≤ addr ∧ addr + size ≤ e.2.memory_range.stop) = none :=
    List.find?_eq_none.2 fun e he htest => h ⟨e, he, by simpa using htest⟩
  unfold resolvedObject
  rw [hnone]

/-- The object of a lane below all blocks. -/
theorem laneObject_of_prev_eq_none (hprev : memory_map.prev (record.address j) = none) :
    laneObject memory_map record j = localOrShared record.flags 0 0 := by
  unfold laneObject
  rw [hprev]

/-- The object of a lane above the start of some block: it is the predecessor, or nothing. -/
theorem BlockMap.laneObject_of_prev (h : BlockMap memory_map) {e : ℕ × Memory}
    (hprev : memory_map.prev (record.address j) = some e) :
    e ∈ memory_map.toList ∧ e.2.memory_range.start ≤ record.address j ∧
      laneObject memory_map record j =
        if u64 (record.address j + record.size) ≤ e.2.memory_range.stop then some (.ofBlock e.2)
        else none := by
  obtain ⟨⟨he, hle⟩, -⟩ := (memory_map.prev_eq_some_iff _ e).1 hprev
  have hstart : e.2.memory_range.start ≤ record.address j := (h.keys e he).trans_le hle
  refine ⟨he, hstart, ?_⟩
  unfold laneObject
  simp only [hprev, ge_iff_le, hstart, true_and, h.blocks.op_id_ne_zero e he, if_false]

/-- The object of a lane is the one that its address calls for exactly when it can be resolved. -/
theorem BlockMap.laneObject_eq_iff (h : BlockMap memory_map) (hsize : 0 < record.size) :
    laneObject memory_map record j =
        resolvedObject memory_map record.flags (record.address j) record.size ↔
      Resolvable memory_map record.flags (record.address j) record.size := by
  unfold Resolvable
  by_cases hcontained : Contained memory_map (record.address j) record.size
  · exact iff_of_true (h.laneObject_of_contained hsize hcontained) (.inl hcontained)
  · rw [resolvedObject_of_not_contained hcontained, or_iff_right hcontained]
    cases hprev : memory_map.prev (record.address j) with
    | none =>
      have hlow : ¬ ∃ e ∈ memory_map.toList, e.2.memory_range.start ≤ record.address j := by
        rintro ⟨e, he, hle⟩
        rw [h.keys e he] at hle
        exact absurd hle (not_le.2 ((memory_map.prev_eq_none_iff _).1 hprev e he))
      rw [laneObject_of_prev_eq_none hprev]
      simp only [reduceCtorEq, false_implies, implies_true, true_and, hlow, iff_false]
      split_ifs with hmeets
      · rw [localOrShared_eq_none_iff]
        simp [hmeets]
      · simp [hmeets]
    | some e =>
      obtain ⟨he, hstart, hlane⟩ := h.laneObject_of_prev hprev
      have hlow : ∃ e ∈ memory_map.toList, e.2.memory_range.start ≤ record.address j :=
        ⟨e, he, hstart⟩
      have hout : e.2.memory_range.stop < record.address j + record.size :=
        not_le.1 fun hstop => hcontained ⟨e, he, hstart, hstop⟩
      rw [hlane]
      simp only [Option.some.injEq, forall_eq', hlow, iff_true]
      by_cases hword : u64 (record.address j + record.size) ≤ e.2.memory_range.stop
      · -- The access has come round to the front of the predecessor.
        have hwrap : 2^64 ≤ record.address j + record.size := by
          by_contra hlt
          rw [u64_of_lt (not_le.1 hlt)] at hword
          omega
        have hne : some (LaneObject.ofBlock e.2) ≠
            if Meets memory_map (record.address j) record.size then none
            else localOrShared record.flags 0 0 := by
          split_ifs
          · exact Option.some_ne_none _
          · exact localOrShared_ne_block e.2
        rw [if_pos hword]
        exact iff_of_false hne fun hclause => absurd (hclause.1 hwrap) (not_lt.2 hword)
      · rw [if_neg hword, and_iff_right fun _ => not_le.1 hword]
        split_ifs with hmeets
        · exact iff_of_true rfl fun _ => hmeets
        · rw [eq_comm, localOrShared_eq_none_iff]
          exact ⟨fun hnames h => absurd h hnames, fun hall h => hmeets (hall h)⟩

/-! ## All records -/

section Records

variable {default_data_type : DataType} {digits : ℕ × ℕ} {inst_graph : InstructionGraph}
  {symbols : List Symbol} {records : List Record}

/-- The pcs of the accesses resolve. -/
def PcsResolve (default_data_type : DataType) (inst_graph : InstructionGraph)
    (symbols : List Symbol) (records : List Record) : Prop :=
  ∀ record ∈ records, record.isAccess →
    (recordUnits default_data_type inst_graph symbols record).isSome

/-- What is delivered for a lane when its units have some object, or none. -/
def delivered (digits : ℕ × ℕ) (record : Record) (j : ℕ) (kind_units : AccessKind × List (ℕ × ℕ))
    (object : Option LaneObject) : Option (LaneObject × List ThreadAccess) :=
  object.map fun object => (object, laneUnits digits record j kind_units.1 kind_units.2 object)

/-- A record is that of an access when no test of the loop skips it. -/
theorem isAccess_iff : record.isAccess = true ↔ record.size ≠ 0 ∧
    record.flags &&& BLOCK_ENTER_FLAG = 0 ∧ record.flags &&& BLOCK_EXIT_FLAG = 0 := by
  unfold Record.isAccess
  simp [and_assoc]

/-- The step of a lane whose units are known. -/
theorem laneStep_eq {access_kind : AccessKind} {units : List (ℕ × ℕ)}
    (h : unitsOf access_kind = some units) (j : ℕ) :
    laneStep digits memory_map record access_kind j =
      some (.lane record j (delivered digits record j (access_kind, units)
        (laneObject memory_map record j))) := by
  unfold laneStep delivered
  cases laneObject memory_map record j with
  | none => rfl
  | some object => rw [h]; rfl

/-- A record that is not that of an access adds no lane. -/
theorem traceAnalyzeDefault_cons_of_not {steps : List TraceStep} {result : PatchResult}
    (hnot : ¬record.isAccess) (hrest : traceAnalyzeDefault default_data_type digits inst_graph
      symbols memory_map records = some (steps, result)) :
    ∃ steps', traceAnalyzeDefault default_data_type digits inst_graph symbols memory_map
        (record :: records) = some (steps', result) ∧
      ∀ r j d, .lane r j d ∈ steps' ↔ .lane r j d ∈ steps := by
  unfold traceAnalyzeDefault
  simp only [hrest]
  split_ifs with hsize henter hexit
  · exact ⟨steps, rfl, fun _ _ _ => Iff.rfl⟩
  · exact ⟨steps, rfl, fun _ _ _ => Iff.rfl⟩
  · exact ⟨_, rfl, by simp⟩
  · exact absurd (isAccess_iff.2 ⟨hsize, not_not.1 henter, not_not.1 hexit⟩) hnot

/-- The record of an access adds its active lanes. -/
theorem traceAnalyzeDefault_cons {steps : List TraceStep} {result : PatchResult}
    {kind_units : AccessKind × List (ℕ × ℕ)} (haccess : record.isAccess)
    (hunits : recordUnits default_data_type inst_graph symbols record = some kind_units)
    (hrest : traceAnalyzeDefault default_data_type digits inst_graph symbols memory_map records =
      some (steps, result)) :
    traceAnalyzeDefault default_data_type digits inst_graph symbols memory_map
        (record :: records) =
      some ((activeLanes record).map (fun j => .lane record j
        (delivered digits record j kind_units (laneObject memory_map record j))) ++ steps,
        result) := by
  obtain ⟨hsize, henter, hexit⟩ := isAccess_iff.1 haccess
  obtain ⟨real_pc, hpc, hrecord⟩ := Option.bind_eq_some_iff.1 hunits
  obtain ⟨access_kind, hkind, hmap⟩ := Option.bind_eq_some_iff.1 hrecord
  obtain ⟨units, hunitsOf, rfl⟩ := Option.map_eq_some_iff.1 hmap
  have hlanes : (activeLanes record).mapM (laneStep digits memory_map record access_kind) =
      some ((activeLanes record).map fun j => .lane record j
        (delivered digits record j (access_kind, units) (laneObject memory_map record j))) :=
    mapM_eq_some_iff.2 (List.forall₂_map_right_iff.2
      (List.forall₂_same.2 fun j _ => laneStep_eq hunitsOf j))
  unfold traceAnalyzeDefault
  rw [if_neg hsize, if_neg (not_not.2 henter), if_neg (not_not.2 hexit)]
  simp only [hpc, hkind, hrest, Option.bind_some, hlanes, Option.map_some]

/-- What is delivered for a lane of a record. -/
def DeliversTo (default_data_type : DataType) (digits : ℕ × ℕ) (inst_graph : InstructionGraph)
    (symbols : List Symbol) (memory_map : MemoryMap) (r : Record) (j : ℕ)
    (d : Option (LaneObject × List ThreadAccess)) : Prop :=
  r.isAccess ∧ j ∈ activeLanes r ∧
    ∃ kind_units, recordUnits default_data_type inst_graph symbols r = some kind_units ∧
      d = delivered digits r j kind_units (laneObject memory_map r j)

/-- When the pcs resolve, the analysis succeeds, and goes over the active lanes of all accesses. -/
theorem traceAnalyzeDefault_spec (digits : ℕ × ℕ) (memory_map : MemoryMap)
    (h : PcsResolve default_data_type inst_graph symbols records) :
    ∃ steps, traceAnalyzeDefault default_data_type digits inst_graph symbols memory_map records =
        some (steps, .REDSHOW_SUCCESS) ∧
      ∀ r j d, .lane r j d ∈ steps ↔ r ∈ records ∧
        DeliversTo default_data_type digits inst_graph symbols memory_map r j d := by
  induction records with
  | nil => exact ⟨[], rfl, by simp⟩
  | cons record records ih =>
    obtain ⟨hrecord, hrecords⟩ := List.forall_mem_cons.1 h
    obtain ⟨steps, hrest, hsteps⟩ := ih hrecords
    by_cases haccess : record.isAccess
    · obtain ⟨kind_units, hunits⟩ := Option.isSome_iff_exists.1 (hrecord haccess)
      refine ⟨_, traceAnalyzeDefault_cons haccess hunits hrest, fun r j d => ?_⟩
      rw [List.mem_append, hsteps, List.mem_map]
      constructor
      · rintro (⟨j', hj, heq⟩ | ⟨hr, hrest⟩)
        · cases heq
          exact ⟨List.mem_cons_self, haccess, hj, _, hunits, rfl⟩
        · exact ⟨List.mem_cons_of_mem _ hr, hrest⟩
      · rintro ⟨hr, haccess', hj, kind_units', hkind_units, rfl⟩
        rcases List.mem_cons.1 hr with rfl | hr
        · cases hunits.symm.trans hkind_units
          exact .inl ⟨j, hj, rfl⟩
        · exact .inr ⟨hr, haccess', hj, kind_units', hkind_units, rfl⟩
    · -- A record that is skipped is not that of an access, and delivers nothing.
      obtain ⟨steps', htrace, hsame⟩ := traceAnalyzeDefault_cons_of_not haccess hrest
      refine ⟨steps', htrace, fun r j d => ?_⟩
      rw [hsame, hsteps, List.mem_cons]
      constructor
      · exact fun hr => ⟨.inr hr.1, hr.2⟩
      · rintro ⟨rfl | hr, hdelivers⟩
        · exact absurd hdelivers.1 haccess
        · exact ⟨hr, hdelivers⟩

/-- The analysis succeeds, and for every active lane of an access that has units it delivers them
under the object that the address calls for, and nothing else. -/
def ResolvesObjects (default_data_type : DataType) (digits : ℕ × ℕ) (inst_graph : InstructionGraph)
    (symbols : List Symbol) (memory_map : MemoryMap) (records : List Record) : Prop :=
  ∃ steps, traceAnalyzeDefault default_data_type digits inst_graph symbols memory_map records =
      some (steps, .REDSHOW_SUCCESS) ∧
    ∀ record ∈ records, record.isAccess → ∀ j ∈ activeLanes record, ∀ kind_units,
      recordUnits default_data_type inst_graph symbols record = some kind_units →
      kind_units.2 ≠ [] → (∃ d, .lane record j d ∈ steps) ∧ ∀ d, .lane record j d ∈ steps →
        d = delivered digits record j kind_units
          (resolvedObject memory_map record.flags (record.address j) record.size)

/-- Different objects make a difference to what is delivered. -/
theorem delivered_injective (digits : ℕ × ℕ) (record : Record) (j : ℕ)
    (kind_units : AccessKind × List (ℕ × ℕ)) :
    Function.Injective (delivered digits record j kind_units) :=
  Option.map_injective fun _ _ h => congrArg Prod.fst h

/-- In a map of disjoint blocks, the analysis of records whose pcs resolve delivers every lane under
the object that its address calls for exactly when the accesses of all lanes with units can be
resolved. -/
theorem trace_resolves_iff (hmap : BlockMap memory_map)
    (hpcs : PcsResolve default_data_type inst_graph symbols records) :
    ResolvesObjects default_data_type digits inst_graph symbols memory_map records ↔
      ∀ record ∈ records, record.isAccess → ∀ j ∈ activeLanes record, ∀ kind_units,
        recordUnits default_data_type inst_graph symbols record = some kind_units →
        kind_units.2 ≠ [] →
        Resolvable memory_map record.flags (record.address j) record.size := by
  obtain ⟨steps, htrace, hsteps⟩ :=
    traceAnalyzeDefault_spec digits memory_map hpcs
  have hlane : ∀ record ∈ records, record.isAccess → ∀ j ∈ activeLanes record, ∀ kind_units,
      recordUnits default_data_type inst_graph symbols record = some kind_units →
      .lane record j (delivered digits record j kind_units (laneObject memory_map record j)) ∈
        steps :=
    fun record hr haccess j hj kind_units hunits =>
      (hsteps _ _ _).2 ⟨hr, haccess, hj, kind_units, hunits, rfl⟩
  have hsize : ∀ record : Record, record.isAccess → 0 < record.size := fun record haccess =>
    Nat.pos_of_ne_zero (isAccess_iff.1 haccess).1
  constructor
  · rintro ⟨steps', htrace', hright⟩ record hr haccess j hj kind_units hunits hne
    obtain rfl : steps = steps' := by
      rw [htrace] at htrace'
      exact congrArg Prod.fst (Option.some.inj htrace')
    have hobject := (hright record hr haccess j hj kind_units hunits hne).2 _
      (hlane record hr haccess j hj kind_units hunits)
    exact (hmap.laneObject_eq_iff (hsize record haccess)).1
      (delivered_injective digits record j kind_units hobject)
  · intro hall
    refine ⟨steps, htrace, fun record hr haccess j hj kind_units hunits hne => ?_⟩
    have hobject := (hmap.laneObject_eq_iff (hsize record haccess)).2
      (hall record hr haccess j hj kind_units hunits hne)
    refine ⟨⟨_, hlane record hr haccess j hj kind_units hunits⟩, fun d hd => ?_⟩
    obtain ⟨-, -, -, kind_units', hunits', rfl⟩ := (hsteps _ _ _).1 hd
    rw [hunits] at hunits'
    cases hunits'
    rw [hobject]

end Records

/-- A symbol at the front of a cubin. -/
def firstSymbol : List Symbol := [⟨1, 0, 0, 0⟩]

/-- A block of sixteen bytes. -/
def lowBlock : MemoryMap := (∅ : MemoryMap).set 0x1000 ⟨7, 3, 0, ⟨0x1000, 0x1010⟩, 16, 0, 0⟩

/-- An access of the first lane to four bytes. -/
def oneLane (flags addr : ℕ) : Record := ⟨0, 4, 1, 0, 0, flags, fun _ => addr, fun _ _ => 0⟩

theorem lowBlock_blockMap : BlockMap lowBlock where
  blocks := ⟨by simp [blockSpans, lowBlock, OrderedMap.set], by decide⟩
  keys := by decide

theorem pcsResolve_oneLane (flags addr : ℕ) :
    PcsResolve .FLOAT Graph.empty firstSymbol [oneLane flags addr] := by
  intro record hr _
  obtain rfl := List.mem_singleton.1 hr
  rfl

/-- An access inside the block can be resolved. -/
theorem resolvable_lowBlock : Resolvable lowBlock READ 0x1008 4 :=
  .inl ⟨_, List.mem_singleton_self _, by decide, by decide⟩

/-- A read of the block. -/
theorem trace_resolves_read :
    ResolvesObjects .FLOAT (23, 52) Graph.empty firstSymbol lowBlock [oneLane READ 0x1008] :=
  (trace_resolves_iff lowBlock_blockMap (pcsResolve_oneLane READ 0x1008)).2 (by
    intro record hr _ j _ _ _ _
    obtain rfl := List.mem_singleton.1 hr
    exact resolvable_lowBlock)

/-- A read of local memory above a block that has nothing to do with it is skipped. -/
theorem trace_skips_local : ¬ ∀ (default_data_type : DataType) (digits : ℕ × ℕ)
    (inst_graph : InstructionGraph) (symbols : List Symbol) (memory_map : MemoryMap)
    (records : List Record), BlockMap memory_map →
      PcsResolve default_data_type inst_graph symbols records →
      ResolvesObjects default_data_type digits inst_graph symbols memory_map records := by
  intro hall
  obtain ⟨steps, htrace, hright⟩ := hall .FLOAT (23, 52) Graph.empty firstSymbol lowBlock
    [oneLane LOCAL 0x2000] lowBlock_blockMap (pcsResolve_oneLane LOCAL 0x2000)
  have hsteps : [TraceStep.lane (oneLane LOCAL 0x2000) 0 none] = steps :=
    congrArg Prod.fst (Option.some.inj htrace)
  have hnone := (hright _ (List.mem_singleton_self _) rfl 0 (by decide)
    (⟨32, 32, .FLOAT⟩, [(0, 4)]) rfl (by decide)).2 none (by simp [← hsteps])
  have hresolved : resolvedObject lowBlock LOCAL 0x2000 4 = none :=
    Option.map_eq_none_iff.1 hnone.symm
  exact absurd hresolved (by decide)

end TenProf
