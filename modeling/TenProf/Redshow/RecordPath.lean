import TenProf.GpuPatch.DefaultPatch
import TenProf.GpuPatch.QueueAccounts

/-!
# Full records from the device to the analyses

The warps of a kernel store their records through the queue of `gpu-queue.h` while the consumer
drains it, and `trace_analyze_default` goes over what each drain has read. `drains_trace` is about
the whole path: for any interleaving, what the analyses are called with is, drain by drain, what the
callbacks of the sampled blocks have passed, each of them once; a slot's earlier contents make no
difference but for the end of a block, which is skipped when the size that is left in its slot is
zero.
-/

namespace TenProf

open Binutils GpuPatch DataFlow ValuePattern

/-! ## One buffer -/

/-- A call of the analyses. -/
inductive AnalysisCall
  | block_exit (thread_id : ThreadId)
  | unit_access (access : ThreadAccess)
  deriving DecidableEq, Repr

/-- The calls of a step. -/
def TraceStep.calls : TraceStep → List AnalysisCall
  | block_exit thread_id => [.block_exit thread_id]
  | lane _ _ none => []
  | lane _ _ (some (_, units)) => units.map .unit_access

namespace GpuPatch

/-- The record of an access when no words of others are left in it. -/
def WarpAccess.record (force_int : ℕ) (a : WarpAccess) : Record where
  pc := a.pc
  size := a.size
  active := a.active_mask
  flat_thread_id := a.flatThreadId a.firstLaneid
  flat_block_id := a.flat_block_id
  flags := a.callbackFlags
  address := a.address
  value := a.valueByte force_int

/-- The accesses of a lane to the units of an object: the numbers of its bytes. -/
def WarpAccess.unitAccesses (force_int : ℕ) (digits : ℕ × ℕ) (a : WarpAccess)
    (kind_units : AccessKind × List (ℕ × ℕ)) (j : ℕ) (object : LaneObject) : List ThreadAccess :=
  let unit_access_kind := { kind_units.1 with vec_size := kind_units.1.unit_size }
  kind_units.2.zipIdx.map fun ((offset, byte_size), m) =>
    let value := littleEndian (fun i => a.valueByte force_int j (offset + i)) byte_size
    { thread_id := a.thread j
      access_kind := unit_access_kind
      memory := object.memory
      pc := a.pc
      value := valueToBasicType unit_access_kind value digits
      addr := a.address j
      index := m
      flags := a.callbackFlags }

section Buffer

variable (force_int : ℕ) (default_data_type : DataType) (digits : ℕ × ℕ)
  (inst_graph : InstructionGraph) (symbols : List Symbol) (memory_map : MemoryMap)

/-- The calls of the analyses for a callback. An access without bytes, and the end of a block in a
slot where the size zero is left, are taken for one without active threads. -/
def DeviceCall.calls (left : ℕ) : DeviceCall → List AnalysisCall
  | memory_access a =>
    let record := a.record force_int
    if a.size = 0 then []
    else
      match recordUnits default_data_type inst_graph symbols record with
      | none => []
      | some kind_units => a.lanes.flatMap fun j =>
        match laneObject memory_map record j with
        | none => []
        | some object => (a.unitAccesses force_int digits kind_units j object).map .unit_access
  | block_enter _ _ => []
  | block_exit w _ => if left = 0 then [] else w.lanes.map fun j => .block_exit (w.thread j)

/-- The pc of an access resolves, its flags are not those of the start or the end of a block, and
its units lie in the bytes of the access. -/
def DeviceCall.Analyzable : DeviceCall → Prop
  | memory_access a =>
    a.callbackFlags &&& BLOCK_ENTER_FLAG = 0 ∧ a.callbackFlags &&& BLOCK_EXIT_FLAG = 0 ∧
      (a.size ≠ 0 → ∃ kind_units,
        recordUnits default_data_type inst_graph symbols (a.record force_int) = some kind_units ∧
        ∀ unit ∈ kind_units.2, unit.1 + unit.2 ≤ a.size ∧ unit.2 ≤ 8)
  | block_enter _ _ => True
  | block_exit _ _ => True

variable {force_int default_data_type digits inst_graph symbols memory_map} {w : ActiveWarp}
  {a : WarpAccess} {pc flags j : ℕ} {record : Record} {records : List Record} {call : DeviceCall}

/-- The active lanes of a record are those of its warp. -/
theorem ShowsHead.activeLanes_eq (h : ShowsHead w pc flags record) : activeLanes record = w.lanes := by
  unfold activeLanes ActiveWarp.lanes Record.isActive
  rw [h.active]

/-- The host computes the threads of the lanes from that of the first one. -/
theorem ShowsHead.thread_eq (h : ShowsHead w pc flags record) (hj : j ∈ w.lanes) :
    record.thread j = w.thread j := by
  have hlt := (ActiveWarp.mem_lanes_iff.1 hj).1
  have hfirst := w.firstLaneid_lt
  have hthread := w.thread_lt
  have hwarp : (w.warp * 32 + w.firstLaneid) / 32 * 32 = w.warp * 32 := by omega
  unfold Record.thread ActiveWarp.thread
  rw [h.flat_block_id, h.flat_thread_id]
  unfold ActiveWarp.flatThreadId
  rw [hwarp, u32_of_lt (by omega)]

/-- The host finds the object of a lane from what the lane stored. -/
theorem ShowsAccess.laneObject_eq (h : ShowsAccess force_int a record) (hj : j ∈ a.lanes) :
    laneObject memory_map record j = laneObject memory_map (a.record force_int) j := by
  unfold laneObject
  rw [h.address j hj, h.size, h.flags]
  rfl

/-- The host finds the units from the pc and the size. -/
theorem ShowsAccess.recordUnits_eq (h : ShowsAccess force_int a record) :
    recordUnits default_data_type inst_graph symbols record =
      recordUnits default_data_type inst_graph symbols (a.record force_int) := by
  unfold recordUnits
  rw [h.pc, h.size]
  rfl

/-- The units of a lane have the bytes of its access. -/
theorem ShowsAccess.laneUnits_eq (h : ShowsAccess force_int a record) (hj : j ∈ a.lanes)
    {kind_units : AccessKind × List (ℕ × ℕ)}
    (hunits : ∀ unit ∈ kind_units.2, unit.1 + unit.2 ≤ a.size ∧ unit.2 ≤ 8)
    (object : LaneObject) : laneUnits digits record j kind_units.1 kind_units.2 object =
      a.unitAccesses force_int digits kind_units j object := by
  unfold laneUnits WarpAccess.unitAccesses
  refine List.map_congr_left fun unit hunit => ?_
  obtain ⟨⟨offset, byte_size⟩, m⟩ := unit
  obtain ⟨hsize, hbytes⟩ : offset + byte_size ≤ a.size ∧ byte_size ≤ 8 :=
    hunits _ (List.fst_mem_of_mem_zipIdx hunit)
  have hvalue : u64 ((List.range byte_size).map fun i =>
      (record.value j (offset + i)).toNat * 256^i).sum =
      littleEndian (fun i => a.valueByte force_int j (offset + i)) byte_size := by
    have hstored : littleEndian (fun i => record.value j (offset + i)) byte_size =
        littleEndian (fun i => a.valueByte force_int j (offset + i)) byte_size :=
      littleEndian_congr fun i hi => h.value j hj _ (by omega)
    have hlt := littleEndian_lt (fun i => a.valueByte force_int j (offset + i)) byte_size
    have hword : 256^byte_size ≤ 2^64 :=
      (Nat.pow_le_pow_right (by decide) hbytes).trans_eq (by norm_num)
    calc u64 ((List.range byte_size).map fun i => (record.value j (offset + i)).toNat * 256^i).sum
        = u64 (littleEndian (fun i => record.value j (offset + i)) byte_size) := rfl
      _ = littleEndian (fun i => a.valueByte force_int j (offset + i)) byte_size := by
        rw [hstored, u64_of_lt (hlt.trans_le hword)]
  dsimp only
  rw [hvalue, h.thread_eq hj, h.pc, h.flags, h.address j hj]

/-- The calls for the lanes of an access. -/
theorem ShowsAccess.flatMap_calls (h : ShowsAccess force_int a record)
    {kind_units : AccessKind × List (ℕ × ℕ)}
    (hunits : ∀ unit ∈ kind_units.2, unit.1 + unit.2 ≤ a.size ∧ unit.2 ≤ 8) :
    ((activeLanes record).map fun j => TraceStep.lane record j
        (delivered digits record j kind_units (laneObject memory_map record j))).flatMap
        TraceStep.calls =
      a.lanes.flatMap fun j =>
        match laneObject memory_map (a.record force_int) j with
        | none => []
        | some object => (a.unitAccesses force_int digits kind_units j object).map .unit_access := by
  rw [List.flatMap_map, h.activeLanes_eq]
  refine List.flatMap_congr fun j hj => ?_
  rw [h.laneObject_eq hj]
  cases laneObject memory_map (a.record force_int) j with
  | none => rfl
  | some object =>
    show (laneUnits digits record j kind_units.1 kind_units.2 object).map _ = _
    rw [h.laneUnits_eq hj hunits]

/-- One more record: the calls for it come before those of the others. -/
theorem traceAnalyzeDefault_cons_calls (h : Shows force_int record call)
    (hgood : call.Analyzable force_int default_data_type inst_graph symbols)
    {steps : List TraceStep} {result : PatchResult}
    (hrest : traceAnalyzeDefault default_data_type digits inst_graph symbols memory_map records =
      some (steps, result)) :
    ∃ head, traceAnalyzeDefault default_data_type digits inst_graph symbols memory_map
        (record :: records) = some (head ++ steps, result) ∧
      head.flatMap TraceStep.calls = call.calls force_int default_data_type digits inst_graph symbols
        memory_map record.size := by
  cases call with
  | block_enter w pc =>
    have hflag : record.flags &&& BLOCK_ENTER_FLAG ≠ 0 := by
      rw [h.flags]
      decide
    refine ⟨[], ?_, rfl⟩
    unfold traceAnalyzeDefault
    simp only [hrest, hflag, ne_eq, not_false_eq_true, if_true, ite_self, List.nil_append]
  | block_exit w pc =>
    have henter : record.flags &&& BLOCK_ENTER_FLAG = 0 := by
      rw [h.flags]
      decide
    have hexit : record.flags &&& BLOCK_EXIT_FLAG ≠ 0 := by
      rw [h.flags]
      decide
    by_cases hsize : record.size = 0
    · refine ⟨[], ?_, ?_⟩
      · unfold traceAnalyzeDefault
        simp only [hsize, if_true, hrest, List.nil_append]
      · exact (if_pos hsize).symm
    · refine ⟨(activeLanes record).map fun j => .block_exit (record.thread j), ?_, ?_⟩
      · unfold traceAnalyzeDefault
        rw [if_neg hsize, if_neg (not_not.2 henter), if_pos hexit, hrest, Option.map_some]
      · have hexits : (activeLanes record).flatMap (fun j => [AnalysisCall.block_exit
            (record.thread j)]) = w.lanes.map fun j => .block_exit (w.thread j) := by
          rw [ShowsHead.activeLanes_eq h, List.map_eq_flatMap]
          exact List.flatMap_congr fun j hj => by rw [ShowsHead.thread_eq h hj]
        have hcalls : DeviceCall.calls force_int default_data_type digits inst_graph symbols
            memory_map record.size (.block_exit w pc) =
            w.lanes.map fun j => .block_exit (w.thread j) := if_neg hsize
        rw [hcalls, ← hexits, List.flatMap_map]
        rfl
  | memory_access a =>
    obtain ⟨henter, hexit, hgood⟩ := hgood
    by_cases hsize : a.size = 0
    · have hrecord : record.size = 0 := h.size.trans hsize
      refine ⟨[], ?_, (if_pos hsize).symm⟩
      unfold traceAnalyzeDefault
      simp only [hrecord, if_true, hrest, List.nil_append]
    · obtain ⟨kind_units, hkind, hunits⟩ := hgood hsize
      have haccess : record.isAccess := by
        rw [isAccess_iff, h.size, h.flags]
        exact ⟨hsize, henter, hexit⟩
      refine ⟨_, traceAnalyzeDefault_cons haccess (h.recordUnits_eq.trans hkind) hrest, ?_⟩
      rw [h.flatMap_calls hunits]
      unfold DeviceCall.calls
      simp only [hsize, if_false, hkind]

/-- The analysis of records that show callbacks makes the calls for these. -/
theorem traceAnalyzeDefault_calls {device_calls : List DeviceCall}
    (h : List.Forall₂ (Shows force_int) records device_calls)
    (hgood : ∀ call ∈ device_calls,
      call.Analyzable force_int default_data_type inst_graph symbols) :
    ∃ steps, traceAnalyzeDefault default_data_type digits inst_graph symbols memory_map records =
        some (steps, .REDSHOW_SUCCESS) ∧
      steps.flatMap TraceStep.calls =
        (List.zipWith (fun call record => DeviceCall.calls force_int default_data_type digits
          inst_graph symbols memory_map (Record.size record) call) device_calls records).flatten := by
  induction h with
  | nil => exact ⟨[], rfl, rfl⟩
  | @cons record call records device_calls hshows _ ih =>
    obtain ⟨hcall, hcalls⟩ := List.forall_mem_cons.1 hgood
    obtain ⟨steps, hrest, hsteps⟩ := ih hcalls
    obtain ⟨head, hcons, hhead⟩ := traceAnalyzeDefault_cons_calls hshows hcall hrest
    refine ⟨head ++ steps, hcons, ?_⟩
    rw [List.flatMap_append, hhead, hsteps, List.zipWith_cons_cons, List.flatten_cons]

end Buffer

end GpuPatch

/-! ## The whole path -/

/-- A step on the device or of the consumer: a warp enters a callback, a warp goes on in it, or the
consumer goes on. -/
inductive DeviceAction (W : ℕ)
  | callback (w : Fin W) (call : DeviceCall)
  | warp (w : Fin W)
  | consumer

section Device

variable (force_int frequency offset size : ℕ) (analysis : Bool) {W : ℕ}

/-- One step. The callback returns at once in a block that is not sampled. -/
def deviceStep (s : GpuQueue.State W DeviceCall.recordWords) :
    DeviceAction W → Option (GpuQueue.State W DeviceCall.recordWords)
  | .callback w call =>
    let entered := GpuQueue.step size analysis s (.enter w (call.stores force_int))
    if sampleCallback frequency offset call.activeWarp.flat_block_id then entered
    else entered.map fun _ => s
  | .warp w => GpuQueue.step size analysis s (.warp w)
  | .consumer => GpuQueue.step size analysis s .consumer

/-- The callback of an action, if its block is sampled. -/
def sampledCall : DeviceAction W → Option DeviceCall
  | .callback _ call =>
    if sampleCallback frequency offset call.activeWarp.flat_block_id then some call else none
  | .warp _ => none
  | .consumer => none

/-- The callbacks of the sampled blocks. -/
def sampledCalls (as : List (DeviceAction W)) : List DeviceCall :=
  as.filterMap (sampledCall frequency offset)

variable {force_int frequency offset size analysis}
  {s s' : GpuQueue.State W DeviceCall.recordWords} {a : DeviceAction W} {as : List (DeviceAction W)}

/-- A step is one of the queue, into which it brings the record of its callback, or nothing. -/
theorem deviceStep_cases
    (h : deviceStep force_int frequency offset size analysis s a = some s') :
    (∃ action, GpuQueue.step size analysis s action = some s' ∧ action.entering =
      ((sampledCall frequency offset a).toList.map (DeviceCall.stores force_int) :
        List (GpuQueue.Stores DeviceCall.recordWords))) ∨
    s' = s ∧ sampledCall frequency offset a = none := by
  cases a with
  | callback w call =>
    unfold deviceStep at h
    unfold sampledCall
    dsimp only at h ⊢
    split_ifs at h ⊢ with hsampled
    · exact .inl ⟨_, h, rfl⟩
    · obtain ⟨-, -, rfl⟩ := Option.map_eq_some_iff.1 h
      exact .inr ⟨rfl, rfl⟩
  | warp w => exact .inl ⟨.warp w, h, rfl⟩
  | consumer => exact .inl ⟨.consumer, h, rfl⟩

/-- A step brings the record of its callback into the queue, if its block is sampled. -/
theorem taken_deviceStep
    (h : deviceStep force_int frequency offset size analysis s a = some s') :
    s'.taken = s.taken + ((sampledCall frequency offset a).toList.map (DeviceCall.stores force_int) :
      List (GpuQueue.Stores DeviceCall.recordWords)) := by
  obtain ⟨action, hstep, hentering⟩ | ⟨rfl, hnone⟩ := deviceStep_cases h
  · rw [GpuQueue.taken_step hstep, hentering]
  · rw [hnone]
    exact (add_zero _).symm

/-- A run brings the records of all callbacks of sampled blocks into the queue. -/
theorem taken_run (h : run (deviceStep force_int frequency offset size analysis) s as = some s') :
    s'.taken = s.taken + ((sampledCalls frequency offset as).map (DeviceCall.stores force_int) :
      List (GpuQueue.Stores DeviceCall.recordWords)) := by
  induction as generalizing s with
  | nil =>
    cases h
    exact (add_zero _).symm
  | cons a as ih =>
    obtain ⟨s₁, hstep, hrun⟩ := Option.bind_eq_some_iff.1 h
    have hcons : sampledCalls frequency offset (a :: as) =
        (sampledCall frequency offset a).toList ++ sampledCalls frequency offset as :=
      filterMap_cons_toList _ a as
    rw [ih hrun, taken_deviceStep hstep, hcons, List.map_append, ← Multiset.coe_add, add_assoc]

/-- A step keeps the queue safe. -/
theorem inv_deviceStep (hfits : GpuQueue.Fits size W) (hinv : GpuQueue.Inv size analysis s)
    (h : deviceStep force_int frequency offset size analysis s a = some s') :
    GpuQueue.Inv size analysis s' := by
  obtain ⟨action, hstep, -⟩ | ⟨rfl, -⟩ := deviceStep_cases h
  · exact hinv.step hfits hstep
  · exact hinv

/-- What the analyses are told of a drain is what its callbacks have passed. -/
def Tells (force_int : ℕ) (default_data_type : DataType) (digits : ℕ × ℕ)
    (inst_graph : InstructionGraph) (symbols : List Symbol) (memory_map : MemoryMap)
    (device_calls : List DeviceCall) (drain : List (GpuQueue.Record DeviceCall.recordWords)) :
    Prop :=
  ∃ steps, traceAnalyzeDefault default_data_type digits inst_graph symbols memory_map
      (drain.map Record.ofWords) = some (steps, .REDSHOW_SUCCESS) ∧
    steps.flatMap TraceStep.calls =
      (List.zipWith (fun call record => DeviceCall.calls force_int default_data_type digits
        inst_graph symbols memory_map (wordAt record 1) call) device_calls drain).flatten

/-- Whatever the interleaving of the warps and the consumer, each callback of a sampled block is told
once, in the drain of its record, or its record is not yet drained. -/
theorem drains_trace (default_data_type : DataType) (digits : ℕ × ℕ)
    (inst_graph : InstructionGraph) (symbols : List Symbol) (memory_map : MemoryMap)
    {records : ℕ → GpuQueue.Record DeviceCall.recordWords}
    (hfits : size + W < 2^32 ∨ size < 2^32 ∧ W ≤ 1)
    (hrun : run (deviceStep force_int frequency offset size analysis)
      (GpuQueue.start W records) as = some s)
    (hgood : ∀ call ∈ sampledCalls frequency offset as,
      call.Analyzable force_int default_data_type inst_graph symbols) :
    ∃ told pending, (told.flatten ++ pending).Perm (sampledCalls frequency offset as) ∧
      List.Forall₂ (fun device_calls drain => device_calls.length = size ∧
        Tells force_int default_data_type digits inst_graph symbols memory_map device_calls drain)
        told s.drains := by
  have hinv : GpuQueue.Inv size analysis s :=
    run_invariant' (fun s a s' h hstep => inv_deviceStep hfits h hstep)
      (GpuQueue.inv_start records) hrun
  obtain ⟨drained, rest, hpushed, hdrained, -⟩ := hinv.exists_drained
  -- The records of the callbacks are those that were read and others.
  have htaken : ((sampledCalls frequency offset as).map (DeviceCall.stores force_int)).Perm
      ((drained.map (List.map GpuQueue.Pushed.stores)).flatten ++
        (rest.map GpuQueue.Pushed.stores ++ s.pending.toList)) := by
    rw [← Multiset.coe_eq_coe, ← Multiset.coe_add, ← Multiset.coe_add, Multiset.coe_toList,
      ← add_assoc, Multiset.coe_add, ← List.map_flatten, ← List.map_append,
      ← Multiset.coe_eq_coe.2 (hpushed.map GpuQueue.Pushed.stores)]
    have hrecords := taken_run hrun
    rw [GpuQueue.taken_start, zero_add] at hrecords
    exact hrecords.symm
  obtain ⟨calls, hperm, hcalls⟩ := exists_perm_of_map_perm htaken
  obtain ⟨told, pending, rfl, htold, -⟩ := exists_flatten_of_map hcalls
  refine ⟨told, pending, hperm, ?_⟩
  have hholds : List.Forall₂ (List.Forall₂ fun call record =>
      GpuQueue.Holds (DeviceCall.stores force_int call) record) told s.drains := by
    have hstores : List.Forall₂ (List.Forall₂ GpuQueue.Holds)
        (drained.map (List.map GpuQueue.Pushed.stores)) s.drains :=
      List.forall₂_map_left_iff.2 (hdrained.imp fun _ _ h => List.forall₂_map_left_iff.2 h)
    rw [← htold] at hstores
    exact (List.forall₂_map_left_iff.1 hstores).imp fun _ _ h => List.forall₂_map_left_iff.1 h
  refine (forall₂_mem hholds).imp fun device_calls drain ⟨hcalls, hdrain, hmatch⟩ => ?_
  have hlen : device_calls.length = size :=
    hmatch.length_eq.trans (hinv.drained.length drain hdrain)
  have hshows : List.Forall₂ (Shows force_int) (drain.map Record.ofWords) device_calls :=
    List.forall₂_map_left_iff.2 (hmatch.flip.imp fun _ _ h => shows_of_holds h)
  have hanalyzable : ∀ call ∈ device_calls,
      call.Analyzable force_int default_data_type inst_graph symbols := fun call hcall =>
    hgood call (hperm.subset (List.mem_append_left _ (List.mem_flatten.2 ⟨_, hcalls, hcall⟩)))
  obtain ⟨steps, htrace, hsteps⟩ := traceAnalyzeDefault_calls hshows hanalyzable
  refine ⟨hlen, steps, htrace, hsteps.trans ?_⟩
  rw [List.zipWith_map_right]
  rfl

end Device

/-- The second lane of a warp reads four bytes. -/
def readOneLane : DeviceCall :=
  .memory_access {
    flat_block_id := 2
    warp := 1
    active_mask := 2
    space := .global
    pc := 0
    address := fun _ => 0x1008
    size := 4
    flags := READ
    new_value := fun _ => 0
    memory := ⟨fun _ _ => 0, fun _ _ => 0, fun _ => 1⟩
    buf := fun _ _ => 0 }

/-- A warp fills a buffer of one record, and finds it full at its next access. -/
def drainOnce : List (DeviceAction 1) :=
  .callback 0 readOneLane :: (List.replicate 552 (.warp 0) ++
    .callback 0 readOneLane :: (List.replicate 3 (.warp 0) ++ List.replicate 553 .consumer))

/-- The first access is drained and told, and the second one is not. -/
theorem drains_trace_drainOnce : ∃ s, run (deviceStep 0 1 0 1 false)
      (GpuQueue.start 1 fun _ _ => 0) drainOnce = some s ∧
    ∃ told pending, (told.flatten ++ pending).Perm [readOneLane, readOneLane] ∧
      List.Forall₂ (fun device_calls drain => device_calls.length = 1 ∧
        Tells 0 .FLOAT (23, 52) Graph.empty firstSymbol lowBlock device_calls drain)
        told s.drains ∧ told.length = 1 := by
  have hdrained : ∃ s, run (deviceStep 0 1 0 1 false) (GpuQueue.start 1 fun _ _ => 0) drainOnce =
      some s ∧ s.drains.length = 1 := by
    have hmap : (run (deviceStep 0 1 0 1 false) (GpuQueue.start 1 fun _ _ => 0) drainOnce).map
        (fun s => s.drains.length) = some 1 := by decide +kernel
    exact Option.map_eq_some_iff.1 hmap
  obtain ⟨s, hrun, hlength⟩ := hdrained
  have hcalls : sampledCalls 1 0 drainOnce = [readOneLane, readOneLane] := by
    have hsampled : sampledCall 1 0 (.callback (0 : Fin 1) readOneLane) = some readOneLane := rfl
    have hwarp (n : ℕ) : (List.replicate n (.warp (0 : Fin 1))).filterMap (sampledCall 1 0) = [] :=
      List.filterMap_replicate_of_none rfl
    have hconsumer : (List.replicate 553 (.consumer : DeviceAction 1)).filterMap
        (sampledCall 1 0) = [] := List.filterMap_replicate_of_none rfl
    unfold sampledCalls drainOnce
    simp only [List.filterMap_cons, List.filterMap_append, hsampled, hwarp, hconsumer,
      List.nil_append]
  have hgood : ∀ call ∈ sampledCalls 1 0 drainOnce,
      call.Analyzable 0 .FLOAT Graph.empty firstSymbol := by
    intro call hcall
    rw [hcalls] at hcall
    obtain rfl : call = readOneLane := by simpa using hcall
    exact ⟨rfl, rfl, fun _ => ⟨(⟨32, 32, .FLOAT⟩, [(0, 4)]), rfl, by decide⟩⟩
  obtain ⟨told, pending, hperm, htold⟩ := drains_trace .FLOAT (23, 52) Graph.empty firstSymbol
    lowBlock (.inr (by decide)) hrun hgood
  exact ⟨s, hrun, told, pending, hcalls ▸ hperm, htold, htold.length_eq.trans hlength⟩

end TenProf
