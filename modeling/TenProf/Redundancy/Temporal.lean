import TenProf.Library.Counts
import TenProf.Library.NestedMap
import TenProf.Operation.ThreadAccess

/-!
# Temporal redundancy

`TemporalRedundancy` keeps for each thread and each unit address the pc and the value of the last
access, and counts an access as redundant when it meets its own value there. `block_exit` forgets
what a thread has accessed. Reads and writes are kept apart. A count is a natural number here, since
no run makes `2^64` accesses. What the state stands for is said by the calls themselves:
`lastAccess` looks the last access of a unit up in the calls before, and `redundant_counts` says
that the counts are those of the accesses that repeat what is found there.
-/

namespace TenProf.Redundancy

open Binutils

/-- `TemporalTrace`: the last pc and value of the units that each thread has accessed. -/
abbrev TemporalTrace := NestedMap ThreadId ℕ (ℕ × ℕ)

/-- `PCPairs`. -/
abbrev PCPairs := OrderedMap ℕ (OrderedMap ℕ (OrderedMap (ℕ ×ₗ AccessKind) ℕ))

/-- `PCAccessCount`. -/
abbrev PCAccessCount := OrderedMap ℕ ℕ

/-- `RedundancyTrace` of `TemporalRedundancy`, less the kernel. -/
structure TemporalRedundancyTrace where
  read_temporal_trace : TemporalTrace := ∅
  read_pc_pairs : PCPairs := ∅
  read_pc_count : PCAccessCount := ∅
  write_temporal_trace : TemporalTrace := ∅
  write_pc_pairs : PCPairs := ∅
  write_pc_count : PCAccessCount := ∅
  deriving DecidableEq

/-- `pc_pairs[pc][prev_pc][std::make_pair(value, access_kind)] += 1`. -/
def countPair (pc_pairs : PCPairs) (pc prev_pc value : ℕ) (access_kind : AccessKind) : PCPairs :=
  pc_pairs.update pc ∅ fun pairs => pairs.update prev_pc ∅ fun counts =>
    counts.update (toLex (value, access_kind)) 0 (· + 1)

/-- `update_temporal_trace`: both of its last parameters after it. -/
def updateTemporalTrace (pc : ℕ) (thread_id : ThreadId) (addr value : ℕ) (access_kind : AccessKind)
    (temporal_trace : TemporalTrace) (pc_pairs : PCPairs) : TemporalTrace × PCPairs :=
  match temporal_trace.find? thread_id with
  | none =>
    -- The trace doesn't have the thread's record
    (temporal_trace.set thread_id (OrderedMap.set ∅ addr (pc, value)), pc_pairs)
  | some record =>
    let temporal_trace := temporal_trace.set thread_id (record.set addr (pc, value))
    match record.find? addr with
    | none => (temporal_trace, pc_pairs)
    | some (prev_pc, prev_value) =>
      (temporal_trace,
        if prev_value = value then countPair pc_pairs pc prev_pc prev_value access_kind
        else pc_pairs)

namespace TemporalRedundancyTrace

/-- `block_exit`. -/
def blockExit (trace : TemporalRedundancyTrace) (thread_id : ThreadId) : TemporalRedundancyTrace :=
  { trace with
    read_temporal_trace := trace.read_temporal_trace.erase thread_id
    write_temporal_trace := trace.write_temporal_trace.erase thread_id }

/-- The part of `unit_access` for a read. -/
def readAccess (trace : TemporalRedundancyTrace) (a : ThreadAccess) : TemporalRedundancyTrace :=
  let updated := updateTemporalTrace a.pc a.thread_id a.unit_addr a.value a.access_kind
    trace.read_temporal_trace trace.read_pc_pairs
  { trace with
    read_temporal_trace := updated.1
    read_pc_pairs := updated.2
    read_pc_count := trace.read_pc_count.update a.pc 0 (· + 1) }

/-- The part of `unit_access` for a write. -/
def writeAccess (trace : TemporalRedundancyTrace) (a : ThreadAccess) : TemporalRedundancyTrace :=
  let updated := updateTemporalTrace a.pc a.thread_id a.unit_addr a.value a.access_kind
    trace.write_temporal_trace trace.write_pc_pairs
  { trace with
    write_temporal_trace := updated.1
    write_pc_pairs := updated.2
    write_pc_count := trace.write_pc_count.update a.pc 0 (· + 1) }

/-- `unit_access`. -/
def unitAccess (trace : TemporalRedundancyTrace) (a : ThreadAccess) : TemporalRedundancyTrace :=
  let trace := if a.has .READ then trace.readAccess a else trace
  if a.has .WRITE then trace.writeAccess a else trace

/-- The members for one type of accesses. -/
structure Side where
  temporal_trace : TemporalTrace
  pc_pairs : PCPairs
  pc_count : PCAccessCount

/-- The members of a trace for a type of accesses. -/
def side (trace : TemporalRedundancyTrace) : RedshowAccessType → Side
  | .READ => ⟨trace.read_temporal_trace, trace.read_pc_pairs, trace.read_pc_count⟩
  | .WRITE => ⟨trace.write_temporal_trace, trace.write_pc_pairs, trace.write_pc_count⟩

end TemporalRedundancyTrace

/-- The calls that an analysis gets about a kernel. -/
inductive Call
  | unit_access (a : ThreadAccess)
  | block_exit (thread_id : ThreadId)
  deriving DecidableEq, Repr

/-- One call. -/
def TemporalRedundancyTrace.call (trace : TemporalRedundancyTrace) :
    Call → TemporalRedundancyTrace
  | .unit_access a => trace.unitAccess a
  | .block_exit thread_id => trace.blockExit thread_id

/-- The trace of a kernel after some calls. -/
def temporalTraceOf (calls : List Call) : TemporalRedundancyTrace :=
  calls.foldl TemporalRedundancyTrace.call {}

/-! ## The accesses before a call -/

/-- What a call says about the last access of some type that a thread has made to a unit: which one
it is, that there is none any more, or nothing. -/
def Call.latest (type : RedshowAccessType) (thread_id : ThreadId) (addr : ℕ) :
    Call → Option (Option (ℕ × ℕ))
  | .unit_access a =>
    if a.has type ∧ a.thread_id = thread_id ∧ a.unit_addr = addr then some (some (a.pc, a.value))
    else none
  | .block_exit thread => if thread = thread_id then some none else none

/-- The pc and the value of the last access of a type that a thread has made to a unit, since its
last `block_exit`. -/
def lastAccess (type : RedshowAccessType) (thread_id : ThreadId) (addr : ℕ) (before : List Call) :
    Option (ℕ × ℕ) :=
  (before.reverse.findSome? (Call.latest type thread_id addr)).join

/-- A call is a redundant access: it is at `pc`, with a value and a kind, and the last access to its
unit was at `p` and had the value. -/
def Call.Redundant (type : RedshowAccessType) (pc p value : ℕ) (kind : AccessKind)
    (before : List Call) : Call → Prop
  | .unit_access a => a.has type ∧ a.pc = pc ∧ a.value = value ∧ a.access_kind = kind ∧
      lastAccess type a.thread_id a.unit_addr before = some (p, value)
  | .block_exit _ => False

instance (type : RedshowAccessType) (pc p value : ℕ) (kind : AccessKind) (before : List Call) :
    (c : Call) → Decidable (c.Redundant type pc p value kind before)
  | .unit_access _ => inferInstanceAs (Decidable (_ ∧ _))
  | .block_exit _ => inferInstanceAs (Decidable False)

/-- The number of calls that are redundant accesses. -/
def redundantCount (type : RedshowAccessType) (pc p value : ℕ) (kind : AccessKind)
    (calls : List Call) : ℕ :=
  calls.zipIdx.countP fun c => c.1.Redundant type pc p value kind (calls.take c.2)

/-- `pc_pairs[pc][p][(value, kind)]`. -/
def pairCount (pc_pairs : PCPairs) (pc p value : ℕ) (kind : AccessKind) : ℕ :=
  ((pc_pairs.findD pc ∅).findD p ∅).findD (toLex (value, kind)) 0

/-- The sum of the counts of a pc. -/
def redundantTotal (pc_pairs : PCPairs) (pc : ℕ) : ℕ :=
  (pc_pairs.findD pc ∅).sumBy fun counts => counts.sumBy id

/-! ## What one call does -/

section Update

variable {pc : ℕ} {thread_id : ThreadId} {addr value : ℕ} {access_kind : AccessKind}
  {temporal_trace : TemporalTrace} {pc_pairs : PCPairs}

/-- The access becomes the last one to its unit. -/
theorem updateTemporalTrace_trace :
    (updateTemporalTrace pc thread_id addr value access_kind temporal_trace pc_pairs).1 =
      temporal_trace.put thread_id addr (pc, value) := by
  unfold updateTemporalTrace NestedMap.put OrderedMap.findD
  cases h : temporal_trace.find? thread_id with
  | none => rfl
  | some record =>
    dsimp only
    cases record.find? addr <;> rfl

/-- The access is counted if the last one to its unit had its value. -/
theorem updateTemporalTrace_pairs :
    (updateTemporalTrace pc thread_id addr value access_kind temporal_trace pc_pairs).2 =
      match temporal_trace.get? thread_id addr with
      | some (p, w) => if w = value then countPair pc_pairs pc p value access_kind else pc_pairs
      | none => pc_pairs := by
  unfold updateTemporalTrace NestedMap.get? OrderedMap.findD
  cases h : temporal_trace.find? thread_id with
  | none => rfl
  | some record =>
    show _ = match record.find? addr with
      | some (p, w) => if w = value then countPair pc_pairs pc p value access_kind else pc_pairs
      | none => pc_pairs
    dsimp only
    cases hlast : record.find? addr with
    | none => rfl
    | some last =>
      dsimp only
      split_ifs with hw
      · rw [hw]
      · rfl

/-- A count is raised exactly when its own pair is counted. -/
theorem pairCount_countPair (pc' p p' value' : ℕ) (kind' : AccessKind) :
    pairCount (countPair pc_pairs pc p value access_kind) pc' p' value' kind' =
      pairCount pc_pairs pc' p' value' kind' +
        if pc = pc' ∧ p = p' ∧ value = value' ∧ access_kind = kind' then 1 else 0 := by
  unfold pairCount countPair
  by_cases hpc : pc' = pc
  · by_cases hp : p' = p
    · rw [OrderedMap.findD_update, if_pos hpc, OrderedMap.findD_update, if_pos hp,
        OrderedMap.findD_update]
      have hkey : (toLex (value', kind') = toLex (value, access_kind)) ↔
          value = value' ∧ access_kind = kind' := by
        simp [eq_comm]
      by_cases hv : value = value' ∧ access_kind = kind'
      · rw [if_pos (hkey.2 hv), if_pos ⟨hpc.symm, hp.symm, hv⟩]
      · rw [if_neg (mt hkey.1 hv), if_neg fun h => hv h.2.2, Nat.add_zero]
    · rw [OrderedMap.findD_update, if_pos hpc, OrderedMap.findD_update, if_neg hp,
        if_neg fun h => hp h.2.1.symm, Nat.add_zero]
  · rw [OrderedMap.findD_update, if_neg hpc, if_neg fun h => hpc h.1.symm, Nat.add_zero]

/-- The sum of the counts of a pc is raised exactly when one of its pairs is counted. -/
theorem redundantTotal_countPair (pc' p : ℕ) :
    redundantTotal (countPair pc_pairs pc p value access_kind) pc' =
      redundantTotal pc_pairs pc' + if pc' = pc then 1 else 0 := by
  unfold redundantTotal countPair
  rw [OrderedMap.findD_update]
  split_ifs with hpc
  · generalize pc_pairs.findD pc' ∅ = pairs
    have hinner := OrderedMap.sumBy_update id (pairs.findD p ∅) (toLex (value, access_kind))
      (d := 0) rfl (· + 1)
    have houter := OrderedMap.sumBy_update (fun counts => OrderedMap.sumBy id counts) pairs p
      (d := ∅) rfl fun counts => counts.update (toLex (value, access_kind)) 0 (· + 1)
    simp only [id] at hinner houter
    omega
  · rfl

/-- An access is counted at most once, and only at its pc. -/
theorem redundantTotal_updateTemporalTrace_le (pc' : ℕ) :
    redundantTotal
        (updateTemporalTrace pc thread_id addr value access_kind temporal_trace pc_pairs).2 pc' ≤
      redundantTotal pc_pairs pc' + if pc' = pc then 1 else 0 := by
  rw [updateTemporalTrace_pairs]
  cases temporal_trace.get? thread_id addr with
  | none => exact Nat.le_add_right _ _
  | some last =>
    dsimp only
    by_cases hw : last.2 = value
    · rw [if_pos hw, redundantTotal_countPair]
    · rw [if_neg hw]
      exact Nat.le_add_right _ _

end Update

namespace TemporalRedundancyTrace

variable {type : RedshowAccessType} {trace : TemporalRedundancyTrace}

/-- A `block_exit` takes what the thread has accessed. -/
theorem side_blockExit (thread_id : ThreadId) :
    (trace.blockExit thread_id).side type =
      { trace.side type with
        temporal_trace := (trace.side type).temporal_trace.erase thread_id } := by
  cases type <;> rfl

/-- An access changes the members of its types, and each in the same way. -/
theorem side_unitAccess (a : ThreadAccess) :
    (trace.unitAccess a).side type =
      if a.has type then
        let updated := updateTemporalTrace a.pc a.thread_id a.unit_addr a.value a.access_kind
          (trace.side type).temporal_trace (trace.side type).pc_pairs
        ⟨updated.1, updated.2, (trace.side type).pc_count.update a.pc 0 (· + 1)⟩
      else trace.side type := by
  unfold unitAccess
  cases type with
  | READ =>
    have hwrite : ∀ trace : TemporalRedundancyTrace,
        (if a.has .WRITE then trace.writeAccess a else trace).side .READ = trace.side .READ := by
      intro trace
      split_ifs <;> rfl
    dsimp only
    rw [hwrite]
    split_ifs <;> rfl
  | WRITE =>
    dsimp only
    by_cases hread : a.has .READ = true
    · rw [if_pos hread]
      split_ifs <;> rfl
    · rw [if_neg hread]
      split_ifs <;> rfl

end TemporalRedundancyTrace

/-! ## What all calls do -/

section Run

variable {type : RedshowAccessType} {calls : List Call} {c : Call}

/-- The last call decides about the last access when it says something about it. -/
theorem lastAccess_append (thread_id : ThreadId) (addr : ℕ) :
    lastAccess type thread_id addr (calls ++ [c]) =
      (c.latest type thread_id addr).getD (lastAccess type thread_id addr calls) := by
  unfold lastAccess
  rw [List.reverse_append, List.reverse_singleton, List.singleton_append, List.findSome?_cons]
  cases c.latest type thread_id addr <;> rfl

/-- An access was the last one to a unit if it is found behind which no call says anything about
the unit. -/
theorem lastAccess_eq_some_iff {thread_id : ThreadId} {addr pc value : ℕ} :
    lastAccess type thread_id addr calls = some (pc, value) ↔
      ∃ before a later, calls = before ++ Call.unit_access a :: later ∧
        (a.has type ∧ a.thread_id = thread_id ∧ a.unit_addr = addr) ∧
        (a.pc = pc ∧ a.value = value) ∧
        ∀ c ∈ later, c.latest type thread_id addr = none := by
  unfold lastAccess
  rw [Option.join_eq_some_iff, List.findSome?_eq_some_iff]
  constructor
  · rintro ⟨later, c, before, hsplit, hc, hlater⟩
    cases c with
    | block_exit thread =>
      unfold Call.latest at hc
      dsimp only at hc
      split_ifs at hc
      cases hc
    | unit_access a =>
      unfold Call.latest at hc
      dsimp only at hc
      split_ifs at hc with hunit
      cases hc
      refine ⟨before.reverse, a, later.reverse, ?_, hunit, ⟨rfl, rfl⟩, fun c hc => ?_⟩
      · rw [← List.reverse_reverse calls, hsplit]
        simp
      · exact hlater c (List.mem_reverse.1 hc)
  · rintro ⟨before, a, later, rfl, hunit, ⟨rfl, rfl⟩, hlater⟩
    refine ⟨later.reverse, .unit_access a, before.reverse, by simp, ?_, fun c hc => ?_⟩
    · exact if_pos hunit
    · exact hlater c (List.mem_reverse.1 hc)

/-- The last call counts when it is redundant itself. -/
theorem redundantCount_append (pc p value : ℕ) (kind : AccessKind) :
    redundantCount type pc p value kind (calls ++ [c]) =
      redundantCount type pc p value kind calls +
        if c.Redundant type pc p value kind calls then 1 else 0 := by
  unfold redundantCount
  rw [List.zipIdx_append, List.countP_append]
  congr 1
  · -- The calls before it have the same calls before them.
    refine List.countP_congr fun e he => ?_
    have hlt : e.2 < calls.length := by simpa using List.snd_lt_of_mem_zipIdx he
    rw [List.take_append_of_le_length hlt.le]
  · rw [Nat.zero_add, List.zipIdx_singleton, List.countP_singleton, List.take_left]
    simp only [decide_eq_true_eq]

/-- The first access to a unit is not redundant. -/
theorem not_redundant_of_none {a : ThreadAccess} {pc p value : ℕ} {kind : AccessKind}
    (hfound : lastAccess type a.thread_id a.unit_addr calls = none) :
    ¬(Call.unit_access a).Redundant type pc p value kind calls := by
  rintro ⟨-, -, -, -, hlast⟩
  rw [hfound] at hlast
  cases hlast

/-- An access is redundant with the last one to its unit when the values are the same. -/
theorem redundant_iff_of_some {a : ThreadAccess} {p' w : ℕ} (htype : a.has type = true)
    (hfound : lastAccess type a.thread_id a.unit_addr calls = some (p', w)) (pc p value : ℕ)
    (kind : AccessKind) :
    (Call.unit_access a).Redundant type pc p value kind calls ↔
      w = a.value ∧ a.pc = pc ∧ p' = p ∧ a.value = value ∧ a.access_kind = kind := by
  show _ ∧ _ ∧ _ ∧ _ ∧ _ ↔ _
  rw [hfound]
  simp only [htype, Option.some.injEq, Prod.mk.injEq, true_and]
  constructor
  · rintro ⟨hpc, hvalue, hkind, hp, hw⟩
    exact ⟨hw.trans hvalue.symm, hpc, hp, hvalue, hkind⟩
  · rintro ⟨hw, hpc, hp, hvalue, hkind⟩
    exact ⟨hpc, hvalue, hkind, hp, hw.trans hvalue⟩

/-- What the members for a type of accesses are after some calls. -/
structure SideOf (type : RedshowAccessType) (calls : List Call)
    (side : TemporalRedundancyTrace.Side) : Prop where
  last : ∀ thread_id addr,
    side.temporal_trace.get? thread_id addr = lastAccess type thread_id addr calls
  pairs : ∀ pc p value kind,
    pairCount side.pc_pairs pc p value kind = redundantCount type pc p value kind calls
  total_le : ∀ pc, redundantTotal side.pc_pairs pc ≤ side.pc_count.findD pc 0

/-- A `block_exit` keeps the members right. -/
theorem SideOf.after_blockExit {trace : TemporalRedundancyTrace} (thread_id : ThreadId)
    (h : SideOf type calls (trace.side type)) :
    SideOf type (calls ++ [.block_exit thread_id]) ((trace.blockExit thread_id).side type) := by
  rw [TemporalRedundancyTrace.side_blockExit]
  refine ⟨fun thread addr => ?_, fun pc p value kind => ?_, h.total_le⟩
  · rw [lastAccess_append, ← h.last]
    unfold NestedMap.get? Call.latest
    dsimp only
    rw [OrderedMap.findD_erase]
    by_cases hthread : thread_id = thread
    · rw [if_pos hthread.symm, if_pos hthread]
      rfl
    · rw [if_neg (Ne.symm hthread), if_neg hthread]
      rfl
  · rw [redundantCount_append, if_neg (by exact id), Nat.add_zero]
    exact h.pairs pc p value kind

/-- An access keeps the members right. -/
theorem SideOf.after_unitAccess {trace : TemporalRedundancyTrace} (a : ThreadAccess)
    (h : SideOf type calls (trace.side type)) :
    SideOf type (calls ++ [.unit_access a]) ((trace.unitAccess a).side type) := by
  rw [TemporalRedundancyTrace.side_unitAccess]
  generalize trace.side type = side at h ⊢
  by_cases htype : a.has type = true
  · rw [if_pos htype]
    have hlast := h.last a.thread_id a.unit_addr
    refine ⟨fun thread addr => ?_, fun pc p value kind => ?_, fun pc => ?_⟩
    · -- The access is now the last one to its own unit.
      show (updateTemporalTrace ..).1.get? thread addr = _
      rw [updateTemporalTrace_trace, NestedMap.get?_put, lastAccess_append, ← h.last]
      unfold Call.latest
      dsimp only
      by_cases hunit : thread = a.thread_id ∧ addr = a.unit_addr
      · rw [if_pos hunit, if_pos ⟨htype, hunit.1.symm, hunit.2.symm⟩]
        rfl
      · rw [if_neg hunit, if_neg fun hsame => hunit ⟨hsame.2.1.symm, hsame.2.2.symm⟩]
        rfl
    · show pairCount (updateTemporalTrace ..).2 pc p value kind = _
      rw [updateTemporalTrace_pairs, redundantCount_append, ← h.pairs, hlast]
      cases hfound : lastAccess type a.thread_id a.unit_addr calls with
      | none =>
        rw [if_neg (not_redundant_of_none hfound)]
        rfl
      | some last =>
        obtain ⟨p', w⟩ := last
        have hred := redundant_iff_of_some htype hfound pc p value kind
        dsimp only
        by_cases hw : w = a.value
        · rw [if_pos hw, pairCount_countPair]
          simp only [hred, hw, true_and]
        · rw [if_neg hw, if_neg fun hboth => hw (hred.1 hboth).1, Nat.add_zero]
    · have hold := h.total_le pc
      calc redundantTotal (updateTemporalTrace ..).2 pc
          ≤ redundantTotal side.pc_pairs pc + if pc = a.pc then 1 else 0 :=
            redundantTotal_updateTemporalTrace_le pc
        _ ≤ (side.pc_count.update a.pc 0 (· + 1)).findD pc 0 := by
            rw [OrderedMap.findD_update]
            split_ifs <;> omega
  · rw [if_neg htype]
    refine ⟨fun thread addr => ?_, fun pc p value kind => ?_, h.total_le⟩
    · rw [lastAccess_append, ← h.last]
      unfold Call.latest
      dsimp only
      rw [if_neg fun hunit => htype hunit.1]
      rfl
    · rw [redundantCount_append, if_neg fun hred => htype hred.1, Nat.add_zero]
      exact h.pairs pc p value kind

/-- The members are right after any calls. -/
theorem sideOf_temporalTraceOf (type : RedshowAccessType) (calls : List Call) :
    SideOf type calls ((temporalTraceOf calls).side type) := by
  induction calls using List.reverseRecOn with
  | nil =>
    cases type <;>
      exact ⟨fun _ _ => rfl, fun _ _ _ _ => rfl, fun _ => le_rfl⟩
  | append_singleton calls c ih =>
    have hrun : temporalTraceOf (calls ++ [c]) = (temporalTraceOf calls).call c :=
      List.foldl_concat ..
    rw [hrun]
    cases c with
    | unit_access a => exact ih.after_unitAccess a
    | block_exit thread_id => exact ih.after_blockExit thread_id

/-- The counts of a pc are those of its accesses that repeat the value which the last access to
their unit had, by the pc of that one, and the pc has at least as many accesses. -/
theorem redundant_counts (type : RedshowAccessType) (calls : List Call) :
    (∀ pc p value kind, pairCount ((temporalTraceOf calls).side type).pc_pairs pc p value kind =
      redundantCount type pc p value kind calls) ∧
    ∀ pc, redundantTotal ((temporalTraceOf calls).side type).pc_pairs pc ≤
      ((temporalTraceOf calls).side type).pc_count.findD pc 0 :=
  ⟨(sideOf_temporalTraceOf type calls).pairs, (sideOf_temporalTraceOf type calls).total_le⟩

end Run

end TenProf.Redundancy
