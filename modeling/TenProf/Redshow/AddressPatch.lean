import TenProf.Binutils.Symbol
import TenProf.GpuAnalysis.IntervalCompact
import TenProf.Redshow.AddressAnalysis

/-!
# The analysis of raw addresses

`trace_analyze_address_patch` goes over the records and, in each, over the lanes. It hands the
analyses the access of an active lane if the predecessor of its address in the map is a known block
that it lies in, and returns early when the pc of such an access has no symbol. What the accesses
and the pieces of merged intervals have in common is the set of their bytes, each with the op id of
its block (`bytesOf`).
-/

namespace TenProf

open Binutils (Symbol transformPc)

/-- `redshow_result_t`, as far as `trace_analyze_address_patch` returns it. -/
inductive PatchResult
  | REDSHOW_SUCCESS
  | REDSHOW_ERROR_FAILED_ANALYZE_CUBIN
  deriving DecidableEq, Repr

/-- What `unit_access` gets of an access of a lane. -/
structure PatchAccess where
  access : UnitAccess
  unit_size : ℕ
  pc_offset : ℕ
  deriving DecidableEq, Repr

/-- The access of a lane, unless the lane is not active or the access is not in a known block. -/
def laneAccess (memory_map : MemoryMap) (record : RecordAddress) (j : ℕ) : Option UnitAccess :=
  if record.active &&& (1#32 <<< j) = 0#32 then none
  else
    match memory_map.prev (record.address j) with
    -- Unknown memory object
    | none => none
    | some iter =>
      if record.address j ≥ iter.2.memory_range.start ∧
          u64 (record.address j + record.size) ≤ iter.2.memory_range.stop then
        if iter.2.op_id = 0 then none
        else some ⟨iter.2.op_id, iter.2.ctx_id,
          ⟨record.address j, u64 (record.address j + record.size)⟩, record.size, record.flags⟩
      else none

/-- The loop over lanes of records: what it delivers, and its result. -/
def patchAccesses (symbols : List Symbol) (memory_map : MemoryMap) :
    List (RecordAddress × ℕ) → List PatchAccess × PatchResult
  | [] => ([], .REDSHOW_SUCCESS)
  | (record, j) :: rest =>
    match laneAccess memory_map record j with
    | none => patchAccesses symbols memory_map rest
    | some access =>
      match transformPc symbols record.pc with
      | none => ([], .REDSHOW_ERROR_FAILED_ANALYZE_CUBIN)
      | some real_pc =>
        let (delivered, result) := patchAccesses symbols memory_map rest
        (⟨access, record.size, real_pc.pc_offset⟩ :: delivered, result)

/-- `trace_analyze_address_patch`: what it delivers for the records of a buffer, and its result. -/
def traceAnalyzeAddressPatch (symbols : List Symbol) (memory_map : MemoryMap)
    (records : List RecordAddress) : List PatchAccess × PatchResult :=
  patchAccesses symbols memory_map
    (records.flatMap fun record => (List.range 32).map fun j => (record, j))

/-- The bytes of the accesses that have a flag, each with the op id of its access. -/
def bytesOf (flag : ℕ) (l : List UnitAccess) : Set (ℕ × ℕ) :=
  {b | ∃ a ∈ l, a.flags &&& flag ≠ 0 ∧ a.op_id = b.1 ∧
    a.memory_range.start ≤ b.2 ∧ b.2 < a.memory_range.stop}

/-- The bytes of a kind in the blocks of a map, each with the op id of its block. -/
def blockBytes (memory_map : MemoryMap) (P : ℕ → Prop) : Set (ℕ × ℕ) :=
  {b | P b.2 ∧ ∃ e ∈ memory_map.toList, e.2.op_id = b.1 ∧ e.1 ≤ b.2 ∧ b.2 < e.2.memory_range.stop}

/-- Records whose pcs have symbols, and whose active lanes access addresses other than zero inside
the blocks of a map and before a bound. -/
structure Traced (symbols : List Symbol) (memory_map : MemoryMap) (bound : ℕ)
    (records : List RecordAddress) : Prop where
  blocks : DisjointBlocks memory_map
  keys : ∀ e ∈ memory_map.toList, e.2.memory_range.start = e.1
  resolves : ∀ record ∈ records, (transformPc symbols record.pc).isSome
  inside : ∀ record ∈ records, ∀ l < 32, record.active.getLsbD l = true →
    0 < record.address l ∧ record.address l + record.size < bound ∧
      ∃ e ∈ memory_map.toList, e.1 ≤ record.address l ∧
        record.address l + record.size ≤ e.2.memory_range.stop

variable {symbols : List Symbol} {memory_map : MemoryMap} {bound flag : ℕ}
  {record : RecordAddress} {records : List RecordAddress}

/-- When all pcs have symbols, nothing is skipped but the accesses of no known block. -/
theorem patchAccesses_eq (memory_map : MemoryMap) {lanes : List (RecordAddress × ℕ)}
    (h : ∀ p ∈ lanes, (transformPc symbols p.1.pc).isSome) :
    (patchAccesses symbols memory_map lanes).2 = .REDSHOW_SUCCESS ∧
      (patchAccesses symbols memory_map lanes).1.map PatchAccess.access =
        lanes.filterMap fun p => laneAccess memory_map p.1 p.2 := by
  induction lanes with
  | nil => exact ⟨rfl, rfl⟩
  | cons p lanes ih =>
    obtain ⟨record, j⟩ := p
    obtain ⟨hp, hlanes⟩ := List.forall_mem_cons.1 h
    obtain ⟨hresult, hdelivered⟩ := ih hlanes
    obtain ⟨real_pc, hpc⟩ := Option.isSome_iff_exists.1 hp
    rw [List.filterMap_cons]
    unfold patchAccesses
    cases laneAccess memory_map record j with
    | none => exact ⟨hresult, hdelivered⟩
    | some access => simp only [hpc, List.map_cons, hresult, hdelivered, and_self]

/-- An access that is delivered is that of an active lane, and lies in the block whose op id it
carries. -/
theorem laneAccess_eq_some {j : ℕ} (hj : j < 32) {a : UnitAccess}
    (h : laneAccess memory_map record j = some a) :
    record.active.getLsbD j = true ∧ a.flags = record.flags ∧
      a.memory_range = ⟨record.address j, u64 (record.address j + record.size)⟩ ∧
      ∃ e ∈ memory_map.toList, e.2.op_id = a.op_id ∧ e.1 ≤ record.address j ∧
        u64 (record.address j + record.size) ≤ e.2.memory_range.stop := by
  unfold laneAccess at h
  split_ifs at h with hinactive
  have hactive : record.active.getLsbD j = true := by
    rw [BitVec.and_comm, shiftLeft_and_eq_zero_iff record.active hj] at hinactive
    simpa using hinactive
  cases hprev : memory_map.prev (record.address j) with
  | none => simp [hprev] at h
  | some e =>
    simp only [hprev] at h
    split_ifs at h with hin hid
    obtain rfl := Option.some.inj h
    obtain ⟨⟨he, hle⟩, -⟩ := (memory_map.prev_eq_some_iff _ e).1 hprev
    exact ⟨hactive, rfl, rfl, e, he, rfl, hle, hin.2⟩

/-- An access that is not empty is delivered with the op id of the block that it lies in. -/
theorem laneAccess_of_inside (hblocks : DisjointBlocks memory_map) {j : ℕ} (hj : j < 32)
    (hactive : record.active.getLsbD j = true) {e : ℕ × Memory} (he : e ∈ memory_map.toList)
    (hkey : e.2.memory_range.start = e.1) (hstart : e.1 ≤ record.address j)
    (hstop : record.address j + record.size ≤ e.2.memory_range.stop) (hsize : 0 < record.size)
    (hword : record.address j + record.size < 2^64) :
    laneAccess memory_map record j = some ⟨e.2.op_id, e.2.ctx_id,
      ⟨record.address j, record.address j + record.size⟩, record.size, record.flags⟩ := by
  have hnonzero : ¬record.active &&& (1#32 <<< j) = 0#32 := by
    rw [BitVec.and_comm, shiftLeft_and_eq_zero_iff record.active hj, hactive]
    decide
  unfold laneAccess
  rw [if_neg hnonzero, hblocks.prev_eq he hstart (by omega)]
  simp only [u64_of_lt hword]
  rw [if_pos ⟨hkey ▸ hstart, hstop⟩, if_neg (hblocks.op_id_ne_zero e he)]

/-- In a map of disjoint blocks, only one block holds a byte. -/
theorem DisjointBlocks.eq_of_mem (h : DisjointBlocks memory_map) {e d : ℕ × Memory}
    (he : e ∈ memory_map.toList) (hd : d ∈ memory_map.toList) {x : ℕ}
    (hex : e.1 ≤ x ∧ x < e.2.memory_range.stop) (hdx : d.1 ≤ x ∧ x < d.2.memory_range.stop) :
    e = d := by
  have hprev := h.prev_eq he hex.1 hex.2
  rw [h.prev_eq hd hdx.1 hdx.2] at hprev
  exact (Option.some.inj hprev).symm

/-- For traced records, the analysis succeeds and delivers the bytes of the accesses that have a
flag. -/
theorem Traced.bytesOf_patch (h : Traced symbols memory_map bound records) (hbound : bound ≤ 2^64)
    (flag : ℕ) : (traceAnalyzeAddressPatch symbols memory_map records).2 = .REDSHOW_SUCCESS ∧
      bytesOf flag ((traceAnalyzeAddressPatch symbols memory_map records).1.map
        PatchAccess.access) =
        blockBytes memory_map fun x =>
          ∃ record ∈ records, record.flags &&& flag ≠ 0 ∧ record.Accesses x := by
  have hmem : ∀ p, p ∈ records.flatMap (fun record => (List.range 32).map fun j => (record, j)) ↔
      p.1 ∈ records ∧ p.2 < 32 := by
    rintro ⟨record, j⟩
    simp [and_comm]
  obtain ⟨hresult, hdelivered⟩ := patchAccesses_eq memory_map fun p hp =>
    h.resolves p.1 ((hmem p).1 hp).1
  refine ⟨hresult, ?_⟩
  unfold traceAnalyzeAddressPatch
  rw [hdelivered]
  ext ⟨op_id, x⟩
  constructor
  · rintro ⟨a, ha, hflag, rfl, hle, hlt⟩
    obtain ⟨⟨record, j⟩, hp, haccess⟩ := List.mem_filterMap.1 ha
    obtain ⟨hrecord, hj⟩ := (hmem _).1 hp
    obtain ⟨hactive, hflags, hrange, e, he, hid, hstart, hstop⟩ := laneAccess_eq_some hj haccess
    obtain ⟨hpos, hlast, -⟩ := h.inside record hrecord j hj hactive
    simp only [u64_of_lt (hlast.trans_le hbound)] at hrange hstop
    rw [hrange] at hle hlt
    exact ⟨⟨record, hrecord, hflags ▸ hflag, j, hj, hactive, hpos.ne', hle, hlt⟩,
      e, he, hid, hstart.trans hle, hlt.trans_le hstop⟩
  · rintro ⟨⟨record, hrecord, hflag, j, hj, hactive, -, hle, hlt⟩, e, he, rfl, hex⟩
    obtain ⟨-, hlast, d, hd, hstart, hstop⟩ := h.inside record hrecord j hj hactive
    -- The block that the access lies in is the one that holds the byte.
    obtain rfl := h.blocks.eq_of_mem he hd hex ⟨hstart.trans hle, hlt.trans_le hstop⟩
    have haccess := laneAccess_of_inside h.blocks hj hactive he (h.keys e he) hstart hstop
      (by omega) (hlast.trans_le hbound)
    exact ⟨_, List.mem_filterMap.2 ⟨(record, j), (hmem _).2 ⟨hrecord, hj⟩, haccess⟩, hflag, rfl,
      hle, hlt⟩

end TenProf
