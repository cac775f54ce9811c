import TenProf.Library.Counts
import TenProf.Operation.ThreadAccess
import TenProf.ValuePattern.TypeOveruse
import Mathlib.Data.Nat.Bitwise

/-!
# The values of the items of a block

`ValuePattern::unit_access` counts the values of the items of every block, reads and writes apart,
for each access kind. The address it is given is that of the whole access, and it adds the distance
of the unit. When the type of the data is unknown it calls itself for both types with an address to
which the distance has been added, and adds it again. `unit_access_counts_iff` says for which units
the item is the right one.

A block is looked up by its op id alone. A count is a natural number here, since no run makes `2^64`
accesses.
-/

namespace TenProf.ValuePattern

open Binutils

/-! ## The conversion of values -/

/-- `VALID_FLOAT_DIGITS`. -/
def VALID_FLOAT_DIGITS : ℕ := 23

/-- `MIN_FLOAT_DIGITS`. -/
def MIN_FLOAT_DIGITS : ℕ := 20

/-- `MIN_DOUBLE_DIGITS`. -/
def MIN_DOUBLE_DIGITS : ℕ := 46

/-- `value_to_double`. -/
def valueToDouble (a decimal_degree_f64 : ℕ) : ℕ :=
  a &&& u64 (0xffffffffffffffff <<< (52 - decimal_degree_f64))

/-- `value_to_float`. -/
def valueToFloat (a decimal_degree_f32 : ℕ) : ℕ :=
  (a &&& 0xffffffff) &&& u64 (0xffffffffffffffff <<< (23 - decimal_degree_f32))

/-- The value that `unit_access` counts for a kind. Floating-point values lose their last digits,
when the digits that `redshow_approx_get` returns have not been limited. -/
def countedValue (decimal_degree_f32 : ℕ) (access_kind : AccessKind) (value : ℕ) : ℕ :=
  if access_kind.data_type = .FLOAT ∧ decimal_degree_f32 = VALID_FLOAT_DIGITS then
    if access_kind.unit_size = 32 then valueToFloat value MIN_FLOAT_DIGITS
    else if access_kind.unit_size = 64 then valueToDouble value MIN_DOUBLE_DIGITS
    else value
  else value

/-! ## The counts -/

/-- `ValueDist`. -/
abbrev ValueDist := OrderedMap ℕ (OrderedMap AccessKind ItemsValueCount)

/-- `ValuePatternTrace`, less the compact counts, which are never filled. -/
structure ValuePatternTrace where
  w_value_dist : ValueDist := ∅
  r_value_dist : ValueDist := ∅
  deriving DecidableEq

/-- `value_dist[memory][access_kind][offset][value] += 1`. -/
def countValue (memory_op_id : ℕ) (access_kind : AccessKind) (offset value : ℕ)
    (value_dist : ValueDist) : ValueDist :=
  value_dist.update memory_op_id ∅ fun kinds => kinds.update access_kind ∅ fun items =>
    items.update offset ∅ fun values => values.update value 0 (· + 1)

/-- What `unit_access` does for a type that is known, at the address of the unit. -/
def countUnit (decimal_degree_f32 : ℕ) (trace : ValuePatternTrace) (a : ThreadAccess) (addr : ℕ) :
    ValuePatternTrace :=
  let offset := subU64 addr a.memory.memory_range.start / (a.access_kind.unit_size >>> 3)
  let count := countValue a.memory.op_id a.access_kind offset
    (countedValue decimal_degree_f32 a.access_kind a.value)
  { r_value_dist := if a.has .READ then count trace.r_value_dist else trace.r_value_dist
    w_value_dist := if a.has .WRITE then count trace.w_value_dist else trace.w_value_dist }

/-- `unit_access`. -/
def unitAccess (decimal_degree_f32 : ℕ) (trace : ValuePatternTrace) (a : ThreadAccess) :
    ValuePatternTrace :=
  let addr := a.unit_addr
  if a.access_kind.data_type = .UNKNOWN then
    -- If unknown, try each data type
    let trace := unitAccess decimal_degree_f32 trace
      { a with addr := addr, access_kind := { a.access_kind with data_type := .FLOAT } }
    unitAccess decimal_degree_f32 trace
      { a with addr := addr, access_kind := { a.access_kind with data_type := .INT } }
  else countUnit decimal_degree_f32 trace a addr
termination_by if a.access_kind.data_type = .UNKNOWN then 1 else 0
decreasing_by
  · simp only [if_false, ‹a.access_kind.data_type = .UNKNOWN›, if_true]
    exact Nat.one_pos
  · simp only [if_false, ‹a.access_kind.data_type = .UNKNOWN›, if_true]
    exact Nat.one_pos

/-! ## The accesses -/

/-- The access of a thread that a record holds, with the values of its units. -/
structure AccessRecord where
  thread_id : ThreadId
  access_kind : AccessKind
  memory : Memory
  pc : ℕ
  address : ℕ
  values : ℕ → ℕ
  flags : ℕ

namespace AccessRecord

/-- `num_units`. -/
def numUnits (r : AccessRecord) : ℕ := r.access_kind.vec_size / r.access_kind.unit_size

/-- What `trace_analyze_default` passes to `unit_access` for a unit. -/
def unit (r : AccessRecord) (m : ℕ) : ThreadAccess where
  thread_id := r.thread_id
  access_kind := { r.access_kind with vec_size := r.access_kind.unit_size }
  memory := r.memory
  pc := r.pc
  value := r.values m
  addr := r.address
  index := m
  flags := r.flags

/-- The sizes are those of an access kind, and the access lies in its block. -/
structure InBlock (r : AccessRecord) : Prop where
  unit_size : r.access_kind.unit_size ∈ [8, 16, 32, 64]
  dvd : r.access_kind.unit_size ∣ r.access_kind.vec_size
  vec_size : r.access_kind.vec_size < 2^32
  start_le : r.memory.memory_range.start ≤ r.address
  le_stop : r.address + r.access_kind.vec_size / 8 ≤ r.memory.memory_range.stop
  stop : r.memory.memory_range.stop < 2^64

/-- The item of the block that a unit is. -/
def item (r : AccessRecord) (m : ℕ) : ℕ :=
  (r.address + m * r.access_kind.unit_size / 8 - r.memory.memory_range.start) /
    (r.access_kind.unit_size / 8)

/-- The number of items of the block. -/
def numItems (r : AccessRecord) : ℕ :=
  (r.memory.memory_range.stop - r.memory.memory_range.start) / (r.access_kind.unit_size / 8)

/-- The access kinds under which a unit is counted. -/
def triedKinds (r : AccessRecord) : List AccessKind :=
  let kind := { r.access_kind with vec_size := r.access_kind.unit_size }
  if r.access_kind.data_type = .UNKNOWN then
    [{ kind with data_type := .FLOAT }, { kind with data_type := .INT }]
  else [kind]

end AccessRecord

/-- The count of a value. -/
def countAt (value_dist : ValueDist) (memory_op_id : ℕ) (access_kind : AccessKind)
    (offset value : ℕ) : ℕ :=
  (((value_dist.findD memory_op_id ∅).findD access_kind ∅).findD offset ∅).findD value 0

/-- The counts of an access type. -/
def ValuePatternTrace.dist (trace : ValuePatternTrace) : RedshowAccessType → ValueDist
  | .READ => trace.r_value_dist
  | .WRITE => trace.w_value_dist

/-- A unit is counted as it should be: once for each kind that is tried, at its item, which is as
far from the item of the first unit as the unit is from the first and lies in the block. -/
structure CountsUnit (decimal_degree_f32 : ℕ) (trace : ValuePatternTrace) (r : AccessRecord)
    (m : ℕ) : Prop where
  counts : ∀ type memory_op_id access_kind offset value,
    countAt ((unitAccess decimal_degree_f32 trace (r.unit m)).dist type) memory_op_id access_kind
        offset value =
      countAt (trace.dist type) memory_op_id access_kind offset value +
        if (r.unit m).has type ∧ memory_op_id = r.memory.op_id ∧ access_kind ∈ r.triedKinds ∧
            offset = r.item m ∧ value = countedValue decimal_degree_f32 access_kind (r.values m)
        then 1 else 0
  consecutive : r.item m = r.item 0 + m
  inside : r.item m < r.numItems

/-! ## Counting -/

/-- The counts after a value has been counted. -/
theorem countAt_countValue (value_dist : ValueDist) (memory_op_id memory_op_id' : ℕ)
    (access_kind access_kind' : AccessKind) (offset offset' value value' : ℕ) :
    countAt (countValue memory_op_id access_kind offset value value_dist) memory_op_id'
        access_kind' offset' value' =
      countAt value_dist memory_op_id' access_kind' offset' value' +
        if memory_op_id' = memory_op_id ∧ access_kind' = access_kind ∧ offset' = offset ∧
          value' = value then 1 else 0 := by
  unfold countAt countValue
  rw [OrderedMap.findD_update]
  by_cases hmemory : memory_op_id' = memory_op_id
  · rw [if_pos hmemory, OrderedMap.findD_update]
    by_cases hkind : access_kind' = access_kind
    · rw [if_pos hkind, OrderedMap.findD_update]
      by_cases hoffset : offset' = offset
      · rw [if_pos hoffset, OrderedMap.findD_update]
        by_cases hvalue : value' = value
        · rw [if_pos hvalue, if_pos ⟨hmemory, hkind, hoffset, hvalue⟩]
        · rw [if_neg hvalue, if_neg fun h => hvalue h.2.2.2]
          rfl
      · rw [if_neg hoffset, if_neg fun h => hoffset h.2.2.1]
        rfl
    · rw [if_neg hkind, if_neg fun h => hkind h.2.1]
      rfl
  · rw [if_neg hmemory, if_neg fun h => hmemory h.1]
    rfl

/-- A unit of a known type is counted for the access types that it has. -/
theorem dist_countUnit (decimal_degree_f32 : ℕ) (trace : ValuePatternTrace) (a : ThreadAccess)
    (addr : ℕ) (type : RedshowAccessType) :
    (countUnit decimal_degree_f32 trace a addr).dist type =
      if a.has type then countValue a.memory.op_id a.access_kind
        (subU64 addr a.memory.memory_range.start / (a.access_kind.unit_size >>> 3))
        (countedValue decimal_degree_f32 a.access_kind a.value) (trace.dist type)
      else trace.dist type := by
  cases type <;> rfl

/-- The counts after a unit of a known type has been counted. -/
theorem countAt_countUnit (decimal_degree_f32 : ℕ) (trace : ValuePatternTrace) (a : ThreadAccess)
    (addr : ℕ) (type : RedshowAccessType) (memory_op_id : ℕ) (access_kind : AccessKind)
    (offset value : ℕ) :
    countAt ((countUnit decimal_degree_f32 trace a addr).dist type) memory_op_id access_kind offset
        value =
      countAt (trace.dist type) memory_op_id access_kind offset value +
        if a.has type ∧ memory_op_id = a.memory.op_id ∧ access_kind = a.access_kind ∧
          offset = subU64 addr a.memory.memory_range.start / (a.access_kind.unit_size >>> 3) ∧
          value = countedValue decimal_degree_f32 a.access_kind a.value then 1 else 0 := by
  rw [dist_countUnit]
  by_cases hhas : a.has type
  · rw [if_pos hhas, countAt_countValue]
    simp only [hhas, true_and]
  · rw [if_neg hhas, if_neg fun h => hhas h.1, Nat.add_zero]

/-- A unit of a known type is counted at its address. -/
theorem unitAccess_known (decimal_degree_f32 : ℕ) (trace : ValuePatternTrace) {a : ThreadAccess}
    (h : a.access_kind.data_type ≠ .UNKNOWN) :
    unitAccess decimal_degree_f32 trace a = countUnit decimal_degree_f32 trace a a.unit_addr := by
  rw [unitAccess, if_neg h]

/-- The access to a unit whose type is to be tried, as `unit_access` calls itself. -/
def tried (a : ThreadAccess) (data_type : DataType) : ThreadAccess :=
  { a with addr := a.unit_addr, access_kind := { a.access_kind with data_type := data_type } }

/-- A unit of an unknown type is counted for both types, at the address to which its distance has
been added twice. -/
theorem unitAccess_unknown (decimal_degree_f32 : ℕ) (trace : ValuePatternTrace) {a : ThreadAccess}
    (h : a.access_kind.data_type = .UNKNOWN) :
    unitAccess decimal_degree_f32 trace a =
      countUnit decimal_degree_f32
        (countUnit decimal_degree_f32 trace (tried a .FLOAT) (tried a .FLOAT).unit_addr)
        (tried a .INT) (tried a .INT).unit_addr := by
  rw [unitAccess, if_pos h]
  show unitAccess _ (unitAccess _ trace (tried a .FLOAT)) (tried a .INT) = _
  have hfloat : (tried a .FLOAT).access_kind.data_type ≠ .UNKNOWN := DataType.noConfusion
  have hint : (tried a .INT).access_kind.data_type ≠ .UNKNOWN := DataType.noConfusion
  rw [unitAccess_known _ _ hfloat, unitAccess_known _ _ hint]

/-! ## The units of an access -/

section Units

variable {r : AccessRecord} {m : ℕ}

/-- The item of a unit is as far from that of the first as the unit is from the first. -/
theorem item_eq (h : r.InBlock) (m : ℕ) : r.item m = r.item 0 + m := by
  obtain ⟨hunit, -, -, hstart, -, -⟩ := h
  simp only [List.mem_cons, List.not_mem_nil, or_false] at hunit
  unfold AccessRecord.item
  rcases hunit with hunit | hunit | hunit | hunit <;> rw [hunit] <;> omega

/-- The item of a unit lies in the block. -/
theorem item_lt (h : r.InBlock) (hm : m < r.numUnits) : r.item m < r.numItems := by
  obtain ⟨hunit, -, -, hstart, hstop, -⟩ := h
  simp only [List.mem_cons, List.not_mem_nil, or_false] at hunit
  unfold AccessRecord.numUnits at hm
  unfold AccessRecord.item AccessRecord.numItems
  rcases hunit with hunit | hunit | hunit | hunit <;> rw [hunit] at hm ⊢ <;> omega

/-- A unit is counted at its item when its distance is added once. -/
theorem offset_unit (h : r.InBlock) (hm : m < r.numUnits) :
    subU64 (r.unit m).unit_addr r.memory.memory_range.start / (r.access_kind.unit_size >>> 3) =
      r.item m := by
  obtain ⟨hunit, -, hvec, hstart, hstop, hlt⟩ := h
  simp only [List.mem_cons, List.not_mem_nil, or_false] at hunit
  unfold AccessRecord.numUnits at hm
  unfold ThreadAccess.unit_addr AccessRecord.item subU64 u64 u32
  show (_ + 2^64 - _) % 2^64 / (_ >>> 3) = _
  rw [Nat.shiftRight_eq_div_pow]
  simp only [AccessRecord.unit]
  rcases hunit with hunit | hunit | hunit | hunit <;> rw [hunit] at hm ⊢ <;> omega

/-- When its distance is added twice, it is counted at its item only if it is the first. -/
theorem offset_tried (h : r.InBlock) (hm : m < r.numUnits) (data_type : DataType) :
    subU64 (tried (r.unit m) data_type).unit_addr r.memory.memory_range.start /
      (r.access_kind.unit_size >>> 3) = r.item m ↔ m = 0 := by
  obtain ⟨hunit, -, hvec, hstart, hstop, hlt⟩ := h
  simp only [List.mem_cons, List.not_mem_nil, or_false] at hunit
  unfold AccessRecord.numUnits at hm
  unfold ThreadAccess.unit_addr AccessRecord.item subU64 u64 u32
  rw [Nat.shiftRight_eq_div_pow]
  simp only [tried, ThreadAccess.unit_addr, u64, u32, AccessRecord.unit]
  rcases hunit with hunit | hunit | hunit | hunit <;> rw [hunit] at hm ⊢ <;> omega

/-- A unit of a known type is counted as it should be. -/
theorem countsUnit_known (decimal_degree_f32 : ℕ) (trace : ValuePatternTrace) (h : r.InBlock)
    (hm : m < r.numUnits) (hknown : r.access_kind.data_type ≠ .UNKNOWN) :
    CountsUnit decimal_degree_f32 trace r m := by
  refine ⟨fun type memory_op_id access_kind offset value => ?_, item_eq h m, item_lt h hm⟩
  have hkinds : access_kind ∈ r.triedKinds ↔ access_kind = (r.unit m).access_kind := by
    unfold AccessRecord.triedKinds
    rw [if_neg hknown]
    exact List.mem_singleton
  rw [unitAccess_known _ _ hknown, countAt_countUnit]
  congr 1
  refine if_congr (and_congr_right fun _ => and_congr_right fun _ => ?_) rfl rfl
  rw [hkinds]
  refine and_congr_right fun hkind => ?_
  rw [← offset_unit h hm, hkind]
  rfl

/-- Two conditions of which at most one holds are counted as one. -/
theorem ite_add_ite {p q : Prop} [Decidable p] [Decidable q] (h : p → ¬q) :
    (if p then 1 else 0) + (if q then 1 else 0) = if p ∨ q then 1 else 0 := by
  by_cases hp : p
  · rw [if_pos hp, if_neg (h hp), if_pos (.inl hp)]
  · rw [if_neg hp, Nat.zero_add]
    exact if_congr (or_iff_right hp).symm rfl rfl

/-- A unit of an unknown type is counted at the item where it is put when its distance is added
twice. -/
theorem countAt_unknown (decimal_degree_f32 : ℕ) (trace : ValuePatternTrace)
    (hunknown : r.access_kind.data_type = .UNKNOWN) (type : RedshowAccessType) (memory_op_id : ℕ)
    (access_kind : AccessKind) (offset value : ℕ) :
    countAt ((unitAccess decimal_degree_f32 trace (r.unit m)).dist type) memory_op_id access_kind
        offset value =
      countAt (trace.dist type) memory_op_id access_kind offset value +
        if (r.unit m).has type ∧ memory_op_id = r.memory.op_id ∧ access_kind ∈ r.triedKinds ∧
            offset = subU64 (tried (r.unit m) .FLOAT).unit_addr r.memory.memory_range.start /
              (r.access_kind.unit_size >>> 3) ∧
            value = countedValue decimal_degree_f32 access_kind (r.values m)
        then 1 else 0 := by
  rw [unitAccess_unknown _ _ hunknown, countAt_countUnit, countAt_countUnit, Nat.add_assoc]
  congr 1
  have hkinds : access_kind ∈ r.triedKinds ↔
      access_kind = (tried (r.unit m) .FLOAT).access_kind ∨
        access_kind = (tried (r.unit m) .INT).access_kind := by
    unfold AccessRecord.triedKinds
    rw [if_pos hunknown, List.mem_cons, List.mem_singleton]
    rfl
  rw [ite_add_ite]
  · refine if_congr ?_ rfl rfl
    rw [hkinds]
    constructor
    · rintro (⟨hhas, hmemory, hkind, hoffset, hvalue⟩ | ⟨hhas, hmemory, hkind, hoffset, hvalue⟩)
      · exact ⟨hhas, hmemory, .inl hkind, hoffset, hkind ▸ hvalue⟩
      · exact ⟨hhas, hmemory, .inr hkind, hoffset, hkind ▸ hvalue⟩
    · rintro ⟨hhas, hmemory, hkind | hkind, hoffset, hvalue⟩
      · exact .inl ⟨hhas, hmemory, hkind, hoffset, hkind ▸ hvalue⟩
      · exact .inr ⟨hhas, hmemory, hkind, hoffset, hkind ▸ hvalue⟩
  · rintro ⟨-, -, hfloat, -, -⟩ ⟨-, -, hint, -, -⟩
    exact DataType.noConfusion (congrArg AccessKind.data_type (hfloat.symm.trans hint))

/-- A unit of an unknown type is counted as it should be exactly when it is the first, or the access
is neither a read nor a write. -/
theorem countsUnit_unknown (decimal_degree_f32 : ℕ) (trace : ValuePatternTrace) (h : r.InBlock)
    (hm : m < r.numUnits) (hunknown : r.access_kind.data_type = .UNKNOWN) :
    CountsUnit decimal_degree_f32 trace r m ↔
      m = 0 ∨ r.flags &&& GpuPatch.READ = 0 ∧ r.flags &&& GpuPatch.WRITE = 0 := by
  constructor
  · intro hright
    by_contra hnot
    rw [not_or, not_and_or] at hnot
    obtain ⟨type, htype⟩ : ∃ type, (r.unit m).has type := by
      rcases hnot.2 with hread | hwrite
      · exact ⟨.READ, decide_eq_true hread⟩
      · exact ⟨.WRITE, decide_eq_true hwrite⟩
    -- The count at the right item stays as it is.
    let kind := (tried (r.unit m) .FLOAT).access_kind
    have hkind : kind ∈ r.triedKinds := by
      unfold AccessRecord.triedKinds
      rw [if_pos hunknown]
      exact List.mem_cons_self
    have hraised := hright.counts type r.memory.op_id kind (r.item m)
      (countedValue decimal_degree_f32 kind (r.values m))
    rw [countAt_unknown _ _ hunknown, if_neg fun hall =>
      hnot.1 ((offset_tried h hm .FLOAT).1 hall.2.2.2.1.symm),
      if_pos ⟨htype, rfl, hkind, rfl, rfl⟩] at hraised
    omega
  · intro hcond
    refine ⟨fun type memory_op_id access_kind offset value => ?_, item_eq h m, item_lt h hm⟩
    rw [countAt_unknown _ _ hunknown]
    congr 1
    refine if_congr (and_congr_right fun hhas => ?_) rfl rfl
    rcases hcond with hzero | ⟨hread, hwrite⟩
    · rw [(offset_tried h hm .FLOAT).2 hzero]
    · cases type with
      | READ => exact absurd hread (of_decide_eq_true hhas)
      | WRITE => exact absurd hwrite (of_decide_eq_true hhas)

end Units

/-- A read of two units at the start of a block. -/
def readTwo (data_type : DataType) : AccessRecord :=
  ⟨⟨0, 0⟩, ⟨64, 32, data_type⟩, ⟨7, 1, 0, ⟨512, 1024⟩, 512, 0, 0⟩, 16, 512, fun _ => 5,
    GpuPatch.READ⟩

theorem readTwo_inBlock (data_type : DataType) : (readTwo data_type).InBlock :=
  ⟨show 32 ∈ [8, 16, 32, 64] by decide, show 32 ∣ 64 by decide, show 64 < 2^32 by decide,
    le_rfl, show 512 + 64 / 8 ≤ 1024 by decide, show 1024 < 2^64 by decide⟩

end TenProf.ValuePattern
