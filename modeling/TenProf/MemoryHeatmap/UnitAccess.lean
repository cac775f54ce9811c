import TenProf.Redshow.AddressPatch
import TenProf.Redshow.MemoryQuery

/-!
# The heat map of an object

`MemoryHeatmap::unit_access` counts the accesses to every unit of a memory object in an array of
`int`. The array is made at the first access to the object, for units of the size of this access,
and every access counts the units of its own size. What has no defined result has none here: a
division by zero, an access to an object that is not registered, a write outside of the array and an
`int` that overflows. That `malloc` returns memory is taken for granted.

`trace_analyze_address_patch` passes the size of an access as the size of a unit,
`trace_analyze_address_analysis` passes the zero of a default access kind. `heatmap_run_iff` says
which sequences of accesses are counted as they should be, by the accesses alone.
-/

namespace TenProf.MemoryHeatmap

/-- The objects that are registered, by their op ids: `_memories`. -/
abbrev Memories := OrderedMap ℕ Memory

/-- `memory_op_callback` for some objects. Objects are only added, and none replaces another, so
that accesses can be looked at over all objects that are ever registered. -/
def registerMemories (ops : List Memory) : Memories :=
  ops.foldl (fun memories op => memories.emplace op.op_id op) ∅

/-- `HeatMapMemory`. -/
structure HeatMapMemory where
  size : ℕ
  array : List ℤ
  deriving DecidableEq, Repr

/-- `_heatmap_list`. -/
abbrev HeatmapList := OrderedMap ℕ HeatMapMemory

/-- What `unit_access` looks at: the op id and the range of the memory, and the size of a unit. -/
structure HeatmapAccess where
  op_id : ℕ
  memory_range : MemoryRange
  unit_size : ℕ
  deriving DecidableEq, Repr

/-- `*(array + i) += 1`. -/
def countUnit (array : List ℤ) (i : ℤ) : Option (List ℤ) :=
  if i < 0 then none
  else array[i.toNat]?.bind fun count => (intSucc count).map fun count => array.set i.toNat count

/-- The loop of `update_heatmap_list`, from `i` on. The comparison converts `i` to a word. -/
def heatmapLoop (stop : ℕ) (array : List ℤ) (i : ℤ) : Option (List ℤ) :=
  if u64OfInt i < stop then
    (countUnit array i).bind fun array =>
      if i + 1 < 2^31 then heatmapLoop stop array (i + 1) else none
  else some array
termination_by (2^31 - i).toNat

/-- `update_heatmap_list`. -/
def updateHeatmapList (memories : Memories) (op_id : ℕ) (memory_range : MemoryRange)
    (unit_size : ℕ) (heatmap_list : HeatmapList) : Option HeatmapList :=
  let heatmap := heatmap_list.findD op_id ⟨0, []⟩
  (memories.find? op_id).bind fun memory =>
    if unit_size = 0 then none
    else
      let start := subU64 memory_range.start memory.memory_range.start / unit_size
      let stop := subU64 memory_range.stop memory.memory_range.start / unit_size
      (heatmapLoop stop heatmap.array (i32 start)).map fun array =>
        heatmap_list.set op_id { heatmap with array := array }

/-- The number of `int`s that are allocated for a number of units. -/
def numInts (len : ℕ) : ℕ := u64 (4 * len) / 4

/-- The heat map that is made at the first access. -/
def makeHeatmap (memories : Memories) (op_id unit_size : ℕ) (heatmap_list : HeatmapList) :
    Option HeatmapList :=
  (memories.find? op_id).bind fun object =>
    if unit_size = 0 then none
    else
      let len := object.len / unit_size
      some (heatmap_list.set op_id ⟨len, List.replicate (numInts len) 0⟩)

/-- `unit_access`. -/
def unitAccess (memories : Memories) (heatmap_list : HeatmapList) (a : HeatmapAccess) :
    Option HeatmapList :=
  if a.op_id ≤ REDSHOW_MEMORY_HOST then some heatmap_list
  else
    (match heatmap_list.find? a.op_id with
      | some _ => some heatmap_list
      | none => makeHeatmap memories a.op_id a.unit_size heatmap_list).bind
      (updateHeatmapList memories a.op_id a.memory_range a.unit_size)

/-- The heat maps after some accesses. -/
def run (memories : Memories) (accesses : List HeatmapAccess) : Option HeatmapList :=
  accesses.foldlM (unitAccess memories) ∅

/-! ## What is delivered -/

/-- The blocks of a map are registered objects, which lie in memory. -/
structure BlocksOf (memories : Memories) (memory_map : MemoryMap) : Prop where
  stored : StoredBlocks memory_map
  registered : ∀ e ∈ memory_map.toList, memories.find? e.2.op_id = some e.2
  word : ∀ e ∈ memory_map.toList, e.2.memory_range.stop < 2^64

/-- What the two callers deliver over registered objects: the accesses of records of addresses that
end in memory, with the size of an access, and the pieces of intervals, with a size of zero. -/
inductive Delivered (memories : Memories) : HeatmapAccess → Prop
  | patch {symbols : List Binutils.Symbol} {memory_map : MemoryMap} {records : List RecordAddress}
      {a : PatchAccess} (hmap : BlocksOf memories memory_map)
      (hword : ∀ record ∈ records, ∀ j < 32, record.address j + record.size < 2^64)
      (ha : a ∈ (traceAnalyzeAddressPatch symbols memory_map records).1) :
      Delivered memories ⟨a.access.op_id, a.access.memory_range, a.unit_size⟩
  | analysis {memory_map : MemoryMap} {flags fuel : ℕ} {records : List MemoryRange}
      {pieces : List UnitAccess} {a : UnitAccess} (hmap : BlocksOf memories memory_map)
      (hpieces : traceAnalyzeAddressAnalysis memory_map flags records fuel = some pieces)
      (ha : a ∈ pieces) : Delivered memories ⟨a.op_id, a.memory_range, 0⟩

/-! ## What should hold -/

/-- The number of units that an access covers. -/
def HeatmapAccess.units (a : HeatmapAccess) : ℕ :=
  (a.memory_range.stop - a.memory_range.start) / a.unit_size

/-- The sum over the array of an object. -/
def total (heatmap_list : HeatmapList) (op_id : ℕ) : ℤ :=
  (heatmap_list.findD op_id ⟨0, []⟩).array.sum

/-- An access is counted as it should be: it has a result, and adds the number of its units to the
array of its object. -/
def CountedRight (memories : Memories) (heatmap_list : HeatmapList) (a : HeatmapAccess) : Prop :=
  ∃ heatmap_list', unitAccess memories heatmap_list a = some heatmap_list' ∧
    (REDSHOW_MEMORY_HOST < a.op_id →
      total heatmap_list' a.op_id = total heatmap_list a.op_id + a.units)

/-- Every access of a run is counted as it should be. -/
def RunRight (memories : Memories) (accesses : List HeatmapAccess) : Prop :=
  ∀ before a, before ++ [a] <+: accesses →
    ∃ heatmap_list, run memories before = some heatmap_list ∧ CountedRight memories heatmap_list a

/-- The unit of its own size that an access starts in, counted from the start of its object. -/
def HeatmapAccess.unit (memories : Memories) (a : HeatmapAccess) : ℕ :=
  match memories.find? a.op_id with
  | none => 0
  | some object => (a.memory_range.start - object.memory_range.start) / a.unit_size

/-- The number of `int`s that are allocated at the first of some accesses to an object. -/
def allocated (memories : Memories) (accesses : List HeatmapAccess) (op_id : ℕ) : ℕ :=
  match memories.find? op_id, accesses.find? fun a => a.op_id = op_id with
  | some object, some first => numInts (object.len / first.unit_size)
  | _, _ => 0

/-- The number of accesses to an object that start in a unit. -/
def accessesAt (memories : Memories) (accesses : List HeatmapAccess) (op_id unit : ℕ) : ℕ :=
  accesses.countP fun a => a.op_id = op_id ∧ a.unit memories = unit

/-- An access can be counted after some others: it is to no object, or its units have a size, the
one that it starts in is one of those that are allocated and comes before the last `int`, and an
`int` can count the accesses to it. -/
def Countable (memories : Memories) (before : List HeatmapAccess) (a : HeatmapAccess) : Prop :=
  a.op_id ≤ REDSHOW_MEMORY_HOST ∨
    0 < a.unit_size ∧ a.unit memories + 1 < 2^31 ∧
      a.unit memories < allocated memories (before ++ [a]) a.op_id ∧
        accessesAt memories before a.op_id (a.unit memories) + 1 < 2^31

/-! ## The loop -/

section Loop

variable {stop k : ℕ} {array : List ℤ}

/-- The loop does not reach an end behind all `int`s. -/
theorem heatmapLoop_high {i : ℤ} (h0 : 0 ≤ i) (hi : i < 2^31) (hstop : 2^31 ≤ stop) :
    heatmapLoop stop array i = none := by
  generalize hn : (2^31 - i).toNat = n
  induction n generalizing i array with
  | zero => omega
  | succ n ih =>
    have hlt : u64OfInt i < stop := by
      unfold u64OfInt
      omega
    rw [heatmapLoop, if_pos hlt]
    cases countUnit array i with
    | none => rfl
    | some array =>
      rw [Option.bind_some]
      split_ifs with hnext
      · exact ih (by omega) hnext (by omega)
      · rfl

/-- A loop over one unit counts it once, if the unit can be reached. -/
theorem heatmapLoop_one (hk : k + 1 < 2^31) :
    heatmapLoop (k + 1) array (i32 k) = countUnit array k := by
  have hi : i32 k = k := by
    unfold i32
    omega
  have hlt : u64OfInt k < k + 1 := by
    unfold u64OfInt
    omega
  have hend : ¬u64OfInt (k + 1) < k + 1 := by
    unfold u64OfInt
    omega
  rw [hi, heatmapLoop, if_pos hlt]
  cases countUnit array k with
  | none => rfl
  | some array =>
    rw [Option.bind_some, if_pos (by exact_mod_cast hk), heatmapLoop, if_neg hend]

/-- A loop over a unit that cannot be reached has no result or leaves the array as it is. -/
theorem heatmapLoop_far (hk : 2^31 ≤ k + 1) {array' : List ℤ}
    (h : heatmapLoop (k + 1) array (i32 k) = some array') : array' = array := by
  have hrange : -2^31 ≤ i32 k ∧ i32 k < 2^31 := by
    unfold i32
    omega
  by_cases hneg : i32 k < 0
  · have hnone : countUnit array (i32 k) = none := if_pos hneg
    rw [heatmapLoop, hnone, Option.bind_none] at h
    by_cases hlt : u64OfInt (i32 k) < k + 1
    · rw [if_pos hlt] at h
      cases h
    · rw [if_neg hlt, Option.some.injEq] at h
      exact h.symm
  · rw [heatmapLoop_high (not_lt.1 hneg) hrange.2 hk] at h
    cases h

end Loop

/-! ## Delivered accesses -/

/-- What the loop over lanes delivers is the access of a lane, with the size of its record. -/
theorem mem_patchAccesses {symbols : List Binutils.Symbol} {memory_map : MemoryMap}
    {lanes : List (RecordAddress × ℕ)} {a : PatchAccess}
    (h : a ∈ (patchAccesses symbols memory_map lanes).1) :
    ∃ p ∈ lanes, laneAccess memory_map p.1 p.2 = some a.access ∧ a.unit_size = p.1.size := by
  induction lanes with
  | nil => cases h
  | cons p lanes ih =>
    unfold patchAccesses at h
    have hrest : a ∈ (patchAccesses symbols memory_map lanes).1 →
        ∃ p' ∈ p :: lanes, laneAccess memory_map p'.1 p'.2 = some a.access ∧
          a.unit_size = p'.1.size := fun h =>
      (ih h).imp fun p' hp' => ⟨List.mem_cons_of_mem p hp'.1, hp'.2⟩
    cases hlane : laneAccess memory_map p.1 p.2 with
    | none =>
      rw [hlane] at h
      exact hrest h
    | some access =>
      rw [hlane] at h
      dsimp only at h
      cases hpc : Binutils.transformPc symbols p.1.pc with
      | none =>
        rw [hpc] at h
        cases h
      | some real_pc =>
        rw [hpc] at h
        rcases List.mem_cons.1 h with rfl | h
        · exact ⟨p, List.mem_cons_self, hlane, rfl⟩
        · exact hrest h

/-- An access in its object, of the size of a unit. -/
structure OneUnit (memories : Memories) (a : HeatmapAccess) (object : Memory) : Prop where
  registered : memories.find? a.op_id = some object
  start_le : object.memory_range.start ≤ a.memory_range.start
  stop_eq : a.memory_range.stop = a.memory_range.start + a.unit_size
  word : a.memory_range.stop < 2^64

variable {memories : Memories} {a : HeatmapAccess}

/-- What is delivered is one unit of an object, or has units of no size. -/
theorem Delivered.oneUnit (h : Delivered memories a) (hsize : 0 < a.unit_size) :
    ∃ object, OneUnit memories a object := by
  cases h with
  | @patch symbols memory_map records access hmap hword ha =>
    obtain ⟨⟨record, j⟩, hp, hlane, hunit⟩ := mem_patchAccesses ha
    obtain ⟨record', hrecord, j', hj, heq⟩ : ∃ record' ∈ records, ∃ j' < 32,
        (record', j') = (record, j) := by
      simpa using hp
    obtain ⟨rfl, rfl⟩ := Prod.mk.inj heq
    obtain ⟨-, -, hrange, e, he, hop, hstart, -⟩ := laneAccess_eq_some hj hlane
    dsimp only at hsize hrange hunit ⊢
    have hlt := hword record' hrecord j' hj
    rw [u64_of_lt hlt] at hrange
    refine ⟨e.2, ⟨?_, ?_, ?_, ?_⟩⟩
    · rw [← hop]
      exact hmap.registered e he
    · rw [hrange, hmap.stored.key e he]
      exact hstart
    · rw [hrange, hunit]
    · rw [hrange]
      exact hlt
  | analysis => exact absurd hsize (Nat.lt_irrefl 0)

/-- The units of an access in its object are those from its own to the next. -/
theorem OneUnit.units {object : Memory} (h : OneUnit memories a object) (hsize : 0 < a.unit_size) :
    a.units = 1 ∧
      subU64 a.memory_range.start object.memory_range.start / a.unit_size = a.unit memories ∧
      subU64 a.memory_range.stop object.memory_range.start / a.unit_size =
        a.unit memories + 1 := by
  obtain ⟨hobject, hstart, hstop, hword⟩ := h
  have hunit : a.unit memories =
      (a.memory_range.start - object.memory_range.start) / a.unit_size := by
    unfold HeatmapAccess.unit
    rw [hobject]
  rw [hunit, subU64_of_le (by omega) hstart, subU64_of_le hword (by omega)]
  refine ⟨?_, rfl, ?_⟩
  · unfold HeatmapAccess.units
    rw [hstop, Nat.add_sub_cancel_left, Nat.div_self hsize]
  · rw [hstop, Nat.sub_add_comm hstart, Nat.add_div_right _ hsize]

/-- Without a size of units there is no result. -/
theorem unitAccess_zero {heatmap_list : HeatmapList} (hop : REDSHOW_MEMORY_HOST < a.op_id)
    (hsize : a.unit_size = 0) : unitAccess memories heatmap_list a = none := by
  have hupdate : ∀ heatmap_list : HeatmapList,
      updateHeatmapList memories a.op_id a.memory_range a.unit_size heatmap_list = none := by
    intro heatmap_list
    unfold updateHeatmapList
    dsimp only
    rw [hsize]
    cases memories.find? a.op_id <;> rfl
  unfold unitAccess
  rw [if_neg (not_le.2 hop), Option.bind_eq_none_iff]
  exact fun heatmap_list _ => hupdate heatmap_list

/-! ## The arrays -/

/-- What the array of an object holds after some accesses, with a number of units. -/
def heat (memories : Memories) (accesses : List HeatmapAccess) (op_id len : ℕ) : List ℤ :=
  (List.range len).map fun unit => (accessesAt memories accesses op_id unit : ℤ)

/-- The heat maps after some accesses: those of the objects that have been accessed. -/
def Counted (memories : Memories) (accesses : List HeatmapAccess) (heatmap_list : HeatmapList) :
    Prop :=
  ∀ op_id, REDSHOW_MEMORY_HOST < op_id →
    (heatmap_list.find? op_id).map HeatMapMemory.array =
      if ∃ b ∈ accesses, b.op_id = op_id then
        some (heat memories accesses op_id (allocated memories accesses op_id))
      else none

variable {before : List HeatmapAccess} {heatmap_list : HeatmapList}

/-- The accesses to a unit after one more. -/
theorem accessesAt_concat (memories : Memories) (before : List HeatmapAccess) (a : HeatmapAccess)
    (op_id unit : ℕ) :
    accessesAt memories (before ++ [a]) op_id unit =
      accessesAt memories before op_id unit +
        if a.op_id = op_id ∧ a.unit memories = unit then 1 else 0 := by
  unfold accessesAt
  rw [List.countP_append, List.countP_singleton]
  simp only [decide_eq_true_eq]

/-- An object that has not been accessed has no accesses to a unit. -/
theorem accessesAt_of_none {op_id : ℕ} (h : ¬∃ b ∈ before, b.op_id = op_id) (unit : ℕ) :
    accessesAt memories before op_id unit = 0 :=
  List.countP_eq_zero.2 fun b hb hcount => h ⟨b, hb, (of_decide_eq_true hcount).1⟩

/-- What is allocated for an object that has been accessed stays as it is. -/
theorem allocated_concat_of_mem {op_id : ℕ} (h : ∃ b ∈ before, b.op_id = op_id)
    (a : HeatmapAccess) :
    allocated memories (before ++ [a]) op_id = allocated memories before op_id := by
  obtain ⟨b, hb, hop⟩ := h
  obtain ⟨first, hfirst⟩ := Option.isSome_iff_exists.1
    (List.find?_isSome.2 ⟨b, hb, decide_eq_true hop⟩ :
      (before.find? fun a => a.op_id = op_id).isSome)
  unfold allocated
  rw [List.find?_append, hfirst]
  rfl

/-- An access allocates nothing for other objects. -/
theorem allocated_concat_of_ne {op_id : ℕ} (hne : a.op_id ≠ op_id) :
    allocated memories (before ++ [a]) op_id = allocated memories before op_id := by
  unfold allocated
  rw [List.find?_append, List.find?_singleton, if_neg (by simpa using hne), Option.or_none]

/-- What is allocated at the first access to an object. -/
theorem allocated_concat_of_none {object : Memory} (h : ¬∃ b ∈ before, b.op_id = a.op_id)
    (hobject : memories.find? a.op_id = some object) :
    allocated memories (before ++ [a]) a.op_id = numInts (object.len / a.unit_size) := by
  have hnone : (before.find? fun b => b.op_id = a.op_id) = none :=
    List.find?_eq_none.2 fun b hb hop => h ⟨b, hb, of_decide_eq_true hop⟩
  unfold allocated
  rw [List.find?_append, hnone, hobject]
  simp

/-! ## One access -/

/-- When an access gets to the loop, the array of its object holds what has been accessed, with as
many units as are allocated. -/
theorem unitAccess_eq {object : Memory} (hcounted : Counted memories before heatmap_list)
    (hop : REDSHOW_MEMORY_HOST < a.op_id) (hsize : 0 < a.unit_size)
    (hunit : OneUnit memories a object) :
    ∃ size, ∃ made : HeatmapList, (∀ op_id ≠ a.op_id, made.find? op_id = heatmap_list.find? op_id) ∧
      unitAccess memories heatmap_list a = (heatmapLoop (a.unit memories + 1)
        (heat memories before a.op_id (allocated memories (before ++ [a]) a.op_id))
        (i32 (a.unit memories))).map (fun array => made.set a.op_id ⟨size, array⟩) ∧
      total heatmap_list a.op_id =
        (heat memories before a.op_id (allocated memories (before ++ [a]) a.op_id)).sum := by
  obtain ⟨-, hstart, hstop⟩ := hunit.units hsize
  have hupdate : ∀ (made : HeatmapList) (size : ℕ) (array : List ℤ),
      made.find? a.op_id = some ⟨size, array⟩ →
      updateHeatmapList memories a.op_id a.memory_range a.unit_size made =
        (heatmapLoop (a.unit memories + 1) array (i32 (a.unit memories))).map fun array =>
          made.set a.op_id ⟨size, array⟩ := by
    intro made size array hmade
    unfold updateHeatmapList OrderedMap.findD
    dsimp only
    rw [hmade, hunit.registered, Option.bind_some, if_neg hsize.ne', hstart, hstop]
    rfl
  have harray := hcounted a.op_id hop
  unfold unitAccess total OrderedMap.findD
  rw [if_neg (not_le.2 hop)]
  cases hfound : heatmap_list.find? a.op_id with
  | some heatmap =>
    -- The object has been accessed before, and its array is there.
    obtain ⟨size, array⟩ := heatmap
    rw [hfound] at harray
    split_ifs at harray with hmem
    · have hheat : array = heat memories before a.op_id (allocated memories before a.op_id) :=
        Option.some.inj harray
      rw [allocated_concat_of_mem hmem, ← hheat]
      exact ⟨size, heatmap_list, fun _ _ => rfl, hupdate _ _ _ hfound, rfl⟩
    · cases harray
  | none =>
    -- The first access to the object allocates an array of zeros.
    rw [hfound] at harray
    have hmem : ¬∃ b ∈ before, b.op_id = a.op_id := fun hmem => by
      rw [if_pos hmem] at harray
      cases harray
    rw [allocated_concat_of_none hmem hunit.registered]
    generalize hlen : object.len / a.unit_size = len
    have hheat : heat memories before a.op_id (numInts len) = List.replicate (numInts len) 0 := by
      unfold heat
      simp only [accessesAt_of_none hmem, List.map_const', List.length_range, Nat.cast_zero]
    rw [hheat]
    refine ⟨len, heatmap_list.set a.op_id ⟨len, List.replicate (numInts len) 0⟩,
      fun op_id hne => heatmap_list.find?_set_of_ne hne _, ?_, by simp⟩
    dsimp only
    unfold makeHeatmap
    rw [hunit.registered, Option.bind_some, if_neg hsize.ne', hlen, Option.bind_some]
    exact hupdate _ _ _ ((heatmap_list.find?_set _ _ _).trans (if_pos rfl))

/-- The count of a unit. -/
theorem getElem?_heat (memories : Memories) (before : List HeatmapAccess) (op_id len k : ℕ) :
    (heat memories before op_id len)[k]? =
      if k < len then some (accessesAt memories before op_id k : ℤ) else none := by
  unfold heat
  rw [List.getElem?_map]
  by_cases hk : k < len
  · rw [List.getElem?_range hk, if_pos hk]
    rfl
  · rw [List.getElem?_eq_none (by rw [List.length_range]; omega), if_neg hk]
    rfl

/-- A unit can be counted once more when it is allocated and an `int` can. -/
theorem countUnit_heat (memories : Memories) (before : List HeatmapAccess) (op_id len k : ℕ) :
    countUnit (heat memories before op_id len) k =
      if k < len ∧ accessesAt memories before op_id k + 1 < 2^31 then
        some ((heat memories before op_id len).set k (accessesAt memories before op_id k + 1))
      else none := by
  unfold countUnit
  rw [if_neg (by omega), Int.toNat_natCast, getElem?_heat]
  by_cases hk : k < len
  · rw [if_pos hk, Option.bind_some]
    unfold intSucc
    by_cases hcount : accessesAt memories before op_id k + 1 < 2^31
    · rw [if_pos (by exact_mod_cast hcount), if_pos ⟨hk, hcount⟩]
      rfl
    · rw [if_neg (by exact_mod_cast hcount), if_neg fun h => hcount h.2]
      rfl
  · rw [if_neg hk, if_neg fun h => hk h.1]
    rfl

/-- The sum when a unit has been counted once more. -/
theorem sum_set_heat {op_id len k : ℕ} (hk : k < len) :
    ((heat memories before op_id len).set k (accessesAt memories before op_id k + 1)).sum =
      (heat memories before op_id len).sum + 1 := by
  have hlength : k < (heat memories before op_id len).length := by
    unfold heat
    rwa [List.length_map, List.length_range]
  have hget : (heat memories before op_id len)[k] = accessesAt memories before op_id k := by
    have hsome := List.getElem?_eq_getElem hlength
    rw [getElem?_heat, if_pos hk] at hsome
    exact (Option.some.inj hsome).symm
  rw [List.sum_set', dif_pos hlength, hget, neg_add_cancel_left]

/-- What has been accessed after one more access. -/
theorem heat_concat (memories : Memories) (before : List HeatmapAccess) (a : HeatmapAccess)
    (len : ℕ) :
    heat memories (before ++ [a]) a.op_id len = (heat memories before a.op_id len).set
      (a.unit memories) (accessesAt memories before a.op_id (a.unit memories) + 1) := by
  refine List.ext_getElem? fun k => ?_
  have hlength : (heat memories before a.op_id len).length = len := by
    unfold heat
    rw [List.length_map, List.length_range]
  have hconcat := accessesAt_concat memories before a a.op_id k
  rw [List.getElem?_set, getElem?_heat, getElem?_heat, hlength]
  by_cases hk : a.unit memories = k
  · rw [if_pos ⟨rfl, hk⟩] at hconcat
    rw [if_pos hk, hk, hconcat]
    push_cast
    rfl
  · rw [if_neg fun h => hk h.2, Nat.add_zero] at hconcat
    rw [if_neg hk, hconcat]

/-- An access that is delivered is counted as it should be exactly when it can be counted. -/
theorem countedRight_iff (hdelivered : Delivered memories a)
    (hcounted : Counted memories before heatmap_list) :
    CountedRight memories heatmap_list a ↔ Countable memories before a := by
  unfold CountedRight Countable
  by_cases hop : a.op_id ≤ REDSHOW_MEMORY_HOST
  · exact iff_of_true ⟨heatmap_list, if_pos hop, fun h => absurd hop (not_le.2 h)⟩ (.inl hop)
  have hlt := not_le.1 hop
  rw [or_iff_right hop]
  rcases Nat.eq_zero_or_pos a.unit_size with hsize | hsize
  · rw [unitAccess_zero hlt hsize, hsize]
    simp
  obtain ⟨object, hunit⟩ := hdelivered.oneUnit hsize
  obtain ⟨size, made, -, haccess, htotal⟩ := unitAccess_eq hcounted hlt hsize hunit
  have hsum : ∀ array, total (made.set a.op_id ⟨size, array⟩) a.op_id = array.sum := by
    intro array
    unfold total
    rw [OrderedMap.findD_set, if_pos rfl]
  rw [haccess, htotal, (hunit.units hsize).1, and_iff_right hsize]
  by_cases hk : a.unit memories + 1 < 2^31
  · rw [heatmapLoop_one hk, countUnit_heat, and_iff_right hk]
    split_ifs with hcount
    · refine iff_of_true ⟨_, rfl, fun _ => ?_⟩ hcount
      rw [hsum, sum_set_heat hcount.1]
      rfl
    · exact iff_of_false nofun hcount
  · -- The loop has no result or adds nothing.
    refine iff_of_false ?_ fun h => hk h.1
    rintro ⟨heatmap_list', heq, hadded⟩
    obtain ⟨array, harray, rfl⟩ := Option.map_eq_some_iff.1 heq
    have hadd := hadded hlt
    rw [hsum, heatmapLoop_far (not_lt.1 hk) harray] at hadd
    simp at hadd

/-- An access that can be counted leaves the heat maps of all accesses up to it. -/
theorem Counted.concat (hcounted : Counted memories before heatmap_list)
    (hdelivered : Delivered memories a) (hcountable : Countable memories before a) :
    ∃ heatmap_list', unitAccess memories heatmap_list a = some heatmap_list' ∧
      Counted memories (before ++ [a]) heatmap_list' := by
  -- The heat maps of other objects stay as they are.
  have hother : ∀ (heatmap_list' : HeatmapList) (op_id : ℕ), REDSHOW_MEMORY_HOST < op_id →
      a.op_id ≠ op_id → heatmap_list'.find? op_id = heatmap_list.find? op_id →
      (heatmap_list'.find? op_id).map HeatMapMemory.array =
        if ∃ b ∈ before ++ [a], b.op_id = op_id then
          some (heat memories (before ++ [a]) op_id (allocated memories (before ++ [a]) op_id))
        else none := by
    intro heatmap_list' op_id hlt hne hsame
    have hmem : (∃ b ∈ before ++ [a], b.op_id = op_id) ↔ ∃ b ∈ before, b.op_id = op_id := by
      simp only [List.mem_append, List.mem_singleton, or_and_right, exists_or, exists_eq_left, hne,
        or_false]
    have hheat : ∀ len, heat memories (before ++ [a]) op_id len =
        heat memories before op_id len := fun len => by
      unfold heat
      simp only [accessesAt_concat, hne, false_and, if_false, Nat.add_zero]
    rw [hsame, hcounted op_id hlt, allocated_concat_of_ne hne, hheat]
    exact if_congr hmem.symm rfl rfl
  rcases hcountable with hop | ⟨hsize, hk, hallocated, hcount⟩
  · exact ⟨heatmap_list, if_pos hop, fun op_id hlt =>
      hother heatmap_list op_id hlt (hop.trans_lt hlt).ne rfl⟩
  by_cases hop : a.op_id ≤ REDSHOW_MEMORY_HOST
  · exact ⟨heatmap_list, if_pos hop, fun op_id hlt =>
      hother heatmap_list op_id hlt (hop.trans_lt hlt).ne rfl⟩
  obtain ⟨object, hunit⟩ := hdelivered.oneUnit hsize
  obtain ⟨size, made, hmade, haccess, -⟩ := unitAccess_eq hcounted (not_le.1 hop) hsize hunit
  rw [heatmapLoop_one hk, countUnit_heat, if_pos ⟨hallocated, hcount⟩, ← heat_concat] at haccess
  refine ⟨_, haccess, fun op_id hlt => ?_⟩
  by_cases hne : a.op_id = op_id
  · subst hne
    rw [OrderedMap.find?_set, if_pos rfl, if_pos ⟨a, by simp, rfl⟩]
    rfl
  · exact hother _ op_id hlt hne
      (((made.find?_set_of_ne (Ne.symm hne)) _).trans (hmade op_id (Ne.symm hne)))

/-! ## Runs -/

/-- When the accesses of a run can be counted, its heat maps are those of the accesses. -/
theorem run_counted (hdelivered : ∀ a ∈ before, Delivered memories a)
    (hcountable : ∀ earlier a, earlier ++ [a] <+: before → Countable memories earlier a) :
    ∃ heatmap_list, run memories before = some heatmap_list ∧
      Counted memories before heatmap_list := by
  induction before using List.reverseRecOn with
  | nil => exact ⟨∅, rfl, fun op_id _ => by simp [OrderedMap.find?]⟩
  | append_singleton before a ih =>
    obtain ⟨heatmap_list, hrun, hcounted⟩ := ih
      (fun b hb => hdelivered b (List.mem_append_left _ hb))
      (fun earlier b hpre => hcountable earlier b (hpre.trans (List.prefix_append _ _)))
    obtain ⟨heatmap_list', haccess, hcounted'⟩ := hcounted.concat
      (hdelivered a (List.mem_append_right _ (List.mem_singleton_self a)))
      (hcountable before a List.prefix_rfl)
    refine ⟨heatmap_list', ?_, hcounted'⟩
    unfold run at hrun ⊢
    rw [List.foldlM_append, hrun]
    simpa using haccess

/-- Every access of a run is counted as it should be exactly when every one can be counted after
those before it. -/
theorem heatmap_run_iff {accesses : List HeatmapAccess}
    (hdelivered : ∀ a ∈ accesses, Delivered memories a) :
    RunRight memories accesses ↔
      ∀ before a, before ++ [a] <+: accesses → Countable memories before a := by
  -- The heat maps before an access are those of the accesses before it, if these can be counted.
  have hmaps : ∀ before a, before ++ [a] <+: accesses →
      (∀ earlier b, earlier ++ [b] <+: before → Countable memories earlier b) →
      ∃ heatmap_list, run memories before = some heatmap_list ∧
        (CountedRight memories heatmap_list a ↔ Countable memories before a) := by
    intro before a hpre hcountable
    have hbefore : before <+: accesses := (List.prefix_append _ _).trans hpre
    obtain ⟨heatmap_list, hrun, hcounted⟩ := run_counted
      (fun b hb => hdelivered b (hbefore.subset hb)) hcountable
    have hlast : a ∈ accesses :=
      hpre.subset (List.mem_append_right _ (List.mem_singleton_self a))
    exact ⟨heatmap_list, hrun, countedRight_iff (hdelivered a hlast) hcounted⟩
  constructor
  · -- By induction on how many accesses come before: those can then be counted.
    intro hright before a hpre
    induction hlength : before.length using Nat.strong_induction_on generalizing before a with
    | _ n ih =>
      obtain ⟨heatmap_list, hrun, hiff⟩ := hmaps before a hpre fun earlier b hearlier => by
        have hlt := hearlier.length_le
        rw [List.length_append, List.length_singleton] at hlt
        exact ih earlier.length (by omega) earlier b
          (hearlier.trans ((List.prefix_append _ _).trans hpre)) rfl
      obtain ⟨heatmap_list', hrun', hcounted⟩ := hright before a hpre
      obtain rfl : heatmap_list = heatmap_list' := Option.some.inj (hrun.symm.trans hrun')
      exact hiff.1 hcounted
  · intro hcountable before a hpre
    obtain ⟨heatmap_list, hrun, hiff⟩ := hmaps before a hpre fun earlier b hearlier =>
      hcountable earlier b (hearlier.trans ((List.prefix_append _ _).trans hpre))
    exact ⟨heatmap_list, hrun, hiff.2 (hcountable before a hpre)⟩

/-- An object of 512 bytes. -/
def someObject : Memory := Memory.ofRange 0 7 1 ⟨512, 1024⟩ 0 0

/-- The map with this object. -/
def someMap : MemoryMap := OrderedMap.set ∅ 512 someObject

theorem blocksOf_someMap : BlocksOf (registerMemories [someObject]) someMap := by
  have hone : ∀ e ∈ someMap.toList, e = (512, someObject) := fun e he => List.mem_singleton.1 he
  refine ⟨⟨?_, ?_, ?_, List.pairwise_singleton _ _⟩, ?_, ?_⟩ <;>
    intro e he <;> rw [hone e he] <;> decide

/-- A read of the first four bytes by the first lane, which is the only one. -/
def someRecord : RecordAddress := ⟨16, 1, 1#32, 4, fun _ => 512⟩

theorem heatmap_run_patch : RunRight (registerMemories [someObject]) [⟨7, ⟨512, 516⟩, 4⟩] := by
  have hpatch : (⟨⟨7, 1, ⟨512, 516⟩, 4, 1⟩, 4, 16⟩ : PatchAccess) ∈
      (traceAnalyzeAddressPatch [⟨0, 0, 0, 0⟩] someMap [someRecord]).1 := by decide +kernel
  refine (heatmap_run_iff fun a ha => ?_).2 fun before a hpre => ?_
  · rw [List.mem_singleton.1 ha]
    exact Delivered.patch blocksOf_someMap (by decide) hpatch
  · obtain ⟨rfl, ha⟩ : before = [] ∧ [a] = [⟨7, ⟨512, 516⟩, 4⟩] := by
      rcases List.prefix_concat_iff.1 (show before ++ [a] <+: [] ++ [_] from hpre) with h | h
      · exact List.append_inj' h rfl
      · exact absurd (List.append_eq_nil_iff.1 (List.prefix_nil.1 h)).2 (List.cons_ne_nil _ _)
    rw [List.singleton_inj.1 ha]
    exact .inr (by decide +kernel)

/-- An interval over the same bytes divides by zero. -/
theorem heatmap_run_interval : ¬∀ accesses : List HeatmapAccess,
    (∀ a ∈ accesses, Delivered (registerMemories [someObject]) a) →
      RunRight (registerMemories [someObject]) accesses := by
  intro h
  have hanalysis : traceAnalyzeAddressAnalysis someMap 1 [⟨512, 516⟩] 2 =
      some [⟨7, 1, ⟨512, 516⟩, 4, 1⟩] := by decide +kernel
  obtain ⟨heatmap_list, -, heatmap_list', haccess, -⟩ := h [⟨7, ⟨512, 516⟩, 0⟩]
    (fun a ha => by
      rw [List.mem_singleton.1 ha]
      exact Delivered.analysis blocksOf_someMap hanalysis (List.mem_singleton_self _))
    [] _ List.prefix_rfl
  rw [unitAccess_zero (by decide) rfl] at haccess
  cases haccess

end TenProf.MemoryHeatmap
