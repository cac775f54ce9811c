import TenProf.Redshow.MemorySnapshot

/-!
# Queries of the snapshots

`redshow_memory_query` looks up the block of an address in the snapshot for an id, and
`redshow_memory_ranges_get` and `redshow_submemory_ranges_get` write the ranges of all blocks of a
snapshot to an array of the caller. The query accepts the end of a block as an address of it
(`memoryQuery_right_iff`), and the other two do not look at the limit of the array
(`rangesGet_right_iff`).
-/

namespace TenProf

/-! ## The block of an address -/

/-- The output arguments of `redshow_memory_query`. -/
structure QueryArgs where
  memory_id : ℤ
  memory_op_id : ℕ
  shadow_start : ℕ
  len : ℕ
  deriving DecidableEq, Repr

/-- `redshow_memory_query`: the output arguments after it, and its result. -/
def redshowMemoryQuery (memory_snapshot : MemorySnapshot) (host_op_id start : ℕ)
    (args : QueryArgs) : QueryArgs × RedshowResult :=
  match memory_snapshot.prev host_op_id with
  | some snapshot_iter =>
    let memory_map := snapshot_iter.2
    match memory_map.prev start with
    | some memory_map_iter =>
      if memory_map_iter.2.memory_range.stop ≥ start then
        -- Fall into the range, assume no memory overflow
        let offset := subU64 start memory_map_iter.1
        ({ memory_id := memory_map_iter.2.ctx_id
           memory_op_id := memory_map_iter.2.op_id
           shadow_start := u64 (memory_map_iter.2.value + offset)
           len := memory_map_iter.2.len }, .REDSHOW_SUCCESS)
      else (args, .REDSHOW_ERROR_NOT_EXIST_ENTRY)
    | none => (args, .REDSHOW_ERROR_NOT_EXIST_ENTRY)
  | none => (args, .REDSHOW_ERROR_NOT_EXIST_ENTRY)

/-- Blocks as they are registered: the key of a block is its start, its length that of its range,
and no two overlap. -/
structure StoredBlocks (memory_map : MemoryMap) : Prop where
  key : ∀ e ∈ memory_map.toList, e.2.memory_range.start = e.1
  le : ∀ e ∈ memory_map.toList, e.1 ≤ e.2.memory_range.stop
  len : ∀ e ∈ memory_map.toList, e.2.len = e.2.memory_range.stop - e.1
  apart : memory_map.toList.Pairwise fun e d => e.2.memory_range.stop ≤ d.1

/-- The query succeeds exactly for an address in a block of the snapshot. Then it returns the ids
and the length of the block, and the address in its buffer, which the offset does not leave; else it
leaves the output arguments. -/
structure QueryRight (memory_snapshot : MemorySnapshot) (host_op_id start : ℕ) (args : QueryArgs) :
    Prop where
  success_iff : (redshowMemoryQuery memory_snapshot host_op_id start args).2 = .REDSHOW_SUCCESS ↔
    ∃ e ∈ (contentAt memory_snapshot host_op_id).toList,
      e.1 ≤ start ∧ start < e.2.memory_range.stop
  block : ∀ e ∈ (contentAt memory_snapshot host_op_id).toList,
    e.1 ≤ start → start < e.2.memory_range.stop →
      (redshowMemoryQuery memory_snapshot host_op_id start args).1 =
        ⟨e.2.ctx_id, e.2.op_id, u64 (e.2.value + (start - e.1)), e.2.len⟩ ∧
      start - e.1 < e.2.len
  failure : (redshowMemoryQuery memory_snapshot host_op_id start args).2 ≠ .REDSHOW_SUCCESS →
    (redshowMemoryQuery memory_snapshot host_op_id start args).1 = args

variable {memory_snapshot : MemorySnapshot} {memory_map : MemoryMap} {host_op_id start : ℕ}
  {args : QueryArgs} {e : ℕ × Memory}

/-- In blocks that do not overlap, the predecessor of an address is the block that holds it. -/
theorem StoredBlocks.prev_eq (h : StoredBlocks memory_map) (he : e ∈ memory_map.toList)
    (hle : e.1 ≤ start) (hlt : start < e.2.memory_range.stop) : memory_map.prev start = some e := by
  refine (memory_map.prev_eq_some_iff start e).2 ⟨⟨he, hle⟩, fun d hd hdle => ?_⟩
  rcases lt_trichotomy d.1 e.1 with hdlt | heq | hgt
  · exact .inr hdlt
  · exact .inl (OrderedMap.eq_of_key hd he heq)
  · -- A block that starts later would start behind the end of this one.
    have hapart := OrderedMap.rel_of_lt h.apart he hd hgt
    omega

/-- What the query does: it returns the block before the address that does not end before it, or it
fails. -/
theorem redshowMemoryQuery_cases (memory_snapshot : MemorySnapshot) (host_op_id : ℕ)
    {start : ℕ} (hstart : start < 2^64) (args : QueryArgs) :
    (∃ e, (contentAt memory_snapshot host_op_id).prev start = some e ∧
      start ≤ e.2.memory_range.stop ∧ redshowMemoryQuery memory_snapshot host_op_id start args =
        (⟨e.2.ctx_id, e.2.op_id, u64 (e.2.value + (start - e.1)), e.2.len⟩, .REDSHOW_SUCCESS)) ∨
    ((∀ e, (contentAt memory_snapshot host_op_id).prev start = some e →
        e.2.memory_range.stop < start) ∧
      redshowMemoryQuery memory_snapshot host_op_id start args =
        (args, .REDSHOW_ERROR_NOT_EXIST_ENTRY)) := by
  unfold redshowMemoryQuery contentAt
  cases hsnapshot : memory_snapshot.prev host_op_id with
  | none =>
    refine .inr ⟨fun e he => ?_, rfl⟩
    have hmem := ((OrderedMap.prev_eq_some_iff _ _ _).1 he).1.1
    cases hmem
  | some snapshot_iter =>
    simp only
    cases hprev : snapshot_iter.2.prev start with
    | none => exact .inr ⟨by simp, rfl⟩
    | some e =>
      simp only
      split_ifs with hstop
      · have hle := ((OrderedMap.prev_eq_some_iff _ _ _).1 hprev).1.2
        rw [subU64_of_le hstart hle]
        exact .inl ⟨e, rfl, hstop, rfl⟩
      · refine .inr ⟨fun d hd => ?_, rfl⟩
        obtain rfl := Option.some.inj hd
        omega

/-- Next to a block that ends at an address, the block before the address is the same or starts at
the address. -/
theorem StoredBlocks.eq_or_start_of_prev (h : StoredBlocks memory_map) (he : e ∈ memory_map.toList)
    (hstop : e.2.memory_range.stop = start) {d : ℕ × Memory}
    (hd : memory_map.prev start = some d) : d = e ∨ d.1 = start := by
  obtain ⟨⟨hmem, hle⟩, hlast⟩ := (memory_map.prev_eq_some_iff start d).1 hd
  have hstart := h.le e he
  rcases hlast e he (by omega) with heq | hlt
  · exact .inl heq.symm
  · have hapart := OrderedMap.rel_of_lt h.apart he hmem hlt
    exact .inr (by omega)

/-- The blocks that a query looks at. -/
theorem storedBlocks_contentAt (hstore : ∀ s ∈ memory_snapshot.toList, StoredBlocks s.2)
    (host_op_id : ℕ) : StoredBlocks (contentAt memory_snapshot host_op_id) := by
  unfold contentAt
  cases hprev : memory_snapshot.prev host_op_id with
  | none => exact ⟨by simp, by simp, by simp, by simp⟩
  | some s => exact hstore s ((OrderedMap.prev_eq_some_iff _ _ _).1 hprev).1.1

/-- A query at an address in a block finds the block. -/
theorem redshowMemoryQuery_of_mem (hblocks : StoredBlocks (contentAt memory_snapshot host_op_id))
    (hstart : start < 2^64) (args : QueryArgs)
    (he : e ∈ (contentAt memory_snapshot host_op_id).toList) (hle : e.1 ≤ start)
    (hlt : start < e.2.memory_range.stop) :
    redshowMemoryQuery memory_snapshot host_op_id start args =
      (⟨e.2.ctx_id, e.2.op_id, u64 (e.2.value + (start - e.1)), e.2.len⟩, .REDSHOW_SUCCESS) := by
  have hprev := hblocks.prev_eq he hle hlt
  obtain ⟨p, hp, -, hquery⟩ | ⟨hend, -⟩ :=
    redshowMemoryQuery_cases memory_snapshot host_op_id hstart args
  · obtain rfl := Option.some.inj (hp.symm.trans hprev)
    exact hquery
  · have hstop := hend e hprev
    omega

/-- For blocks that do not overlap, the query is right exactly when no block ends at the address,
unless a block that is not empty starts there. -/
theorem memoryQuery_right_iff (hstore : ∀ s ∈ memory_snapshot.toList, StoredBlocks s.2)
    (hstart : start < 2^64) (args : QueryArgs) :
    QueryRight memory_snapshot host_op_id start args ↔
      ∀ e ∈ (contentAt memory_snapshot host_op_id).toList, e.2.memory_range.stop = start →
        ∃ d ∈ (contentAt memory_snapshot host_op_id).toList,
          d.1 = start ∧ start < d.2.memory_range.stop := by
  have hblocks := storedBlocks_contentAt hstore host_op_id
  have hcases := redshowMemoryQuery_cases memory_snapshot host_op_id hstart args
  constructor
  · intro h e he hstop
    obtain ⟨p, hp, hle, hquery⟩ | ⟨hend, -⟩ := hcases
    · obtain ⟨d, hd, hdle, hdlt⟩ := h.success_iff.1 (congrArg Prod.snd hquery)
      rcases hblocks.eq_or_start_of_prev he hstop (hblocks.prev_eq hd hdle hdlt) with rfl | hkey
      · omega
      · exact ⟨d, hd, hkey, hdlt⟩
    · -- There is a block before the address, and it does not end before it.
      cases hp : (contentAt memory_snapshot host_op_id).prev start with
      | none =>
        have hbefore := (OrderedMap.prev_eq_none_iff _ _).1 hp e he
        have hle := hblocks.le e he
        omega
      | some p =>
        have hlt := hend p hp
        have hmem := ((OrderedMap.prev_eq_some_iff _ _ _).1 hp).1.1
        have hle := hblocks.le p hmem
        rcases hblocks.eq_or_start_of_prev he hstop hp with rfl | hkey
        · omega
        · omega
  · intro h
    refine ⟨⟨fun hsuccess => ?_, ?_⟩, fun e he hle hlt => ?_, fun hfailure => ?_⟩
    · obtain ⟨p, hp, hle, -⟩ | ⟨-, hquery⟩ := hcases
      · obtain ⟨⟨hmem, hpstart⟩, -⟩ := (OrderedMap.prev_eq_some_iff _ _ _).1 hp
        rcases Nat.lt_or_eq_of_le hle with hlt | heq
        · exact ⟨p, hmem, hpstart, hlt⟩
        · obtain ⟨d, hd, hkey, hdlt⟩ := h p hmem heq.symm
          exact ⟨d, hd, hkey.le, hdlt⟩
      · rw [hquery] at hsuccess
        cases hsuccess
    · rintro ⟨e, he, hle, hlt⟩
      rw [redshowMemoryQuery_of_mem hblocks hstart args he hle hlt]
    · rw [redshowMemoryQuery_of_mem hblocks hstart args he hle hlt, hblocks.len e he]
      exact ⟨rfl, by omega⟩
    · obtain ⟨p, -, -, hquery⟩ | ⟨-, hquery⟩ := hcases
      · rw [hquery] at hfailure
        exact absurd rfl hfailure
      · rw [hquery]

/-- One block. -/
def oneBlock : MemorySnapshot :=
  storeAfter [.register 0 7 1 100 200 1000 2000]

theorem storedBlocks_oneBlock : ∀ s ∈ oneBlock.toList, StoredBlocks s.2 := by
  intro s hs
  obtain rfl := List.mem_singleton.1
    (show s ∈ [(1, (∅ : MemoryMap).set 100 (Memory.ofRange 0 1 7 ⟨100, 200⟩ 1000 2000))] from hs)
  exact ⟨by decide, by decide, by decide, by decide⟩

/-- An address in the block. -/
theorem memoryQuery_oneBlock : QueryRight oneBlock 1 150 ⟨0, 0, 0, 0⟩ ↔
    ∀ e ∈ (contentAt oneBlock 1).toList, e.2.memory_range.stop = 150 →
      ∃ d ∈ (contentAt oneBlock 1).toList, d.1 = 150 ∧ 150 < d.2.memory_range.stop :=
  memoryQuery_right_iff storedBlocks_oneBlock (by decide) ⟨0, 0, 0, 0⟩

/-- The query succeeds at the end of the block, and returns an address behind its buffer. -/
theorem not_memoryQuery_right : ¬∀ (memory_snapshot : MemorySnapshot) (host_op_id start : ℕ)
    (args : QueryArgs), (∀ s ∈ memory_snapshot.toList, StoredBlocks s.2) → start < 2^64 →
    QueryRight memory_snapshot host_op_id start args := by
  intro h
  have hright := h oneBlock 1 200 ⟨0, 0, 0, 0⟩ storedBlocks_oneBlock (by decide)
  have hin := hright.success_iff.1 (by decide)
  exact absurd hin (by decide)

/-! ## The ranges of all blocks -/

/-- What the functions that return the ranges do: the entries of `start_end` that they write, in
order, the length, and the result. -/
structure RangesGet where
  writes : List (ℕ × ℕ × ℕ)
  len : ℕ
  result : RedshowResult
  deriving DecidableEq, Repr

/-- The array after writes. -/
def applyWrites (start_end : ℕ → ℕ × ℕ) (writes : List (ℕ × ℕ × ℕ)) : ℕ → ℕ × ℕ :=
  writes.foldl (fun start_end w => Function.update start_end w.1 w.2) start_end

/-- The body of the functions that return the ranges of a store, with the limit that they do not
read. -/
def rangesGet (snapshot : MemorySnapshot) (host_op_id _limit : ℕ) : RangesGet :=
  match snapshot.prev host_op_id with
  | some snapshot_iter =>
    let memory_map := snapshot_iter.2
    if memory_map.size ≠ 0 then
      memory_map.toList.foldl (fun out memory_map_iter =>
        { out with
          writes := out.writes ++
            [(out.len, memory_map_iter.1, memory_map_iter.2.memory_range.stop)]
          len := u32 (out.len + 1) }) ⟨[], 0, .REDSHOW_SUCCESS⟩
    else ⟨[], 0, .REDSHOW_ERROR_NOT_EXIST_ENTRY⟩
  | none => ⟨[], 0, .REDSHOW_ERROR_NOT_EXIST_ENTRY⟩

/-- `redshow_memory_ranges_get`. -/
def redshowMemoryRangesGet (memory_snapshot : MemorySnapshot) (host_op_id limit : ℕ) : RangesGet :=
  rangesGet memory_snapshot host_op_id limit

/-- `redshow_submemory_ranges_get`. -/
def redshowSubmemoryRangesGet (sub_memory_snapshot : MemorySnapshot) (host_op_id limit : ℕ) :
    RangesGet :=
  rangesGet sub_memory_snapshot host_op_id limit

/-- The array gets the first ranges, as many as there is room for, and nothing else is written. -/
structure RangesRight (memory_map : MemoryMap) (limit : ℕ) (out : RangesGet) : Prop where
  len_eq : out.len = min limit memory_map.size
  writes_lt : ∀ w ∈ out.writes, w.1 < min limit memory_map.size
  entry : ∀ (start_end : ℕ → ℕ × ℕ) (i : ℕ) (e : ℕ × Memory), i < min limit memory_map.size →
    memory_map.toList[i]? = some e →
      applyWrites start_end out.writes i = (e.1, e.2.memory_range.stop)

/-- The entry that is written for a block at a position. -/
def rangeEntry (p : (ℕ × Memory) × ℕ) : ℕ × ℕ × ℕ :=
  (u32 p.2, p.1.1, p.1.2.memory_range.stop)

/-- The functions write the ranges of all blocks, whatever the limit is. -/
theorem rangesGet_eq (snapshot : MemorySnapshot) (host_op_id limit : ℕ) :
    (rangesGet snapshot host_op_id limit).writes =
        (contentAt snapshot host_op_id).toList.zipIdx.map rangeEntry ∧
      (rangesGet snapshot host_op_id limit).len = u32 (contentAt snapshot host_op_id).size := by
  -- The loop, with the blocks before.
  have hloop : ∀ (l : List (ℕ × Memory)) (k : ℕ) (writes : List (ℕ × ℕ × ℕ))
      (result : RedshowResult),
      l.foldl (fun (out : RangesGet) memory_map_iter =>
        { out with
          writes := out.writes ++
            [(out.len, memory_map_iter.1, memory_map_iter.2.memory_range.stop)]
          len := u32 (out.len + 1) }) ⟨writes, u32 k, result⟩ =
        ⟨writes ++ (l.zipIdx k).map rangeEntry, u32 (k + l.length), result⟩ := by
    intro l
    induction l with
    | nil => simp
    | cons e l ih =>
      intro k writes result
      rw [List.foldl_cons, List.zipIdx_cons, List.map_cons, List.length_cons]
      simp only [u32_u32_add_one]
      rw [ih, List.append_assoc, Nat.add_right_comm, Nat.add_assoc]
      rfl
  unfold rangesGet contentAt
  cases snapshot.prev host_op_id with
  | none => exact ⟨rfl, rfl⟩
  | some snapshot_iter =>
    simp only
    split_ifs with hsize
    · have hall := hloop snapshot_iter.2.toList 0 [] .REDSHOW_SUCCESS
      rw [Nat.zero_add] at hall
      exact ⟨congrArg RangesGet.writes hall, congrArg RangesGet.len hall⟩
    · have hnil : snapshot_iter.2.toList = [] := List.length_eq_zero_iff.1 (not_not.1 hsize)
      unfold OrderedMap.size
      rw [hnil]
      exact ⟨rfl, rfl⟩

/-- Fewer than `2^32` blocks are written each to its position. -/
theorem applyWrites_zipIdx (l : List (ℕ × Memory)) {k : ℕ} (hk : k + l.length ≤ 2^32)
    (start_end : ℕ → ℕ × ℕ) {i : ℕ} {e : ℕ × Memory} (he : l[i]? = some e) :
    applyWrites start_end ((l.zipIdx k).map rangeEntry) (k + i) =
      (e.1, e.2.memory_range.stop) := by
  -- The writes behind a position leave it.
  have hbefore : ∀ (l : List (ℕ × Memory)) (j a : ℕ) (start_end : ℕ → ℕ × ℕ), a < j →
      j + l.length ≤ 2^32 →
      applyWrites start_end ((l.zipIdx j).map rangeEntry) a = start_end a := by
    intro l
    induction l with
    | nil => exact fun _ _ _ _ _ => rfl
    | cons d l ih =>
      intro j a start_end ha hj
      rw [List.length_cons] at hj
      have hne : a ≠ u32 j := by
        rw [u32_of_lt (by omega)]
        omega
      exact (ih (j + 1) a _ (by omega) (by omega)).trans (Function.update_of_ne hne _ _)
  induction l generalizing k i start_end with
  | nil => simp at he
  | cons d l ih =>
    rw [List.length_cons] at hk
    cases i with
    | zero =>
      obtain rfl : d = e := by simpa using he
      have hself : u32 k = k := u32_of_lt (by omega)
      refine (hbefore l (k + 1) k _ (by omega) (by omega)).trans ?_
      simp only [rangeEntry, hself, Function.update_self]
    | succ i =>
      have htail := ih (k := k + 1) (by omega)
        (Function.update start_end (u32 k) (d.1, d.2.memory_range.stop)) (by simpa using he)
      rw [show k + (i + 1) = k + 1 + i by omega]
      exact htail

/-- For every store, the functions are right exactly when there are no more blocks than the limit
says, and fewer than `2^32`. -/
theorem rangesGet_right_iff (memory_snapshot sub_memory_snapshot : MemorySnapshot)
    (host_op_id limit : ℕ) :
    (RangesRight (contentAt memory_snapshot host_op_id) limit
        (redshowMemoryRangesGet memory_snapshot host_op_id limit) ↔
      (contentAt memory_snapshot host_op_id).size ≤ limit ∧
        (contentAt memory_snapshot host_op_id).size < 2^32) ∧
    (RangesRight (contentAt sub_memory_snapshot host_op_id) limit
        (redshowSubmemoryRangesGet sub_memory_snapshot host_op_id limit) ↔
      (contentAt sub_memory_snapshot host_op_id).size ≤ limit ∧
        (contentAt sub_memory_snapshot host_op_id).size < 2^32) := by
  have hright : ∀ snapshot : MemorySnapshot,
      RangesRight (contentAt snapshot host_op_id) limit (rangesGet snapshot host_op_id limit) ↔
        (contentAt snapshot host_op_id).size ≤ limit ∧
          (contentAt snapshot host_op_id).size < 2^32 := by
    intro snapshot
    obtain ⟨hwrites, hlen⟩ := rangesGet_eq snapshot host_op_id limit
    generalize contentAt snapshot host_op_id = memory_map at *
    constructor
    · intro h
      have hmin := hlen.symm.trans h.len_eq
      by_cases hfew : memory_map.size < 2^32
      · rw [u32_of_lt hfew] at hmin
        omega
      · -- The block at the last position that the length can name is written.
        have hsome : 2^32 - 1 < memory_map.toList.length := by
          unfold OrderedMap.size at hfew
          omega
        have hmem : rangeEntry (memory_map.toList[2^32 - 1], 2^32 - 1) ∈
            memory_map.toList.zipIdx.map rangeEntry := by
          refine List.mem_map_of_mem (List.mem_zipIdx_iff_getElem?.2 ?_)
          exact List.getElem?_eq_getElem hsome
        have hlt := h.writes_lt _ (hwrites ▸ hmem)
        simp only [rangeEntry] at hlt
        unfold u32 at hlt hmin
        omega
    · rintro ⟨hle, hlt⟩
      have hmin : min limit memory_map.size = memory_map.size := Nat.min_eq_right hle
      refine ⟨by rw [hlen, u32_of_lt hlt, hmin], fun w hw => ?_, fun start_end i e _ he => ?_⟩
      · rw [hwrites] at hw
        obtain ⟨⟨e, i⟩, hmem, rfl⟩ := List.mem_map.1 hw
        have hi := (List.getElem?_eq_some_iff.1 (List.mem_zipIdx_iff_getElem?.1 hmem)).1
        simp only [rangeEntry]
        unfold OrderedMap.size at *
        rw [hmin, u32_of_lt (by omega)]
        exact hi
      · have hentry := applyWrites_zipIdx memory_map.toList (k := 0)
          (by unfold OrderedMap.size at hlt; omega) start_end he
        rwa [Nat.zero_add, ← hwrites] at hentry
  exact ⟨hright memory_snapshot, hright sub_memory_snapshot⟩

/-- An array of one entry is written behind its end. -/
theorem not_rangesGet_right : ¬∀ (calls : List MemoryCall) (host_op_id limit : ℕ),
    RangesRight (contentAt (storeAfter calls) host_op_id) limit
        (redshowMemoryRangesGet (storeAfter calls) host_op_id limit) ∧
      RangesRight (contentAt (storeAfter calls) host_op_id) limit
        (redshowSubmemoryRangesGet (storeAfter calls) host_op_id limit) := by
  intro h
  have hright := (h [.register 0 7 1 100 200 1000 2000, .register 0 8 2 200 300 3000 4000] 2 1).1
  exact absurd (hright.writes_lt (1, 200, 300) (by decide)) (by decide)

end TenProf
