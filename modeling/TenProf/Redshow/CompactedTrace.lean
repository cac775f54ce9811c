import TenProf.GpuAnalysis.IntervalMerge
import TenProf.Redshow.AddressPatch

/-!
# The compacted trace

The trace of the records can be analysed as it is, lane by lane, or compacted to intervals, merged
and then cut into pieces at the blocks of the map. Both ways deliver the same bytes with the same op
ids, for the reads and for the writes (`keepsTrace`), as long as the accesses end before `2^63 - 1`,
the buffers have at most `2^31` intervals, and the index of the loop over the records does not wrap
around.
-/

namespace TenProf

open Binutils (Symbol transformPc)
open GpuPatch

/-- The two directions of an access. -/
inductive Direction
  | read
  | write
  deriving DecidableEq, Repr

/-- The flag of a direction. -/
def Direction.flag : Direction → ℕ
  | read => READ
  | write => WRITE

/-- The intervals that are pushed for a direction. -/
def Direction.intervals (buffers : AnalysisBuffers) : Direction → List (ℕ × ℕ)
  | read => buffers.read_buffer
  | write => buffers.write_buffer

/-- The records of a buffer, as the host reads them. -/
def analysisRecords (buffer : IntervalBuffer) : List MemoryRange :=
  (intervalsAt buffer.records buffer.head_index).map fun e => ⟨e.1, e.2⟩

/-- The raw trace is analysed with success, the compaction of the records ends, and for each
direction the merge of its buffer and the analysis of the merged buffer end as well, and deliver the
bytes that the raw trace does. The buffers have no more intervals than a limit. -/
structure KeepsTrace (c : Cub) (tile_size limit : ℕ) (symbols : List Symbol)
    (memory_map : MemoryMap) (records : ℕ → RecordAddress) (head_index num_warps : ℕ) : Prop where
  success : (traceAnalyzeAddressPatch symbols memory_map ((List.range head_index).map records)).2 =
    .REDSHOW_SUCCESS
  compacts : ∃ compacted out, CompactedBy records head_index num_warps compacted out
  delivered : ∀ compacted out, CompactedBy records head_index num_warps compacted out →
    ∀ (d : Direction) (buffer : IntervalBuffer),
      intervalsAt buffer.records buffer.head_index = d.intervals compacted →
      buffer.head_index ≤ limit →
      ∃ merged delivered, Settles (intervalMerge c tile_size buffer) merged ∧
        Settles (traceAnalyzeAddressAnalysis memory_map d.flag (analysisRecords merged))
          delivered ∧
        bytesOf d.flag delivered =
          bytesOf d.flag ((traceAnalyzeAddressPatch symbols memory_map
            ((List.range head_index).map records)).1.map PatchAccess.access)

variable {memory_map : MemoryMap} {flags flag : ℕ} {record : MemoryRange}
  {pieces : List UnitAccess}

/-- The bytes of the pieces of a record are those of its covered part. -/
theorem PiecesOf.mem_bytesOf_iff (h : PiecesOf memory_map flags record pieces)
    (hblocks : DisjointBlocks memory_map) (hflag : flags &&& flag ≠ 0) (b : ℕ × ℕ) :
    b ∈ bytesOf flag pieces ↔ b ∈ blockBytes memory_map fun x =>
      x ∈ coveredPrefix (blockSpans memory_map) (record.start, record.stop) := by
  constructor
  · rintro ⟨a, ha, -, hid, hle, hlt⟩
    obtain ⟨e, he, heid, -, hstart, hstop⟩ := h.in_block a ha
    exact ⟨(h.covered b.2).1 ⟨a.span, List.mem_map_of_mem ha, hle, hlt⟩, e, he, heid.trans hid,
      hstart.trans hle, hlt.trans_le hstop⟩
  · rintro ⟨hpart, e, he, hid, hex⟩
    obtain ⟨span, hspan, hle, hlt⟩ := (h.covered b.2).2 hpart
    obtain ⟨a, ha, rfl⟩ := List.mem_map.1 hspan
    obtain ⟨d, hd, hdid, -, hstart, hstop⟩ := h.in_block a ha
    -- The block of the piece is the one that holds the byte.
    obtain rfl := hblocks.eq_of_mem hd he ⟨hstart.trans hle, hlt.trans_le hstop⟩ hex
    exact ⟨a, ha, by rwa [h.flags_eq a ha], hdid.symm.trans hid, hle, hlt⟩

/-- The bytes of two lists of accesses. -/
theorem bytesOf_append (flag : ℕ) (l l' : List UnitAccess) :
    bytesOf flag (l ++ l') = bytesOf flag l ∪ bytesOf flag l' := by
  ext b
  constructor
  · rintro ⟨a, ha, hb⟩
    exact (List.mem_append.1 ha).imp (fun ha => ⟨a, ha, hb⟩) fun ha => ⟨a, ha, hb⟩
  · rintro (⟨a, ha, hb⟩ | ⟨a, ha, hb⟩)
    · exact ⟨a, List.mem_append_left _ ha, hb⟩
    · exact ⟨a, List.mem_append_right _ ha, hb⟩

/-- The analysis of merged addresses delivers the bytes of the covered parts of its records. -/
theorem exists_settles_bytesOf (hblocks : DisjointBlocks memory_map) (hflag : flags &&& flag ≠ 0)
    {ranges : List MemoryRange} (hword : ∀ r ∈ ranges, r.stop < 2^64) :
    ∃ delivered, Settles (traceAnalyzeAddressAnalysis memory_map flags ranges) delivered ∧
      bytesOf flag delivered = blockBytes memory_map fun x =>
        ∃ r ∈ ranges, x ∈ coveredPrefix (blockSpans memory_map) (r.start, r.stop) := by
  obtain ⟨pieces, hsettles, hall⟩ := exists_settles_mapM fun r hr =>
    addressPieces_piecesOf hblocks flags r (hword r hr)
  refine ⟨_, hsettles.map List.flatten, ?_⟩
  clear hsettles hword
  induction hall with
  | nil =>
    ext b
    simp [bytesOf, blockBytes]
  | cons hpieces _ ih =>
    ext b
    rw [List.flatten_cons, bytesOf_append, Set.mem_union, hpieces.mem_bytesOf_iff hblocks hflag, ih]
    refine or_and_right.symm.trans (and_congr_left' ?_)
    exact (List.exists_mem_cons_iff (fun r : MemoryRange =>
      b.2 ∈ coveredPrefix (blockSpans memory_map) (r.start, r.stop)) _ _).symm

variable {c : Cub} {m head_index num_warps bound : ℕ} {symbols : List Symbol}
  {records : ℕ → RecordAddress}

/-- The accesses of traced records do not go up to the end of the address space. -/
theorem Traced.inRange {l : List RecordAddress} (h : Traced symbols memory_map bound l)
    (hbound : bound ≤ 2^64) : ∀ record ∈ l, record.InRange := fun record hrecord k hk hactive =>
  (h.inside record hrecord k hk hactive).2.1.trans_le hbound

/-- The bytes that traced records access lie in blocks. -/
theorem Traced.covered_blockSpans {l : List RecordAddress} (h : Traced symbols memory_map bound l)
    {record : RecordAddress} (hrecord : record ∈ l) {x : ℕ} (hx : record.Accesses x) :
    Covered (blockSpans memory_map) x := by
  obtain ⟨k, hk, hactive, -, hle, hlt⟩ := hx
  obtain ⟨-, -, e, he, hstart, hstop⟩ := h.inside record hrecord k hk hactive
  exact (TenProf.covered_blockSpans x).2 ⟨e, he, hstart.trans hle, hlt.trans_le hstop⟩

/-- The intervals of a direction are those of all records. -/
theorem CompactedBy.intervals_perm {compacted : AnalysisBuffers} {out : ℕ → AnalysisBuffers}
    (h : CompactedBy records head_index num_warps compacted out) (hpos : 0 < num_warps)
    (hwrap : head_index + num_warps ≤ 2^32) (d : Direction) :
    (d.intervals compacted).Perm (((List.range head_index).map records).flatMap
      (pushes d.flag)) := by
  obtain ⟨hread, hwrite⟩ := (exists_compactedBy_iff records hpos hwrap compacted).1 ⟨out, h⟩
  cases d with
  | read => exact hread
  | write => exact hwrite

/-- For records whose active accesses lie in blocks of the map and end before `2^63 - 1`, and
buffers of at most `2^31` intervals, the compacted trace is equivalent to the raw one. -/
theorem keepsTrace (hc : c.Spec) (hm : 0 < m) (hsize : 2 * m < 2^32)
    (htraced : Traced symbols memory_map (2^63 - 1) ((List.range head_index).map records))
    (hpos : 0 < num_warps) (hwrap : head_index + num_warps ≤ 2^32) :
    KeepsTrace c (2 * m) (2^31) symbols memory_map records head_index num_warps := by
  obtain hrange := htraced.inRange (by decide)
  constructor
  · exact (htraced.bytesOf_patch (by decide) READ).1
  · exact ⟨⟨_, _⟩, (exists_compactedBy_iff records hpos hwrap _).2
      ⟨List.Perm.refl _, List.Perm.refl _⟩⟩
  intro compacted out hcompacted d buffer hintervals hlimit
  have hperm := hcompacted.intervals_perm hpos hwrap d
  have hends : ∀ e ∈ d.intervals compacted, e.1 ≤ e.2 ∧ e.2 < 2^63 - 1 := by
    intro e he
    obtain ⟨hle, record, hrecord, l, hl, hactive, hend⟩ :=
      ends_of_mem_flatMap_pushes hrange (hperm.subset he)
    exact ⟨hle, hend ▸ (htraced.inside record hrecord l hl hactive).2.1⟩
  obtain ⟨merged, hmerge, hmerges⟩ := exists_settles_intervalMerge hc hm hsize buffer
    ⟨fun e he => (hends e (hintervals ▸ he)).1, fun e he => (hends e (hintervals ▸ he)).2⟩ hlimit
  rw [hintervals] at hmerges
  -- The merged intervals cover the bytes of the records with the flag.
  have hcovered : ∀ x, Covered (intervalsAt merged.records merged.head_index) x ↔
      ∃ record ∈ (List.range head_index).map records, record.flags &&& d.flag ≠ 0 ∧
        record.Accesses x := fun x =>
    calc Covered (intervalsAt merged.records merged.head_index) x
        ↔ Covered (d.intervals compacted) x := hmerges.covered x
      _ ↔ Covered (((List.range head_index).map records).flatMap (pushes d.flag)) x :=
          covered_congr (fun _ => hperm.mem_iff) x
      _ ↔ _ := covered_flatMap_pushes hrange d.flag x
  have hword : ∀ r ∈ analysisRecords merged, r.stop < 2^64 := by
    intro r hr
    obtain ⟨e, he, rfl⟩ := List.mem_map.1 hr
    obtain ⟨a, ha, hend⟩ := hmerges.exists_end e he
    have hlt := (hends a ha).2
    simp only
    omega
  have hflag : d.flag &&& d.flag ≠ 0 := by cases d <;> decide
  obtain ⟨delivered, hsettles, hbytes⟩ :=
    exists_settles_bytesOf htraced.blocks hflag hword
  refine ⟨merged, delivered, hmerge, hsettles, hbytes.trans ?_⟩
  rw [(htraced.bytesOf_patch (by decide) d.flag).2]
  congr 1
  ext x
  rw [← hcovered]
  constructor
  · rintro ⟨r, hr, hle, hlt, -⟩
    obtain ⟨e, he, rfl⟩ := List.mem_map.1 hr
    exact ⟨e, he, hle, hlt⟩
  · rintro ⟨e, he, hle, hlt⟩
    refine ⟨⟨e.1, e.2⟩, List.mem_map_of_mem he, hle, hlt, fun y hy hyx => ?_⟩
    obtain ⟨record, hrecord, -, haccess⟩ := (hcovered y).1 ⟨e, he, hy, hyx.trans_lt hlt⟩
    exact htraced.covered_blockSpans hrecord haccess

/-- A symbol for all pcs. -/
def oneSymbol : List Symbol := [⟨0, 0, 0, 0⟩]

/-- A read by two lanes at the border of two blocks, and a write. -/
def borderRecords (i : ℕ) : RecordAddress :=
  if i = 0 then ⟨0, READ, 0x3#32, 4, fun l => [196, 200].getD l 0⟩
  else ⟨8, WRITE, 0x1#32, 8, fun _ => 400⟩

/-- The two records, compacted by two warps. -/
theorem keepsTrace_borderRecords :
    KeepsTrace Cub.sequential (2 * 2) (2^31) oneSymbol threeBlocks borderRecords 2 2 :=
  keepsTrace Cub.sequential_spec (by decide) (by decide)
    ⟨⟨by decide, by decide⟩, by decide, by decide, by decide +kernel⟩ (by decide) (by decide)

/-! ## The limits of the compaction -/

/-- An access of one lane that reads. -/
def singleLane (address size : ℕ) : RecordAddress where
  pc := 0
  flags := READ
  active := 1#32
  size := size
  address _ := address

/-- The bytes that it accesses. -/
theorem singleLane_accesses_iff {address size : ℕ} (hpos : 0 < address) (x : ℕ) :
    (singleLane address size).Accesses x ↔ address ≤ x ∧ x < address + size := by
  constructor
  · rintro ⟨l, -, -, -, hx⟩
    exact hx
  · intro hx
    exact ⟨0, by decide, show (1#32).getLsbD 0 = true by decide, hpos.ne', hx⟩

/-- Its pushes. -/
theorem pushes_singleLane {address size : ℕ} (hpos : 0 < address) (hsize : 0 < size)
    (hword : address + size < 2^64) :
    pushes READ (singleLane address size) = [(address, address + size)] ∧
      pushes WRITE (singleLane address size) = [] := by
  have hrange : (singleLane address size).InRange := fun _ _ _ => hword
  obtain ⟨hseparated, hcovered⟩ := recordIntervals_spec hrange
  have hone := hseparated.eq_singleton (recordIntervals_proper hrange hsize)
    (Nat.lt_add_of_pos_right hsize) fun x =>
      (hcovered x).trans (singleLane_accesses_iff hpos x)
  exact ⟨(if_pos (show READ &&& READ ≠ 0 by decide)).trans hone,
    if_neg (show ¬READ &&& WRITE ≠ 0 by decide)⟩

/-- The pushes of single lanes in a row, by one warp. -/
theorem exists_compactedBy_singleLane {address : ℕ → ℕ} {size n : ℕ} (hn : n + 1 ≤ 2^32)
    (hsize : 0 < size) (h : ∀ i, 0 < address i ∧ address i + size < 2^64) :
    ∃ out, CompactedBy (fun i => singleLane (address i) size) n 1
      ⟨(List.range n).map fun i => (address i, address i + size), []⟩ out := by
  refine (exists_compactedBy_iff _ Nat.one_pos hn _).2 ⟨List.Perm.of_eq ?_, List.Perm.of_eq ?_⟩
  · rw [List.flatMap_map, List.map_eq_flatMap]
    exact List.flatMap_congr fun i _ => (pushes_singleLane (h i).1 hsize (h i).2).1.symm
  · rw [List.flatMap_map]
    exact (List.flatMap_eq_nil_iff.2 fun i _ =>
      (pushes_singleLane (h i).1 hsize (h i).2).2).symm

/-- Which records there are matters, but not how many times or in which order. -/
theorem Traced.of_subset {l l' : List RecordAddress} (h : Traced symbols memory_map bound l)
    (hsub : ∀ record ∈ l', record ∈ l) : Traced symbols memory_map bound l' :=
  ⟨h.blocks, h.keys, fun record hrecord => h.resolves record (hsub record hrecord),
    fun record hrecord => h.inside record (hsub record hrecord)⟩

/-- When the trace is kept, the merged intervals of the reads cover the bytes that the records
read. -/
theorem KeepsTrace.covered {tile_size limit : ℕ} {reads writes : List (ℕ × ℕ)}
    {out : ℕ → AnalysisBuffers} (buffer : IntervalBuffer) {merged : IntervalBuffer}
    (h : KeepsTrace c tile_size limit symbols memory_map records head_index num_warps)
    (htraced : Traced symbols memory_map bound ((List.range head_index).map records))
    (hbound : bound ≤ 2^64)
    (hcompacted : CompactedBy records head_index num_warps ⟨reads, writes⟩ out)
    (hintervals : intervalsAt buffer.records buffer.head_index = reads)
    (hlimit : buffer.head_index ≤ limit)
    (hmerge : Settles (intervalMerge c tile_size buffer) merged)
    (hword : ∀ e ∈ intervalsAt merged.records merged.head_index, e.2 < 2^64) {i : ℕ}
    (hi : i < head_index) (hflag : (records i).flags &&& READ ≠ 0) {x : ℕ}
    (hx : (records i).Accesses x) :
    Covered (intervalsAt merged.records merged.head_index) x := by
  obtain ⟨merged', delivered, hmerge', hsettles, hbytes⟩ :=
    h.delivered ⟨reads, writes⟩ out hcompacted .read buffer hintervals hlimit
  obtain rfl := hmerge.unique hmerge'
  have hword' : ∀ r ∈ analysisRecords merged, r.stop < 2^64 := by
    intro r hr
    obtain ⟨e, he, rfl⟩ := List.mem_map.1 hr
    exact hword e he
  obtain ⟨delivered', hsettles', hbytes'⟩ := exists_settles_bytesOf htraced.blocks
    (show READ &&& READ ≠ 0 by decide) hword'
  obtain rfl := hsettles.unique hsettles'
  have hrecord : records i ∈ (List.range head_index).map records :=
    List.mem_map_of_mem (List.mem_range.2 hi)
  obtain ⟨e, he, hex⟩ := (TenProf.covered_blockSpans x).1 (htraced.covered_blockSpans hrecord hx)
  -- The raw trace delivers the byte, and so does a merged record.
  have hraw : (e.2.op_id, x) ∈ bytesOf READ delivered :=
    (hbytes.trans (htraced.bytesOf_patch hbound READ).2).symm.subset
      ⟨⟨records i, hrecord, hflag, hx⟩, e, he, rfl, hex⟩
  obtain ⟨⟨r, hr, hle, hlt, -⟩, -⟩ := hbytes'.subset hraw
  obtain ⟨d, hd, rfl⟩ := List.mem_map.1 hr
  exact ⟨d, hd, hle, hlt⟩

/-- The blocks of the first and the last bytes. -/
def outerBlocks : MemoryMap :=
  (OrderedMap.set ∅ 1 (Memory.ofRange 0 1 7 ⟨1, 8⟩ 0 0)).set (2^63 - 5)
    (Memory.ofRange 0 2 7 ⟨2^63 - 5, 2^63 - 1⟩ 0 0)

/-- The addresses of reads whose intervals are those of `sentinelBuffer`. -/
def sentinelAddress (i : ℕ) : ℕ := if i = 0 then 2^63 - 5 else 4

/-- The addresses of reads whose intervals are those of `wrappedBuffer`. -/
def wrappedAddress (i : ℕ) : ℕ := if i < 2^31 then 1 else 5

/-- A record without active lanes. -/
def idleRecord : RecordAddress := ⟨0, READ, 0#32, 4, fun _ => 0⟩

theorem traced_sentinelAddress :
    Traced oneSymbol outerBlocks (2^63) ((List.range 2).map fun i =>
      singleLane (sentinelAddress i) 4) :=
  ⟨⟨by decide, by decide⟩, by decide, by decide, by decide +kernel⟩

theorem traced_wrappedAddress (n : ℕ) :
    Traced oneSymbol outerBlocks (2^63 - 1) ((List.range n).map fun i =>
      singleLane (wrappedAddress i) 1) := by
  have hfew : Traced oneSymbol outerBlocks (2^63 - 1) [singleLane 1 1, singleLane 5 1] :=
    ⟨⟨by decide, by decide⟩, by decide, by decide, by decide +kernel⟩
  refine hfew.of_subset fun record hrecord => ?_
  obtain ⟨i, -, rfl⟩ := List.mem_map.1 hrecord
  unfold wrappedAddress
  split_ifs
  · exact List.mem_cons_self
  · exact List.mem_cons_of_mem _ List.mem_cons_self

theorem traced_idleRecord (n : ℕ) :
    Traced oneSymbol outerBlocks (2^63 - 1) ((List.range n).map fun _ => idleRecord) := by
  have hone : Traced oneSymbol outerBlocks (2^63 - 1) [idleRecord] :=
    ⟨⟨by decide, by decide⟩, by decide, by decide, by decide +kernel⟩
  refine hone.of_subset fun record hrecord => ?_
  obtain ⟨i, -, rfl⟩ := List.mem_map.1 hrecord
  exact List.mem_cons_self

/-- The last bytes are lost when an access ends at `2^63 - 1`. -/
theorem not_keepsTrace_sentinel :
    ¬KeepsTrace Cub.sequential (2 * 2) (2^31) oneSymbol outerBlocks
      (fun i => singleLane (sentinelAddress i) 4) 2 1 := by
  intro h
  have haddress : ∀ i, 0 < sentinelAddress i ∧ sentinelAddress i + 4 < 2^64 := by
    intro i
    unfold sentinelAddress
    split_ifs <;> decide
  obtain ⟨out, hcompacted⟩ := exists_compactedBy_singleLane (show 2 + 1 ≤ 2^32 by decide)
    (by decide) haddress
  obtain ⟨merged, hmerge, hintervals⟩ := settles_sentinelBuffer
  have hcovered := KeepsTrace.covered sentinelBuffer h traced_sentinelAddress (by decide)
    hcompacted (by decide) (by decide) hmerge (by rw [hintervals]; decide)
    (show 0 < 2 by decide) (show READ &&& READ ≠ 0 by decide)
    ((singleLane_accesses_iff (haddress 0).1 (2^63 - 5)).2 (by decide))
  rw [hintervals] at hcovered
  exact absurd hcovered (by decide)

/-- The bytes of the last tile are lost when there are more than `2^31` intervals. -/
theorem not_keepsTrace_wrapped : ¬KeepsTrace Cub.sequential (2 * 2048) (2^32 - 1) oneSymbol
    outerBlocks (fun i => singleLane (wrappedAddress i) 1) (2^31 + 2048) 1 := by
  intro h
  have haddress : ∀ i, 0 < wrappedAddress i ∧ wrappedAddress i + 1 < 2^64 := by
    intro i
    unfold wrappedAddress
    split_ifs <;> decide
  obtain ⟨out, hcompacted⟩ := exists_compactedBy_singleLane
    (show 2^31 + 2048 + 1 ≤ 2^32 by decide) Nat.one_pos haddress
  obtain ⟨merged, hmerge, hends⟩ := settles_wrappedBuffer Cub.sequential_spec
  have hintervals : intervalsAt wrappedBuffer.records wrappedBuffer.head_index =
      (List.range (2^31 + 2048)).map fun i => (wrappedAddress i, wrappedAddress i + 1) := by
    refine List.map_congr_left fun i _ => ?_
    simp only [wrappedBuffer, wrappedAddress]
    split_ifs <;> simp only [Prod.mk.injEq] <;> omega
  have hlast : wrappedAddress (2^31) = 5 := if_neg (lt_irrefl _)
  obtain ⟨e, he, hle, hlt⟩ := KeepsTrace.covered wrappedBuffer h (traced_wrappedAddress _)
    (by decide) hcompacted hintervals (by decide) hmerge
    (fun e he => (hends e he).trans_lt (by decide)) (show 2^31 < 2^31 + 2048 by decide)
    (show READ &&& READ ≠ 0 by decide)
    ((singleLane_accesses_iff (haddress _).1 5).2 (by rw [hlast]; decide))
  have hend := hends e he
  omega

/-- The loop over the records does not end when its index wraps around. -/
theorem not_keepsTrace_endless : ¬KeepsTrace Cub.sequential (2 * 2) (2^31) oneSymbol
    outerBlocks (fun _ => idleRecord) (2^32 - 1) 2 := by
  intro h
  obtain ⟨compacted, out, hcompacted⟩ := h.compacts
  obtain ⟨n, hn⟩ := hcompacted.settles 0 (by decide)
  have hnone : intervalCompact (fun _ => idleRecord) (2^32 - 1) 0 2 ⟨[], []⟩ n = none := by
    -- The index of the first warp stays even, and the number of records is odd.
    refine loop_diverges (I := fun st : CompactLoop => st.iter % 2 = 0 ∧ st.iter < 2^32)
      (fun st hst => ?_) ⟨rfl, by decide⟩ n
    obtain ⟨heven, hlt⟩ := hst
    refine ⟨_, if_pos (by omega), ?_⟩
    unfold u32
    simp only
    omega
  rw [hn n le_rfl] at hnone
  simp at hnone

/-- The compaction does not keep the trace when accesses may end at `2^63 - 1`, when the buffers may
have more than `2^31` intervals, or when the index of the loop over the records may wrap around. -/
theorem not_keepsTrace :
    (¬∀ (c : Cub) (m : ℕ) (symbols : List Symbol) (memory_map : MemoryMap)
      (records : ℕ → RecordAddress) (head_index num_warps : ℕ), c.Spec → 0 < m → 2 * m < 2^32 →
      Traced symbols memory_map (2^63) ((List.range head_index).map records) → 0 < num_warps →
      head_index + num_warps ≤ 2^32 →
      KeepsTrace c (2 * m) (2^31) symbols memory_map records head_index num_warps) ∧
    (¬∀ (c : Cub) (m : ℕ) (symbols : List Symbol) (memory_map : MemoryMap)
      (records : ℕ → RecordAddress) (head_index num_warps : ℕ), c.Spec → 0 < m → 2 * m < 2^32 →
      Traced symbols memory_map (2^63 - 1) ((List.range head_index).map records) →
      0 < num_warps → head_index + num_warps ≤ 2^32 →
      KeepsTrace c (2 * m) (2^32 - 1) symbols memory_map records head_index num_warps) ∧
    ¬∀ (c : Cub) (m : ℕ) (symbols : List Symbol) (memory_map : MemoryMap)
      (records : ℕ → RecordAddress) (head_index num_warps : ℕ), c.Spec → 0 < m → 2 * m < 2^32 →
      Traced symbols memory_map (2^63 - 1) ((List.range head_index).map records) →
      0 < num_warps → head_index < 2^32 →
      KeepsTrace c (2 * m) (2^31) symbols memory_map records head_index num_warps := by
  have hc := Cub.sequential_spec
  refine ⟨fun h => ?_, fun h => ?_, fun h => ?_⟩
  · exact not_keepsTrace_sentinel
      (h _ 2 _ _ _ 2 1 hc (by decide) (by decide) traced_sentinelAddress (by decide) (by decide))
  · exact not_keepsTrace_wrapped
      (h _ 2048 _ _ _ _ 1 hc (by decide) (by decide) (traced_wrappedAddress _) (by decide)
        (by decide))
  · exact not_keepsTrace_endless
      (h _ 2 _ _ _ _ 2 hc (by decide) (by decide) (traced_idleRecord _) (by decide) (by decide))

end TenProf
