import TenProf.Redshow.CompactedTrace

/-!
# The rounds of the analysis kernel

`gpu_analysis_interval_merge` runs beside the kernel that is patched. Whenever the buffer of the
records is full it compacts them, and it does so once more when all threads have exited. The
intervals are pushed behind those that the buffers of the reads and the writes hold from earlier
rounds, and the buffers are merged in place. After any number of rounds a buffer covers exactly the
bytes that the records of all rounds access (`Rounds.summary`), and a next round ends as long as its
intervals fit (`Summary.exists_round`).

A buffer that gets full would wait for the host to drain it. The rounds here are those for which the
buffers are large enough: they have at most `limit` intervals before each merge.
-/

namespace TenProf

/-- The record at an index of a buffer. -/
def recordAt (records : List RecordAddress) (i : ℕ) : RecordAddress :=
  records[i]?.getD ⟨0, 0, 0, 0, fun _ => 0⟩

section Rounds

variable (c : Cub) (tile_size num_warps limit : ℕ) (d : Direction)

/-- What the warps push for a direction when they compact records, in any order. -/
def PushedBy (records : List RecordAddress) (pushed : List (ℕ × ℕ)) : Prop :=
  ∃ compacted out, CompactedBy (recordAt records) records.length num_warps compacted out ∧
    d.intervals compacted = pushed

/-- The buffer of a direction after intervals are pushed behind those that it holds. -/
structure Filled (buffer : IntervalBuffer) (pushed : List (ℕ × ℕ)) (filled : IntervalBuffer) :
    Prop where
  head_index : filled.head_index = buffer.head_index + pushed.length
  intervals : intervalsAt filled.records filled.head_index =
    intervalsAt buffer.records buffer.head_index ++ pushed

/-- A round, for the buffer of one direction: the records are compacted, and then the buffer is
merged, unless it is empty. -/
def Round (records : List RecordAddress) (buffer buffer' : IntervalBuffer) : Prop :=
  ∃ pushed filled, PushedBy num_warps d records pushed ∧ Filled buffer pushed filled ∧
    filled.head_index ≤ limit ∧
    if filled.head_index = 0 then buffer' = filled
    else Settles (intervalMerge c tile_size filled) buffer'

/-- The rounds of a kernel, from an empty buffer on. -/
inductive Rounds : List (List RecordAddress) → IntervalBuffer → Prop
  | start {buffer : IntervalBuffer} (hempty : buffer.head_index = 0) : Rounds [] buffer
  | next {rounds : List (List RecordAddress)} {records : List RecordAddress}
      {buffer buffer' : IntervalBuffer} (hrounds : Rounds rounds buffer)
      (hround : Round c tile_size num_warps limit d records buffer buffer') :
      Rounds (rounds ++ [records]) buffer'

end Rounds

/-- What the analysis kernel is launched with: the primitives, a tile size of `2 * m`, the number of
warps, and the limit of the buffers. -/
structure AnalysisLaunch (c : Cub) (m num_warps limit : ℕ) : Prop where
  spec : c.Spec
  tile_pos : 0 < m
  tile_lt : 2 * m < 2^32
  warps_pos : 0 < num_warps
  limit_le : limit ≤ 2^31

/-- The records of a round: the index of the loop over them does not wrap around, and no access goes
up to the last bytes below `2^63`. -/
structure RoundRecords (num_warps : ℕ) (records : List RecordAddress) : Prop where
  wrap : records.length + num_warps ≤ 2^32
  low : ∀ record ∈ records, ∀ l < 32, record.active.getLsbD l = true →
    record.address l + record.size < 2^63 - 1

/-- What a buffer holds after rounds: intervals that can be merged, and that cover the bytes that
records with the flag access. -/
structure Summary (d : Direction) (rounds : List (List RecordAddress)) (buffer : IntervalBuffer) :
    Prop where
  sweepable : Sweepable buffer.records buffer.head_index
  covered : ∀ x, Covered (intervalsAt buffer.records buffer.head_index) x ↔
    ∃ record ∈ rounds.flatten, record.flags &&& d.flag ≠ 0 ∧ record.Accesses x

variable {c : Cub} {m num_warps limit : ℕ} {d : Direction} {rounds : List (List RecordAddress)}
  {records : List RecordAddress} {buffer buffer' next : IntervalBuffer} {pushed : List (ℕ × ℕ)}

/-- The first records are those of the list. -/
theorem map_recordAt (records : List RecordAddress) :
    (List.range records.length).map (recordAt records) = records := by
  apply List.ext_getElem
  · simp
  · intro i hi hi'
    simp [recordAt, hi']

/-- Low records are compacted without a wrap. -/
theorem RoundRecords.inRange (h : RoundRecords num_warps records) :
    ∀ record ∈ records, record.InRange := by
  intro record hrecord l hl hactive
  have hlow := h.low record hrecord l hl hactive
  omega

/-- The warps end in every round. -/
theorem AnalysisLaunch.exists_pushedBy (hlaunch : AnalysisLaunch c m num_warps limit)
    (h : RoundRecords num_warps records) : ∃ pushed, PushedBy num_warps d records pushed := by
  obtain ⟨out, hout⟩ := (exists_compactedBy_iff (recordAt records) hlaunch.warps_pos h.wrap
    ⟨_, _⟩).2 ⟨List.Perm.refl _, List.Perm.refl _⟩
  exact ⟨_, _, out, hout, rfl⟩

/-- What is pushed covers what the records with the flag access, and can be merged. -/
theorem PushedBy.spec (h : PushedBy num_warps d records pushed)
    (hlaunch : AnalysisLaunch c m num_warps limit) (hrecords : RoundRecords num_warps records) :
    (∀ e ∈ pushed, e.1 ≤ e.2 ∧ e.2 < 2^63 - 1) ∧
      ∀ x, Covered pushed x ↔
        ∃ record ∈ records, record.flags &&& d.flag ≠ 0 ∧ record.Accesses x := by
  obtain ⟨compacted, out, hcompacted, rfl⟩ := h
  have hperm := hcompacted.intervals_perm hlaunch.warps_pos hrecords.wrap d
  rw [map_recordAt] at hperm
  refine ⟨fun e he => ?_, fun x => ?_⟩
  · obtain ⟨hle, record, hrecord, l, hl, hactive, hend⟩ :=
      ends_of_mem_flatMap_pushes hrecords.inRange (hperm.subset he)
    exact ⟨hle, hend ▸ hrecords.low record hrecord l hl hactive⟩
  · rw [covered_congr (fun _ => hperm.mem_iff) x]
    exact covered_flatMap_pushes hrecords.inRange d.flag x

namespace Summary

/-- Before the first round. -/
theorem start (hempty : buffer.head_index = 0) : Summary d [] buffer := by
  have hnil : intervalsAt buffer.records buffer.head_index = [] := by
    rw [hempty]
    rfl
  refine ⟨⟨?_, ?_⟩, fun x => ?_⟩
  · rw [hnil]
    simp [Ordered]
  · simp [hnil]
  · simp [hnil]

variable (h : Summary d rounds buffer)

include h

/-- The intervals of one more round are pushed. -/
theorem push (hlaunch : AnalysisLaunch c m num_warps limit)
    (hrecords : RoundRecords num_warps records) (hpushed : PushedBy num_warps d records pushed)
    (hfilled : Filled buffer pushed next) : Summary d (rounds ++ [records]) next := by
  obtain ⟨hends, hcovered⟩ := hpushed.spec hlaunch hrecords
  have hmem : ∀ e ∈ intervalsAt next.records next.head_index,
      e ∈ intervalsAt buffer.records buffer.head_index ∨ e ∈ pushed := by
    rw [hfilled.intervals]
    exact fun e he => List.mem_append.1 he
  refine ⟨⟨fun e he => ?_, fun e he => ?_⟩, fun x => ?_⟩
  · exact (hmem e he).elim (h.sweepable.ordered e) fun he => (hends e he).1
  · exact (hmem e he).elim (h.sweepable.lt e) fun he => (hends e he).2
  · rw [hfilled.intervals, covered_append, h.covered, hcovered]
    simp only [List.flatten_append, List.flatten_cons, List.flatten_nil, List.append_nil,
      List.mem_append, or_and_right, exists_or]

/-- The merge of a buffer that is not too long ends, and keeps what the buffer stands for. -/
theorem exists_merge (hlaunch : AnalysisLaunch c m num_warps limit)
    (hle : buffer.head_index ≤ limit) :
    ∃ merged, Settles (intervalMerge c (2 * m) buffer) merged ∧ Summary d rounds merged := by
  obtain ⟨merged, hsettles, hmerges⟩ := exists_settles_intervalMerge hlaunch.spec
    hlaunch.tile_pos hlaunch.tile_lt buffer h.sweepable (hle.trans hlaunch.limit_le)
  exact ⟨merged, hsettles, h.sweepable.of_merges hmerges, fun x =>
    (hmerges.covered x).trans (h.covered x)⟩

/-- A round keeps the buffer in order. -/
theorem round (hlaunch : AnalysisLaunch c m num_warps limit)
    (hrecords : RoundRecords num_warps records)
    (hround : Round c (2 * m) num_warps limit d records buffer buffer') :
    Summary d (rounds ++ [records]) buffer' := by
  obtain ⟨pushed, next, hpushed, hfilled, hle, hmerge⟩ := hround
  -- The merge of a buffer has one result, which is the one that is known to be right.
  have hnext := h.push hlaunch hrecords hpushed hfilled
  split_ifs at hmerge
  · exact hmerge ▸ hnext
  · obtain ⟨merged, hsettles, hmerged⟩ := hnext.exists_merge hlaunch hle
    exact hmerge.unique hsettles ▸ hmerged

/-- A round ends when the intervals fit, whatever the order in which they are pushed. -/
theorem exists_round (hlaunch : AnalysisLaunch c m num_warps limit)
    (hrecords : RoundRecords num_warps records) (hpushed : PushedBy num_warps d records pushed)
    (hfits : buffer.head_index + pushed.length ≤ limit) :
    ∃ buffer', Round c (2 * m) num_warps limit d records buffer buffer' := by
  -- The intervals are stored behind those of the buffer, in one of the orders.
  let next : IntervalBuffer :=
    { head_index := buffer.head_index + pushed.length
      tail_index := buffer.tail_index + pushed.length
      records := storeWords buffer.records (2 * buffer.head_index) (wordsOf pushed) }
  have hfilled : Filled buffer pushed next :=
    ⟨rfl, intervalsAt_storeWords buffer.records buffer.head_index (List.Perm.refl _)⟩
  by_cases hzero : next.head_index = 0
  · exact ⟨next, pushed, next, hpushed, hfilled, hfits, by rw [if_pos hzero]⟩
  · obtain ⟨merged, hsettles, -⟩ :=
      (h.push hlaunch hrecords hpushed hfilled).exists_merge hlaunch hfits
    exact ⟨merged, pushed, next, hpushed, hfilled, hfits, by rwa [if_neg hzero]⟩

end Summary

/-- After rounds, a buffer covers what the records of all rounds access. -/
theorem Rounds.summary (h : Rounds c (2 * m) num_warps limit d rounds buffer)
    (hlaunch : AnalysisLaunch c m num_warps limit)
    (hrecords : ∀ records ∈ rounds, RoundRecords num_warps records) : Summary d rounds buffer := by
  -- By induction on the rounds: each one adds its records to what the buffer covers.
  induction h with
  | start hempty => exact Summary.start hempty
  | next _ hround ih =>
    have hbefore := ih fun records hmem => hrecords records (List.mem_append_left _ hmem)
    exact hbefore.round hlaunch (hrecords _ (by simp)) hround

end TenProf
