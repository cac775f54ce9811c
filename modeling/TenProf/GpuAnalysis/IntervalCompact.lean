import Mathlib.Data.Nat.ModEq
import TenProf.Library.While
import TenProf.Library.Clusters
import TenProf.GpuAnalysis.Warp
import TenProf.GpuPatch.AuxTorchview

/-!
# The intervals of the accesses of a warp

`interval_compact` turns each record of a buffer, the addresses that the lanes of a warp accessed,
into intervals. The lanes sort the addresses. A lane at which an interval starts pushes it, and
reads its end from the last lane before the next start, which it finds in the reversed ballot of the
starts. An interval goes to the buffer of the reads, to the one of the writes or to both; the model
of a buffer is the list of the intervals that are pushed, those of one record in the order of the
lanes. The intervals of a record are the clusters of its accesses (`compactRecord_eq`).
-/

namespace TenProf

open Warp GpuPatch

/-- `gpu_patch_record_address_t`. -/
structure RecordAddress where
  pc : ℕ
  flags : ℕ
  active : BitVec 32
  size : ℕ
  address : ℕ → ℕ

/-- What is pushed to the two buffers. -/
structure AnalysisBuffers where
  read_buffer : List (ℕ × ℕ)
  write_buffer : List (ℕ × ℕ)
  deriving DecidableEq, Repr

/-- The sorted addresses of the active lanes, with zeros for the others. -/
def addressStart (record : RecordAddress) : ℕ → ℕ :=
  warpSort fun laneid =>
    -- Those address_start does not matter
    if (1#32 <<< laneid) &&& record.active = 0#32 then 0 else record.address laneid

/-- Whether an interval starts at a lane. -/
def intervalStartPoint (record : RecordAddress) (laneid : ℕ) : Bool :=
  let address_start := addressStart record
  -- First none zero
  let first_laneid := subU32 (ffs (ballot fun l => address_start l ≠ 0)) 1
  let interval_start := shflUp address_start 1 laneid
  first_laneid = laneid ∨
    (address_start laneid ≠ 0 ∧ u64 (interval_start + record.size) < address_start laneid)

/-- The lane at which the interval of a lane ends, from the ballot of the starts. -/
def endLane (b : BitVec 32) (laneid : ℕ) : ℕ :=
  let b_rev := brev b
  let laneid_rev := 32 - laneid - 1
  let laneid_rev_mask := (1#32 <<< laneid_rev) - 1#32
  let p := bfind (laneid_rev_mask &&& b_rev)
  if p ≠ MAX_U32 then
    -- Get the end of the interval
    subU32 (subU32 (subU32 32 p) 1) 1
  else
    -- Get last
    32 - 1

/-- The end of the interval of a lane. -/
def addressEnd (record : RecordAddress) (laneid : ℕ) : ℕ :=
  shfl (fun l => u64 (addressStart record l + record.size))
    (endLane (ballot (intervalStartPoint record)) laneid)

/-- The pushes of a lane at which an interval starts. -/
def pushInterval (flags : ℕ) (interval : ℕ × ℕ) (buffers : AnalysisBuffers) : AnalysisBuffers where
  read_buffer :=
    if flags &&& READ ≠ 0 then buffers.read_buffer ++ [interval] else buffers.read_buffer
  write_buffer :=
    if flags &&& WRITE ≠ 0 then buffers.write_buffer ++ [interval] else buffers.write_buffer

/-- What the lanes of a warp do with a record. -/
def compactRecord (buffers : AnalysisBuffers) (record : RecordAddress) : AnalysisBuffers :=
  (List.range 32).foldl (fun buffers laneid =>
    if intervalStartPoint record laneid then
      pushInterval record.flags (addressStart record laneid, addressEnd record laneid) buffers
    else buffers) buffers

/-- The state of the loop over the records. -/
structure CompactLoop where
  iter : ℕ
  buffers : AnalysisBuffers

/-- One turn of the loop over the records. -/
def compactTurn (records : ℕ → RecordAddress) (head_index num_warps : ℕ) (st : CompactLoop) :
    CompactLoop ⊕ AnalysisBuffers :=
  if st.iter < head_index then
    .inl ⟨u32 (st.iter + num_warps), compactRecord st.buffers (records st.iter)⟩
  else .inr st.buffers

/-- `interval_compact` by a warp, with at most `fuel` turns of its loop. -/
def intervalCompact (records : ℕ → RecordAddress) (head_index warp_index num_warps : ℕ)
    (buffers : AnalysisBuffers) (fuel : ℕ) : Option AnalysisBuffers :=
  loop (compactTurn records head_index num_warps) fuel ⟨warp_index, buffers⟩

/-- A byte that an active lane accesses, at an address that is not zero. -/
def RecordAddress.Accesses (record : RecordAddress) (x : ℕ) : Prop :=
  ∃ l < 32, record.active.getLsbD l = true ∧ record.address l ≠ 0 ∧
    record.address l ≤ x ∧ x < record.address l + record.size

/-- No access of an active lane goes up to the end of the address space. -/
def RecordAddress.InRange (record : RecordAddress) : Prop :=
  ∀ l < 32, record.active.getLsbD l = true → record.address l + record.size < 2^64

/-! ## The lane at which an interval ends -/

section EndLane

variable {b : BitVec 32} {l : ℕ}

/-- The bits of the reversed ballot that stand for the lanes behind a lane. -/
theorem getLsbD_behind (b : BitVec 32) {l j : ℕ} (hl : l < 32) :
    (((1#32 <<< (32 - l - 1)) - 1#32) &&& brev b).getLsbD j =
      (decide (j < 31 - l) && b.getLsbD (31 - j)) := by
  have hmask : ((1#32 <<< (32 - l - 1)) - 1#32).toNat = 2^(31 - l) - 1 := by
    have hlt : 2^(31 - l) < 2^32 := Nat.pow_lt_pow_right (by omega) (by omega)
    have hpos : 0 < 2^(31 - l) := Nat.two_pow_pos _
    rw [BitVec.toNat_sub, BitVec.toNat_shiftLeft, BitVec.toNat_ofNat, Nat.shiftLeft_eq,
      show 32 - l - 1 = 31 - l by omega]
    omega
  rw [BitVec.getLsbD_and, BitVec.getLsbD, hmask, Nat.testBit_two_pow_sub_one]
  unfold brev
  rw [BitVec.getLsbD_reverse, BitVec.getMsbD_eq_getLsbD]
  by_cases hj : j < 31 - l
  · simp [hj, show j < 32 by omega]
  · simp [hj]

/-- Before the next start, the interval ends at the lane before it. -/
theorem endLane_of_next {k : ℕ} (hlk : l < k) (hk : b.getLsbD k = true)
    (hbetween : ∀ i, l < i → i < k → b.getLsbD i = false) : endLane b l = k - 1 := by
  have hk32 : k < 32 := BitVec.lt_of_getLsbD hk
  have hfind : bfind (((1#32 <<< (32 - l - 1)) - 1#32) &&& brev b) = 31 - k := by
    refine bfind_eq ?_ fun j hj => ?_
    · rw [getLsbD_behind b (by omega), show 31 - (31 - k) = k by omega, hk]
      simp
      omega
    · rw [getLsbD_behind b (by omega)]
      by_cases hj' : j < 31 - l
      · rw [hbetween (31 - j) (by omega) (by omega), Bool.and_false]
      · simp [hj']
  unfold endLane
  simp only [hfind]
  rw [if_pos (by unfold MAX_U32; omega)]
  unfold subU32
  omega

/-- Without another start behind, the interval ends at the last lane. -/
theorem endLane_of_last (hl : l < 32) (hbehind : ∀ i, l < i → b.getLsbD i = false) :
    endLane b l = 31 := by
  have hzero : ((1#32 <<< (32 - l - 1)) - 1#32) &&& brev b = 0#32 := by
    refine BitVec.eq_of_getLsbD_eq fun j hj => ?_
    rw [getLsbD_behind b hl, BitVec.getLsbD_zero]
    by_cases hj' : j < 31 - l
    · rw [hbehind (31 - j) (by omega), Bool.and_false]
    · simp [hj']
  unfold endLane bfind
  simp only [hzero]
  rfl

/-- The lane at which the interval of a lane ends is the last one before the next start. -/
theorem endLane_spec (hl : l < 32) : l ≤ endLane b l ∧ endLane b l < 32 ∧
    (∀ i, l < i → i ≤ endLane b l → b.getLsbD i = false) ∧
    (endLane b l + 1 < 32 → b.getLsbD (endLane b l + 1) = true) := by
  by_cases hnext : ∃ k, l < k ∧ b.getLsbD k = true
  · classical
    obtain ⟨hlk, hk⟩ := Nat.find_spec hnext
    have hfirst : ∀ i, l < i → i < Nat.find hnext → b.getLsbD i = false := fun i hli hik =>
      Bool.eq_false_iff.2 fun hi => Nat.find_min hnext hik ⟨hli, hi⟩
    have hk32 := BitVec.lt_of_getLsbD hk
    rw [endLane_of_next hlk hk hfirst]
    refine ⟨by omega, by omega, fun i hli hik => hfirst i hli (by omega), fun _ => ?_⟩
    rwa [Nat.sub_add_cancel (by omega)]
  · have hbehind : ∀ i, l < i → b.getLsbD i = false := fun i hli =>
      Bool.eq_false_iff.2 fun hi => hnext ⟨i, hli, hi⟩
    rw [endLane_of_last hl hbehind]
    exact ⟨by omega, by omega, fun i hli _ => hbehind i hli, fun h => absurd h (by omega)⟩

example : endLane 0b00100010#32 1 = 4 ∧ endLane 0b00100010#32 5 = 31 := by decide +kernel

end EndLane

/-! ## The sorted addresses -/

section Sorted

variable {record : RecordAddress}

/-- The test of the mask of the active lanes. -/
theorem shiftLeft_and_eq_zero_iff (active : BitVec 32) {l : ℕ} (hl : l < 32) :
    (1#32 <<< l) &&& active = 0#32 ↔ active.getLsbD l = false := by
  have hbit : ∀ i, ((1#32 <<< l) &&& active).getLsbD i = (decide (l = i) && active.getLsbD i) := by
    intro i
    show (BitVec.twoPow 32 l &&& active).getLsbD i = _
    rw [BitVec.getLsbD_and, BitVec.getLsbD_twoPow]
    simp [hl]
  constructor
  · intro h
    have hl' := hbit l
    rw [h] at hl'
    simpa using hl'.symm
  · intro h
    refine BitVec.eq_of_getLsbD_eq fun i _ => ?_
    rw [hbit, BitVec.getLsbD_zero]
    by_cases hil : l = i
    · rw [← hil, h, Bool.and_false]
    · simp [hil]

/-- The addresses other than zero of the sorted lanes are those of the active lanes. -/
theorem exists_addressStart_iff (record : RecordAddress) {v : ℕ} (hv : v ≠ 0) :
    (∃ l < 32, addressStart record l = v) ↔
      ∃ l < 32, record.active.getLsbD l = true ∧ record.address l = v := by
  unfold addressStart
  rw [exists_warpSort_iff]
  refine exists_congr fun l => and_congr_right fun hl => ?_
  simp only [shiftLeft_and_eq_zero_iff record.active hl]
  cases record.active.getLsbD l
  · simpa using hv.symm
  · simp

/-- The lanes are sorted. -/
theorem addressStart_le {i j : ℕ} (hij : i ≤ j) (hj : j < 32) :
    addressStart record i ≤ addressStart record j := warpSort_le _ hij hj

/-- The sorted lanes access what the active lanes do. -/
theorem accesses_iff (x : ℕ) : (∃ l < 32, addressStart record l ≠ 0 ∧
    addressStart record l ≤ x ∧ x < addressStart record l + record.size) ↔ record.Accesses x := by
  constructor
  · rintro ⟨l, hl, hne, hx⟩
    obtain ⟨k, hk, hactive, haddress⟩ := (exists_addressStart_iff record hne).1 ⟨l, hl, rfl⟩
    exact ⟨k, hk, hactive, haddress ▸ hne, haddress ▸ hx⟩
  · rintro ⟨l, hl, hactive, hne, hx⟩
    obtain ⟨k, hk, haddress⟩ := (exists_addressStart_iff record hne).2 ⟨l, hl, hactive, rfl⟩
    exact ⟨k, hk, haddress ▸ hne, haddress ▸ hx⟩

/-- The ends of the accesses do not wrap around. -/
theorem RecordAddress.InRange.u64_eq (h : record.InRange) {l : ℕ} (hl : l < 32)
    (hne : addressStart record l ≠ 0) :
    u64 (addressStart record l + record.size) = addressStart record l + record.size := by
  obtain ⟨k, hk, hactive, haddress⟩ := (exists_addressStart_iff record hne).1 ⟨l, hl, rfl⟩
  exact u64_of_lt (haddress ▸ h k hk hactive)

/-- The first of the lanes whose address is not zero. -/
theorem exists_first (record : RecordAddress) :
    ∃ f, ∀ l < 32, addressStart record l ≠ 0 ↔ f ≤ l := by
  obtain ⟨f, -, hf⟩ := exists_threshold (p := fun l => addressStart record l ≠ 0) (h := 32)
    fun i j hij hj hi => by
      have hle : addressStart record i ≤ addressStart record j := addressStart_le hij hj
      omega
  exact ⟨f, hf⟩

/-- Where an interval starts: at the first address, and behind a gap. -/
theorem intervalStartPoint_iff {f : ℕ} (hf : ∀ l < 32, addressStart record l ≠ 0 ↔ f ≤ l) {l : ℕ}
    (hl : l < 32) :
    intervalStartPoint record l = true ↔
      f ≤ l ∧ (l = f ∨ u64 (addressStart record (l - 1) + record.size) <
        addressStart record l) := by
  have hfirst : subU32 (ffs (ballot fun l => addressStart record l ≠ 0)) 1 = l ↔ l = f := by
    rw [subU32_ffs_eq_iff hl, getLsbD_ballot _ hl, decide_eq_true_iff, hf l hl]
    constructor
    · rintro ⟨hle, hbefore⟩
      by_contra hne
      have hset := hbefore f (by omega)
      rw [getLsbD_ballot _ (by omega), decide_eq_false_iff_not, not_not] at hset
      exact (hf f (by omega)).2 le_rfl hset
    · rintro rfl
      refine ⟨le_rfl, fun k hk => ?_⟩
      rw [getLsbD_ballot _ (by omega), decide_eq_false_iff_not, hf k (by omega)]
      omega
  unfold intervalStartPoint shflUp
  simp only [decide_eq_true_eq, hfirst]
  rw [hf l hl]
  rcases Nat.eq_zero_or_pos l with rfl | hpos
  · -- The first lane gets its own address, which is not behind itself.
    rw [if_pos Nat.one_pos]
    constructor
    · rintro (rfl | ⟨hle, -⟩)
      · exact ⟨le_rfl, .inl rfl⟩
      · exact ⟨hle, .inl (by omega)⟩
    · rintro ⟨hle, -⟩
      exact .inl (by omega)
  · rw [if_neg (by omega)]
    constructor
    · rintro (rfl | ⟨hle, hlt⟩)
      · exact ⟨le_rfl, .inl rfl⟩
      · exact ⟨hle, .inr hlt⟩
    · rintro ⟨hle, rfl | hlt⟩
      · exact .inl rfl
      · exact .inr ⟨hle, hlt⟩

end Sorted

/-! ## The intervals of a record -/

/-- The intervals that the lanes push for a record. -/
def recordIntervals (record : RecordAddress) : List (ℕ × ℕ) :=
  ((List.range 32).filter (intervalStartPoint record)).map fun l =>
    (addressStart record l, addressEnd record l)

/-- The intervals that the lanes push to the buffer of a flag. -/
def pushes (flag : ℕ) (record : RecordAddress) : List (ℕ × ℕ) :=
  if record.flags &&& flag ≠ 0 then recordIntervals record else []

/-- The pushes of several lanes. -/
theorem foldl_pushInterval (flags : ℕ) (head : ℕ → Bool) (interval : ℕ → ℕ × ℕ) (lanes : List ℕ)
    (buffers : AnalysisBuffers) :
    lanes.foldl (fun buffers l => if head l then pushInterval flags (interval l) buffers
      else buffers) buffers =
    { read_buffer := buffers.read_buffer ++
        if flags &&& READ ≠ 0 then (lanes.filter head).map interval else []
      write_buffer := buffers.write_buffer ++
        if flags &&& WRITE ≠ 0 then (lanes.filter head).map interval else [] } := by
  induction lanes generalizing buffers with
  | nil => simp
  | cons l lanes ih =>
    rw [List.foldl_cons, ih, List.filter_cons]
    cases head l with
    | false => simp
    | true =>
      unfold pushInterval
      split_ifs <;> simp_all

/-- The intervals of a record go to the buffers that its flags name. -/
theorem compactRecord_eq (buffers : AnalysisBuffers) (record : RecordAddress) :
    compactRecord buffers record =
      ⟨buffers.read_buffer ++ pushes READ record, buffers.write_buffer ++ pushes WRITE record⟩ := by
  unfold compactRecord
  rw [foldl_pushInterval]
  rfl

/-- The intervals of several records, one record after the other. -/
theorem foldl_compactRecord (records : List RecordAddress) (buffers : AnalysisBuffers) :
    records.foldl compactRecord buffers =
      ⟨buffers.read_buffer ++ records.flatMap (pushes READ),
        buffers.write_buffer ++ records.flatMap (pushes WRITE)⟩ := by
  induction records generalizing buffers with
  | nil => simp
  | cons record records ih => rw [List.foldl_cons, ih, compactRecord_eq]; simp

/-- The intervals of a record are those of the clusters of its accesses. -/
theorem recordIntervals_eq (record : RecordAddress) : recordIntervals record =
    clusters 32 (addressStart record) (fun l => u64 (addressStart record l + record.size))
      (intervalStartPoint record) (endLane (ballot (intervalStartPoint record))) := by
  refine List.map_congr_left fun l hl => ?_
  have hlt := (endLane_spec (b := ballot (intervalStartPoint record))
    (List.mem_range.1 (List.mem_of_mem_filter hl))).2.1
  unfold addressEnd shfl
  rw [Nat.mod_eq_of_lt hlt]

/-- The marks and the ends that the lanes find are those of the clusters. -/
theorem recordIntervals_clusters {record : RecordAddress} (h : record.InRange) {f : ℕ}
    (hf : ∀ l < 32, addressStart record l ≠ 0 ↔ f ≤ l) :
    Clusters f 32 (addressStart record) (fun l => u64 (addressStart record l + record.size))
      (intervalStartPoint record) (endLane (ballot (intervalStartPoint record))) where
  start_mono _ _ _ hij hj := addressStart_le hij hj
  end_mono i j hi hij hj := by
    rw [h.u64_eq (hij.trans_lt hj) ((hf i (hij.trans_lt hj)).2 hi),
      h.u64_eq hj ((hf j hj).2 (hi.trans hij))]
    exact Nat.add_le_add_right (addressStart_le hij hj) _
  head_iff _ hl := intervalStartPoint_iff hf hl
  le_last _ hl := (endLane_spec hl).1
  last_lt _ hl := (endLane_spec hl).2.1
  not_head l hl i hli hi := by
    obtain ⟨-, hlt, hbetween, -⟩ := endLane_spec (b := ballot (intervalStartPoint record)) hl
    rw [← getLsbD_ballot (intervalStartPoint record) (hi.trans_lt hlt)]
    exact hbetween i hli hi
  head_succ l hl hlt := by
    rw [← getLsbD_ballot (intervalStartPoint record) hlt]
    exact (endLane_spec hl).2.2.2 hlt

/-- The intervals of a record are in order, neither overlap nor touch, and cover exactly the bytes
that it accesses. -/
theorem recordIntervals_spec {record : RecordAddress} (h : record.InRange) :
    Separated (recordIntervals record) ∧
      ∀ x, Covered (recordIntervals record) x ↔ record.Accesses x := by
  obtain ⟨f, hf⟩ := exists_first record
  have hclusters := recordIntervals_clusters h hf
  rw [recordIntervals_eq]
  refine ⟨hclusters.separated, fun x => (hclusters.covered_clusters_iff x).trans ?_⟩
  rw [← accesses_iff]
  refine exists_congr fun l => ?_
  constructor
  · rintro ⟨hfl, hl, hx⟩
    rw [h.u64_eq hl ((hf l hl).2 hfl)] at hx
    exact ⟨hl, (hf l hl).2 hfl, hx⟩
  · rintro ⟨hl, hne, hx⟩
    refine ⟨(hf l hl).1 hne, hl, ?_⟩
    rwa [h.u64_eq hl hne]

/-- The intervals of a record end where accesses do, and not before they start. -/
theorem recordIntervals_ends {record : RecordAddress} (h : record.InRange) {e : ℕ × ℕ}
    (he : e ∈ recordIntervals record) : e.1 ≤ e.2 ∧ ∃ l < 32,
      record.active.getLsbD l = true ∧ record.address l + record.size = e.2 := by
  obtain ⟨f, hf⟩ := exists_first record
  have hclusters := recordIntervals_clusters h hf
  rw [recordIntervals_eq] at he
  constructor
  · refine hclusters.ordered (fun l hfl hl => ?_) e he
    rw [h.u64_eq hl ((hf l hl).2 hfl)]
    exact Nat.le_add_right _ _
  · obtain ⟨k, hfk, hk, hend⟩ := hclusters.exists_end he
    obtain ⟨l, hl, hactive, haddress⟩ :=
      (exists_addressStart_iff record ((hf k hk).2 hfk)).1 ⟨k, hk, rfl⟩
    exact ⟨l, hl, hactive, by rw [haddress, ← hend, h.u64_eq hk ((hf k hk).2 hfk)]⟩

/-- The intervals of a record are not empty, if its accesses are not. -/
theorem recordIntervals_proper {record : RecordAddress} (h : record.InRange)
    (hsize : 0 < record.size) : Proper (recordIntervals record) := by
  obtain ⟨f, hf⟩ := exists_first record
  rw [recordIntervals_eq]
  refine (recordIntervals_clusters h hf).proper fun l hfl hl => ?_
  rw [h.u64_eq hl ((hf l hl).2 hfl)]
  omega

/-- For a record, the lanes push intervals that neither overlap nor touch and that cover exactly the
bytes from each address other than zero of an active lane on. They go to the buffer of the reads
when the flags have the bit for reads, and to the one of the writes when they have the bit for
writes. -/
theorem compactRecord_intervals (buffers : AnalysisBuffers) {record : RecordAddress}
    (hsize : 0 < record.size) (h : record.InRange) :
    ∃ out, Proper out ∧ Separated out ∧ (∀ x, Covered out x ↔ record.Accesses x) ∧
      (compactRecord buffers record).read_buffer =
        buffers.read_buffer ++ (if record.flags &&& READ ≠ 0 then out else []) ∧
      (compactRecord buffers record).write_buffer =
        buffers.write_buffer ++ (if record.flags &&& WRITE ≠ 0 then out else []) := by
  obtain ⟨hseparated, hcovered⟩ := recordIntervals_spec h
  rw [compactRecord_eq]
  exact ⟨_, recordIntervals_proper h hsize, hseparated, hcovered, rfl, rfl⟩

/-- A read of 4 bytes by five lanes: two of them at the same address, one next to it, one behind a
gap, and one at zero. -/
def fiveLanes : RecordAddress where
  pc := 0
  flags := READ
  active := 0x1F#32
  size := 4
  address l := [200, 104, 0, 100, 104, 300].getD l 0

/-- Its intervals. -/
theorem compactRecord_fiveLanes : ∃ out, Proper out ∧ Separated out ∧
    (∀ x, Covered out x ↔ fiveLanes.Accesses x) ∧
    (compactRecord ⟨[], []⟩ fiveLanes).read_buffer =
      [] ++ (if fiveLanes.flags &&& READ ≠ 0 then out else []) ∧
    (compactRecord ⟨[], []⟩ fiveLanes).write_buffer =
      [] ++ (if fiveLanes.flags &&& WRITE ≠ 0 then out else []) :=
  compactRecord_intervals ⟨[], []⟩ (by decide) (by unfold RecordAddress.InRange; decide)

/-! ## The loop over the records -/

/-- The records that a warp goes over: from its index on, in steps of the number of warps. -/
def recordsOf (head_index warp_index num_warps : ℕ) : List ℕ :=
  (List.range head_index).filter fun i => i % num_warps = warp_index

/-- Behind one of its records, a warp has none for as many records as there are warps. -/
theorem recordsOf_step {warp_index num_warps i m : ℕ} (hi : i % num_warps = warp_index)
    (hlt : i < m) (hle : m ≤ i + num_warps) :
    recordsOf m warp_index num_warps = recordsOf i warp_index num_warps ++ [i] := by
  obtain ⟨j, rfl⟩ := Nat.exists_eq_add_of_lt hlt
  -- The numbers behind `i` differ from it by less than the number of warps.
  have hbehind : ((List.range j).map (i + 1 + ·)).filter
      (fun k => k % num_warps = warp_index) = [] := by
    refine List.filter_eq_nil_iff.2 fun k hk heq => ?_
    obtain ⟨d, hd, rfl⟩ := List.mem_map.1 hk
    have hd' := List.mem_range.1 hd
    have hmod : Nat.ModEq num_warps (i + (d + 1)) (i + 0) := by
      have heq' : (i + 1 + d) % num_warps = i % num_warps := (of_decide_eq_true heq).trans hi.symm
      rwa [Nat.add_right_comm, Nat.add_assoc] at heq'
    have hzero := Nat.ModEq.add_left_cancel' i hmod
    unfold Nat.ModEq at hzero
    rw [Nat.mod_eq_of_lt (by omega), Nat.zero_mod] at hzero
    omega
  unfold recordsOf
  rw [show i + j + 1 = i + 1 + j by omega, List.range_add, List.filter_append, hbehind,
    List.append_nil, List.range_succ, List.filter_append,
    List.filter_cons_of_pos (by simpa using hi), List.filter_nil]

/-- A warp compacts its records one after the other. -/
theorem settles_intervalCompact (records : ℕ → RecordAddress)
    {head_index warp_index num_warps : ℕ} (hwarp : warp_index < num_warps)
    (hwrap : head_index + num_warps ≤ 2^32) (buffers : AnalysisBuffers) :
    Settles (intervalCompact records head_index warp_index num_warps buffers)
      (((recordsOf head_index warp_index num_warps).map records).foldl compactRecord buffers) := by
  obtain ⟨out, hsettles, rfl⟩ : ∃ out,
      Settles (intervalCompact records head_index warp_index num_warps buffers) out ∧ out =
        ((recordsOf head_index warp_index num_warps).map records).foldl compactRecord buffers := by
    refine exists_settles_loop (I := fun st : CompactLoop => st.iter % num_warps = warp_index ∧
      st.buffers = ((recordsOf (min st.iter head_index) warp_index num_warps).map records).foldl
        compactRecord buffers)
      (fun st => head_index - st.iter) (fun st st' hst hturn => ?_) (fun st out hst hturn => ?_)
      ⟨Nat.mod_eq_of_lt hwarp, ?_⟩
    · obtain ⟨hmod, hbuffers⟩ := hst
      unfold compactTurn at hturn
      split_ifs at hturn with hlt
      obtain rfl := Sum.inl.inj hturn
      have hnext : u32 (st.iter + num_warps) = st.iter + num_warps := u32_of_lt (by omega)
      rw [Nat.min_eq_left hlt.le] at hbuffers
      refine ⟨⟨by simp only [hnext, Nat.add_mod_right, hmod], ?_⟩, ?_⟩
      · simp only [hnext]
        rw [recordsOf_step hmod (by omega) (Nat.min_le_left _ _), List.map_append,
          List.foldl_append, ← hbuffers, List.map_singleton, List.foldl_cons, List.foldl_nil]
      · simp only [hnext]
        omega
    · obtain ⟨-, hbuffers⟩ := hst
      unfold compactTurn at hturn
      split_ifs at hturn with hlt
      obtain rfl := Sum.inr.inj hturn
      rwa [Nat.min_eq_right (not_lt.1 hlt)] at hbuffers
    · -- No record before the index of the warp is one of its own.
      have hnone : recordsOf (min warp_index head_index) warp_index num_warps = [] := by
        refine List.filter_eq_nil_iff.2 fun i hi heq => ?_
        have hi' := List.mem_range.1 hi
        have hmod := of_decide_eq_true heq
        rw [Nat.mod_eq_of_lt (by omega)] at hmod
        omega
      simp only [hnone]
      rfl
  exact hsettles

/-- The warps share the records: each record is one of exactly one warp. -/
theorem recordsOf_perm (head_index : ℕ) {num_warps : ℕ} (hpos : 0 < num_warps) :
    ((List.range num_warps).flatMap fun w => recordsOf head_index w num_warps).Perm
      (List.range head_index) := by
  refine (List.perm_ext_iff_of_nodup ?_ List.nodup_range).2 fun i => ?_
  · refine List.nodup_flatMap.2 ⟨fun w _ => List.nodup_range.filter _, ?_⟩
    refine List.nodup_range.imp fun {w w'} hne i hi hi' => hne ?_
    exact (of_decide_eq_true (List.mem_filter.1 hi).2).symm.trans
      (of_decide_eq_true (List.mem_filter.1 hi').2)
  · simp only [recordsOf, List.mem_flatMap, List.mem_filter, List.mem_range, decide_eq_true_eq]
    exact ⟨fun ⟨w, _, hi, _⟩ => hi, fun hi => ⟨i % num_warps, Nat.mod_lt i hpos, hi, rfl⟩⟩

/-- The buffers when all warps are done. The pushes of the warps come in any order. -/
structure CompactedBy (records : ℕ → RecordAddress) (head_index num_warps : ℕ)
    (buffers : AnalysisBuffers) (out : ℕ → AnalysisBuffers) : Prop where
  settles : ∀ w < num_warps,
    Settles (intervalCompact records head_index w num_warps ⟨[], []⟩) (out w)
  read : buffers.read_buffer.Perm ((List.range num_warps).flatMap fun w => (out w).read_buffer)
  write : buffers.write_buffer.Perm ((List.range num_warps).flatMap fun w => (out w).write_buffer)

/-- The warps all end, and then the buffers have the intervals of all records. -/
theorem exists_compactedBy_iff (records : ℕ → RecordAddress) {head_index num_warps : ℕ}
    (hpos : 0 < num_warps) (hwrap : head_index + num_warps ≤ 2^32) (buffers : AnalysisBuffers) :
    (∃ out, CompactedBy records head_index num_warps buffers out) ↔
      buffers.read_buffer.Perm (((List.range head_index).map records).flatMap (pushes READ)) ∧
      buffers.write_buffer.Perm (((List.range head_index).map records).flatMap (pushes WRITE)) := by
  have hsettles : ∀ w < num_warps,
      Settles (intervalCompact records head_index w num_warps ⟨[], []⟩)
        ⟨((recordsOf head_index w num_warps).map records).flatMap (pushes READ),
          ((recordsOf head_index w num_warps).map records).flatMap (pushes WRITE)⟩ := by
    intro w hw
    have hfold := settles_intervalCompact records hw hwrap ⟨[], []⟩
    rwa [foldl_compactRecord] at hfold
  -- The intervals of the warps are those of all records, warp by warp.
  have hall : ∀ flag, ((List.range num_warps).flatMap fun w =>
      ((recordsOf head_index w num_warps).map records).flatMap (pushes flag)).Perm
        (((List.range head_index).map records).flatMap (pushes flag)) := by
    intro flag
    have hperm := ((recordsOf_perm head_index hpos).map records).flatMap_right (pushes flag)
    rwa [List.map_flatMap, List.flatMap_assoc] at hperm
  constructor
  · rintro ⟨out, h⟩
    have hout : ∀ w < num_warps, out w = _ := fun w hw => (h.settles w hw).unique (hsettles w hw)
    constructor
    · refine h.read.trans ((List.Perm.of_eq ?_).trans (hall READ))
      exact List.flatMap_congr fun w hw => by rw [hout w (List.mem_range.1 hw)]
    · refine h.write.trans ((List.Perm.of_eq ?_).trans (hall WRITE))
      exact List.flatMap_congr fun w hw => by rw [hout w (List.mem_range.1 hw)]
  · rintro ⟨hread, hwrite⟩
    exact ⟨_, hsettles, hread.trans (hall READ).symm, hwrite.trans (hall WRITE).symm⟩

/-- The intervals of records cover the bytes that the records with the flag access. -/
theorem covered_flatMap_pushes {records : List RecordAddress}
    (h : ∀ record ∈ records, record.InRange) (flag x : ℕ) :
    Covered (records.flatMap (pushes flag)) x ↔
      ∃ record ∈ records, record.flags &&& flag ≠ 0 ∧ record.Accesses x := by
  constructor
  · rintro ⟨e, he, hx⟩
    obtain ⟨record, hrecord, hmem⟩ := List.mem_flatMap.1 he
    unfold pushes at hmem
    split_ifs at hmem with hflag
    · have haccess := ((recordIntervals_spec (h record hrecord)).2 x).1 ⟨e, hmem, hx⟩
      exact ⟨record, hrecord, hflag, haccess⟩
    · simp at hmem
  · rintro ⟨record, hrecord, hflag, hx⟩
    obtain ⟨e, he, hex⟩ := ((recordIntervals_spec (h record hrecord)).2 x).2 hx
    exact ⟨e, List.mem_flatMap.2 ⟨record, hrecord, by rwa [pushes, if_pos hflag]⟩, hex⟩

/-- An interval that is pushed ends where an access does, and not before it starts. -/
theorem ends_of_mem_flatMap_pushes {records : List RecordAddress}
    (h : ∀ record ∈ records, record.InRange) {flag : ℕ} {e : ℕ × ℕ}
    (he : e ∈ records.flatMap (pushes flag)) : e.1 ≤ e.2 ∧ ∃ record ∈ records, ∃ l < 32,
      record.active.getLsbD l = true ∧ record.address l + record.size = e.2 := by
  obtain ⟨record, hrecord, hmem⟩ := List.mem_flatMap.1 he
  unfold pushes at hmem
  split_ifs at hmem
  · exact (recordIntervals_ends (h record hrecord) hmem).imp_right fun hl => ⟨record, hrecord, hl⟩
  · simp at hmem

end TenProf
