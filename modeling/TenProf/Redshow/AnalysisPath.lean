import TenProf.GpuAnalysis.Rounds
import TenProf.GpuPatch.AddressAccounts

/-!
# Addresses from the device to the analyses

The callbacks store the addresses of a patched kernel through the queue, the analysis kernel
compacts and merges them in rounds, and `trace_analyze_address_analysis` goes over what it leaves.
`analysis_run` is about the whole path: for any interleaving, when `num_threads` is zero no callback
is left and no record is lost, and what the host delivers is the bytes that the sampled accesses
touch. `filtered_run` is about the reads that a dictionary filters: only bytes that are read are
delivered, and an object that is read, and was not marked at the start, has a read of which all
bytes are. An address that is zero counts as none.
-/

namespace TenProf

open GpuPatch

namespace GpuPatch

variable {W : ℕ}

/-- What the analysis kernel compacts: the records of the buffer whenever it was full, and those
that are left at the end. -/
def PatchState.rounds (s : PatchState W) : List (List RecordAddress) :=
  (s.queue.drains ++ [s.queue.left]).map (List.map recordAddress)

variable {dict : Option AddressDict} {frequency offset size num_threads : ℕ} {analysis : Bool}
  {threads : Fin W → ℕ} {hit : ℕ → ℕ} {records : ℕ → GpuQueue.Record addressWords}
  {as : List (PatchAction W)} {s : PatchState W}

/-- What holds of the queue and of what is recorded after a run. -/
theorem running_run (hfits : GpuQueue.Fits size W) (hthreads : ∑ w, threads w = num_threads)
    (hlt : num_threads < 2^32)
    (hrun : run (patchStep dict frequency offset size analysis)
      (PatchState.start threads num_threads hit records) as = some s) :
    Running size analysis s ∧ Recorded dict s := by
  have hstep : ∀ (s : PatchState W) (a : PatchAction W) (s' : PatchState W),
      Running size analysis s ∧ Recorded dict s →
      patchStep dict frequency offset size analysis s a = some s' →
      Running size analysis s' ∧ Recorded dict s' := fun _ _ _ h hstep =>
    ⟨h.1.move hfits (patchStep_move hstep), h.2.move (patchStep_move hstep)⟩
  exact run_invariant' hstep ⟨Running.start hit records hthreads.le hlt,
    Recorded.start threads num_threads hit records⟩ hrun

/-- What holds of the filters after a run. -/
theorem filtering_run {d : AddressDict}
    (hrun : run (patchStep (some d) frequency offset size analysis)
      (PatchState.start threads num_threads hit records) as = some s) : Filtering d hit s := by
  have hstep : ∀ (s : PatchState W) (a : PatchAction W) (s' : PatchState W),
      Recorded (some d) s ∧ Filtering d hit s →
      patchStep (some d) frequency offset size analysis s a = some s' →
      Recorded (some d) s' ∧ Filtering d hit s' := fun _ _ _ h hstep =>
    ⟨h.1.move (patchStep_move hstep), h.2.move h.1 (patchStep_move hstep)⟩
  exact (run_invariant' hstep ⟨Recorded.start threads num_threads hit records,
    Filtering.start threads num_threads records⟩ hrun).2

/-- When no threads are left, the rounds have the records of all accesses that are recorded, each of
them once. -/
theorem Running.exists_shown (h : Running size analysis s) (hzero : s.num_threads = 0) :
    ∃ shown : List (AddressAccess × BitVec 32), shown.Perm s.recorded ∧
      List.Forall₂ (fun p record => ShowsAddress p.1 p.2 record) shown s.rounds.flatten := by
  have hidle : ∀ w, s.queue.warps w = .idle := fun w => (h.idle_of_zero hzero w).1
  obtain ⟨drained, rest, hpushed, hdrained, hrest⟩ := h.inv.exists_drained_left hidle
  have htaken : (s.recorded.map fun p => p.1.stores p.2).Perm
      ((drained.flatten ++ rest).map GpuQueue.Pushed.stores) := by
    rw [← Multiset.coe_eq_coe, ← h.taken, GpuQueue.taken_of_idle hidle]
    exact Multiset.coe_eq_coe.2 (hpushed.map _)
  -- What was recorded, in the order in which the rounds have it.
  obtain ⟨shown, hperm, hstores⟩ := exists_perm_of_map_perm htaken
  refine ⟨shown, hperm, ?_⟩
  have hflatten : s.rounds.flatten =
      (s.queue.drains.flatten ++ s.queue.left).map recordAddress := by
    unfold PatchState.rounds
    rw [← List.map_flatten, List.flatten_append, List.flatten_singleton]
  have hholds : List.Forall₂ GpuQueue.Holds (shown.map fun p => p.1.stores p.2)
      (s.queue.drains.flatten ++ s.queue.left) := by
    rw [hstores]
    exact List.forall₂_map_left_iff.2
      (List.rel_append (List.rel_flatten hdrained) hrest)
  rw [hflatten]
  exact List.forall₂_map_right_iff.2
    ((List.forall₂_map_left_iff.1 hholds).imp fun _ _ => showsAddress_of_holds)

/-- The records of the rounds are those of the accesses that are recorded. -/
theorem Running.mem_rounds (h : Running size analysis s) (hzero : s.num_threads = 0) :
    (∀ record ∈ s.rounds.flatten, ∃ p ∈ s.recorded, ShowsAddress p.1 p.2 record) ∧
      ∀ p ∈ s.recorded, ∃ record ∈ s.rounds.flatten, ShowsAddress p.1 p.2 record := by
  obtain ⟨shown, hperm, hshown⟩ := h.exists_shown hzero
  constructor
  · intro record hrecord
    obtain ⟨p, hp, hshows⟩ := exists_of_forall₂ hshown.flip hrecord
    exact ⟨p, hperm.subset hp, hshows⟩
  · intro p hp
    exact exists_of_forall₂ hshown (hperm.symm.subset hp)

end GpuPatch

/-! ## What is delivered -/

/-- For any order in which the warps push the intervals of a direction, each round of the analysis
kernel ends if its intervals fit into the buffer, and after the last round the host delivers the
bytes of a kind, with their blocks. -/
structure Delivers (c : Cub) (tile_size num_warps limit : ℕ) (memory_map : MemoryMap)
    (d : Direction) (rounds : List (List RecordAddress)) (P : ℕ → Prop) : Prop where
  pushes : ∀ records ∈ rounds, ∃ pushed, PushedBy num_warps d records pushed
  next : ∀ before records later, rounds = before ++ records :: later → ∀ buffer pushed,
    Rounds c tile_size num_warps limit d before buffer → PushedBy num_warps d records pushed →
    buffer.head_index + pushed.length ≤ limit →
    ∃ buffer', Round c tile_size num_warps limit d records buffer buffer'
  delivered : ∀ buffer, Rounds c tile_size num_warps limit d rounds buffer →
    ∃ delivered, Settles (traceAnalyzeAddressAnalysis memory_map d.flag (analysisRecords buffer))
      delivered ∧ bytesOf d.flag delivered = blockBytes memory_map P

/-- The accesses do not go up to the last bytes below `2^63`, and those of a direction lie in blocks
of the map, but for lanes with the address zero. -/
structure Placed (memory_map : MemoryMap) (d : Direction) (accesses : List AddressAccess) :
    Prop where
  blocks : DisjointBlocks memory_map
  low : ∀ a ∈ accesses, ∀ l ∈ a.lanes, a.address l + a.size < 2^63 - 1
  inside : ∀ a ∈ accesses, a.callbackFlags &&& d.flag ≠ 0 → ∀ l ∈ a.lanes, a.address l ≠ 0 →
    ∃ e ∈ memory_map.toList, e.1 ≤ a.address l ∧
      a.address l + a.size ≤ e.2.memory_range.stop

variable {c : Cub} {m num_warps limit : ℕ} {memory_map : MemoryMap} {d : Direction}
  {rounds : List (List RecordAddress)} {P : ℕ → Prop}

/-- The analysis of what the rounds leave delivers the bytes that the records access. -/
theorem delivers_of_rounds (hlaunch : AnalysisLaunch c m num_warps limit)
    (hblocks : DisjointBlocks memory_map)
    (hrecords : ∀ records ∈ rounds, RoundRecords num_warps records)
    (hP : ∀ x, P x ↔ ∃ record ∈ rounds.flatten, record.flags &&& d.flag ≠ 0 ∧ record.Accesses x)
    (hinside : ∀ x, P x → Covered (blockSpans memory_map) x) :
    Delivers c (2 * m) num_warps limit memory_map d rounds P where
  pushes records hmem := hlaunch.exists_pushedBy (hrecords records hmem)
  next before records later heq buffer pushed hbefore hpushed hfits := by
    have hsplit : rounds = (before ++ [records]) ++ later :=
      heq.trans (List.append_cons before records later)
    have hmem : ∀ r ∈ before ++ [records], r ∈ rounds := fun r hr =>
      hsplit.symm ▸ List.mem_append_left later hr
    have hsummary := hbefore.summary hlaunch fun r hr =>
      hrecords r (hmem r (List.mem_append_left _ hr))
    exact hsummary.exists_round hlaunch (hrecords records (hmem records (by simp))) hpushed hfits
  delivered buffer hbuffer := by
    have hsummary := hbuffer.summary hlaunch hrecords
    have hcovered : ∀ x, Covered (intervalsAt buffer.records buffer.head_index) x ↔ P x :=
      fun x => (hsummary.covered x).trans (hP x).symm
    have hword : ∀ r ∈ analysisRecords buffer, r.stop < 2^64 := by
      intro r hr
      obtain ⟨e, he, rfl⟩ := List.mem_map.1 hr
      have hlt := hsummary.sweepable.lt e he
      simp only
      omega
    have hflag : d.flag &&& d.flag ≠ 0 := by cases d <;> decide
    obtain ⟨delivered, hsettles, hbytes⟩ := exists_settles_bytesOf hblocks hflag hword
    refine ⟨delivered, hsettles, hbytes.trans ?_⟩
    congr 1
    ext x
    rw [← hcovered]
    constructor
    · rintro ⟨r, hr, hle, hlt, -⟩
      obtain ⟨e, he, rfl⟩ := List.mem_map.1 hr
      exact ⟨e, he, hle, hlt⟩
    · rintro ⟨e, he, hle, hlt⟩
      -- All bytes of a merged interval are accessed, so they lie in blocks.
      refine ⟨⟨e.1, e.2⟩, List.mem_map_of_mem he, hle, hlt, fun y hy hyx => ?_⟩
      exact hinside y ((hcovered y).1 ⟨e, he, hy, hyx.trans_lt hlt⟩)

namespace GpuPatch

/-- The bytes that the recorded lanes of a direction access. -/
def RecordedBytes (d : Direction) (recorded : List (AddressAccess × BitVec 32)) (x : ℕ) : Prop :=
  ∃ p ∈ recorded, p.1.callbackFlags &&& d.flag ≠ 0 ∧ p.1.Accesses p.2 x

variable {dict : Option AddressDict} {size : ℕ} {W : ℕ} {s : PatchState W}

/-- The rounds of a kernel can be compacted. -/
theorem Running.roundRecords (h : Running size true s) (hrecorded : Recorded dict s)
    (hzero : s.num_threads = 0) (hwrap : size + num_warps ≤ 2^32)
    (hplaced : Placed memory_map d s.accesses) :
    ∀ records ∈ s.rounds, RoundRecords num_warps records := by
  intro records hrecords
  obtain ⟨words, hwords, rfl⟩ := List.mem_map.1 hrecords
  refine ⟨?_, fun record hrecord l hl hactive => ?_⟩
  · -- A drain has a full buffer, and what is left is in the slots that are pushed.
    have hlen : words.length ≤ size := by
      rcases List.mem_append.1 hwords with hdrain | hleft
      · exact (h.inv.drained.length words hdrain).le
      · obtain rfl := List.mem_singleton.1 hleft
        obtain ⟨-, -, hhead, -⟩ := h.inv.filling_of_idle fun w => (h.idle_of_zero hzero w).1
        unfold GpuQueue.State.left
        rw [List.length_map, List.length_range, hhead]
        exact h.inv.slots.length_le
    rw [List.length_map]
    omega
  · obtain ⟨p, hp, hshows⟩ := (h.mem_rounds hzero).1 record
      (List.mem_flatten.2 ⟨_, hrecords, hrecord⟩)
    obtain ⟨hlane, hkeep⟩ := (hshows.getLsbD_active hl).1 hactive
    rw [hshows.address l hlane hkeep, hshows.size]
    exact hplaced.low p.1 (hrecorded.accesses p hp) l hlane

/-- When no threads are left, what is delivered is what is recorded. -/
theorem Running.delivers (h : Running size true s) (hrecorded : Recorded dict s)
    (hlaunch : AnalysisLaunch c m num_warps limit) (hzero : s.num_threads = 0)
    (hwrap : size + num_warps ≤ 2^32) (hplaced : Placed memory_map d s.accesses) :
    Delivers c (2 * m) num_warps limit memory_map d s.rounds (RecordedBytes d s.recorded) := by
  obtain ⟨hsound, hcomplete⟩ := h.mem_rounds hzero
  refine delivers_of_rounds hlaunch hplaced.blocks
    (h.roundRecords hrecorded hzero hwrap hplaced) (fun x => ⟨?_, ?_⟩) ?_
  · rintro ⟨p, hp, hflag, haccesses⟩
    obtain ⟨record, hrecord, hshows⟩ := hcomplete p hp
    exact ⟨record, hrecord, hshows.flags ▸ hflag, (hshows.accesses_iff x).2 haccesses⟩
  · rintro ⟨record, hrecord, hflag, haccesses⟩
    obtain ⟨p, hp, hshows⟩ := hsound record hrecord
    exact ⟨p, hp, hshows.flags ▸ hflag, (hshows.accesses_iff x).1 haccesses⟩
  · rintro x ⟨p, hp, hflag, l, hl, -, hne, hle, hlt⟩
    obtain ⟨e, he, hstart, hstop⟩ := hplaced.inside p.1 (hrecorded.accesses p hp) hflag l hl hne
    exact (covered_blockSpans x).2 ⟨e, he, hstart.trans hle, hlt.trans_le hstop⟩

/-! ## The whole path -/

section Path

variable (frequency offset : ℕ)

/-- The access of a callback in a sampled block. -/
def sampledAccess : PatchAction W → Option AddressAccess
  | .callback _ a => if sampleCallback frequency offset a.flat_block_id then some a else none
  | .lane _ _ => none
  | .join _ => none
  | .warp _ => none
  | .block_exit _ _ => none
  | .consumer => none

/-- The accesses of the callbacks in sampled blocks. -/
def sampledAccesses (as : List (PatchAction W)) : List AddressAccess :=
  as.filterMap (sampledAccess frequency offset)

variable {frequency offset} {num_threads : ℕ} {analysis : Bool} {threads : Fin W → ℕ} {hit : ℕ → ℕ}
  {records : ℕ → GpuQueue.Record addressWords} {s' : PatchState W} {action : PatchAction W}
  {as : List (PatchAction W)}

/-- A step notes the access of its callback, if the block is sampled. -/
theorem accesses_step (h : patchStep dict frequency offset size analysis s action = some s') :
    s'.accesses = s.accesses ++ (sampledAccess frequency offset action).toList := by
  cases action with
  | callback w b =>
    unfold patchStep at h
    unfold sampledAccess
    dsimp only at h ⊢
    split_ifs at h with hw
    unfold accessCallback at h
    dsimp only at h
    split_ifs at h ⊢ with hsampled hfiltered
    · obtain rfl := Option.some.inj h
      rfl
    · obtain ⟨queue, -, rfl⟩ := PatchState.record_eq h
      rfl
    · obtain rfl := Option.some.inj h
      exact (List.append_nil _).symm
  | lane w laneid =>
    obtain ⟨d, -, h⟩ := Option.bind_eq_some_iff.1 h
    obtain ⟨f, -, h⟩ := Option.bind_eq_some_iff.1 h
    split_ifs at h
    obtain ⟨v, hit', -, rfl, -⟩ := PatchState.lane_eq h
    exact (List.append_nil _).symm
  | join w =>
    obtain ⟨f, -, h⟩ := Option.bind_eq_some_iff.1 h
    unfold PatchState.join at h
    split_ifs at h
    · obtain rfl := Option.some.inj h
      exact (List.append_nil _).symm
    · obtain ⟨queue, -, rfl⟩ := PatchState.record_eq h
      exact (List.append_nil _).symm
  | warp w =>
    obtain ⟨queue, -, rfl⟩ := Option.map_eq_some_iff.1 h
    exact (List.append_nil _).symm
  | block_exit w e =>
    unfold patchStep at h
    dsimp only at h
    split_ifs at h
    obtain rfl := Option.some.inj h
    exact (blockExit_frame s w e).2.2.1.trans (List.append_nil _).symm
  | consumer =>
    obtain rfl := Option.some.inj h
    exact (List.append_nil _).symm

/-- A run notes the accesses of all callbacks in sampled blocks. -/
theorem accesses_run (h : run (patchStep dict frequency offset size analysis) s as = some s') :
    s'.accesses = s.accesses ++ sampledAccesses frequency offset as := by
  induction as generalizing s with
  | nil =>
    cases h
    exact (List.append_nil _).symm
  | cons action as ih =>
    obtain ⟨s₁, hstep, hrun⟩ := Option.bind_eq_some_iff.1 h
    have hcons : sampledAccesses frequency offset (action :: as) =
        (sampledAccess frequency offset action).toList ++ sampledAccesses frequency offset as :=
      filterMap_cons_toList _ action as
    rw [ih hrun, accesses_step hstep, hcons, List.append_assoc]

/-- A read that is filtered has not the flag of a write. -/
theorem isFiltered_of_write {a : AddressAccess} (h : a.callbackFlags &&& WRITE ≠ 0) :
    isFiltered dict a = false := by
  have hread : a.readOnly = false := by
    unfold AddressAccess.readOnly
    refine Bool.and_eq_false_imp.2 fun _ => decide_eq_false fun hzero => h ?_
    rw [Nat.and_or_distrib_left, Nat.and_or_distrib_left, Nat.or_eq_zero_iff,
      Nat.or_eq_zero_iff] at hzero
    exact hzero.1.1
  unfold isFiltered
  rw [hread, Bool.and_false]

/-- A read that can be filtered is a read. -/
theorem AddressAccess.read_of_readOnly (a : AddressAccess) (h : a.readOnly = true) :
    a.callbackFlags &&& READ ≠ 0 := by
  unfold readOnly at h
  exact of_decide_eq_true (Bool.and_eq_true_iff.1 h).1

/-- The position that a search finds is one of the dictionary, or behind it. -/
theorem AddressDict.findPrev_le (dict : AddressDict) (address : ℕ) :
    dict.findPrev address ≤ dict.size :=
  mapPrev_le _ _ _ _

/-- The lanes that keep their accesses are active ones. -/
theorem AddressAccess.Accesses.active {a : AddressAccess} {all_keep : BitVec 32} {x : ℕ}
    (h : a.Accesses all_keep x) : a.Accesses a.active_mask x := by
  obtain ⟨l, hl, -, hrest⟩ := h
  exact ⟨l, hl, (ActiveWarp.mem_lanes_iff.1 hl).2, hrest⟩

/-- For any interleaving, when `num_threads` is zero, the flag of the analysis is down, no warp is
in a callback, and what is delivered is what the accesses of the sampled blocks touch: the writes,
and without a dictionary the reads too. -/
theorem analysis_run (hlaunch : AnalysisLaunch c m num_warps limit)
    (hfits : size + W < 2^32 ∨ size < 2^32 ∧ W ≤ 1) (hwrap : size + num_warps ≤ 2^32)
    (hthreads : ∑ w, threads w = num_threads) (hlt : num_threads < 2^32)
    (hrun : run (patchStep dict frequency offset size true)
      (PatchState.start threads num_threads hit records) as = some s)
    (hzero : s.num_threads = 0) (hdirection : dict = none ∨ d = .write)
    (hplaced : Placed memory_map d (sampledAccesses frequency offset as)) :
    s.queue.buffer.analysis = 0 ∧ (∀ w, s.isIdle w = true) ∧
      Delivers c (2 * m) num_warps limit memory_map d s.rounds fun x =>
        ∃ a ∈ sampledAccesses frequency offset as, a.callbackFlags &&& d.flag ≠ 0 ∧
          a.Accesses a.active_mask x := by
  obtain ⟨hrunning, hrecorded⟩ := running_run hfits hthreads hlt hrun
  have haccesses : s.accesses = sampledAccesses frequency offset as := accesses_run hrun
  rw [← haccesses] at hplaced ⊢
  have hidle := hrunning.idle_of_zero hzero
  -- The dictionary filters no access of the direction, so all of them are recorded.
  have hunfiltered : ∀ a ∈ s.accesses, a.callbackFlags &&& d.flag ≠ 0 →
      isFiltered dict a = false := by
    intro a _ hflag
    rcases hdirection with rfl | rfl
    · rfl
    · exact isFiltered_of_write hflag
  refine ⟨(hrunning.inv.filling_of_idle fun w => (hidle w).1).1,
    fun w => PatchState.isIdle_iff.2 (hidle w), ?_⟩
  convert hrunning.delivers hrecorded hlaunch hzero hwrap hplaced using 1
  ext x
  constructor
  · rintro ⟨a, ha, hflag, hx⟩
    exact ⟨_, hrecorded.unfiltered a ha (hunfiltered a ha hflag), hflag, hx⟩
  · rintro ⟨p, hp, hflag, hx⟩
    exact ⟨p.1, hrecorded.accesses p hp, hflag, hx.active⟩

/-- A small tile, and two warps. -/
theorem launch_sequential : AnalysisLaunch Cub.sequential 2 2 (2^31) :=
  ⟨Cub.sequential_spec, by decide, by decide, by decide, le_rfl⟩

/-- The warp of a kernel that has no others. -/
def onlyWarp : Fin 1 := Fin.last 0

/-- Two lanes read across the border of two blocks. -/
def borderRead : AddressAccess where
  flat_block_id := 0
  warp := 0
  active_mask := 3
  space := .global
  pc := 8
  address l := if l = 0 then 196 else 200
  size := 4
  flags := READ

/-- A warp of two threads reads twice, through a buffer of one record, and exits. -/
def readTwiceAndExit : List (PatchAction 1) :=
  .callback onlyWarp borderRead :: (List.replicate 38 (.warp onlyWarp) ++
    .callback onlyWarp borderRead :: (List.replicate 3 (.warp onlyWarp) ++
      (List.replicate 39 .consumer ++ (List.replicate 41 (.warp onlyWarp) ++
        [.block_exit onlyWarp borderRead.toActiveWarp]))))

/-- Both reads are noted. -/
theorem sampledAccesses_readTwiceAndExit :
    sampledAccesses 1 0 readTwiceAndExit = [borderRead, borderRead] := by
  have hread : sampledAccess 1 0 (.callback onlyWarp borderRead) = some borderRead := rfl
  have hexit : sampledAccess 1 0 (.block_exit onlyWarp borderRead.toActiveWarp) = none := rfl
  have hwarp (n : ℕ) : (List.replicate n (.warp onlyWarp)).filterMap (sampledAccess 1 0) = [] :=
    List.filterMap_replicate_of_none rfl
  have hconsumer : (List.replicate 39 (.consumer : PatchAction 1)).filterMap
      (sampledAccess 1 0) = [] := List.filterMap_replicate_of_none rfl
  unfold sampledAccesses readTwiceAndExit
  simp only [List.filterMap_cons, List.filterMap_append, hread, hexit, hwarp, hconsumer,
    List.nil_append, List.filterMap_nil]

/-- The first record is read when the buffer is full, and the second one at the end. -/
theorem analysis_run_readTwiceAndExit : ∃ s : PatchState 1,
    run (patchStep none 1 0 1 true) (PatchState.start (fun _ => 2) 2 (fun _ => 0) fun _ _ => 0)
      readTwiceAndExit = some s ∧ s.rounds.length = 2 ∧
    s.queue.buffer.analysis = 0 ∧ (∀ w, s.isIdle w = true) ∧
    Delivers Cub.sequential (2 * 2) 2 (2^31) threeBlocks .read s.rounds fun x =>
      ∃ a ∈ [borderRead, borderRead], a.callbackFlags &&& READ ≠ 0 ∧
        a.Accesses a.active_mask x := by
  have hmap : (run (patchStep none 1 0 1 true)
      (PatchState.start (fun _ => 2) 2 (fun _ => 0) fun _ _ => 0) readTwiceAndExit).map
      (fun s => (s.num_threads, s.rounds.length)) = some (0, 2) := by decide +kernel
  obtain ⟨s, hrun, hend⟩ := Option.map_eq_some_iff.1 hmap
  obtain ⟨hzero, hlength⟩ := Prod.mk.inj hend
  have hplaced : Placed threeBlocks .read (sampledAccesses 1 0 readTwiceAndExit) := by
    rw [sampledAccesses_readTwiceAndExit]
    exact ⟨⟨by decide, by decide⟩, by decide +kernel, by decide +kernel⟩
  have hresult := analysis_run launch_sequential (.inr (by decide)) (by decide : 1 + 2 ≤ 2^32)
    rfl (by decide) hrun hzero (.inl rfl) hplaced
  rw [sampledAccesses_readTwiceAndExit] at hresult
  exact ⟨s, hrun, hlength, hresult⟩

/-- All bytes of a lane are of a kind, if its address is not zero. -/
def AddressAccess.LaneIn (P : ℕ → Prop) (a : AddressAccess) (l : ℕ) : Prop :=
  a.address l ≠ 0 → ∀ x, a.address l ≤ x → x < a.address l + a.size → P x

/-- The bytes of a lane that is recorded. -/
theorem laneIn_recordedBytes {recorded : List (AddressAccess × BitVec 32)} {a : AddressAccess}
    {all_keep : BitVec 32} {l : ℕ} (hmem : (a, all_keep) ∈ recorded)
    (hflag : a.callbackFlags &&& d.flag ≠ 0) (hl : l ∈ a.lanes)
    (hkeep : all_keep.getLsbD l = true) : a.LaneIn (RecordedBytes d recorded) l :=
  fun hne _ hle hlt => ⟨_, hmem, hflag, l, hl, hkeep, hne, hle, hlt⟩

/-- A lane reads an object of the dictionary: the last one that starts at its address or before. -/
def ReadsObject (dict : AddressDict) (pos : ℕ) (a : AddressAccess) (l : ℕ) : Prop :=
  a.readOnly = true ∧ l ∈ a.lanes ∧ dict.findPrev (a.address l) = pos

/-- With a dictionary, only bytes that are read are delivered as read. The bytes of a lane that
reads are, or it reads an object of the dictionary which was marked at the start, or of which
another lane reads bytes that all are. -/
theorem filtered_run {dict : AddressDict} (hlaunch : AnalysisLaunch c m num_warps limit)
    (hfits : size + W < 2^32 ∨ size < 2^32 ∧ W ≤ 1) (hwrap : size + num_warps ≤ 2^32)
    (hthreads : ∑ w, threads w = num_threads) (hlt : num_threads < 2^32)
    (hrun : run (patchStep (some dict) frequency offset size true)
      (PatchState.start threads num_threads hit records) as = some s)
    (hzero : s.num_threads = 0)
    (hplaced : Placed memory_map .read (sampledAccesses frequency offset as)) :
    ∃ P, Delivers c (2 * m) num_warps limit memory_map .read s.rounds P ∧
      (∀ x, P x → ∃ a ∈ sampledAccesses frequency offset as, a.callbackFlags &&& READ ≠ 0 ∧
        a.Accesses a.active_mask x) ∧
      ∀ a ∈ sampledAccesses frequency offset as, a.callbackFlags &&& READ ≠ 0 →
        ∀ l ∈ a.lanes, a.LaneIn P l ∨
          ∃ pos < dict.size, ReadsObject dict pos a l ∧ (hit pos ≠ 0 ∨
            ∃ b ∈ sampledAccesses frequency offset as, ∃ k, ReadsObject dict pos b k ∧
              b.LaneIn P k) := by
  obtain ⟨hrunning, hrecorded⟩ := running_run hfits hthreads hlt hrun
  have hfiltering := filtering_run hrun
  have haccesses : s.accesses = sampledAccesses frequency offset as := accesses_run hrun
  rw [← haccesses] at hplaced ⊢
  have hidle := hrunning.idle_of_zero hzero
  refine ⟨_, hrunning.delivers hrecorded hlaunch hzero hwrap hplaced, ?_, ?_⟩
  · rintro x ⟨p, hp, hflag, hx⟩
    exact ⟨p.1, hrecorded.accesses p hp, hflag, hx.active⟩
  · intro a ha hflag l hl
    cases hfiltered : isFiltered (some dict) a with
    | false =>
      exact .inl (laneIn_recordedBytes (hrecorded.unfiltered a ha hfiltered) hflag hl
        (ActiveWarp.mem_lanes_iff.1 hl).2)
    | true =>
      obtain ⟨all_keep, hmem, hkeep⟩ | ⟨hpos, hset⟩ :=
        hfiltering.keeps_or_marked (fun w => (hidle w).2) ha hfiltered hl
      · exact .inl (laneIn_recordedBytes hmem hflag hl hkeep)
      · -- The mark was set at the start, or a lane that is recorded has set it.
        refine .inr ⟨_, lt_of_le_of_ne (dict.findPrev_le _) hpos, ⟨hfiltered, hl, rfl⟩,
          (hfiltering.marks _ hset).imp_right ?_⟩
        rintro ⟨b, k, hb, hread, hk, hfind, hkeeps⟩
        obtain ⟨all_keep, hmem, hkeep⟩ := hkeeps.resolve_right fun ⟨w, f, hf, _⟩ => by
          cases hf.symm.trans (hidle w).2
        have hbread : b.readOnly = true := hread
        exact ⟨b, hb, k, ⟨hbread, hk, hfind⟩,
          laneIn_recordedBytes hmem (b.read_of_readOnly hbread) hk hkeep⟩

/-- A dictionary of one object. -/
def firstBlockDict : AddressDict where
  entries := [⟨⟨100, 200⟩, 0, 0, 0⟩]
  distinct := by decide

/-- Two lanes read the same object. -/
def twoReads : AddressAccess where
  flat_block_id := 0
  warp := 0
  active_mask := 3
  space := .global
  pc := 8
  address l := if l = 0 then 100 else 104
  size := 4
  flags := READ

/-- The first lane marks the object, so that the second one drops its read. -/
def markAndDrop : List (PatchAction 1) :=
  .callback onlyWarp twoReads :: .lane onlyWarp 0 :: .lane onlyWarp 0 :: .lane onlyWarp 1 ::
    .join onlyWarp :: (List.replicate 38 (.warp onlyWarp) ++
      [.block_exit onlyWarp twoReads.toActiveWarp])

/-- The access is noted. -/
theorem sampledAccesses_markAndDrop : sampledAccesses 1 0 markAndDrop = [twoReads] := by
  have hread : sampledAccess 1 0 (.callback onlyWarp twoReads) = some twoReads := rfl
  have hlane (l : ℕ) : sampledAccess 1 0 (.lane onlyWarp l) = none := rfl
  have hjoin : sampledAccess 1 0 (.join onlyWarp) = none := rfl
  have hexit : sampledAccess 1 0 (.block_exit onlyWarp twoReads.toActiveWarp) = none := rfl
  have hwarp : (List.replicate 38 (.warp onlyWarp)).filterMap (sampledAccess 1 0) = [] :=
    List.filterMap_replicate_of_none rfl
  unfold sampledAccesses markAndDrop
  simp only [List.filterMap_cons, List.filterMap_append, hread, hlane, hjoin, hexit, hwarp,
    List.nil_append, List.filterMap_nil]

/-- One of the two lanes is recorded. -/
theorem filtered_run_markAndDrop : ∃ s : PatchState 1,
    run (patchStep (some firstBlockDict) 1 0 1 true)
      (PatchState.start (fun _ => 2) 2 (fun _ => 0) fun _ _ => 0) markAndDrop = some s ∧
    ∃ P, Delivers Cub.sequential (2 * 2) 2 (2^31) threeBlocks .read s.rounds P ∧
      (∀ x, P x → ∃ a ∈ [twoReads], a.callbackFlags &&& READ ≠ 0 ∧
        a.Accesses a.active_mask x) ∧
      ∀ a ∈ [twoReads], a.callbackFlags &&& READ ≠ 0 → ∀ l ∈ a.lanes, a.LaneIn P l ∨
        ∃ pos < firstBlockDict.size, ReadsObject firstBlockDict pos a l ∧ (0 ≠ 0 ∨
          ∃ b ∈ [twoReads], ∃ k, ReadsObject firstBlockDict pos b k ∧ b.LaneIn P k) := by
  have hmap : (run (patchStep (some firstBlockDict) 1 0 1 true)
      (PatchState.start (fun _ => 2) 2 (fun _ => 0) fun _ _ => 0) markAndDrop).map
      (fun s => s.num_threads) = some 0 := by decide +kernel
  obtain ⟨s, hrun, hzero⟩ := Option.map_eq_some_iff.1 hmap
  have hplaced : Placed threeBlocks .read (sampledAccesses 1 0 markAndDrop) := by
    rw [sampledAccesses_markAndDrop]
    exact ⟨⟨by decide, by decide⟩, by decide +kernel, by decide +kernel⟩
  have hresult := filtered_run launch_sequential (.inr (by decide)) (by decide : 1 + 2 ≤ 2^32)
    rfl (by decide) hrun hzero hplaced
  rw [sampledAccesses_markAndDrop] at hresult
  exact ⟨s, hrun, hresult⟩

end Path

end GpuPatch

end TenProf
