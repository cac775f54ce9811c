import TenProf.Library.Loops
import TenProf.MemoryProfile.Kernels

/-!
# Blank chunks do not touch

Between two chunks that `update_blank_chunks` leaves of an object lies a byte that was accessed. The
loop cuts a chunk in two parts that touch only at the start of the access, and then trims or erases
the second one, since no access is empty (`spaced_eraseRange`). So it is for all chunks of all
kernels after every event (`Gaps.step`).
-/

namespace TenProf.MemoryProfile

/-- The chunks while the loop is at one of them: those around it do not touch, and the chunk itself
touches the ones before it only where the loop has just split a chunk, at the start of the
access. -/
structure Gapped (a : ℕ) (before : List (ℕ × ℕ)) (iter : ℕ × ℕ) (rest : List (ℕ × ℕ)) : Prop where
  around : Separated (before ++ rest)
  behind : Separated (iter :: rest)
  front : ∀ e ∈ before, e.2 < iter.1 ∨ iter.1 = a

/-- The states of the loop, with the gaps between the chunks. -/
def GapState (a b : ℕ) (chunks : List (ℕ × ℕ)) : ChunkState → Prop
  | (unuse_range_set, [], start) =>
    WalkState a b chunks (unuse_range_set, [], start) ∧ Separated unuse_range_set.toList
  | (unuse_range_set, iter :: rest, start) =>
    ∃ before, Walking a b chunks unuse_range_set before iter rest start ∧ Gapped a before iter rest

/-- What a turn is to do: it keeps the state in order, or it leaves chunks that do not touch. -/
def GapTurn (a b : ℕ) (chunks : List (ℕ × ℕ)) (s : ChunkState) : Prop :=
  (∃ s', chunkTurn b s = .inl s' ∧ GapState a b chunks s') ∨
    ∃ set', chunkTurn b s = .inr (some set') ∧ Separated set'.toList

variable {a b start : ℕ} {chunks before rest : List (ℕ × ℕ)} {unuse_range_set : RangeSet}
  {iter : ℕ × ℕ}

/-- Chunks with gaps, seen from one of them. -/
theorem gapped_of_separated (h : Separated (before ++ iter :: rest)) :
    Gapped a before iter rest := by
  obtain ⟨hbefore, hiter, hcross⟩ := List.pairwise_append.1 h
  refine ⟨List.pairwise_append.2 ⟨hbefore, hiter.of_cons, fun e he d hd => ?_⟩, hiter,
    fun e he => .inl (hcross e he iter List.mem_cons_self)⟩
  exact hcross e he d (List.mem_cons_of_mem iter hd)

namespace Gapped

variable (g : Gapped a before iter rest)

include g

/-- The chunks behind the one at the iterator begin behind it. -/
theorem lt_rest {e : ℕ × ℕ} (he : e ∈ rest) : iter.2 < e.1 := List.rel_of_pairwise_cons g.behind he

/-- The chunk is replaced by one that ends with it and does not touch those before it. -/
theorem replace {piece : ℕ × ℕ} (hend : piece.2 ≤ iter.2) (hbefore : ∀ e ∈ before, e.2 < piece.1) :
    Separated (before ++ piece :: rest) := by
  obtain ⟨hfirst, hrest, hcross⟩ := List.pairwise_append.1 g.around
  refine List.pairwise_append.2 ⟨hfirst, List.pairwise_cons.2 ⟨fun e he => ?_, hrest⟩,
    fun e he d hd => ?_⟩
  · exact hend.trans_lt (g.lt_rest he)
  · rcases List.mem_cons.1 hd with rfl | hd
    · exact hbefore e he
    · exact hcross e he d hd

/-- The chunk is split at the start of the access. -/
theorem split_chunk (hlt : iter.1 < a) (hlt' : a < iter.2) :
    Gapped a (before ++ [(iter.1, a)]) (a, iter.2) rest := by
  have hbefore : ∀ e ∈ before, e.2 < iter.1 := fun e he => (g.front e he).resolve_right hlt.ne
  have hfirst : Separated (before ++ (iter.1, a) :: rest) :=
    g.replace hlt'.le hbefore
  refine ⟨by simpa using hfirst, ?_, fun e he => .inr rfl⟩
  exact List.pairwise_cons.2 ⟨fun e he => g.lt_rest he, g.behind.of_cons⟩

end Gapped

/-- A turn at a chunk that starts within the access. -/
theorem gapTurn_within (hab : a < b)
    (h : Walking a b chunks unuse_range_set before iter rest iter.1) (hge : a ≤ iter.1)
    (hle : iter.1 ≤ b) (g : Gapped a before iter rest) :
    GapTurn a b chunks (unuse_range_set, iter :: rest, iter.1) := by
  have herase := OrderedMap.toList_erase_split h.split
  by_cases hlt : b < iter.2
  · have hlist : ((unuse_range_set.erase iter.1).emplace b iter.2).toList =
        before ++ (b, iter.2) :: rest := by
      refine OrderedMap.toList_emplace_split herase (fun e he => ?_) (fun e he => ?_) _
      · exact ((OrderedMap.keys_of_split h.split).1 e he).trans_le hle
      · exact hlt.trans_le (h.le_rest he)
    refine .inr ⟨(unuse_range_set.erase iter.1).emplace b iter.2,
      by simp only [chunkTurn, if_pos, if_pos hlt], ?_⟩
    rw [hlist]
    exact g.replace le_rfl fun e he => (h.below e he).trans_lt hab
  · have hle' := not_lt.1 hlt
    have hsep : Separated (unuse_range_set.erase iter.1).toList := by
      rw [herase]
      exact g.around
    rcases hrest : rest with _ | ⟨next, later⟩
    · exact .inr ⟨_, by simp only [chunkTurn, if_pos, if_neg hlt], hsep⟩
    · by_cases hnext : b < next.1
      · exact .inr ⟨_, by simp only [chunkTurn, if_pos, if_neg hlt, if_pos hnext], hsep⟩
      · refine .inl ⟨(unuse_range_set.erase iter.1, next :: later, next.1),
          by simp only [chunkTurn, if_pos, if_neg hlt, if_neg hnext], before,
          h.erase_next hrest hge hle' (not_lt.1 hnext), gapped_of_separated ?_⟩
        rw [← hrest]
        exact g.around

/-- A turn at a chunk that starts below the access. -/
theorem gapTurn_below (hab : a < b) (h : Walking a b chunks unuse_range_set before iter rest a)
    (hlt : iter.1 < a) (habove : ∀ e ∈ rest, a < e.1) (g : Gapped a before iter rest) :
    GapTurn a b chunks (unuse_range_set, iter :: rest, a) := by
  have hne : a ≠ iter.1 := hlt.ne'
  by_cases hstart : a < iter.2
  · exact .inl ⟨(((unuse_range_set.erase iter.1).emplace iter.1 a).emplace a iter.2,
        (a, iter.2) :: rest, a),
      by simp only [chunkTurn, if_neg hne, if_pos hstart],
      _, h.split_chunk hab.le hlt hstart habove, g.split_chunk hlt hstart⟩
  · have hle := not_lt.1 hstart
    have hsep : Separated (before ++ iter :: rest) :=
      g.replace le_rfl fun e he => (g.front e he).resolve_right hne.symm
    have hset : Separated unuse_range_set.toList := by
      rw [h.split]
      exact hsep
    rcases hrest : rest with _ | ⟨next, later⟩
    · exact .inr ⟨_, by simp only [chunkTurn, if_neg hne, if_neg hstart], hset⟩
    · by_cases hnext : next.1 < b
      · refine .inl ⟨(unuse_range_set, next :: later, next.1),
          by simp only [chunkTurn, if_neg hne, if_neg hstart, if_pos hnext], _,
          h.keep_next hrest hle habove hnext, gapped_of_separated ?_⟩
        rw [hrest] at hsep
        simpa using hsep
      · exact .inr ⟨_, by simp only [chunkTurn, if_neg hne, if_neg hstart, if_neg hnext], hset⟩

/-- A turn before the first chunk. -/
theorem gapTurn_begin (hs : GapState a b chunks (unuse_range_set, [], start)) :
    GapTurn a b chunks (unuse_range_set, [], start) := by
  obtain ⟨hwalk, hsep⟩ := hs
  have hturn := goodTurn_begin hwalk
  obtain ⟨hlist, hne, -⟩ := hwalk
  obtain ⟨first, rest, rfl⟩ := List.exists_cons_of_ne_nil hne
  by_cases hstop : b ≤ first.1
  · exact .inr ⟨unuse_range_set, by simp only [chunkTurn, hlist, if_pos hstop], hsep⟩
  · have hstep : chunkTurn b (unuse_range_set, [], start) =
        .inl (unuse_range_set, first :: rest, first.1) := by
      simp only [chunkTurn, hlist, if_neg hstop]
    rw [GoodTurn, hstep] at hturn
    rcases hturn with ⟨s', hs', hwalk', -⟩ | ⟨set', hset', -⟩
    · rw [← Sum.inl.inj hs'] at hwalk'
      obtain ⟨before, hwalking⟩ := hwalk'
      exact .inl ⟨_, hstep, before, hwalking, gapped_of_separated (hwalking.split ▸ hsep)⟩
    · exact absurd hset' (by simp)

/-- Every turn keeps the gaps. -/
theorem gapTurn (hab : a < b) {s : ChunkState} (hs : GapState a b chunks s) :
    GapTurn a b chunks s := by
  obtain ⟨unuse_range_set, iter, start⟩ := s
  cases iter with
  | nil => exact gapTurn_begin hs
  | cons iter rest =>
    obtain ⟨before, h, g⟩ := hs
    rcases h.position with ⟨rfl, hge, hle⟩ | ⟨rfl, hlt, habove⟩
    · exact gapTurn_within hab h hge hle g
    · exact gapTurn_below hab h hlt habove g

/-- The state in which the loop starts. -/
theorem gapState_chunkIter (hne : unuse_range_set.size ≠ 0)
    (hchunks : Chunks unuse_range_set.toList) (hsep : Separated unuse_range_set.toList)
    (hab : a ≤ b) :
    GapState a b unuse_range_set.toList (unuse_range_set, chunkIter unuse_range_set a, a) := by
  have hwalk := walkState_chunkIter hne hchunks hab
  cases hiter : chunkIter unuse_range_set a with
  | nil =>
    rw [hiter] at hwalk
    exact ⟨hwalk, hsep⟩
  | cons iter rest =>
    rw [hiter] at hwalk
    obtain ⟨before, h⟩ := hwalk
    exact ⟨before, h, gapped_of_separated (h.split ▸ hsep)⟩

/-- The gaps are kept in addition to what the loop keeps anyway. -/
theorem GapState.walkState {s : ChunkState} (hs : GapState a b chunks s) :
    WalkState a b chunks s := by
  obtain ⟨unuse_range_set, iter, start⟩ := s
  cases iter with
  | nil => exact hs.1
  | cons iter rest =>
    obtain ⟨before, h, -⟩ := hs
    exact ⟨before, h⟩

/-- Chunks that do not overlap and have gaps between them. -/
structure Spaced (l : List (ℕ × ℕ)) : Prop where
  chunks : Chunks l
  gaps : Separated l

/-- What an access leaves of chunks that do not touch are chunks that do not touch. -/
theorem spaced_eraseRange (hset : Spaced unuse_range_set.toList) {range_iter : MemoryRange}
    (hlt : range_iter.start < range_iter.stop) {fuel : ℕ} {set' : RangeSet}
    (h : eraseRange fuel unuse_range_set range_iter = some set') : Spaced set'.toList := by
  unfold eraseRange at h
  by_cases hsize : unuse_range_set.size = 0
  · rw [if_pos hsize, Option.some.injEq] at h
    exact h ▸ hset
  · rw [if_neg hsize, Option.bind_eq_some_iff] at h
    obtain ⟨res, hloop, hres⟩ := h
    rw [id_eq] at hres
    have hdone : ∀ set', res = some set' → Spaced set'.toList := by
      refine loop_invariant (I := GapState range_iter.start range_iter.stop _)
        (Q := fun res => ∀ set', res = some set' → Spaced set'.toList) ?_ ?_
        (gapState_chunkIter hsize hset.chunks hset.gaps hlt.le) hloop
      · intro s s' hs hturn
        rcases gapTurn hlt hs with ⟨s'', hturn', hs'⟩ | ⟨set', hturn', -⟩
        · exact Sum.inl.inj (hturn.symm.trans hturn') ▸ hs'
        · exact absurd (hturn.symm.trans hturn') (by simp)
      · rintro s _ hs hturn set' rfl
        rcases gapTurn hlt hs with ⟨s', hturn', -⟩ | ⟨set₁, hturn₁, hsep⟩
        · exact absurd (hturn.symm.trans hturn') (by simp)
        · rcases goodTurn hlt.le hs.walkState with ⟨s', hturn', -⟩ | ⟨set₂, hturn₂, herased⟩
          · exact absurd (hturn.symm.trans hturn') (by simp)
          · rw [← Option.some.inj (Sum.inr.inj (hturn.symm.trans hturn₁))] at hsep
            rw [← Option.some.inj (Sum.inr.inj (hturn.symm.trans hturn₂))] at herased
            exact ⟨herased.ordered, hsep⟩
    exact hdone set' hres

/-! ## Runs -/

/-- In a state the chunks of all kernels have gaps between them. No range in a trace is empty, and
no registered object ends before it starts. -/
structure Gaps (s : MemoryProfile) : Prop where
  chunks : ∀ k m c, s.blankAt k m = some c → Spaced c.toList
  traces : ∀ i t, s.traceAt i = some t →
    ∀ m ranges, t.access_memory.find? m = some ranges → Proper ranges.toList
  memories : ∀ id memory, s.memories.find? id = some memory →
    memory.memory_range.start ≤ memory.memory_range.stop

variable {s s' : MemoryProfile} {k m : ℕ} {c : RangeSet}

/-- What the parts of the state that the gaps depend on keep. -/
theorem Gaps.congr (h : Gaps s) (hblank : s'.blank_chunks = s.blank_chunks)
    (htrace : s'.kernel_trace = s.kernel_trace) (hmemories : s'.memories = s.memories) :
    Gaps s' := by
  constructor
  · intro k m c hc
    unfold blankAt at hc
    rw [hblank] at hc
    exact h.chunks k m c hc
  · intro i t ht
    unfold traceAt at ht
    rw [htrace] at ht
    exact h.traces i t ht
  · rw [hmemories]
    exact h.memories

/-- A trace is replaced by one without empty ranges. -/
theorem Gaps.setTrace (h : Gaps s) (i : ℕ × ℕ) {t : MemoryProfileTrace}
    (ht : ∀ m ranges, t.access_memory.find? m = some ranges → Proper ranges.toList) :
    Gaps (s.setTrace i t) := by
  refine ⟨h.chunks, fun i' t' ht' => ?_, h.memories⟩
  rw [traceAt_setTrace] at ht'
  split_ifs at ht'
  · exact Option.some.inj ht' ▸ ht
  · exact h.traces i' t' ht'

/-- `analysis_begin`. -/
theorem Gaps.analysisBegin (h : Gaps s) (cpu_thread host_op_id : ℕ) :
    Gaps (s.analysisBegin cpu_thread host_op_id) := by
  unfold MemoryProfile.analysisBegin
  dsimp only
  split_ifs
  · exact h.congr rfl rfl rfl
  · exact (h.setTrace (cpu_thread, host_op_id) (t := ⟨host_op_id, ∅⟩) (by simp)).congr rfl rfl rfl

/-- `unit_access`. -/
theorem Gaps.unitAccess (h : Gaps s) {access : Access} (hs' : s.unitAccess access = some s') :
    Gaps s' := by
  unfold MemoryProfile.unitAccess at hs'
  split_ifs at hs'
  · exact Option.some.inj hs' ▸ h
  · obtain ⟨i, -, hs'⟩ := Option.bind_eq_some_iff.1 hs'
    obtain ⟨t, ht, rfl⟩ := Option.map_eq_some_iff.1 hs'
    refine h.setTrace i fun m ranges hfind => ?_
    rw [OrderedMap.find?_set] at hfind
    split_ifs at hfind with hm
    · rw [← Option.some.inj hfind]
      refine (addRange_spec ?_ access.memory_range).1
      unfold OrderedMap.findD
      cases hold : t.access_memory.find? access.memory_op_id with
      | none => simp [Proper]
      | some ranges => exact h.traces i t ht _ _ hold
    · exact h.traces i t ht m ranges hfind

/-- The patches of a kernel. -/
theorem Gaps.analyzePatches (h : Gaps s) {op : Kernel} {patches : List (List Access)}
    (hs' : patches.foldlM (analyzePatch op) s = some s') : Gaps s' := by
  refine foldlM_invariant (fun s₁ patch s₂ h₁ _ h₂ => ?_) h hs'
  exact foldlM_invariant (fun _ _ _ h₃ _ h₄ => h₃.unitAccess h₄) (h₁.analysisBegin _ _) h₂

/-- The chunks of an object are replaced. -/
theorem Gaps.setBlank (h : Gaps s) (k m : ℕ) (hc : Spaced c.toList) :
    Gaps (s.setBlank k m c) := by
  refine ⟨fun k' m' c' hc' => ?_, h.traces, h.memories⟩
  rw [blankAt_setBlank] at hc'
  split_ifs at hc'
  · exact Option.some.inj hc' ▸ hc
  · exact h.chunks k' m' c' hc'

/-- `update_blank_chunks`. -/
theorem Gaps.updateBlankChunks (h : Gaps s) {fuel : ℕ} {r : ℕ × ℕ} (hr : r.1 < r.2)
    (hs' : updateBlankChunks fuel k m s r = some s') : Gaps s' := by
  obtain ⟨c, hc, hs'⟩ := Option.bind_eq_some_iff.1 hs'
  obtain ⟨c', hc', rfl⟩ := Option.map_eq_some_iff.1 hs'
  exact h.setBlank k m (spaced_eraseRange (h.chunks k m c hc) hr hc')

/-- An object that starts where it ends or before is one chunk. -/
theorem spaced_whole {memory : Memory}
    (h : memory.memory_range.start ≤ memory.memory_range.stop) :
    Spaced (OrderedMap.emplace (∅ : RangeSet) memory.memory_range.start
      memory.memory_range.stop).toList := by
  rw [OrderedMap.toList_emplace_of_gt _ (by simp), OrderedMap.toList_empty, List.nil_append]
  exact ⟨⟨by simp, by simpa using h⟩, List.pairwise_singleton _ _⟩

/-- The chunks that a kernel takes over. -/
theorem Gaps.unuseSet (h : Gaps s) {memory : Memory} (hmemory : s.memories.find? m = some memory)
    (hc : s.unuseSet m memory = some c) : Spaced c.toList := by
  unfold MemoryProfile.unuseSet at hc
  cases hkid : s.accessed_memories.find? m with
  | none =>
    simp only [hkid, Option.some.injEq] at hc
    exact hc ▸ spaced_whole (h.memories m memory hmemory)
  | some kid =>
    simp only [hkid] at hc
    exact h.chunks kid m c hc

/-- The turn of the loop over the objects. -/
theorem Gaps.updateObject (h : Gaps s) {fuel : ℕ} {op : Kernel} {mem_iter : ℕ × RangeSet}
    (hproper : Proper mem_iter.2.toList)
    (hs' : updateObject fuel op k s mem_iter = some s') : Gaps s' := by
  obtain ⟨memory, hmemory, hs'⟩ := Option.bind_eq_some_iff.1 hs'
  obtain ⟨c, hc, hs'⟩ := Option.bind_eq_some_iff.1 hs'
  obtain ⟨-, -, hs'⟩ := Option.bind_eq_some_iff.1 hs'
  have hspaced := h.unuseSet hmemory hc
  refine foldlM_invariant (fun _ r _ h₁ hr h₂ => h₁.updateBlankChunks (hproper r hr) h₂) ?_ hs'
  refine ⟨fun k' m c' hc' => ?_, h.traces, h.memories⟩
  unfold blankAt at hc'
  dsimp only at hc'
  rw [OrderedMap.find?_set] at hc'
  split_ifs at hc' with hk
  · rw [Option.bind_some, OrderedMap.find?_emplace] at hc'
    have hold : ∀ m c', (s.blank_chunks.findD k ∅).find? m = some c' → Spaced c'.toList := by
      intro m c' hfind
      unfold OrderedMap.findD at hfind
      cases hmap : s.blank_chunks.find? k with
      | none => simp [hmap] at hfind
      | some memory_map =>
        rw [hmap] at hfind
        exact h.chunks k m c' (by unfold blankAt; rw [hmap]; exact hfind)
    split_ifs at hc' with hm
    · -- The chunks that are taken over, or those that the kernel has already.
      cases hfind : (s.blank_chunks.findD k ∅).find? mem_iter.1 with
      | none =>
        rw [hfind] at hc'
        exact Option.some.inj hc' ▸ hspaced
      | some c₁ =>
        rw [hfind] at hc'
        exact Option.some.inj hc' ▸ hold _ _ hfind
    · exact hold m c' hc'
  · exact h.chunks k' m c' hc'

/-- The callback of a kernel. -/
theorem Gaps.kernelOpCallback (h : Gaps s) {fuel : ℕ} {op : Kernel}
    (hs' : kernelOpCallback fuel s op = some s') : Gaps s' := by
  unfold MemoryProfile.kernelOpCallback at hs'
  have hstart : Gaps (s.updateOpNode op.op_id op.ctx_id) := h.congr rfl rfl rfl
  cases htrace : (s.updateOpNode op.op_id op.ctx_id).trace with
  | none =>
    simp only [htrace, Option.some.injEq] at hs'
    exact hs' ▸ hstart
  | some i =>
    simp only [htrace] at hs'
    obtain ⟨t, ht, hs'⟩ := Option.bind_eq_some_iff.1 hs'
    obtain ⟨s₁, hs₁, rfl⟩ := Option.map_eq_some_iff.1 hs'
    have hproper : ∀ e ∈ t.access_memory.toList, Proper e.2.toList := fun e he =>
      hstart.traces i t ht e.1 e.2 ((t.access_memory.find?_eq_some_iff e.1 e.2).2 he)
    have hgaps : Gaps s₁ := by
      refine foldlM_invariant (fun _ e _ h₁ he h₂ => h₁.updateObject (hproper e he) h₂) ?_ hs₁
      refine ⟨fun k m c hc => ?_, hstart.traces, hstart.memories⟩
      have hblank := blankAt_emplace (s.updateOpNode op.op_id op.ctx_id) t.op_id k m
      exact hstart.chunks k m c (hblank.symm.trans hc)
    exact (hgaps.setTrace i (by simp)).congr rfl rfl rfl

/-- What an event does, when an object that it registers does not end before it starts. -/
theorem Gaps.step (h : Gaps s) {fuel : ℕ} {e : Event}
    (he : ∀ op, e = .memory op → op.memory_range.start ≤ op.memory_range.stop)
    (hs' : step fuel s e = some s') : Gaps s' := by
  cases e with
  | memory op =>
    obtain rfl := Option.some.inj hs'
    refine ⟨h.chunks, h.traces, fun id memory hmemory => ?_⟩
    have hfind : (s.memories.emplace op.op_id op).find? id = some memory := hmemory
    rw [OrderedMap.find?_emplace] at hfind
    split_ifs at hfind with hid
    · cases hold : s.memories.find? op.op_id with
      | none =>
        rw [hold] at hfind
        exact Option.some.inj hfind ▸ he op rfl
      | some memory' =>
        rw [hold] at hfind
        exact Option.some.inj hfind ▸ h.memories _ _ hold
    · exact h.memories id memory hfind
  | memfree op =>
    obtain ⟨malloc_op_id, -, rfl⟩ := Option.map_eq_some_iff.1 hs'
    exact h.congr rfl rfl rfl
  | kernel op patches =>
    obtain ⟨s₁, hs₁, hs'⟩ := Option.bind_eq_some_iff.1 hs'
    exact (h.analyzePatches hs₁).kernelOpCallback hs'

end TenProf.MemoryProfile
