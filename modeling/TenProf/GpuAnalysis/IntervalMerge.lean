import TenProf.Library.While
import TenProf.GpuAnalysis.IntervalMergeImpl

/-!
# The merge of a buffer of intervals

`interval_merge` merges a buffer tile by tile over the array that it reads from. The tiles are
written one after the other from the start of the array, so never behind what has been read. When
they got fewer, a second pass goes over the old length, where the merged intervals are followed by
intervals that were there before. Both passes keep what the intervals cover
(`intervalMerge_coverage`).
-/

namespace TenProf

/-- A buffer of intervals: the words of the records, and the members that the merge reads or
writes. -/
structure IntervalBuffer where
  head_index : ℕ
  tail_index : ℕ
  records : ℕ → ℕ

/-- The state of a pass. -/
structure MergePass where
  cur_index : ℕ
  items : ℕ
  records : ℕ → ℕ

/-- The memory after words are written behind an address. -/
def storeWords (records : ℕ → ℕ) (d_out : ℕ) (words : List (ℕ × ℕ)) : ℕ → ℕ :=
  words.foldl (fun records w => Function.update records (d_out + w.1) w.2) records

/-- The merge of the tile at `cur_index`. -/
def mergeTile (c : Cub) (tile_size valid_items : ℕ) (st : MergePass) : MergePass :=
  let (words, aggregate) := intervalMergeImpl c tile_size
    (fun i => st.records (u32 (st.cur_index * 2) + i)) valid_items
  { st with
    items := ((st.items + aggregate) % 2^32).toNat
    records := storeWords st.records (u32 (st.items * 2)) words }

/-- One turn of the loop over the tiles that are full. -/
def mergeTurn (c : Cub) (tile_size head_index : ℕ) (st : MergePass) : MergePass ⊕ MergePass :=
  if u32 (st.cur_index + tile_size / 2) ≤ head_index then
    .inl { mergeTile c tile_size tile_size st with
      cur_index := u32 (st.cur_index + tile_size / 2) }
  else .inr st

/-- One pass over a buffer, with at most `fuel` turns of its loop. -/
def mergePass (c : Cub) (tile_size head_index : ℕ) (records : ℕ → ℕ) (fuel : ℕ) :
    Option MergePass :=
  (loop (mergeTurn c tile_size head_index) fuel ⟨0, 0, records⟩).map fun st =>
    -- Remainder
    if st.cur_index < head_index then
      mergeTile c tile_size (u32 (subU32 head_index st.cur_index * 2)) st
    else st

/-- `interval_merge`. -/
def intervalMerge (c : Cub) (tile_size : ℕ) (buffer : IntervalBuffer) (fuel : ℕ) :
    Option IntervalBuffer :=
  (mergePass c tile_size buffer.head_index buffer.records fuel).bind fun st =>
    -- Second pass
    (if st.items < buffer.head_index then
      mergePass c tile_size buffer.head_index st.records fuel
    else some st).map fun st =>
      { head_index := st.items, tail_index := st.items, records := st.records }

variable {records : ℕ → ℕ} {words : List (ℕ × ℕ)} {d_out : ℕ}

/-- Words that are not written stay as they are. -/
theorem storeWords_of_notMem {a : ℕ} (h : ∀ w ∈ words, d_out + w.1 ≠ a) :
    storeWords records d_out words a = records a := by
  induction words generalizing records with
  | nil => rfl
  | cons w words ih =>
    obtain ⟨hw, hwords⟩ := List.forall_mem_cons.1 h
    exact (ih hwords).trans (Function.update_of_ne hw.symm _ _)

/-- A word is written to its place, if no other one is. -/
theorem storeWords_of_mem (hnodup : (words.map Prod.fst).Nodup) {w : ℕ × ℕ} (hw : w ∈ words) :
    storeWords records d_out words (d_out + w.1) = w.2 := by
  induction words generalizing records with
  | nil => simp at hw
  | cons v words ih =>
    obtain ⟨hv, hnodup'⟩ := List.nodup_cons.1 hnodup
    rcases List.mem_cons.1 hw with rfl | hw'
    · have hout : ∀ v ∈ words, d_out + v.1 ≠ d_out + w.1 := fun v hv' heq =>
        hv (Nat.add_left_cancel heq ▸ List.mem_map_of_mem hv')
      exact (storeWords_of_notMem hout).trans (Function.update_self _ _ _)
    · exact ih hnodup' hw'

/-- What holds of every word that is written, and of every word before, holds afterwards. -/
theorem forall_storeWords {P : ℕ → ℕ → Prop} (hrecords : ∀ a, P a (records a))
    (hwords : ∀ w ∈ words, P (d_out + w.1) w.2) (a : ℕ) :
    P a (storeWords records d_out words a) := by
  induction words generalizing records with
  | nil => exact hrecords a
  | cons w words ih =>
    obtain ⟨hw, hones'⟩ := List.forall_mem_cons.1 hwords
    refine ih (fun b => ?_) hones'
    show P b (Function.update records (d_out + w.1) w.2 b)
    rcases eq_or_ne b (d_out + w.1) with rfl | hne
    · rwa [Function.update_self]
    · rw [Function.update_of_ne hne]
      exact hrecords b

/-- The places of the words of intervals. -/
theorem map_fst_wordsOf (l : List (ℕ × ℕ)) :
    (wordsOf l).map Prod.fst = List.range (2 * l.length) := by
  have hrange := map_range_two_mul (fun i => i) l.length
  rw [List.map_id', List.range_eq_range' (n := l.length), ← List.zipIdx_map_snd 0 l,
    List.flatMap_map] at hrange
  rw [hrange, wordsOf, List.map_flatMap]
  rfl

/-- The first intervals are those before a place and those from it on. -/
theorem intervalsAt_add (records : ℕ → ℕ) (n k : ℕ) : intervalsAt records (n + k) =
    intervalsAt records n ++ intervalsAt (fun i => records (2 * n + i)) k := by
  simp only [intervalsAt, List.range_add, List.map_append, List.map_map, Function.comp_def,
    Nat.mul_add, Nat.add_assoc]

@[simp] theorem length_intervalsAt (records : ℕ → ℕ) (n : ℕ) :
    (intervalsAt records n).length = n := by
  simp [intervalsAt]

/-- The intervals depend on their words only. -/
theorem intervalsAt_congr {records' : ℕ → ℕ} {n : ℕ} (h : ∀ a < 2 * n, records a = records' a) :
    intervalsAt records n = intervalsAt records' n := by
  refine List.map_congr_left fun i hi => ?_
  have hi' := List.mem_range.1 hi
  rw [h (2 * i) (by omega), h (2 * i + 1) (by omega)]

/-- The places of the words of intervals lie below their number. -/
theorem lt_of_mem_words {out : List (ℕ × ℕ)} (hperm : words.Perm (wordsOf out)) {w : ℕ × ℕ}
    (hw : w ∈ words) : w.1 < 2 * out.length := by
  have hmem := List.mem_map_of_mem (f := Prod.fst) (hperm.subset hw)
  rwa [map_fst_wordsOf, List.mem_range] at hmem

/-- After the words of intervals are written behind the first intervals, both are there. -/
theorem intervalsAt_storeWords (records : ℕ → ℕ) (n : ℕ) {out : List (ℕ × ℕ)}
    (hperm : words.Perm (wordsOf out)) :
    intervalsAt (storeWords records (2 * n) words) (n + out.length) =
      intervalsAt records n ++ out := by
  have hnodup : (words.map Prod.fst).Nodup := by
    rw [(hperm.map Prod.fst).nodup_iff, map_fst_wordsOf]
    exact List.nodup_range
  rw [intervalsAt_add]
  congr 1
  · refine intervalsAt_congr fun a ha => storeWords_of_notMem fun w _ => by omega
  · refine List.ext_getElem (by simp) fun i hi hi' => ?_
    have hmem : ∀ w ∈ [(2 * i, out[i].1), (2 * i + 1, out[i].2)], w ∈ words := fun w hw =>
      hperm.symm.subset (List.mem_flatMap.2 ⟨(out[i], i),
        List.mem_zipIdx_iff_getElem?.2 (List.getElem?_eq_getElem hi'), hw⟩)
    obtain ⟨hstart, hend, -⟩ := List.forall_mem_cons.1 hmem |>.imp_right List.forall_mem_cons.1
    simp only [intervalsAt, List.getElem_map, List.getElem_range]
    exact Prod.ext (storeWords_of_mem hnodup hstart) (storeWords_of_mem hnodup hend)

/-- After `n` intervals of a buffer have been merged into `items` ones: everything behind these is
as it was. -/
structure MergedUpTo (records : ℕ → ℕ) (n items : ℕ) (records' : ℕ → ℕ) : Prop where
  merges : Merges (intervalsAt records n) (intervalsAt records' items)
  unchanged : ∀ a, 2 * items ≤ a → records' a = records a

/-- Intervals that end before `2^63 - 1`, and not before they start. -/
structure Sweepable (records : ℕ → ℕ) (n : ℕ) : Prop where
  ordered : Ordered (intervalsAt records n)
  lt : ∀ e ∈ intervalsAt records n, e.2 < 2^63 - 1

/-- Proper intervals that end before `2^63 - 1`. -/
structure Mergeable (records : ℕ → ℕ) (n : ℕ) : Prop where
  proper : Proper (intervalsAt records n)
  lt : ∀ e ∈ intervalsAt records n, e.2 < 2^63 - 1

variable {c : Cub} {m n k items head_index : ℕ} {records' : ℕ → ℕ} {st : MergePass}

theorem MergedUpTo.items_le (h : MergedUpTo records n items records') : items ≤ n := by
  simpa using h.merges.length_le

/-- Intervals that are merged end no later than before. -/
theorem Sweepable.of_merges (h : Sweepable records n)
    (hmerges : Merges (intervalsAt records n) (intervalsAt records' k)) : Sweepable records' k where
  ordered := hmerges.ordered h.ordered
  lt e he := by
    obtain ⟨a, ha, hend⟩ := hmerges.exists_end e he
    exact hend ▸ h.lt a ha

/-- A tile is merged. -/
theorem MergedUpTo.tile (hc : c.Spec) (h : MergedUpTo records st.cur_index st.items st.records)
    (hsweepable : Sweepable records (st.cur_index + k)) (hk : k ≤ m)
    (hhead : st.cur_index + k ≤ 2^31) (hpos : 0 < k) :
    MergedUpTo records (st.cur_index + k) (mergeTile c (2 * m) (2 * k) st).items
      (mergeTile c (2 * m) (2 * k) st).records := by
  have hle := h.items_le
  -- The tile is read from where nothing has been written.
  have hread : intervalsAt (fun i => st.records (u32 (st.cur_index * 2) + i)) k =
      intervalsAt (fun i => records (2 * st.cur_index + i)) k := by
    refine intervalsAt_congr fun a _ => ?_
    rw [u32_of_lt (by omega), Nat.mul_comm]
    exact h.unchanged _ (by omega)
  have hsplit := intervalsAt_add records st.cur_index k
  have hordered : Ordered (intervalsAt (fun i => records (2 * st.cur_index + i)) k) := fun e he =>
    hsweepable.ordered e (hsplit ▸ List.mem_append_right _ he)
  obtain ⟨hwords, haggregate⟩ := intervalMergeImpl_eq hc hk (hread ▸ hordered) fun e he =>
    hsweepable.lt e (hsplit ▸ List.mem_append_right _ (hread ▸ he))
  rw [hread] at hwords haggregate
  have hmerges := merges_normalForm hordered
  generalize normalForm (intervalsAt (fun i => records (2 * st.cur_index + i)) k) = out at *
  have hlen : out.length ≤ k := by simpa using hmerges.length_le
  have hitems : (mergeTile c (2 * m) (2 * k) st).items = st.items + out.length := by
    simp only [mergeTile, haggregate]
    omega
  have hrecords : (mergeTile c (2 * m) (2 * k) st).records = storeWords st.records (2 * st.items)
      (intervalMergeImpl c (2 * m) (fun i => st.records (u32 (st.cur_index * 2) + i))
        (2 * k)).1 := by
    simp only [mergeTile]
    rw [u32_of_lt (by omega : st.items * 2 < 2^32), Nat.mul_comm]
  have hafter := intervalsAt_storeWords st.records st.items hwords
  rw [hitems, hrecords]
  constructor
  · rw [hafter, hsplit]
    exact h.merges.append hmerges
  · intro a ha
    refine (storeWords_of_notMem fun w hw => ?_).trans (h.unchanged a (by omega))
    have hlt := lt_of_mem_words hwords hw
    omega

/-- The first ones of such intervals. -/
theorem Sweepable.mono (h : Sweepable records n) (hk : k ≤ n) : Sweepable records k := by
  obtain ⟨j, rfl⟩ := Nat.exists_eq_add_of_le hk
  have hsplit := intervalsAt_add records k j
  exact ⟨fun e he => h.ordered e (hsplit ▸ List.mem_append_left _ he),
    fun e he => h.lt e (hsplit ▸ List.mem_append_left _ he)⟩

/-- What a turn does: it merges a full tile, or ends the loop when less than that is left. -/
theorem mergeTurn_eq (hsize : 2 * m < 2^32) (hcur : st.cur_index ≤ 2^31) :
    mergeTurn c (2 * m) head_index st =
      if st.cur_index + m ≤ head_index then
        .inl { mergeTile c (2 * m) (2 * m) st with cur_index := st.cur_index + m }
      else .inr st := by
  rw [mergeTurn, Nat.mul_div_cancel_left m (by decide), u32_of_lt (by omega)]

/-- The loop over the tiles that are full leaves less than a tile. -/
theorem exists_settles_mergeLoop (hc : c.Spec) (hm : 0 < m) (hsize : 2 * m < 2^32)
    (hsweepable : Sweepable records head_index) (hhead : head_index ≤ 2^31) :
    ∃ st, Settles (fun fuel => loop (mergeTurn c (2 * m) head_index) fuel ⟨0, 0, records⟩) st ∧
      (st.cur_index ≤ head_index ∧ MergedUpTo records st.cur_index st.items st.records) ∧
      head_index < st.cur_index + m := by
  refine exists_settles_loop (I := fun st : MergePass => st.cur_index ≤ head_index ∧
    MergedUpTo records st.cur_index st.items st.records) (fun st => head_index - st.cur_index)
    (fun st st' hst hturn => ?_) (fun st b hst hturn => ?_)
    ⟨Nat.zero_le _, .refl _, fun _ _ => rfl⟩
  · rw [mergeTurn_eq hsize (hst.1.trans hhead)] at hturn
    split_ifs at hturn with hfull
    obtain rfl := Sum.inl.inj hturn
    refine ⟨⟨hfull, hst.2.tile hc (hsweepable.mono hfull) le_rfl (hfull.trans hhead) hm⟩, ?_⟩
    simp only
    omega
  · rw [mergeTurn_eq hsize (hst.1.trans hhead)] at hturn
    split_ifs at hturn with hfull
    obtain rfl := Sum.inr.inj hturn
    exact ⟨hst, not_le.1 hfull⟩

/-- A pass merges all intervals of a buffer. -/
theorem exists_settles_mergePass (hc : c.Spec) (hm : 0 < m) (hsize : 2 * m < 2^32)
    (hsweepable : Sweepable records head_index) (hhead : head_index ≤ 2^31) :
    ∃ st, Settles (mergePass c (2 * m) head_index records) st ∧
      MergedUpTo records head_index st.items st.records := by
  obtain ⟨st, hsettles, ⟨hcur, hmerged⟩, hrest⟩ :=
    exists_settles_mergeLoop hc hm hsize hsweepable hhead
  refine ⟨_, hsettles.map _, ?_⟩
  split_ifs with hmore
  · -- The remainder is smaller than a tile.
    have hvalid : u32 (subU32 head_index st.cur_index * 2) = 2 * (head_index - st.cur_index) := by
      unfold subU32 u32
      omega
    have hlast := hmerged.tile (k := head_index - st.cur_index) (m := m) hc
      (hsweepable.mono (by omega)) (by omega) (by omega) (by omega)
    rwa [Nat.add_sub_cancel' hcur, ← hvalid] at hlast
  · rwa [show st.cur_index = head_index by omega] at hmerged

/-- The intervals of a buffer after a pass, up to the old length, are the merged ones and those
behind them, which were there before. -/
theorem MergedUpTo.merges_all (h : MergedUpTo records n items records') :
    Merges (intervalsAt records n) (intervalsAt records' n) := by
  obtain ⟨j, rfl⟩ := Nat.exists_eq_add_of_le h.items_le
  have hbefore := intervalsAt_add records items j
  have hafter : intervalsAt records' (items + j) =
      intervalsAt records' items ++ intervalsAt (fun i => records (2 * items + i)) j := by
    rw [intervalsAt_add]
    congr 1
    exact intervalsAt_congr fun a _ => h.unchanged _ (by omega)
  have hrest : ∀ e ∈ intervalsAt (fun i => records (2 * items + i)) j,
      e ∈ intervalsAt records (items + j) := fun e he => hbefore ▸ List.mem_append_right _ he
  rw [hafter]
  constructor
  · simp
  · exact fun ho => List.forall_mem_append.2 ⟨h.merges.ordered ho, fun e he => ho e (hrest e he)⟩
  · exact fun hp => List.forall_mem_append.2 ⟨h.merges.proper hp, fun e he => hp e (hrest e he)⟩
  · exact List.forall_mem_append.2 ⟨h.merges.exists_end, fun e he => ⟨e, hrest e he, rfl⟩⟩
  · intro x
    rw [covered_append, h.merges.covered x, hbefore, covered_append]
    tauto

/-- The merge of a buffer of at most `2^31` intervals that end before `2^63 - 1` ends, and its
intervals are merged, in one pass or in two. -/
theorem exists_settles_intervalMerge (hc : c.Spec) (hm : 0 < m) (hsize : 2 * m < 2^32)
    (buffer : IntervalBuffer) (hsweepable : Sweepable buffer.records buffer.head_index)
    (hhead : buffer.head_index ≤ 2^31) :
    ∃ buffer', Settles (intervalMerge c (2 * m) buffer) buffer' ∧
      Merges (intervalsAt buffer.records buffer.head_index)
        (intervalsAt buffer'.records buffer'.head_index) := by
  obtain ⟨st₁, hsettles₁, h₁⟩ := exists_settles_mergePass hc hm hsize hsweepable hhead
  by_cases hless : st₁.items < buffer.head_index
  · obtain ⟨st₂, hsettles₂, h₂⟩ := exists_settles_mergePass hc hm hsize
      (hsweepable.of_merges h₁.merges_all) hhead
    refine ⟨⟨st₂.items, st₂.items, st₂.records⟩, hsettles₁.bind ?_,
      h₁.merges_all.trans h₂.merges⟩
    simp only [if_pos hless]
    exact hsettles₂.map _
  · refine ⟨⟨st₁.items, st₁.items, st₁.records⟩, hsettles₁.bind ?_, h₁.merges⟩
    simp only [if_neg hless]
    exact settles_const rfl

/-- The merge of a buffer of at most `2^31` proper intervals that end before `2^63 - 1` ends, the
buffer is no longer than before, its intervals are proper, and they cover the same points. -/
theorem intervalMerge_coverage (hc : c.Spec) (hm : 0 < m) (hsize : 2 * m < 2^32)
    (buffer : IntervalBuffer) (hmergeable : Mergeable buffer.records buffer.head_index)
    (hhead : buffer.head_index ≤ 2^31) :
    ∃ buffer', Settles (intervalMerge c (2 * m) buffer) buffer' ∧
      buffer'.head_index ≤ buffer.head_index ∧
      Proper (intervalsAt buffer'.records buffer'.head_index) ∧
      ∀ x, Covered (intervalsAt buffer'.records buffer'.head_index) x ↔
        Covered (intervalsAt buffer.records buffer.head_index) x := by
  obtain ⟨buffer', hsettles, hmerges⟩ := exists_settles_intervalMerge hc hm hsize buffer
    ⟨hmergeable.proper.ordered, hmergeable.lt⟩ hhead
  have hlen := hmerges.length_le
  rw [length_intervalsAt, length_intervalsAt] at hlen
  exact ⟨buffer', hsettles, hlen, hmerges.proper hmergeable.proper, hmerges.covered⟩

/-- A buffer with three intervals, of which the last one joins the others. -/
def threeBuffer : IntervalBuffer := ⟨3, 3, threeIntervals⟩

/-- The merge of the three intervals in tiles of two, with a second pass. -/
theorem intervalMerge_threeBuffer : ∃ buffer',
    Settles (intervalMerge Cub.sequential (2 * 2) threeBuffer) buffer' ∧
      buffer'.head_index ≤ 3 ∧ Proper (intervalsAt buffer'.records buffer'.head_index) ∧
      ∀ x, Covered (intervalsAt buffer'.records buffer'.head_index) x ↔
        Covered (intervalsAt threeIntervals 3) x :=
  intervalMerge_coverage Cub.sequential_spec (by decide) (by decide) threeBuffer
    ⟨by unfold Proper; decide, by decide⟩ (by decide)

/-- A pass that ends within some turns settles. -/
theorem settles_mergePass {tile_size fuel : ℕ}
    (h : mergePass c tile_size head_index records fuel = some st) :
    Settles (mergePass c tile_size head_index records) st := by
  obtain ⟨st', hloop, rfl⟩ := Option.map_eq_some_iff.1 h
  exact Settles.map ⟨fuel, fun _ hfuel => loop_mono hfuel hloop⟩ _

/-- Two intervals, the first of which ends at `2^63 - 1`. -/
def sentinelBuffer : IntervalBuffer := ⟨2, 2, fun i => [2^63 - 5, 2^63 - 1, 4, 8].getD i 0⟩

/-- The end at `2^63 - 1` is lost, and its start gets the old end of the second interval. -/
theorem settles_sentinelBuffer : ∃ buffer',
    Settles (intervalMerge Cub.sequential (2 * 2) sentinelBuffer) buffer' ∧
      intervalsAt buffer'.records buffer'.head_index = [(4, 8), (2^63 - 5, 8)] := by
  obtain ⟨st, hpass, hfacts⟩ := Option.map_eq_some_iff.1
    (show (mergePass Cub.sequential (2 * 2) 2 sentinelBuffer.records 2).map
      (fun st => (st.items, intervalsAt st.records st.items)) =
      some (2, [(4, 8), (2^63 - 5, 8)]) by decide +kernel)
  simp only [Prod.mk.injEq] at hfacts
  obtain ⟨hitems, hintervals⟩ := hfacts
  refine ⟨⟨st.items, st.items, st.records⟩, (settles_mergePass hpass).bind ?_, hintervals⟩
  simp only [if_neg (show ¬st.items < sentinelBuffer.head_index by rw [hitems]; decide)]
  exact settles_const rfl

/-- Words at even places are starts at `1`, words at odd places ends at `2`. -/
def AllOneTwo (records : ℕ → ℕ) : Prop := ∀ a < 2^32, records a = 1 + a % 2

/-- A tile that is read from such words is merged into one interval. -/
theorem AllOneTwo.tile (hc : c.Spec) (hones : AllOneTwo st.records) {t : ℕ} (ht : t ≤ 2^20)
    (hcur : st.cur_index = t * 2048) (hitems : st.items ≤ t) :
    (mergeTile c (2 * 2048) (2 * 2048) st).items = st.items + 1 ∧
      AllOneTwo (mergeTile c (2 * 2048) (2 * 2048) st).records := by
  have hbase : u32 (st.cur_index * 2) % 2 = 0 ∧ u32 (st.cur_index * 2) + 2 * 2048 ≤ 2^32 := by
    unfold u32
    omega
  have hread : ∀ e ∈ intervalsAt (fun i => st.records (u32 (st.cur_index * 2) + i)) 2048,
      e = (1, 2) := by
    intro e he
    obtain ⟨i, hi, rfl⟩ := List.mem_map.1 he
    have hi' := List.mem_range.1 hi
    have hstart := hones (u32 (st.cur_index * 2) + 2 * i) (by omega)
    have hend := hones (u32 (st.cur_index * 2) + (2 * i + 1)) (by omega)
    exact Prod.ext (hstart.trans (by omega)) (hend.trans (by omega))
  have hproper : Proper (intervalsAt (fun i => st.records (u32 (st.cur_index * 2) + i)) 2048) :=
    fun e he => by rw [hread e he]; decide
  obtain ⟨hwords, haggregate⟩ :=
    intervalMergeImpl_eq hc le_rfl hproper.ordered fun e he => by rw [hread e he]; decide
  have hmerges := merges_normalForm hproper.ordered
  have hout : normalForm (intervalsAt (fun i => st.records (u32 (st.cur_index * 2) + i)) 2048) =
      [(1, 2)] := by
    refine (separated_normalForm hproper.ordered).eq_singleton (hmerges.proper hproper)
      (by decide) fun x => (hmerges.covered x).trans ⟨?_, ?_⟩
    · rintro ⟨e, he, hx⟩
      rwa [hread e he] at hx
    · intro hx
      have hfirst := List.mem_map_of_mem (f := fun i =>
        (st.records (u32 (st.cur_index * 2) + 2 * i),
          st.records (u32 (st.cur_index * 2) + (2 * i + 1))))
        (List.mem_range.2 (by decide : 0 < 2048))
      exact ⟨_, hfirst, by rwa [hread _ hfirst]⟩
  rw [hout] at hwords haggregate
  constructor
  · simp only [mergeTile, haggregate]
    rw [List.length_singleton]
    omega
  · -- The two words that are written are those of one more interval from `1` up to `2`.
    refine forall_storeWords (P := fun a v => a < 2^32 → v = 1 + a % 2) hones fun w hw _ => ?_
    have hcases : w = (0, 1) ∨ w = (1, 2) := by simpa [wordsOf] using hwords.subset hw
    unfold u32
    rcases hcases with rfl | rfl <;> omega

/-- A pass over `2^31 + 2048` intervals does not read the last tile: twice its index wraps around to
the start of the buffer. -/
theorem exists_settles_mergePass_wrapped (hc : c.Spec) (hones : AllOneTwo records) :
    ∃ st, Settles (mergePass c (2 * 2048) (2^31 + 2048) records) st ∧ st.items ≤ 2^20 + 1 ∧
      AllOneTwo st.records := by
  obtain ⟨st, hsettles, hst, hend⟩ : ∃ st,
      Settles (fun fuel => loop (mergeTurn c (2 * 2048) (2^31 + 2048)) fuel ⟨0, 0, records⟩) st ∧
        (st.items ≤ 2^20 + 1 ∧ AllOneTwo st.records) ∧ st.cur_index = 2^31 + 2048 := by
    refine exists_settles_loop (I := fun st : MergePass => ∃ t ≤ 2^20 + 1,
      st.cur_index = t * 2048 ∧ st.items ≤ t ∧ AllOneTwo st.records)
      (fun st => 2^31 + 2048 - st.cur_index) (fun st st' hst hturn => ?_)
      (fun st b hst hturn => ?_) ⟨0, Nat.zero_le _, rfl, le_rfl, hones⟩
    · obtain ⟨t, ht, hcur, hitems, hones⟩ := hst
      unfold mergeTurn at hturn
      rw [Nat.mul_div_cancel_left 2048 (by decide), u32_of_lt (by omega)] at hturn
      split_ifs at hturn with hfull
      obtain rfl := Sum.inl.inj hturn
      obtain ⟨hitems', hones'⟩ := hones.tile hc (by omega) hcur hitems
      refine ⟨⟨t + 1, by omega, ?_, ?_, hones'⟩, ?_⟩
      · simp only
        omega
      · simp only [hitems']
        omega
      · simp only
        omega
    · obtain ⟨t, ht, hcur, hitems, hones⟩ := hst
      unfold mergeTurn at hturn
      rw [Nat.mul_div_cancel_left 2048 (by decide), u32_of_lt (by omega)] at hturn
      split_ifs at hturn with hfull
      obtain rfl := Sum.inr.inj hturn
      exact ⟨⟨by omega, hones⟩, by omega⟩
  refine ⟨_, hsettles.map _, ?_⟩
  rwa [if_neg (by omega)]

/-- `2^31` intervals from `1` up to `2`, and a last tile of other ones. -/
def wrappedBuffer : IntervalBuffer where
  head_index := 2^31 + 2048
  tail_index := 2^31 + 2048
  records a := if a < 2^32 then 1 + a % 2 else 5 + a % 2

/-- The last tile is lost: no interval that is left ends behind `2`. -/
theorem settles_wrappedBuffer (hc : c.Spec) : ∃ buffer',
    Settles (intervalMerge c (2 * 2048) wrappedBuffer) buffer' ∧
      ∀ e ∈ intervalsAt buffer'.records buffer'.head_index, e.2 ≤ 2 := by
  have hones : AllOneTwo wrappedBuffer.records := fun a ha => if_pos ha
  obtain ⟨st₁, hsettles₁, hitems₁, hones₁⟩ := exists_settles_mergePass_wrapped hc hones
  obtain ⟨st₂, hsettles₂, hitems₂, hones₂⟩ := exists_settles_mergePass_wrapped hc hones₁
  refine ⟨⟨st₂.items, st₂.items, st₂.records⟩, hsettles₁.bind ?_, ?_⟩
  · have hless : st₁.items < wrappedBuffer.head_index :=
      hitems₁.trans_lt (by decide : 2^20 + 1 < 2^31 + 2048)
    simp only [if_pos hless]
    exact hsettles₂.map _
  · intro e he
    obtain ⟨i, hi, rfl⟩ := List.mem_map.1 he
    have hi' := List.mem_range.1 hi
    have hend := hones₂ (2 * i + 1) (by simp only at hi'; omega)
    simp only
    omega

/-- The merge may lose an end at `2^63 - 1`, and a tile whose index is `2^31` or more. -/
theorem not_intervalMerge_coverage :
    (¬∀ (c : Cub) (m : ℕ) (buffer : IntervalBuffer), c.Spec → 0 < m → 2 * m < 2^32 →
      Proper (intervalsAt buffer.records buffer.head_index) →
      (∀ e ∈ intervalsAt buffer.records buffer.head_index, e.2 < 2^63) →
      buffer.head_index ≤ 2^31 →
      ∃ buffer', Settles (intervalMerge c (2 * m) buffer) buffer' ∧
        buffer'.head_index ≤ buffer.head_index ∧
        Proper (intervalsAt buffer'.records buffer'.head_index) ∧
        ∀ x, Covered (intervalsAt buffer'.records buffer'.head_index) x ↔
          Covered (intervalsAt buffer.records buffer.head_index) x) ∧
    ¬∀ (c : Cub) (m : ℕ) (buffer : IntervalBuffer), c.Spec → 0 < m → 2 * m < 2^32 →
      Mergeable buffer.records buffer.head_index → buffer.head_index < 2^32 →
      ∃ buffer', Settles (intervalMerge c (2 * m) buffer) buffer' ∧
        buffer'.head_index ≤ buffer.head_index ∧
        Proper (intervalsAt buffer'.records buffer'.head_index) ∧
        ∀ x, Covered (intervalsAt buffer'.records buffer'.head_index) x ↔
          Covered (intervalsAt buffer.records buffer.head_index) x := by
  constructor
  · intro h
    obtain ⟨buffer', hsettles, -, hproper, -⟩ := h Cub.sequential 2 sentinelBuffer
      Cub.sequential_spec (by decide) (by decide) (by unfold Proper; decide) (by decide) (by decide)
    obtain ⟨buffer₁, hsettles₁, hintervals⟩ := settles_sentinelBuffer
    obtain rfl := hsettles.unique hsettles₁
    rw [hintervals] at hproper
    exact absurd (hproper (2^63 - 5, 8) (by simp)) (by decide)
  · intro h
    have hmergeable : Mergeable wrappedBuffer.records wrappedBuffer.head_index := by
      constructor
      all_goals
        intro e he
        obtain ⟨i, -, rfl⟩ := List.mem_map.1 he
        simp only [wrappedBuffer]
        split_ifs <;> omega
    obtain ⟨buffer', hsettles, -, -, hcovered⟩ := h Cub.sequential 2048 wrappedBuffer
      Cub.sequential_spec (by decide) (by decide) hmergeable (by decide)
    obtain ⟨buffer₁, hsettles₁, hlost⟩ := settles_wrappedBuffer Cub.sequential_spec
    obtain rfl := hsettles.unique hsettles₁
    -- The first interval of the last tile covers `5`.
    obtain ⟨e, he, hle, hlt⟩ := (hcovered 5).2 ⟨_, List.mem_map_of_mem (List.mem_range.2
      (show 2^31 < wrappedBuffer.head_index by decide)), by decide, by decide⟩
    have hend := hlost e he
    omega

end TenProf
