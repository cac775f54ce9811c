import TenProf.Library.PriorityQueue
import TenProf.Redundancy.Temporal

/-!
# The views that are recorded

`record_temporal_trace` and `record_spatial_trace` choose the views that are reported to a user:
each candidate is offered to a queue of `pc_views_limit` views whose top has the smallest count, and
the views that are left are written to `record_data`. Which of several views with one count is on
the top is up to the library, and so is a parameter here. The index of the entries, `num_views`, is
an `int`, and what is done when it overflows is not defined: then there is no `record_data`.
-/

namespace TenProf.Redundancy

open Binutils

/-- `redshow_record_view_t`, less the members that are not assigned or not read. -/
structure RecordView where
  pc_offset : ℕ
  memory_op_id : ℕ
  red_count : ℕ
  access_count : ℕ
  deriving DecidableEq, Repr

/-- `CompareView`. -/
def compareView (r1 r2 : RecordView) : Prop := r1.red_count > r2.red_count

/-- `TopViews`. -/
abbrev TopViews := PriorityQueue RecordView compareView

/-- `RealPCPair`, with the `pc_offset` of each pc, the other members of which are 0 here. The source
leaves `from_pc` open where it has none. -/
structure RealPCPair where
  to_pc : ℕ
  from_pc : Option ℕ
  value : ℕ
  access_kind : AccessKind
  red_count : ℕ
  access_count : ℕ
  deriving DecidableEq, Repr

/-- `CompareRealPCPair`. -/
def compareRealPCPair (r1 r2 : RealPCPair) : Prop := r1.red_count > r2.red_count

/-- `TopRealPCPairs`. -/
abbrev TopRealPCPairs := PriorityQueue RealPCPair compareRealPCPair

/-- The members that are assigned to an entry of `record_data.views`. -/
structure ViewEntry where
  pc_offset : ℕ
  red_count : ℕ
  access_count : ℕ
  deriving DecidableEq, Repr

/-- What is assigned to `record_data`: `num_views`, and the entries of `views` with their indices in
the order of the assignments. -/
structure RecordData where
  num_views : ℕ
  views : List (ℤ × ViewEntry)
  deriving DecidableEq, Repr

/-- The loop over the candidates: the count of the kernel, and the queue. -/
def selectViews (Q : TopViews) (pc_views_limit kernel_count : ℕ) (views : List RecordView) :
    Option (ℕ × Q.Queue) :=
  views.foldlM (fun st view =>
    (Q.offer RecordView.red_count pc_views_limit st.2 view).map fun top_views =>
      (u64 (st.1 + view.red_count), top_views)) (kernel_count, Q.empty)

/-- The assignments to the entries in the loop over the views, with `num_views` at its end. -/
def fillViews (num_views : ℤ) : List RecordView → Option (List (ℤ × ViewEntry) × ℤ)
  | [] => some ([], num_views)
  | view :: views =>
    (intSucc num_views).bind fun next =>
      (fillViews next views).map fun filled =>
        ((num_views, ⟨view.pc_offset, view.red_count, view.access_count⟩) :: filled.1, filled.2)

/-- `record_data` after the loop. -/
def recordViews (views : List RecordView) : Option RecordData :=
  (fillViews 0 views).map fun filled => ⟨u32 (u64OfInt filled.2), filled.1⟩

/-- The pairs with the largest counts, in the order in which they leave the queue. -/
def topPairs (P : TopRealPCPairs) (mem_views_limit : ℕ) (pairs : List RealPCPair) :
    Option (List RealPCPair) :=
  (P.offerAll RealPCPair.red_count mem_views_limit pairs).map P.drain

/-- What a trace is recorded as: the statistics, `record_data`, unless `num_views` overflows, and
the count of the kernel; and the views that are taken from the queue. -/
structure Recorded (σ : Type*) where
  stats : σ
  record_data : Option RecordData
  kernel_count : ℕ
  reported : List RecordView

/-- The body that `record_temporal_trace` and `record_spatial_trace` have in common, with the
candidates and what is done to the statistics for the details of a view. The loop over the views in
the queue is done twice, since the details and `record_data` do not look at each other. -/
def recordTrace {σ : Type} (Q : TopViews) (pc_views_limit kernel_count : ℕ)
    (views : List RecordView) (details : σ → RecordView → Option σ) (stats : σ) :
    Option (Recorded σ) :=
  (selectViews Q pc_views_limit kernel_count views).bind fun selected =>
    let top_views := Q.drain selected.2
    (top_views.foldlM details stats).map fun stats =>
      ⟨stats, recordViews top_views, selected.1, top_views⟩

/-! ## Temporal redundancy -/

/-- `TemporalStatistics`. -/
abbrev TemporalStatistics := OrderedMap ℕ (List RealPCPair)

/-- The candidate of a pc. -/
def temporalView (pc_access_count : PCAccessCount)
    (to_pc_iter : ℕ × OrderedMap ℕ (OrderedMap (ℕ ×ₗ AccessKind) ℕ)) : RecordView where
  pc_offset := to_pc_iter.1
  memory_op_id := 0
  red_count := to_pc_iter.2.toList.foldl (fun red_count from_pc_iter =>
    from_pc_iter.2.toList.foldl (fun red_count val_iter => u64 (red_count + val_iter.2))
      red_count) 0
  access_count := pc_access_count.findD to_pc_iter.1 0

/-- The candidates of `record_temporal_trace`. -/
def temporalViews (pc_pairs : PCPairs) (pc_access_count : PCAccessCount) : List RecordView :=
  pc_pairs.toList.map (temporalView pc_access_count)

/-- The pairs of a view. -/
def temporalPairs (pc_pairs : PCPairs) (view : RecordView) : List RealPCPair :=
  (pc_pairs.findD view.pc_offset ∅).toList.flatMap fun from_pc_iter =>
    from_pc_iter.2.toList.map fun val_iter =>
      { to_pc := view.pc_offset
        from_pc := some from_pc_iter.1
        value := (ofLex val_iter.1).1
        access_kind := (ofLex val_iter.1).2
        red_count := val_iter.2
        access_count := view.access_count }

/-- The details of a view. -/
def temporalDetails (P : TopRealPCPairs) (mem_views_limit : ℕ) (pc_pairs : PCPairs)
    (temporal_stats : TemporalStatistics) (view : RecordView) : Option TemporalStatistics :=
  if mem_views_limit ≠ 0 then
    (topPairs P mem_views_limit (temporalPairs pc_pairs view)).map fun pairs =>
      pairs.foldl (fun stats pair => stats.update view.pc_offset [] (· ++ [pair])) temporal_stats
  else some temporal_stats

/-- `record_temporal_trace`. -/
def recordTemporalTrace (Q : TopViews) (P : TopRealPCPairs) (pc_views_limit mem_views_limit : ℕ)
    (pc_pairs : PCPairs) (pc_access_count : PCAccessCount) (temporal_stats : TemporalStatistics)
    (kernel_temporal_count : ℕ) : Option (Recorded TemporalStatistics) :=
  recordTrace Q pc_views_limit kernel_temporal_count (temporalViews pc_pairs pc_access_count)
    (temporalDetails P mem_views_limit pc_pairs) temporal_stats

/-! ## Spatial redundancy -/

/-- `SpatialTrace`. -/
abbrev SpatialTrace := OrderedMap (ℕ ×ₗ AccessKind) (OrderedMap ℕ (OrderedMap ℕ ℕ))

/-- `SpatialStatistics`. -/
abbrev SpatialStatistics := OrderedMap ℕ (OrderedMap ℕ (List RealPCPair))

/-- `max_count`, an `int`, while the counts are unsigned. -/
def maxCount (values : OrderedMap ℕ ℕ) : ℤ :=
  values.toList.foldl (fun max_count val_iter =>
    i32 (if val_iter.2 > u64OfInt max_count then val_iter.2 else u64OfInt max_count : ℕ)) 0

/-- The candidates of an object and a kind. -/
def spatialView (pc_access_count : PCAccessCount)
    (memory_iter : (ℕ ×ₗ AccessKind) × OrderedMap ℕ (OrderedMap ℕ ℕ)) : List RecordView :=
  memory_iter.2.toList.map fun pc_iter =>
    { pc_offset := pc_iter.1
      memory_op_id := (ofLex memory_iter.1).1
      red_count := u64OfInt (maxCount pc_iter.2)
      access_count := pc_access_count.findD pc_iter.1 0 }

/-- The candidates of `record_spatial_trace`. -/
def spatialViews (spatial_trace : SpatialTrace) (pc_access_count : PCAccessCount) :
    List RecordView :=
  spatial_trace.toList.flatMap (spatialView pc_access_count)

/-- The pairs of a view with a kind. The source looks the pc up with `operator[]`, which leaves an
empty map for a pc that the kind has not, and so no pairs either. -/
def spatialPairs (view : RecordView) (akind : AccessKind) (pcs : OrderedMap ℕ (OrderedMap ℕ ℕ)) :
    List RealPCPair :=
  (pcs.findD view.pc_offset ∅).toList.map fun val_iter =>
    { to_pc := view.pc_offset
      from_pc := none
      value := val_iter.1
      access_kind := akind
      red_count := val_iter.2
      access_count := view.access_count }

/-- `spatial_stats[memory_op_id][pc].push_back(top)`. -/
def pushPair (view : RecordView) (spatial_stats : SpatialStatistics) (pair : RealPCPair) :
    SpatialStatistics :=
  spatial_stats.update view.memory_op_id ∅ fun pcs => pcs.update view.pc_offset [] (· ++ [pair])

/-- The details of a view. -/
def spatialDetails (P : TopRealPCPairs) (mem_views_limit : ℕ) (spatial_trace : SpatialTrace)
    (spatial_stats : SpatialStatistics) (view : RecordView) : Option SpatialStatistics :=
  if mem_views_limit ≠ 0 then
    spatial_trace.toList.foldlM (fun stats memory_iter =>
      if (ofLex memory_iter.1).1 ≠ view.memory_op_id then some stats
      else
        (topPairs P mem_views_limit
          (spatialPairs view (ofLex memory_iter.1).2 memory_iter.2)).map fun pairs =>
            pairs.foldl (pushPair view) stats) spatial_stats
  else some spatial_stats

/-- `record_spatial_trace`. -/
def recordSpatialTrace (Q : TopViews) (P : TopRealPCPairs) (pc_views_limit mem_views_limit : ℕ)
    (spatial_trace : SpatialTrace) (pc_access_count : PCAccessCount)
    (spatial_stats : SpatialStatistics) (kernel_spatial_count : ℕ) :
    Option (Recorded SpatialStatistics) :=
  recordTrace Q pc_views_limit kernel_spatial_count (spatialViews spatial_trace pc_access_count)
    (spatialDetails P mem_views_limit spatial_trace) spatial_stats

/-! ## The views that are reported -/

/-- What `record_data` should be for some candidates: its entries are filled one by one, as many as
the limit allows, none of the others has a larger count, and the count of the kernel is the sum of
the counts of all candidates. -/
structure ReportsLargest (pc_views_limit : ℕ) (views : List RecordView) (record_data : RecordData)
    (kernel_count : ℕ) : Prop where
  num_views_eq : record_data.num_views = min pc_views_limit views.length
  filled : record_data.views.map Prod.fst =
    (List.range (min pc_views_limit views.length)).map Nat.cast
  in_bounds : ∀ e ∈ record_data.views, 0 ≤ e.1 ∧ e.1 < pc_views_limit
  largest : ∃ rest : Multiset ℕ,
    ((record_data.views.map fun e => e.2.red_count : List ℕ) : Multiset ℕ) + rest =
      views.map RecordView.red_count ∧
    ∀ e ∈ record_data.views, ∀ count ∈ rest, count ≤ e.2.red_count
  kernel_count_eq : kernel_count = u64 (views.map RecordView.red_count).sum

/-- A trace is recorded, and reported as it should be. -/
def Reports {σ : Type} (pc_views_limit : ℕ) (views : List RecordView)
    (recorded : Option (Recorded σ)) : Prop :=
  ∃ r record_data, recorded = some r ∧ r.record_data = some record_data ∧
    ReportsLargest pc_views_limit views record_data r.kernel_count

theorem respects_compareView : PriorityQueue.Respects compareView RecordView.red_count :=
  ⟨id, Nat.le_of_lt⟩

theorem respects_compareRealPCPair :
    PriorityQueue.Respects compareRealPCPair RealPCPair.red_count :=
  ⟨id, Nat.le_of_lt⟩

/-- A sum of words is the word of the sum. -/
theorem foldl_u64_add {α : Type*} (f : α → ℕ) (l : List α) (n : ℕ) :
    l.foldl (fun n a => u64 (n + f a)) (u64 n) = u64 (n + (l.map f).sum) := by
  induction l generalizing n with
  | nil => rfl
  | cons a l ih =>
    have hstep : u64 (u64 n + f a) = u64 (n + f a) := by
      unfold u64
      rw [Nat.mod_add_mod]
    rw [List.foldl_cons, hstep, ih, List.map_cons, List.sum_cons, Nat.add_assoc]

/-- The loop over the candidates does two things that do not look at each other. -/
theorem selectViews_eq (Q : TopViews) (limit n : ℕ) (views : List RecordView) :
    selectViews Q limit (u64 n) views =
      (Q.offerAll RecordView.red_count limit views).map fun q =>
        (u64 (n + (views.map RecordView.red_count).sum), q) := by
  unfold selectViews PriorityQueue.offerAll
  rw [← foldl_u64_add]
  generalize u64 n = count
  generalize Q.empty = q
  induction views generalizing count q with
  | nil => rfl
  | cons view views ih =>
    rw [List.foldlM_cons, List.foldlM_cons]
    show Option.bind _ _ = Option.map _ (Option.bind _ _)
    rw [Option.bind_map, Option.map_bind]
    exact Option.bind_congr fun q' _ => ih _ q'

/-- The entries are numbered as long as an `int` can count them. -/
theorem fillViews_eq (views : List RecordView) {n : ℤ} (hn : n < 2^31) :
    fillViews n views = if n + views.length < 2^31 then
      some (views.zipIdx.map fun e =>
        (n + e.2, ⟨e.1.pc_offset, e.1.red_count, e.1.access_count⟩), n + views.length)
    else none := by
  induction views generalizing n with
  | nil =>
    rw [List.length_nil, Nat.cast_zero, Int.add_zero, if_pos hn]
    rfl
  | cons view views ih =>
    unfold fillViews intSucc
    have hlength : n + ((view :: views).length : ℤ) = n + 1 + views.length := by
      rw [List.length_cons]
      push_cast
      ring
    rw [hlength]
    -- `num_views` is counted up behind each view, behind the last one too.
    by_cases hnext : n + 1 < 2^31
    · rw [if_pos hnext, Option.bind_some, ih hnext]
      split_ifs with hfits
      · have hnumber : ∀ i : ℕ, n + 1 + (i : ℤ) = n + ((i + 1 : ℕ) : ℤ) := fun i => by
          push_cast
          ring
        rw [Option.map_some, List.zipIdx_cons, List.map_cons, List.zipIdx_succ, List.map_map]
        simp only [Function.comp_def, hnumber, Nat.cast_zero, Int.add_zero]
      · rfl
    · rw [if_neg hnext, Option.bind_none, if_neg]
      omega

/-- What is assigned for as many views as an `int` can count. -/
theorem recordViews_eq (views : List RecordView) :
    recordViews views = if views.length < 2^31 then
      some ⟨views.length, views.zipIdx.map fun e =>
        ((e.2 : ℤ), ⟨e.1.pc_offset, e.1.red_count, e.1.access_count⟩)⟩
    else none := by
  unfold recordViews
  rw [fillViews_eq views (by norm_num)]
  simp only [Int.zero_add]
  by_cases hfits : views.length < 2^31
  · rw [if_pos hfits, if_pos (by omega), Option.map_some]
    congr 2
    unfold u32 u64OfInt
    omega
  · rw [if_neg hfits, if_neg (by omega)]
    rfl

/-- The views that a queue ends with are reported as they should be exactly when an `int` can count
them. -/
theorem reportsLargest_iff {Q : TopViews} {limit : ℕ} (hlimit : 1 ≤ limit)
    {views : List RecordView} {q : Q.Queue}
    (hrun : Q.offerAll RecordView.red_count limit views = some q) :
    (∃ record_data, recordViews (Q.drain q) = some record_data ∧
      ReportsLargest limit views record_data (u64 (views.map RecordView.red_count).sum)) ↔
        min limit views.length < 2^31 := by
  obtain ⟨q', rest, hrun', hsplit, hcard, hle⟩ :=
    Q.exists_largest respects_compareView hlimit views
  obtain rfl : q = q' := Option.some.inj (hrun.symm.trans hrun')
  have hlen : (Q.drain q).length = min limit views.length := by
    rw [← hcard, ← Q.coe_drain, Multiset.coe_card]
  rw [recordViews_eq, hlen]
  split_ifs with hfits
  · refine iff_of_true ⟨_, rfl, ?_⟩ hfits
    have hcounts : ((Q.drain q).zipIdx.map fun e => e.1.red_count) =
        (Q.drain q).map RecordView.red_count := by
      conv_rhs => rw [← List.zipIdx_map_fst 0 (Q.drain q), List.map_map]
      rfl
    -- What is assigned are the views that the queue drains, numbered from zero.
    refine ⟨rfl, ?_, fun e he => ?_, ⟨rest.map RecordView.red_count, ?_, ?_⟩, rfl⟩
    · dsimp only
      rw [List.map_map, ← hlen, List.range_eq_range', ← List.zipIdx_map_snd 0 (Q.drain q),
        List.map_map]
      rfl
    · obtain ⟨view, hview, rfl⟩ := List.mem_map.1 he
      have hlt := List.snd_lt_of_mem_zipIdx hview
      dsimp only
      omega
    · dsimp only
      rw [List.map_map, ← Multiset.map_coe RecordView.red_count views, ← hsplit, Multiset.map_add,
        ← Q.coe_drain, Multiset.map_coe]
      congr 2
    · intro e he count hcount
      obtain ⟨b, hb, rfl⟩ := Multiset.mem_map.1 hcount
      obtain ⟨a, ha, rfl⟩ := List.mem_map.1 he
      refine hle a.1 ?_ b hb
      rw [← Q.coe_drain]
      exact List.fst_mem_of_mem_zipIdx ha
  · exact iff_of_false (by simp) hfits

/-- A queue for the pairs always has a result. -/
theorem exists_topPairs (P : TopRealPCPairs) {limit : ℕ} (hlimit : limit ≠ 0)
    (pairs : List RealPCPair) :
    ∃ top, topPairs P limit pairs = some top ∧ top.length = min limit pairs.length ∧
      ∃ rest : Multiset RealPCPair, (top : Multiset RealPCPair) + rest = pairs ∧
        ∀ a ∈ top, ∀ b ∈ rest, b.red_count ≤ a.red_count := by
  obtain ⟨q, rest, hrun, hsplit, hcard, hle⟩ :=
    P.exists_largest respects_compareRealPCPair (Nat.pos_of_ne_zero hlimit) pairs
  refine ⟨P.drain q, ?_, ?_, rest, ?_, fun a ha b hb => ?_⟩
  · unfold topPairs
    rw [hrun]
    rfl
  · rw [← hcard, ← P.coe_drain, Multiset.coe_card]
  · rw [P.coe_drain, hsplit]
  · exact hle a (by rwa [← P.coe_drain]) b hb

/-- The details of a view with temporal redundancy have a result. -/
theorem temporalDetails_isSome (P : TopRealPCPairs) (limit : ℕ) (pc_pairs : PCPairs)
    (stats : TemporalStatistics) (view : RecordView) :
    (temporalDetails P limit pc_pairs stats view).isSome := by
  unfold temporalDetails
  split_ifs with hlimit
  · obtain ⟨top, htop, -⟩ := exists_topPairs P hlimit (temporalPairs pc_pairs view)
    rw [htop]
    rfl
  · rfl

/-- The details of a view with spatial redundancy have a result. -/
theorem spatialDetails_isSome (P : TopRealPCPairs) (limit : ℕ) (spatial_trace : SpatialTrace)
    (stats : SpatialStatistics) (view : RecordView) :
    (spatialDetails P limit spatial_trace stats view).isSome := by
  unfold spatialDetails
  split_ifs with hlimit
  · refine foldlM_isSome (I := fun _ => True) (fun _ _ _ _ _ _ => trivial) ?_ trivial
    intro stats memory_iter _ _
    split_ifs with hobject
    · rfl
    · obtain ⟨top, htop, -⟩ :=
        exists_topPairs P hlimit (spatialPairs view (ofLex memory_iter.1).2 memory_iter.2)
      rw [htop]
      rfl
  · rfl

section RecordTrace

variable {σ : Type} {details : σ → RecordView → Option σ}

/-- A trace is recorded with the views that the queue ends with. -/
theorem exists_recordTrace (Q : TopViews) {limit : ℕ} (hlimit : 1 ≤ limit)
    (hdetails : ∀ stats view, (details stats view).isSome) (views : List RecordView) (stats : σ) :
    ∃ q stats', Q.offerAll RecordView.red_count limit views = some q ∧
      (Q.drain q).foldlM details stats = some stats' ∧
      recordTrace Q limit 0 views details stats =
        some ⟨stats', recordViews (Q.drain q), u64 (views.map RecordView.red_count).sum,
          Q.drain q⟩ := by
  obtain ⟨q, -, hrun, -⟩ := Q.exists_largest respects_compareView hlimit views
  have hselect := selectViews_eq Q limit 0 views
  rw [hrun, Nat.zero_add] at hselect
  obtain ⟨stats', hstats⟩ := Option.isSome_iff_exists.1
    (foldlM_isSome (I := fun _ : σ => True) (fun _ _ _ _ _ _ => trivial)
      (fun stats view _ (_ : view ∈ Q.drain q) => hdetails stats view)
      (trivial : (fun _ => True) stats))
  refine ⟨q, stats', hrun, hstats, ?_⟩
  unfold recordTrace
  rw [show selectViews Q limit 0 views = _ from hselect, Option.map_some, Option.bind_some]
  dsimp only
  rw [hstats]
  rfl

/-- A trace is recorded as it should be exactly when an `int` can count the views. -/
theorem recordTrace_iff {Q : TopViews} {limit : ℕ} (hlimit : 1 ≤ limit)
    (hdetails : ∀ stats view, (details stats view).isSome) (views : List RecordView) (stats : σ) :
    Reports limit views (recordTrace Q limit 0 views details stats) ↔
      min limit views.length < 2^31 := by
  obtain ⟨q, stats', hrun, -, hrecord⟩ := exists_recordTrace Q hlimit hdetails views stats
  rw [← reportsLargest_iff hlimit hrun, hrecord]
  constructor
  · rintro ⟨r, record_data, hr, hdata, h⟩
    cases hr
    exact ⟨record_data, hdata, h⟩
  · rintro ⟨record_data, hdata, h⟩
    exact ⟨_, record_data, rfl, hdata, h⟩

end RecordTrace

/-- Both functions report the views with the largest counts, and count the kernel, exactly when an
`int` can count the views. -/
theorem record_traces_iff (Q : TopViews) (P : TopRealPCPairs) {pc_views_limit : ℕ}
    (hlimit : 1 ≤ pc_views_limit) (mem_views_limit : ℕ) (pc_access_count : PCAccessCount) :
    (∀ pc_pairs temporal_stats,
      Reports pc_views_limit (temporalViews pc_pairs pc_access_count)
        (recordTemporalTrace Q P pc_views_limit mem_views_limit pc_pairs pc_access_count
          temporal_stats 0) ↔
      min pc_views_limit (temporalViews pc_pairs pc_access_count).length < 2^31) ∧
    ∀ spatial_trace spatial_stats,
      Reports pc_views_limit (spatialViews spatial_trace pc_access_count)
        (recordSpatialTrace Q P pc_views_limit mem_views_limit spatial_trace pc_access_count
          spatial_stats 0) ↔
      min pc_views_limit (spatialViews spatial_trace pc_access_count).length < 2^31 := by
  constructor
  · intro pc_pairs temporal_stats
    exact recordTrace_iff hlimit (temporalDetails_isSome P mem_views_limit pc_pairs) _ _
  · intro spatial_trace spatial_stats
    exact recordTrace_iff hlimit (spatialDetails_isSome P mem_views_limit spatial_trace) _ _

/-- The queue of views that keeps marked views rather than others with the same count. -/
def favouredViews (p : RecordView → Prop) [DecidablePred p] : TopViews :=
  (PriorityQueue.favouring RecordView.red_count p).ofFiner fun _ _ => .inl

/-- What this queue ends with. -/
theorem favouredViews_selection (p : RecordView → Prop) [DecidablePred p] {limit : ℕ}
    (hlimit : 1 ≤ limit) (views : List RecordView) :
    ∃ q kept rest, (favouredViews p).offerAll RecordView.red_count limit views = some q ∧
      (favouredViews p).content q = kept.map Prod.fst ∧
      PriorityQueue.Selection RecordView.red_count (PriorityQueue.Favour RecordView.red_count p)
        limit views kept rest :=
  (PriorityQueue.favouring RecordView.red_count p).exists_selection
    (PriorityQueue.respects_favour _ _) hlimit views

/-- A queue of pairs. -/
def someRealPCPairs : TopRealPCPairs :=
  (PriorityQueue.favouring RealPCPair.red_count fun _ => False).ofFiner fun _ _ => .inl

/-- The trace of as many pcs, each with an access that repeats its value. -/
def pcsBelow (n : ℕ) : PCPairs where
  toList := (List.range n).map fun pc =>
    (pc, OrderedMap.set ∅ pc (OrderedMap.set ∅ (toLex (0, ⟨32, 32, .FLOAT⟩)) 1))
  sorted := List.pairwise_map.2 List.pairwise_lt_range

theorem record_traces_two :
    Reports 1 (temporalViews (pcsBelow 2) ∅)
      (recordTemporalTrace (favouredViews fun _ => False) someRealPCPairs 1 1 (pcsBelow 2) ∅ ∅ 0) :=
  ((record_traces_iff (favouredViews fun _ => False) someRealPCPairs le_rfl 1 ∅).1
    (pcsBelow 2) ∅).2 ((min_le_left _ _).trans_lt (by norm_num))

/-- With more views than an `int` can count, it overflows. -/
theorem record_temporal_trace_overflow : ¬Reports (2^31) (temporalViews (pcsBelow (2^31)) ∅)
    (recordTemporalTrace (favouredViews fun _ => False) someRealPCPairs (2^31) 1
      (pcsBelow (2^31)) ∅ ∅ 0) := by
  intro h
  have hlength : ∀ n, (temporalViews (pcsBelow n) ∅).length = n := fun n => by
    simp [temporalViews, pcsBelow]
  have hlt := (recordTrace_iff (by norm_num)
    (temporalDetails_isSome someRealPCPairs 1 (pcsBelow (2^31))) _ _).1 h
  rw [hlength, min_self] at hlt
  exact lt_irrefl _ hlt

end TenProf.Redundancy
