import TenProf.Redundancy.Record
import Mathlib.Data.List.Flatten

/-!
# The details of the views of spatial redundancy

`record_spatial_trace` has one candidate for each object, access kind and pc, but fills in the
details of a view from all kinds of its object, and appends them to the list of its object and pc.
So a list has every entry as often as views with its object and pc are reported. Which candidates
are reported depends on the queue when some of them have the same count; `spatial_details_iff` says
for which traces the lists are right whatever the queue does.
-/

namespace TenProf.Redundancy

open Binutils

/-! ## The trace -/

/-- `update_spatial_trace`. -/
def updateSpatialTrace (pc value memory_op_id : ℕ) (access_kind : AccessKind)
    (spatial_trace : SpatialTrace) : SpatialTrace :=
  spatial_trace.update (toLex (memory_op_id, access_kind)) ∅ fun pcs =>
    pcs.update pc ∅ fun values => values.update value 0 (· + 1)

/-- The part of `unit_access` for the accesses of a type: the trace of this type. -/
def spatialAccess (type : RedshowAccessType) (spatial_trace : SpatialTrace) (a : ThreadAccess) :
    SpatialTrace :=
  if a.has type then updateSpatialTrace a.pc a.value a.memory.op_id a.access_kind spatial_trace
  else spatial_trace

/-- The trace of a type after some accesses. -/
def spatialTraceOf (type : RedshowAccessType) (accesses : List ThreadAccess) : SpatialTrace :=
  accesses.foldl (spatialAccess type) ∅

/-- Every pc of the trace has a value. -/
def Filled (spatial_trace : SpatialTrace) : Prop :=
  ∀ memory_iter ∈ spatial_trace.toList, ∀ pc_iter ∈ memory_iter.2.toList, pc_iter.2.toList ≠ []

/-- The trace of some accesses has a value for every pc. -/
theorem filled_spatialTraceOf (type : RedshowAccessType) (accesses : List ThreadAccess) :
    Filled (spatialTraceOf type accesses) := by
  unfold spatialTraceOf
  induction accesses using List.reverseRecOn with
  | nil => exact fun memory_iter h => absurd h List.not_mem_nil
  | append_singleton accesses a ih =>
    rw [List.foldl_concat]
    generalize accesses.foldl (spatialAccess type) ∅ = trace at ih ⊢
    unfold spatialAccess
    split_ifs with htype
    · intro memory_iter hmem pc_iter hpc
      rcases (OrderedMap.mem_set _ _ _ _).1 hmem with rfl | ⟨hmem, -⟩
      · rcases (OrderedMap.mem_set _ _ _ _).1 hpc with rfl | ⟨hpc, -⟩
        · -- The value of the access itself.
          refine List.ne_nil_of_mem ((OrderedMap.mem_set _ _ _ _).2 (.inl rfl))
        · unfold OrderedMap.findD at hpc
          cases hfound : trace.find? (toLex (a.memory.op_id, a.access_kind)) with
          | none => exact absurd (hfound ▸ hpc) List.not_mem_nil
          | some pcs =>
            rw [hfound] at hpc
            exact ih _ ((trace.find?_eq_some_iff _ _).1 hfound) pc_iter hpc
      · exact ih memory_iter hmem pc_iter hpc
    · exact ih

/-- The values of a pc with their counts. -/
def valuesAt (spatial_trace : SpatialTrace) (memory_op_id : ℕ) (kind : AccessKind) (pc : ℕ) :
    OrderedMap ℕ ℕ :=
  (spatial_trace.findD (toLex (memory_op_id, kind)) ∅).findD pc ∅

/-! ## The lists -/

/-- `spatial_stats[memory_op_id][pc]`. -/
def entriesAt (spatial_stats : SpatialStatistics) (memory_op_id pc : ℕ) : List RealPCPair :=
  (spatial_stats.findD memory_op_id ∅).findD pc []

/-- What the list of an object and a pc should be: each value and kind at most once, with its count,
and for each kind the values with the largest counts, as many as the limit allows. -/
structure EntriesRight (mem_views_limit : ℕ) (spatial_trace : SpatialTrace) (memory_op_id pc : ℕ)
    (entries : List RealPCPair) : Prop where
  once : (entries.map fun e => (e.value, e.access_kind)).Nodup
  true_count : ∀ e ∈ entries,
    (valuesAt spatial_trace memory_op_id e.access_kind pc).find? e.value = some e.red_count
  listed : ∀ kind, (entries.filter fun e => e.access_kind = kind).length =
    min mem_views_limit (valuesAt spatial_trace memory_op_id kind pc).size
  largest : ∀ kind value count,
    (valuesAt spatial_trace memory_op_id kind pc).find? value = some count →
    (∀ e ∈ entries, e.access_kind = kind → e.value ≠ value) →
    ∀ e ∈ entries, e.access_kind = kind → count ≤ e.red_count

/-- The statistics have the right list for every view that is reported. -/
def DetailsRight (mem_views_limit : ℕ) (spatial_trace : SpatialTrace)
    (r : Recorded SpatialStatistics) : Prop :=
  ∀ view ∈ r.reported, EntriesRight mem_views_limit spatial_trace view.memory_op_id view.pc_offset
    (entriesAt r.stats view.memory_op_id view.pc_offset)

/-- The object and the pc of a view. -/
def RecordView.target (view : RecordView) : ℕ × ℕ := (view.memory_op_id, view.pc_offset)

/-- What the details of a view add for a kind. -/
def kindEntries (P : TopRealPCPairs) (mem_views_limit : ℕ) (view : RecordView) (kind : AccessKind)
    (pcs : OrderedMap ℕ (OrderedMap ℕ ℕ)) : List RealPCPair :=
  (topPairs P mem_views_limit (spatialPairs view kind pcs)).getD []

/-- What the details of a view add for some objects and kinds. -/
def detailEntries (P : TopRealPCPairs) (mem_views_limit : ℕ) (view : RecordView)
    (memory_iters : List ((ℕ ×ₗ AccessKind) × OrderedMap ℕ (OrderedMap ℕ ℕ))) : List RealPCPair :=
  (memory_iters.filter fun memory_iter => (ofLex memory_iter.1).1 = view.memory_op_id).flatMap
    fun memory_iter => kindEntries P mem_views_limit view (ofLex memory_iter.1).2 memory_iter.2

section Append

variable {P : TopRealPCPairs} {limit : ℕ} {spatial_trace : SpatialTrace}
  {spatial_stats spatial_stats' : SpatialStatistics} {view : RecordView}

/-- Pairs are appended to the list of the view. -/
theorem entriesAt_foldl_pushPair (pairs : List RealPCPair) (memory_op_id pc : ℕ) :
    entriesAt (pairs.foldl (pushPair view) spatial_stats) memory_op_id pc =
      entriesAt spatial_stats memory_op_id pc ++
        if (memory_op_id, pc) = view.target then pairs else [] := by
  induction pairs generalizing spatial_stats with
  | nil => simp
  | cons pair pairs ih =>
    have hpush : entriesAt (pushPair view spatial_stats pair) memory_op_id pc =
        entriesAt spatial_stats memory_op_id pc ++
          if (memory_op_id, pc) = view.target then [pair] else [] := by
      unfold entriesAt pushPair RecordView.target
      rw [OrderedMap.findD_update]
      by_cases hop : memory_op_id = view.memory_op_id
      · rw [if_pos hop, OrderedMap.findD_update]
        by_cases hpc : pc = view.pc_offset
        · rw [if_pos hpc, if_pos (Prod.ext hop hpc)]
        · rw [if_neg hpc, if_neg fun h => hpc (congrArg Prod.snd h), List.append_nil]
      · rw [if_neg hop, if_neg fun h => hop (congrArg Prod.fst h), List.append_nil]
    rw [List.foldl_cons, ih, hpush, List.append_assoc]
    split_ifs <;> rfl

/-- The details of a view are appended to its list. -/
theorem entriesAt_spatialDetails (hlimit : limit ≠ 0)
    (h : spatialDetails P limit spatial_trace spatial_stats view = some spatial_stats')
    (memory_op_id pc : ℕ) :
    entriesAt spatial_stats' memory_op_id pc = entriesAt spatial_stats memory_op_id pc ++
      if (memory_op_id, pc) = view.target then detailEntries P limit view spatial_trace.toList
      else [] := by
  unfold spatialDetails at h
  rw [if_pos hlimit] at h
  -- The invariant speaks of the objects and kinds that the loop has been over.
  refine foldlM_invariant_handled (I := fun before stats =>
    entriesAt stats memory_op_id pc = entriesAt spatial_stats memory_op_id pc ++
      if (memory_op_id, pc) = view.target then detailEntries P limit view before else [])
    ?_ (by simp [detailEntries]) h
  intro before memory_iter stats stats' hstats _ hstep
  unfold detailEntries at hstats ⊢
  rw [List.filter_append, List.flatMap_append]
  by_cases hobject : (ofLex memory_iter.1).1 = view.memory_op_id
  · obtain ⟨top, htop, -⟩ :=
      exists_topPairs P hlimit (spatialPairs view (ofLex memory_iter.1).2 memory_iter.2)
    rw [if_neg (not_not.2 hobject), htop, Option.map_some, Option.some.injEq] at hstep
    have hkind : kindEntries P limit view (ofLex memory_iter.1).2 memory_iter.2 = top := by
      unfold kindEntries
      rw [htop]
      rfl
    rw [← hstep, entriesAt_foldl_pushPair, hstats, List.append_assoc,
      List.filter_cons_of_pos (by simpa using hobject), List.filter_nil, List.flatMap_singleton,
      hkind]
    split_ifs <;> rfl
  · rw [if_pos hobject, Option.some.injEq] at hstep
    rw [← hstep, hstats, List.filter_cons_of_neg (by simpa using hobject), List.filter_nil,
      List.flatMap_nil, List.append_nil]

/-- The details of all views with its object and pc make up a list. -/
theorem entriesAt_foldlM (hlimit : limit ≠ 0) {views : List RecordView}
    (h : views.foldlM (spatialDetails P limit spatial_trace) ∅ = some spatial_stats')
    (memory_op_id pc : ℕ) :
    entriesAt spatial_stats' memory_op_id pc =
      (views.filter fun view => view.target = (memory_op_id, pc)).flatMap fun view =>
        detailEntries P limit view spatial_trace.toList := by
  refine foldlM_invariant_handled (I := fun before stats => entriesAt stats memory_op_id pc =
    (before.filter fun view => view.target = (memory_op_id, pc)).flatMap fun view =>
      detailEntries P limit view spatial_trace.toList) ?_ rfl h
  intro before view stats stats' hstats _ hstep
  rw [entriesAt_spatialDetails hlimit hstep, hstats, List.filter_append, List.flatMap_append]
  by_cases htarget : view.target = (memory_op_id, pc)
  · rw [if_pos htarget.symm, List.filter_cons_of_pos (by simpa using htarget), List.filter_nil,
      List.flatMap_singleton]
  · rw [if_neg (Ne.symm htarget), List.filter_cons_of_neg (by simpa using htarget), List.filter_nil,
      List.flatMap_nil]

end Append

/-! ## One list -/

section Entries

variable {P : TopRealPCPairs} {limit : ℕ} {spatial_trace : SpatialTrace} {view : RecordView}

/-- The pairs of a kind have the values of the pc with their counts. -/
theorem mem_spatialPairs {kind : AccessKind} {pcs : OrderedMap ℕ (OrderedMap ℕ ℕ)}
    {pair : RealPCPair} : pair ∈ spatialPairs view kind pcs ↔
      pair = ⟨view.pc_offset, none, pair.value, kind, pair.red_count, view.access_count⟩ ∧
        (pcs.findD view.pc_offset ∅).find? pair.value = some pair.red_count := by
  unfold spatialPairs
  rw [List.mem_map]
  constructor
  · rintro ⟨e, he, rfl⟩
    exact ⟨rfl, (OrderedMap.find?_eq_some_iff _ _ _).2 he⟩
  · rintro ⟨hpair, hfind⟩
    exact ⟨_, (OrderedMap.find?_eq_some_iff _ _ _).1 hfind, hpair.symm⟩

variable (P view) in
/-- What is added for a kind: some of its pairs, as many as the limit allows, with the largest
counts. -/
theorem kindEntries_spec (hlimit : limit ≠ 0) (kind : AccessKind)
    (pcs : OrderedMap ℕ (OrderedMap ℕ ℕ)) :
    (kindEntries P limit view kind pcs).length = min limit (pcs.findD view.pc_offset ∅).size ∧
    ∃ rest : Multiset RealPCPair,
      (kindEntries P limit view kind pcs : Multiset RealPCPair) + rest =
        spatialPairs view kind pcs ∧
      ∀ a ∈ kindEntries P limit view kind pcs, ∀ b ∈ rest, b.red_count ≤ a.red_count := by
  obtain ⟨top, htop, hlength, hrest⟩ := exists_topPairs P hlimit (spatialPairs view kind pcs)
  have hkind : kindEntries P limit view kind pcs = top := by
    unfold kindEntries
    rw [htop]
    rfl
  rw [hkind]
  refine ⟨hlength.trans ?_, hrest⟩
  rw [spatialPairs, List.length_map]
  rfl

/-- What is added for a kind are pairs of the kind. -/
theorem mem_spatialPairs_of_mem (hlimit : limit ≠ 0) {kind : AccessKind}
    {pcs : OrderedMap ℕ (OrderedMap ℕ ℕ)} {e : RealPCPair}
    (he : e ∈ kindEntries P limit view kind pcs) : e ∈ spatialPairs view kind pcs := by
  obtain ⟨-, rest, hsplit, -⟩ := kindEntries_spec P view hlimit kind pcs
  rw [← Multiset.mem_coe, ← hsplit]
  exact Multiset.mem_add.2 (.inl he)

variable (P view) in
/-- The values of what is added for a kind are distinct. -/
theorem nodup_kindEntries (hlimit : limit ≠ 0) (kind : AccessKind)
    (pcs : OrderedMap ℕ (OrderedMap ℕ ℕ)) :
    ((kindEntries P limit view kind pcs).map RealPCPair.value).Nodup := by
  obtain ⟨-, rest, hsplit, -⟩ := kindEntries_spec P view hlimit kind pcs
  have hnodup : ((spatialPairs view kind pcs).map RealPCPair.value).Nodup := by
    unfold spatialPairs
    rw [List.map_map]
    exact (pcs.findD view.pc_offset ∅).nodup_keys
  rw [← Multiset.coe_nodup, ← Multiset.map_coe, ← hsplit, Multiset.map_add] at hnodup
  exact (Multiset.nodup_add.1 hnodup).1

/-- A function of the selected elements that ignores some is one of fewer elements. -/
theorem flatMap_filter_ite {α β : Type*} (l : List α) (p q : α → Prop) [DecidablePred p]
    [DecidablePred q] (f : α → List β) :
    ((l.filter fun a => p a).flatMap fun a => if q a then f a else []) =
      (l.filter fun a => p a ∧ q a).flatMap f := by
  induction l with
  | nil => rfl
  | cons a l ih =>
    by_cases hp : p a
    · by_cases hq : q a
      · rw [List.filter_cons_of_pos (by simpa using hp), List.flatMap_cons, ih, if_pos hq,
          List.filter_cons_of_pos (by simpa using ⟨hp, hq⟩), List.flatMap_cons]
      · rw [List.filter_cons_of_pos (by simpa using hp), List.flatMap_cons, ih, if_neg hq,
          List.filter_cons_of_neg (by simp [hq]), List.nil_append]
    · rw [List.filter_cons_of_neg (by simpa using hp), List.filter_cons_of_neg (by simp [hp]), ih]

/-- The entries of a kind are those that are added for it. -/
theorem filter_detailEntries (hlimit : limit ≠ 0) (kind : AccessKind) :
    (detailEntries P limit view spatial_trace.toList).filter (fun e => e.access_kind = kind) =
      kindEntries P limit view kind
        (spatial_trace.findD (toLex (view.memory_op_id, kind)) ∅) := by
  have hkind : ∀ memory_iter : (ℕ ×ₗ AccessKind) × OrderedMap ℕ (OrderedMap ℕ ℕ),
      (kindEntries P limit view (ofLex memory_iter.1).2 memory_iter.2).filter
        (fun e => e.access_kind = kind) =
      if (ofLex memory_iter.1).2 = kind then kindEntries P limit view kind memory_iter.2
      else [] := by
    intro memory_iter
    split_ifs with h
    · rw [h]
      refine List.filter_eq_self.2 fun e he => decide_eq_true ?_
      exact congrArg RealPCPair.access_kind
        (mem_spatialPairs.1 (mem_spatialPairs_of_mem hlimit he)).1
    · refine List.filter_eq_nil_iff.2 fun e he hsame => h ?_
      rw [← of_decide_eq_true hsame]
      exact (congrArg RealPCPair.access_kind
        (mem_spatialPairs.1 (mem_spatialPairs_of_mem hlimit he)).1).symm
  -- The only object and kind that adds something is looked up in the trace.
  unfold detailEntries
  rw [List.filter_flatMap]
  simp only [hkind]
  rw [flatMap_filter_ite, spatial_trace.filter_key (toLex (view.memory_op_id, kind)) fun e => by
    rw [decide_eq_true_eq]
    exact (Prod.ext_iff (x := ofLex e.1) (y := (view.memory_op_id, kind))).symm]
  unfold OrderedMap.findD
  cases spatial_trace.find? (toLex (view.memory_op_id, kind)) with
  | none =>
    -- A kind that the trace has not got adds nothing.
    have hlength := (kindEntries_spec P view hlimit kind ∅).1
    exact (List.eq_nil_of_length_eq_zero (hlength.trans (Nat.min_zero limit))).symm
  | some pcs => exact List.flatMap_singleton ..

/-- The details of a view make up a right list. -/
theorem detailEntries_right (hlimit : limit ≠ 0) :
    EntriesRight limit spatial_trace view.memory_op_id view.pc_offset
      (detailEntries P limit view spatial_trace.toList) := by
  have hmem : ∀ e ∈ detailEntries P limit view spatial_trace.toList,
      e ∈ kindEntries P limit view e.access_kind
        (spatial_trace.findD (toLex (view.memory_op_id, e.access_kind)) ∅) := fun e he => by
    rw [← filter_detailEntries hlimit]
    exact List.mem_filter.2 ⟨he, decide_eq_true rfl⟩
  refine ⟨?_, fun e he => ?_, fun kind => ?_, fun kind value count hvalue hnew e he hkind => ?_⟩
  · -- What occurs twice has one kind, and is added twice for this kind.
    refine List.nodup_iff_sublist.2 fun ⟨value, kind⟩ hsub => ?_
    have hfilter := hsub.filter fun e => e.2 = kind
    rw [List.filter_map] at hfilter
    have hkind : (detailEntries P limit view spatial_trace.toList).filter
        ((fun e : ℕ × AccessKind => decide (e.2 = kind)) ∘ fun e => (e.value, e.access_kind)) =
        kindEntries P limit view kind _ := filter_detailEntries hlimit kind
    rw [hkind] at hfilter
    have hvalues := hfilter.map Prod.fst
    have htwice : ([(value, kind), (value, kind)].filter fun e => e.2 = kind).map Prod.fst =
        [value, value] := by simp
    rw [htwice, List.map_map] at hvalues
    refine List.nodup_iff_sublist.1 (nodup_kindEntries P view hlimit kind
      (spatial_trace.findD (toLex (view.memory_op_id, kind)) ∅)) value ?_
    exact hvalues
  · exact (mem_spatialPairs.1 (mem_spatialPairs_of_mem hlimit (hmem e he))).2
  · rw [filter_detailEntries hlimit, (kindEntries_spec P view hlimit kind _).1]
    rfl
  · obtain ⟨-, rest, hsplit, hle⟩ := kindEntries_spec P view hlimit kind
      (spatial_trace.findD (toLex (view.memory_op_id, kind)) ∅)
    have hpairs : ∀ pair ∈ spatialPairs view kind
        (spatial_trace.findD (toLex (view.memory_op_id, kind)) ∅),
        pair ∈ kindEntries P limit view kind _ ∨ pair ∈ rest := fun pair hpair => by
      rwa [← Multiset.mem_coe, ← Multiset.mem_add, hsplit]
    rcases hpairs ⟨view.pc_offset, none, value, kind, count, view.access_count⟩
      (mem_spatialPairs.2 ⟨rfl, hvalue⟩) with hpair | hpair
    · rw [← filter_detailEntries hlimit] at hpair
      exact absurd rfl (hnew _ (List.mem_filter.1 hpair).1 rfl)
    · exact hle e (hkind ▸ hmem e he) _ hpair

/-- A view of a pc that has a value with some kind has details. -/
theorem detailEntries_ne_nil (hlimit : limit ≠ 0)
    {memory_iter : (ℕ ×ₗ AccessKind) × OrderedMap ℕ (OrderedMap ℕ ℕ)}
    (hmem : memory_iter ∈ spatial_trace.toList)
    (hobject : (ofLex memory_iter.1).1 = view.memory_op_id)
    (hvalues : (memory_iter.2.findD view.pc_offset ∅).toList ≠ []) :
    detailEntries P limit view spatial_trace.toList ≠ [] := by
  intro hnil
  have hkind : kindEntries P limit view (ofLex memory_iter.1).2 memory_iter.2 = [] := by
    refine List.flatMap_eq_nil_iff.1 hnil memory_iter (List.mem_filter.2 ⟨hmem, ?_⟩)
    exact decide_eq_true hobject
  have hlength := (kindEntries_spec P view hlimit (ofLex memory_iter.1).2
    memory_iter.2).1
  rw [hkind, List.length_nil] at hlength
  have := List.length_pos_iff.2 hvalues
  unfold OrderedMap.size at hlength
  omega

end Entries

/-! ## All lists -/

section Lists

variable {P : TopRealPCPairs} {limit : ℕ} {spatial_trace : SpatialTrace}
  {pc_access_count : PCAccessCount}

/-- What a candidate is made of. -/
theorem mem_spatialViews {view : RecordView} :
    view ∈ spatialViews spatial_trace pc_access_count ↔
      ∃ memory_iter ∈ spatial_trace.toList, ∃ pc_iter ∈ memory_iter.2.toList,
        ⟨pc_iter.1, (ofLex memory_iter.1).1, u64OfInt (maxCount pc_iter.2),
          pc_access_count.findD pc_iter.1 0⟩ = view := by
  unfold spatialViews spatialView
  simp only [List.mem_flatMap, List.mem_map]

/-- Candidates with one object and pc have the same details, and some. -/
theorem detailEntries_candidate (hfilled : Filled spatial_trace) (hlimit : limit ≠ 0)
    {view view' : RecordView} (hview : view ∈ spatialViews spatial_trace pc_access_count)
    (hview' : view' ∈ spatialViews spatial_trace pc_access_count)
    (htarget : view.target = view'.target) :
    detailEntries P limit view spatial_trace.toList =
      detailEntries P limit view' spatial_trace.toList ∧
    detailEntries P limit view spatial_trace.toList ≠ [] := by
  obtain ⟨memory_iter, hmem, pc_iter, hpc, rfl⟩ := mem_spatialViews.1 hview
  obtain ⟨memory_iter', -, pc_iter', -, rfl⟩ := mem_spatialViews.1 hview'
  obtain ⟨hobject, hpcs⟩ : (ofLex memory_iter.1).1 = (ofLex memory_iter'.1).1 ∧
    pc_iter.1 = pc_iter'.1 := Prod.ext_iff.1 htarget
  constructor
  · unfold detailEntries kindEntries spatialPairs
    dsimp only
    rw [hobject, hpcs]
  · refine detailEntries_ne_nil hlimit hmem rfl ?_
    have hfind := (memory_iter.2.find?_eq_some_iff pc_iter.1 pc_iter.2).2 hpc
    unfold OrderedMap.findD
    dsimp only
    rw [hfind]
    exact hfilled memory_iter hmem pc_iter hpc

/-- The lists are right exactly when no two views with one object and pc are reported. -/
theorem details_iff_nodup (hfilled : Filled spatial_trace) (hlimit : limit ≠ 0)
    {views : List RecordView}
    (hviews : ∀ view ∈ views, view ∈ spatialViews spatial_trace pc_access_count)
    {spatial_stats : SpatialStatistics}
    (hstats : views.foldlM (spatialDetails P limit spatial_trace) ∅ = some spatial_stats) :
    (∀ view ∈ views, EntriesRight limit spatial_trace view.memory_op_id view.pc_offset
      (entriesAt spatial_stats view.memory_op_id view.pc_offset)) ↔
    (views.map RecordView.target).Nodup := by
  have hentries := entriesAt_foldlM hlimit hstats
  constructor
  · intro hright
    rw [List.Nodup, List.pairwise_map, List.pairwise_iff_forall_sublist]
    intro view view' hsub htarget
    have hmem : view ∈ views := hsub.subset List.mem_cons_self
    have hmem' : view' ∈ views := hsub.subset (by simp)
    obtain ⟨hsame, hne⟩ := detailEntries_candidate (P := P) hfilled hlimit (hviews view hmem)
      (hviews view' hmem') htarget
    -- The list holds the details of both views.
    have hfilter : List.Sublist [view, view'] (views.filter fun v =>
        v.target = (view.memory_op_id, view.pc_offset)) := by
      have hboth := hsub.filter fun v => v.target = (view.memory_op_id, view.pc_offset)
      rwa [List.filter_eq_self.2 fun v hv => ?_] at hboth
      rcases List.mem_pair.1 hv with rfl | rfl
      · exact decide_eq_true rfl
      · exact decide_eq_true htarget.symm
    have hlist := hfilter.flatMap fun v => detailEntries P limit v spatial_trace.toList
    have honce := (hright view hmem).once
    rw [hentries] at honce
    have hpair := honce.sublist (hlist.map fun e => (e.value, e.access_kind))
    rw [List.flatMap_cons, List.flatMap_singleton, ← hsame, List.map_append,
      List.nodup_append] at hpair
    obtain ⟨e, he⟩ := List.exists_mem_of_ne_nil _ hne
    exact hpair.2.2 _ (List.mem_map_of_mem he) _ (List.mem_map_of_mem he) rfl
  · intro hdistinct view hview
    rw [hentries]
    -- The view is the only one with its object and pc.
    have honly : (views.filter fun v => v.target = (view.memory_op_id, view.pc_offset)) =
        [view] := filter_eq_singleton hdistinct hview
    rw [honly, List.flatMap_singleton]
    exact detailEntries_right hlimit

/-- Two candidates with one object and pc can both be reported: both pass the test of the queue when
their turn comes, and they fit into it together with all candidates that have larger counts. -/
def BothReportable (pc_views_limit : ℕ) (views : List RecordView) : Prop :=
  ∃ a ∈ views.zipIdx, ∃ b ∈ views.zipIdx, a ≠ b ∧ a.1.target = b.1.target ∧
    PriorityQueue.Passes RecordView.red_count pc_views_limit views a ∧
    PriorityQueue.Passes RecordView.red_count pc_views_limit views b ∧
    PriorityQueue.BothFit RecordView.red_count pc_views_limit views a.1 b.1

/-- Some queue reports two views with one object and pc exactly when they can be reported. -/
theorem nodup_targets_iff {pc_views_limit : ℕ} (hviews : 1 ≤ pc_views_limit)
    (views : List RecordView) :
    (∀ (Q : TopViews) (q : Q.Queue), Q.offerAll RecordView.red_count pc_views_limit views = some q →
      ((Q.drain q).map RecordView.target).Nodup) ↔ ¬BothReportable pc_views_limit views := by
  constructor
  · rintro hnodup ⟨a, ha, b, hb, hne, htarget, hpass, hpass', hfit⟩
    -- The queue that keeps the views with this object and pc.
    obtain ⟨q, kept, rest, hrun, hcontent, h⟩ :=
      favouredViews_selection (fun v => v.target = a.1.target) hviews views
    have htwo := h.two_le_countP ha hb hne rfl htarget.symm hpass hpass' hfit
    have hdrain := hnodup (favouredViews fun v => v.target = a.1.target) q hrun
    rw [← Multiset.coe_nodup, ← Multiset.map_coe, PriorityQueue.coe_drain, hcontent] at hdrain
    have hcount := Multiset.nodup_iff_count_le_one.1 hdrain a.1.target
    rw [Multiset.map_map, Multiset.count_map, ← Multiset.countP_eq_card_filter] at hcount
    have hsame : kept.countP (fun e => a.1.target = (RecordView.target ∘ Prod.fst) e) =
        kept.countP fun e => e.1.target = a.1.target :=
      Multiset.countP_congr rfl fun e _ => propext eq_comm
    omega
  · intro hnot Q q hrun
    obtain ⟨q', kept, rest, hrun', hcontent, h⟩ :=
      Q.exists_selection respects_compareView hviews views
    obtain rfl : q = q' := Option.some.inj (hrun.symm.trans hrun')
    rw [← Multiset.coe_nodup, ← Multiset.map_coe, Q.coe_drain, hcontent, Multiset.map_map,
      Multiset.nodup_map_iff_inj_on (Multiset.nodup_add.1 h.nodup).1]
    intro a ha b hb htarget
    by_contra hne
    exact hnot ⟨a, h.mem_zipIdx.2 (.inl ha), b, h.mem_zipIdx.2 (.inl hb), hne, htarget,
      h.passes a ha, h.passes b hb, h.bothFit ha hb hne⟩

/-- The lists of the views that a queue reports are right exactly when no two of these views have
one object and pc. -/
theorem exists_details (Q : TopViews) (P : TopRealPCPairs) (hfilled : Filled spatial_trace)
    (pc_access_count : PCAccessCount) {pc_views_limit : ℕ} (hviews : 1 ≤ pc_views_limit)
    (hlimit : limit ≠ 0) :
    ∃ q r, Q.offerAll RecordView.red_count pc_views_limit
        (spatialViews spatial_trace pc_access_count) = some q ∧
      recordSpatialTrace Q P pc_views_limit limit spatial_trace pc_access_count ∅ 0 = some r ∧
      (DetailsRight limit spatial_trace r ↔ ((Q.drain q).map RecordView.target).Nodup) := by
  obtain ⟨q, stats, hrun, hstats, hrecord⟩ := exists_recordTrace Q hviews
    (spatialDetails_isSome P limit spatial_trace) (spatialViews spatial_trace pc_access_count) ∅
  have hreported : ∀ view ∈ Q.drain q, view ∈ spatialViews spatial_trace pc_access_count := by
    intro view hview
    obtain ⟨q', rest, hrun', hsplit, -⟩ := Q.exists_largest respects_compareView hviews
      (spatialViews spatial_trace pc_access_count)
    obtain rfl : q = q' := Option.some.inj (hrun.symm.trans hrun')
    rw [← Multiset.mem_coe, ← hsplit, ← Q.coe_drain]
    exact Multiset.mem_add.2 (.inl hview)
  exact ⟨q, _, hrun, hrecord, details_iff_nodup hfilled hlimit hreported hstats⟩

/-- The details of spatial redundancy are right, whatever the queues do with equal counts, exactly
when no two candidates with one object and pc can both be reported. -/
theorem spatial_details_iff {pc_views_limit mem_views_limit : ℕ} (hviews : 1 ≤ pc_views_limit)
    (hmem : 1 ≤ mem_views_limit) (hfilled : Filled spatial_trace)
    (pc_access_count : PCAccessCount) :
    (∀ (Q : TopViews) (P : TopRealPCPairs), ∃ r,
      recordSpatialTrace Q P pc_views_limit mem_views_limit spatial_trace pc_access_count ∅ 0 =
        some r ∧ DetailsRight mem_views_limit spatial_trace r) ↔
    ¬BothReportable pc_views_limit (spatialViews spatial_trace pc_access_count) := by
  rw [← nodup_targets_iff hviews]
  constructor
  · intro hright Q q hrun
    obtain ⟨r, hr, hdetails⟩ := hright Q someRealPCPairs
    obtain ⟨q', r', hrun', hr', hiff⟩ := exists_details Q someRealPCPairs hfilled
      pc_access_count hviews (Nat.pos_iff_ne_zero.1 hmem)
    obtain rfl : q = q' := Option.some.inj (hrun.symm.trans hrun')
    obtain rfl : r = r' := Option.some.inj (hr.symm.trans hr')
    exact hiff.1 hdetails
  · intro hnodup Q P
    obtain ⟨q, r, hrun, hr, hiff⟩ := exists_details Q P hfilled pc_access_count hviews
      (Nat.pos_iff_ne_zero.1 hmem)
    exact ⟨r, hr, hiff.2 (hnodup Q q hrun)⟩

end Lists

/-- A read of an object by an instruction, with a kind. -/
def readOf (access_kind : AccessKind) : ThreadAccess :=
  ⟨⟨0, 0⟩, access_kind, ⟨7, 1, 0, ⟨512, 1024⟩, 512, 0, 0⟩, 16, 5, 512, 0, GpuPatch.READ⟩

theorem spatial_details_oneKind : ∃ r,
    recordSpatialTrace (favouredViews fun _ => False) someRealPCPairs 1 1
        (spatialTraceOf .READ [readOf ⟨32, 32, .INT⟩]) ∅ ∅ 0 = some r ∧
      DetailsRight 1 (spatialTraceOf .READ [readOf ⟨32, 32, .INT⟩]) r :=
  (spatial_details_iff le_rfl le_rfl (filled_spatialTraceOf _ _) ∅).2
    (fun ⟨_, ha, _, hb, hne, _⟩ =>
      hne ((List.mem_singleton.1 ha).trans (List.mem_singleton.1 hb).symm)) _ _

/-- With two kinds both candidates are reported, and each value is listed twice. -/
theorem spatial_details_twoKinds : ¬∃ r,
    recordSpatialTrace (favouredViews fun _ => False) someRealPCPairs 2 1
        (spatialTraceOf .READ [readOf ⟨32, 32, .INT⟩, readOf ⟨64, 64, .INT⟩]) ∅ ∅ 0 = some r ∧
      DetailsRight 1 (spatialTraceOf .READ [readOf ⟨32, 32, .INT⟩, readOf ⟨64, 64, .INT⟩]) r := by
  rintro ⟨r, hr, hdetails⟩
  obtain ⟨q, r', hrun, hr', hiff⟩ := exists_details (favouredViews fun _ => False) someRealPCPairs
    (filled_spatialTraceOf .READ [readOf ⟨32, 32, .INT⟩, readOf ⟨64, 64, .INT⟩]) ∅
    (show 1 ≤ 2 by norm_num) one_ne_zero
  obtain rfl : r = r' := Option.some.inj (hr.symm.trans hr')
  have hperm := (favouredViews fun _ => False).drain_perm respects_compareView (by norm_num) hrun
    (by decide +kernel)
  have hnodup := (hperm.map RecordView.target).nodup_iff.1 (hiff.1 hdetails)
  exact absurd hnodup (by decide +kernel)

end TenProf.Redundancy
