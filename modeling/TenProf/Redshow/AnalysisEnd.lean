import Mathlib.Data.List.DropRight
import Mathlib.Order.Bounds.Basic
import TenProf.Redshow.MemorySnapshot

/-!
# The pruning of the snapshots

Between `redshow_analysis_begin` and `redshow_analysis_end`, `redshow_analyze` keeps the smallest id
of a trace that was analysed in `mini_host_op_id`, where `0` says that there was none yet, so that a
trace with the id `0` makes it start again. `redshow_analysis_end` then erases the snapshots with
smaller ids, but for the last one. What is looked up for the smallest id and later ones stays the
same (`analysisEnd_invisible`).
-/

namespace TenProf

/-- A call of `redshow_analyze`: the id of the trace, and whether `trace_analyze` succeeds. -/
structure AnalyzeCall where
  host_op_id : ℕ
  succeeds : Bool
  deriving DecidableEq, Repr

/-- `redshow_analyze`: `mini_host_op_id` after a call. -/
def redshowAnalyze (log_data_callback : Bool) (mini_host_op_id : ℕ) (call : AnalyzeCall) : ℕ :=
  if call.succeeds then
    if log_data_callback then
      if mini_host_op_id = 0 then call.host_op_id else min mini_host_op_id call.host_op_id
    else mini_host_op_id
  else mini_host_op_id

/-- `redshow_analysis_begin`: `mini_host_op_id` after it. -/
def redshowAnalysisBegin : ℕ := 0

/-- `redshow_analysis_end`: the snapshots after it. -/
def redshowAnalysisEnd (data_flow : Bool) (mini_host_op_id : ℕ) (memory_snapshot : MemorySnapshot) :
    MemorySnapshot :=
  if mini_host_op_id ≠ 0 ∧ data_flow = false then
    -- Remove all the memory snapshots before mini_host_op_id
    let ids := (memory_snapshot.toList.map Prod.fst).filter fun id => id < mini_host_op_id
    let max_min_host_op_id := ids.foldl max 0
    -- Maintain the largest snapshot
    ids.foldl (fun memory_snapshot id =>
      if id = max_min_host_op_id then memory_snapshot else memory_snapshot.erase id) memory_snapshot
  else memory_snapshot

/-- The snapshots after an analysis of traces. -/
def analyzed (log_data_callback data_flow : Bool) (calls : List AnalyzeCall)
    (memory_snapshot : MemorySnapshot) : MemorySnapshot :=
  redshowAnalysisEnd data_flow (calls.foldl (redshowAnalyze log_data_callback) redshowAnalysisBegin)
    memory_snapshot

/-- The ids of the traces that were analysed. -/
def analyzedIds (log_data_callback : Bool) (calls : List AnalyzeCall) : List ℕ :=
  if log_data_callback then (calls.filter AnalyzeCall.succeeds).map AnalyzeCall.host_op_id else []

/-- The ids that count: those after the last id `0`, which stands for no id. -/
def idsSinceZero (ids : List ℕ) : List ℕ := ids.rtakeWhile fun id => id ≠ 0

variable {memory_snapshot : MemorySnapshot} {calls : List AnalyzeCall}
  {log_data_callback data_flow : Bool}

/-! ## The smallest id -/

/-- All ids count when none of them is `0`. -/
theorem idsSinceZero_of_notMem {ids : List ℕ} (h : 0 ∉ ids) : idsSinceZero ids = ids := by
  have hne : ∀ id ∈ ids, decide (id ≠ 0) = true := fun id hid =>
    decide_eq_true (ne_of_mem_of_not_mem hid h)
  exact List.rtakeWhile_eq_self_iff.2 hne

/-- The ids that count are not `0`. -/
theorem ne_zero_of_mem_idsSinceZero {ids : List ℕ} {id : ℕ} (h : id ∈ idsSinceZero ids) :
    id ≠ 0 := by
  have hne : decide (id ≠ 0) = true := List.mem_rtakeWhile_imp (p := fun id => decide (id ≠ 0)) h
  exact of_decide_eq_true hne

/-- A further call adds its id, when it succeeds and its data is handed on. -/
theorem analyzedIds_concat (log_data_callback : Bool) (calls : List AnalyzeCall)
    (call : AnalyzeCall) :
    analyzedIds log_data_callback (calls ++ [call]) =
      analyzedIds log_data_callback calls ++
        if log_data_callback && call.succeeds then [call.host_op_id] else [] := by
  unfold analyzedIds
  cases log_data_callback <;> cases h : call.succeeds <;> simp [h]

/-- A further id counts, unless it is `0`, which makes all ids before it not count. -/
theorem idsSinceZero_concat (ids : List ℕ) (id : ℕ) :
    idsSinceZero (ids ++ [id]) = if id = 0 then [] else idsSinceZero ids ++ [id] := by
  unfold idsSinceZero
  rw [List.rtakeWhile_concat]
  by_cases hid : id = 0 <;> simp [hid]

/-- A call takes its id when it is the first one or the smallest one so far. -/
theorem redshowAnalyze_eq (log_data_callback : Bool) (mini : ℕ) (call : AnalyzeCall) :
    redshowAnalyze log_data_callback mini call =
      if log_data_callback && call.succeeds then
        if mini = 0 then call.host_op_id else min mini call.host_op_id
      else mini := by
  unfold redshowAnalyze
  cases log_data_callback <;> cases call.succeeds <;> simp

/-- After the calls, `mini_host_op_id` is the smallest id that counts, or `0` if there is none. -/
theorem foldl_redshowAnalyze (log_data_callback : Bool) (calls : List AnalyzeCall) :
    (idsSinceZero (analyzedIds log_data_callback calls) = [] ∧
        calls.foldl (redshowAnalyze log_data_callback) redshowAnalysisBegin = 0) ∨
      IsLeast {id | id ∈ idsSinceZero (analyzedIds log_data_callback calls)}
        (calls.foldl (redshowAnalyze log_data_callback) redshowAnalysisBegin) := by
  induction calls using List.reverseRecOn with
  | nil =>
    have hnil : analyzedIds log_data_callback [] = [] := by simp [analyzedIds]
    exact .inl ⟨by rw [hnil]; rfl, rfl⟩
  | append_singleton calls call ih =>
    rw [List.foldl_append, List.foldl_cons, List.foldl_nil, redshowAnalyze_eq, analyzedIds_concat]
    generalize calls.foldl (redshowAnalyze log_data_callback) redshowAnalysisBegin = mini at ih ⊢
    split_ifs with hcounts hmini
    · -- There is no id yet, and the id of the call is the only one that counts, unless it is `0`.
      have hnil : idsSinceZero (analyzedIds log_data_callback calls) = [] :=
        ih.elim And.left fun hleast => absurd hmini (ne_zero_of_mem_idsSinceZero hleast.1)
      rw [idsSinceZero_concat, hnil]
      by_cases hid : call.host_op_id = 0
      · exact .inl ⟨if_pos hid, hid⟩
      · rw [if_neg hid]
        exact .inr (by simp [IsLeast])
    · obtain ⟨hmem, hle⟩ := ih.resolve_left fun h => hmini h.2
      rw [idsSinceZero_concat]
      by_cases hid : call.host_op_id = 0
      · exact .inl ⟨if_pos hid, by rw [hid, Nat.min_zero]⟩
      · rw [if_neg hid]
        refine .inr ⟨?_, fun id hid => ?_⟩
        · rcases min_choice mini call.host_op_id with hmin | hmin
          · rw [hmin]
            exact List.mem_append_left _ hmem
          · rw [hmin]
            exact List.mem_append_right _ (List.mem_singleton_self _)
        · rcases List.mem_append.1 hid with hid | hid
          · exact (min_le_left _ _).trans (hle hid)
          · exact (min_le_right _ _).trans (List.mem_singleton.1 hid).ge
    · rw [List.append_nil]
      exact ih

/-! ## The snapshots that are left -/

/-- The erasures leave the snapshots of other ids, and the one that is maintained. -/
theorem mem_foldl_erase {ids : List ℕ} {kept : ℕ} {e : ℕ × MemoryMap} :
    e ∈ (ids.foldl (fun (memory_snapshot : MemorySnapshot) id =>
      if id = kept then memory_snapshot else memory_snapshot.erase id) memory_snapshot).toList ↔
    e ∈ memory_snapshot.toList ∧ (e.1 ∈ ids → e.1 = kept) := by
  induction ids generalizing memory_snapshot with
  | nil => simp
  | cons id ids ih =>
    rw [List.foldl_cons, ih]
    split_ifs with hkept
    · subst hkept
      simp only [List.mem_cons]
      tauto
    · rw [OrderedMap.mem_erase, List.mem_cons]
      constructor
      · rintro ⟨⟨he, hne⟩, hids⟩
        exact ⟨he, fun hor => hor.elim (fun heq => absurd heq hne) hids⟩
      · rintro ⟨he, hids⟩
        exact ⟨⟨he, fun heq => hkept (heq ▸ hids (.inl heq))⟩, fun hmem => hids (.inr hmem)⟩

/-- The largest number of a list. -/
theorem foldl_max_eq_iff {ids : List ℕ} {id : ℕ} (h : id ∈ ids) :
    ids.foldl max 0 = id ↔ ∀ i ∈ ids, i ≤ id := by
  have hne : ids ≠ [] := List.ne_nil_of_mem h
  rw [List.foldl_max_eq_max hne, Nat.zero_max, List.max_eq_iff hne]
  exact and_iff_right h

/-- The end of the analysis leaves the snapshots from the smallest id on, and the last one of the
earlier ones. -/
theorem mem_redshowAnalysisEnd {mini : ℕ} (hmini : mini ≠ 0) {e : ℕ × MemoryMap} :
    e ∈ (redshowAnalysisEnd false mini memory_snapshot).toList ↔ e ∈ memory_snapshot.toList ∧
      (e.1 < mini → ∀ d ∈ memory_snapshot.toList, d.1 < mini → d.1 ≤ e.1) := by
  have hids : ∀ id, id ∈ (memory_snapshot.toList.map Prod.fst).filter (fun id => id < mini) ↔
      (∃ d ∈ memory_snapshot.toList, d.1 = id) ∧ id < mini := fun id => by simp
  unfold redshowAnalysisEnd
  rw [if_pos ⟨hmini, rfl⟩, mem_foldl_erase]
  refine and_congr_right fun he => ⟨fun h hlt d hd hdlt => ?_, fun h hmem => ?_⟩
  · have hmem := (hids e.1).2 ⟨⟨e, he, rfl⟩, hlt⟩
    exact (foldl_max_eq_iff hmem).1 (h hmem).symm d.1 ((hids d.1).2 ⟨⟨d, hd, rfl⟩, hdlt⟩)
  · refine ((foldl_max_eq_iff hmem).2 fun i hi => ?_).symm
    obtain ⟨⟨d, hd, rfl⟩, hdlt⟩ := (hids i).1 hi
    exact h ((hids e.1).1 hmem).2 d hd hdlt

/-- The snapshots that are left hide nothing from the ids that count: what is looked up for them and
later ones is as before, and at most one earlier snapshot is left. -/
def Invisible (ids : List ℕ) (memory_snapshot left : MemorySnapshot) : Prop :=
  ∀ mini, IsLeast {id | id ∈ ids} mini →
    (∀ t ≥ mini, left.prev t = memory_snapshot.prev t) ∧
    ∀ e ∈ left.toList, ∀ d ∈ left.toList, e.1 < mini → d.1 < mini → e = d

/-- The erasures before the smallest id stay invisible. -/
theorem prev_redshowAnalysisEnd {mini t : ℕ} (hmini : mini ≠ 0) (ht : mini ≤ t) :
    (redshowAnalysisEnd false mini memory_snapshot).prev t = memory_snapshot.prev t := by
  cases hprev : memory_snapshot.prev t with
  | none =>
    rw [OrderedMap.prev_eq_none_iff] at hprev ⊢
    exact fun e he => hprev e ((mem_redshowAnalysisEnd hmini).1 he).1
  | some e =>
    rw [OrderedMap.prev_eq_some_iff] at hprev ⊢
    obtain ⟨⟨he, hle⟩, hlast⟩ := hprev
    have hleft : e.1 < mini → ∀ d ∈ memory_snapshot.toList, d.1 < mini → d.1 ≤ e.1 := by
      intro _ d hd hdlt
      rcases hlast d hd (by omega) with rfl | hlt
      · exact le_rfl
      · exact hlt.le
    refine ⟨⟨(mem_redshowAnalysisEnd hmini).2 ⟨he, hleft⟩, hle⟩, fun d hd hdle => ?_⟩
    exact hlast d ((mem_redshowAnalysisEnd hmini).1 hd).1 hdle

/-- The pruning is invisible for the ids that count, which are all of them unless one is `0`.
Without such ids, and with the data flow analysis, the snapshots stay as they are. -/
theorem analysisEnd_invisible (log_data_callback data_flow : Bool) (calls : List AnalyzeCall)
    (memory_snapshot : MemorySnapshot) :
    let ids := analyzedIds log_data_callback calls
    let left := analyzed log_data_callback data_flow calls memory_snapshot
    (data_flow = false → Invisible (idsSinceZero ids) memory_snapshot left) ∧
      (0 ∉ ids → idsSinceZero ids = ids) ∧
      (idsSinceZero ids = [] ∨ data_flow = true → left = memory_snapshot) := by
  intro ids left
  refine ⟨?_, idsSinceZero_of_notMem, ?_⟩
  · rintro rfl mini hleast
    have hmini : mini ≠ 0 := ne_zero_of_mem_idsSinceZero hleast.1
    have hfold : calls.foldl (redshowAnalyze log_data_callback) redshowAnalysisBegin = mini := by
      rcases foldl_redshowAnalyze log_data_callback calls with ⟨hnil, -⟩ | hleast'
      · exact absurd (hnil ▸ hleast.1) List.not_mem_nil
      · exact hleast'.unique hleast
    have hleft : left = redshowAnalysisEnd false mini memory_snapshot := by
      show redshowAnalysisEnd _ _ _ = _
      rw [hfold]
    rw [hleft]
    refine ⟨fun t ht => prev_redshowAnalysisEnd hmini ht, fun e he d hd hlt hdlt => ?_⟩
    obtain ⟨he, hlast⟩ := (mem_redshowAnalysisEnd hmini).1 he
    obtain ⟨hd, hdlast⟩ := (mem_redshowAnalysisEnd hmini).1 hd
    exact OrderedMap.eq_of_key he hd (le_antisymm (hdlast hdlt e he hlt) (hlast hlt d hd hdlt))
  · have hunchanged : ∀ mini, ¬(mini ≠ 0 ∧ data_flow = false) →
        redshowAnalysisEnd data_flow mini memory_snapshot = memory_snapshot := fun _ h => if_neg h
    rintro (hnil | rfl)
    · refine hunchanged _ fun h => h.1 ?_
      rcases foldl_redshowAnalyze log_data_callback calls with ⟨-, hzero⟩ | hleast
      · exact hzero
      · exact absurd (hnil ▸ hleast.1) List.not_mem_nil
    · exact hunchanged _ (by simp)

/-- Kernels with the ids `4` and `3` leave the snapshots `2` and `3` of three blocks. -/
theorem analysisEnd_invisible_twoKernels :
    let memory_snapshot := storeAfter [.register 0 7 1 100 200 1000 2000,
      .register 0 8 2 200 300 3000 4000, .register 0 9 3 300 400 5000 6000]
    let left := analyzed true false [⟨4, true⟩, ⟨3, true⟩] memory_snapshot
    Invisible [4, 3] memory_snapshot left ∧ left.toList.map Prod.fst = [2, 3] :=
  ⟨(analysisEnd_invisible true false [⟨4, true⟩, ⟨3, true⟩] _).1 rfl, by decide⟩

/-- The id `0` of a first kernel is forgotten, and the snapshot that is looked up for it erased. -/
theorem not_analysisEnd_invisible : ¬∀ (calls : List AnalyzeCall)
    (memory_snapshot : MemorySnapshot), Invisible (analyzedIds true calls) memory_snapshot
      (analyzed true false calls memory_snapshot) := by
  intro h
  have hleast : IsLeast {id | id ∈ analyzedIds true [⟨0, true⟩, ⟨5, true⟩]} 0 :=
    ⟨by decide, fun _ _ => Nat.zero_le _⟩
  have hprev := (h [⟨0, true⟩, ⟨5, true⟩] (storeAfter [.register 0 7 0 100 200 1000 2000,
    .register 0 8 1 200 300 3000 4000, .register 0 9 2 300 400 5000 6000]) 0 hleast).1 0 le_rfl
  exact absurd hprev (by decide)

end TenProf
