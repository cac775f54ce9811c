import TenProf.MemoryProfile.State

/-!
# What the analysis of a kernel collects

The patches of a kernel are analysed into one trace, which only `analysis_begin` and `unit_access`
touch. In the end it has an entry for each object accessed, and its ranges cover exactly the bytes
accessed of it.
-/

namespace TenProf.MemoryProfile

/-- A list of accesses touches an object, which is an allocation on the device. -/
def Touches (accesses : List Access) (m : ℕ) : Prop :=
  REDSHOW_MEMORY_HOST < m ∧ ∃ access ∈ accesses, access.memory_op_id = m

/-- A list of accesses has one to a byte of an object. -/
def Reaches (accesses : List Access) (m x : ℕ) : Prop :=
  ∃ access ∈ accesses, access.memory_op_id = m ∧
    access.memory_range.start ≤ x ∧ x < access.memory_range.stop

/-- What a trace holds after accesses: the objects touched, with the bytes reached of each. -/
structure Collected (accesses : List Access) (access_memory : OrderedMap ℕ RangeSet) : Prop where
  touched : ∀ m, (access_memory.find? m).isSome ↔ Touches accesses m
  proper : ∀ m ranges, access_memory.find? m = some ranges → Proper ranges.toList
  covered : ∀ m ranges, access_memory.find? m = some ranges →
    ∀ x, Covered ranges.toList x ↔ Reaches accesses m x

/-- The state after accesses of a kernel, whose trace is the one at `i`. -/
structure Analyzed (s : MemoryProfile) (i : ℕ × ℕ) (accesses : List Access) (s' : MemoryProfile) :
    Prop where
  frame : s' = { s with kernel_trace := s'.kernel_trace, trace := s'.trace }
  trace : s'.trace = some i
  others : ∀ i', i' ≠ i → s'.traceAt i' = s.traceAt i'
  collected : ∃ t, s'.traceAt i = some t ∧ t.op_id = i.2 ∧ Collected accesses t.access_memory

variable {s s' : MemoryProfile} {i : ℕ × ℕ} {accesses : List Access} {access : Access}

/-- An object that is reached is touched. -/
theorem Reaches.touches {m x : ℕ} (h : Reaches accesses m x) (hm : REDSHOW_MEMORY_HOST < m) :
    Touches accesses m := by
  obtain ⟨access, haccess, hid, -⟩ := h
  exact ⟨hm, access, haccess, hid⟩

/-- The objects touched by one more access. -/
theorem touches_append_singleton (m : ℕ) : Touches (accesses ++ [access]) m ↔
    Touches accesses m ∨ REDSHOW_MEMORY_HOST < m ∧ access.memory_op_id = m := by
  unfold Touches
  simp only [List.mem_append, List.mem_singleton, or_and_right, exists_or, exists_eq_left,
    and_or_left]

/-- The bytes reached by one more access. -/
theorem reaches_append_singleton (m x : ℕ) : Reaches (accesses ++ [access]) m x ↔
    Reaches accesses m x ∨ access.memory_op_id = m ∧
      access.memory_range.start ≤ x ∧ x < access.memory_range.stop := by
  unfold Reaches
  simp only [List.mem_append, List.mem_singleton, or_and_right, exists_or, exists_eq_left]

/-- One more range adds its bytes. -/
theorem addRange_spec {memory : RangeSet} (hproper : Proper memory.toList) (r : AccessRange) :
    Proper (addRange memory r.toMemoryRange).toList ∧
      ∀ x, Covered (addRange memory r.toMemoryRange).toList x ↔
        Covered memory.toList x ∨ r.start ≤ x ∧ x < r.stop := by
  unfold addRange
  by_cases hempty : memory.toList = []
  · have hlist : (memory.emplace r.start r.stop).toList = [(r.start, r.stop)] := by
      rw [OrderedMap.toList_emplace_of_gt _ (by simp [hempty]), hempty, List.nil_append]
    rw [if_pos (List.isEmpty_iff.2 hempty), hlist, hempty]
    refine ⟨?_, fun x => by simp⟩
    unfold Proper
    simpa using r.start_lt_stop
  · rw [if_neg (by rwa [List.isEmpty_iff])]
    exact ⟨proper_mergeMemoryRange hproper r, covered_mergeMemoryRange hproper r.toMemoryRange⟩

/-- What a trace holds after one more access. -/
theorem Collected.add {access_memory : OrderedMap ℕ RangeSet}
    (h : Collected accesses access_memory) (hm : REDSHOW_MEMORY_HOST < access.memory_op_id) :
    Collected (accesses ++ [access]) (access_memory.set access.memory_op_id
      (addRange (access_memory.findD access.memory_op_id ∅)
        access.memory_range.toMemoryRange)) := by
  -- An object without an entry has not been touched.
  have hnone : access_memory.find? access.memory_op_id = none →
      ∀ x, ¬Reaches accesses access.memory_op_id x := by
    intro hfind x hx
    have := (h.touched _).2 (hx.touches hm)
    rw [hfind] at this
    exact absurd this (by simp)
  have hproper : Proper (access_memory.findD access.memory_op_id ∅).toList := by
    unfold OrderedMap.findD
    cases hfind : access_memory.find? access.memory_op_id with
    | none => simp [Proper]
    | some ranges => exact h.proper _ _ hfind
  have hcovered : ∀ x, Covered (access_memory.findD access.memory_op_id ∅).toList x ↔
      Reaches accesses access.memory_op_id x := by
    unfold OrderedMap.findD
    cases hfind : access_memory.find? access.memory_op_id with
    | none => exact fun x => iff_of_false (covered_nil x) (hnone hfind x)
    | some ranges => exact h.covered _ _ hfind
  obtain ⟨hproper', hcovered'⟩ := addRange_spec hproper access.memory_range
  constructor
  · intro m
    rw [touches_append_singleton, OrderedMap.find?_set, ← h.touched]
    split_ifs with heq
    · simp [heq, hm]
    · simp [Ne.symm heq]
  · intro m ranges hfind
    rw [OrderedMap.find?_set] at hfind
    split_ifs at hfind with heq
    · rw [← Option.some.inj hfind]
      exact hproper'
    · exact h.proper m ranges hfind
  · intro m ranges hfind x
    rw [reaches_append_singleton]
    rw [OrderedMap.find?_set] at hfind
    split_ifs at hfind with heq
    · rw [← Option.some.inj hfind, hcovered', hcovered, heq]
      simp
    · rw [h.covered m ranges hfind]
      simp [Ne.symm heq]

/-- The trace at a place after one is replaced. -/
theorem traceAt_setTrace (s : MemoryProfile) (i i' : ℕ × ℕ) (t : MemoryProfileTrace) :
    (s.setTrace i t).traceAt i' = if i' = i then some t else s.traceAt i' := by
  unfold setTrace traceAt
  rw [OrderedMap.findD_set]
  by_cases hcpu : i'.1 = i.1
  · rw [if_pos hcpu, OrderedMap.find?_set, hcpu]
    simp [Prod.ext_iff, hcpu]
  · rw [if_neg hcpu, if_neg fun h => hcpu (congrArg Prod.fst h)]

/-- The trace at a place after it is replaced. -/
theorem traceAt_setTrace_self (s : MemoryProfile) (i : ℕ × ℕ) (t : MemoryProfileTrace) :
    (s.setTrace i t).traceAt i = some t := by rw [traceAt_setTrace, if_pos rfl]

/-- The first patch of a kernel begins. -/
theorem analyzed_analysisBegin (hnone : s.traceAt i = none) :
    Analyzed s i [] (s.analysisBegin i.1 i.2) := by
  have hstate : s.analysisBegin i.1 i.2 = { s.setTrace i ⟨i.2, ∅⟩ with trace := some i } := by
    unfold analysisBegin
    dsimp only
    rw [Prod.mk.eta, hnone]
    rfl
  have htrace : ∀ i', (s.analysisBegin i.1 i.2).traceAt i' =
      if i' = i then some ⟨i.2, ∅⟩ else s.traceAt i' := fun i' => by
    rw [hstate]
    exact traceAt_setTrace s i i' _
  constructor
  · rw [hstate]
    rfl
  · rfl
  · intro i' hne
    rw [htrace, if_neg hne]
  · refine ⟨⟨i.2, ∅⟩, by rw [htrace, if_pos rfl], rfl, ?_⟩
    constructor <;> simp [Touches]

namespace Analyzed

variable (h : Analyzed s i accesses s')

include h

/-- A further patch of the kernel begins. -/
theorem analysisBegin : Analyzed s i accesses (s'.analysisBegin i.1 i.2) := by
  obtain ⟨t, ht, hop, hcollected⟩ := h.collected
  have hstate : s'.analysisBegin i.1 i.2 = s' := by
    unfold MemoryProfile.analysisBegin
    dsimp only
    rw [Prod.mk.eta, ht, ← h.trace]
    rfl
  rw [hstate]
  exact h

/-- An access is added to the trace. -/
theorem unitAccess (access : Access) :
    ∃ s'', s'.unitAccess access = some s'' ∧ Analyzed s i (accesses ++ [access]) s'' := by
  obtain ⟨t, ht, hop, hcollected⟩ := h.collected
  unfold MemoryProfile.unitAccess
  by_cases hm : access.memory_op_id ≤ REDSHOW_MEMORY_HOST
  · -- The access is ignored.
    rw [if_pos hm]
    have hne : ∀ m, ¬(REDSHOW_MEMORY_HOST < m ∧ access.memory_op_id = m) := by
      rintro m ⟨hlt, rfl⟩
      omega
    refine ⟨s', rfl, h.frame, h.trace, h.others, t, ht, hop, ?_, hcollected.proper, ?_⟩
    · intro m
      rw [touches_append_singleton, or_iff_left (hne m), hcollected.touched]
    · intro m ranges hfind x
      have htouch := (hcollected.touched m).1 (by rw [hfind]; rfl)
      rw [reaches_append_singleton, hcollected.covered m ranges hfind, or_iff_left]
      exact fun hx => hne m ⟨htouch.1, hx.1⟩
  · rw [if_neg hm, h.trace, Option.bind_some, ht, Option.map_some]
    refine ⟨_, rfl, ?_, h.trace, ?_, _, traceAt_setTrace_self _ _ _, hop,
      hcollected.add (not_le.1 hm)⟩
    · rw [h.frame]
      rfl
    · intro i' hne
      rw [traceAt_setTrace, if_neg hne]
      exact h.others i' hne

/-- The accesses of a patch are added to the trace. -/
theorem foldlM_unitAccess (patch : List Access) :
    ∃ s'', patch.foldlM MemoryProfile.unitAccess s' = some s'' ∧
      Analyzed s i (accesses ++ patch) s'' := by
  induction patch generalizing s' accesses with
  | nil => exact ⟨s', rfl, by rwa [List.append_nil]⟩
  | cons access patch ih =>
    obtain ⟨s₁, hs₁, h₁⟩ := h.unitAccess access
    obtain ⟨s₂, hs₂, h₂⟩ := ih h₁
    refine ⟨s₂, ?_, ?_⟩
    · rw [List.foldlM_cons, hs₁]
      exact hs₂
    · rwa [List.append_assoc, List.singleton_append] at h₂

/-- Further patches of the kernel are analysed. -/
theorem foldlM_analyzePatch {op : Kernel} (hi : i = (op.cpu_thread, op.op_id))
    (patches : List (List Access)) :
    ∃ s'', patches.foldlM (analyzePatch op) s' = some s'' ∧
      Analyzed s i (accesses ++ patches.flatten) s'' := by
  induction patches generalizing s' accesses with
  | nil => exact ⟨s', rfl, by rwa [List.flatten_nil, List.append_nil]⟩
  | cons patch patches ih =>
    obtain ⟨s₁, hs₁, h₁⟩ := h.analysisBegin.foldlM_unitAccess patch
    obtain ⟨s₂, hs₂, h₂⟩ := ih h₁
    refine ⟨s₂, ?_, ?_⟩
    · rw [hi] at hs₁
      rw [List.foldlM_cons]
      show (analyzePatch op s' patch).bind _ = _
      rw [analyzePatch, hs₁]
      exact hs₂
    · rwa [List.append_assoc, ← List.flatten_cons] at h₂

end Analyzed

/-- The patches of a kernel, if it has any, are analysed into one trace. -/
theorem exists_foldlM_analyzePatch (op : Kernel)
    (hnone : s.traceAt (op.cpu_thread, op.op_id) = none) {patches : List (List Access)}
    (hne : patches ≠ []) :
    ∃ s', patches.foldlM (analyzePatch op) s = some s' ∧
      Analyzed s (op.cpu_thread, op.op_id) patches.flatten s' := by
  obtain ⟨patch, patches, rfl⟩ := List.exists_cons_of_ne_nil hne
  obtain ⟨s₁, hs₁, h₁⟩ := (analyzed_analysisBegin hnone).foldlM_unitAccess patch
  obtain ⟨s₂, hs₂, h₂⟩ := h₁.foldlM_analyzePatch rfl patches
  refine ⟨s₂, ?_, h₂⟩
  rw [List.foldlM_cons]
  show (analyzePatch op s patch).bind _ = _
  rw [analyzePatch, hs₁]
  exact hs₂

end TenProf.MemoryProfile
