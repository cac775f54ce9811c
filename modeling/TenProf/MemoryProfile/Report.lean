import Mathlib.Data.Set.Card
import TenProf.MemoryProfile.Fragmentation

/-!
# The fragmentation report of a run

For every sequence of registrations, releases, and kernels, each analysed before its callback: what
is filed for a kernel and an object that it accessed is the length of the longest stretch of bytes
of the object that no kernel so far has accessed, the part of the blank bytes that lies outside such
a stretch, and the part of the object that has been accessed (`report_run`). Hence the largest chunk
never grows from one kernel to the next, and the repair that the callback has for this case changes
nothing.
-/

namespace TenProf.MemoryProfileReport

open MemoryProfile (Event Access Touches Reaches AccessedIn Inv Valid Blank Gaps KernelUpdated
  kernelIds memoryIds)

/-- The bytes of an object that no kernel has accessed. -/
def blankBytes (es : List Event) (memory : Memory) : Set ℕ :=
  {x | memory.memory_range.start ≤ x ∧ x < memory.memory_range.stop ∧
    ¬AccessedIn es memory.op_id x}

/-- What is filed for an object after events. -/
structure Fragmented (es : List Event) (memory : Memory) (f : ChunkFragmentation) : Prop where
  largest_chunk : IsGreatest (stretches (blankBytes es memory)) f.largest_chunk
  fragmentation : f.fragmentation = if blankBytes es memory = ∅ then 0
    else 1 - (f.largest_chunk : ℚ) / (blankBytes es memory).ncard
  access_rate : f.access_rate * memory.len = memory.len - (blankBytes es memory).ncard

/-- Objects are as their constructor makes them: the length is that of the range. -/
def Sized (es : List Event) : Prop :=
  ∀ op, Event.memory op ∈ es →
    op.len = op.memory_range.stop - op.memory_range.start ∧ op.len < 2^64

/-- The state after events. -/
structure Reported (unset : ℕ × ℕ → ℕ) (es : List Event) (s : MemoryProfileReport) : Prop where
  profile : Inv es s.profile
  gaps : Gaps s.profile
  larget_ids : ∀ m, (s.larget_chunk_with_memories.find? m).isSome → m ∈ memoryIds es
  larget : ∀ memory, Event.memory memory ∈ es → REDSHOW_MEMORY_HOST < memory.op_id →
    ∃ n, s.larget_chunk_with_memories.find? memory.op_id = some n ∧
      IsGreatest (stretches (blankBytes es memory)) n
  reports : ∀ before op patches later, es = before ++ .kernel op patches :: later →
    ∀ memory, Event.memory memory ∈ before → Touches patches.flatten memory.op_id →
      ∃ f, s.fragmentationAt (unset (op.cpu_thread, op.op_id)) op.op_id memory.op_id = some f ∧
        Fragmented (before ++ [.kernel op patches]) memory f
  touched : ∀ t k m, (s.fragmentationAt t k m).isSome → ∃ op patches,
    Event.kernel op patches ∈ es ∧ t = unset (op.cpu_thread, op.op_id) ∧ k = op.op_id ∧
      Touches patches.flatten m

variable {unset : ℕ × ℕ → ℕ} {es : List Event} {e : Event} {s s' : MemoryProfileReport}
  {memory : Memory} {op : Kernel} {patches : List (List Access)} {c : RangeSet} {m : ℕ}

/-- The blank bytes of an object that an event does not access. -/
theorem blankBytes_append_singleton
    (h : ∀ op patches, e = .kernel op patches → ∀ x, ¬Reaches patches.flatten memory.op_id x) :
    blankBytes (es ++ [e]) memory = blankBytes es memory := by
  have hnot : ∀ x, ¬∃ op patches, e = .kernel op patches ∧ Reaches patches.flatten memory.op_id x :=
    fun x ⟨op, patches, heq, hx⟩ => h op patches heq x hx
  unfold blankBytes
  simp only [MemoryProfile.accessedIn_append_singleton, or_iff_left (hnot _)]

/-- No byte gets blank. -/
theorem blankBytes_subset (es : List Event) (e : Event) (memory : Memory) :
    blankBytes (es ++ [e]) memory ⊆ blankBytes es memory := by
  rintro x ⟨hge, hlt, hnot⟩
  exact ⟨hge, hlt, fun hx => hnot (MemoryProfile.accessedIn_append_singleton.2 (.inl hx))⟩

/-- The blank chunks of an object cover its blank bytes. -/
theorem blankBytes_eq {s : MemoryProfile} (hinv : Inv es s) (hmem : Event.memory memory ∈ es)
    {es' : List Event} (hsub : es' ⊆ es) (h : Blank es' memory.op_id c) :
    blankBytes es' memory = {x | Covered c.toList x} := by
  obtain ⟨memory', hmem', hid, hcovered⟩ := h.covered
  have hfind := (hinv.memories memory.op_id memory).2 ⟨hmem, rfl⟩
  have hfind' := (hinv.memories memory.op_id memory').2 ⟨hsub hmem', hid⟩
  rw [hfind, Option.some.injEq] at hfind'
  ext x
  show _ ∧ _ ∧ _ ↔ Covered c.toList x
  rw [hcovered, ← hfind', and_assoc]

/-- What is filed for an object when its blank chunks do not touch. -/
theorem fragmented_of_spaced (hlen : memory.len = memory.memory_range.stop -
    memory.memory_range.start) (hspaced : MemoryProfile.Spaced c.toList)
    (hblank : blankBytes es memory = {x | Covered c.toList x}) :
    totalLength c.toList ≤ memory.len ∧ Fragmented es memory (chunkFragmentation memory c) := by
  have hpoints : blankBytes es memory = (points c.toList : Set ℕ) := by
    rw [hblank]
    ext x
    rw [Finset.mem_coe, mem_points]
    rfl
  have hcard : (blankBytes es memory).ncard = totalLength c.toList := by
    rw [hpoints, Set.ncard_coe_finset, hspaced.chunks.card_points]
  have htotal : totalLength c.toList ≤ memory.len := by
    have hsub : points c.toList ⊆
        Finset.Ico memory.memory_range.start memory.memory_range.stop := by
      intro x hx
      have hx' : x ∈ blankBytes es memory := by
        rw [hpoints]
        exact hx
      exact Finset.mem_Ico.2 ⟨hx'.1, hx'.2.1⟩
    calc totalLength c.toList
      _ = (points c.toList).card := hspaced.chunks.card_points.symm
      _ ≤ (Finset.Ico memory.memory_range.start memory.memory_range.stop).card :=
        Finset.card_le_card hsub
      _ = memory.len := by rw [Nat.card_Ico, hlen]
  refine ⟨htotal, ?_, ?_, ?_⟩
  · rw [hblank]
    exact hspaced.gaps.isGreatest_maxLength
  · have hempty : blankBytes es memory = ∅ ↔ maxLength c.toList = 0 := by
      rw [hblank, Set.eq_empty_iff_forall_notMem]
      constructor
      · intro hnone
        by_contra hne
        obtain ⟨e, he, hlength⟩ := exists_length_eq_maxLength hne
        exact hnone e.1 ⟨e, he, le_rfl, by omega⟩
      · rintro hzero x ⟨e, he, hge, hlt⟩
        have hle := length_le_maxLength he
        omega
    show (if maxLength c.toList = 0 then 0 else 1 - (maxLength c.toList : ℚ) / _) = _
    simp only [hempty, hcard]
    rfl
  · show ((memory.len - totalLength c.toList : ℕ) : ℚ) / memory.len * memory.len = _
    rw [hcard, Nat.cast_sub htotal]
    rcases eq_or_ne (memory.len : ℚ) 0 with hzero | hne
    · have hnil : totalLength c.toList = 0 := by
        have : memory.len = 0 := by exact_mod_cast hzero
        omega
      rw [hzero, hnil]
      simp
    · exact div_mul_cancel₀ _ hne

/-! ## A kernel -/

/-- The op id of a kernel is new. -/
theorem op_id_notMem (hvalid : Valid (es ++ [.kernel op patches])) : op.op_id ∉ kernelIds es := by
  have hnodup := hvalid.kernels
  rw [MemoryProfile.kernelIds_append_singleton, List.nodup_append'] at hnodup
  exact fun hmem => hnodup.2.2 hmem List.mem_cons_self

/-- A kernel that is analysed: its callback ends, with the blank chunks updated. -/
theorem exists_kernelUpdated {s : MemoryProfile} (h : Inv es s)
    (hvalid : Valid (es ++ [.kernel op patches])) (hne : patches ≠ []) :
    ∃ s₁ s', patches.foldlM (MemoryProfile.analyzePatch op) s = some s₁ ∧
      MemoryProfile.Analyzed s (op.cpu_thread, op.op_id) patches.flatten s₁ ∧
      Settles (fun fuel => s₁.kernelOpCallback fuel op) s' ∧
      KernelUpdated s op patches.flatten s' ∧ Inv (es ++ [.kernel op patches]) s' := by
  have hnew := op_id_notMem hvalid
  obtain ⟨s₁, hs₁, hanalyzed⟩ :=
    MemoryProfile.exists_foldlM_analyzePatch op (h.traceAt_eq_none hnew) hne
  obtain ⟨s', hsettles, hs'⟩ := hanalyzed.kernelOpCallback (h.blankAt_eq_none hnew) fun m hm => by
    obtain ⟨memory, hmem, rfl⟩ := hvalid.registered es op patches [] rfl m hm
    obtain ⟨c, hc, hblank⟩ :=
      h.unuseSet_eq hmem (hvalid.le memory (List.mem_append_left _ hmem)) hm.1
    exact ⟨memory, c, (h.memories _ _).2 ⟨hmem, rfl⟩, h.nodes memory hmem hm.1, hc, hblank.chunks⟩
  exact ⟨s₁, s', hs₁, hanalyzed, hsettles, hs', h.after_kernel hvalid hs'⟩

/-- After the callback of a kernel that is analysed there is a map of its blank chunks. -/
theorem isSome_find?_kernelOpCallback {s s' : MemoryProfile} {i : ℕ × ℕ}
    {t : MemoryProfileTrace} {fuel : ℕ} (htrace : s.trace = some i) (ht : s.traceAt i = some t)
    (h : s.kernelOpCallback fuel op = some s') : (s'.blank_chunks.find? t.op_id).isSome := by
  unfold MemoryProfile.kernelOpCallback at h
  have htrace' : (s.updateOpNode op.op_id op.ctx_id).trace = some i := htrace
  have ht' : (s.updateOpNode op.op_id op.ctx_id).traceAt i = some t := ht
  simp only [htrace', ht', Option.bind_some] at h
  obtain ⟨s₁, hs₁, rfl⟩ := Option.map_eq_some_iff.1 h
  show (s₁.blank_chunks.find? t.op_id).isSome
  have hset : ∀ (m : OrderedMap ℕ (OrderedMap ℕ RangeSet)) k v, (m.find? t.op_id).isSome →
      ((m.set k v).find? t.op_id).isSome := by
    intro m k v hm
    rw [OrderedMap.find?_set]
    split_ifs
    · rfl
    · exact hm
  refine foldlM_invariant (I := fun s => (s.blank_chunks.find? t.op_id).isSome)
    (fun s₁ e s₂ h₁ _ hs₂ => ?_) ?_ hs₁
  · obtain ⟨memory, -, hs₂⟩ := Option.bind_eq_some_iff.1 hs₂
    obtain ⟨c, -, hs₂⟩ := Option.bind_eq_some_iff.1 hs₂
    obtain ⟨node_id, -, hs₂⟩ := Option.bind_eq_some_iff.1 hs₂
    refine foldlM_invariant (I := fun s => (s.blank_chunks.find? t.op_id).isSome)
      (fun s₃ r s₄ h₃ _ hs₄ => ?_) (hset _ _ _ h₁) hs₂
    obtain ⟨c, -, hs₄⟩ := Option.bind_eq_some_iff.1 hs₄
    obtain ⟨c', -, rfl⟩ := Option.map_eq_some_iff.1 hs₄
    exact hset _ _ _ h₃
  · show ((OrderedMap.emplace _ t.op_id ∅).find? t.op_id).isSome
    rw [OrderedMap.find?_emplace, if_pos rfl]
    rfl

/-! ## One more event -/

/-- An event that accesses nothing. -/
theorem Reported.quiet (h : Reported unset es s)
    (hquiet : ∀ op patches, e = .kernel op patches → patches = [])
    (hprofile : Inv (es ++ [e]) s'.profile) (hgaps : Gaps s'.profile)
    (hlarget_ids : ∀ m, (s'.larget_chunk_with_memories.find? m).isSome → m ∈ memoryIds (es ++ [e]))
    (hlarget : ∀ memory, Event.memory memory ∈ es ++ [e] → REDSHOW_MEMORY_HOST < memory.op_id →
      ∃ n, s'.larget_chunk_with_memories.find? memory.op_id = some n ∧
        IsGreatest (stretches (blankBytes es memory)) n)
    (hreport : s'.object_fragmentation_of_kernel_per_thread =
      s.object_fragmentation_of_kernel_per_thread) : Reported unset (es ++ [e]) s' := by
  have hnot : ∀ op patches, e = .kernel op patches → ∀ m, ¬Touches patches.flatten m := by
    rintro op patches heq m ⟨-, access, haccess, -⟩
    rw [hquiet op patches heq] at haccess
    exact absurd haccess (by simp)
  have hentries : ∀ t k m, s'.fragmentationAt t k m = s.fragmentationAt t k m := by
    intro t k m
    unfold fragmentationAt
    rw [hreport]
  refine ⟨hprofile, hgaps, hlarget_ids, fun memory hmem hhost => ?_, ?_, ?_⟩
  · rw [blankBytes_append_singleton fun op patches heq x hx => hnot op patches heq _
      (hx.touches hhost)]
    exact hlarget memory hmem hhost
  · intro before op patches later heq memory hmem htouch
    rcases split_append_singleton heq with ⟨-, heq', -⟩ | ⟨later', -, heq'⟩
    · exact absurd htouch (hnot op patches heq'.symm _)
    · rw [hentries]
      exact h.reports before op patches later' heq' memory hmem htouch
  · intro t k m hentry
    rw [hentries] at hentry
    obtain ⟨op, patches, hmem, hrest⟩ := h.touched t k m hentry
    exact ⟨op, patches, List.mem_append_left _ hmem, hrest⟩

/-- The op ids of the objects after one more event. -/
theorem memoryIds_append_singleton (es : List Event) (e : Event) :
    memoryIds (es ++ [e]) = memoryIds es ++ memoryIds [e] := by
  unfold memoryIds
  rw [List.filterMap_append]

/-- The op id of an object that is registered. -/
theorem mem_memoryIds (hmem : Event.memory memory ∈ es) : memory.op_id ∈ memoryIds es :=
  List.mem_filterMap.2 ⟨_, hmem, rfl⟩

/-- `memory_op_callback`. -/
theorem Reported.memoryOp {op : Memory} (h : Reported unset es s)
    (hvalid : Valid (es ++ [.memory op])) (hsized : Sized (es ++ [.memory op])) {fuel : ℕ}
    (hs' : step unset fuel s (.memory op) = some s') :
    Reported unset (es ++ [.memory op]) s' := by
  obtain rfl := Option.some.inj hs'
  have hids : memoryIds (es ++ [.memory op]) = memoryIds es ++ [op.op_id] :=
    memoryIds_append_singleton es _
  have hnew : op.op_id ∉ memoryIds es := by
    have hnodup := hvalid.memories
    rw [hids, List.nodup_append'] at hnodup
    exact fun hmem => hnodup.2.2 hmem List.mem_cons_self
  have hle := hvalid.le op (by simp)
  -- The object is blank, since a kernel accesses only registered objects.
  have hblank : REDSHOW_MEMORY_HOST < op.op_id →
      blankBytes es op = Set.Ico op.memory_range.start op.memory_range.stop := by
    intro hhost
    ext x
    refine ⟨fun hx => ⟨hx.1, hx.2.1⟩, fun hx => ⟨hx.1, hx.2, ?_⟩⟩
    rintro ⟨op', patches, hmem, hreaches⟩
    obtain ⟨before, later, heq⟩ := List.append_of_mem hmem
    obtain ⟨memory, hmemory, hid⟩ := hvalid.of_append.registered before op' patches later heq _
      (hreaches.touches hhost)
    rw [heq, ← hid] at hnew
    exact hnew (mem_memoryIds (List.mem_append_left _ hmemory))
  have hfind : ∀ m, (s.larget_chunk_with_memories.emplace op.op_id op.len).find? m =
      if m = op.op_id then some op.len else s.larget_chunk_with_memories.find? m := by
    intro m
    have hnone : s.larget_chunk_with_memories.find? op.op_id = none := by
      rw [← Option.not_isSome_iff_eq_none]
      exact fun hsome => hnew (h.larget_ids _ hsome)
    rw [OrderedMap.emplace_of_none hnone, OrderedMap.find?_set]
  apply h.quiet
  · simp
  · exact h.profile.memory hvalid
  · have hstep : MemoryProfile.step fuel s.profile (.memory op) =
        some (s.profile.memoryOpCallback op) := rfl
    exact h.gaps.step (fun op' heq => Event.memory.inj heq ▸ hle) hstep
  · intro m hm
    rw [hfind] at hm
    rw [hids, List.mem_append, List.mem_singleton]
    split_ifs at hm with heq
    · exact .inr heq
    · exact .inl (h.larget_ids m hm)
  · intro memory hmem hhost
    rw [hfind]
    rcases List.mem_append.1 hmem with hmem | hmem
    · have hne : memory.op_id ≠ op.op_id := fun heq => hnew (heq ▸ mem_memoryIds hmem)
      rw [if_neg hne]
      exact h.larget memory hmem hhost
    · obtain rfl := Event.memory.inj (List.mem_singleton.1 hmem)
      refine ⟨memory.len, if_pos rfl, ?_⟩
      rw [hblank hhost, (hsized memory (by simp)).1]
      exact isGreatest_stretches_Ico _ _
  · rfl

/-- `memfree_op_callback`, which does not fail. -/
theorem Reported.memfreeOp {op : Memfree} (h : Reported unset es s)
    (hvalid : Valid (es ++ [.memfree op])) :
    ∃ s', (∀ fuel, step unset fuel s (.memfree op) = some s') ∧
      Reported unset (es ++ [.memfree op]) s' := by
  obtain ⟨profile, hprofile, hinv⟩ := h.profile.memfree hvalid
  have hmem : ∀ memory, Event.memory memory ∈ es ++ [.memfree op] ↔ Event.memory memory ∈ es := by
    simp
  refine ⟨{ s with profile := profile }, fun fuel => by rw [step, hprofile]; rfl, ?_⟩
  apply h.quiet
  · simp
  · exact hinv
  · have hstep : MemoryProfile.step 0 s.profile (.memfree op) = some profile := hprofile
    exact h.gaps.step (by simp) hstep
  · intro m hm
    rw [memoryIds_append_singleton]
    exact List.mem_append_left _ (h.larget_ids m hm)
  · exact fun memory hmemory => h.larget memory ((hmem memory).1 hmemory)
  · rfl

/-- A kernel that is not analysed. -/
theorem Reported.unsampled (h : Reported unset es s) (hvalid : Valid (es ++ [.kernel op []])) :
    ∃ s', Settles (fun fuel => step unset fuel s (.kernel op [])) s' ∧
      Reported unset (es ++ [.kernel op []]) s' := by
  obtain ⟨profile, hsettles, hinv⟩ := h.profile.kernel hvalid
  have hmem : ∀ memory, Event.memory memory ∈ es ++ [.kernel op []] ↔ Event.memory memory ∈ es := by
    simp
  refine ⟨{ s with profile := profile }, ?_, ?_⟩
  · have hstep : ∀ fuel, step unset fuel s (.kernel op []) =
        (MemoryProfile.step fuel s.profile (.kernel op [])).bind fun profile =>
          some { s with profile := profile } := by
      intro fuel
      show (s.profile.kernelOpCallback fuel op).bind _ = _
      simp only [h.profile.trace]
      rfl
    simp only [hstep]
    exact hsettles.bind (settles_const rfl)
  · obtain ⟨n, hn⟩ := hsettles
    apply h.quiet
    · exact fun op' patches heq => (Event.kernel.inj heq).2.symm
    · exact hinv
    · exact h.gaps.step (by simp) (hn n le_rfl)
    · intro m hm
      rw [memoryIds_append_singleton]
      exact List.mem_append_left _ (h.larget_ids m hm)
    · exact fun memory hmemory => h.larget memory ((hmem memory).1 hmemory)
    · rfl

/-- What the callback of a kernel finds to file: the blank chunks of the objects that it accessed,
as they should be. -/
theorem fragmented_of_blankAt {s profile : MemoryProfile} (h : Inv es s)
    (hvalid : Valid (es ++ [.kernel op patches])) (hsized : Sized es)
    (hupdated : KernelUpdated s op patches.flatten profile)
    (hinv : Inv (es ++ [.kernel op patches]) profile) (hgaps : Gaps profile)
    (hc : profile.blankAt op.op_id m = some c) :
    Touches patches.flatten m ∧ ∃ memory, Event.memory memory ∈ es ∧ memory.op_id = m ∧
      totalLength c.toList ≤ memory.len ∧
      Fragmented (es ++ [.kernel op patches]) memory (chunkFragmentation memory c) := by
  have hnew := op_id_notMem hvalid
  have htouch : Touches patches.flatten m := by
    by_contra hnot
    rw [hupdated.others op.op_id m fun hall => hnot hall.2, h.blankAt_eq_none hnew] at hc
    exact absurd hc (by simp)
  obtain ⟨memory, hmem, rfl⟩ := hvalid.registered es op patches [] rfl m htouch
  obtain ⟨c', hc', hblank⟩ := hupdated.exists_blank h hvalid memory.op_id htouch
  obtain rfl : c' = c := Option.some.inj (hc'.symm.trans hc)
  have heq := blankBytes_eq hinv (List.mem_append_left _ hmem)
    (List.Subset.refl _) hblank
  exact ⟨htouch, memory, hmem, rfl,
    fragmented_of_spaced (hsized memory hmem).1 (hgaps.chunks _ _ _ hc) heq⟩

/-- The state after the callback of a kernel that is analysed: what is filed for the objects that it
accessed is as it should be, and for the others nothing has changed. -/
structure KernelFiled (unset : ℕ × ℕ → ℕ) (es : List Event) (s : MemoryProfileReport) (op : Kernel)
    (patches : List (List Access)) (s' : MemoryProfileReport) : Prop where
  profile : Inv (es ++ [.kernel op patches]) s'.profile
  gaps : Gaps s'.profile
  filed : ∀ memory, Event.memory memory ∈ es → Touches patches.flatten memory.op_id →
    ∃ f, s'.fragmentationAt (unset (op.cpu_thread, op.op_id)) op.op_id memory.op_id = some f ∧
      s'.larget_chunk_with_memories.find? memory.op_id = some f.largest_chunk ∧
      Fragmented (es ++ [.kernel op patches]) memory f
  larget_others : ∀ m, ¬Touches patches.flatten m →
    s'.larget_chunk_with_memories.find? m = s.larget_chunk_with_memories.find? m
  others : ∀ t k m, ¬(t = unset (op.cpu_thread, op.op_id) ∧ k = op.op_id ∧
    Touches patches.flatten m) → s'.fragmentationAt t k m = s.fragmentationAt t k m

/-- The callback of a kernel that is analysed ends. -/
theorem Reported.exists_kernelFiled (h : Reported unset es s)
    (hvalid : Valid (es ++ [.kernel op patches])) (hsized : Sized es) (hne : patches ≠ []) :
    ∃ s', Settles (fun fuel => step unset fuel s (.kernel op patches)) s' ∧
      KernelFiled unset es s op patches s' := by
  obtain ⟨s₁, profile, hs₁, hanalyzed, hsettles, hupdated, hinv⟩ :=
    exists_kernelUpdated h.profile hvalid hne
  obtain ⟨t, ht, hop, -⟩ := hanalyzed.collected
  have hresult : ∃ fuel, s₁.kernelOpCallback fuel op = some profile := by
    obtain ⟨n, hn⟩ := hsettles
    exact ⟨n, hn n le_rfl⟩
  obtain ⟨fuel, hresult⟩ := hresult
  have hgaps : Gaps profile := (h.gaps.analyzePatches hs₁).kernelOpCallback hresult
  have hsome := isSome_find?_kernelOpCallback hanalyzed.trace ht hresult
  rw [hop] at hsome
  obtain ⟨unused_map, hmap⟩ := Option.isSome_iff_exists.1 hsome
  -- The entries of the map are the chunks of the objects accessed.
  have hentry : ∀ m c, (m, c) ∈ unused_map.toList ↔ profile.blankAt op.op_id m = some c := by
    intro m c
    rw [← OrderedMap.find?_eq_some_iff]
    unfold MemoryProfile.blankAt
    rw [hmap, Option.bind_some]
  have hfragmented : ∀ e ∈ unused_map.toList, Touches patches.flatten e.1 ∧
      ∃ memory, Event.memory memory ∈ es ∧ memory.op_id = e.1 ∧
        totalLength e.2.toList ≤ memory.len ∧
        Fragmented (es ++ [.kernel op patches]) memory (chunkFragmentation memory e.2) :=
    fun e he => fragmented_of_blankAt h.profile hvalid hsized hupdated hinv hgaps
      ((hentry e.1 e.2).1 he)
  have hkey : ∀ m, m ∈ unused_map.toList.map Prod.fst ↔ Touches patches.flatten m := by
    intro m
    constructor
    · intro hm
      obtain ⟨e, he, rfl⟩ := List.mem_map.1 hm
      exact (hfragmented e he).1
    · intro htouch
      obtain ⟨c, hc, -⟩ := hupdated.exists_blank h.profile hvalid m htouch
      exact List.mem_map_of_mem ((hentry m c).2 hc)
  -- No object has a larger chunk than before.
  have hfileable : ∀ e ∈ unused_map.toList, Fileable { s with profile := profile } e := by
    intro e he
    obtain ⟨htouch, memory, hmem, hid, htotal, hfrag⟩ := hfragmented e he
    obtain ⟨n, hn, hgreatest⟩ := h.larget memory hmem (hid ▸ htouch.1)
    refine ⟨n, memory, hid ▸ hn, ?_, ?_, (hsized memory hmem).2, htotal⟩
    · exact hgreatest.2 (stretches_mono (blankBytes_subset es _ memory) hfrag.largest_chunk.1)
    · exact (hinv.memories e.1 memory).2 ⟨List.mem_append_left _ hmem, hid⟩
  obtain ⟨s', hs', hfiled⟩ := exists_updateObjectFragmentationPerKernel hmap hfileable
    (unset (op.cpu_thread, op.op_id))
  refine ⟨s', ?_, ?_, ?_, ?_, ?_, ?_⟩
  · have hstep : ∀ fuel, step unset fuel s (.kernel op patches) =
        (s₁.kernelOpCallback fuel op).bind fun profile =>
          updateObjectFragmentationPerKernel { s with profile := profile }
            (unset (op.cpu_thread, op.op_id)) op.op_id := by
      intro fuel
      unfold step kernelOpCallback
      simp only [hs₁, Option.bind_some, hanalyzed.trace]
    simp only [hstep]
    exact hsettles.bind (settles_const hs')
  · rw [hfiled.profile]
    exact hinv
  · rw [hfiled.profile]
    exact hgaps
  · intro memory hmem htouch
    obtain ⟨e, he, hid⟩ := List.mem_map.1 ((hkey _).2 htouch)
    obtain ⟨memory', hmemory', hf⟩ := hfiled.entries e he
    obtain ⟨-, memory₁, hmem₁, hid₁, -, hfrag⟩ := hfragmented e he
    -- There is one object with the op id.
    have hfind : ∀ memory₂, Event.memory memory₂ ∈ es → memory₂.op_id = e.1 →
        profile.memories.find? e.1 = some memory₂ := fun memory₂ hmem₂ hid₂ =>
      (hinv.memories e.1 memory₂).2 ⟨List.mem_append_left _ hmem₂, hid₂⟩
    obtain rfl : memory = memory' :=
      Option.some.inj ((hfind memory hmem hid.symm).symm.trans hmemory')
    obtain rfl : memory = memory₁ := Option.some.inj ((hfind memory hmem hid.symm).symm.trans
      (hfind memory₁ hmem₁ hid₁))
    rw [← hid]
    exact ⟨_, hf, hfiled.larget e he, hfrag⟩
  · exact fun m hm => hfiled.larget_others m fun hmem => hm ((hkey m).1 hmem)
  · intro t k m hne
    rw [← hkey] at hne
    exact hfiled.others t k m hne

/-- A kernel that is analysed. -/
theorem Reported.sampled (h : Reported unset es s) (hvalid : Valid (es ++ [.kernel op patches]))
    (hfiled : KernelFiled unset es s op patches s') :
    Reported unset (es ++ [.kernel op patches]) s' := by
  have hmemory : ∀ {memory}, Event.memory memory ∈ es ++ [.kernel op patches] ↔
      Event.memory memory ∈ es := MemoryProfile.memory_mem_append_kernel
  have hids : memoryIds (es ++ [.kernel op patches]) = memoryIds es := by
    rw [memoryIds_append_singleton]
    exact List.append_nil _
  refine ⟨hfiled.profile, hfiled.gaps, ?_, ?_, ?_, ?_⟩
  · intro m hm
    rw [hids]
    by_cases htouch : Touches patches.flatten m
    · obtain ⟨memory, hmem, rfl⟩ := hvalid.registered es op patches [] rfl m htouch
      exact mem_memoryIds hmem
    · rw [hfiled.larget_others m htouch] at hm
      exact h.larget_ids m hm
  · intro memory hmem hhost
    by_cases htouch : Touches patches.flatten memory.op_id
    · obtain ⟨f, -, hlarget, hfrag⟩ := hfiled.filed memory (hmemory.1 hmem) htouch
      exact ⟨_, hlarget, hfrag.largest_chunk⟩
    · have hblank : blankBytes (es ++ [.kernel op patches]) memory = blankBytes es memory :=
        blankBytes_append_singleton fun op' patches' heq x hx => htouch (by
          rw [(Event.kernel.inj heq).2]
          exact hx.touches hhost)
      rw [hfiled.larget_others _ htouch, hblank]
      exact h.larget memory (hmemory.1 hmem) hhost
  · intro before op' patches' later heq memory hmem htouch
    rcases split_append_singleton heq with ⟨rfl, heq', -⟩ | ⟨later', -, heq'⟩
    · obtain ⟨rfl, rfl⟩ := Event.kernel.inj heq'
      obtain ⟨f, hf, -, hfrag⟩ := hfiled.filed memory hmem htouch
      exact ⟨f, hf, hfrag⟩
    · have hid : op'.op_id ≠ op.op_id := by
        intro hid
        refine op_id_notMem hvalid (hid ▸ List.mem_filterMap.2 ⟨.kernel op' patches', ?_, rfl⟩)
        rw [heq']
        simp
      rw [hfiled.others _ _ _ fun hall => hid hall.2.1]
      exact h.reports before op' patches' later' heq' memory hmem htouch
  · intro t k m hentry
    by_cases hkey : t = unset (op.cpu_thread, op.op_id) ∧ k = op.op_id ∧ Touches patches.flatten m
    · exact ⟨op, patches, by simp, hkey⟩
    · rw [hfiled.others t k m hkey] at hentry
      obtain ⟨op', patches', hmem, hrest⟩ := h.touched t k m hentry
      exact ⟨op', patches', List.mem_append_left _ hmem, hrest⟩

/-! ## Runs -/

/-- The earlier events of events with sized objects. -/
theorem Sized.of_append (h : Sized (es ++ [e])) : Sized es :=
  fun op hop => h op (List.mem_append_left _ hop)

/-- The run of valid events ends, with a report that is as it should be. -/
theorem exists_reported (unset : ℕ × ℕ → ℕ) (hvalid : Valid es) (hsized : Sized es) :
    ∃ s, Settles (fun fuel => run (step unset fuel) empty es) s ∧ Reported unset es s := by
  induction es using List.reverseRecOn with
  | nil =>
    refine ⟨empty, settles_const rfl, MemoryProfile.inv_empty, ?_, ?_, ?_, ?_, ?_⟩
    · constructor <;> simp [empty, MemoryProfile.empty, MemoryProfile.blankAt,
        MemoryProfile.traceAt, OrderedMap.findD]
    · simp [empty]
    · simp
    · simp
    · simp [empty, fragmentationAt, OrderedMap.findD]
  | append_singleton es e ih =>
    obtain ⟨s, hsettles, hs⟩ := ih hvalid.of_append hsized.of_append
    have hstep : ∃ s', Settles (fun fuel => step unset fuel s e) s' ∧
        Reported unset (es ++ [e]) s' := by
      cases e with
      | memory op =>
        have hop : step unset 0 s (.memory op) = some _ := rfl
        exact ⟨_, settles_const rfl, hs.memoryOp hvalid hsized hop⟩
      | memfree op =>
        obtain ⟨s', hs', hreported⟩ := hs.memfreeOp hvalid
        exact ⟨s', ⟨0, fun fuel _ => hs' fuel⟩, hreported⟩
      | kernel op patches =>
        by_cases hne : patches = []
        · subst hne
          exact hs.unsampled hvalid
        · obtain ⟨s', hs', hfiled⟩ := hs.exists_kernelFiled hvalid hsized.of_append hne
          exact ⟨s', hs', hs.sampled hvalid hfiled⟩
    obtain ⟨s', hsettles', hs'⟩ := hstep
    refine ⟨s', ?_, hs'⟩
    have hsnoc : ∀ fuel, run (step unset fuel) empty (es ++ [e]) =
        (run (step unset fuel) empty es).bind fun s => step unset fuel s e := by
      intro fuel
      rw [run_append]
      simp only [run_singleton]
    simp only [hsnoc]
    exact hsettles.bind hsettles'

/-- The largest chunk does not grow from one kernel to a later one. -/
theorem Fragmented.largest_chunk_le {es' : List Event} {f f' : ChunkFragmentation}
    (h : Fragmented es memory f) (h' : Fragmented es' memory f') (hsub : es ⊆ es') :
    f'.largest_chunk ≤ f.largest_chunk := by
  refine h.largest_chunk.2 (stretches_mono ?_ h'.largest_chunk.1)
  rintro x ⟨hge, hlt, hnot⟩
  refine ⟨hge, hlt, fun hx => hnot ?_⟩
  obtain ⟨op, patches, hmem, hreaches⟩ := hx
  exact ⟨op, patches, hsub hmem, hreaches⟩

/-- For all valid events: the run ends. What is filed for a kernel and an object that it accesses is
the longest stretch of bytes of the object that no kernel so far has accessed, the part of these
bytes outside it, and the part of the object that has been accessed. The report has no other
entries, and from one kernel that accesses an object to a later one the largest chunk does not
grow. -/
theorem report_run (unset : ℕ × ℕ → ℕ) (hvalid : Valid es) (hsized : Sized es) :
    ∃ s, Settles (fun fuel => run (step unset fuel) empty es) s ∧
      (∀ before op patches later, es = before ++ .kernel op patches :: later →
        ∀ memory, Event.memory memory ∈ before → Touches patches.flatten memory.op_id →
          ∃ f, s.fragmentationAt (unset (op.cpu_thread, op.op_id)) op.op_id memory.op_id = some f ∧
            Fragmented (before ++ [.kernel op patches]) memory f) ∧
      (∀ t k m, (s.fragmentationAt t k m).isSome → ∃ op patches, Event.kernel op patches ∈ es ∧
        t = unset (op.cpu_thread, op.op_id) ∧ k = op.op_id ∧ Touches patches.flatten m) ∧
      ∀ before op patches between op' patches' later,
        es = before ++ .kernel op patches :: (between ++ .kernel op' patches' :: later) →
        ∀ m, Touches patches.flatten m → Touches patches'.flatten m →
          ∀ f f', s.fragmentationAt (unset (op.cpu_thread, op.op_id)) op.op_id m = some f →
            s.fragmentationAt (unset (op'.cpu_thread, op'.op_id)) op'.op_id m = some f' →
            f'.largest_chunk ≤ f.largest_chunk := by
  obtain ⟨s, hsettles, hs⟩ := exists_reported unset hvalid hsized
  refine ⟨s, hsettles, hs.reports, hs.touched, ?_⟩
  intro before op patches between op' patches' later heq m hm hm' f f' hf hf'
  have heq' : es = (before ++ .kernel op patches :: between) ++ .kernel op' patches' :: later := by
    rw [heq, List.append_assoc, List.cons_append]
  obtain ⟨memory, hmem, rfl⟩ := hvalid.registered before op patches _ heq m hm
  obtain ⟨f₁, hf₁, h₁⟩ := hs.reports _ _ _ _ heq memory hmem hm
  obtain ⟨f₂, hf₂, h₂⟩ := hs.reports _ _ _ _ heq' memory (List.mem_append_left _ hmem) hm'
  obtain rfl := Option.some.inj (hf₁.symm.trans hf)
  obtain rfl := Option.some.inj (hf₂.symm.trans hf')
  refine h₁.largest_chunk_le h₂ fun e he => ?_
  simp only [List.mem_append, List.mem_cons] at he ⊢
  tauto

/-- The statement about the report applies to two kernels whose accesses overlap. -/
theorem report_run_twoKernels :
    ∃ s, Settles (fun fuel => run (step (fun _ => 0) fuel) empty MemoryProfile.twoKernels) s ∧
      ∃ f, s.fragmentationAt 0 9 7 = some f ∧
        Fragmented (MemoryProfile.twoKernels.take 3) (Memory.ofRange 0 7 1 ⟨100, 200⟩ 0 0) f := by
  have hsized : Sized MemoryProfile.twoKernels := by
    intro op hop
    simp only [MemoryProfile.twoKernels, List.mem_cons, Event.memory.injEq, List.not_mem_nil,
      or_false, reduceCtorEq] at hop
    rw [hop]
    decide
  obtain ⟨s, hsettles, hreports, -⟩ :=
    report_run (fun _ => 0) MemoryProfile.valid_twoKernels hsized
  obtain ⟨f, hf, hfrag⟩ := hreports [_, _] _ _ _ rfl (Memory.ofRange 0 7 1 ⟨100, 200⟩ 0 0)
    (by simp) ⟨by decide, _, by simp; rfl, rfl⟩
  exact ⟨s, hsettles, f, hf, hfrag⟩

end TenProf.MemoryProfileReport
