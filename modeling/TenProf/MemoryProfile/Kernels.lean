import TenProf.Library.Runs
import TenProf.MemoryProfile.Objects

/-!
# The blank chunks after every kernel

For every sequence of registrations, releases, and kernels, each analysed before its callback: the
loops of the callbacks end, and the chunks that are blank after a kernel, for an object that it
accessed, are pairwise disjoint and cover exactly the bytes of the object that no kernel so far has
accessed (`blankChunks_run`).
-/

namespace TenProf.MemoryProfile

/-- The op ids of the kernels. -/
def kernelIds (es : List Event) : List ℕ :=
  es.filterMap fun e => match e with
    | .kernel op _ => some op.op_id
    | _ => none

/-- The op ids of the objects registered. -/
def memoryIds (es : List Event) : List ℕ :=
  es.filterMap fun e => match e with
    | .memory op => some op.op_id
    | _ => none

/-- A kernel reaches a byte of an object. -/
def AccessedIn (es : List Event) (m x : ℕ) : Prop :=
  ∃ op patches, Event.kernel op patches ∈ es ∧ Reaches patches.flatten m x

/-- An object that starts at an address has been registered, and none has been released there
since. -/
def Held (es : List Event) (a : ℕ) : Prop :=
  ∃ before op later, es = before ++ Event.memory op :: later ∧ op.memory_range.start = a ∧
    ∀ u, Event.memfree u ∈ later → u.memory_range.start ≠ a

/-- What the analysis can rely on. Kernels have distinct op ids, and so have objects, whose ranges
do not end before they start. A kernel accesses objects that are registered, and a release is one of
an object that is there. -/
structure Valid (es : List Event) : Prop where
  kernels : (kernelIds es).Nodup
  memories : (memoryIds es).Nodup
  le : ∀ op, Event.memory op ∈ es → op.memory_range.start ≤ op.memory_range.stop
  registered : ∀ before op patches later, es = before ++ .kernel op patches :: later →
    ∀ m, Touches patches.flatten m → ∃ memory, Event.memory memory ∈ before ∧ memory.op_id = m
  released : ∀ before op later, es = before ++ .memfree op :: later →
    Held before op.memory_range.start

/-- Chunks are those of an object that are blank after events: they do not overlap, and cover
exactly the bytes of the object that no kernel has accessed. -/
structure Blank (es : List Event) (m : ℕ) (c : RangeSet) : Prop where
  chunks : Chunks c.toList
  covered : ∃ memory, Event.memory memory ∈ es ∧ memory.op_id = m ∧
    ∀ x, Covered c.toList x ↔
      (memory.memory_range.start ≤ x ∧ x < memory.memory_range.stop) ∧ ¬AccessedIn es m x

/-- The state after events. -/
structure Inv (es : List Event) (s : MemoryProfile) : Prop where
  trace : s.trace = none
  traces : ∀ i, (s.traceAt i).isSome → i.2 ∈ kernelIds es
  memories : ∀ id op, s.memories.find? id = some op ↔ Event.memory op ∈ es ∧ op.op_id = id
  nodes : ∀ op, Event.memory op ∈ es → REDSHOW_MEMORY_HOST < op.op_id →
    (s.op_node.find? op.op_id).isSome
  addresses : ∀ a, Held es a → (s.addresses_map.find? a).isSome
  blank_ids : ∀ k m, (s.blankAt k m).isSome → k ∈ kernelIds es
  untouched : ∀ m, s.accessed_memories.find? m = none →
    ∀ op patches, Event.kernel op patches ∈ es → ¬Touches patches.flatten m
  touched : ∀ m kid, REDSHOW_MEMORY_HOST < m → s.accessed_memories.find? m = some kid →
    ∃ c, s.blankAt kid m = some c ∧ Blank es m c
  kernels : ∀ before op patches later, es = before ++ .kernel op patches :: later →
    ∀ m, Touches patches.flatten m → ∃ c, s.blankAt op.op_id m = some c ∧
      Blank (before ++ [.kernel op patches]) m c

variable {es : List Event} {e : Event} {s : MemoryProfile} {m x : ℕ} {c : RangeSet}

/-! ## One more event -/

/-- The bytes accessed after one more event. -/
theorem accessedIn_append_singleton : AccessedIn (es ++ [e]) m x ↔
    AccessedIn es m x ∨ ∃ op patches, e = .kernel op patches ∧ Reaches patches.flatten m x := by
  unfold AccessedIn
  simp only [List.mem_append, List.mem_singleton, or_and_right, exists_or, eq_comm]

/-- An object that is there after one more event. -/
theorem held_append_singleton {a : ℕ} (h : Held (es ++ [e]) a) :
    (∃ op, e = .memory op ∧ op.memory_range.start = a) ∨
      Held es a ∧ ∀ u, e = .memfree u → u.memory_range.start ≠ a := by
  obtain ⟨before, op, later, heq, hstart, hlater⟩ := h
  rcases split_append_singleton heq with ⟨-, rfl, -⟩ | ⟨later', rfl, rfl⟩
  · exact .inl ⟨op, rfl, hstart⟩
  · refine .inr ⟨⟨before, op, later', rfl, hstart, fun u hu => hlater u ?_⟩,
      fun u hu => hlater u ?_⟩
    · exact List.mem_append_left _ hu
    · rw [hu]
      simp

/-- The chunks stay the blank ones when the object is not accessed. -/
theorem Blank.append_singleton (h : Blank es m c)
    (hnot : ∀ op patches, e = .kernel op patches → ∀ x, ¬Reaches patches.flatten m x) :
    Blank (es ++ [e]) m c := by
  obtain ⟨memory, hmemory, hid, hcovered⟩ := h.covered
  refine ⟨h.chunks, memory, List.mem_append_left _ hmemory, hid, fun x => ?_⟩
  rw [hcovered, accessedIn_append_singleton, or_iff_left]
  rintro ⟨op, patches, heq, hx⟩
  exact hnot op patches heq x hx

/-- The earlier events of valid ones are valid. -/
theorem Valid.of_append (h : Valid (es ++ [e])) : Valid es := by
  have hsplit : ∀ {before e' later}, es = before ++ e' :: later →
      es ++ [e] = before ++ e' :: (later ++ [e]) := by
    intro before e' later heq
    rw [heq, List.append_assoc, List.cons_append]
  have hkernels := h.kernels
  have hmemories := h.memories
  unfold kernelIds at hkernels
  unfold memoryIds at hmemories
  rw [List.filterMap_append] at hkernels hmemories
  constructor
  · exact (List.nodup_append'.1 hkernels).1
  · exact (List.nodup_append'.1 hmemories).1
  · exact fun op hop => h.le op (List.mem_append_left _ hop)
  · exact fun before op patches later heq => h.registered _ _ _ _ (hsplit heq)
  · exact fun before op later heq => h.released _ _ _ (hsplit heq)

/-- The op ids of the kernels after one more event. -/
theorem kernelIds_append_singleton (es : List Event) (e : Event) :
    kernelIds (es ++ [e]) = kernelIds es ++ kernelIds [e] := by
  unfold kernelIds
  rw [List.filterMap_append]

/-- An event that is no kernel, or one that is not sampled, keeps the parts of the state that
kernels work on. -/
theorem Inv.append_singleton (h : Inv es s)
    (hkernel : ∀ op patches, e = .kernel op patches → patches = []) {s' : MemoryProfile}
    (htrace : s'.trace = s.trace) (hkernel_trace : s'.kernel_trace = s.kernel_trace)
    (hblank : s'.blank_chunks = s.blank_chunks)
    (haccessed : s'.accessed_memories = s.accessed_memories)
    (hmemories : ∀ id op, s'.memories.find? id = some op ↔
      Event.memory op ∈ es ++ [e] ∧ op.op_id = id)
    (hnodes : ∀ op, Event.memory op ∈ es ++ [e] → REDSHOW_MEMORY_HOST < op.op_id →
      (s'.op_node.find? op.op_id).isSome)
    (haddresses : ∀ a, Held (es ++ [e]) a → (s'.addresses_map.find? a).isSome) :
    Inv (es ++ [e]) s' := by
  have hids : ∀ k ∈ kernelIds es, k ∈ kernelIds (es ++ [e]) := by
    intro k hk
    rw [kernelIds_append_singleton]
    exact List.mem_append_left _ hk
  have hnot : ∀ op patches, e = .kernel op patches → ∀ m, ¬Touches patches.flatten m := by
    rintro op patches heq m ⟨-, access, haccess, -⟩
    rw [hkernel op patches heq] at haccess
    exact absurd haccess (by simp)
  have hblankAt : ∀ k m, s'.blankAt k m = s.blankAt k m := by
    intro k m
    unfold blankAt
    rw [hblank]
  constructor
  · rw [htrace, h.trace]
  · intro i hi
    unfold traceAt at hi
    rw [hkernel_trace] at hi
    exact hids _ (h.traces i hi)
  · exact hmemories
  · exact hnodes
  · exact haddresses
  · intro k m hk
    rw [hblankAt] at hk
    exact hids _ (h.blank_ids k m hk)
  · intro m hm op patches hmem
    rw [haccessed] at hm
    rcases List.mem_append.1 hmem with hmem | hmem
    · exact h.untouched m hm op patches hmem
    · exact hnot op patches (List.mem_singleton.1 hmem).symm m
  · intro m kid hm hkid
    rw [haccessed] at hkid
    obtain ⟨c, hc, hblank'⟩ := h.touched m kid hm hkid
    refine ⟨c, by rw [hblankAt, hc], hblank'.append_singleton fun op patches heq x hx => ?_⟩
    exact hnot op patches heq m (hx.touches hm)
  · intro before op patches later heq m hm
    rcases split_append_singleton heq with ⟨-, heq', -⟩ | ⟨later', -, heq'⟩
    · exact absurd hm (hnot op patches heq'.symm m)
    · obtain ⟨c, hc, hblank'⟩ := h.kernels before op patches later' heq' m hm
      exact ⟨c, by rw [hblankAt, hc], hblank'⟩

/-- `memory_op_callback`. -/
theorem Inv.memory {op : Memory} (h : Inv es s) (hvalid : Valid (es ++ [.memory op])) :
    Inv (es ++ [.memory op]) (s.memoryOpCallback op) := by
  -- The op id is new.
  have hnew : s.memories.find? op.op_id = none := by
    rw [Option.eq_none_iff_forall_ne_some]
    intro op' hop'
    obtain ⟨hmem, hid⟩ := (h.memories _ _).1 hop'
    have hnodup := hvalid.memories
    unfold memoryIds at hnodup
    rw [List.filterMap_append, List.nodup_append'] at hnodup
    refine hnodup.2.2 (List.mem_filterMap.2 ⟨_, hmem, ?_⟩) (by simp : op.op_id ∈ _)
    simp [hid]
  have hmemory : ∀ op', Event.memory op' ∈ es ++ [.memory op] ↔
      Event.memory op' ∈ es ∨ op' = op := by simp
  apply h.append_singleton
  · simp
  · rfl
  · rfl
  · rfl
  · rfl
  · intro id op'
    show (s.memories.emplace op.op_id op).find? id = some op' ↔ _
    rw [OrderedMap.emplace_of_none hnew, OrderedMap.find?_set, hmemory]
    split_ifs with hid
    · rw [Option.some.injEq]
      constructor
      · rintro rfl
        exact ⟨.inr rfl, hid.symm⟩
      · rintro ⟨hmem | rfl, hid'⟩
        · have hfind := (h.memories id op').2 ⟨hmem, hid'⟩
          rw [hid, hnew] at hfind
          exact absurd hfind (by simp)
        · rfl
    · rw [h.memories]
      refine and_congr_left fun hid' => (or_iff_left ?_).symm
      rintro rfl
      exact hid hid'.symm
  · intro op' hmem hhost
    show ((s.updateOpNode op.op_id op.ctx_id).op_node.find? op'.op_id).isSome
    rcases (hmemory op').1 hmem with hmem | rfl
    · exact isSome_updateOpNode (h.nodes op' hmem hhost)
    · unfold updateOpNode
      dsimp only
      rw [if_pos hhost, OrderedMap.find?_set_self]
      rfl
  · intro a ha
    show ((s.addresses_map.emplace op.memory_range.start op.op_id).find? a).isSome
    rw [OrderedMap.find?_emplace]
    split_ifs with hstart
    · rfl
    · rcases held_append_singleton ha with ⟨op', heq, hstart'⟩ | ⟨hheld, -⟩
      · rw [← hstart', Event.memory.inj heq] at hstart
        exact absurd rfl hstart
      · exact h.addresses a hheld

/-- `memfree_op_callback`, which does not fail. -/
theorem Inv.memfree {op : Memfree} (h : Inv es s) (hvalid : Valid (es ++ [.memfree op])) :
    ∃ s', s.memfreeOpCallback op = some s' ∧ Inv (es ++ [.memfree op]) s' := by
  obtain ⟨malloc_op_id, hid⟩ := Option.isSome_iff_exists.1
    (h.addresses _ (hvalid.released es op [] rfl))
  have hmemory : ∀ op', Event.memory op' ∈ es ++ [.memfree op] ↔ Event.memory op' ∈ es := by simp
  refine ⟨_, Option.map_eq_some_iff.2 ⟨malloc_op_id, hid, rfl⟩, ?_⟩
  apply h.append_singleton
  · simp
  · rfl
  · rfl
  · rfl
  · rfl
  · intro id op'
    rw [hmemory]
    exact h.memories id op'
  · intro op' hmem hhost
    exact isSome_updateOpNode (h.nodes op' ((hmemory op').1 hmem) hhost)
  · intro a ha
    show ((s.addresses_map.erase op.memory_range.start).find? a).isSome
    rcases held_append_singleton ha with ⟨op', heq, -⟩ | ⟨hheld, hne⟩
    · exact absurd heq (by simp)
    · rw [OrderedMap.find?_erase_of_ne _ (hne op rfl).symm]
      exact h.addresses a hheld

/-! ## A kernel -/

/-- A kernel that has an op id of its own starts with a new trace. -/
theorem Inv.traceAt_eq_none {i : ℕ × ℕ} (h : Inv es s) (hnew : i.2 ∉ kernelIds es) :
    s.traceAt i = none := by
  rw [← Option.not_isSome_iff_eq_none]
  exact fun hi => hnew (h.traces i hi)

/-- A kernel that has an op id of its own has no blank chunks yet. -/
theorem Inv.blankAt_eq_none {k : ℕ} (h : Inv es s) (hnew : k ∉ kernelIds es) (m : ℕ) :
    s.blankAt k m = none := by
  rw [← Option.not_isSome_iff_eq_none]
  exact fun hk => hnew (h.blank_ids k m hk)

/-- The chunks that a kernel takes over are those that are blank before it. -/
theorem Inv.unuseSet_eq (h : Inv es s) {memory : Memory} (hmemory : Event.memory memory ∈ es)
    (hle : memory.memory_range.start ≤ memory.memory_range.stop)
    (hhost : REDSHOW_MEMORY_HOST < memory.op_id) :
    ∃ c, s.unuseSet memory.op_id memory = some c ∧ Blank es memory.op_id c := by
  unfold unuseSet
  cases hkid : s.accessed_memories.find? memory.op_id with
  | some kid => exact h.touched memory.op_id kid hhost hkid
  | none =>
    have hlist : (OrderedMap.emplace (∅ : RangeSet) memory.memory_range.start
        memory.memory_range.stop).toList =
        [(memory.memory_range.start, memory.memory_range.stop)] :=
      OrderedMap.toList_emplace_of_gt _ (by simp) _
    refine ⟨_, rfl, ?_, memory, hmemory, rfl, fun x => ?_⟩
    · rw [hlist]
      exact ⟨by simp, by simpa using hle⟩
    · have hnot : ¬AccessedIn es memory.op_id x := by
        rintro ⟨op, patches, hmem, hx⟩
        exact h.untouched _ hkid op patches hmem (hx.touches hhost)
      rw [hlist, covered_cons, or_iff_left (covered_nil x), and_iff_left hnot]

variable {op : Kernel} {patches : List (List Access)}

/-- What is blank after a kernel are the chunks that it took over, without the ranges accessed. -/
theorem Blank.kernel (h : Blank es m c) {c' : RangeSet} (hchunks : Chunks c'.toList)
    (hcovered : ∀ x, Covered c'.toList x ↔ Covered c.toList x ∧ ¬Reaches patches.flatten m x) :
    Blank (es ++ [.kernel op patches]) m c' := by
  obtain ⟨memory, hmemory, hid, hold⟩ := h.covered
  have hreaches : ∀ x, (∃ op' patches', Event.kernel op patches = .kernel op' patches' ∧
      Reaches patches'.flatten m x) ↔ Reaches patches.flatten m x := by
    intro x
    constructor
    · rintro ⟨op', patches', heq, hx⟩
      rwa [(Event.kernel.inj heq).2]
    · exact fun hx => ⟨op, patches, rfl, hx⟩
  refine ⟨hchunks, memory, List.mem_append_left _ hmemory, hid, fun x => ?_⟩
  rw [hcovered, hold, accessedIn_append_singleton, hreaches]
  tauto

/-- A kernel registers no object. -/
theorem memory_mem_append_kernel {op' : Memory} :
    Event.memory op' ∈ es ++ [.kernel op patches] ↔ Event.memory op' ∈ es := by
  simp

/-- The chunks of earlier kernels do not change. -/
theorem KernelUpdated.blankAt_eq {s' : MemoryProfile} (hs' : KernelUpdated s op patches.flatten s')
    (hnew : op.op_id ∉ kernelIds es) : ∀ k ∈ kernelIds es, ∀ m, s'.blankAt k m = s.blankAt k m := by
  refine fun k hk m => hs'.others k m ?_
  rintro ⟨rfl, -⟩
  exact hnew hk

/-- The chunks of the objects that the kernel accesses. -/
theorem KernelUpdated.exists_blank {s' : MemoryProfile}
    (hs' : KernelUpdated s op patches.flatten s') (h : Inv es s)
    (hvalid : Valid (es ++ [.kernel op patches])) (m : ℕ) (hm : Touches patches.flatten m) :
    ∃ c, s'.blankAt op.op_id m = some c ∧ Blank (es ++ [.kernel op patches]) m c := by
  obtain ⟨memory, c, c', hfind, hunuse, hc', hchunks, hcovered⟩ := hs'.updated m hm
  obtain ⟨hmem, rfl⟩ := (h.memories m memory).1 hfind
  obtain ⟨c₀, hc₀, hblank⟩ :=
    h.unuseSet_eq hmem (hvalid.le memory (memory_mem_append_kernel.2 hmem)) hm.1
  rw [hunuse, Option.some.injEq] at hc₀
  rw [← hc₀] at hblank
  exact ⟨c', hc', hblank.kernel hchunks hcovered⟩

/-- The callback of a kernel keeps everything in order. -/
theorem Inv.after_kernel (h : Inv es s) (hvalid : Valid (es ++ [.kernel op patches]))
    {s' : MemoryProfile} (hs' : KernelUpdated s op patches.flatten s') :
    Inv (es ++ [.kernel op patches]) s' := by
  have hids : kernelIds (es ++ [.kernel op patches]) = kernelIds es ++ [op.op_id] :=
    kernelIds_append_singleton es (.kernel op patches)
  have hnew : op.op_id ∉ kernelIds es := by
    have hnodup := hvalid.kernels
    rw [hids, List.nodup_append'] at hnodup
    exact fun hmem => hnodup.2.2 hmem List.mem_cons_self
  have hearlier := hs'.blankAt_eq hnew
  have hupdated := fun m => hs'.exists_blank h hvalid m
  constructor
  · exact hs'.trace
  · intro i hi
    rw [hids, List.mem_append, List.mem_singleton]
    exact (hs'.traces i hi).symm.imp_left (h.traces i)
  · intro id op'
    rw [hs'.memories, memory_mem_append_kernel]
    exact h.memories id op'
  · intro op' hmem hhost
    rw [hs'.op_node]
    exact isSome_updateOpNode (h.nodes op' (memory_mem_append_kernel.1 hmem) hhost)
  · intro a ha
    rw [hs'.addresses_map]
    rcases held_append_singleton ha with ⟨op', heq, -⟩ | ⟨hheld, -⟩
    · exact absurd heq (by simp)
    · exact h.addresses a hheld
  · intro k m hk
    rw [hids, List.mem_append, List.mem_singleton]
    by_cases heq : k = op.op_id
    · exact .inr heq
    · rw [hs'.others k m fun hkm => heq hkm.1] at hk
      exact .inl (h.blank_ids k m hk)
  · intro m hm op' patches' hmem htouch
    have hnot : ¬Touches patches.flatten m := by
      intro htouch'
      rw [(hs'.accessed m).1 htouch'] at hm
      exact absurd hm (by simp)
    rw [(hs'.accessed m).2 hnot] at hm
    rcases List.mem_append.1 hmem with hmem | hmem
    · exact h.untouched m hm op' patches' hmem htouch
    · rw [(Event.kernel.inj (List.mem_singleton.1 hmem)).2] at htouch
      exact hnot htouch
  · intro m kid hm hkid
    by_cases htouch : Touches patches.flatten m
    · rw [(hs'.accessed m).1 htouch, Option.some.injEq] at hkid
      rw [← hkid]
      exact hupdated m htouch
    · rw [(hs'.accessed m).2 htouch] at hkid
      obtain ⟨c, hc, hblank⟩ := h.touched m kid hm hkid
      refine ⟨c, ?_, hblank.append_singleton fun op' patches' heq x hx => ?_⟩
      · rw [hearlier kid (h.blank_ids kid m (by rw [hc]; rfl)), hc]
      · rw [← (Event.kernel.inj heq).2] at hx
        exact htouch (hx.touches hm)
  · intro before op' patches' later heq m hm
    rcases split_append_singleton heq with ⟨rfl, heq', -⟩ | ⟨later', -, heq'⟩
    · obtain ⟨rfl, rfl⟩ := Event.kernel.inj heq'
      exact hupdated m hm
    · obtain ⟨c, hc, hblank⟩ := h.kernels before op' patches' later' heq' m hm
      exact ⟨c, by rw [hearlier _ (h.blank_ids _ m (by rw [hc]; rfl)), hc], hblank⟩

/-- A kernel: its callback ends. -/
theorem Inv.kernel (h : Inv es s) (hvalid : Valid (es ++ [.kernel op patches])) :
    ∃ s', Settles (fun fuel => step fuel s (.kernel op patches)) s' ∧
      Inv (es ++ [.kernel op patches]) s' := by
  by_cases hne : patches = []
  · -- The kernel is not sampled.
    refine ⟨s.updateOpNode op.op_id op.ctx_id, ?_, ?_⟩
    · have htrace : (s.updateOpNode op.op_id op.ctx_id).trace = none := h.trace
      refine ⟨0, fun fuel _ => ?_⟩
      rw [hne]
      show MemoryProfile.kernelOpCallback fuel s op = _
      unfold MemoryProfile.kernelOpCallback
      simp only [htrace]
    · apply h.append_singleton
      · exact fun op' patches' heq => by rw [← (Event.kernel.inj heq).2, hne]
      · rfl
      · rfl
      · rfl
      · rfl
      · exact fun id op' => by rw [memory_mem_append_kernel]; exact h.memories id op'
      · exact fun op' hmem hhost =>
          isSome_updateOpNode (h.nodes op' (memory_mem_append_kernel.1 hmem) hhost)
      · intro a ha
        rcases held_append_singleton ha with ⟨op', heq, -⟩ | ⟨hheld, -⟩
        · exact absurd heq (by simp)
        · exact h.addresses a hheld
  · have hnew : op.op_id ∉ kernelIds es := by
      have hnodup := hvalid.kernels
      rw [kernelIds_append_singleton, List.nodup_append'] at hnodup
      exact fun hmem => hnodup.2.2 hmem List.mem_cons_self
    obtain ⟨s₁, hs₁, hanalyzed⟩ :=
      exists_foldlM_analyzePatch op (h.traceAt_eq_none hnew) hne
    obtain ⟨s', hsettles, hs'⟩ := hanalyzed.kernelOpCallback (h.blankAt_eq_none hnew) fun m hm => by
      obtain ⟨memory, hmem, rfl⟩ := hvalid.registered es op patches [] rfl m hm
      obtain ⟨c, hc, hblank⟩ :=
        h.unuseSet_eq hmem (hvalid.le memory (List.mem_append_left _ hmem)) hm.1
      exact ⟨memory, c, (h.memories _ _).2 ⟨hmem, rfl⟩, h.nodes memory hmem hm.1, hc,
        hblank.chunks⟩
    refine ⟨s', ?_, h.after_kernel hvalid hs'⟩
    unfold step
    simp only [hs₁, Option.bind_some]
    exact hsettles

/-! ## Runs -/

/-- Before the first event nothing is known. -/
theorem inv_empty : Inv [] empty := by
  constructor <;> simp [empty, traceAt, blankAt, OrderedMap.findD, Held]

/-- The run of valid events ends, and leaves everything in order. -/
theorem exists_settles_run (hvalid : Valid es) :
    ∃ s, Settles (fun fuel => run (step fuel) empty es) s ∧ Inv es s := by
  induction es using List.reverseRecOn with
  | nil => exact ⟨empty, settles_const rfl, inv_empty⟩
  | append_singleton es e ih =>
    obtain ⟨s, hsettles, hs⟩ := ih hvalid.of_append
    have hstep : ∃ s', Settles (fun fuel => step fuel s e) s' ∧ Inv (es ++ [e]) s' := by
      cases e with
      | memory op => exact ⟨_, settles_const rfl, hs.memory hvalid⟩
      | memfree op =>
        obtain ⟨s', hs', hinv⟩ := hs.memfree hvalid
        exact ⟨s', settles_const hs', hinv⟩
      | kernel op patches => exact hs.kernel hvalid
    obtain ⟨s', hsettles', hs'⟩ := hstep
    refine ⟨s', ?_, hs'⟩
    have hsnoc : ∀ fuel, run (step fuel) empty (es ++ [e]) =
        (run (step fuel) empty es).bind fun s => step fuel s e := by
      intro fuel
      rw [run_append]
      congr 1
      funext s
      rw [run_cons]
      cases step fuel s e <;> rfl
    simp only [hsnoc]
    exact hsettles.bind hsettles'

/-- The bytes that are blank after more events were blank before. -/
theorem Inv.totalLength_le (h : Inv es s) {es₁ es₂ : List Event} {c₁ c₂ : RangeSet}
    (h₁ : Blank es₁ m c₁) (h₂ : Blank es₂ m c₂) (hpre : es₁ <+: es₂) (hpre' : es₂ <+: es) :
    totalLength c₂.toList ≤ totalLength c₁.toList := by
  obtain ⟨memory₁, hmem₁, hid₁, hcovered₁⟩ := h₁.covered
  obtain ⟨memory₂, hmem₂, hid₂, hcovered₂⟩ := h₂.covered
  have hfind₁ := (h.memories m memory₁).2 ⟨(hpre.trans hpre').subset hmem₁, hid₁⟩
  have hfind₂ := (h.memories m memory₂).2 ⟨hpre'.subset hmem₂, hid₂⟩
  rw [hfind₁, Option.some.injEq] at hfind₂
  have hsub : points c₂.toList ⊆ points c₁.toList := by
    intro x hx
    rw [mem_points] at hx ⊢
    obtain ⟨hrange, hnot⟩ := (hcovered₂ x).1 hx
    rw [← hfind₂] at hrange
    refine (hcovered₁ x).2 ⟨hrange, fun haccessed => hnot ?_⟩
    obtain ⟨op, patches, hmem, hreaches⟩ := haccessed
    exact ⟨op, patches, hpre.subset hmem, hreaches⟩
  calc totalLength c₂.toList
    _ = (points c₂.toList).card := h₂.chunks.card_points.symm
    _ ≤ (points c₁.toList).card := Finset.card_le_card hsub
    _ = totalLength c₁.toList := h₁.chunks.card_points

/-- For all valid events: the run ends. The chunks that are blank after a kernel, for an object that
it accesses, do not overlap and cover exactly the bytes of the object that no kernel so far has
accessed. From one kernel that accesses an object to a later one, the bytes that are blank do not
get more. -/
theorem blankChunks_run (hvalid : Valid es) :
    ∃ s, Settles (fun fuel => run (step fuel) empty es) s ∧
      (∀ before op patches later, es = before ++ .kernel op patches :: later →
        ∀ m, Touches patches.flatten m → ∃ c, s.blankAt op.op_id m = some c ∧
          Blank (before ++ [.kernel op patches]) m c) ∧
      ∀ before op patches between op' patches' later,
        es = before ++ .kernel op patches :: (between ++ .kernel op' patches' :: later) →
        ∀ m, Touches patches.flatten m → Touches patches'.flatten m →
          ∀ c c', s.blankAt op.op_id m = some c → s.blankAt op'.op_id m = some c' →
            totalLength c'.toList ≤ totalLength c.toList := by
  obtain ⟨s, hsettles, hs⟩ := exists_settles_run hvalid
  refine ⟨s, hsettles, hs.kernels, ?_⟩
  intro before op patches between op' patches' later heq m hm hm' c c' hc hc'
  have heq' : es = (before ++ .kernel op patches :: between) ++ .kernel op' patches' :: later := by
    rw [heq, List.append_assoc, List.cons_append]
  obtain ⟨c₁, hc₁, h₁⟩ := hs.kernels _ _ _ _ heq m hm
  obtain ⟨c₂, hc₂, h₂⟩ := hs.kernels _ _ _ _ heq' m hm'
  rw [hc, Option.some.injEq] at hc₁
  rw [hc', Option.some.injEq] at hc₂
  rw [hc₁, hc₂]
  refine hs.totalLength_le h₁ h₂ ⟨between ++ [.kernel op' patches'], ?_⟩ ⟨later, ?_⟩
  · simp
  · rw [heq']
    simp

/-- An object is registered, accessed by two kernels, the first in two patches, and released. -/
def twoKernels : List Event :=
  [.memory (Memory.ofRange 0 7 1 ⟨100, 200⟩ 0 0),
    .kernel ⟨8, 2, 0, 0⟩ [[⟨7, ⟨⟨110, 120⟩, by decide⟩⟩, ⟨7, ⟨⟨150, 160⟩, by decide⟩⟩],
      [⟨7, ⟨⟨190, 200⟩, by decide⟩⟩]],
    .kernel ⟨9, 2, 0, 0⟩ [[⟨7, ⟨⟨115, 155⟩, by decide⟩⟩]],
    .memfree (Memfree.ofRange 0 10 1 ⟨100, 200⟩)]

/-- The two kernels are analysed as the analysis relies on. -/
theorem valid_twoKernels : Valid twoKernels := by
  have hfirst : ∀ {patches : List (List Access)} {m : ℕ},
      (∀ access ∈ patches.flatten, access.memory_op_id = 7) → Touches patches.flatten m →
      ∃ memory, Event.memory memory ∈ [Event.memory (Memory.ofRange 0 7 1 ⟨100, 200⟩ 0 0)] ∧
        memory.op_id = m := by
    rintro patches m hall ⟨-, access, haccess, rfl⟩
    exact ⟨_, List.mem_singleton.2 rfl, (hall access haccess).symm⟩
  constructor
  · decide
  · decide
  · intro op hop
    simp only [twoKernels, List.mem_cons, Event.memory.injEq, List.not_mem_nil, or_false,
      reduceCtorEq] at hop
    rw [hop]
    decide
  · intro before op patches later heq m hm
    rcases before with _ | ⟨e₁, _ | ⟨e₂, _ | ⟨e₃, _ | ⟨e₄, rest⟩⟩⟩⟩ <;>
      simp only [twoKernels, List.cons_append, List.nil_append, List.cons.injEq] at heq
    · exact absurd heq.1 (by simp)
    · obtain ⟨rfl, hkernel, -⟩ := heq
      rw [← (Event.kernel.inj hkernel).2] at hm
      exact hfirst (by simp) hm
    · obtain ⟨rfl, rfl, hkernel, -⟩ := heq
      rw [← (Event.kernel.inj hkernel).2] at hm
      obtain ⟨memory, hmem, hid⟩ := hfirst (by simp) hm
      exact ⟨memory, List.mem_cons.2 (.inl (List.mem_singleton.1 hmem)), hid⟩
    · exact absurd heq.2.2.2.1 (by simp)
    · exact absurd heq.2.2.2.2 (by simp)
  · intro before op later heq
    rcases before with _ | ⟨e₁, _ | ⟨e₂, _ | ⟨e₃, _ | ⟨e₄, rest⟩⟩⟩⟩ <;>
      simp only [twoKernels, List.cons_append, List.nil_append, List.cons.injEq] at heq
    · exact absurd heq.1 (by simp)
    · exact absurd heq.2.1 (by simp)
    · exact absurd heq.2.2.1 (by simp)
    · obtain ⟨rfl, rfl, rfl, hfree, -⟩ := heq
      rw [← Event.memfree.inj hfree]
      exact ⟨[], _, _, rfl, rfl, by simp⟩
    · exact absurd heq.2.2.2.2 (by simp)

/-- The statement about the blank chunks applies to two kernels whose accesses overlap. -/
theorem blankChunks_run_twoKernels :
    ∃ s, Settles (fun fuel => run (step fuel) empty twoKernels) s ∧
      ∃ c c', s.blankAt 8 7 = some c ∧ s.blankAt 9 7 = some c' ∧
        Chunks c'.toList ∧ totalLength c'.toList ≤ totalLength c.toList := by
  obtain ⟨s, hsettles, hblank, hle⟩ := blankChunks_run valid_twoKernels
  have htouch : ∀ {patches : List (List Access)},
      (∃ access ∈ patches.flatten, access.memory_op_id = 7) → Touches patches.flatten 7 :=
    fun h => ⟨by decide, h⟩
  obtain ⟨c, hc, -⟩ := hblank [_] _ _ _ rfl 7 (htouch (by simp))
  obtain ⟨c', hc', hblank'⟩ := hblank [_, _] _ _ _ rfl 7 (htouch (by simp))
  refine ⟨s, hsettles, c, c', hc, hc', hblank'.chunks, ?_⟩
  exact hle [_] _ _ [] _ _ _ rfl 7 (htouch (by simp)) (htouch (by simp)) c c' hc hc'

end TenProf.MemoryProfile
