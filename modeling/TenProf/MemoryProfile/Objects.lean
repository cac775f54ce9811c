import TenProf.MemoryProfile.Accesses
import TenProf.MemoryProfile.Chunks

/-!
# The objects of a kernel

The callback of a kernel goes through the objects in its trace. For each it takes the blank chunks
over that the last kernel left, or the whole object, and erases the ranges accessed. The chunks of
other objects and of other kernels stay as they are.
-/

namespace TenProf.MemoryProfile

variable {s s' : MemoryProfile} {op : Kernel} {k m : ℕ} {c : RangeSet} {ranges : List (ℕ × ℕ)}

/-- The blank chunks after those of an object as of a kernel are replaced. -/
theorem blankAt_setBlank (s : MemoryProfile) (k m k' m' : ℕ) (c : RangeSet) :
    (s.setBlank k m c).blankAt k' m' = if k' = k ∧ m' = m then some c else s.blankAt k' m' := by
  unfold setBlank blankAt
  dsimp only
  rw [OrderedMap.find?_set]
  by_cases hk : k' = k
  · rw [if_pos hk, Option.bind_some, OrderedMap.find?_set, hk]
    unfold OrderedMap.findD
    cases s.blank_chunks.find? k <;> simp
  · rw [if_neg hk, if_neg fun h => hk h.1]

/-- The tables that the loops over objects and ranges do not change. -/
structure SameTables (s s' : MemoryProfile) : Prop where
  kernel_trace : s'.kernel_trace = s.kernel_trace
  trace : s'.trace = s.trace
  op_node : s'.op_node = s.op_node
  memories : s'.memories = s.memories
  addresses_map : s'.addresses_map = s.addresses_map

/-- Two steps that do not change the tables. -/
theorem SameTables.trans {s₁ s₂ s₃ : MemoryProfile} (h : SameTables s₁ s₂) (h' : SameTables s₂ s₃) :
    SameTables s₁ s₃ where
  kernel_trace := h'.kernel_trace.trans h.kernel_trace
  trace := h'.trace.trans h.trace
  op_node := h'.op_node.trans h.op_node
  memories := h'.memories.trans h.memories
  addresses_map := h'.addresses_map.trans h.addresses_map

/-- The state after ranges are erased from the blank chunks of an object as of a kernel: nothing
else has changed, and the chunks left are those of `c` without the ranges. -/
structure RangesErased (s : MemoryProfile) (k m : ℕ) (c : RangeSet) (ranges : List (ℕ × ℕ))
    (s' : MemoryProfile) : Prop where
  tables : SameTables s s'
  accessed : s'.accessed_memories = s.accessed_memories
  others : ∀ k' m', ¬(k' = k ∧ m' = m) → s'.blankAt k' m' = s.blankAt k' m'
  erased : ∃ c', s'.blankAt k m = some c' ∧ Chunks c'.toList ∧
    ∀ x, Covered c'.toList x ↔ Covered c.toList x ∧ ¬Covered ranges x

/-- `update_blank_chunks` for a further range. -/
theorem RangesErased.updateBlankChunks (h : RangesErased s k m c ranges s') {r : ℕ × ℕ}
    (hr : r.1 ≤ r.2) : ∃ s'', Settles (fun fuel => updateBlankChunks fuel k m s' r) s'' ∧
      RangesErased s k m c (ranges ++ [r]) s'' := by
  obtain ⟨c', hc', hchunks, hcovered⟩ := h.erased
  obtain ⟨c'', hsettles, hchunks'', hcovered''⟩ :=
    exists_settles_eraseRange hchunks ⟨r.1, r.2⟩ hr
  refine ⟨s'.setBlank k m c'', ?_, h.tables.trans ⟨rfl, rfl, rfl, rfl, rfl⟩, h.accessed, ?_,
    c'', ?_, hchunks'', fun x => ?_⟩
  · unfold MemoryProfile.updateBlankChunks
    rw [hc']
    exact hsettles.map _
  · intro k' m' hne
    rw [blankAt_setBlank, if_neg hne]
    exact h.others k' m' hne
  · rw [blankAt_setBlank, if_pos ⟨rfl, rfl⟩]
  · rw [hcovered'', hcovered, covered_append, covered_cons, or_iff_left (covered_nil x)]
    tauto

/-- `update_blank_chunks` for all ranges of an object. -/
theorem exists_foldlM_updateBlankChunks (hc : s.blankAt k m = some c) (hchunks : Chunks c.toList)
    (ranges : List (ℕ × ℕ)) (hranges : ∀ r ∈ ranges, r.1 ≤ r.2) :
    ∃ s', Settles (fun fuel => ranges.foldlM (updateBlankChunks fuel k m) s) s' ∧
      RangesErased s k m c ranges s' := by
  apply exists_settles_foldlM (RangesErased s k m c)
  · intro before r later s₁ heq h
    exact h.updateBlankChunks (hranges r (by rw [heq]; simp))
  · exact ⟨⟨rfl, rfl, rfl, rfl, rfl⟩, rfl, fun _ _ _ => rfl, c, hc, hchunks, by simp⟩

/-- An object of a trace can be worked on: it is registered, and has blank chunks. -/
structure Ready (s : MemoryProfile) (mem_iter : ℕ × RangeSet) : Prop where
  proper : Proper mem_iter.2.toList
  unuse : ∃ memory c, s.memories.find? mem_iter.1 = some memory ∧
    (s.op_node.find? memory.op_id).isSome ∧ s.unuseSet mem_iter.1 memory = some c ∧
    Chunks c.toList

/-- The state after the first objects of a trace: they have the blank chunks that they had before,
without the ranges accessed. -/
structure ObjectsUpdated (s : MemoryProfile) (k : ℕ) (objects : List (ℕ × RangeSet))
    (s' : MemoryProfile) : Prop where
  tables : SameTables s s'
  accessed : ∀ m, s'.accessed_memories.find? m =
    if m ∈ objects.map Prod.fst then some k else s.accessed_memories.find? m
  others : ∀ k' m, ¬(k' = k ∧ m ∈ objects.map Prod.fst) → s'.blankAt k' m = s.blankAt k' m
  updated : ∀ e ∈ objects, ∃ memory c c', s.memories.find? e.1 = some memory ∧
    s.unuseSet e.1 memory = some c ∧ s'.blankAt k e.1 = some c' ∧ Chunks c'.toList ∧
    ∀ x, Covered c'.toList x ↔ Covered c.toList x ∧ ¬Covered e.2.toList x

variable {objects : List (ℕ × RangeSet)} {mem_iter : ℕ × RangeSet}

/-- The chunks that a kernel takes over depend on the last kernel that accessed the object. -/
theorem unuseSet_congr (haccessed : s'.accessed_memories.find? m = s.accessed_memories.find? m)
    (hblank : ∀ kid, s'.blankAt kid m = s.blankAt kid m) (memory : Memory) :
    s'.unuseSet m memory = s.unuseSet m memory := by
  unfold unuseSet
  rw [haccessed]
  cases s.accessed_memories.find? m with
  | none => rfl
  | some kid => exact hblank kid

/-- A further object finds the blank chunks that it had before. -/
theorem ObjectsUpdated.unuseSet_eq (h : ObjectsUpdated s k objects s')
    (hnew : mem_iter.1 ∉ objects.map Prod.fst) (memory : Memory) :
    s'.unuseSet mem_iter.1 memory = s.unuseSet mem_iter.1 memory := by
  apply unuseSet_congr
  · rw [h.accessed, if_neg hnew]
  · exact fun kid => h.others kid mem_iter.1 fun heq => hnew heq.2

/-- The turn of the loop for a further object. -/
theorem ObjectsUpdated.updateObject (h : ObjectsUpdated s op.op_id objects s')
    (hready : Ready s mem_iter) (hnew : mem_iter.1 ∉ objects.map Prod.fst)
    (hnone : s.blankAt op.op_id mem_iter.1 = none) :
    ∃ s'', Settles (fun fuel => updateObject fuel op op.op_id s' mem_iter) s'' ∧
      ObjectsUpdated s op.op_id (objects ++ [mem_iter]) s'' := by
  obtain ⟨memory, c, hmemory, hnode, hunuse, hchunks⟩ := hready.unuse
  obtain ⟨node_id, hnode⟩ := Option.isSome_iff_exists.1 hnode
  have hmemory' : s'.memories.find? mem_iter.1 = some memory := by
    rw [h.tables.memories, hmemory]
  have hnode' : s'.op_node.find? memory.op_id = some node_id := by
    rw [h.tables.op_node, hnode]
  have hunuse' : s'.unuseSet mem_iter.1 memory = some c := by
    rw [h.unuseSet_eq hnew, hunuse]
  have hnone' : s'.blankAt op.op_id mem_iter.1 = none := by
    rw [h.others _ _ fun heq => hnew heq.2, hnone]
  -- The state with the chunks taken over.
  have hfind : (s'.blank_chunks.findD op.op_id ∅).find? mem_iter.1 = none := by
    unfold blankAt at hnone'
    unfold OrderedMap.findD
    cases hmap : s'.blank_chunks.find? op.op_id with
    | none => rfl
    | some memory_map =>
      rw [hmap] at hnone'
      exact hnone'
  let s₁ : MemoryProfile :=
    { s'.setBlank op.op_id mem_iter.1 c with
      accessed_memories := s'.accessed_memories.set mem_iter.1 op.op_id }
  have htables₁ : SameTables s' s₁ := ⟨rfl, rfl, rfl, rfl, rfl⟩
  have hblank₁ : ∀ k' m', s₁.blankAt k' m' =
      if k' = op.op_id ∧ m' = mem_iter.1 then some c else s'.blankAt k' m' :=
    fun k' m' => blankAt_setBlank s' op.op_id mem_iter.1 k' m' c
  obtain ⟨s'', hsettles, htables, haccessed, hothers, c', hc', hchunks', hcovered⟩ :=
    exists_foldlM_updateBlankChunks (s := s₁) (k := op.op_id) (m := mem_iter.1)
      (by rw [hblank₁, if_pos ⟨rfl, rfl⟩]) hchunks mem_iter.2.toList
      fun r hr => (hready.proper r hr).le
  have hmem : ∀ m', m' ∈ (objects ++ [mem_iter]).map Prod.fst ↔
      m' ∈ objects.map Prod.fst ∨ m' = mem_iter.1 := by simp
  refine ⟨s'', ?_, (h.tables.trans htables₁).trans htables, ?_, ?_, ?_⟩
  · unfold MemoryProfile.updateObject
    simp only [hmemory', hunuse', hnode', Option.bind_some, OrderedMap.emplace_of_none hfind]
    exact hsettles
  · intro m'
    have hset : s''.accessed_memories.find? m' =
        if m' = mem_iter.1 then some op.op_id else s'.accessed_memories.find? m' := by
      rw [haccessed]
      exact OrderedMap.find?_set _ _ _ _
    rw [hset, h.accessed]
    by_cases hm' : m' = mem_iter.1
    · rw [if_pos hm', if_pos ((hmem m').2 (.inr hm'))]
    · rw [if_neg hm']
      congr 1
      rw [hmem, or_iff_left hm']
  · intro k' m' hne
    rw [hmem] at hne
    rw [hothers k' m' fun heq => hne ⟨heq.1, .inr heq.2⟩, hblank₁,
      if_neg fun heq => hne ⟨heq.1, .inr heq.2⟩]
    exact h.others k' m' fun heq => hne ⟨heq.1, .inl heq.2⟩
  · intro e he
    rcases List.mem_append.1 he with he | he
    · obtain ⟨memory₀, c₀, c₀', hmemory₀, hunuse₀, hc₀', hrest⟩ := h.updated e he
      have hne : ¬(op.op_id = op.op_id ∧ e.1 = mem_iter.1) := fun heq =>
        hnew (heq.2 ▸ List.mem_map_of_mem he)
      refine ⟨memory₀, c₀, c₀', hmemory₀, hunuse₀, ?_, hrest⟩
      rw [hothers _ _ hne, hblank₁, if_neg hne, hc₀']
    · rw [List.mem_singleton.1 he]
      exact ⟨memory, c, c', hmemory, hunuse, hc', hchunks', hcovered⟩

/-- The loop over the objects of a trace. -/
theorem exists_foldlM_updateObject (op : Kernel) {access_memory : OrderedMap ℕ RangeSet}
    (hready : ∀ e ∈ access_memory.toList, Ready s e)
    (hnone : ∀ m, s.blankAt op.op_id m = none) :
    ∃ s', Settles (fun fuel =>
        access_memory.toList.foldlM (updateObject fuel op op.op_id) s) s' ∧
      ObjectsUpdated s op.op_id access_memory.toList s' := by
  apply exists_settles_foldlM (ObjectsUpdated s op.op_id)
  · intro before e later s₁ heq h
    have hnodup := access_memory.nodup_keys
    rw [heq, List.map_append, List.map_cons, List.nodup_append'] at hnodup
    refine h.updateObject (hready e (by rw [heq]; simp)) (fun hmem => ?_) (hnone _)
    exact hnodup.2.2 hmem List.mem_cons_self
  · exact ⟨⟨rfl, rfl, rfl, rfl, rfl⟩, by simp, fun _ _ _ => rfl, by simp⟩

/-! ## The callback of a kernel -/

/-- The op ids of objects stay known. -/
theorem isSome_updateOpNode {op_id : ℕ} {ctx_id : ℤ} {id : ℕ} (h : (s.op_node.find? id).isSome) :
    ((s.updateOpNode op_id ctx_id).op_node.find? id).isSome := by
  unfold updateOpNode
  dsimp only
  split_ifs
  · rw [OrderedMap.find?_set]
    split_ifs
    · rfl
    · exact h
  · exact h

/-- A kernel without blank chunks for any object gets a map for them. -/
theorem blankAt_emplace (s : MemoryProfile) (k k' m : ℕ) :
    ({ s with blank_chunks := s.blank_chunks.emplace k ∅ } : MemoryProfile).blankAt k' m =
      s.blankAt k' m := by
  unfold blankAt
  dsimp only
  rw [OrderedMap.find?_emplace]
  split_ifs with hk
  · rw [hk]
    cases s.blank_chunks.find? k <;> rfl
  · rfl

/-- What the callback of a kernel does to its objects, after its patches have been analysed. -/
structure KernelUpdated (s : MemoryProfile) (op : Kernel) (accesses : List Access)
    (s' : MemoryProfile) : Prop where
  trace : s'.trace = none
  traces : ∀ i, (s'.traceAt i).isSome → i.2 = op.op_id ∨ (s.traceAt i).isSome
  op_node : s'.op_node = (s.updateOpNode op.op_id op.ctx_id).op_node
  memories : s'.memories = s.memories
  addresses_map : s'.addresses_map = s.addresses_map
  accessed : ∀ m, (Touches accesses m → s'.accessed_memories.find? m = some op.op_id) ∧
    (¬Touches accesses m → s'.accessed_memories.find? m = s.accessed_memories.find? m)
  others : ∀ k m, ¬(k = op.op_id ∧ Touches accesses m) → s'.blankAt k m = s.blankAt k m
  updated : ∀ m, Touches accesses m → ∃ memory c c', s.memories.find? m = some memory ∧
    s.unuseSet m memory = some c ∧ s'.blankAt op.op_id m = some c' ∧ Chunks c'.toList ∧
    ∀ x, Covered c'.toList x ↔ Covered c.toList x ∧ ¬Reaches accesses m x

/-- The state in which the loop over the objects of a kernel starts. -/
def loopStart (s : MemoryProfile) (op : Kernel) : MemoryProfile :=
  { s.updateOpNode op.op_id op.ctx_id with
    trace := some (op.cpu_thread, op.op_id)
    blank_chunks := s.blank_chunks.emplace op.op_id ∅ }

section

variable {accesses : List Access} {s₁ : MemoryProfile}

/-- The objects of a trace are those that are touched. -/
theorem Collected.mem_keys {access_memory : OrderedMap ℕ RangeSet}
    (h : Collected accesses access_memory) (m : ℕ) :
    m ∈ access_memory.toList.map Prod.fst ↔ Touches accesses m := by
  rw [← h.touched, List.mem_map]
  constructor
  · rintro ⟨e, he, rfl⟩
    rw [(access_memory.find?_eq_some_iff e.1 e.2).2 he]
    rfl
  · intro hm
    obtain ⟨ranges, hranges⟩ := Option.isSome_iff_exists.1 hm
    exact ⟨(m, ranges), (access_memory.find?_eq_some_iff m ranges).1 hranges, rfl⟩

/-- What the loop over the objects finds is what was there before the patches. -/
structure SameObjects (s : MemoryProfile) (op : Kernel) (s₂ : MemoryProfile) : Prop where
  op_node : s₂.op_node = (s.updateOpNode op.op_id op.ctx_id).op_node
  memories : s₂.memories = s.memories
  addresses_map : s₂.addresses_map = s.addresses_map
  accessed_memories : s₂.accessed_memories = s.accessed_memories
  blank : ∀ k m, s₂.blankAt k m = s.blankAt k m

theorem Analyzed.sameObjects {i : ℕ × ℕ} (h : Analyzed s i accesses s₁) (op : Kernel) :
    SameObjects s op (loopStart s₁ op) where
  op_node := by
    have hop_node : s₁.op_node = s.op_node := by rw [h.frame]
    show (s₁.updateOpNode op.op_id op.ctx_id).op_node = _
    unfold updateOpNode
    rw [hop_node]
  memories := by
    rw [h.frame]
    rfl
  addresses_map := by
    rw [h.frame]
    rfl
  accessed_memories := by
    rw [h.frame]
    rfl
  blank k m := by
    have hblank : s₁.blank_chunks = s.blank_chunks := by rw [h.frame]
    calc (loopStart s₁ op).blankAt k m
      _ = s₁.blankAt k m := blankAt_emplace s₁ op.op_id k m
      _ = s.blankAt k m := by unfold blankAt; rw [hblank]

theorem SameObjects.unuseSet {s₂ : MemoryProfile} (h : SameObjects s op s₂) (m : ℕ)
    (memory : Memory) : s₂.unuseSet m memory = s.unuseSet m memory :=
  unuseSet_congr (by rw [h.accessed_memories]) (fun kid => h.blank kid m) memory

/-- The objects can be worked on in the loop, as they could before the patches. -/
theorem SameObjects.ready {s₂ : MemoryProfile} (h : SameObjects s op s₂)
    {access_memory : OrderedMap ℕ RangeSet} (hcollected : Collected accesses access_memory)
    (hready : ∀ m, Touches accesses m → ∃ memory c, s.memories.find? m = some memory ∧
      (s.op_node.find? memory.op_id).isSome ∧ s.unuseSet m memory = some c ∧ Chunks c.toList)
    {e : ℕ × RangeSet} (he : e ∈ access_memory.toList) : Ready s₂ e := by
  have hfind := (access_memory.find?_eq_some_iff e.1 e.2).2 he
  obtain ⟨memory, c, hmemory, hnode, hunuse, hchunks⟩ :=
    hready e.1 ((hcollected.mem_keys e.1).1 (List.mem_map_of_mem he))
  refine ⟨hcollected.proper e.1 e.2 hfind, memory, c, ?_, ?_, ?_, hchunks⟩
  · rw [h.memories, hmemory]
  · rw [h.op_node]
    exact isSome_updateOpNode hnode
  · rw [h.unuseSet, hunuse]

/-- The callback of a kernel whose patches have been analysed. -/
theorem Analyzed.kernelOpCallback (h : Analyzed s (op.cpu_thread, op.op_id) accesses s₁)
    (hnone : ∀ m, s.blankAt op.op_id m = none)
    (hready : ∀ m, Touches accesses m → ∃ memory c, s.memories.find? m = some memory ∧
      (s.op_node.find? memory.op_id).isSome ∧ s.unuseSet m memory = some c ∧ Chunks c.toList) :
    ∃ s', Settles (fun fuel => MemoryProfile.kernelOpCallback fuel s₁ op) s' ∧
      KernelUpdated s op accesses s' := by
  obtain ⟨t, ht, hop, hcollected⟩ := h.collected
  have hmem := hcollected.mem_keys
  have hsame := h.sameObjects op
  obtain ⟨s₃, hsettles, hupdated⟩ := exists_foldlM_updateObject op
    (fun e he => hsame.ready hcollected hready he) fun m => by rw [hsame.blank, hnone]
  let s' : MemoryProfile :=
    { s₃.setTrace (op.cpu_thread, op.op_id) ⟨op.op_id, ∅⟩ with trace := none }
  have hblank' : ∀ k m, s'.blankAt k m = s₃.blankAt k m := fun k m => rfl
  refine ⟨s', ?_, ?_⟩
  · have htrace : (s₁.updateOpNode op.op_id op.ctx_id).trace = some (op.cpu_thread, op.op_id) :=
      h.trace
    have htrace' : (s₁.updateOpNode op.op_id op.ctx_id).traceAt (op.cpu_thread, op.op_id) =
      some t := ht
    have hstart : { s₁.updateOpNode op.op_id op.ctx_id with
        blank_chunks := (s₁.updateOpNode op.op_id op.ctx_id).blank_chunks.emplace op.op_id ∅ } =
        loopStart s₁ op := by
      unfold loopStart
      rw [← h.trace]
      rfl
    unfold MemoryProfile.kernelOpCallback
    simp only [htrace, htrace', Option.bind_some, hop]
    exact hsettles.map _
  · constructor
    · rfl
    · intro i hi
      have htraceAt : s'.traceAt i = if i = (op.cpu_thread, op.op_id) then
          some ⟨op.op_id, ∅⟩ else s₃.traceAt i := traceAt_setTrace s₃ _ i _
      by_cases heq : i = (op.cpu_thread, op.op_id)
      · exact .inl (by rw [heq])
      · have hs₃ : s₃.traceAt i = s₁.traceAt i := by
          unfold traceAt
          rw [hupdated.tables.kernel_trace]
          rfl
        rw [htraceAt, if_neg heq, hs₃, h.others i heq] at hi
        exact .inr hi
    · exact hupdated.tables.op_node.trans hsame.op_node
    · exact hupdated.tables.memories.trans hsame.memories
    · exact hupdated.tables.addresses_map.trans hsame.addresses_map
    · intro m
      have hfind : s'.accessed_memories.find? m =
          if m ∈ t.access_memory.toList.map Prod.fst then some op.op_id
          else s.accessed_memories.find? m := by
        rw [← hsame.accessed_memories]
        exact hupdated.accessed m
      rw [hfind, ← hmem]
      exact ⟨fun hm => if_pos hm, fun hm => if_neg hm⟩
    · intro k m hne
      rw [← hmem] at hne
      rw [hblank', hupdated.others k m hne, hsame.blank]
    · intro m hm
      obtain ⟨e, he, rfl⟩ := List.mem_map.1 ((hmem m).2 hm)
      have hfind := (t.access_memory.find?_eq_some_iff e.1 e.2).2 he
      obtain ⟨memory, c, c', hmemory, hunuse, hc', hchunks', hcovered⟩ := hupdated.updated e he
      refine ⟨memory, c, c', ?_, ?_, hc', hchunks', fun x => ?_⟩
      · rw [← hmemory, hsame.memories]
      · rw [← hsame.unuseSet, hunuse]
      · rw [hcovered, hcollected.covered e.1 e.2 hfind]

end

end TenProf.MemoryProfile
