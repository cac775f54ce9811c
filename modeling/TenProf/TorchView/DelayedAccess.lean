import TenProf.TorchView.Attribution

/-!
# What becomes of the delayed accesses

`map_delayed_access` looks up the nodes of the first access of each instruction in the delayed trace
and keeps them for the rest: a later access of the instruction, with another address or another
context, is only counted. So what is recorded afterwards is what was recorded before and what is due
to the first accesses (`recorded_mapDelayedAccess`), and no access is lost exactly when nothing more
is due to the others (`nothingLost_iff`).
-/

namespace TenProf.TorchView

/-- An instruction stands in `ctxid_pcs[c]` of an entry of `call_path_map` for an id. -/
def Recorded (a : Attribution) (id c pc : ℕ) : Prop :=
  ∃ state ∈ a.call_path_map.findD id [], pc ∈ state.ctxid_pcs.findD c []

instance (a : Attribution) (id c pc : ℕ) : Decidable (Recorded a id c pc) := by
  unfold Recorded
  infer_instance

/-- The ids to which a delayed access is due: those of the view nodes that are found for its
address, or if there are none, those of the memory blocks that contain it. -/
def dueIds (env : Env) (s : TorchView) (addr : ℕ) : List ℕ :=
  match newGetViewNodesByMemAddr env s s.attribution.cells addr true with
  | some ([], _) => (getMemBlockByMemAddr s addr).map MemoryBlock.block_id
  | some (hits, _) => hits.map ViewNode.view_id
  | none => []

/-- A pair of an address and a context is delayed under an instruction. -/
def DelayedUnder (d : DelayedTrace) (pc addr c : ℕ) : Prop :=
  (d.access_memory.findD pc ∅).find? addr = some c

/-- The first access of an instruction among some accesses, as the loop takes them. -/
def firstOf (accesses : List (ℕ × ℕ × ℕ)) (pc : ℕ) : Option (ℕ × ℕ) :=
  (accesses.find? fun access => access.1 = pc).map Prod.snd

/-- `map_delayed_access` has a result with an empty delayed trace, in which every delayed access is
recorded at every id to which it is due. -/
def NothingLost (env : Env) (s : TorchView) (d : DelayedTrace) : Prop :=
  ∃ a, mapDelayedAccess env s = some a ∧ a.delayed_trace = none ∧
    ∀ pc addr c, DelayedUnder d pc addr c → ∀ id ∈ dueIds env s addr, Recorded a id c pc

/-- Every delayed access is recorded already at the ids to which it is due, or has the context of
the lowest address of its instruction, which is due to them as well. -/
def FirstCovers (env : Env) (s : TorchView) (d : DelayedTrace) : Prop :=
  ∀ pc addr c, DelayedUnder d pc addr c → ∀ id ∈ dueIds env s addr,
    Recorded s.attribution id c pc ∨
      ∃ addr₀, (d.access_memory.findD pc ∅).toList.head? = some (addr₀, c) ∧
        id ∈ dueIds env s addr₀

/-- A state with any delayed trace and any memory blocks. -/
def withDelayed (s : TorchView) (d : DelayedTrace) (blocks : List MemoryBlock) : TorchView :=
  { s with
    allocated_mem_blocks := blocks
    attribution := { s.attribution with delayed_trace := some d } }

/-- The accesses of a trace are the entries of its two maps. -/
theorem mem_accessesOf {access_memory : OrderedMap ℕ (OrderedMap ℕ ℕ)} {pc addr c : ℕ} :
    (pc, addr, c) ∈ accessesOf access_memory ↔
      (access_memory.findD pc ∅).find? addr = some c := by
  simp only [accessesOf, List.mem_flatMap, List.mem_map, Prod.mk.injEq, Prod.exists]
  constructor
  · rintro ⟨pc', m, hm, addr', c', hc, rfl, rfl, rfl⟩
    rw [OrderedMap.findD, (OrderedMap.find?_eq_some_iff _ _ _).2 hm]
    exact (OrderedMap.find?_eq_some_iff _ _ _).2 hc
  · intro h
    cases hm : access_memory.find? pc with
    | none => simp [OrderedMap.findD, hm] at h
    | some m =>
      rw [OrderedMap.findD, hm] at h
      exact ⟨pc, m, (OrderedMap.find?_eq_some_iff _ _ _).1 hm, addr, c,
        (OrderedMap.find?_eq_some_iff _ _ _).1 h, rfl, rfl, rfl⟩

/-- The condition speaks of the entries of the trace only. -/
instance (env : Env) (s : TorchView) (d : DelayedTrace) : Decidable (FirstCovers env s d) :=
  decidable_of_iff (∀ access ∈ accessesOf d.access_memory, ∀ id ∈ dueIds env s access.2.1,
    Recorded s.attribution id access.2.2 access.1 ∨
      ∃ first ∈ (d.access_memory.findD access.1 ∅).toList.head?,
        first.2 = access.2.2 ∧ id ∈ dueIds env s first.1) <| by
    constructor
    · intro h pc addr c hpair id hid
      rcases h (pc, addr, c) (mem_accessesOf.2 hpair) id hid with hold | hcovered
      · exact .inl hold
      · obtain ⟨⟨addr₀, c₀⟩, hfirst, rfl, hdue⟩ := hcovered
        exact .inr ⟨addr₀, hfirst, hdue⟩
    · rintro h ⟨pc, addr, c⟩ hmem id hid
      rcases h pc addr c (mem_accessesOf.1 hmem) id hid with hold | ⟨addr₀, hfirst, hdue⟩
      · exact .inl hold
      · exact .inr ⟨(addr₀, c), hfirst, rfl, hdue⟩

section Loop

variable {env : Env} {s : TorchView} {a a' : Attribution} {d : DelayedTrace}

/-- The first access of an instruction in two lists is that in the first list, if there is one. -/
theorem firstOf_append (l l' : List (ℕ × ℕ × ℕ)) (pc : ℕ) :
    firstOf (l ++ l') pc = (firstOf l pc).or (firstOf l' pc) := by
  simp only [firstOf, List.find?_append, Option.map_or]

/-- The first of the accesses of one instruction. -/
theorem firstOf_map (entries : List (ℕ × ℕ)) (pc' pc : ℕ) :
    firstOf (entries.map fun (addr, c) => (pc', addr, c)) pc =
      if pc' = pc then entries.head? else none := by
  cases entries with
  | nil => simp [firstOf]
  | cons entry entries =>
    split_ifs with hpc <;> simp [firstOf, hpc]

/-- The loop comes to the lowest address of an instruction first. -/
theorem firstOf_accessesOf (access_memory : OrderedMap ℕ (OrderedMap ℕ ℕ)) (pc : ℕ) :
    firstOf (accessesOf access_memory) pc = (access_memory.findD pc ∅).toList.head? := by
  unfold accessesOf OrderedMap.findD OrderedMap.find?
  have hkeys := access_memory.nodup_keys
  generalize access_memory.toList = entries at hkeys
  -- By induction on the entries: the accesses of an entry are those of its instruction.
  induction entries with
  | nil => rfl
  | cons entry entries ih =>
    obtain ⟨pc', m⟩ := entry
    rw [List.map_cons, List.nodup_cons] at hkeys
    rw [List.flatMap_cons, firstOf_append, ih hkeys.2, firstOf_map]
    by_cases hpc : pc' = pc
    · have hrest : entries.find? (fun e => e.1 = pc) = none := by
        refine List.find?_eq_none.2 fun e he heq => hkeys.1 ?_
        have hmem : e.1 ∈ entries.map Prod.fst := List.mem_map_of_mem he
        rwa [of_decide_eq_true heq, ← hpc] at hmem
      rw [hrest, List.find?_cons_of_pos (by simpa using hpc), if_pos hpc]
      exact Option.or_none
    · rw [List.find?_cons_of_neg (by simpa using hpc), if_neg hpc, Option.none_or]

/-- A change of cells records nothing. -/
theorem OnlyCells.recorded_iff (h : OnlyCells a a') (id c pc : ℕ) :
    Recorded a' id c pc ↔ Recorded a id c pc := by
  rw [h.frame]
  rfl

/-- The delayed Python state has no contexts of its own, so one instruction is recorded. -/
theorem recorded_pushDelayed (hd : d.python_state.ctxid_pcs = ∅) {object_type : MemObject}
    {view_id c pc : ℕ} (h : pushDelayed a d object_type view_id c pc = some a') (id c' pc' : ℕ) :
    Recorded a' id c' pc' ↔ Recorded a id c' pc' ∨ id = view_id ∧ c' = c ∧ pc' = pc := by
  simp only [pushDelayed, pushPc, pushCallPath, OrderedMap.findD_set, if_true,
    List.getLast?_append, List.getLast?_singleton, Option.some_or, Option.map_some,
    List.dropLast_concat, Option.some.injEq] at h
  rw [← h]
  simp only [Recorded, OrderedMap.findD_set, hd]
  split_ifs with hid
  · rw [hid]
    simp only [List.mem_append, List.mem_singleton, or_and_right, exists_or, exists_eq_left,
      OrderedMap.findD_set]
    refine or_congr_right ?_
    split_ifs with hc <;> simp [hc, OrderedMap.findD]
  · simp [hid]

/-- Recording one instruction for several objects, one after the other. -/
theorem recorded_foldlM {β : Type} {step : Attribution → β → Option Attribution} (idOf : β → ℕ)
    (c pc : ℕ) (hstep : ∀ a b a', step a b = some a' → ∀ id c' pc',
      Recorded a' id c' pc' ↔ Recorded a id c' pc' ∨ id = idOf b ∧ c' = c ∧ pc' = pc)
    {bs : List β} (h : bs.foldlM step a = some a') (id c' pc' : ℕ) :
    Recorded a' id c' pc' ↔ Recorded a id c' pc' ∨ id ∈ bs.map idOf ∧ c' = c ∧ pc' = pc := by
  refine foldlM_invariant_handled (I := fun before a₁ => ∀ id c' pc', Recorded a₁ id c' pc' ↔
    Recorded a id c' pc' ∨ id ∈ before.map idOf ∧ c' = c ∧ pc' = pc)
    (fun before b a₁ a₂ hbefore _ h => ?_) (fun id c' pc' => by simp) h id c' pc'
  intro id c' pc'
  rw [hstep a₁ b a₂ h, hbefore]
  simp only [List.map_append, List.map_singleton, List.mem_append, List.mem_singleton]
  tauto

theorem dueIds_of_lookup {addr : ℕ} {hits : List ViewNode} {cells : OrderedMap ℕ NodeCell}
    (h : newGetViewNodesByMemAddr env s s.attribution.cells addr true = some (hits, cells)) :
    dueIds env s addr = if hits = [] then (getMemBlockByMemAddr s addr).map MemoryBlock.block_id
      else hits.map ViewNode.view_id := by
  unfold dueIds
  rw [h]
  cases hits <;> rfl

/-- The first access of an instruction is recorded at the ids to which it is due. -/
theorem recorded_delayedAccess (hd : d.python_state.ctxid_pcs = ∅)
    (hkept : Kept s.attribution a) {cache : OrderedMap ℕ (List ViewNode)} {pc addr c : ℕ}
    (hcache : cache.find? pc = none) {st' : Attribution × OrderedMap ℕ (List ViewNode)}
    (hstep : delayedAccess env s d (a, cache) (pc, addr, c) = some st') :
    (∃ hits, st'.2 = cache.set pc hits) ∧ ∀ id c' pc', Recorded st'.1 id c' pc' ↔
      Recorded a id c' pc' ∨ id ∈ dueIds env s addr ∧ c' = c ∧ pc' = pc := by
  simp only [delayedAccess, hcache, Option.bind_eq_some_iff, Option.map_eq_some_iff] at hstep
  obtain ⟨⟨hits, cells⟩, hlookup, a₁, h₁, a₂, h₂, a₃, h₃, rfl⟩ := hstep
  refine ⟨⟨hits, rfl⟩, fun id c' pc' => ?_⟩
  have hcells := (onlyCells_lookup hlookup h₁).recorded_iff id c' pc'
  -- The nodes that are hit.
  have hnodes := recorded_foldlM ViewNode.view_id c pc
    (fun a n a' h id c' pc' => by
      obtain ⟨a₁, h₁, h₂⟩ := Option.bind_eq_some_iff.1 h
      rw [(onlyCells_setMemoryWritePc h₂).recorded_iff, recorded_pushDelayed hd h₁]) h₂ id c' pc'
  -- The lookup in the state before the loop finds the same nodes.
  obtain ⟨hits', m', hlookup', hsame⟩ := mem_lookup_congr hkept.cells hlookup
  have hempty : hits' = [] ↔ hits = [] := by simp only [List.eq_nil_iff_forall_not_mem, hsame]
  rw [dueIds_of_lookup hlookup', if_congr hempty rfl rfl]
  split_ifs at h₃ ⊢ with hnone
  · have hblocks := recorded_foldlM MemoryBlock.block_id c pc
      (fun a b a' h id c' pc' => recorded_pushDelayed hd h id c' pc') h₃ id c' pc'
    rw [hnone] at hnodes
    rw [hblocks, hnodes, hcells]
    simp
  · cases h₃
    have hids : id ∈ hits'.map ViewNode.view_id ↔ id ∈ hits.map ViewNode.view_id := by
      simp only [List.mem_map, hsame]
    rw [hnodes, hcells, hids]

/-- What the loop over some delayed accesses has recorded. -/
structure DelayedMapped (env : Env) (s : TorchView) (accesses : List (ℕ × ℕ × ℕ))
    (st : Attribution × OrderedMap ℕ (List ViewNode)) : Prop where
  kept : Kept s.attribution st.1
  cache : ∀ pc, st.2.find? pc = none ↔ firstOf accesses pc = none
  recorded : ∀ id c pc, Recorded st.1 id c pc ↔ Recorded s.attribution id c pc ∨
    ∃ addr, firstOf accesses pc = some (addr, c) ∧ id ∈ dueIds env s addr

/-- One more delayed access. -/
theorem DelayedMapped.after_delayedAccess (hd : d.python_state.ctxid_pcs = ∅)
    {accesses : List (ℕ × ℕ × ℕ)} {access : ℕ × ℕ × ℕ}
    {st st' : Attribution × OrderedMap ℕ (List ViewNode)} (h : DelayedMapped env s accesses st)
    (hstep : delayedAccess env s d st access = some st') :
    DelayedMapped env s (accesses ++ [access]) st' := by
  obtain ⟨a, cache⟩ := st
  obtain ⟨pc, addr, c⟩ := access
  have hkept := h.kept.trans (kept_delayedAccess hstep)
  have hone : ∀ pc', firstOf [(pc, addr, c)] pc' = if pc = pc' then some (addr, c) else none := by
    intro pc'
    simp only [firstOf, List.find?_singleton, decide_eq_true_eq]
    split_ifs <;> rfl
  cases hfirst : firstOf accesses pc with
  | some first =>
    -- The instruction was seen before: the access is only counted.
    have hsame : ∀ pc', firstOf (accesses ++ [(pc, addr, c)]) pc' = firstOf accesses pc' := by
      intro pc'
      rw [firstOf_append, hone]
      by_cases hpc : pc = pc'
      · rw [← hpc, hfirst]
        rfl
      · rw [if_neg hpc, Option.or_none]
    have hcache : cache.find? pc ≠ none := fun hnone => by
      rw [(h.cache pc).1 hnone] at hfirst
      cases hfirst
    obtain ⟨ns, hns⟩ := Option.ne_none_iff_exists'.1 hcache
    simp only [delayedAccess, hns, Option.map_eq_some_iff] at hstep
    obtain ⟨a₁, h₁, rfl⟩ := hstep
    refine ⟨hkept, fun pc' => by rw [hsame]; exact h.cache pc', fun id c' pc' => ?_⟩
    rw [(onlyCells_updateNodeTotalAccess h₁).recorded_iff, hsame]
    exact h.recorded id c' pc'
  | none =>
    obtain ⟨⟨hits, hcache⟩, hrecorded⟩ :=
      recorded_delayedAccess hd h.kept ((h.cache pc).2 hfirst) hstep
    refine ⟨hkept, fun pc' => ?_, fun id c' pc' => ?_⟩
    · rw [hcache, OrderedMap.find?_set, firstOf_append, hone]
      split_ifs with hpc hpc' hpc'
      · simp
      · exact absurd hpc.symm hpc'
      · exact absurd hpc'.symm hpc
      · rw [Option.or_none]
        exact h.cache pc'
    · rw [hrecorded, h.recorded, firstOf_append, hone]
      by_cases hpc : pc = pc'
      · subst hpc
        simp only [hfirst, Option.none_or, if_true, Option.some.injEq, Prod.mk.injEq, reduceCtorEq,
          false_and, exists_false, or_false, and_true]
        refine or_congr_right ⟨fun h => ⟨addr, ⟨rfl, h.2.symm⟩, h.1⟩, ?_⟩
        rintro ⟨addr', ⟨rfl, rfl⟩, hid⟩
        exact ⟨hid, rfl⟩
      · rw [if_neg hpc, Option.or_none]
        simp [Ne.symm hpc]

/-- What `map_delayed_access` has recorded: what was recorded before, and what is due to the first
access of each instruction. -/
theorem recorded_mapDelayedAccess (hdelayed : s.attribution.delayed_trace = some d)
    (hd : d.python_state.ctxid_pcs = ∅) (h : mapDelayedAccess env s = some a') (id c pc : ℕ) :
    Recorded a' id c pc ↔ Recorded s.attribution id c pc ∨
      ∃ addr, (d.access_memory.findD pc ∅).toList.head? = some (addr, c) ∧
        id ∈ dueIds env s addr := by
  unfold mapDelayedAccess at h
  simp only [hdelayed, Option.map_eq_some_iff] at h
  obtain ⟨st, hfold, rfl⟩ := h
  have hall := foldlM_invariant_handled (I := DelayedMapped env s)
    (fun _ _ _ _ h _ hstep => h.after_delayedAccess hd hstep)
    ⟨Kept.refl _, fun _ => by simp [firstOf], fun _ _ _ => by simp [firstOf]⟩ hfold
  rw [← firstOf_accessesOf]
  exact hall.recorded id c pc

/-- `map_delayed_access` leaves no delayed trace. -/
theorem delayed_trace_mapDelayedAccess (h : mapDelayedAccess env s = some a') :
    a'.delayed_trace = none := by
  unfold mapDelayedAccess at h
  cases hd : s.attribution.delayed_trace with
  | none =>
    simp only [hd, Option.some.injEq] at h
    rw [← h, hd]
  | some d =>
    simp only [hd, Option.map_eq_some_iff] at h
    obtain ⟨st, -, rfl⟩ := h
    rfl

/-- The forest does not depend on the delayed trace and the memory blocks. -/
theorem Inv.withDelayed (h : Inv env s) (d : DelayedTrace) (blocks : List MemoryBlock) :
    Inv env (withDelayed s d blocks) :=
  ⟨h.sorted, h.root_range, h.node_range, h.ptr_nodup, h.ptr_lt, h.live, h.id_nodup, h.id_issued,
    h.call_path, h.cells, h.range_issued, h.ranges, h.snapshot, h.snapshot_start⟩

/-- For every reachable forest, every delayed trace and all memory blocks, no delayed access is lost
exactly when the first access of its instruction covers it. -/
theorem nothingLost_iff (hinj : Function.Injective env.update_op_id_func) (hs : Reachable env s)
    (d : DelayedTrace) (hd : d.python_state.ctxid_pcs = ∅) (blocks : List MemoryBlock) :
    NothingLost env (withDelayed s d blocks) d ↔ FirstCovers env (withDelayed s d blocks) d := by
  have hinv := (inv_of_reachable hinj hs).withDelayed d blocks
  obtain ⟨a, ha⟩ := Option.isSome_iff_exists.1 hinv.mapDelayedAccess_isSome
  have hrecorded := recorded_mapDelayedAccess rfl hd ha
  constructor
  · rintro ⟨a', ha', -, hall⟩ pc addr c hpair id hid
    obtain rfl := Option.some.inj (ha.symm.trans ha')
    exact (hrecorded id c pc).1 (hall pc addr c hpair id hid)
  · intro hfirst
    exact ⟨a, ha, delayed_trace_mapDelayedAccess ha, fun pc addr c hpair id hid =>
      (hrecorded id c pc).2 (hfirst pc addr c hpair id hid)⟩

end Loop

/-- The accesses of one instruction, delayed without Python frames. -/
def delayedAt (pc : ℕ) (accesses : List (ℕ × ℕ)) : DelayedTrace where
  python_state := PyStateCTX.new (-1) []
  access_memory := (∅ : OrderedMap ℕ (OrderedMap ℕ ℕ)).set pc
    (accesses.foldl (fun m access => m.emplace access.1 access.2) ∅)
  write_pcs := ∅

/-- Two accesses of one block by one instruction in one context. -/
theorem nothingLost_oneBlock : NothingLost countingEnv
    (withDelayed (initial false) (delayedAt 8 [(1000, 7), (1004, 7)]) [⟨1, 1000, 100⟩])
    (delayedAt 8 [(1000, 7), (1004, 7)]) :=
  (nothingLost_iff countingEnv_injective ⟨false, [], rfl⟩ _ rfl _).2 (by decide +kernel)

/-- Two kernels that run one instruction outside of all tensors, each in a block of its own. -/
def twoBlocks : List Event :=
  [.alloc ⟨1000, 100, 100⟩, .alloc ⟨2000, 100, 200⟩, .enter ⟨['a'], []⟩ [],
    .analysisBegin emptyDict, .unitAccess 8 1000 0, .analysisEnd, .kernelOp 7 [],
    .analysisBegin emptyDict, .unitAccess 8 2000 0, .analysisEnd, .kernelOp 9 []]

/-- The access of the second block is lost. -/
theorem not_nothingLost_twoBlocks : ¬∀ (s : TorchView) (d : DelayedTrace)
    (blocks : List MemoryBlock), Reachable countingEnv s → d.python_state.ctxid_pcs = ∅ →
    NothingLost countingEnv (withDelayed s d blocks) d := by
  intro hall
  have hsome : (run (step countingEnv) (initial false) twoBlocks).any (fun s =>
      s.attribution.delayed_trace.any fun d => d.python_state.ctxid_pcs = ∅ ∧
        (d.access_memory.findD 8 ∅).find? 2000 = some 9 ∧
        2 ∈ dueIds countingEnv (withDelayed s d s.allocated_mem_blocks) 2000 ∧
        (mapDelayedAccess countingEnv (withDelayed s d s.allocated_mem_blocks)).all
          fun a => ¬Recorded a 2 9 8) = true := by
    decide +kernel
  obtain ⟨s, hrun, hs⟩ := (Option.any_eq_true _ _).1 hsome
  obtain ⟨d, -, hd⟩ := (Option.any_eq_true _ _).1 hs
  obtain ⟨hstate, hpair, hdue, hlost⟩ := of_decide_eq_true hd
  obtain ⟨a, ha, -, hrecorded⟩ := hall s d s.allocated_mem_blocks (reachable_of_run hrun) hstate
  rw [ha, Option.all_some, decide_eq_true_eq] at hlost
  exact hlost (hrecorded 8 2000 9 hpair 2 hdue)

end TenProf.TorchView
