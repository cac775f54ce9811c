import TenProf.Binutils.SearchFrame

/-!
# The calls of a search

`init_access_kind` calls itself for the neighbours of an instruction, forwards or backwards, and all
calls share what was visited. `bodyRuns` lists the instructions for which the body behind the test
of `visited` is run, call by call, and `EndsWithin` says that the calls are nested no deeper than a
bound. Each call marks its instruction before it makes others, so an instruction comes once, and the
instructions that are not visited yet bound the depth (`initAccessKind_terminates`).
-/

namespace TenProf.Binutils

/-- The recursive call of a turn of the loop over the edges, if it makes one: the instruction and
the direction. -/
def callOf (load : Bool) (s : Search) (edge : InstructionDependencyIndex) :
    Option (Instruction × Bool) :=
  if s.access_kind.isComplete then none
  else
    (s.graph.nodes.find? (neighborPc load edge)).bind fun neighbor_inst =>
      if contains neighbor_inst.op "MOVE".toList then some (neighbor_inst, load)
      else if contains neighbor_inst.op "MEMORY".toList then
        if load then none
        else
          match neighbor_inst.access_kind with
          | some _ => none
          | none => some (neighbor_inst, !load)
      else none

/-- The bodies that are run for the call of a turn, from those that a call runs. -/
def runsOf (runs : Instruction → InstructionGraph → Finset ℕ → Bool → List ℕ) (load : Bool)
    (t : Search × InstructionDependencyIndex) : List ℕ :=
  match callOf load t.1 t.2 with
  | some call => runs call.1 t.1.graph t.1.visited call.2
  | none => []

/-- The pcs of the instructions for which the body is run, in this order. -/
def bodyRuns (default_data_type : DataType) :
    ℕ → Instruction → InstructionGraph → Finset ℕ → Bool → List ℕ
  | 0, _, _, _, _ => []
  | fuel + 1, inst, g, visited, load =>
    if inst.pc ∈ visited then []
    else
      inst.pc :: (turns (searchEdge default_data_type (initAccessKind default_data_type fuel) inst
        load) ⟨startKind inst.op, g, insert inst.pc visited⟩ (edgesOf g inst.pc load)).flatMap
          (runsOf (bodyRuns default_data_type fuel) load)

/-- The turns of the loop of a search, whose recursive calls have the given bound. -/
def searchTurns (d : DataType) (fuel : ℕ) (inst : Instruction) (g : InstructionGraph)
    (visited : Finset ℕ) (load : Bool) : List (Search × InstructionDependencyIndex) :=
  if inst.pc ∈ visited then []
  else turns (searchEdge d (initAccessKind d fuel) inst load)
    ⟨startKind inst.op, g, insert inst.pc visited⟩ (edgesOf g inst.pc load)

/-- No call is nested deeper than a bound. -/
def EndsWithin (default_data_type : DataType) :
    ℕ → Instruction → InstructionGraph → Finset ℕ → Bool → Prop
  | 0, _, _, _, _ => False
  | fuel + 1, inst, g, visited, load =>
    ∀ t ∈ searchTurns default_data_type fuel inst g visited load, ∀ call,
      callOf load t.1 t.2 = some call →
        EndsWithin default_data_type fuel call.1 t.1.graph t.1.visited call.2

/-- The ends of the edges of a search are instructions. -/
def EndsAreNodes (g : InstructionGraph) : Prop :=
  ∀ pc load, ∀ edge ∈ edgesOf g pc load, (g.nodes.find? (neighborPc load edge)).isSome

/-- The memory instructions have the source registers that a search looks at. -/
def HasRegisters (g : InstructionGraph) : Prop :=
  ∀ index n, g.nodes.find? index = some n → contains n.op "MEMORY".toList →
    ∀ inst, (addressUse inst n).isSome

section

variable {d : DataType} {search search' : Instruction → InstructionGraph → Finset ℕ → Bool →
  Option Search} {inst : Instruction} {load : Bool} {s s' : Search}
  {edge : InstructionDependencyIndex} {call : Instruction × Bool}

/-! ## The call of a turn -/

/-- The call for a neighbour. -/
theorem callOf_of_find {n : Instruction} (hopen : ¬s.access_kind.isComplete)
    (hn : s.graph.nodes.find? (neighborPc load edge) = some n) :
    callOf load s edge =
      if contains n.op "MOVE".toList then some (n, load)
      else if contains n.op "MEMORY".toList ∧ load = false ∧ n.access_kind = none then
        some (n, true)
      else none := by
  unfold callOf
  rw [if_neg hopen, hn, Option.bind_some]
  by_cases hmove : contains n.op "MOVE".toList
  · rw [if_pos hmove, if_pos hmove]
  rw [if_neg hmove, if_neg hmove]
  by_cases hmemory : contains n.op "MEMORY".toList
  · rw [if_pos hmemory]
    cases load with
    | true => rw [if_pos rfl, if_neg fun h => Bool.noConfusion h.2.1]
    | false =>
      rw [if_neg Bool.false_ne_true]
      cases hk : n.access_kind with
      | some k => rw [if_neg fun h => Option.some_ne_none k h.2.2]
      | none => rw [if_pos ⟨hmemory, rfl, rfl⟩, Bool.not_false]
  · rw [if_neg hmemory, if_neg fun h => hmemory h.1]

/-- The instruction that is called for is a node. -/
theorem find?_of_callOf (h : callOf load s edge = some call) :
    s.graph.nodes.find? (neighborPc load edge) = some call.1 := by
  by_cases hcomplete : s.access_kind.isComplete
  · unfold callOf at h
    rw [if_pos hcomplete] at h
    cases h
  cases hn : s.graph.nodes.find? (neighborPc load edge) with
  | none =>
    unfold callOf at h
    rw [if_neg hcomplete, hn] at h
    cases h
  | some n =>
    rw [callOf_of_find hcomplete hn] at h
    split_ifs at h <;> cases h <;> rfl

/-- A turn with a result visits what its recursive call does. -/
theorem visited_of_callOf (hcall : callOf load s edge = some call)
    (h : searchEdge d search inst load s edge = some s') :
    ∃ r, search call.1 s.graph s.visited call.2 = some r ∧ s'.visited = r.visited := by
  cases searchEdge_cases h with
  | complete hcomplete =>
    unfold callOf at hcall
    rw [if_pos hcomplete] at hcall
    cases hcall
  | @move n r hopen hn hmove hr =>
    rw [callOf_of_find hopen hn, if_pos hmove] at hcall
    cases hcall
    exact ⟨r, hr, rfl⟩
  | address hopen hn hmove hmemory hload =>
    rw [callOf_of_find hopen hn, if_neg hmove, if_neg (by simp [hload])] at hcall
    cases hcall
  | cached hopen hn hmove hmemory hload hk =>
    rw [callOf_of_find hopen hn, if_neg hmove, if_neg (by simp [hk])] at hcall
    cases hcall
  | @reverse n r hopen hn hmove hmemory hload hnone hr =>
    rw [callOf_of_find hopen hn, if_neg hmove, if_pos ⟨hmemory, hload, hnone⟩] at hcall
    cases hcall
    exact ⟨r, hr, rfl⟩
  | direct hopen hn hmove hmemory =>
    rw [callOf_of_find hopen hn, if_neg hmove, if_neg fun h => hmemory h.1] at hcall
    cases hcall

/-- A turn has a result if its neighbour is a node, the registers that it reads are there, and its
recursive call has a result. -/
theorem searchEdge_isSome (hnode : (s.graph.nodes.find? (neighborPc load edge)).isSome)
    (hregisters : HasRegisters s.graph)
    (hsearch : ∀ call, callOf load s edge = some call →
      (search call.1 s.graph s.visited call.2).isSome) :
    (searchEdge d search inst load s edge).isSome := by
  unfold searchEdge
  by_cases hcomplete : s.access_kind.isComplete
  · rw [if_pos hcomplete]
    rfl
  obtain ⟨n, hn⟩ := Option.isSome_iff_exists.1 hnode
  simp only [callOf_of_find hcomplete hn] at hsearch
  rw [if_neg hcomplete]
  simp only [hn, Option.bind_some]
  by_cases hmove : contains n.op "MOVE".toList
  · obtain ⟨r, hr⟩ := Option.isSome_iff_exists.1 (hsearch _ (if_pos hmove))
    simp only [hmove, if_true, hr, Option.map_some, Option.isSome_some]
  by_cases hmemory : contains n.op "MEMORY".toList
  · cases load with
    | true =>
      obtain ⟨use, huse⟩ := Option.isSome_iff_exists.1 (hregisters _ n hn hmemory inst)
      rw [if_neg hmove, if_pos hmemory, if_pos rfl, huse]
      rfl
    | false =>
      rw [if_neg hmove, if_pos hmemory, if_neg Bool.false_ne_true]
      cases hk : n.access_kind with
      | some k => rfl
      | none =>
        obtain ⟨r, hr⟩ := Option.isSome_iff_exists.1
          (hsearch (n, true) (by rw [if_neg hmove, if_pos ⟨hmemory, rfl, hk⟩]))
        simp only [Bool.not_false, hr, Option.map_some, Option.isSome_some]
  · rw [if_neg hmove, if_neg hmemory]
    rfl

end

section

variable {d : DataType} {fuel fuel' : ℕ} {inst : Instruction} {g g' : InstructionGraph}
  {visited : Finset ℕ} {load : Bool} {r : Search}

/-- The turns of a search that has started, and its loop. -/
theorem mem_searchTurns {t : Search × InstructionDependencyIndex}
    (h : t ∈ searchTurns d fuel inst g visited load) : inst.pc ∉ visited ∧
      t ∈ turns (searchEdge d (initAccessKind d fuel) inst load)
        ⟨startKind inst.op, g, insert inst.pc visited⟩ (edgesOf g inst.pc load) := by
  unfold searchTurns at h
  split_ifs at h with hpc
  · cases h
  · exact ⟨hpc, h⟩

/-! ## The bodies -/

/-- A search runs no body twice and none of an instruction that is visited, and leaves those that it
runs visited. -/
theorem nodup_bodyRuns (d : DataType) (fuel : ℕ) (inst : Instruction) (g : InstructionGraph)
    (visited : Finset ℕ) (load : Bool) :
    (bodyRuns d fuel inst g visited load).Nodup ∧
      (∀ pc ∈ bodyRuns d fuel inst g visited load, pc ∉ visited) ∧
      ∀ r, initAccessKind d fuel inst g visited load = some r →
        ∀ pc ∈ bodyRuns d fuel inst g visited load, pc ∈ r.visited := by
  induction fuel generalizing inst g visited load with
  | zero => exact ⟨List.nodup_nil, fun _ h => absurd h List.not_mem_nil, fun _ h => by cases h⟩
  | succ fuel ih =>
    by_cases hpc : inst.pc ∈ visited
    · rw [bodyRuns, if_pos hpc]
      exact ⟨List.nodup_nil, fun _ h => absurd h List.not_mem_nil, fun _ _ _ h =>
        absurd h List.not_mem_nil⟩
    rw [bodyRuns, if_neg hpc, initAccessKind_of_notMem hpc]
    -- What is visited marks what the calls of the turns run.
    have hturn : ∀ t : Search × InstructionDependencyIndex,
        (runsOf (bodyRuns d fuel) load t).Nodup ∧
          ∀ pc ∈ runsOf (bodyRuns d fuel) load t, pc ∉ t.1.visited := by
      intro t
      unfold runsOf
      cases callOf load t.1 t.2 with
      | none => exact ⟨List.nodup_nil, fun _ h => absurd h List.not_mem_nil⟩
      | some call =>
        obtain ⟨hnodup, hfresh, -⟩ := ih call.1 t.1.graph t.1.visited call.2
        exact ⟨hnodup, hfresh⟩
    have hstep : ∀ s edge s', searchEdge d (initAccessKind d fuel) inst load s edge = some s' →
        ∀ pc, pc ∈ runsOf (bodyRuns d fuel) load (s, edge) ∨ pc ∈ s.visited → pc ∈ s'.visited := by
      rintro s edge s' hstep pc (hrun | hvisited)
      · unfold runsOf at hrun
        cases hcall : callOf load s edge with
        | none => simp [hcall] at hrun
        | some call =>
          obtain ⟨r, hr, hvisited⟩ := visited_of_callOf hcall hstep
          rw [hvisited]
          exact (ih _ _ _ _).2.2 r hr pc (by simpa [hcall] using hrun)
      · exact (frame_searchEdge hstep).2 hvisited
    obtain ⟨hnodup, hfresh, hend⟩ := nodup_flatMap_turns (fun s pc => pc ∈ s.visited)
      (edgesOf g inst.pc load) ⟨startKind inst.op, g, insert inst.pc visited⟩
      (fun t _ => hturn t) fun s edge s' _ => hstep s edge s'
    refine ⟨List.nodup_cons.2 ⟨fun hmem => hfresh _ hmem (Finset.mem_insert_self _ _), hnodup⟩,
      fun pc hmem => ?_, fun r hr pc hmem => ?_⟩
    · rcases List.mem_cons.1 hmem with rfl | hmem
      · exact hpc
      · exact fun hvisited => hfresh pc hmem (Finset.mem_insert_of_mem hvisited)
    · rcases List.mem_cons.1 hmem with rfl | hmem
      · exact hend r hr _ (.inr (Finset.mem_insert_self _ _))
      · exact hend r hr pc (.inl hmem)

/-! ## The depth -/

/-- In a turn of a search fewer pcs are left to visit. -/
theorem unvisited_of_mem_turns (hinst : inst.pc ∈ pcsOf g) (hpc : inst.pc ∉ visited)
    {t : Search × InstructionDependencyIndex}
    (ht : t ∈ turns (searchEdge d (initAccessKind d fuel) inst load)
      ⟨startKind inst.op, g, insert inst.pc visited⟩ (edgesOf g inst.pc load)) :
    Caches (fun _ _ => True) g t.1.graph ∧
      unvisited t.1.graph t.1.visited < unvisited g visited := by
  have hframe := invariant_of_mem_turns
    (I := fun s => Caches (fun _ _ => True) g s.graph ∧ insert inst.pc visited ⊆ s.visited)
    (fun s edge s' hs _ hstep => ⟨hs.1.trans (frame_searchEdge hstep).1,
      hs.2.trans (frame_searchEdge hstep).2⟩) ⟨.refl g, subset_rfl⟩ ht
  have hle : unvisited t.1.graph t.1.visited ≤ unvisited g (insert inst.pc visited) := by
    unfold unvisited
    rw [hframe.1.pcsOf_eq]
    exact Finset.card_le_card (Finset.sdiff_subset_sdiff subset_rfl hframe.2)
  exact ⟨hframe.1, hle.trans_lt (unvisited_insert_lt hinst hpc)⟩

/-- The calls of a search are nested no deeper than there are pcs left to visit. -/
theorem endsWithin_of_lt (hinst : inst.pc ∈ pcsOf g) (h : unvisited g visited < fuel) :
    EndsWithin d fuel inst g visited load := by
  induction fuel generalizing inst g visited load with
  | zero => cases h
  | succ fuel ih =>
    intro t ht call hcall
    obtain ⟨hpc, ht⟩ := mem_searchTurns ht
    obtain ⟨-, hlt⟩ := unvisited_of_mem_turns hinst hpc ht
    exact ih (mem_pcsOf.2 ⟨_, call.1, find?_of_callOf hcall, rfl⟩) (by omega)

/-! ## The result -/

/-- Caching kinds leaves the ends of the edges. -/
theorem EndsAreNodes.caches {ok : Instruction → AccessKind → Prop} (h : EndsAreNodes g)
    (hcaches : Caches ok g g') : EndsAreNodes g' := by
  intro pc load edge hedge
  unfold edgesOf at hedge
  rw [hcaches.incoming_edges, hcaches.outgoing_edges] at hedge
  obtain ⟨n, hn⟩ := Option.isSome_iff_exists.1 (h pc load edge hedge)
  obtain ⟨κ, hn'⟩ := hcaches.find_new hn
  rw [hn']
  rfl

/-- Caching kinds leaves the registers. -/
theorem HasRegisters.caches {ok : Instruction → AccessKind → Prop} (h : HasRegisters g)
    (hcaches : Caches ok g g') : HasRegisters g' := by
  intro index n' hn' hmemory inst
  obtain ⟨n, κ, hn, rfl⟩ := hcaches.find_old hn'
  exact h index n hn hmemory inst

/-- A search has a result, if the ends of the edges are nodes and the registers are there. -/
theorem initAccessKind_isSome (hends : EndsAreNodes g) (hregisters : HasRegisters g)
    (hinst : inst.pc ∈ pcsOf g) (h : unvisited g visited < fuel) :
    (initAccessKind d fuel inst g visited load).isSome := by
  induction fuel generalizing inst g visited load with
  | zero => cases h
  | succ fuel ih =>
    by_cases hpc : inst.pc ∈ visited
    · rw [initAccessKind_of_mem hpc]
      rfl
    rw [initAccessKind_of_notMem hpc]
    have hlt := unvisited_insert_lt hinst hpc
    refine foldlM_isSome
      (I := fun s => Caches (fun _ _ => True) g s.graph ∧ insert inst.pc visited ⊆ s.visited)
      (fun s edge s' hs _ hstep => ⟨hs.1.trans (frame_searchEdge hstep).1,
        hs.2.trans (frame_searchEdge hstep).2⟩) (fun s edge hs hedge => ?_) ⟨.refl g, subset_rfl⟩
    have hle : unvisited s.graph s.visited ≤ unvisited g (insert inst.pc visited) := by
      unfold unvisited
      rw [hs.1.pcsOf_eq]
      exact Finset.card_le_card (Finset.sdiff_subset_sdiff subset_rfl hs.2)
    have hedge' : edge ∈ edgesOf s.graph inst.pc load := by
      unfold edgesOf
      rwa [hs.1.incoming_edges, hs.1.outgoing_edges]
    refine searchEdge_isSome (hends.caches hs.1 _ _ edge hedge') (hregisters.caches hs.1)
      fun call hcall => ?_
    exact ih (hends.caches hs.1) (hregisters.caches hs.1)
      (mem_pcsOf.2 ⟨_, call.1, find?_of_callOf hcall, rfl⟩) (by omega)

/-- In a well-formed graph the ends of the edges are nodes. -/
theorem endsAreNodes_of_wellFormed (hg : g.WellFormed) : EndsAreNodes g := by
  intro pc load edge hedge
  cases load with
  | true =>
    obtain ⟨hedge, -⟩ := (hg.outgoing pc edge).1 hedge
    exact hg.target_node edge hedge
  | false =>
    obtain ⟨hedge, -⟩ := (hg.incoming pc edge).1 hedge
    exact hg.source_node edge hedge

/-- A search ends: its calls are nested no deeper than there are pcs left to visit, whatever the
bound, and it runs no body twice, and none of an instruction that is visited. It has a result unless
it reads a register that is not there. -/
theorem initAccessKind_terminates (d : DataType) (visited : Finset ℕ) (load : Bool)
    (hg : g.WellFormed) {index : ℕ} (hinst : g.nodes.find? index = some inst) :
    (∀ fuel, unvisited g visited < fuel → EndsWithin d fuel inst g visited load ∧
      initAccessKind d fuel inst g visited load =
        initAccessKind d (unvisited g visited + 1) inst g visited load) ∧
      (∀ fuel, (bodyRuns d fuel inst g visited load).Nodup ∧
        ∀ pc ∈ bodyRuns d fuel inst g visited load, pc ∉ visited) ∧
      (HasRegisters g →
        (initAccessKind d (unvisited g visited + 1) inst g visited load).isSome) := by
  have hpcs : inst.pc ∈ pcsOf g := mem_pcsOf.2 ⟨index, inst, hinst, rfl⟩
  refine ⟨fun fuel h => ⟨endsWithin_of_lt hpcs h, initAccessKind_fuel hpcs h (by omega)⟩,
    fun fuel => ?_, fun hregisters => ?_⟩
  · obtain ⟨hnodup, hfresh, -⟩ := nodup_bodyRuns d fuel inst g visited load
    exact ⟨hnodup, hfresh⟩
  · exact initAccessKind_isSome (endsAreNodes_of_wellFormed hg) hregisters hpcs (by omega)

end

/-- A load whose result is moved. -/
def movedLoad : Instruction :=
  ⟨"MEMORY.GLOBAL.LOAD".toList, 0, -1, [1], [2, 3], [], [], ∅, ∅, none⟩

/-- The move has edges to itself and back to the load. -/
def moveLoop : InstructionGraph :=
  let g := (Graph.empty.addNode 0 movedLoad).addNode 16
    ⟨"INTEGER.IMAD.MOVE".toList, 16, -1, [2], [1], [], [], ∅, ∅, none⟩
  ((g.addEdge ⟨0, 16⟩ false).addEdge ⟨16, 16⟩ false).addEdge ⟨16, 0⟩ false

/-- The graph of the loop is well formed. -/
theorem wellFormed_moveLoop : moveLoop.WellFormed :=
  ((((Graph.wellFormed_empty.addNode _ _).addNode _ _).addEdge (by decide) (by decide) _).addEdge
    (by decide) (by decide) _).addEdge (by decide) (by decide) _

/-- The search from the load on runs a body for the load and one for the move. -/
theorem initAccessKind_terminates_moveLoop :
    (bodyRuns .INT 3 movedLoad moveLoop ∅ true).Nodup ∧
      bodyRuns .INT 3 movedLoad moveLoop ∅ true = [0, 16] := by
  have hload : moveLoop.nodes.find? 0 = some movedLoad := rfl
  exact ⟨((initAccessKind_terminates .INT ∅ true wellFormed_moveLoop hload).2.1 3).1,
    by decide +kernel⟩

end TenProf.Binutils
