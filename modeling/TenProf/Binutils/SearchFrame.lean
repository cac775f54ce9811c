import TenProf.Binutils.Instruction
import Mathlib.Data.Finset.Card

/-!
# What a search changes

The searches of `init_access_kind` write to the graph in one way only: an instruction that has no
kind yet gets one (`Caches`). `searchEdge_cases` lists what a turn of the loop over the edges can
do. A search marks the instruction it is called for, so its recursion is not deeper than there are
instructions: any two bounds on the depth that are larger give the same result
(`initAccessKind_fuel`), and so does the whole analysis with any of them (`analyzeGraph_fuel`).
-/

namespace TenProf.Binutils

/-- The graph after a step in which some instructions without a kind got one that is `ok`. -/
structure Caches (ok : Instruction → AccessKind → Prop) (g g' : InstructionGraph) : Prop where
  incoming_edges : g'.incoming_edges = g.incoming_edges
  outgoing_edges : g'.outgoing_edges = g.outgoing_edges
  node : ∀ i, g'.nodes.find? i = g.nodes.find? i ∨
    ∃ inst k, g.nodes.find? i = some inst ∧ inst.access_kind = none ∧ ok inst k ∧
      g'.nodes.find? i = some { inst with access_kind := some k }

namespace Caches

variable {ok ok' : Instruction → AccessKind → Prop} {g g' g'' : InstructionGraph}

theorem refl (g : InstructionGraph) : Caches ok g g := ⟨rfl, rfl, fun _ => .inl rfl⟩

theorem mono (h : Caches ok g g') (hok : ∀ inst k, ok inst k → ok' inst k) : Caches ok' g g' where
  incoming_edges := h.incoming_edges
  outgoing_edges := h.outgoing_edges
  node i := (h.node i).imp_right fun ⟨inst, k, hinst, hnone, hk, hnew⟩ =>
    ⟨inst, k, hinst, hnone, hok inst k hk, hnew⟩

/-- A kind that is there stays. -/
theorem keep (h : Caches ok g g') {i : ℕ} {inst : Instruction} (hinst : g.nodes.find? i = some inst)
    (hsome : inst.access_kind ≠ none) : g'.nodes.find? i = some inst := by
  rcases h.node i with heq | ⟨inst', -, hinst', hnone, -⟩
  · rw [heq, hinst]
  · rw [hinst] at hinst'
    cases hinst'
    exact absurd hnone hsome

theorem trans (h : Caches ok g g') (h' : Caches ok g' g'') : Caches ok g g'' where
  incoming_edges := h'.incoming_edges.trans h.incoming_edges
  outgoing_edges := h'.outgoing_edges.trans h.outgoing_edges
  node i := by
    rcases h.node i with heq | ⟨inst, k, hinst, hnone, hk, hnew⟩
    · rw [← heq]
      exact h'.node i
    · exact .inr ⟨inst, k, hinst, hnone, hk, h'.keep hnew (by simp)⟩

/-- The instructions of the graph afterwards are those before, apart from their kinds. -/
theorem find_old (h : Caches ok g g') {i : ℕ} {inst' : Instruction}
    (hinst' : g'.nodes.find? i = some inst') :
    ∃ inst κ, g.nodes.find? i = some inst ∧ inst' = { inst with access_kind := κ } := by
  rcases h.node i with heq | ⟨inst, k, hinst, -, -, hnew⟩
  · exact ⟨inst', inst'.access_kind, heq.symm.trans hinst', rfl⟩
  · rw [hnew] at hinst'
    cases hinst'
    exact ⟨inst, some k, hinst, rfl⟩

/-- The instructions of the graph before are those afterwards, apart from their kinds. -/
theorem find_new (h : Caches ok g g') {i : ℕ} {inst : Instruction}
    (hinst : g.nodes.find? i = some inst) :
    ∃ κ, g'.nodes.find? i = some { inst with access_kind := κ } := by
  rcases h.node i with heq | ⟨inst', k, hinst', -, -, hnew⟩
  · exact ⟨inst.access_kind, heq.trans hinst⟩
  · rw [hinst] at hinst'
    cases hinst'
    exact ⟨some k, hnew⟩

/-- The edges stay. -/
theorem edgesOf_eq (h : Caches ok g g') (pc : ℕ) (load : Bool) :
    edgesOf g' pc load = edgesOf g pc load := by
  unfold edgesOf
  rw [h.incoming_edges, h.outgoing_edges]

end Caches

@[simp] theorem incoming_edges_setAccessKind (g : InstructionGraph) (i : ℕ) (k : AccessKind) :
    (setAccessKind g i k).incoming_edges = g.incoming_edges := by
  unfold setAccessKind
  cases g.nodes.find? i <;> rfl

@[simp] theorem outgoing_edges_setAccessKind (g : InstructionGraph) (i : ℕ) (k : AccessKind) :
    (setAccessKind g i k).outgoing_edges = g.outgoing_edges := by
  unfold setAccessKind
  cases g.nodes.find? i <;> rfl

/-- The instruction whose kind is set. -/
theorem find?_setAccessKind_self {g : InstructionGraph} {i : ℕ} {inst : Instruction}
    (hinst : g.nodes.find? i = some inst) (k : AccessKind) :
    (setAccessKind g i k).nodes.find? i = some { inst with access_kind := some k } := by
  unfold setAccessKind
  rw [hinst]
  exact OrderedMap.find?_set_self _ _ _

/-- The other instructions. -/
theorem find?_setAccessKind_of_ne {g : InstructionGraph} {i j : ℕ} (h : j ≠ i) (k : AccessKind) :
    (setAccessKind g i k).nodes.find? j = g.nodes.find? j := by
  unfold setAccessKind
  cases g.nodes.find? i with
  | none => rfl
  | some inst => exact OrderedMap.find?_set_of_ne _ h _

/-- An instruction without a kind gets one. -/
theorem caches_setAccessKind {ok : Instruction → AccessKind → Prop} {g : InstructionGraph} {i : ℕ}
    {inst : Instruction} {k : AccessKind} (hinst : g.nodes.find? i = some inst)
    (hnone : inst.access_kind = none) (hk : ok inst k) : Caches ok g (setAccessKind g i k) where
  incoming_edges := incoming_edges_setAccessKind g i k
  outgoing_edges := outgoing_edges_setAccessKind g i k
  node j := by
    by_cases hj : j = i
    · subst hj
      exact .inr ⟨inst, k, hinst, hnone, hk, find?_setAccessKind_self hinst k⟩
    · exact .inl (find?_setAccessKind_of_ne hj k)

section

variable {d : DataType} {search : Instruction → InstructionGraph → Finset ℕ → Bool → Option Search}
  {inst : Instruction} {load : Bool} {s s' : Search} {edge : InstructionDependencyIndex}

/-- What a turn of the loop over the edges does, by the branch that it takes. -/
inductive EdgeTurn (d : DataType)
    (search : Instruction → InstructionGraph → Finset ℕ → Bool → Option Search)
    (inst : Instruction) (load : Bool) (s : Search) (edge : InstructionDependencyIndex) :
    Search → Prop
  | complete (hcomplete : s.access_kind.isComplete) : EdgeTurn d search inst load s edge s
  | move {n : Instruction} {r : Search} (hopen : ¬s.access_kind.isComplete)
      (hn : s.graph.nodes.find? (neighborPc load edge) = some n)
      (hmove : contains n.op "MOVE".toList) (hr : search n s.graph s.visited load = some r) :
      EdgeTurn d search inst load s edge
        { r with
          access_kind := (s.access_kind.detect load n.op).takeOver r.access_kind.unit_size
            r.access_kind.data_type }
  | address {n : Instruction} {use : Option ℕ} (hopen : ¬s.access_kind.isComplete)
      (hn : s.graph.nodes.find? (neighborPc load edge) = some n)
      (hmove : ¬contains n.op "MOVE".toList) (hmemory : contains n.op "MEMORY".toList)
      (hload : load = true) (huse : addressUse inst n = some use) :
      EdgeTurn d search inst load s edge
        { s with access_kind := (s.access_kind.detect load n.op).takeAddress use }
  | cached {n : Instruction} {k : AccessKind} (hopen : ¬s.access_kind.isComplete)
      (hn : s.graph.nodes.find? (neighborPc load edge) = some n)
      (hmove : ¬contains n.op "MOVE".toList) (hmemory : contains n.op "MEMORY".toList)
      (hload : load = false) (hk : n.access_kind = some k) :
      EdgeTurn d search inst load s edge
        { s with access_kind := (s.access_kind.detect load n.op).takeOver k.unit_size k.data_type }
  | reverse {n : Instruction} {r : Search} (hopen : ¬s.access_kind.isComplete)
      (hn : s.graph.nodes.find? (neighborPc load edge) = some n)
      (hmove : ¬contains n.op "MOVE".toList) (hmemory : contains n.op "MEMORY".toList)
      (hload : load = false) (hnone : n.access_kind = none)
      (hr : search n s.graph s.visited true = some r) :
      EdgeTurn d search inst load s edge
        { access_kind := (s.access_kind.detect load n.op).takeOver
            (defaultAccessKind d n.op r.access_kind).unit_size
            (defaultAccessKind d n.op r.access_kind).data_type
          graph := setAccessKind r.graph (neighborPc load edge)
            (defaultAccessKind d n.op r.access_kind)
          visited := r.visited }
  | direct {n : Instruction} (hopen : ¬s.access_kind.isComplete)
      (hn : s.graph.nodes.find? (neighborPc load edge) = some n)
      (hmove : ¬contains n.op "MOVE".toList) (hmemory : ¬contains n.op "MEMORY".toList) :
      EdgeTurn d search inst load s edge
        { s with
          access_kind := { s.access_kind.detect load n.op with
            data_type := directDataType load n.op (s.access_kind.detect load n.op).data_type } }

/-- A turn that has a result takes one of the branches. -/
theorem searchEdge_cases (h : searchEdge d search inst load s edge = some s') :
    EdgeTurn d search inst load s edge s' := by
  unfold searchEdge at h
  by_cases hcomplete : s.access_kind.isComplete
  · rw [if_pos hcomplete] at h
    cases h
    exact .complete hcomplete
  rw [if_neg hcomplete] at h
  obtain ⟨n, hn, hturn⟩ := Option.bind_eq_some_iff.1 h
  by_cases hmove : contains n.op "MOVE".toList
  · simp only [hmove, if_true] at hturn
    obtain ⟨r, hr, rfl⟩ := Option.map_eq_some_iff.1 hturn
    exact .move hcomplete hn hmove hr
  by_cases hmemory : contains n.op "MEMORY".toList
  · cases load with
    | true =>
      simp only [hmove, hmemory, if_true] at hturn
      obtain ⟨use, huse, rfl⟩ := Option.map_eq_some_iff.1 hturn
      exact .address hcomplete hn hmove hmemory rfl huse
    | false =>
      simp only [hmove, hmemory, if_true] at hturn
      cases hk : n.access_kind with
      | some k =>
        simp only [hk] at hturn
        cases hturn
        exact .cached hcomplete hn hmove hmemory rfl hk
      | none =>
        simp only [hk] at hturn
        obtain ⟨r, hr, rfl⟩ := Option.map_eq_some_iff.1 hturn
        exact .reverse hcomplete hn hmove hmemory rfl hk hr
  · simp only [hmove, hmemory] at hturn
    cases hturn
    exact .direct hcomplete hn hmove hmemory

/-- A turn that takes one of the branches has its result. -/
theorem EdgeTurn.searchEdge_eq (h : EdgeTurn d search inst load s edge s') :
    searchEdge d search inst load s edge = some s' := by
  unfold searchEdge
  cases h with
  | complete hcomplete => rw [if_pos hcomplete]
  | move hopen hn hmove hr =>
    rw [if_neg hopen]
    simp only [hn, Option.bind_some, hmove, if_true, hr, Option.map_some]
  | address hopen hn hmove hmemory hload huse =>
    subst hload
    rw [if_neg hopen]
    simp only [hn, Option.bind_some, if_neg hmove, hmemory, if_true, huse, Option.map_some]
  | cached hopen hn hmove hmemory hload hk =>
    subst hload
    rw [if_neg hopen]
    simp only [hn, Option.bind_some, if_neg hmove, hmemory, if_true, Bool.false_eq_true, if_false,
      hk]
  | reverse hopen hn hmove hmemory hload hnone hr =>
    subst hload
    rw [if_neg hopen]
    simp only [hn, Option.bind_some, if_neg hmove, hmemory, if_true, Bool.false_eq_true, if_false,
      hnone, Bool.not_false, hr, Option.map_some]
  | direct hopen hn hmove hmemory =>
    rw [if_neg hopen]
    simp only [hn, Option.bind_some, if_neg hmove, if_neg hmemory]

/-- Once the kind is complete nothing changes. -/
theorem EdgeTurn.eq_of_complete (h : EdgeTurn d search inst load s edge s')
    (hcomplete : s.access_kind.isComplete) : s' = s := by
  cases h with
  | complete => rfl
  | move h | address h | cached h | reverse h | direct h => exact absurd hcomplete h

/-- The vector size stays. -/
theorem EdgeTurn.vec_size_eq (h : EdgeTurn d search inst load s edge s') :
    s'.access_kind.vec_size = s.access_kind.vec_size := by
  cases h with
  | @address n use => cases use <;> rfl
  | _ => rfl

/-- A turn caches what the search behind a MOVE caches, or the kind of the other end of a store. The
search for that kind goes on from a load, and so it caches nothing. -/
theorem EdgeTurn.caches {ok : Instruction → AccessKind → Prop}
    (h : EdgeTurn d search inst load s edge s')
    (hload : ∀ n r, search n s.graph s.visited true = some r → r.graph = s.graph)
    (hmove : ∀ n r, ¬s.access_kind.isComplete →
      s.graph.nodes.find? (neighborPc load edge) = some n → contains n.op "MOVE".toList →
      search n s.graph s.visited load = some r → Caches ok s.graph r.graph)
    (hreverse : ∀ n r, ¬s.access_kind.isComplete →
      s.graph.nodes.find? (neighborPc load edge) = some n → ¬contains n.op "MOVE".toList →
      contains n.op "MEMORY".toList → load = false → n.access_kind = none →
      search n s.graph s.visited true = some r →
      ok n (defaultAccessKind d n.op r.access_kind)) :
    Caches ok s.graph s'.graph := by
  cases h with
  | complete | address | cached | direct => exact .refl _
  | @move n r hopen hn hop hr => exact hmove n r hopen hn hop hr
  | reverse hopen hn hop hmemory hfalse hnone hr =>
    show Caches ok s.graph (setAccessKind _ _ _)
    rw [hload _ _ hr]
    exact caches_setAccessKind hn hnone (hreverse _ _ hopen hn hop hmemory hfalse hnone hr)

/-- A turn leaves the graph as it is, apart from kinds, and what was visited, if the recursive calls
do. -/
theorem EdgeTurn.frame (h : EdgeTurn d search inst load s edge s')
    (hload : ∀ n r, search n s.graph s.visited true = some r → r.graph = s.graph)
    (hsearch : ∀ n load r, search n s.graph s.visited load = some r →
      Caches (fun _ _ => True) s.graph r.graph ∧ s.visited ⊆ r.visited) :
    Caches (fun _ _ => True) s.graph s'.graph ∧ s.visited ⊆ s'.visited := by
  refine ⟨h.caches hload (fun n r _ _ _ hr => (hsearch n load r hr).1)
    fun _ _ _ _ _ _ _ _ _ => trivial, ?_⟩
  cases h with
  | complete | address | cached | direct => exact subset_rfl
  | @move n r _ _ _ hr => exact (hsearch n load r hr).2
  | @reverse n r _ _ _ _ _ _ hr => exact (hsearch n true r hr).2

/-- Turns with recursive calls that agree for the neighbour agree. -/
theorem searchEdge_congr
    {search' : Instruction → InstructionGraph → Finset ℕ → Bool → Option Search}
    (h : ∀ n load', s.graph.nodes.find? (neighborPc load edge) = some n →
      search n s.graph s.visited load' = search' n s.graph s.visited load') :
    searchEdge d search inst load s edge = searchEdge d search' inst load s edge := by
  unfold searchEdge
  split_ifs
  · rfl
  all_goals
    refine Option.bind_congr fun n hn => ?_
    simp only [h n _ hn]

end

section

variable {d : DataType} {fuel fuel' : ℕ} {inst : Instruction} {g g' : InstructionGraph}
  {visited : Finset ℕ} {load : Bool} {r : Search}

/-- A search that visits its instruction for the first time is a loop over its edges. -/
theorem initAccessKind_of_notMem (hpc : inst.pc ∉ visited) :
    initAccessKind d (fuel + 1) inst g visited load =
      (edgesOf g inst.pc load).foldlM (searchEdge d (initAccessKind d fuel) inst load)
        ⟨startKind inst.op, g, insert inst.pc visited⟩ := by
  rw [initAccessKind, if_neg hpc]

theorem initAccessKind_of_mem (hpc : inst.pc ∈ visited) :
    initAccessKind d (fuel + 1) inst g visited load = some ⟨{}, g, visited⟩ := by
  rw [initAccessKind, if_pos hpc]

/-- A search from a load on caches nothing. -/
theorem graph_initAccessKind_load (h : initAccessKind d fuel inst g visited true = some r) :
    r.graph = g := by
  induction fuel generalizing inst g visited r with
  | zero => cases h
  | succ fuel ih =>
    by_cases hpc : inst.pc ∈ visited
    · rw [initAccessKind_of_mem hpc] at h
      cases h
      rfl
    rw [initAccessKind_of_notMem hpc] at h
    refine foldlM_invariant (I := fun s => s.graph = g) (fun s edge s' hs _ hstep => ?_) rfl h
    cases searchEdge_cases hstep with
    | complete | address | direct => exact hs
    | move _ _ _ hr => exact (ih hr).trans hs
    | cached _ _ _ _ hload | reverse _ _ _ _ hload => cases hload

/-- A search leaves the graph as it is, apart from the kinds of instructions without one, and what
was visited stays visited. -/
theorem frame_initAccessKind (h : initAccessKind d fuel inst g visited load = some r) :
    Caches (fun _ _ => True) g r.graph ∧ visited ⊆ r.visited := by
  induction fuel generalizing inst g visited load r with
  | zero => cases h
  | succ fuel ih =>
    by_cases hpc : inst.pc ∈ visited
    · rw [initAccessKind_of_mem hpc] at h
      cases h
      exact ⟨.refl g, subset_rfl⟩
    rw [initAccessKind_of_notMem hpc] at h
    refine foldlM_invariant
      (I := fun s => Caches (fun _ _ => True) g s.graph ∧ visited ⊆ s.visited)
      (fun s edge s' hs _ hstep => ?_) ⟨.refl g, Finset.subset_insert _ _⟩ h
    have hturn := (searchEdge_cases hstep).frame (fun _ _ => graph_initAccessKind_load)
      fun _ _ _ hr => ih hr
    exact ⟨hs.1.trans hturn.1, hs.2.trans hturn.2⟩

/-- A turn of a search leaves the graph as it is, apart from kinds, and what was visited. -/
theorem frame_searchEdge {s s' : Search} {edge : InstructionDependencyIndex}
    (h : searchEdge d (initAccessKind d fuel) inst load s edge = some s') :
    Caches (fun _ _ => True) s.graph s'.graph ∧ s.visited ⊆ s'.visited :=
  (searchEdge_cases h).frame (fun _ _ => graph_initAccessKind_load)
    fun _ _ _ hr => frame_initAccessKind hr

/-! ## The depth of the recursion -/

/-- The pcs of the instructions of a graph. -/
def pcsOf (g : InstructionGraph) : Finset ℕ := (g.nodes.toList.map fun e => e.2.pc).toFinset

theorem mem_pcsOf {pc : ℕ} :
    pc ∈ pcsOf g ↔ ∃ i inst, g.nodes.find? i = some inst ∧ inst.pc = pc := by
  simp only [pcsOf, List.mem_toFinset, List.mem_map, Prod.exists,
    ← OrderedMap.find?_eq_some_iff]

/-- There are no more pcs than instructions. -/
theorem card_pcsOf_le (g : InstructionGraph) : (pcsOf g).card ≤ g.nodes.size :=
  (List.toFinset_card_le _).trans (List.length_map _).le

/-- Caching kinds does not change the pcs. -/
theorem Caches.pcsOf_eq {ok : Instruction → AccessKind → Prop} (h : Caches ok g g') :
    pcsOf g' = pcsOf g := by
  ext pc
  simp only [mem_pcsOf]
  constructor
  · rintro ⟨i, inst', hinst', rfl⟩
    obtain ⟨inst, κ, hinst, rfl⟩ := h.find_old hinst'
    exact ⟨i, inst, hinst, rfl⟩
  · rintro ⟨i, inst, hinst, rfl⟩
    obtain ⟨κ, hinst'⟩ := h.find_new hinst
    exact ⟨i, _, hinst', rfl⟩

/-- The number of pcs that a search may still visit. -/
def unvisited (g : InstructionGraph) (visited : Finset ℕ) : ℕ := (pcsOf g \ visited).card

/-- A search that starts has one pc less to visit. -/
theorem unvisited_insert_lt {pc : ℕ} (hmem : pc ∈ pcsOf g) (hpc : pc ∉ visited) :
    unvisited g (insert pc visited) < unvisited g visited := by
  unfold unvisited
  rw [Finset.sdiff_insert]
  exact Finset.card_erase_lt_of_mem (Finset.mem_sdiff.2 ⟨hmem, hpc⟩)

/-- Any two bounds on the depth that are larger than the number of pcs left to visit give the same
result. -/
theorem initAccessKind_fuel (hinst : inst.pc ∈ pcsOf g) (h : unvisited g visited < fuel)
    (h' : unvisited g visited < fuel') :
    initAccessKind d fuel inst g visited load = initAccessKind d fuel' inst g visited load := by
  induction fuel generalizing fuel' inst g visited load with
  | zero => cases h
  | succ fuel ih =>
    obtain ⟨fuel', rfl⟩ := Nat.exists_eq_succ_of_ne_zero (Nat.ne_zero_of_lt h')
    by_cases hpc : inst.pc ∈ visited
    · rw [initAccessKind_of_mem hpc, initAccessKind_of_mem hpc]
    rw [initAccessKind_of_notMem hpc, initAccessKind_of_notMem hpc]
    -- The loop keeps the pcs and what is visited, which has one pc more.
    have hlt := unvisited_insert_lt hinst hpc
    refine foldlM_congr_invariant
      (I := fun s => Caches (fun _ _ => True) g s.graph ∧ insert inst.pc visited ⊆ s.visited)
      (fun s edge s' hs _ hstep => ?_) (fun s edge hs _ => ?_) ⟨.refl g, subset_rfl⟩
    · have hturn := (searchEdge_cases hstep).frame (fun _ _ => graph_initAccessKind_load)
        fun _ _ _ hr => frame_initAccessKind hr
      exact ⟨hs.1.trans hturn.1, hs.2.trans hturn.2⟩
    · have hle : unvisited s.graph s.visited ≤ unvisited g (insert inst.pc visited) := by
        unfold unvisited
        rw [hs.1.pcsOf_eq]
        exact Finset.card_le_card (Finset.sdiff_subset_sdiff subset_rfl hs.2)
      refine searchEdge_congr fun n load' hn => ?_
      exact ih (mem_pcsOf.2 ⟨_, n, hn, rfl⟩) (by omega) (by omega)

end

/-! ## The analysis -/

section

variable {d : DataType} {fuel fuel' index : ℕ} {inst : Instruction} {g g' : InstructionGraph}
  {r : Search}

/-- A turn of the analysis either leaves the graph, because the instruction needs no kind, or
searches for the kind. -/
theorem analyzeNode_cases (h : analyzeNode d fuel g index = some g') :
    ∃ inst, g.nodes.find? index = some inst ∧
      ((contains inst.op "MEMORY".toList → inst.access_kind ≠ none) ∧ g' = g ∨
        contains inst.op "MEMORY".toList ∧ inst.access_kind = none ∧
          ∃ r, searchKind d fuel inst (setAccessKind g index {}) = some r ∧
            g' = setAccessKind r.graph index (defaultAccessKind d inst.op r.access_kind)) := by
  obtain ⟨inst, hinst, h⟩ := Option.bind_eq_some_iff.1 h
  refine ⟨inst, hinst, ?_⟩
  split_ifs at h with hmemory hsome
  · cases h
    exact .inl ⟨fun hop => absurd hmemory (by rw [hop]; decide), rfl⟩
  · cases h
    exact .inl ⟨fun _ hnone => by simp [hnone] at hsome, rfl⟩
  · obtain ⟨r, hr, rfl⟩ := Option.map_eq_some_iff.1 h
    exact .inr ⟨by simpa using hmemory, by simpa using hsome, r, hr, rfl⟩

/-- The kind that is found replaces the one that was allocated for the search. -/
theorem Caches.setAccessKind {ok : Instruction → AccessKind → Prop} {k k' : AccessKind}
    (h : Caches ok (setAccessKind g index k) g') (hinst : g.nodes.find? index = some inst)
    (hnone : inst.access_kind = none) (hk' : ok inst k') :
    Caches ok g (setAccessKind g' index k') where
  incoming_edges := by simpa using h.incoming_edges
  outgoing_edges := by simpa using h.outgoing_edges
  node i := by
    by_cases hi : i = index
    · subst hi
      have hold := h.keep (find?_setAccessKind_self hinst k) (by simp)
      exact .inr ⟨inst, k', hinst, hnone, hk', find?_setAccessKind_self hold k'⟩
    · rw [find?_setAccessKind_of_ne hi]
      simpa only [find?_setAccessKind_of_ne hi] using h.node i

/-- The search for a kind caches what `init_access_kind` does. -/
theorem caches_searchKind {ok : Instruction → AccessKind → Prop}
    (h : searchKind d fuel inst g = some r)
    (hsearch : ∀ load, searchDirection inst.op = some load →
      initAccessKind d fuel inst g ∅ load = some r → Caches ok g r.graph) :
    Caches ok g r.graph := by
  unfold searchKind at h
  cases hload : searchDirection inst.op with
  | none =>
    rw [hload] at h
    cases h
    exact .refl g
  | some load =>
    rw [hload] at h
    exact hsearch load hload h

/-- A turn of the analysis leaves the graph as it is, apart from kinds. -/
theorem frame_analyzeNode (h : analyzeNode d fuel g index = some g') :
    Caches (fun _ _ => True) g g' := by
  obtain ⟨inst, hinst, ⟨-, rfl⟩ | ⟨-, hnone, r, hr, rfl⟩⟩ := analyzeNode_cases h
  · exact .refl _
  · exact (caches_searchKind hr fun load _ hload => (frame_initAccessKind hload).1).setAccessKind
      hinst hnone trivial

/-- The kind of an instruction whose kind was set. -/
theorem access_kind_setAccessKind {inst : Instruction} {k : AccessKind}
    (h : (setAccessKind g index k).nodes.find? index = some inst) :
    inst.access_kind = some k := by
  cases hold : g.nodes.find? index with
  | none =>
    simp only [setAccessKind, hold] at h
    cases h
  | some old =>
    rw [find?_setAccessKind_self hold] at h
    cases h
    rfl

/-- A memory instruction has a kind after its turn. -/
theorem access_kind_analyzeNode (h : analyzeNode d fuel g index = some g') {inst : Instruction}
    (hinst : g'.nodes.find? index = some inst) (hmemory : contains inst.op "MEMORY".toList) :
    inst.access_kind ≠ none := by
  obtain ⟨inst', hinst', ⟨hskip, rfl⟩ | ⟨-, hnone, r, hr, rfl⟩⟩ := analyzeNode_cases h
  · obtain rfl := Option.some_injective _ (hinst.symm.trans hinst')
    exact hskip hmemory
  · rw [access_kind_setAccessKind hinst]
    exact Option.some_ne_none _

/-- After the analysis of some instructions, those that are memory instructions have a kind. -/
theorem access_kind_analyzeNodes {indices : List ℕ}
    (h : indices.foldlM (analyzeNode d fuel) g = some g') {inst : Instruction}
    (hindex : index ∈ indices) (hinst : g'.nodes.find? index = some inst)
    (hmemory : contains inst.op "MEMORY".toList) : inst.access_kind ≠ none := by
  refine foldlM_invariant_handled (I := fun before s => ∀ index ∈ before,
    ∀ inst ∈ s.nodes.find? index, contains inst.op "MEMORY".toList → inst.access_kind ≠ none)
    (fun before index s s' hdone _ hstep => ?_) (fun index hindex => absurd hindex List.not_mem_nil)
    h index hindex inst hinst hmemory
  intro index' hindex' inst' hinst' hmemory
  rcases List.mem_append.1 hindex' with hold | hnew
  · -- A kind that is there stays.
    obtain ⟨inst, κ, hinst, rfl⟩ := (frame_analyzeNode hstep).find_old hinst'
    have hsome := hdone index' hold inst hinst hmemory
    have hkeep := hinst'.symm.trans ((frame_analyzeNode hstep).keep hinst hsome)
    exact (congrArg Instruction.access_kind (Option.some_injective _ hkeep)).trans_ne hsome
  · obtain rfl := List.mem_singleton.1 hnew
    exact access_kind_analyzeNode hstep hinst' hmemory

/-- Any two bounds on the depth that are larger than the number of pcs analyze an instruction
alike. -/
theorem analyzeNode_fuel (h : (pcsOf g).card < fuel) (h' : (pcsOf g).card < fuel') :
    analyzeNode d fuel g index = analyzeNode d fuel' g index := by
  unfold analyzeNode
  refine Option.bind_congr fun inst hinst => ?_
  split_ifs with hmemory hsome
  · rfl
  · rfl
  have hallocated : Caches (fun _ _ => True) g (setAccessKind g index {}) :=
    caches_setAccessKind hinst (by simpa using hsome) trivial
  have hpcs : unvisited (setAccessKind g index {}) ∅ = (pcsOf g).card := by
    rw [unvisited, Finset.sdiff_empty, hallocated.pcsOf_eq]
  have hmem : inst.pc ∈ pcsOf (setAccessKind g index {}) := by
    rw [hallocated.pcsOf_eq]
    exact mem_pcsOf.2 ⟨index, inst, hinst, rfl⟩
  congr 1
  unfold searchKind
  cases searchDirection inst.op with
  | none => rfl
  | some load => exact initAccessKind_fuel hmem (hpcs ▸ h) (hpcs ▸ h')

/-- The bound on the depth that the analysis uses never decides: it can be any larger number. -/
theorem analyzeGraph_fuel (h : g.nodes.size < fuel) :
    (g.nodes.toList.map Prod.fst).foldlM (analyzeNode d fuel) g = analyzeGraph d g := by
  have hcard := card_pcsOf_le g
  refine foldlM_congr_invariant (I := Caches (fun _ _ => True) g)
    (fun s index s' hs _ hstep => hs.trans (frame_analyzeNode hstep)) (fun s index hs _ => ?_)
    (.refl g)
  rw [← hs.pcsOf_eq] at hcard
  exact analyzeNode_fuel (by omega) (by omega)

end

end TenProf.Binutils
