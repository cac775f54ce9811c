import TenProf.Binutils.Walk

/-!
# Searches that are alone

A search forward asks for no kinds, and what others visited matters to it only where it would pass
it itself. What a walk passes says when that is: if it passes nothing that others visited, the
search gives what it gives alone (`initAccessKind_alone`). The lemmas before that say what any walk
leaves: what was visited stays so (`Growing`), and the sizes that are seen come from a list
(`sized_walk`).
-/

namespace TenProf.Binutils

/-! ## What a walk keeps -/

section

variable {σ : Type*} {source : ℕ → ℕ → Instruction → Finset ℕ → σ → Walk σ} {grows : σ → σ → Prop}
  {g : InstructionGraph} {load : Bool} {fuel : ℕ}

/-- What is seen of sources leaves what was visited, and what is kept of them grows. -/
structure Growing (grows : σ → σ → Prop)
    (source : ℕ → ℕ → Instruction → Finset ℕ → σ → Walk σ) : Prop where
  refl : ∀ m, grows m m
  trans : ∀ {m m' m''}, grows m m' → grows m' m'' → grows m m''
  source : ∀ fuel pc n visited m, visited ⊆ (source fuel pc n visited m).visited ∧
    grows m (source fuel pc n visited m).memory

/-- A turn of a walk leaves what was visited, if it does so behind a MOVE. -/
theorem Growing.turn (h : Growing grows source)
    (hwalk : ∀ n visited m, visited ⊆ (walk g load source fuel n visited m).visited ∧
      grows m (walk g load source fuel n visited m).memory) (inst : Instruction) (w : Walk σ)
    (edge : InstructionDependencyIndex) :
    w.visited ⊆
        (walkEdge g load (source fuel) (walk g load source fuel) inst w edge).visited ∧
      grows w.memory
        (walkEdge g load (source fuel) (walk g load source fuel) inst w edge).memory := by
  unfold walkEdge
  by_cases henough : enough w.sights
  · rw [if_pos henough]
    exact ⟨subset_rfl, h.refl _⟩
  rw [if_neg henough]
  cases hn : g.nodes.find? (neighborPc load edge) with
  | none =>
    simp only [hn]
    exact ⟨subset_rfl, h.refl _⟩
  | some n =>
    simp only [hn]
    split_ifs
    · exact hwalk _ _ _
    · exact ⟨subset_rfl, h.refl _⟩
    · exact h.source _ _ _ _ _
    · exact ⟨subset_rfl, h.refl _⟩

/-- A walk leaves what was visited. -/
theorem Growing.walk (h : Growing grows source) (inst : Instruction) (visited : Finset ℕ)
    (memory : σ) :
    visited ⊆ (walk g load source fuel inst visited memory).visited ∧
      grows memory (walk g load source fuel inst visited memory).memory := by
  induction fuel generalizing inst visited memory with
  | zero => exact ⟨subset_rfl, h.refl _⟩
  | succ fuel ih =>
    by_cases hpc : inst.pc ∈ visited
    · rw [walk_of_mem hpc]
      exact ⟨subset_rfl, h.refl _⟩
    rw [walk_of_notMem hpc]
    refine List.foldlRecOn (motive := fun w : Walk σ => visited ⊆ w.visited ∧ grows memory w.memory)
      _ _ ⟨Finset.subset_insert _ _, h.refl _⟩ fun w hw edge _ => ?_
    have hturn := h.turn ih inst w edge
    exact ⟨hw.1.trans hturn.1, h.trans hw.2 hturn.2⟩

/-- A turn of a walk leaves what was visited. -/
theorem Growing.walkEdge (h : Growing grows source) (inst : Instruction) (w : Walk σ)
    (edge : InstructionDependencyIndex) :
    w.visited ⊆
        (walkEdge g load (source fuel) (Binutils.walk g load source fuel) inst w edge).visited ∧
      grows w.memory
        (walkEdge g load (source fuel) (Binutils.walk g load source fuel) inst w edge).memory :=
  h.turn h.walk inst w edge

/-- A walk leaves its instruction visited. -/
theorem Growing.pc_mem (h : Growing grows source) (inst : Instruction) (visited : Finset ℕ)
    (memory : σ) :
    inst.pc ∈ (Binutils.walk g load source (fuel + 1) inst visited memory).visited := by
  by_cases hpc : inst.pc ∈ visited
  · exact (h.walk inst visited memory).1 hpc
  rw [walk_of_notMem hpc]
  exact List.foldlRecOn (motive := fun w : Walk σ => inst.pc ∈ w.visited) _ _
    (Finset.mem_insert_self _ _) fun w hw edge _ => (h.walkEdge inst w edge).1 hw

end

/-- Walks forward ask nothing of sources. -/
theorem growing_noSource : Growing (fun _ _ => True) noSource :=
  ⟨fun _ => trivial, fun _ _ => trivial, fun _ _ _ _ _ => ⟨subset_rfl, trivial⟩⟩

/-! ## Sizes -/

/-- What a walk sees has sizes from the list, if this is true of what is seen of sources. -/
theorem sized_walk {σ : Type*} {source : ℕ → ℕ → Instruction → Finset ℕ → σ → Walk σ}
    {g : InstructionGraph} {load : Bool} {fuel : ℕ}
    (hsource : ∀ fuel pc n visited m, Sized (source fuel pc n visited m).sights)
    (inst : Instruction) (visited : Finset ℕ) (memory : σ) :
    Sized (walk g load source fuel inst visited memory).sights := by
  induction fuel generalizing inst visited memory with
  | zero => exact sized_nil
  | succ fuel ih =>
    by_cases hpc : inst.pc ∈ visited
    · rw [walk_of_mem hpc]
      exact sized_nil
    rw [walk_of_notMem hpc]
    refine List.foldlRecOn (motive := fun w : Walk σ => Sized w.sights) _ _
      (List.forall_mem_singleton.2 List.mem_cons_self) fun w hw edge _ => ?_
    unfold walkEdge
    by_cases henough : enough w.sights
    · rwa [if_pos henough]
    rw [if_neg henough]
    cases hn : g.nodes.find? (neighborPc load edge) with
    | none => simpa only [hn] using hw
    | some n =>
      simp only [hn]
      have hsee : ∀ {more}, Sized more → Sized (w.sights ++
          ⟨directUnitSize load (vecSizeOf inst.op) n.op, .UNKNOWN⟩ :: more) := fun hmore =>
        List.forall_mem_append.2 ⟨hw, List.forall_mem_cons.2 ⟨directUnitSize_mem _ _ _, hmore⟩⟩
      split_ifs
      · exact hsee ((ih _ _ _).takenOver _)
      · exact hsee ((sized_addressSights _ _).takenOver _)
      · exact hsee ((hsource _ _ _ _ _).takenOver _)
      · exact hsee (List.forall_mem_singleton.2 List.mem_cons_self)

/-! ## Searches forward -/

section

variable {d : DataType} {fuel fuel' index : ℕ} {inst n : Instruction} {g g' : InstructionGraph}
  {visited other : Finset ℕ} {κ : Option AccessKind} {r : Search}

/-- A turn of a search forward for which more was visited does what the turn of the search alone
does, if the walk passes nothing of what the others visited. -/
theorem alone_turn (hg : Caches (fun _ _ => True) g g')
    (hsearch : ∀ {n κ visited r},
      initAccessKind d fuel { n with access_kind := κ } g' (visited ∪ other) true = some r →
      Disjoint (forwardWalk g fuel n visited).visited other →
      ∃ r', initAccessKind d fuel n g visited true = some r' ∧
        r = ⟨r'.access_kind, g', r'.visited ∪ other⟩)
    {s t' : Search} {w : Walk Unit} {edge : InstructionDependencyIndex}
    (hs : Tracks (fun g' _ => Caches (fun _ _ => True) g g') inst s w) (hgraph : s.graph = g)
    (hother : Disjoint
      (walkEdge g true (noSource fuel) (walk g true noSource fuel) inst w edge).visited other)
    (hturn : EdgeTurn d (initAccessKind d fuel) { inst with access_kind := κ } true
      ⟨s.access_kind, g', s.visited ∪ other⟩ edge t') :
    ∃ s', EdgeTurn d (initAccessKind d fuel) inst true s edge s' ∧ s'.graph = g ∧
      t' = ⟨s'.access_kind, g', s'.visited ∪ other⟩ := by
  cases hturn with
  | complete hcomplete => exact ⟨s, .complete hcomplete, hgraph, rfl⟩
  | @move n' r hopen hn' hmove hr =>
    obtain ⟨n, κ, hn, rfl⟩ := hg.find_old hn'
    unfold walkEdge at hother
    rw [if_neg (hs.sees.isComplete_eq ▸ hopen)] at hother
    simp only [hn, if_pos hmove] at hother
    obtain ⟨r', hr', rfl⟩ := hsearch hr (hs.visited ▸ hother)
    rw [← hgraph] at hn hr'
    exact ⟨_, .move hopen hn hmove hr', (graph_initAccessKind_load hr').trans hgraph, rfl⟩
  | @address n' use hopen hn' hmove hmemory hload huse =>
    obtain ⟨n, κ, hn, rfl⟩ := hg.find_old hn'
    rw [← hgraph] at hn
    exact ⟨_, .address hopen hn hmove hmemory rfl huse, hgraph, rfl⟩
  | cached _ _ _ _ hload | reverse _ _ _ _ hload => cases hload
  | @direct n' hopen hn' hmove hmemory =>
    obtain ⟨n, κ, hn, rfl⟩ := hg.find_old hn'
    rw [← hgraph] at hn
    exact ⟨_, .direct hopen hn hmove hmemory, hgraph, rfl⟩

/-- A search forward gives what it gives alone, whatever is cached, if the walk passes nothing of
what others visited. -/
theorem initAccessKind_alone (hg : Caches (fun _ _ => True) g g')
    (h : initAccessKind d fuel { inst with access_kind := κ } g' (visited ∪ other) true = some r)
    (hother : Disjoint (forwardWalk g fuel inst visited).visited other) :
    ∃ r', initAccessKind d fuel inst g visited true = some r' ∧
      r = ⟨r'.access_kind, g', r'.visited ∪ other⟩ := by
  induction fuel generalizing inst κ visited r with
  | zero => cases h
  | succ fuel ih =>
    by_cases hpc : inst.pc ∈ visited
    · rw [initAccessKind_of_mem (show ({ inst with access_kind := κ } : Instruction).pc ∈ _ from
        Finset.mem_union_left _ hpc)] at h
      cases h
      exact ⟨_, initAccessKind_of_mem hpc, rfl⟩
    have hnot : ({ inst with access_kind := κ } : Instruction).pc ∉ visited ∪ other := by
      rw [Finset.mem_union, not_or]
      exact ⟨hpc, Finset.disjoint_left.1 hother (growing_noSource.pc_mem inst visited ())⟩
    rw [initAccessKind_of_notMem hnot, hg.edgesOf_eq] at h
    rw [initAccessKind_of_notMem hpc]
    unfold forwardWalk at hother
    rw [walk_of_notMem hpc] at hother
    -- As long as the walk passes nothing of the others, the states of the two loops agree.
    refine (foldlM_invariant_handled
      (I := fun before t => Disjoint (before.foldl (walkEdge g true (noSource fuel)
        (walk g true noSource fuel) inst) (startWalk inst visited ())).visited other →
        ∃ s, before.foldlM (searchEdge d (initAccessKind d fuel) inst true)
            ⟨startKind inst.op, g, insert inst.pc visited⟩ = some s ∧
          s.access_kind.vec_size = vecSizeOf inst.op ∧
          Tracks (fun g' _ => Caches (fun _ _ => True) g g') inst s (before.foldl
            (walkEdge g true (noSource fuel) (walk g true noSource fuel) inst)
            (startWalk inst visited ())) ∧
          s.graph = g ∧ t = ⟨s.access_kind, g', s.visited ∪ other⟩)
      (fun before edge t t' ht _ hstep => ?_) (fun _ => ?_) h hother).imp
      fun s hs => ⟨hs.1, hs.2.2.2.2⟩
    · intro hafter
      rw [List.foldl_append] at hafter
      obtain ⟨s, hs, hvec, htracks, hgraph, rfl⟩ :=
        ht (hafter.mono_left (growing_noSource.walkEdge inst _ edge).1)
      obtain ⟨s', hturn, hgraph', rfl⟩ :=
        alone_turn hg ih htracks hgraph hafter (searchEdge_cases hstep)
      refine ⟨s', ?_, hturn.vec_size_eq.trans hvec, ?_, hgraph', rfl⟩
      · rw [List.foldlM_append, hs]
        simp [hturn.searchEdge_eq]
      · rw [List.foldl_append]
        refine htracks.turn hvec id (fun hback => Bool.noConfusion hback) (fun hr => ?_) hturn
        rw [← htracks.visited]
        exact tracks_forwardWalk htracks.known hr
    · refine ⟨_, rfl, rfl, ⟨sees_startKind inst visited (), rfl, .refl g⟩, rfl, ?_⟩
      rw [Finset.insert_union]

end

end TenProf.Binutils
