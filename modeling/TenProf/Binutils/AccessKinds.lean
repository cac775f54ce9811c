import TenProf.Binutils.Walk

/-!
# The access kinds of the memory instructions

What `parse` finds for a memory instruction is used by `trace_analyze_default` to split an access
into units. The sizes come from a few lists (`unitSizes`, `vecSizeOf`), so an access is split right
as soon as the unit is not larger than the access. A size that a neighbour of the instruction names
is cut to that of the access; one that is seen behind a MOVE, at the source of a store or in the use
as an address is not. `kindsRight_iff` says when the first size that is seen is one that fits: the
sizes are read off the dependency graph by the walks of the searches (`seenKinds`).
-/

namespace TenProf.Binutils

/-! ## The units of an access -/

/-- The loop of `trace_analyze_default` over the units: the offset of each in the value and its size
in bytes, or `none` where it divides by zero. -/
def unitsOf (k : AccessKind) : Option (List (ℕ × ℕ)) :=
  if k.unit_size = 0 then none
  else
    let num_units := k.vec_size / k.unit_size
    let byte_size := k.unit_size >>> 3
    some ((List.range num_units).map fun m => (m * byte_size, byte_size))

/-- An access of the kind is split into units that tile the value. -/
structure AccessKind.SplitsRight (k : AccessKind) : Prop where
  unit_pos : 0 < k.unit_size
  unit_le : k.unit_size ≤ k.vec_size
  unit_dvd : k.unit_size ∣ k.vec_size
  tiles : ∃ units, unitsOf k = some units ∧ units.length = k.vec_size / k.unit_size ∧
    1 ≤ units.length ∧ (units.flatMap fun unit => List.range' unit.1 unit.2) =
      List.range (k.vec_size / 8)

/-- Every memory instruction of a graph has a kind that splits its accesses right. -/
def KindsRight (g : InstructionGraph) : Prop :=
  ∀ index inst, g.nodes.find? index = some inst → contains inst.op "MEMORY".toList →
    ∃ k, inst.access_kind = some k ∧ k.SplitsRight

/-- A kind with the sizes that its instruction can have. -/
structure Settled (inst : Instruction) (k : AccessKind) : Prop where
  vec_size_eq : k.vec_size = vecSizeOf inst.op
  unit_size_mem : k.unit_size ∈ unitSizes

/-- A unit that is not larger than the access divides it, and so do their bytes. -/
theorem sizes_dvd : ∀ unit ∈ unitSizes, ∀ vec ∈ vecSizes, unit ≤ vec →
    0 < unit ∧ unit ∣ vec ∧ 1 ≤ vec / unit ∧ vec / unit * (unit >>> 3) = vec / 8 := by
  decide

/-- Units of one size, one behind the other, tile their total. -/
theorem flatMap_range'_units (count size : ℕ) :
    (((List.range count).map fun m => (m * size, size)).flatMap fun unit =>
      List.range' unit.1 unit.2) = List.range (count * size) := by
  induction count with
  | zero => simp
  | succ count ih =>
    rw [List.range_succ, List.map_append, List.flatMap_append, ih, Nat.succ_mul,
      List.range_eq_range', List.range_eq_range', ← List.range'_append_1]
    simp

/-- A unit that is not larger than the access tiles it. -/
theorem Settled.splitsRight_iff {inst : Instruction} {k : AccessKind} (h : Settled inst k) :
    k.SplitsRight ↔ k.unit_size ≤ k.vec_size := by
  refine ⟨AccessKind.SplitsRight.unit_le, fun hle => ?_⟩
  obtain ⟨hpos, hdvd, hone, hbytes⟩ :=
    sizes_dvd _ h.unit_size_mem _ (h.vec_size_eq ▸ vecSizeOf_mem inst.op) hle
  refine ⟨hpos, hle, hdvd, _, if_neg hpos.ne', by simp, by simpa using hone, ?_⟩
  rw [flatMap_range'_units, hbytes]

/-! ## What is seen of the kinds -/

/-- What is seen of the kind of a memory instruction: what the search for it sees, and in the end
the default. -/
def kindSights (default_data_type : DataType) (op : CString) (sights : List Sight) : List Sight :=
  sights ++ takenOver (lastType sights) [⟨min 32 (vecSizeOf op), default_data_type⟩]

/-- The first size and the last type for the kind are the same in what is seen. -/
def SameKind (default_data_type : DataType) (op : CString) (sights sights' : List Sight) : Prop :=
  firstSize (kindSights default_data_type op sights) =
      firstSize (kindSights default_data_type op sights') ∧
    lastType (kindSights default_data_type op sights) =
      lastType (kindSights default_data_type op sights')

instance (d : DataType) (op : CString) (sights sights' : List Sight) :
    Decidable (SameKind d op sights sights') :=
  inferInstanceAs (Decidable (_ ∧ _))

/-- What a walk back from a store sees of a source: nothing of the instruction that `parse` has
allocated a kind for, as it is empty yet; of one that has its kind, what was seen for that; of any
other, what the walk forward from there sees, and then it has its kind. -/
def sourceWalk (default_data_type : DataType) (g : InstructionGraph) (allocated : Option ℕ)
    (fuel pc : ℕ) (n : Instruction) (visited : Finset ℕ) (seen : OrderedMap ℕ (List Sight)) :
    Walk (OrderedMap ℕ (List Sight)) :=
  if allocated = some pc then ⟨[], visited, seen⟩
  else
    match seen.find? pc with
    | some sights => ⟨kindSights default_data_type n.op sights, visited, seen⟩
    | none =>
      let w := forwardWalk g fuel n visited
      ⟨kindSights default_data_type n.op w.sights, w.visited, seen.set pc w.sights⟩

/-- The walk of the search for the kind of an instruction: back from a store, or forward from a
load. -/
def searchWalk (default_data_type : DataType) (g : InstructionGraph) (allocated : Option ℕ)
    (seen : OrderedMap ℕ (List Sight)) (inst : Instruction) : Walk (OrderedMap ℕ (List Sight)) :=
  match searchDirection inst.op with
  | none => ⟨[], ∅, seen⟩
  | some true =>
    let w := forwardWalk g (g.nodes.size + 1) inst ∅
    ⟨w.sights, w.visited, seen⟩
  | some false =>
    walk g false (sourceWalk default_data_type g allocated) (g.nodes.size + 1) inst ∅ seen

/-- What is seen for the kind of an instruction, unless it needs none or has one. -/
def seeNode (default_data_type : DataType) (g : InstructionGraph)
    (seen : OrderedMap ℕ (List Sight)) (index : ℕ) : OrderedMap ℕ (List Sight) :=
  match g.nodes.find? index with
  | none => seen
  | some inst =>
    if contains inst.op "MEMORY".toList ∧ (seen.find? index).isNone then
      let w := searchWalk default_data_type g (some index) seen inst
      w.memory.set index w.sights
    else seen

/-- What is seen for the kinds of memory instructions that are analyzed in an order. -/
def seenKinds (default_data_type : DataType) (g : InstructionGraph) (indices : List ℕ) :
    OrderedMap ℕ (List Sight) :=
  indices.foldl (seeNode default_data_type g) ∅

/-- The first size that is seen for a memory instruction is not larger than its access. -/
def SizesFit (default_data_type : DataType) (g : InstructionGraph) : Prop :=
  ∀ e ∈ g.nodes.toList, contains e.2.op "MEMORY".toList →
    ∀ sights ∈ (seenKinds default_data_type g (g.nodes.toList.map Prod.fst)).find? e.1,
      firstSize sights ≤ vecSizeOf e.2.op

instance (d : DataType) (g : InstructionGraph) : Decidable (SizesFit d g) :=
  inferInstanceAs (Decidable (∀ e ∈ _, _))

section

variable {d : DataType} {fuel index : ℕ} {allocated : Option ℕ} {inst : Instruction}
  {k : AccessKind} {sights : List Sight} {g g' : InstructionGraph} {ready : ℕ → Prop}
  {seen : OrderedMap ℕ (List Sight)} {indices : List ℕ}

/-- The default is a unit that fits. -/
theorem min_vecSizeOf_mem (op : CString) : min 32 (vecSizeOf op) ∈ unitSizes := by
  have hmin : ∀ vec ∈ vecSizes, min 32 vec ∈ unitSizes := by decide
  exact hmin _ (vecSizeOf_mem op)

theorem firstSize_default (op : CString) (d : DataType) :
    firstSize [⟨min 32 (vecSizeOf op), d⟩] = min 32 (vecSizeOf op) := by
  show (if min 32 (vecSizeOf op) = 0 then 0 else min 32 (vecSizeOf op)) = _
  split_ifs with hzero
  · exact hzero.symm
  · rfl

theorem firstSize_kindSights (d : DataType) (op : CString) (sights : List Sight) :
    firstSize (kindSights d op sights) =
      if firstSize sights = 0 then min 32 (vecSizeOf op) else firstSize sights := by
  rw [kindSights, firstSize_append, firstSize_takenOver, firstSize_default]

theorem lastType_kindSights (d : DataType) (op : CString) (sights : List Sight) :
    lastType (kindSights d op sights) =
      if lastType sights = .UNKNOWN then d else lastType sights := by
  rw [kindSights, lastType_append, lastType_takenOver]
  exact (takeOver_data_type _ _).symm

theorem sized_kindSights (d : DataType) (op : CString) (h : Sized sights) :
    Sized (kindSights d op sights) :=
  List.forall_mem_append.2 ⟨h, Sized.takenOver (List.forall_mem_singleton.2
    (List.mem_cons_of_mem _ (min_vecSizeOf_mem op))) _⟩

/-- A kind of an instruction, with the sizes and the type that are seen. -/
structure KindSeen (d : DataType) (inst : Instruction) (k : AccessKind) (sights : List Sight) :
    Prop extends Shows k (kindSights d inst.op sights) where
  vec_size : k.vec_size = vecSizeOf inst.op

/-- Kinds of an instruction are the same if the same is seen. -/
theorem KindSeen.eq_iff {k' : AccessKind} {sights' : List Sight} (h : KindSeen d inst k sights)
    (h' : KindSeen d inst k' sights') : k = k' ↔ SameKind d inst.op sights sights' := by
  cases k
  cases k'
  rw [SameKind, ← h.unit_size, ← h'.unit_size, ← h.data_type, ← h'.data_type, AccessKind.mk.injEq]
  exact and_iff_right (h.vec_size.trans h'.vec_size.symm)

/-- The default kind shows what the search sees, and then the default. -/
theorem Sees.kindSeen (h : Sees inst k sights) (d : DataType) :
    KindSeen d inst (defaultAccessKind d inst.op k) sights := by
  have hvec : (defaultAccessKind d inst.op k).vec_size = vecSizeOf inst.op := by
    show (if k.vec_size = 0 then _ else _) = _
    split_ifs with hzero
    · rfl
    · exact h.vec_size.resolve_right fun hnone => hzero hnone.1
  refine ⟨⟨?_, ?_, sized_kindSights d inst.op h.sized⟩, hvec⟩
  · show (if k.unit_size = 0 then min 32 (defaultAccessKind d inst.op k).vec_size else _) = _
    rw [hvec, firstSize_kindSights, h.unit_size]
  · rw [lastType_kindSights, ← h.data_type]
    rfl

/-- The kind has sizes that its instruction can have. -/
theorem KindSeen.settled (h : KindSeen d inst k sights) : Settled inst k := by
  refine ⟨h.vec_size, (List.mem_cons.1 (h.unit_size ▸ h.sized.firstSize_mem)).resolve_left ?_⟩
  rw [h.unit_size, firstSize_kindSights]
  split_ifs with hzero
  · exact fun heq => absurd (heq ▸ min_vecSizeOf_mem inst.op) (by decide)
  · exact hzero

/-- An access is split right if the first size that is seen fits. -/
theorem KindSeen.splitsRight_iff (h : KindSeen d inst k sights) :
    k.SplitsRight ↔ firstSize sights ≤ vecSizeOf inst.op := by
  rw [h.settled.splitsRight_iff, h.vec_size, h.unit_size, firstSize_kindSights]
  split_ifs with hzero
  · rw [hzero]
    exact ⟨fun _ => Nat.zero_le _, fun _ => min_le_right _ _⟩
  · rfl

/-- The kinds of some instructions of a graph are what was seen. -/
structure Knows (d : DataType) (g : InstructionGraph) (ready : ℕ → Prop) (g' : InstructionGraph)
    (seen : OrderedMap ℕ (List Sight)) : Prop where
  caches : Caches (fun _ _ => True) g g'
  kind : ∀ i inst κ, ready i → g.nodes.find? i = some inst →
    g'.nodes.find? i = some { inst with access_kind := κ } →
    Option.Rel (KindSeen d inst) κ (seen.find? i)

/-- An instruction has a kind exactly when something is seen for it. -/
theorem Knows.find?_eq_none_iff (h : Knows d g ready g' seen) {κ : Option AccessKind}
    (hready : ready index) (hinst : g.nodes.find? index = some inst)
    (hinst' : g'.nodes.find? index = some { inst with access_kind := κ }) :
    seen.find? index = none ↔ κ = none := by
  have hrel := h.kind index inst κ hready hinst hinst'
  generalize seen.find? index = found at hrel
  cases hrel <;> simp

/-- While the search for an instruction is under way, it has the kind that was allocated. -/
structure Searching (d : DataType) (g : InstructionGraph) (allocated : Option ℕ)
    (g' : InstructionGraph) (seen : OrderedMap ℕ (List Sight)) : Prop
    extends Knows d g (fun i => allocated ≠ some i) g' seen where
  empty : ∀ i ∈ allocated, (g'.nodes.find? i).bind Instruction.access_kind = some {}

/-- The kind that was allocated is the last one that is found. -/
theorem Searching.done {κ : Option AccessKind} (h : Searching d g (some index) g' seen)
    (hinst : g.nodes.find? index = some inst)
    (hinst' : g'.nodes.find? index = some { inst with access_kind := κ })
    (hk : KindSeen d inst k sights)
    (hcaches : Caches (fun _ _ => True) g (setAccessKind g' index k)) :
    Knows d g (fun _ => True) (setAccessKind g' index k) (seen.set index sights) where
  caches := hcaches
  kind i n κ' _ hn hn' := by
    by_cases hi : i = index
    · subst hi
      obtain rfl := Option.some_injective _ (hinst.symm.trans hn)
      rw [find?_setAccessKind_self hinst'] at hn'
      cases hn'
      rw [OrderedMap.find?_set_self]
      exact .some hk
    · rw [find?_setAccessKind_of_ne hi] at hn'
      rw [OrderedMap.find?_set_of_ne _ hi]
      exact h.kind i n κ' (fun heq => hi (Option.some_injective _ heq).symm) hn hn'

/-- The kind of a source is found and set while another instruction is searched for. -/
theorem Searching.set {pc : ℕ} {n : Instruction} (h : Searching d g allocated g' seen)
    (hpc : allocated ≠ some pc) (hn : g.nodes.find? pc = some n)
    (hn' : g'.nodes.find? pc = some { n with access_kind := none }) (hk : KindSeen d n k sights) :
    Searching d g allocated (setAccessKind g' pc k) (seen.set pc sights) where
  caches := h.caches.trans (caches_setAccessKind hn' rfl trivial)
  kind i n' κ hi hfind hfind' := by
    by_cases heq : i = pc
    · subst heq
      obtain rfl := Option.some_injective _ (hn.symm.trans hfind)
      rw [find?_setAccessKind_self hn'] at hfind'
      cases hfind'
      rw [OrderedMap.find?_set_self]
      exact .some hk
    · rw [find?_setAccessKind_of_ne heq] at hfind'
      rw [OrderedMap.find?_set_of_ne _ heq]
      exact h.kind i n' κ hi hfind hfind'
  empty i hi := by
    have hne : i ≠ pc := by
      rintro rfl
      exact hpc hi
    rw [find?_setAccessKind_of_ne hne]
    exact h.empty i hi

/-- A walk back learns of the sources what the search does. -/
theorem answers_sourceWalk (d : DataType) (g : InstructionGraph) (allocated : Option ℕ) :
    Answers d g (sourceWalk d g allocated) (Searching d g allocated) where
  cached fuel visited pc n k g' seen h hn _ hn' := by
    by_cases hpc : allocated = some pc
    · have hk := h.empty pc hpc
      rw [hn'] at hk
      cases hk
      exact ⟨[], by rw [sourceWalk, if_pos hpc], shows_nil⟩
    · have hrel := h.kind pc n _ hpc hn hn'
      cases hseen : seen.find? pc with
      | none =>
        rw [hseen] at hrel
        cases hrel
      | some sights =>
        rw [hseen] at hrel
        cases hrel with
        | some hk =>
          exact ⟨kindSights d n.op sights, by simp only [sourceWalk, if_neg hpc, hseen],
            hk.toShows⟩
  reverse := by
    intro fuel pc n visited g' seen r h hn _ hn' hr
    have hpc : allocated ≠ some pc := by
      intro hpc
      have hk := h.empty pc hpc
      rw [hn'] at hk
      cases hk
    have hseen : seen.find? pc = none := by
      rw [h.find?_eq_none_iff hpc hn hn']
    have hforward := tracks_forwardWalk h.caches hr
    have hk := hforward.sees.kindSeen d
    refine ⟨kindSights d n.op (forwardWalk g fuel n visited).sights,
      seen.set pc (forwardWalk g fuel n visited).sights, ?_, hk.toShows, ?_⟩
    · simp only [sourceWalk, if_neg hpc, hseen, hforward.visited]
    · rw [graph_initAccessKind_load hr]
      exact h.set hpc hn hn' hk

/-- The search for a kind does what its walk does. -/
theorem tracks_searchKind {κ : Option AccessKind} {r : Search}
    (hg : Searching d g allocated g' seen)
    (h : searchKind d (g.nodes.size + 1) { inst with access_kind := κ } g' = some r) :
    Tracks (Searching d g allocated) inst r (searchWalk d g allocated seen inst) := by
  unfold searchKind at h
  unfold searchWalk
  cases hdirection : searchDirection inst.op with
  | none =>
    simp only [hdirection] at h
    cases h
    exact ⟨sees_nil inst, rfl, hg⟩
  | some load =>
    simp only [hdirection] at h
    cases load with
    | true =>
      have hforward := tracks_forwardWalk hg.caches h
      refine ⟨hforward.sees, hforward.visited, ?_⟩
      rw [graph_initAccessKind_load h]
      exact hg
    | false =>
      exact sees_initAccessKind (fun h => h.caches) (fun _ => answers_sourceWalk d g allocated) h hg

/-- A turn of the analysis leaves the kinds that are seen. -/
theorem Knows.analyzeNode {g'' : InstructionGraph} (h : Knows d g (fun _ => True) g' seen)
    (hstep : analyzeNode d (g.nodes.size + 1) g' index = some g'') :
    Knows d g (fun _ => True) g'' (seeNode d g seen index) := by
  obtain ⟨inst', hinst', hcase⟩ := analyzeNode_cases hstep
  obtain ⟨inst, κ, hinst, rfl⟩ := h.caches.find_old hinst'
  have hnone_iff := h.find?_eq_none_iff trivial hinst hinst'
  unfold seeNode
  simp only [hinst]
  rcases hcase with ⟨hskip, rfl⟩ | ⟨hmemory, hnone, r, hr, rfl⟩
  · -- The instruction needs no kind or has one.
    rw [if_neg fun hsearch => hskip hsearch.1 (hnone_iff.1 (Option.isNone_iff_eq_none.1 hsearch.2))]
    exact h
  · obtain rfl : κ = none := hnone
    have hallocated := find?_setAccessKind_self hinst' {}
    have hstart : Searching d g (some index) (setAccessKind g' index {}) seen := by
      refine ⟨⟨h.caches.trans (caches_setAccessKind hinst' rfl trivial), ?_⟩, ?_⟩
      · intro i n κ hi hn hn'
        rw [find?_setAccessKind_of_ne fun heq => hi (congrArg some heq.symm)] at hn'
        exact h.kind i n κ trivial hn hn'
      · rintro i ⟨⟩
        rw [hallocated]
        rfl
    have htracks := tracks_searchKind hstart hr
    have hframe : Caches (fun _ _ => True) (setAccessKind g' index {}) r.graph :=
      caches_searchKind hr fun load _ hload => (frame_initAccessKind hload).1
    rw [if_pos ⟨hmemory, Option.isNone_iff_eq_none.2 (hnone_iff.2 rfl)⟩]
    exact htracks.known.done hinst (hframe.keep hallocated (by simp)) (htracks.sees.kindSeen d)
      (h.caches.trans (hframe.setAccessKind hinst' rfl trivial))

/-- An instruction that is read from a file has no kind yet. -/
def NoKinds (g : InstructionGraph) : Prop :=
  ∀ i inst, g.nodes.find? i = some inst → inst.access_kind = none

theorem noKinds_parseInstructions (h : NoKinds g) (f : FunctionEntry) :
    NoKinds (parseInstructions g f) := by
  unfold parseInstructions
  refine List.foldlRecOn _ _ h fun g hg e _ i inst hinst => ?_
  rw [Graph.addNode, OrderedMap.find?_emplace] at hinst
  split_ifs at hinst with hi
  · cases hinst
    -- The first instruction at a pc stays.
    cases hold : g.nodes.find? (u64OfInt (i32 (e.pc + f.address))) with
    | none => rfl
    | some old => exact hg _ old hold
  · exact hg i inst hinst

/-- The edges leave the instructions. -/
theorem nodes_addDependencies (g : InstructionGraph) (inst : Instruction) :
    (addDependencies g inst).nodes = g.nodes := by
  have hedges : ∀ (pcs : List ℤ) (g' : InstructionGraph), g'.nodes = g.nodes →
      (pcs.foldl (fun g' pc => g'.addEdge ⟨u64OfInt pc, inst.pc⟩ false) g').nodes = g.nodes :=
    fun pcs g' hg' => List.foldlRecOn (motive := fun g' : InstructionGraph => g'.nodes = g.nodes)
      pcs _ hg' fun g' hg' pc _ => (Graph.nodes_addEdge _ _).trans hg'
  refine List.foldlRecOn (motive := fun g' : InstructionGraph => g'.nodes = g.nodes) _ _ ?_
    fun g' hg' usrc _ => hedges _ g' hg'
  exact List.foldlRecOn (motive := fun g' : InstructionGraph => g'.nodes = g.nodes) _ _ rfl
    fun g' hg' src _ => hedges _ g' hg'

theorem noKinds_dependencyGraph (file : List FunctionEntry) : NoKinds (dependencyGraph file) := by
  unfold dependencyGraph
  refine List.foldlRecOn _ _ ?_ fun g hg inst _ => ?_
  · refine List.foldlRecOn _ _ ?_ fun g hg f _ => noKinds_parseInstructions hg f
    intro i inst hinst
    cases hinst
  · unfold NoKinds
    rwa [nodes_addDependencies]

/-- A graph without kinds knows nothing. -/
theorem NoKinds.knows (hg : NoKinds g) : Knows d g (fun _ => True) g ∅ where
  caches := .refl g
  kind i inst κ _ _ hinst' := by
    obtain rfl : κ = none := hg i _ hinst'
    exact .none

/-- The kinds that the analysis leaves are what is seen, in whatever order it goes. -/
theorem NoKinds.knows_analysis (hg : NoKinds g)
    (h : indices.foldlM (analyzeNode d (g.nodes.size + 1)) g = some g') :
    Knows d g (fun _ => True) g' (seenKinds d g indices) :=
  foldlM_invariant_handled (I := fun before s =>
    Knows d g (fun _ => True) s (before.foldl (seeNode d g) ∅))
    (fun before index s s' hs _ hstep => by
      rw [List.foldl_append]
      exact hs.analyzeNode hstep) hg.knows h

/-- An instruction that was analyzed has a kind, which is what was seen. -/
theorem NoKinds.kindSeen_analysis (hg : NoKinds g)
    (h : indices.foldlM (analyzeNode d (g.nodes.size + 1)) g = some g')
    (hindex : index ∈ indices) (hinst : g.nodes.find? index = some inst)
    (hmemory : contains inst.op "MEMORY".toList) :
    ∃ k sights, g'.nodes.find? index = some { inst with access_kind := some k } ∧
      (seenKinds d g indices).find? index = some sights ∧ KindSeen d inst k sights := by
  have hknows := hg.knows_analysis h
  obtain ⟨κ, hinst'⟩ := hknows.caches.find_new hinst
  have hrel := hknows.kind index inst κ trivial hinst hinst'
  cases hseen : (seenKinds d g indices).find? index with
  | none =>
    exact absurd ((hknows.find?_eq_none_iff trivial hinst hinst').1 hseen)
      (access_kind_analyzeNodes h hindex hinst' hmemory)
  | some sights =>
    rw [hseen] at hrel
    cases hrel with
    | @some k _ hk => exact ⟨k, sights, hinst', rfl, hk⟩

/-- After the analysis every memory instruction has a kind that splits its accesses right, exactly
when the first sizes that are seen fit. -/
theorem kindsRight_analyzeGraph_iff (hg : NoKinds g) (h : analyzeGraph d g = some g') :
    KindsRight g' ↔ SizesFit d g := by
  have hseen : ∀ {index inst}, (index, inst) ∈ g.nodes.toList → contains inst.op "MEMORY".toList →
      ∃ k sights, g'.nodes.find? index = some { inst with access_kind := some k } ∧
        (seenKinds d g (g.nodes.toList.map Prod.fst)).find? index = some sights ∧
        KindSeen d inst k sights := fun hmem hmemory =>
    hg.kindSeen_analysis h (List.mem_map.2 ⟨_, hmem, rfl⟩)
      ((OrderedMap.find?_eq_some_iff _ _ _).2 hmem) hmemory
  constructor
  · rintro hright ⟨index, inst⟩ hmem hmemory sights hfind
    obtain ⟨k, sights', hinst', hfind', hk⟩ := hseen hmem hmemory
    obtain rfl := Option.some_injective _ (hfind'.symm.trans hfind)
    obtain ⟨k', hk', hsplits⟩ := hright index _ hinst' hmemory
    cases hk'
    exact hk.splitsRight_iff.1 hsplits
  · intro hfit index inst' hinst' hmemory
    obtain ⟨inst, κ, hinst, rfl⟩ := (hg.knows_analysis h).caches.find_old hinst'
    have hmem := (OrderedMap.find?_eq_some_iff _ _ _).1 hinst
    obtain ⟨k, sights, hfind, hsights, hk⟩ := hseen hmem hmemory
    cases hinst'.symm.trans hfind
    exact ⟨k, rfl, hk.splitsRight_iff.2 (hfit (index, inst) hmem hmemory sights hsights)⟩

end

/-- A file with a load whose result is the address of a load of 128 bits. -/
def addressFile (op : CString) : List FunctionEntry :=
  [⟨0, 0, [[⟨0, op, -1, [2], [], [], []⟩,
    ⟨16, "MEMORY.LOAD.128".toList, -1, [4], [(2, [0])], [], []⟩]]⟩]

end TenProf.Binutils
