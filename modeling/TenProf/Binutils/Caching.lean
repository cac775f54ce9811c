import TenProf.Binutils.AccessKinds
import TenProf.Binutils.SearchAlone

/-!
# Cached kinds

`parse` caches the kind of a memory instruction that the search for another one comes across, and
this search shares what was visited with it. An instruction that one of two searches has passed is
unknown to the other, so that what is cached need not be the kind that a search for the instruction
alone gives (`kindAlone`). It is that kind exactly when the walks of the analysis show the same as
the walk for the instruction alone (`SeenAlone`), in whatever order the instructions are analyzed
(`parse_kindsAlone`).

When this is so without regard to what the walks see is a matter of what they pass. What the
searches for a store would pass each on its own is given by walks as well (`apartWalk`). Where these
stay apart and the sources are such that the search forward is the right one for them (`Apart`), the
sharing has no effect, whatever is cached already (`agrees_initAccessKind`).
-/

namespace TenProf.Binutils

/-- The kind of an instruction that a search for it alone gives, from a graph without kinds. -/
def kindAlone (default_data_type : DataType) (g : InstructionGraph) (inst : Instruction) :
    Option AccessKind :=
  (searchKind default_data_type (g.nodes.size + 1) inst g).map fun r =>
    defaultAccessKind default_data_type inst.op r.access_kind

/-- What the walk for the kind of an instruction alone sees. -/
def aloneSights (default_data_type : DataType) (g : InstructionGraph) (inst : Instruction) :
    List Sight :=
  (searchWalk default_data_type g none ∅ inst).sights

/-- What is seen for an instruction, when some are analyzed in an order and their walks share what
was visited, shows the same kind as what the walk for it alone sees. -/
def SeenAlone (default_data_type : DataType) (g : InstructionGraph) (indices : List ℕ)
    (index : ℕ) : Prop :=
  ∀ inst ∈ g.nodes.find? index, ∀ sights ∈ (seenKinds default_data_type g indices).find? index,
    SameKind default_data_type inst.op sights (aloneSights default_data_type g inst)

instance (d : DataType) (g : InstructionGraph) (indices : List ℕ) (index : ℕ) :
    Decidable (SeenAlone d g indices index) :=
  inferInstanceAs (Decidable (∀ inst ∈ _, _))

/-! ## Walks apart -/

/-- The walk forward from an instruction alone. -/
def aloneWalk (g : InstructionGraph) (inst : Instruction) : Walk Unit :=
  forwardWalk g (g.nodes.size + 1) inst ∅

/-- What the walk forward from an instruction alone passes. -/
def passed (g : InstructionGraph) (index : ℕ) : Finset ℕ :=
  (g.nodes.find? index).elim ∅ fun n => (aloneWalk g n).visited

/-- What a walk back from a store sees of a source, if the walk forward from there is made alone.
The sources are kept. -/
def apartSource (default_data_type : DataType) (g : InstructionGraph) (_fuel pc : ℕ)
    (n : Instruction) (visited sources : Finset ℕ) : Walk (Finset ℕ) :=
  ⟨kindSights default_data_type n.op (aloneWalk g n).sights, visited, insert pc sources⟩

/-- The walk back from a store, in which every walk has visited only what it has passed itself. -/
def apartWalk (default_data_type : DataType) (g : InstructionGraph) (inst : Instruction) :
    Walk (Finset ℕ) :=
  walk g false (apartSource default_data_type g) (g.nodes.size + 1) inst ∅ ∅

/-- The walk forward is the right one for a source: it is a load, or there is no search for its kind
and the walk sees the default. -/
def Alike (default_data_type : DataType) (g : InstructionGraph) (n : Instruction) : Prop :=
  searchDirection n.op = some true ∨
    searchDirection n.op = none ∧
      firstSize (aloneWalk g n).sights ∈ [0, min 32 (vecSizeOf n.op)] ∧
      lastType (aloneWalk g n).sights ∈ [.UNKNOWN, default_data_type]

instance (d : DataType) (g : InstructionGraph) (n : Instruction) : Decidable (Alike d g n) :=
  inferInstanceAs (Decidable (_ ∨ _))

/-- The walk forward is the right one for all sources, and passes nothing that the walk back visited
or that the walk forward from another source passes. -/
structure Apart (default_data_type : DataType) (g : InstructionGraph) (w : Walk (Finset ℕ)) :
    Prop where
  alike : ∀ index ∈ w.memory, ∀ n ∈ g.nodes.find? index, Alike default_data_type g n
  back : ∀ index ∈ w.memory, Disjoint (passed g index) w.visited
  forward : ∀ index ∈ w.memory, ∀ index' ∈ w.memory, index ≠ index' →
    Disjoint (passed g index) (passed g index')

instance (d : DataType) (g : InstructionGraph) (w : Walk (Finset ℕ)) : Decidable (Apart d g w) :=
  decidable_of_iff
    ((∀ index ∈ w.memory, ∀ n ∈ g.nodes.find? index, Alike d g n) ∧
      (∀ index ∈ w.memory, Disjoint (passed g index) w.visited) ∧
      ∀ index ∈ w.memory, ∀ index' ∈ w.memory, index ≠ index' →
        Disjoint (passed g index) (passed g index'))
    ⟨fun h => ⟨h.1, h.2.1, h.2.2⟩, fun h => ⟨h.alike, h.back, h.forward⟩⟩

/-- If an instruction is a store, the walks for its kind stay apart. -/
def SearchesApart (default_data_type : DataType) (g : InstructionGraph) (index : ℕ) : Prop :=
  ∀ inst ∈ g.nodes.find? index, contains inst.op "MEMORY".toList →
    searchDirection inst.op = some false →
    Apart default_data_type g (apartWalk default_data_type g inst)

instance (d : DataType) (g : InstructionGraph) (index : ℕ) : Decidable (SearchesApart d g index) :=
  inferInstanceAs (Decidable (∀ inst ∈ _, _))

/-- The sources of walks apart are kept. -/
theorem growing_apartSource (d : DataType) (g : InstructionGraph) :
    Growing (· ⊆ ·) (apartSource d g) :=
  ⟨fun _ => subset_rfl, Finset.Subset.trans, fun _ _ _ _ _ =>
    ⟨subset_rfl, Finset.subset_insert _ _⟩⟩

/-! ## The kinds of sources -/

section

variable {d : DataType} {g : InstructionGraph} {n : Instruction} {k : AccessKind} {r : Search}

theorem sized_aloneWalk (g : InstructionGraph) (n : Instruction) : Sized (aloneWalk g n).sights :=
  sized_walk (fun _ _ _ _ _ => sized_nil) n ∅ ()

/-- What the search forward from an instruction alone sees. -/
theorem sees_aloneWalk (h : initAccessKind d (g.nodes.size + 1) n g ∅ true = some r) :
    Sees n r.access_kind (aloneWalk g n).sights ∧ r.visited = (aloneWalk g n).visited := by
  have htracks := tracks_forwardWalk (.refl g)
    (show initAccessKind d _ { n with access_kind := n.access_kind } g ∅ true = some r from h)
  exact ⟨htracks.sees, htracks.visited⟩

theorem kindAlone_of_load (hload : searchDirection n.op = some true) :
    kindAlone d g n = (initAccessKind d (g.nodes.size + 1) n g ∅ true).map fun r =>
      defaultAccessKind d n.op r.access_kind := by
  unfold kindAlone searchKind
  rw [hload]

/-- Without a search the kind is the default. -/
theorem kindAlone_of_none (hnone : searchDirection n.op = none) :
    kindAlone d g n = some ⟨vecSizeOf n.op, min 32 (vecSizeOf n.op), d⟩ := by
  unfold kindAlone searchKind
  rw [hnone]
  rfl

/-- Where a walk sees the default or nothing, the default is what is seen for the kind. -/
theorem kindSights_default {sights : List Sight} {op : CString}
    (hsize : firstSize sights ∈ [0, min 32 (vecSizeOf op)])
    (htype : lastType sights ∈ [.UNKNOWN, d]) :
    firstSize (kindSights d op sights) = min 32 (vecSizeOf op) ∧
      lastType (kindSights d op sights) = d := by
  rw [firstSize_kindSights, lastType_kindSights]
  constructor
  · split_ifs with hzero
    · rfl
    · simpa [hzero] using hsize
  · split_ifs with hunknown
    · rfl
    · simpa [hunknown] using htype

theorem Alike.direction (h : Alike d g n) : searchDirection n.op ≠ some false := by
  rcases h with hload | ⟨hnone, -⟩ <;> simp_all

/-- The search forward from a source gives the kind that it gets alone. -/
theorem Alike.kindAlone_eq (h : Alike d g n)
    (hr : initAccessKind d (g.nodes.size + 1) n g ∅ true = some r) :
    kindAlone d g n = some (defaultAccessKind d n.op r.access_kind) := by
  rcases h with hload | ⟨hnone, hsize, htype⟩
  · rw [kindAlone_of_load hload, hr, Option.map_some]
  · have hk := (sees_aloneWalk hr).1.kindSeen d
    obtain ⟨hunit, hlast⟩ := kindSights_default hsize htype
    rw [kindAlone_of_none hnone, ← hunit, ← hk.unit_size, ← hk.vec_size]
    congr 2
    exact (hk.data_type.trans hlast).symm

/-- The walk forward from a source sees the kind that it gets alone. -/
theorem Alike.shows (h : Alike d g n) (hk : kindAlone d g n = some k) :
    Shows k (kindSights d n.op (aloneWalk g n).sights) := by
  rcases h with hload | ⟨hnone, hsize, htype⟩
  · rw [kindAlone_of_load hload] at hk
    obtain ⟨r, hr, rfl⟩ := Option.map_eq_some_iff.1 hk
    exact ((sees_aloneWalk hr).1.kindSeen d).toShows
  · rw [kindAlone_of_none hnone] at hk
    cases hk
    obtain ⟨hunit, hlast⟩ := kindSights_default hsize htype
    exact ⟨hunit.symm, hlast.symm, sized_kindSights d n.op (sized_aloneWalk g n)⟩

end

/-! ## Searches back -/

/-- The kinds that instructions other than stores have in a graph are those that they get alone. -/
def SourcesRight (d : DataType) (g g' : InstructionGraph) : Prop :=
  ∀ index inst k, g.nodes.find? index = some inst → searchDirection inst.op ≠ some false →
    (g'.nodes.find? index).bind Instruction.access_kind = some k → kindAlone d g inst = some k

/-- A kind that is cached for a source: the one that it gets alone. -/
def SourceKind (d : DataType) (g : InstructionGraph) (inst : Instruction) (k : AccessKind) : Prop :=
  searchDirection inst.op ≠ some false ∧ kindAlone d g inst = some k

/-- What a walk apart visited is visited, and what is visited apart from this is passed by the walk
forward from a source that has its kind by now. -/
structure Shares (g : InstructionGraph) (visited sources : Finset ℕ) (g' : InstructionGraph)
    (seen : Finset ℕ) : Prop where
  subset : visited ⊆ seen
  shared : ∀ pc ∈ seen, pc ∈ visited ∨ ∃ index ∈ sources, pc ∈ passed g index ∧
    ∃ n ∈ g'.nodes.find? index, n.access_kind ≠ none

/-- The state of a search back that shares what was visited: the kind is what the walk apart sees,
and kinds of sources were cached in the graph `g'`. -/
structure Agrees (d : DataType) (g g' : InstructionGraph) (inst : Instruction)
    (w : Walk (Finset ℕ)) (s : Search) : Prop where
  sees : Sees inst s.access_kind w.sights
  caches : Caches (SourceKind d g) g' s.graph
  shares : Shares g w.visited w.memory s.graph s.visited

/-- The searches back that share what was visited find what the walks see, as long as these stay
apart. -/
def Simulates (d : DataType) (g : InstructionGraph) (fuel : ℕ) : Prop :=
  ∀ inst κ g' seen visited memory r, Caches (fun _ _ => True) g g' → SourcesRight d g g' →
    inst.pc ∈ pcsOf g → unvisited g seen < fuel → Shares g visited memory g' seen →
    initAccessKind d fuel { inst with access_kind := κ } g' seen false = some r →
    Apart d g (walk g false (apartSource d g) fuel inst visited memory) →
    Agrees d g g' inst (walk g false (apartSource d g) fuel inst visited memory) r

section

variable {d : DataType} {fuel index : ℕ} {inst n : Instruction} {g g' g'' : InstructionGraph}
  {visited memory seen : Finset ℕ} {w w' : Walk (Finset ℕ)} {k : AccessKind} {sights : List Sight}
  {ok : Instruction → AccessKind → Prop} {edge : InstructionDependencyIndex}

/-- Walks that stay apart have stayed apart before. -/
theorem Apart.mono (h : Apart d g w') (hwalk : w.visited ⊆ w'.visited ∧ w.memory ⊆ w'.memory) :
    Apart d g w where
  alike index hindex := h.alike index (hwalk.2 hindex)
  back index hindex := (h.back index (hwalk.2 hindex)).mono_right hwalk.1
  forward index hindex index' hindex' := h.forward index (hwalk.2 hindex) index' (hwalk.2 hindex')

/-- An instruction that has no kind yet had none. -/
theorem Caches.find_of_none (h : Caches ok g g') (hinst : g'.nodes.find? index = some inst)
    (hnone : inst.access_kind = none) : g.nodes.find? index = some inst := by
  rcases h.node index with heq | ⟨n, k, hn, -, -, hnew⟩
  · rw [← heq, hinst]
  · rw [hnew] at hinst
    cases hinst
    cases hnone

/-- The kinds of sources stay right where kinds that they get alone are cached. -/
theorem SourcesRight.caches (h : SourcesRight d g g') (hg : Caches ok g g')
    (hcaches : Caches (SourceKind d g) g' g'') : SourcesRight d g g'' := by
  intro index inst k hinst hsource hk
  rcases hcaches.node index with heq | ⟨n, k', hn, hnone, hnew, hsome⟩
  · exact h index inst k hinst hsource (heq ▸ hk)
  · obtain rfl := Option.some_injective _ ((hg.find_of_none hn hnone).symm.trans hinst)
    rw [hsome] at hk
    cases hk
    exact hnew.2

/-- Caching leaves what is shared. -/
theorem Shares.caches (h : Shares g visited memory g' seen) (hcaches : Caches ok g' g'') :
    Shares g visited memory g'' seen where
  subset := h.subset
  shared pc hpc := (h.shared pc hpc).imp_right fun ⟨index, hindex, hpassed, n, hn, hsome⟩ =>
    ⟨index, hindex, hpassed, n, hcaches.keep hn hsome, hsome⟩

/-- What is shared stays so where another source is kept. -/
theorem Shares.insert (h : Shares g visited memory g' seen) (index : ℕ) :
    Shares g visited (insert index memory) g' seen where
  subset := h.subset
  shared pc hpc := (h.shared pc hpc).imp_right fun ⟨index', hindex, hrest⟩ =>
    ⟨index', Finset.mem_insert_of_mem hindex, hrest⟩

/-- The walk from a source without a kind passes nothing that is visited, if it stays apart. -/
theorem Shares.disjoint (h : Shares g w.visited w.memory g' seen) (hapart : Apart d g w)
    (hindex : index ∈ w.memory) (hinst : g'.nodes.find? index = some inst)
    (hnone : inst.access_kind = none) :
    Disjoint (passed g index) seen := by
  rw [Finset.disjoint_right]
  intro pc hpc
  rcases h.shared pc hpc with hown | ⟨index', hindex', hpassed, n, hn, hsome⟩
  · exact Finset.disjoint_right.1 (hapart.back index hindex) hown
  · have hne : index ≠ index' := by
      rintro rfl
      obtain rfl := Option.some_injective _ (hinst.symm.trans hn)
      exact hsome hnone
    exact Finset.disjoint_right.1 (hapart.forward index hindex index' hindex' hne) hpassed

theorem passed_eq (hn : g.nodes.find? index = some n) :
    passed g index = (aloneWalk g n).visited := by
  unfold passed
  rw [hn]
  rfl

/-- The bound on the depth that the analysis uses is large enough. -/
theorem unvisited_lt_size (g : InstructionGraph) (visited : Finset ℕ) :
    unvisited g visited < g.nodes.size + 1 :=
  Nat.lt_succ_of_le ((Finset.card_le_card Finset.sdiff_subset).trans (card_pcsOf_le g))

/-- A search forward from a source that passes nothing visited gives what it gives alone. -/
theorem forward_alone {r : Search} (hg : Caches ok g g') (hn : g.nodes.find? index = some n)
    (hn' : g'.nodes.find? index = some n) (hfuel : unvisited g seen < fuel)
    (hseen : Disjoint (passed g index) seen)
    (h : initAccessKind d fuel n g' seen true = some r) :
    ∃ r', initAccessKind d (g.nodes.size + 1) n g ∅ true = some r' ∧
      r = ⟨r'.access_kind, g', r'.visited ∪ seen⟩ := by
  have hunvisited : unvisited g' seen = unvisited g seen := by
    unfold unvisited
    rw [hg.pcsOf_eq]
  have hsize := unvisited_lt_size g seen
  rw [initAccessKind_fuel (mem_pcsOf.2 ⟨index, n, hn', rfl⟩) (by rwa [hunvisited])
    (by rwa [hunvisited]), ← Finset.empty_union seen] at h
  rw [passed_eq hn] at hseen
  exact initAccessKind_alone (hg.mono fun _ _ _ => trivial)
    (show initAccessKind d _ { n with access_kind := n.access_kind } g' _ true = some r from h)
    hseen

/-- The kind of a source that is found while what was visited is shared is the one that it gets
alone. -/
theorem Agrees.reverse {s r : Search} (h : Agrees d g g' inst w s)
    (hgs : Caches (fun _ _ => True) g s.graph) (hfuel : unvisited g s.visited < fuel)
    (hn : g.nodes.find? index = some n)
    (hn' : s.graph.nodes.find? index = some { n with access_kind := none })
    (hr : initAccessKind d fuel { n with access_kind := none } s.graph s.visited true = some r)
    (hapart : Apart d g ⟨sights, w.visited, insert index w.memory⟩) :
    kindAlone d g n = some (defaultAccessKind d n.op r.access_kind) ∧
      Caches (SourceKind d g) g'
        (setAccessKind r.graph index (defaultAccessKind d n.op r.access_kind)) ∧
      Shares g w.visited (insert index w.memory)
        (setAccessKind r.graph index (defaultAccessKind d n.op r.access_kind)) r.visited := by
  have hindex := Finset.mem_insert_self index w.memory
  have halike := hapart.alike index hindex n hn
  have hfresh : n = { n with access_kind := none } :=
    Option.some_injective _ (hn.symm.trans (hgs.find_of_none hn' rfl))
  rw [← hfresh] at hn' hr
  -- The walk from the source passes nothing that was visited.
  have hdisjoint := Shares.disjoint (h.shares.insert index) hapart hindex hn' (by rw [hfresh])
  obtain ⟨r', hr', rfl⟩ := forward_alone hgs hn hn' hfuel hdisjoint hr
  have hkind := halike.kindAlone_eq hr'
  have hset : Caches (SourceKind d g) s.graph
      (setAccessKind s.graph index (defaultAccessKind d n.op r'.access_kind)) :=
    caches_setAccessKind hn' (by rw [hfresh]) ⟨halike.direction, hkind⟩
  refine ⟨hkind, h.caches.trans hset, h.shares.subset.trans Finset.subset_union_right,
    fun pc hpc => ?_⟩
  rcases Finset.mem_union.1 hpc with hpc | hpc
  · exact .inr ⟨index, hindex, passed_eq hn ▸ (sees_aloneWalk hr').2 ▸ hpc, _,
      find?_setAccessKind_self hn' _, Option.some_ne_none _⟩
  · exact ((h.shares.insert index).caches hset).shared pc hpc

/-- A turn of a search that shares what was visited finds what the walk sees, if this stays apart.
-/
theorem Agrees.turn {s s' : Search} {κ : Option AccessKind} (hsearch : Simulates d g fuel)
    (hg : Caches (fun _ _ => True) g g') (hsources : SourcesRight d g g')
    (h : Agrees d g g' inst w s) (hvec : s.access_kind.vec_size = vecSizeOf inst.op)
    (hfuel : unvisited g s.visited < fuel)
    (hapart : Apart d g (walkEdge g false (apartSource d g fuel)
      (walk g false (apartSource d g) fuel) inst w edge))
    (hturn : EdgeTurn d (initAccessKind d fuel) { inst with access_kind := κ } false s edge s') :
    Agrees d g g' inst
      (walkEdge g false (apartSource d g fuel) (walk g false (apartSource d g) fuel) inst w edge)
      s' := by
  have hgs : Caches (fun _ _ => True) g s.graph := hg.trans (h.caches.mono fun _ _ _ => trivial)
  unfold walkEdge at hapart ⊢
  by_cases hcomplete : s.access_kind.isComplete
  · rw [hturn.eq_of_complete hcomplete, if_pos (h.sees.isComplete_eq ▸ hcomplete)]
    exact h
  rw [if_neg (h.sees.isComplete_eq ▸ hcomplete)] at hapart ⊢
  cases hturn with
  | complete hcomplete' => exact absurd hcomplete' hcomplete
  | @move n' r _ hn' hmove hr =>
    obtain ⟨n, κ', hn, rfl⟩ := hgs.find_old hn'
    simp only [hn, if_pos hmove] at hapart ⊢
    have hagrees := hsearch n κ' s.graph s.visited w.visited w.memory r hgs
      (hsources.caches hg h.caches) (mem_pcsOf.2 ⟨_, n, hn, rfl⟩) hfuel h.shares hr
      (hapart.mono ⟨subset_rfl, subset_rfl⟩)
    exact ⟨h.sees.takeOver hvec false n.op hagrees.sees.toShows, h.caches.trans hagrees.caches,
      hagrees.shares⟩
  | address _ _ _ _ hload => cases hload
  | @cached n' k _ hn' hmove hmemory _ hk =>
    obtain ⟨n, κ', hn, rfl⟩ := hgs.find_old hn'
    obtain rfl : κ' = some k := hk
    simp only [hn, if_neg hmove, if_pos hmemory, Bool.false_eq_true, if_false] at hapart ⊢
    have halike := hapart.alike _ (Finset.mem_insert_self _ _) n hn
    have hkind := hsources.caches hg h.caches _ n k hn halike.direction (by rw [hn']; rfl)
    exact ⟨h.sees.takeOver hvec false n.op (halike.shows hkind), h.caches, h.shares.insert _⟩
  | @reverse n' r _ hn' hmove hmemory _ hnone hr =>
    obtain ⟨n, κ', hn, rfl⟩ := hgs.find_old hn'
    obtain rfl : κ' = none := hnone
    simp only [hn, if_neg hmove, if_pos hmemory, Bool.false_eq_true, if_false] at hapart ⊢
    have halike := hapart.alike _ (Finset.mem_insert_self _ _) n hn
    obtain ⟨hkind, hcaches, hshares⟩ := h.reverse hgs hfuel hn hn' hr hapart
    exact ⟨h.sees.takeOver hvec false n.op (halike.shows hkind), hcaches, hshares⟩
  | @direct n' _ hn' hmove hmemory =>
    obtain ⟨n, κ', hn, rfl⟩ := hgs.find_old hn'
    simp only [hn, if_neg hmove, if_neg hmemory]
    exact ⟨h.sees.direct hvec false n.op, h.caches, h.shares⟩

/-- A search back finds what the walk sees, if this stays apart, whatever was visited by the
searches for sources and whatever kinds of sources are cached. The kinds that it caches are those
that the sources get alone. -/
theorem agrees_initAccessKind (d : DataType) (g : InstructionGraph) (fuel : ℕ) :
    Simulates d g fuel := by
  induction fuel with
  | zero =>
    intro inst κ g' seen visited memory r _ _ _ _ _ h
    cases h
  | succ fuel ih =>
    intro inst κ g' seen visited memory r hg hsources hinst hfuel hshares h hapart
    by_cases hpc : inst.pc ∈ visited
    · rw [initAccessKind_of_mem (show ({ inst with access_kind := κ } : Instruction).pc ∈ seen from
        hshares.subset hpc)] at h
      cases h
      rw [walk_of_mem hpc]
      exact ⟨sees_nil inst, .refl _, hshares⟩
    -- The instruction is not visited by another search either, since this one passes it.
    have hgrowing := growing_apartSource d g
    have hseen : ({ inst with access_kind := κ } : Instruction).pc ∉ seen := by
      intro hmem
      obtain ⟨index, hindex, hpassed, -⟩ := (hshares.shared _ hmem).resolve_left hpc
      exact Finset.disjoint_left.1
        (hapart.back index ((hgrowing.walk inst visited memory).2 hindex)) hpassed
        (hgrowing.pc_mem inst visited memory)
    have hlt := unvisited_insert_lt hinst hseen
    rw [initAccessKind_of_notMem hseen, hg.edgesOf_eq] at h
    rw [walk_of_notMem hpc] at hapart ⊢
    refine (foldlM_invariant_handled (I := fun before s =>
      Apart d g (before.foldl (walkEdge g false (apartSource d g fuel)
        (walk g false (apartSource d g) fuel) inst) (startWalk inst visited memory)) →
      s.access_kind.vec_size = vecSizeOf inst.op ∧ insert inst.pc seen ⊆ s.visited ∧
        Agrees d g g' inst (before.foldl (walkEdge g false (apartSource d g fuel)
          (walk g false (apartSource d g) fuel) inst) (startWalk inst visited memory)) s)
      (fun before edge s s' hs _ hstep => ?_) (fun _ => ?_) h hapart).2.2
    · intro hafter
      rw [List.foldl_append] at hafter ⊢
      obtain ⟨hvec, hsub, hagrees⟩ := hs (hafter.mono (hgrowing.walkEdge inst _ edge))
      have hturn := searchEdge_cases hstep
      have hle : unvisited g s.visited ≤ unvisited g (insert inst.pc seen) :=
        Finset.card_le_card (Finset.sdiff_subset_sdiff subset_rfl hsub)
      exact ⟨hturn.vec_size_eq.trans hvec, hsub.trans (frame_searchEdge hstep).2,
        hagrees.turn ih hg hsources hvec (by omega) hafter hturn⟩
    · refine ⟨rfl, subset_rfl, sees_startKind inst visited memory, .refl _,
        Finset.insert_subset_insert _ hshares.subset, fun pc hpc => ?_⟩
      rcases Finset.mem_insert.1 hpc with rfl | hpc
      · exact .inl (Finset.mem_insert_self _ _)
      · exact (hshares.shared pc hpc).imp_left Finset.mem_insert_of_mem

/-! ## The analysis -/

/-- A kind of an instruction is the one that a search for it alone gives. For a store the search
alone need not have a result, as it may read a register that is not there. -/
def RightKind (d : DataType) (g : InstructionGraph) (inst : Instruction) (k : AccessKind) : Prop :=
  (∀ k', kindAlone d g inst = some k' → k' = k) ∧
    (searchDirection inst.op ≠ some false → kindAlone d g inst = some k)

theorem RightKind.of_kindAlone (h : kindAlone d g inst = some k) : RightKind d g inst k :=
  ⟨fun _ hk' => Option.some_injective _ (hk'.symm.trans h), fun _ => h⟩

/-- The kinds of sources are right while a store is searched for, if those that are cached are. -/
theorem sourcesRight_allocate (hg : NoKinds g) (hcaches : Caches (RightKind d g) g g')
    (hinst : g.nodes.find? index = some inst) (hstore : searchDirection inst.op = some false) :
    SourcesRight d g (setAccessKind g' index {}) := by
  intro index' inst' k hinst' hsource hk
  have hne : index' ≠ index := by
    rintro rfl
    cases hinst.symm.trans hinst'
    exact hsource hstore
  rw [find?_setAccessKind_of_ne hne] at hk
  rcases hcaches.node index' with hsame | ⟨n, k', hn, -, hk', hnew⟩
  · rw [hsame, hinst', Option.bind_some, hg index' inst' hinst'] at hk
    cases hk
  · obtain rfl := Option.some_injective _ (hn.symm.trans hinst')
    rw [hnew] at hk
    cases hk
    exact hk'.2 hsource

/-- In a graph without kinds they are right. -/
theorem NoKinds.sourcesRight (hg : NoKinds g) : SourcesRight d g g := by
  intro index inst k hinst _ hk
  rw [hinst, Option.bind_some, hg index inst hinst] at hk
  cases hk

/-- The search back from a store, in a graph with kinds of sources or without, finds what the walk
sees, if the walks stay apart. -/
theorem agrees_alone {r : Search} (hg : Caches (fun _ _ => True) g g')
    (hsources : SourcesRight d g g') (hinst : g.nodes.find? index = some inst)
    (h : initAccessKind d (g.nodes.size + 1) inst g' ∅ false = some r)
    (hapart : Apart d g (apartWalk d g inst)) :
    Agrees d g g' inst (apartWalk d g inst) r :=
  agrees_initAccessKind d g _ inst inst.access_kind g' ∅ ∅ ∅ r hg hsources
    (mem_pcsOf.2 ⟨index, inst, hinst, rfl⟩) (unvisited_lt_size g ∅)
    ⟨subset_rfl, fun _ hpc => .inl hpc⟩ h hapart

/-- The search for the kind of an instruction, in a graph with kinds that searches alone give, gives
the kind that a search alone gives, and so do the searches for what it caches. -/
theorem searchKind_alone {r : Search} (hg : NoKinds g) (hcaches : Caches (RightKind d g) g g')
    (hinst : g.nodes.find? index = some inst) (hinst' : g'.nodes.find? index = some inst)
    (hmemory : contains inst.op "MEMORY".toList) (hapart : SearchesApart d g index)
    (h : searchKind d (g.nodes.size + 1) inst (setAccessKind g' index {}) = some r) :
    Caches (RightKind d g) (setAccessKind g' index {}) r.graph ∧
      RightKind d g inst (defaultAccessKind d inst.op r.access_kind) := by
  have hallocated : Caches (fun _ _ => True) g (setAccessKind g' index {}) :=
    (hcaches.mono fun _ _ _ => trivial).trans
      (caches_setAccessKind hinst' (hg index inst hinst) trivial)
  unfold searchKind at h
  cases hdirection : searchDirection inst.op with
  | none =>
    rw [hdirection] at h
    cases h
    exact ⟨.refl _, .of_kindAlone (kindAlone_of_none hdirection)⟩
  | some load =>
    rw [hdirection] at h
    cases load with
    | true =>
      -- The search forward does not look at kinds.
      obtain ⟨r', hr', rfl⟩ := initAccessKind_alone hallocated
        (show initAccessKind d (g.nodes.size + 1) { inst with access_kind := inst.access_kind } _
          (∅ ∪ ∅) true = some r from h) (Finset.disjoint_empty_right _)
      exact ⟨.refl _, .of_kindAlone (by rw [kindAlone_of_load hdirection, hr', Option.map_some])⟩
    | false =>
      -- Both searches find what the walk sees.
      have hapart := hapart inst hinst hmemory hdirection
      have hagrees := agrees_alone hallocated (sourcesRight_allocate hg hcaches hinst hdirection)
        hinst h hapart
      refine ⟨hagrees.caches.mono fun n k hk => .of_kindAlone hk.2, fun k' hk' => ?_,
        fun hsource => absurd hdirection hsource⟩
      unfold kindAlone searchKind at hk'
      rw [hdirection] at hk'
      obtain ⟨r', hr', rfl⟩ := Option.map_eq_some_iff.1 hk'
      have halone := agrees_alone (.refl g) hg.sourcesRight hinst hr' hapart
      exact ((halone.sees.kindSeen d).eq_iff (hagrees.sees.kindSeen d)).2 ⟨rfl, rfl⟩

/-- A turn of the analysis leaves and caches kinds that searches alone give. -/
theorem caches_analyzeNode_alone (hg : NoKinds g) (hcaches : Caches (RightKind d g) g g')
    (hapart : SearchesApart d g index)
    (h : analyzeNode d (g.nodes.size + 1) g' index = some g'') :
    Caches (RightKind d g) g' g'' := by
  obtain ⟨inst, hinst, ⟨-, rfl⟩ | ⟨hmemory, hnone, r, hr, rfl⟩⟩ := analyzeNode_cases h
  · exact .refl _
  obtain ⟨hsearch, hkind⟩ := searchKind_alone hg hcaches (hcaches.find_of_none hinst hnone) hinst
    hmemory hapart hr
  exact hsearch.setAccessKind hinst hnone hkind

/-- The kind that a search alone gives is what its walk sees. -/
theorem kindSeen_kindAlone (hg : NoKinds g) (hk : kindAlone d g inst = some k) :
    KindSeen d inst k (aloneSights d g inst) := by
  obtain ⟨r, hr, rfl⟩ := Option.map_eq_some_iff.1 hk
  have hstart : Searching d g none g ∅ :=
    ⟨⟨.refl g, fun i n κ _ => hg.knows.kind i n κ trivial⟩, fun _ => nofun⟩
  exact (tracks_searchKind hstart (show searchKind d _ { inst with access_kind := inst.access_kind }
    g = some r from hr)).sees.kindSeen d

/-- In a run of the analysis, in any order, a memory instruction gets the kind that a search for it
alone gives exactly when the walks see it. -/
theorem kind_eq_alone_iff (hg : NoKinds g) {indices : List ℕ}
    (h : indices.foldlM (analyzeNode d (g.nodes.size + 1)) g = some g') (hindex : index ∈ indices)
    (hinst : g.nodes.find? index = some inst) (hmemory : contains inst.op "MEMORY".toList)
    (hk : kindAlone d g inst = some k) :
    (g'.nodes.find? index).bind Instruction.access_kind = some k ↔ SeenAlone d g indices index := by
  obtain ⟨k', sights, hinst', hsights, hk'⟩ := hg.kindSeen_analysis h hindex hinst hmemory
  have hiff := hk'.eq_iff (kindSeen_kindAlone hg hk)
  rw [hinst', Option.bind_some, Option.some_inj, hiff]
  refine ⟨fun hsame n hn sights' hsights' => ?_, fun hseen => hseen inst hinst sights hsights⟩
  obtain rfl := Option.some_injective _ (hinst.symm.trans hn)
  obtain rfl := Option.some_injective _ (hsights.symm.trans hsights')
  exact hsame

/-- In a run of the analysis, in any order, that comes to no store whose walks cross, the memory
instructions get the kinds that searches for them alone give. -/
theorem kind_eq_alone (hg : NoKinds g) {indices : List ℕ}
    (hapart : ∀ i ∈ indices, SearchesApart d g i)
    (h : indices.foldlM (analyzeNode d (g.nodes.size + 1)) g = some g') (hindex : index ∈ indices)
    (hinst : g.nodes.find? index = some inst) (hmemory : contains inst.op "MEMORY".toList)
    (hk : kindAlone d g inst = some k) :
    (g'.nodes.find? index).bind Instruction.access_kind = some k := by
  have hcaches : Caches (RightKind d g) g g' :=
    foldlM_invariant (I := Caches (RightKind d g) g)
      (fun s index s' hs hindex hstep =>
        hs.trans (caches_analyzeNode_alone hg hs (hapart index hindex) hstep)) (.refl g) h
  rcases hcaches.node index with hsame | ⟨n, k', hn, -, hk', hnew⟩
  · exact absurd (hg index inst hinst)
      (access_kind_analyzeNodes h hindex (hsame.trans hinst) hmemory)
  · obtain rfl := Option.some_injective _ (hn.symm.trans hinst)
    rw [hnew, hk'.1 k hk]
    rfl

end

/-- A file with a load whose result is stored, and moved to an integer addition, and an atomic whose
result is stored. -/
def apartFile : List FunctionEntry :=
  [⟨0, 0, [[⟨0, "MEMORY.GLOBAL.STORE.32".toList, -1, [], [(2, []), (3, []), (5, [32])], [], []⟩,
    ⟨16, "INTEGER.IMAD.MOVE".toList, -1, [6], [(5, [32])], [], []⟩,
    ⟨32, "MEMORY.GLOBAL.LOAD.32".toList, -1, [5], [(7, [])], [], []⟩,
    ⟨48, "INTEGER.IADD3".toList, -1, [9], [(6, [16])], [], []⟩,
    ⟨64, "MEMORY.GLOBAL.STORE.32".toList, -1, [], [(2, []), (3, []), (8, [80])], [], []⟩,
    ⟨80, "MEMORY.GLOBAL.ATOMIC.32".toList, -1, [8], [(2, []), (3, [])], [], []⟩]]⟩]

/-- A file with a load whose result is stored, by way of a move or not, and added as an integer. -/
def crossedFile : List FunctionEntry :=
  [⟨0, 0, [[⟨0, "MEMORY.GLOBAL.STORE.32".toList, -1, [], [(2, []), (3, []), (5, [16, 32])], [], []⟩,
    ⟨16, "INTEGER.IMAD.MOVE".toList, -1, [5], [(5, [32])], [], []⟩,
    ⟨32, "MEMORY.GLOBAL.LOAD.32".toList, -1, [5], [(7, [])], [], []⟩,
    ⟨48, "INTEGER.IADD3".toList, -1, [9], [(5, [16])], [], []⟩]]⟩]

end TenProf.Binutils
