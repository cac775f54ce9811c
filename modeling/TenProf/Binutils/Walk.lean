import TenProf.Binutils.SearchFrame

/-!
# What a search sees

Which dependencies a search for an access kind looks at, and what it learns from them, is a matter
of the dependency graph. A walk goes from an instruction over its dependencies, depth first through
the MOVEs that were not visited, and stops at an instruction as soon as a size and a type were seen
from it. What it sees is a list (`Sight`): the sizes and types that the ops of the neighbours name,
the sizes of addresses, and what is known of the sources of stores. Where the search has a result,
it visits what the walk visits, and what it finds is the first size in the list and the last type
(`sees_initAccessKind`).
-/

namespace TenProf.Binutils

/-! ## Walks -/

/-- Something that is seen: a unit size, or 0, and a data type, or UNKNOWN. -/
structure Sight where
  unit_size : ℕ
  data_type : DataType
  deriving DecidableEq, Repr

/-- The first unit size that is seen, or 0. -/
def firstSize : List Sight → ℕ
  | [] => 0
  | t :: sights => if t.unit_size = 0 then firstSize sights else t.unit_size

/-- The last data type that is seen, or UNKNOWN. -/
def lastType : List Sight → DataType
  | [] => .UNKNOWN
  | t :: sights => if lastType sights = .UNKNOWN then t.data_type else lastType sights

/-- A size and a type were seen. -/
def enough (sights : List Sight) : Bool := lastType sights ≠ .UNKNOWN && firstSize sights ≠ 0

/-- What is taken over of what is seen elsewhere: the sizes, and the types where none is known. -/
def takenOver (known : DataType) (sights : List Sight) : List Sight :=
  if known = .UNKNOWN then sights else sights.map fun t => { t with data_type := .UNKNOWN }

/-- What is seen of a use as an address. -/
def addressSights (inst neighbor_inst : Instruction) : List Sight :=
  match (addressUse inst neighbor_inst).join with
  | some size => [⟨size, .INT⟩]
  | none => []

/-- What is seen on a walk, in this order, the pcs that were visited, and what is kept of the memory
instructions. -/
structure Walk (σ : Type*) where
  sights : List Sight
  visited : Finset ℕ
  memory : σ

/-- A walk sees a neighbour, and takes over what is seen behind it. -/
def Walk.see {σ : Type*} (w : Walk σ) (named : Sight) (behind : Walk σ) : Walk σ where
  sights := w.sights ++ named :: takenOver (lastType w.sights) behind.sights
  visited := behind.visited
  memory := behind.memory

section

variable {σ : Type*}

/-- A walk looks at the dependency of an edge, unless enough was seen. It sees the size that the op
of the neighbour names, cut to the vector size of the instruction, and then what is behind a MOVE,
the use as an address, what is known of the source of a store (`source`), or the type of an
arithmetic instruction, which replaces one that is known. `walk` goes on behind a MOVE. -/
def walkEdge (g : InstructionGraph) (load : Bool)
    (source : ℕ → Instruction → Finset ℕ → σ → Walk σ)
    (walk : Instruction → Finset ℕ → σ → Walk σ) (inst : Instruction) (w : Walk σ)
    (edge : InstructionDependencyIndex) : Walk σ :=
  if enough w.sights then w
  else
    let pc := neighborPc load edge
    match g.nodes.find? pc with
    | none => w
    | some n =>
      let named : Sight := ⟨directUnitSize load (vecSizeOf inst.op) n.op, .UNKNOWN⟩
      if contains n.op "MOVE".toList then w.see named (walk n w.visited w.memory)
      else if contains n.op "MEMORY".toList then
        if load then w.see named ⟨addressSights inst n, w.visited, w.memory⟩
        else w.see named (source pc n w.visited w.memory)
      else
        { w with
          sights := w.sights ++ [named, ⟨0, directDataType load n.op (lastType w.sights)⟩] }

/-- A walk starts at an instruction, which is visited then. What a uniform register holds is an
integer. -/
def startWalk (inst : Instruction) (visited : Finset ℕ) (memory : σ) : Walk σ where
  sights := [⟨0, if contains inst.op "UNIFORM".toList then .INT else .UNKNOWN⟩]
  visited := insert inst.pc visited
  memory := memory

/-- The walk from an instruction, with a bound on its depth. -/
def walk (g : InstructionGraph) (load : Bool)
    (source : ℕ → ℕ → Instruction → Finset ℕ → σ → Walk σ) :
    ℕ → Instruction → Finset ℕ → σ → Walk σ
  | 0, _, visited, memory => ⟨[], visited, memory⟩
  | fuel + 1, inst, visited, memory =>
    if inst.pc ∈ visited then ⟨[], visited, memory⟩
    else
      (edgesOf g inst.pc load).foldl
        (walkEdge g load (source fuel) (walk g load source fuel) inst)
        (startWalk inst visited memory)

end

/-- A walk forward asks nothing of sources. -/
def noSource (_fuel _pc : ℕ) (_n : Instruction) (visited : Finset ℕ) (_memory : Unit) : Walk Unit :=
  ⟨[], visited, ()⟩

/-- The walk forward from an instruction. -/
def forwardWalk (g : InstructionGraph) (fuel : ℕ) (inst : Instruction) (visited : Finset ℕ) :
    Walk Unit :=
  walk g true noSource fuel inst visited ()

/-! ## Lists of what is seen -/

section

variable {sights more : List Sight}

theorem firstSize_append (sights more : List Sight) :
    firstSize (sights ++ more) =
      if firstSize sights = 0 then firstSize more else firstSize sights := by
  induction sights with
  | nil => rfl
  | cons t sights ih =>
    rw [List.cons_append, firstSize, firstSize, ih]
    split_ifs <;> rfl

theorem lastType_append (sights more : List Sight) :
    lastType (sights ++ more) =
      if lastType more = .UNKNOWN then lastType sights else lastType more := by
  induction sights with
  | nil =>
    rw [List.nil_append]
    split_ifs with h
    · exact h
    · rfl
  | cons t sights ih =>
    rw [List.cons_append, lastType, ih, lastType]
    split_ifs <;> rfl

/-- A size alone does not change the type. -/
theorem lastType_cons_unknown (unit_size : ℕ) (sights : List Sight) :
    lastType (⟨unit_size, .UNKNOWN⟩ :: sights) = lastType sights := by
  rw [lastType]
  split_ifs with h
  · exact h.symm
  · rfl

theorem firstSize_takenOver (known : DataType) (sights : List Sight) :
    firstSize (takenOver known sights) = firstSize sights := by
  unfold takenOver
  split_ifs
  · rfl
  · induction sights with
    | nil => rfl
    | cons t sights ih => rw [List.map_cons, firstSize, firstSize, ih]

theorem lastType_takenOver (known : DataType) (sights : List Sight) :
    lastType (takenOver known sights) = if known = .UNKNOWN then lastType sights else .UNKNOWN := by
  unfold takenOver
  split_ifs
  · rfl
  · induction sights with
    | nil => rfl
    | cons t sights ih => rw [List.map_cons, lastType, if_pos ih]

/-- The first size is one of those that are seen. -/
theorem firstSize_mem (h : firstSize sights ≠ 0) :
    ∃ t ∈ sights, t.unit_size = firstSize sights := by
  induction sights with
  | nil => exact absurd rfl h
  | cons t sights ih =>
    rw [firstSize] at h ⊢
    split_ifs at h ⊢ with hzero
    · obtain ⟨t', ht', heq⟩ := ih h
      exact ⟨t', List.mem_cons_of_mem _ ht', heq⟩
    · exact ⟨t, List.mem_cons_self, rfl⟩

end

/-! ## The sizes -/

/-- The unit sizes. -/
def unitSizes : List ℕ := [8, 16, 32, 64]

/-- The sizes of accesses. -/
def vecSizes : List ℕ := [8, 16, 32, 64, 128]

theorem vecSizeOf_mem (op : CString) : vecSizeOf op ∈ vecSizes := by
  unfold vecSizeOf
  split_ifs <;> decide

theorem directUnitSize_mem (load : Bool) (op neighbor_op : CString) :
    directUnitSize load (vecSizeOf op) neighbor_op ∈ 0 :: unitSizes := by
  have hmin : ∀ vec ∈ vecSizes, ∀ size ∈ unitSizes, min size vec ∈ 0 :: unitSizes := by decide
  have hvec := vecSizeOf_mem op
  unfold directUnitSize
  split_ifs <;> first | exact hmin _ hvec _ (by decide) | exact List.mem_cons_self

theorem addressUse_mem {inst n : Instruction} {size : ℕ}
    (h : addressUse inst n = some (some size)) : size ∈ 0 :: unitSizes := by
  unfold addressUse at h
  split_ifs at h
  · obtain ⟨src, -, h⟩ := Option.map_eq_some_iff.1 h
    split_ifs at h
    cases h
    decide
  · obtain ⟨src, -, h⟩ := Option.bind_eq_some_iff.1 h
    split_ifs at h
    · cases h
      decide
    · obtain ⟨src, -, h⟩ := Option.map_eq_some_iff.1 h
      split_ifs at h
      cases h
      decide

/-- What is seen has sizes from the list, or none. -/
def Sized (sights : List Sight) : Prop := ∀ t ∈ sights, t.unit_size ∈ 0 :: unitSizes

theorem sized_addressSights (inst n : Instruction) : Sized (addressSights inst n) := by
  intro t ht
  unfold addressSights at ht
  split at ht
  · next size huse =>
    obtain rfl := List.mem_singleton.1 ht
    exact addressUse_mem (Option.join_eq_some_iff.1 huse)
  · cases ht

theorem Sized.takenOver {sights : List Sight} (h : Sized sights) (known : DataType) :
    Sized (takenOver known sights) := by
  unfold Binutils.takenOver
  split_ifs
  · exact h
  · exact List.forall_mem_map.2 h

theorem Sized.firstSize_mem {sights : List Sight} (h : Sized sights) :
    firstSize sights ∈ 0 :: unitSizes := by
  by_cases hzero : firstSize sights = 0
  · rw [hzero]
    exact List.mem_cons_self
  · obtain ⟨t, ht, heq⟩ := Binutils.firstSize_mem hzero
    exact heq ▸ h t ht

/-! ## What a search finds -/

/-- A kind is what is seen: the first size and the last type. -/
structure Shows (k : AccessKind) (sights : List Sight) : Prop where
  unit_size : k.unit_size = firstSize sights
  data_type : k.data_type = lastType sights
  sized : Sized sights

/-- A kind that is found by a search for an instruction is what is seen, with the vector size of the
instruction. -/
structure Sees (inst : Instruction) (k : AccessKind) (sights : List Sight) : Prop
    extends Shows k sights where
  vec_size : k.vec_size = vecSizeOf inst.op ∨ k.vec_size = 0 ∧ k.unit_size = 0

section

variable {inst : Instruction} {k k' : AccessKind} {sights more : List Sight}

theorem sized_nil : Sized [] := fun _ ht => absurd ht List.not_mem_nil

theorem shows_nil : Shows {} [] := ⟨rfl, rfl, sized_nil⟩

theorem sees_nil (inst : Instruction) : Sees inst {} [] := ⟨shows_nil, .inr ⟨rfl, rfl⟩⟩

/-- What is known when a search starts. -/
theorem sees_startKind {σ : Type*} (inst : Instruction) (visited : Finset ℕ) (memory : σ) :
    Sees inst (startKind inst.op) (startWalk inst visited memory).sights where
  vec_size := .inl rfl
  unit_size := rfl
  data_type := rfl
  sized := List.forall_mem_singleton.2 List.mem_cons_self

/-- The search is complete when enough was seen. -/
theorem Shows.isComplete_eq (h : Shows k sights) : k.isComplete = enough sights := by
  unfold AccessKind.isComplete enough
  rw [h.unit_size, h.data_type]

/-- A unit size that is known stays, and a data type that is seen is the one. -/
theorem Shows.append (h : Shows k sights)
    (hunit : k'.unit_size = if k.unit_size = 0 then firstSize more else k.unit_size)
    (htype : k'.data_type = if lastType more = .UNKNOWN then k.data_type else lastType more)
    (hsized : Sized more) : Shows k' (sights ++ more) where
  unit_size := by rw [hunit, firstSize_append, h.unit_size]
  data_type := by rw [htype, lastType_append, h.data_type]
  sized := List.forall_mem_append.2 ⟨h.sized, hsized⟩

/-- The data type after one is taken over, where none is known. -/
theorem takeOver_data_type (known found : DataType) :
    (if known = .UNKNOWN then found else known) =
      if (if known = .UNKNOWN then found else .UNKNOWN) = .UNKNOWN then known
      else if known = .UNKNOWN then found else .UNKNOWN := by
  split_ifs <;> simp_all

/-- What the op of a neighbour names is seen first, then what is taken over from it. -/
theorem Sees.takeOver (h : Sees inst k sights) (hvec : k.vec_size = vecSizeOf inst.op) (load : Bool)
    (op : CString) (hmore : Shows k' more) :
    Sees inst ((k.detect load op).takeOver k'.unit_size k'.data_type)
      (sights ++ ⟨directUnitSize load (vecSizeOf inst.op) op, .UNKNOWN⟩ ::
        takenOver (lastType sights) more) := by
  refine ⟨h.append ?_ ?_ (List.forall_mem_cons.2
    ⟨directUnitSize_mem _ _ _, hmore.sized.takenOver _⟩), .inl hvec⟩
  · unfold AccessKind.takeOver AccessKind.detect
    rw [firstSize, firstSize_takenOver, hvec, hmore.unit_size]
    by_cases hzero : k.unit_size = 0 <;> simp only [hzero, if_true, if_false]
  · rw [lastType_cons_unknown, lastType_takenOver, ← h.data_type, ← hmore.data_type]
    exact takeOver_data_type _ _

theorem AccessKind.takeOver_nothing (k : AccessKind) : k.takeOver 0 .UNKNOWN = k := by
  obtain ⟨vec_size, unit_size, data_type⟩ := k
  simp only [AccessKind.takeOver, AccessKind.mk.injEq, true_and]
  constructor
  · split_ifs with hzero
    · exact hzero.symm
    · rfl
  · split_ifs with hunknown
    · exact hunknown.symm
    · rfl

/-- The use as an address is seen as well. -/
theorem Sees.takeAddress (h : Sees inst k sights) (hvec : k.vec_size = vecSizeOf inst.op)
    {n : Instruction} {use : Option ℕ} (huse : addressUse inst n = some use) :
    Sees inst ((k.detect true n.op).takeAddress use)
      (sights ++ ⟨directUnitSize true (vecSizeOf inst.op) n.op, .UNKNOWN⟩ ::
        takenOver (lastType sights) (addressSights inst n)) := by
  have hsights : addressSights inst n = use.elim [] fun size => [⟨size, .INT⟩] := by
    unfold addressSights
    rw [huse]
    cases use <;> rfl
  have hsized := sized_addressSights inst n
  rw [hsights] at hsized ⊢
  cases use with
  | none =>
    rw [← AccessKind.takeOver_nothing (AccessKind.takeAddress _ none)]
    exact h.takeOver hvec true n.op shows_nil
  | some size =>
    have hshows : Shows ⟨0, size, .INT⟩ [⟨size, .INT⟩] := by
      refine ⟨?_, rfl, hsized⟩
      show size = if size = 0 then 0 else size
      split_ifs with hzero
      · exact hzero
      · rfl
    exact h.takeOver hvec true n.op hshows

/-- A data type that is known is not forgotten. -/
theorem eq_unknown_of_directDataType {load : Bool} {op : CString} {data_type : DataType}
    (h : directDataType load op data_type = .UNKNOWN) : data_type = .UNKNOWN := by
  unfold directDataType at h
  split_ifs at h <;> simp_all

/-- The type of an arithmetic instruction is seen. -/
theorem Sees.direct (h : Sees inst k sights) (hvec : k.vec_size = vecSizeOf inst.op) (load : Bool)
    (op : CString) :
    Sees inst { k.detect load op with
        data_type := directDataType load op (k.detect load op).data_type }
      (sights ++ [⟨directUnitSize load (vecSizeOf inst.op) op, .UNKNOWN⟩,
        ⟨0, directDataType load op (lastType sights)⟩]) := by
  refine ⟨h.append ?_ ?_ ?_, .inl hvec⟩
  · unfold AccessKind.detect
    simp only [firstSize, hvec, if_true]
    split_ifs with hzero hnamed
    · exact hnamed
    · rfl
    · rfl
  · rw [lastType_cons_unknown, ← h.data_type]
    show directDataType load op k.data_type =
      if directDataType load op k.data_type = .UNKNOWN then k.data_type else _
    split_ifs with hunknown
    · rw [hunknown, eq_unknown_of_directDataType hunknown]
    · rfl
  · exact List.forall_mem_cons.2 ⟨directUnitSize_mem _ _ _,
      List.forall_mem_singleton.2 List.mem_cons_self⟩

end

/-! ## Searches and walks -/

section

variable {σ : Type*} {d : DataType} {g g' : InstructionGraph} {load : Bool}
  {source : ℕ → ℕ → Instruction → Finset ℕ → σ → Walk σ} {known : InstructionGraph → σ → Prop}
  {fuel : ℕ} {inst : Instruction} {visited : Finset ℕ} {memory : σ} {r : Search}

theorem walk_of_mem (hpc : inst.pc ∈ visited) :
    walk g load source (fuel + 1) inst visited memory = ⟨[], visited, memory⟩ := by
  rw [walk, if_pos hpc]

theorem walk_of_notMem (hpc : inst.pc ∉ visited) :
    walk g load source (fuel + 1) inst visited memory =
      (edgesOf g inst.pc load).foldl
        (walkEdge g load (source fuel) (walk g load source fuel) inst)
        (startWalk inst visited memory) := by
  rw [walk, if_neg hpc]

/-- What a walk back learns of the sources of stores is what the search does: the kind that is
cached, or the one that the search forward from the source finds. What the walk keeps is `known` of
the graph with the kinds that are cached. -/
structure Answers (d : DataType) (g : InstructionGraph)
    (source : ℕ → ℕ → Instruction → Finset ℕ → σ → Walk σ) (known : InstructionGraph → σ → Prop) :
    Prop where
  cached : ∀ fuel visited {pc n k g' memory}, known g' memory →
    g.nodes.find? pc = some n → contains n.op "MEMORY".toList →
    g'.nodes.find? pc = some { n with access_kind := some k } →
    ∃ sights, source fuel pc n visited memory = ⟨sights, visited, memory⟩ ∧ Shows k sights
  reverse : ∀ {fuel pc n visited g' memory r}, known g' memory →
    g.nodes.find? pc = some n → contains n.op "MEMORY".toList →
    g'.nodes.find? pc = some { n with access_kind := none } →
    initAccessKind d fuel { n with access_kind := none } g' visited true = some r →
    ∃ sights memory', source fuel pc n visited memory = ⟨sights, r.visited, memory'⟩ ∧
      Shows (defaultAccessKind d n.op r.access_kind) sights ∧
      known (setAccessKind r.graph pc (defaultAccessKind d n.op r.access_kind)) memory'

/-- The state of a search is that of a walk. -/
structure Tracks (known : InstructionGraph → σ → Prop) (inst : Instruction) (s : Search)
    (w : Walk σ) : Prop where
  sees : Sees inst s.access_kind w.sights
  visited : s.visited = w.visited
  known : known s.graph w.memory

/-- The turns of a search do what those of the walk do. -/
theorem Tracks.turn {s s' : Search} {w : Walk σ} {edge : InstructionDependencyIndex}
    {κ : Option AccessKind} (h : Tracks known inst s w)
    (hvec : s.access_kind.vec_size = vecSizeOf inst.op)
    (hknown : ∀ {g' memory}, known g' memory → Caches (fun _ _ => True) g g')
    (hsource : load = false → Answers d g source known)
    (hsearch : ∀ {n κ r}, initAccessKind d fuel { n with access_kind := κ } s.graph s.visited load =
      some r → Tracks known n r (walk g load source fuel n w.visited w.memory))
    (hturn : EdgeTurn d (initAccessKind d fuel) { inst with access_kind := κ } load s edge s') :
    Tracks known inst s'
      (walkEdge g load (source fuel) (walk g load source fuel) inst w edge) := by
  have hgs := hknown h.known
  unfold walkEdge
  by_cases hcomplete : s.access_kind.isComplete
  · rw [hturn.eq_of_complete hcomplete, if_pos (h.sees.isComplete_eq ▸ hcomplete)]
    exact h
  rw [if_neg (h.sees.isComplete_eq ▸ hcomplete)]
  cases hturn with
  | complete hcomplete' => exact absurd hcomplete' hcomplete
  | @move n' r _ hn' hmove hr =>
    obtain ⟨n, κ, hn, rfl⟩ := hgs.find_old hn'
    have hbehind := hsearch hr
    simp only [hn, if_pos hmove]
    exact ⟨h.sees.takeOver hvec load n.op hbehind.sees.toShows, hbehind.visited, hbehind.known⟩
  | @address n' use _ hn' hmove hmemory hload huse =>
    obtain ⟨n, κ, hn, rfl⟩ := hgs.find_old hn'
    subst hload
    simp only [hn, if_neg hmove, if_pos hmemory, if_true]
    exact ⟨h.sees.takeAddress hvec huse, h.visited, h.known⟩
  | @cached n' k _ hn' hmove hmemory hload hk =>
    obtain ⟨n, κ, hn, rfl⟩ := hgs.find_old hn'
    obtain rfl : κ = some k := hk
    obtain ⟨sights, hseen, hshows⟩ :=
      (hsource hload).cached fuel w.visited h.known hn hmemory hn'
    subst hload
    simp only [hn, if_neg hmove, if_pos hmemory, Bool.false_eq_true, if_false]
    rw [hseen]
    exact ⟨h.sees.takeOver hvec false n.op hshows, h.visited, h.known⟩
  | @reverse n' r _ hn' hmove hmemory hload hnone hr =>
    obtain ⟨n, κ, hn, rfl⟩ := hgs.find_old hn'
    obtain rfl : κ = none := hnone
    obtain ⟨sights, memory', hseen, hshows, hknown'⟩ :=
      (hsource hload).reverse h.known hn hmemory hn' hr
    subst hload
    simp only [hn, if_neg hmove, if_pos hmemory, Bool.false_eq_true, if_false]
    rw [← h.visited, hseen]
    exact ⟨h.sees.takeOver hvec false n.op hshows, rfl, hknown'⟩
  | @direct n' _ hn' hmove hmemory =>
    obtain ⟨n, κ, hn, rfl⟩ := hgs.find_old hn'
    simp only [hn, if_neg hmove, if_neg hmemory]
    exact ⟨h.sees.direct hvec load n.op, h.visited, h.known⟩

/-- A search that has a result visits what the walk visits, and what it finds is what the walk
sees. -/
theorem sees_initAccessKind
    (hknown : ∀ {g' memory}, known g' memory → Caches (fun _ _ => True) g g')
    (hsource : load = false → Answers d g source known) {κ : Option AccessKind}
    (h : initAccessKind d fuel { inst with access_kind := κ } g' visited load = some r)
    (hmemory : known g' memory) :
    Tracks known inst r (walk g load source fuel inst visited memory) := by
  induction fuel generalizing inst κ g' visited memory r with
  | zero => cases h
  | succ fuel ih =>
    by_cases hpc : ({ inst with access_kind := κ } : Instruction).pc ∈ visited
    · rw [initAccessKind_of_mem hpc] at h
      cases h
      rw [walk_of_mem (show inst.pc ∈ visited from hpc)]
      exact ⟨sees_nil inst, rfl, hmemory⟩
    rw [initAccessKind_of_notMem hpc] at h
    rw [walk_of_notMem (show inst.pc ∉ visited from hpc), ← (hknown hmemory).edgesOf_eq]
    refine (foldlM_invariant_handled (I := fun before s =>
      s.access_kind.vec_size = vecSizeOf inst.op ∧ Tracks known inst s (before.foldl
        (walkEdge g load (source fuel) (walk g load source fuel) inst)
        (startWalk inst visited memory)))
      (fun before edge s s' hs _ hstep => ?_)
      ⟨rfl, sees_startKind inst visited memory, rfl, hmemory⟩ h).2
    have hturn := searchEdge_cases hstep
    refine ⟨hturn.vec_size_eq.trans hs.1, ?_⟩
    rw [List.foldl_append]
    refine hs.2.turn hs.1 hknown hsource (fun hr => ?_) hturn
    rw [← hs.2.visited]
    exact ih hr hs.2.known

/-- A search forward does what the walk forward does, whatever is cached. -/
theorem tracks_forwardWalk {κ : Option AccessKind} (hg : Caches (fun _ _ => True) g g')
    (h : initAccessKind d fuel { inst with access_kind := κ } g' visited true = some r) :
    Tracks (fun g' _ => Caches (fun _ _ => True) g g') inst r (forwardWalk g fuel inst visited) :=
  sees_initAccessKind id (fun hback => Bool.noConfusion hback) h hg

end

end TenProf.Binutils
