import TenProf.Binutils.SearchFrame

/-!
# The dependencies of the instructions

The edges that `InstructionParser::parse` adds: into an instruction, from those that assign what it
reads. The loop over the uniform registers starts where the one over the other registers ended,
instead of at the first one, so that it skips as many uniform registers as there are others
(`hasEdge_dependencyGraph`). `dependenciesRight_iff` says for which files nothing is lost by that.
-/

namespace TenProf.Binutils

/-- The instructions of a file, one for each pc. -/
def instructionsOf (file : List FunctionEntry) : List Instruction :=
  (file.foldl parseInstructions Graph.empty).nodes.toList.map Prod.snd

/-- The position of the first register that is not an address. -/
def dataStart (op : CString) : ℕ :=
  if contains op "STORE".toList then
    if contains op ".SHARED".toList || contains op ".LOCAL".toList then 1 else 2
  else 0

/-- One of some registers is assigned at a pc. -/
def AssignedAt (assign_pcs : OrderedMap ℤ (List ℤ)) (srcs : List ℤ) (pc : ℕ) : Prop :=
  ∃ src ∈ srcs, ∃ src_pc ∈ assign_pcs.findD src [], u64OfInt src_pc = pc

instance (assign_pcs : OrderedMap ℤ (List ℤ)) (srcs : List ℤ) (pc : ℕ) :
    Decidable (AssignedAt assign_pcs srcs pc) :=
  inferInstanceAs (Decidable (∃ src ∈ srcs, ∃ src_pc ∈ assign_pcs.findD src [], _))

/-- An instruction depends on what is at a pc through a data register or a uniform register. -/
def Instruction.DependsOn (inst : Instruction) (pc : ℕ) : Prop :=
  AssignedAt inst.assign_pcs (inst.srcs.drop (dataStart inst.op)) pc ∨
    AssignedAt inst.uassign_pcs inst.usrcs pc

instance (inst : Instruction) (pc : ℕ) : Decidable (inst.DependsOn pc) :=
  inferInstanceAs (Decidable (_ ∨ _))

/-- The edges of a graph are the dependencies of the instructions of a file. -/
def DependenciesRight (file : List FunctionEntry) (g : InstructionGraph) : Prop :=
  ∀ e, g.hasEdge e ↔ ∃ inst ∈ instructionsOf file, e.target = inst.pc ∧ inst.DependsOn e.source

/-- The number of uniform registers that the second loop skips. -/
def Instruction.skipped (inst : Instruction) : ℕ := max (dataStart inst.op) inst.srcs.length

/-- The dependencies of an instruction for which there are edges. -/
def Instruction.Linked (inst : Instruction) (pc : ℕ) : Prop :=
  AssignedAt inst.assign_pcs (inst.srcs.drop (dataStart inst.op)) pc ∨
    AssignedAt inst.uassign_pcs (inst.usrcs.drop inst.skipped) pc

/-! ## The edges -/

/-- Edges that are added one after the other. -/
theorem hasEdge_foldl_addEdge {l : List InstructionDependencyIndex} {g : InstructionGraph}
    {e : InstructionDependencyIndex} :
    (l.foldl (fun g e => g.addEdge e false) g).hasEdge e ↔ e ∈ l ∨ g.hasEdge e := by
  induction l generalizing g with
  | nil => simp
  | cons e' l ih => rw [List.foldl_cons, ih, Graph.hasEdge_addEdge, List.mem_cons, or_left_comm,
      or_assoc]

/-- The edges to an instruction from where some registers are assigned. -/
theorem hasEdge_assigned {assign_pcs : OrderedMap ℤ (List ℤ)} {srcs : List ℤ} {pc : ℕ}
    {g : InstructionGraph} {e : InstructionDependencyIndex} :
    (srcs.foldl (fun g src => (assign_pcs.findD src []).foldl (fun g src_pc =>
      g.addEdge ⟨u64OfInt src_pc, pc⟩ false) g) g).hasEdge e ↔
    (e.target = pc ∧ AssignedAt assign_pcs srcs e.source) ∨ g.hasEdge e := by
  have hflat : (srcs.foldl (fun g src => (assign_pcs.findD src []).foldl (fun g src_pc =>
      g.addEdge ⟨u64OfInt src_pc, pc⟩ false) g) g) =
      (srcs.flatMap fun src => (assign_pcs.findD src []).map fun src_pc =>
        (⟨u64OfInt src_pc, pc⟩ : InstructionDependencyIndex)).foldl
          (fun g e => g.addEdge e false) g := by
    rw [List.foldl_flatMap]
    simp only [List.foldl_map]
  rw [hflat, hasEdge_foldl_addEdge]
  refine or_congr_left ?_
  simp only [List.mem_flatMap, List.mem_map]
  constructor
  · rintro ⟨src, hsrc, src_pc, hpc, rfl⟩
    exact ⟨rfl, src, hsrc, src_pc, hpc, rfl⟩
  · rintro ⟨rfl, src, hsrc, src_pc, hpc, hsource⟩
    exact ⟨src, hsrc, src_pc, hpc, by rw [hsource]⟩

/-- The edges of an instruction. -/
theorem hasEdge_addDependencies {g : InstructionGraph} {inst : Instruction}
    {e : InstructionDependencyIndex} :
    (addDependencies g inst).hasEdge e ↔
      (e.target = inst.pc ∧ inst.Linked e.source) ∨ g.hasEdge e := by
  unfold addDependencies
  simp only
  rw [hasEdge_assigned, hasEdge_assigned, ← or_assoc, ← and_or_left]
  exact or_congr_left (and_congr_right fun _ => or_comm)

/-- The edges of all instructions. -/
theorem hasEdge_foldl_addDependencies {insts : List Instruction} {g : InstructionGraph}
    {e : InstructionDependencyIndex} : (insts.foldl addDependencies g).hasEdge e ↔
      (∃ inst ∈ insts, e.target = inst.pc ∧ inst.Linked e.source) ∨ g.hasEdge e := by
  induction insts generalizing g with
  | nil => simp
  | cons inst insts ih =>
    rw [List.foldl_cons, ih, hasEdge_addDependencies, ← or_assoc]
    simp only [List.mem_cons, exists_eq_or_imp, or_comm]

/-- The nodes of a file come without edges. -/
theorem hasEdge_parseInstructions (file : List FunctionEntry) (e : InstructionDependencyIndex) :
    (file.foldl parseInstructions Graph.empty).hasEdge e = false := by
  refine List.foldlRecOn (motive := fun g : InstructionGraph => g.hasEdge e = false) _ _ rfl
    fun g hg f _ => ?_
  exact List.foldlRecOn (motive := fun g : InstructionGraph => g.hasEdge e = false) _ _ hg
    fun g hg inst _ => hg

/-- The graph of a file has the edges that the loops add. -/
theorem hasEdge_dependencyGraph {file : List FunctionEntry} {e : InstructionDependencyIndex} :
    (dependencyGraph file).hasEdge e ↔
      ∃ inst ∈ instructionsOf file, e.target = inst.pc ∧ inst.Linked e.source := by
  unfold dependencyGraph
  rw [hasEdge_foldl_addDependencies, hasEdge_parseInstructions]
  exact or_iff_left Bool.false_ne_true

/-! ## The pcs -/

/-- The pc of an instruction is the lower half of its index, which is the conversion of an `int`. -/
def PcsOfIndices (g : InstructionGraph) : Prop :=
  ∀ index inst, g.nodes.find? index = some inst →
    ∃ pc, index = u64OfInt (i32 pc) ∧ inst.pc = u32 (u64OfInt (i32 pc))

/-- The first instruction at an index stays, and a new one has its index. -/
theorem PcsOfIndices.addNode {g : InstructionGraph} (h : PcsOfIndices g) (entry : InstEntry)
    (cubin_offset : ℤ) : PcsOfIndices (g.addNode (u64OfInt (i32 (entry.pc + cubin_offset)))
      (entry.instruction cubin_offset)) := by
  intro index inst hinst
  rw [Graph.addNode, OrderedMap.find?_emplace] at hinst
  split_ifs at hinst with hindex
  · cases hold : g.nodes.find? index with
    | some old =>
      rw [← hindex, hold] at hinst
      cases hinst
      exact h index _ hold
    | none =>
      rw [← hindex, hold] at hinst
      cases hinst
      exact ⟨_, hindex, rfl⟩
  · exact h index inst hinst

/-- The instructions of a file have their indices. -/
theorem index_of_find {file : List FunctionEntry} {index : ℕ} {inst : Instruction}
    (h : (file.foldl parseInstructions Graph.empty).nodes.find? index = some inst) :
    ∃ pc, index = u64OfInt (i32 pc) ∧ inst.pc = u32 (u64OfInt (i32 pc)) := by
  have hnodes : PcsOfIndices (file.foldl parseInstructions Graph.empty) :=
    List.foldlRecOn _ _ (fun _ _ hinst => by cases hinst) fun g hg f _ =>
      List.foldlRecOn _ _ hg fun g hg entry _ => hg.addNode entry f.address
  exact hnodes index inst h

/-- Two instructions of a file have different pcs. -/
theorem eq_of_pc {file : List FunctionEntry} {inst inst' : Instruction}
    (h : inst ∈ instructionsOf file) (h' : inst' ∈ instructionsOf file)
    (hpc : inst.pc = inst'.pc) : inst = inst' := by
  obtain ⟨⟨index, _⟩, hmem, rfl⟩ := List.mem_map.1 h
  obtain ⟨⟨index', _⟩, hmem', rfl⟩ := List.mem_map.1 h'
  have hfind := (OrderedMap.find?_eq_some_iff _ _ _).2 hmem
  have hfind' := (OrderedMap.find?_eq_some_iff _ _ _).2 hmem'
  obtain ⟨z, rfl, hz⟩ := index_of_find hfind
  obtain ⟨z', rfl, hz'⟩ := index_of_find hfind'
  have hindex : u64OfInt (i32 z) = u64OfInt (i32 z') := by
    have hlow := hz.symm.trans (hpc.trans hz')
    unfold u32 u64OfInt i32 at *
    omega
  exact Option.some.inj (hfind.symm.trans (hindex ▸ hfind'))

/-! ## When nothing is lost -/

/-- The uniform registers that are skipped and those that are not. -/
theorem assignedAt_skipped {inst : Instruction} {pc : ℕ} :
    AssignedAt inst.uassign_pcs inst.usrcs pc ↔
      AssignedAt inst.uassign_pcs (inst.usrcs.take inst.skipped) pc ∨
        AssignedAt inst.uassign_pcs (inst.usrcs.drop inst.skipped) pc := by
  unfold AssignedAt
  rw [← exists_or]
  refine exists_congr fun usrc => ?_
  rw [← or_and_right, ← List.mem_append, List.take_append_drop]

/-- The edges are the dependencies exactly when every pc that assigns a uniform register which is
skipped is linked through another register: a data register, or a uniform one that is not
skipped. -/
theorem dependenciesRight_iff (file : List FunctionEntry) :
    DependenciesRight file (dependencyGraph file) ↔ ∀ inst ∈ instructionsOf file, ∀ pc,
      AssignedAt inst.uassign_pcs (inst.usrcs.take inst.skipped) pc → inst.Linked pc := by
  constructor
  · intro h inst hinst pc hskipped
    have hdepends : inst.DependsOn pc := .inr (assignedAt_skipped.2 (.inl hskipped))
    have hedge := (h ⟨pc, inst.pc⟩).2 ⟨inst, hinst, rfl, hdepends⟩
    obtain ⟨inst', hinst', hpc, hlinked⟩ := hasEdge_dependencyGraph.1 hedge
    rwa [eq_of_pc hinst hinst' hpc]
  · intro h e
    rw [hasEdge_dependencyGraph]
    refine exists_congr fun inst => and_congr_right fun hinst => and_congr_right fun _ => ?_
    unfold Instruction.DependsOn
    rw [assignedAt_skipped]
    constructor
    · exact fun hlinked => hlinked.imp_right .inr
    · rintro (hdata | hskipped | hlater)
      · exact .inl hdata
      · exact h inst hinst _ hskipped
      · exact .inr hlater

/-- An instruction with one register and one uniform register, which another instruction assigns. -/
def uniformSource : List FunctionEntry :=
  [⟨0, 0, [[⟨0, "UNIFORM.MOVE".toList, -1, [], [], [4], []⟩,
    ⟨16, "INTEGER.IADD".toList, -1, [1], [(2, [])], [], [(4, [0])]⟩]]⟩]

/-- The dependency on the uniform register is lost. -/
theorem not_dependenciesRight :
    ¬∀ file : List FunctionEntry, DependenciesRight file (dependencyGraph file) := by
  intro h
  have hedge := (h uniformSource ⟨0, 16⟩).2 (by decide +kernel)
  exact absurd hedge (by decide +kernel)

end TenProf.Binutils
