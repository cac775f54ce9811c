import TenProf.Binutils.Symbol
import TenProf.Common.Graph
import TenProf.Library.Loops
import TenProf.TorchMonitor.Callback
import Mathlib.Data.Finset.Basic
import Mathlib.Data.List.Infix
import Mathlib.Data.Prod.Lex

/-!
# The instructions of a cubin

`InstructionParser::parse` reads the functions of an instruction file, builds the graph of the
dependencies between instructions, and looks for the access kind of each memory instruction:
`init_access_kind` searches the graph from the instruction on, `default_access_kind` fills in what
the search leaves open. The file is given by the values that the property tree has for it, with the
defaults of `get` filled in. An `Option` result is `none` where the source throws, ends the process
because a node is missing, or reads behind the end of a vector.
-/

namespace TenProf.Binutils

/-- `redshow_data_type_t`. -/
inductive DataType
  | UNKNOWN
  | FLOAT
  | INT
  deriving DecidableEq, Repr

/-- `AccessKind`, with the values of its default constructor. -/
structure AccessKind where
  vec_size : ℕ := 0
  unit_size : ℕ := 0
  data_type : DataType := .UNKNOWN
  deriving DecidableEq, Repr

/-- The number of a data type. -/
def DataType.toNat : DataType → ℕ
  | UNKNOWN => 0
  | FLOAT => 1
  | INT => 2

/-- What the comparison of access kinds looks at, in that order. -/
def AccessKind.key (k : AccessKind) : ℕ ×ₗ ℕ ×ₗ ℕ :=
  toLex (k.vec_size, toLex (k.unit_size, k.data_type.toNat))

/-- The comparison looks at everything. -/
theorem AccessKind.key_injective : Function.Injective AccessKind.key := by
  rintro ⟨vec, unit, type⟩ ⟨vec', unit', type'⟩ h
  simp only [key, EmbeddingLike.apply_eq_iff_eq, Prod.mk.injEq] at h
  obtain ⟨rfl, rfl, htype⟩ := h
  cases type <;> cases type' <;> first | rfl | exact absurd htype (by decide)

instance : LinearOrder AccessKind := LinearOrder.lift' AccessKind.key AccessKind.key_injective

/-- `Instruction`. `assign_pcs` and `uassign_pcs` hold the pcs of the instructions that assign a
register that is read. -/
structure Instruction where
  op : CString
  pc : ℕ
  predicate : ℤ
  dsts : List ℤ
  srcs : List ℤ
  udsts : List ℤ
  usrcs : List ℤ
  assign_pcs : OrderedMap ℤ (List ℤ)
  uassign_pcs : OrderedMap ℤ (List ℤ)
  access_kind : Option AccessKind

/-- `InstructionDependencyIndex`; `source` and `target` are the fields `from` and `to`. -/
structure InstructionDependencyIndex where
  source : ℕ
  target : ℕ
  deriving DecidableEq, Repr

instance : EdgeEnds InstructionDependencyIndex ℕ :=
  ⟨InstructionDependencyIndex.source, InstructionDependencyIndex.target⟩

/-- `operator<` on edge indices compares these members in this order. -/
def InstructionDependencyIndex.key (e : InstructionDependencyIndex) : ℕ ×ₗ ℕ :=
  toLex (e.source, e.target)

theorem InstructionDependencyIndex.key_injective :
    Function.Injective InstructionDependencyIndex.key := by
  rintro ⟨source, target⟩ ⟨source', target'⟩ h
  simpa [key] using h

instance : LinearOrder InstructionDependencyIndex :=
  LinearOrder.lift' InstructionDependencyIndex.key InstructionDependencyIndex.key_injective

/-- `InstructionGraph`; an edge says whether it leaves its function. -/
abbrev InstructionGraph := Graph ℕ Instruction InstructionDependencyIndex Bool

/-! ## Access kinds -/

/-- `op.find(pattern) != std::string::npos`. -/
def contains (op pattern : CString) : Bool := pattern <:+: op

/-- The vector size that an instruction's `op` names. -/
def vecSizeOf (op : CString) : ℕ :=
  if contains op ".128".toList then 128
  else if contains op ".64".toList then 64
  else if contains op ".32".toList then 32
  else if contains op ".16".toList then 16
  else if contains op ".8".toList then 8
  else 32

/-- `default_access_kind`. -/
def defaultAccessKind (default_data_type : DataType) (op : CString) (k : AccessKind) :
    AccessKind :=
  let vec_size := if k.vec_size = 0 then vecSizeOf op else k.vec_size
  { vec_size := vec_size
    unit_size := if k.unit_size = 0 then min 32 vec_size else k.unit_size
    data_type := if k.data_type = .UNKNOWN then default_data_type else k.data_type }

/-- The block "Direct unit size detect": the size that a neighbour's `op` names, at most
`vec_size`, or 0. -/
def directUnitSize (load : Bool) (vec_size : ℕ) (op : CString) : ℕ :=
  if contains op ".64".toList then min 64 vec_size
  else if contains op ".32".toList then min 32 vec_size
  else if contains op ".16".toList then min 16 vec_size
  else if contains op ".8".toList then min 8 vec_size
  else if contains op "._64_TO_32".toList then min (if load then 64 else 32) vec_size
  else if contains op "._32_TO_64".toList then min (if load then 32 else 64) vec_size
  else 0

/-- The data type that a neighbour's `op` names: that of an arithmetic instruction, else INT if
nothing is known yet. -/
def directDataType (load : Bool) (op : CString) (data_type : DataType) : DataType :=
  if contains op "INTEGER".toList || contains op "UNIFORM".toList then .INT
  else if contains op "FLOAT".toList then .FLOAT
  else if contains op "CONVERT".toList then
    if contains op ".I2F".toList then if load then .INT else .FLOAT
    else if contains op ".F2F".toList then .FLOAT
    else if contains op ".F2I".toList then if load then .FLOAT else .INT
    else if contains op ".I2I".toList then .INT
    else data_type
  else if data_type = .UNKNOWN then .INT
  else data_type

/-- What is taken over where nothing is known yet. -/
def AccessKind.takeOver (k : AccessKind) (unit_size : ℕ) (data_type : DataType) : AccessKind :=
  { k with
    unit_size := if k.unit_size = 0 then unit_size else k.unit_size
    data_type := if k.data_type = .UNKNOWN then data_type else k.data_type }

/-- What is taken over from the use as an address of that size, if it is one. -/
def AccessKind.takeAddress (k : AccessKind) : Option ℕ → AccessKind
  | none => k
  | some size => k.takeOver size .INT

/-- Whether an instruction uses what `inst` loads as an address, and the size of the address. -/
def addressUse (inst neighbor_inst : Instruction) : Option (Option ℕ) :=
  if contains neighbor_inst.op ".SHARED".toList || contains neighbor_inst.op ".LOCAL".toList then
    (neighbor_inst.srcs[0]?).map fun src => if src ∈ inst.dsts then some 32 else none
  else
    (neighbor_inst.srcs[0]?).bind fun src =>
      if src ∈ inst.dsts then some (some 64)
      else (neighbor_inst.srcs[1]?).map fun src => if src ∈ inst.dsts then some 64 else none

/-- The state of a search: the kind that is looked for, the graph with the kinds that are cached,
and the pcs that were visited. -/
structure Search where
  access_kind : AccessKind
  graph : InstructionGraph
  visited : Finset ℕ

/-- The kind of a node, set to a value. -/
def setAccessKind (g : InstructionGraph) (index : ℕ) (k : AccessKind) : InstructionGraph :=
  match g.nodes.find? index with
  | none => g
  | some inst => { g with nodes := g.nodes.set index { inst with access_kind := some k } }

/-- Whether the loop over the edges is left. -/
def AccessKind.isComplete (k : AccessKind) : Bool := k.data_type ≠ .UNKNOWN && k.unit_size ≠ 0

/-- The block "Direct unit size detect" of a turn. -/
def AccessKind.detect (load : Bool) (k : AccessKind) (op : CString) : AccessKind :=
  { k with
    unit_size := if k.unit_size = 0 then directUnitSize load k.vec_size op else k.unit_size }

/-- The pc of the instruction at the other end of an edge. -/
def neighborPc (load : Bool) (edge : InstructionDependencyIndex) : ℕ :=
  if load then edge.target else edge.source

/-- One turn of the loop of `init_access_kind` over the edges, which `break` leaves once the kind is
complete. `search` is the recursive call. -/
def searchEdge (default_data_type : DataType)
    (search : Instruction → InstructionGraph → Finset ℕ → Bool → Option Search)
    (inst : Instruction) (load : Bool) (s : Search) (edge : InstructionDependencyIndex) :
    Option Search :=
  if s.access_kind.isComplete then some s
  else
    let pc := neighborPc load edge
    (s.graph.nodes.find? pc).bind fun neighbor_inst =>
      let k := s.access_kind.detect load neighbor_inst.op
      if contains neighbor_inst.op "MOVE".toList then
        (search neighbor_inst s.graph s.visited load).map fun r =>
          { r with access_kind := k.takeOver r.access_kind.unit_size r.access_kind.data_type }
      else if contains neighbor_inst.op "MEMORY".toList then
        if load then
          (addressUse inst neighbor_inst).map fun use =>
            { s with access_kind := k.takeAddress use }
        else
          match neighbor_inst.access_kind with
          | some cached =>
            some { s with access_kind := k.takeOver cached.unit_size cached.data_type }
          | none =>
            (search neighbor_inst s.graph s.visited (!load)).map fun r =>
              let found := defaultAccessKind default_data_type neighbor_inst.op r.access_kind
              { access_kind := k.takeOver found.unit_size found.data_type
                graph := setAccessKind r.graph pc found
                visited := r.visited }
      else
        some { s with access_kind :=
          { k with data_type := directDataType load neighbor_inst.op k.data_type } }

/-- The edges along which a search goes on. -/
def edgesOf (g : InstructionGraph) (pc : ℕ) (load : Bool) : List InstructionDependencyIndex :=
  ((if load then g.outgoing_edges else g.incoming_edges).findD pc ∅).elems

/-- The kind with which a search starts. -/
def startKind (op : CString) : AccessKind where
  vec_size := vecSizeOf op
  data_type := if contains op "UNIFORM".toList then .INT else .UNKNOWN

/-- `init_access_kind`, with a bound on the depth of the recursion. -/
def initAccessKind (default_data_type : DataType) : ℕ → Instruction → InstructionGraph →
    Finset ℕ → Bool → Option Search
  | 0, _, _, _, _ => none
  | fuel + 1, inst, g, visited, load =>
    if inst.pc ∈ visited then some ⟨{}, g, visited⟩
    else
      (edgesOf g inst.pc load).foldlM
        (searchEdge default_data_type (initAccessKind default_data_type fuel) inst load)
        ⟨startKind inst.op, g, insert inst.pc visited⟩

/-! ## The file -/

/-- An instruction in the file, with the pcs relative to its function. A register that is read comes
with the pcs of the instructions that assign it. -/
structure InstEntry where
  pc : ℤ
  op : CString
  pred : ℤ
  dsts : List ℤ
  srcs : List (ℤ × List ℤ)
  udsts : List ℤ
  usrcs : List (ℤ × List ℤ)

/-- A function in the file. -/
structure FunctionEntry where
  index : ℤ
  address : ℤ
  blocks : List (List InstEntry)

/-- `assign_pcs[src].push_back(assign_pc)` for the registers that an instruction reads. -/
def assignPcsOf (cubin_offset : ℤ) (srcs : List (ℤ × List ℤ)) : OrderedMap ℤ (List ℤ) :=
  srcs.foldl (fun m (src, pcs) =>
    pcs.foldl (fun m pc => m.set src (m.findD src [] ++ [i32 (pc + cubin_offset)])) m) ∅

/-- The construction of an instruction from its entry. -/
def InstEntry.instruction (cubin_offset : ℤ) (e : InstEntry) : Instruction where
  op := e.op
  pc := u32 (u64OfInt (i32 (e.pc + cubin_offset)))
  predicate := e.pred
  dsts := e.dsts
  srcs := e.srcs.map Prod.fst
  udsts := e.udsts
  usrcs := e.usrcs.map Prod.fst
  assign_pcs := assignPcsOf cubin_offset e.srcs
  uassign_pcs := assignPcsOf cubin_offset e.usrcs
  access_kind := none

/-- `symbols[function_index] = Symbol(function_index, cubin_offset)`, after the resize. There is no
room for a function with a negative index, and none behind the last one. -/
def parseSymbol (uninitialized : ℕ → ℕ) (symbols : List Symbol) (f : FunctionEntry) :
    Option (List Symbol) :=
  if f.index < 0 ∨ 2^31 ≤ f.index + 1 then none
  else
    let function_index := f.index.toNat
    let symbols := resize uninitialized symbols (max symbols.length (function_index + 1))
    some (symbols.set function_index
      ⟨uninitialized function_index, function_index, u64OfInt f.address, 0⟩)

/-- The nodes of the instructions of a function. -/
def parseInstructions (g : InstructionGraph) (f : FunctionEntry) : InstructionGraph :=
  f.blocks.flatten.foldl (fun g e =>
    g.addNode (u64OfInt (i32 (e.pc + f.address))) (e.instruction f.address)) g

/-- The edges of an instruction. A store skips its address, and the loop over the uniform registers
goes on with the counter of the loop before it. -/
def addDependencies (g : InstructionGraph) (inst : Instruction) : InstructionGraph :=
  let i := if contains inst.op "STORE".toList then
      if contains inst.op ".SHARED".toList || contains inst.op ".LOCAL".toList then 1 else 2
    else 0
  let g := (inst.srcs.drop i).foldl (fun g src =>
    (inst.assign_pcs.findD src []).foldl (fun g src_pc =>
      g.addEdge ⟨u64OfInt src_pc, inst.pc⟩ false) g) g
  (inst.usrcs.drop (max i inst.srcs.length)).foldl (fun g usrc =>
    (inst.uassign_pcs.findD usrc []).foldl (fun g usrc_pc =>
      g.addEdge ⟨u64OfInt usrc_pc, inst.pc⟩ false) g) g

/-- The dependency graph of a file. -/
def dependencyGraph (file : List FunctionEntry) : InstructionGraph :=
  let g := file.foldl parseInstructions Graph.empty
  (g.nodes.toList.map Prod.snd).foldl addDependencies g

/-- Whether the kind of a memory instruction is looked for from a load on or back from a store. -/
def searchDirection (op : CString) : Option Bool :=
  if contains op ".STORE".toList then some false
  else if contains op ".LOAD".toList then some true
  else none

/-- The search for the kind of a memory instruction, if there is a direction for it. -/
def searchKind (default_data_type : DataType) (fuel : ℕ) (inst : Instruction)
    (allocated : InstructionGraph) : Option Search :=
  match searchDirection inst.op with
  | some load => initAccessKind default_data_type fuel inst allocated ∅ load
  | none => some ⟨{}, allocated, ∅⟩

/-- One turn of the loop of `parse` that analyzes the memory instructions. -/
def analyzeNode (default_data_type : DataType) (fuel : ℕ) (g : InstructionGraph) (index : ℕ) :
    Option InstructionGraph :=
  (g.nodes.find? index).bind fun inst =>
    if !contains inst.op "MEMORY".toList then some g
    else if inst.access_kind.isSome then some g
    else
      (searchKind default_data_type fuel inst (setAccessKind g index {})).map fun r =>
        setAccessKind r.graph index (defaultAccessKind default_data_type inst.op r.access_kind)

/-- The memory instructions of a graph, analyzed in the order of the nodes. A search visits no pc
twice, so the recursion is not deeper than there are nodes. -/
def analyzeGraph (default_data_type : DataType) (g : InstructionGraph) : Option InstructionGraph :=
  (g.nodes.toList.map Prod.fst).foldlM (analyzeNode default_data_type (g.nodes.size + 1)) g

/-- `InstructionParser::parse`, with the symbols of the vector so far. -/
def parse (default_data_type : DataType) (uninitialized : ℕ → ℕ → ℕ) (file : List FunctionEntry)
    (symbols : List Symbol) : Option (List Symbol × InstructionGraph) :=
  ((file.zipIdx 1).foldlM (fun symbols (f, step) => parseSymbol (uninitialized step) symbols f)
    symbols).bind fun symbols =>
      (analyzeGraph default_data_type (dependencyGraph file)).map fun g => (symbols, g)

end TenProf.Binutils
