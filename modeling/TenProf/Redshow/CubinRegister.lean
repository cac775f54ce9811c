import TenProf.Binutils.Instruction
import TenProf.Library.Predecessor

/-!
# The symbols of a registered cubin

`redshow_cubin_register` creates a symbol for each pc, lets the instruction file describe the
functions by their indices, assigns the pcs by position, and stores the symbols in the order of
their pcs, for `transform_pc`. A symbol that no function of the file describes keeps the index 0,
and no symbol ever gets the id of its cubin: `registeredRight_iff` says for which files, and for
which contents of the memory of the symbols, the pcs are transformed to what they belong to.
-/

namespace TenProf.Redshow

open Binutils

/-- `redshow_result_t`, as far as `redshow_cubin_register` returns it. -/
inductive CubinResult
  | REDSHOW_SUCCESS
  | REDSHOW_ERROR_DUPLICATE_ENTRY
  | REDSHOW_ERROR_NO_SUCH_FILE
  deriving DecidableEq, Repr

/-- `Cubin`; `symbols` is the map from module ids to vectors of symbols. -/
structure Cubin where
  cubin_id : ℕ
  path : CString
  symbols : OrderedMap ℕ (List Symbol)
  inst_graph : InstructionGraph

/-- `cubin_map`. -/
abbrev CubinMap := OrderedMap ℕ Cubin

/-- What the environment gives a call: the instruction files that can be read, the default data
type, and what the memory of a symbol holds before its construction (`newSymbols`). -/
structure Environment where
  files : CString → Option (List FunctionEntry)
  default_data_type : DataType
  uninitialized : ℕ → ℕ → ℕ

/-- `rfind` of a slash, among the first characters. -/
def rfindSlash (path : CString) (count : ℕ) : Option ℕ :=
  (List.range (min count path.length)).reverse.find? fun i => path[i]? = some '/'

/-- The path of the instruction file of a cubin, if the path of the cubin has a directory. A search
from the position before 0 is one from the end. -/
def instPath (cubin_path : CString) : Option CString :=
  (rfindSlash cubin_path cubin_path.length).map fun iter =>
    let cubin_name := cubin_path.drop (iter + 1)
    let dir_name := match rfindSlash cubin_path (if iter = 0 then cubin_path.length else iter) with
      | some iter => cubin_path.take iter
      | none => cubin_path
    dir_name ++ "/structs/nvidia/".toList ++ cubin_name ++ ".inst".toList

/-- The functions of the instruction file of a cubin, if the file can be read. -/
def Environment.functions? (env : Environment) (path : CString) : Option (List FunctionEntry) :=
  (instPath path).bind env.files

/-- `analyze_cubin`. -/
def analyzeCubin (env : Environment) (path : CString) (symbols : List Symbol) :
    Option (CubinResult × List Symbol × InstructionGraph) :=
  match env.functions? path with
  | none => some (.REDSHOW_ERROR_NO_SUCH_FILE, symbols, Graph.empty)
  | some file =>
    (parse env.default_data_type env.uninitialized file symbols).map fun (symbols, inst_graph) =>
      (.REDSHOW_SUCCESS, symbols, inst_graph)

/-- `redshow_cubin_register`: its result and the map after it, or `none` where the instruction file
makes it fail or the counter of the loop over the pcs overflows. `analyze_cubin` returns no other
results than the two that let it go on. -/
def cubinRegister (env : Environment) (cubin_map : CubinMap) (cubin_id mod_id : ℕ)
    (symbol_pcs : List ℕ) (path : CString) : Option (CubinResult × CubinMap) :=
  if 2^31 ≤ symbol_pcs.length then none
  else
    let symbols := symbolVector (env.uninitialized 0) symbol_pcs.length
    (analyzeCubin env path symbols).map fun (_, symbols, inst_graph) =>
      let symbols := sortSymbols (assignPcs symbols symbol_pcs)
      match cubin_map.find? cubin_id with
      | none =>
        (.REDSHOW_SUCCESS, cubin_map.set cubin_id
          { cubin_id := cubin_id, path := path, inst_graph := inst_graph
            symbols := OrderedMap.set ∅ mod_id symbols })
      | some cubin =>
        if (cubin.symbols.find? mod_id).isNone then
          (.REDSHOW_SUCCESS, cubin_map.set cubin_id
            { cubin with symbols := cubin.symbols.set mod_id symbols })
        else (.REDSHOW_ERROR_DUPLICATE_ENTRY, cubin_map)

/-- The symbols that are stored for a module. -/
def storedSymbols (cubin_map : CubinMap) (cubin_id mod_id : ℕ) : Option (List Symbol) :=
  (cubin_map.find? cubin_id).bind fun cubin => cubin.symbols.find? mod_id

/-! ## What a pc belongs to -/

/-- The functions that a call describes its symbols with, those of the file if it can be read, with
the steps at which they are read. -/
def Environment.entries (env : Environment) (path : CString) : List (FunctionEntry × ℕ) :=
  ((env.functions? path).getD []).zipIdx 1

/-- The last description of the function with an index, with its step. -/
def lastEntry (entries : List (FunctionEntry × ℕ)) (i : ℕ) : Option (FunctionEntry × ℕ) :=
  (entries.filter fun e => e.1.index = (i : ℤ)).getLast?

/-- The offset of a function in its file, or 0 if the file does not say it. -/
def fileOffset (entries : List (FunctionEntry × ℕ)) (i : ℕ) : ℕ :=
  match lastEntry entries i with
  | some (f, _) => u64OfInt f.address
  | none => 0

/-- A pc is transformed to the function with the greatest pc that is not above it. -/
def TransformsRight (entries : List (FunctionEntry × ℕ)) (cubin_id : ℕ) (symbol_pcs : List ℕ)
    (symbols : List Symbol) (pc : ℕ) : Prop :=
  ∃ i p, symbol_pcs[i]? = some p ∧ p ≤ pc ∧ (∀ q ∈ symbol_pcs, q ≤ pc → q ≤ p) ∧
    transformPc symbols pc = some ⟨cubin_id, i, pc - p, u64 (fileOffset entries i + (pc - p))⟩

/-- The symbols that are stored for a module transform every pc right that is not below all of its
pcs. -/
def RegisteredRight (env : Environment) (cubin_map : CubinMap) (cubin_id mod_id : ℕ)
    (symbol_pcs : List ℕ) (path : CString) : Prop :=
  ∃ symbols, storedSymbols cubin_map cubin_id mod_id = some symbols ∧
    ∀ pc < 2^64, (∃ p ∈ symbol_pcs, p ≤ pc) →
      TransformsRight (env.entries path) cubin_id symbol_pcs symbols pc

/-- The memory in which the symbol of a function is constructed held the id of the cubin before, and
the file describes the function, unless it is the one with the index 0. -/
def FilledRight (uninitialized : ℕ → ℕ → ℕ) (entries : List (FunctionEntry × ℕ))
    (cubin_id i : ℕ) : Prop :=
  match lastEntry entries i with
  | some (_, step) => uninitialized step i = cubin_id
  | none => i = 0 ∧ uninitialized 0 i = cubin_id

/-! ## The symbols that the file leaves -/

section

variable {uninitialized : ℕ → ℕ → ℕ} {entries : List (FunctionEntry × ℕ)} {n i : ℕ}
  {symbols symbols' : List Symbol}

/-- The symbol of a function before the pcs are assigned. -/
def slotOf (uninitialized : ℕ → ℕ → ℕ) (entries : List (FunctionEntry × ℕ)) (i : ℕ) : Symbol :=
  match lastEntry entries i with
  | some (f, step) => ⟨uninitialized step i, i, u64OfInt f.address, 0⟩
  | none => ⟨uninitialized 0 i, 0, 0, 0⟩

/-- The symbols after some functions of the file, when the vector was created for `n`. -/
structure FilledBy (uninitialized : ℕ → ℕ → ℕ) (n : ℕ) (entries : List (FunctionEntry × ℕ))
    (symbols : List Symbol) : Prop where
  slot : ∀ i < n, symbols[i]? = some (slotOf uninitialized entries i)
  no_pc : ∀ symbol ∈ symbols, symbol.pc = 0

theorem lastEntry_append_self {f : FunctionEntry} (h : f.index = (i : ℤ)) (step : ℕ) :
    lastEntry (entries ++ [(f, step)]) i = some (f, step) := by
  simp [lastEntry, h]

theorem lastEntry_append_of_ne {f : FunctionEntry} (h : f.index ≠ (i : ℤ)) (step : ℕ) :
    lastEntry (entries ++ [(f, step)]) i = lastEntry entries i := by
  simp [lastEntry, h]

/-- The vector is created with symbols that nothing describes. -/
theorem filledBy_symbolVector (uninitialized : ℕ → ℕ → ℕ) (n : ℕ) :
    FilledBy uninitialized n [] (symbolVector (uninitialized 0) n) where
  slot i hi := by
    unfold symbolVector
    rw [getElem?_newSymbols _ _ _ hi, Nat.zero_add]
    rfl
  no_pc _ h := pc_of_mem_newSymbols h

/-- A function of the file fills its own slot. -/
theorem FilledBy.parseSymbol (h : FilledBy uninitialized n entries symbols) {f : FunctionEntry}
    {step : ℕ} (hparse : parseSymbol (uninitialized step) symbols f = some symbols') :
    FilledBy uninitialized n (entries ++ [(f, step)]) symbols' := by
  unfold Binutils.parseSymbol at hparse
  split_ifs at hparse with hindex
  cases hparse
  obtain ⟨j, hj⟩ := Int.eq_ofNat_of_zero_le (not_lt.1 (not_or.1 hindex).1)
  rw [hj, Int.toNat_natCast]
  refine ⟨fun i hi => ?_, fun symbol hmem => ?_⟩
  · have hlen := (List.getElem?_eq_some_iff.1 (h.slot i hi)).1
    unfold slotOf
    by_cases hij : j = i
    · subst hij
      rw [lastEntry_append_self hj, List.getElem?_set_self (by rw [length_resize]; omega)]
    · rw [lastEntry_append_of_ne (by omega), List.getElem?_set_ne hij,
        getElem?_resize _ _ hlen]
      exact h.slot i hi
  · rcases List.mem_or_eq_of_mem_set hmem with hmem | rfl
    · rcases List.mem_append.1 hmem with hmem | hmem
      · exact h.no_pc symbol hmem
      · exact pc_of_mem_newSymbols hmem
    · rfl

/-- What `analyze_cubin` makes of the vector that is created for a call. -/
theorem filledBy_analyzeCubin {env : Environment} {path : CString} {result : CubinResult}
    {inst_graph : InstructionGraph}
    (h : analyzeCubin env path (symbolVector (env.uninitialized 0) n) =
      some (result, symbols, inst_graph)) :
    FilledBy env.uninitialized n (env.entries path) symbols := by
  have hnew := filledBy_symbolVector env.uninitialized n
  unfold analyzeCubin at h
  unfold Environment.entries
  cases hfile : env.functions? path with
  | none =>
    rw [hfile] at h
    cases h
    exact hnew
  | some file =>
    simp only [hfile, parse, Option.map_eq_some_iff, Option.bind_eq_some_iff] at h
    obtain ⟨_, ⟨filled, hfilled, g, _, hpair⟩, hresult⟩ := h
    cases hpair
    cases hresult
    exact foldlM_invariant_handled (I := FilledBy env.uninitialized n)
      (fun _ _ _ _ hbefore _ hstep => hbefore.parseSymbol hstep) hnew hfilled

/-- A slot says what the file says of its function. -/
theorem slotOf_eq_iff (cubin_id : ℕ) :
    (slotOf uninitialized entries i).cubin_id = cubin_id ∧
        (slotOf uninitialized entries i).index = i ↔
      FilledRight uninitialized entries cubin_id i := by
  unfold slotOf FilledRight
  cases lastEntry entries i with
  | none => exact and_comm.trans (and_congr_left' eq_comm)
  | some e => exact and_iff_left rfl

theorem slotOf_offset : (slotOf uninitialized entries i).offset = fileOffset entries i := by
  unfold slotOf fileOffset
  cases lastEntry entries i <;> rfl

end

/-! ## The registration -/

section

variable {env : Environment} {cubin_map cubin_map' : CubinMap} {cubin_id mod_id : ℕ}
  {symbol_pcs : List ℕ} {path : CString}

/-- A successful call stores the symbols that the file leaves, with their pcs and in the order of
these. -/
theorem storedSymbols_cubinRegister
    (h : cubinRegister env cubin_map cubin_id mod_id symbol_pcs path =
      some (.REDSHOW_SUCCESS, cubin_map')) :
    ∃ symbols, FilledBy env.uninitialized symbol_pcs.length (env.entries path) symbols ∧
      storedSymbols cubin_map' cubin_id mod_id =
        some (sortSymbols (assignPcs symbols symbol_pcs)) := by
  unfold cubinRegister at h
  split_ifs at h
  obtain ⟨⟨result, symbols, inst_graph⟩, hanalyze, h⟩ := Option.map_eq_some_iff.1 h
  refine ⟨symbols, filledBy_analyzeCubin hanalyze, ?_⟩
  unfold storedSymbols
  cases hcubin : cubin_map.find? cubin_id with
  | none =>
    simp only [hcubin] at h
    cases h
    simp
  | some cubin =>
    simp only [hcubin] at h
    split_ifs at h
    · cases h
      simp
    · cases h

/-- After a successful call every pc is transformed to what it belongs to exactly when, for each of
the registered pcs, the file describes the function with its position as the index (or that is 0),
and the memory in which the symbol of the function is constructed held the id of the cubin. -/
theorem registeredRight_iff
    (h : cubinRegister env cubin_map cubin_id mod_id symbol_pcs path =
      some (.REDSHOW_SUCCESS, cubin_map'))
    (hnodup : symbol_pcs.Nodup) (hpos : 0 ∉ symbol_pcs) (hlt : ∀ p ∈ symbol_pcs, p < 2^64) :
    RegisteredRight env cubin_map' cubin_id mod_id symbol_pcs path ↔
      ∀ i < symbol_pcs.length, FilledRight env.uninitialized (env.entries path) cubin_id i := by
  obtain ⟨symbols, hfilled, hstored⟩ := storedSymbols_cubinRegister h
  -- What the pcs between one of the registered ones and the next are transformed to.
  have htransform : ∀ i p pc, symbol_pcs[i]? = some p → pc < 2^64 → p ≤ pc →
      (∀ q ∈ symbol_pcs, q ≤ pc → q ≤ p) →
      transformPc (sortSymbols (assignPcs symbols symbol_pcs)) pc =
        some ⟨(slotOf env.uninitialized (env.entries path) i).cubin_id,
          (slotOf env.uninitialized (env.entries path) i).index, pc - p,
          u64 (fileOffset (env.entries path) i + (pc - p))⟩ := by
    intro i p pc hp hpc hle hgreatest
    have hslot := hfilled.slot i (List.getElem?_eq_some_iff.1 hp).1
    rw [transformPc_of_greatest hfilled.no_pc hnodup hpos hslot hp hpc hle hgreatest,
      slotOf_offset, Nat.add_comm]
  constructor
  · rintro ⟨stored, hstored', hright⟩ i hi
    obtain rfl := Option.some_injective _ (hstored'.symm.trans hstored)
    have hp := List.getElem?_eq_getElem hi
    have hmem := List.getElem_mem hi
    -- A registered pc is its own predecessor.
    obtain ⟨j, q, hq, hle, hgreatest, hresult⟩ := hright _ (hlt _ hmem) ⟨_, hmem, le_rfl⟩
    obtain rfl : symbol_pcs[i] = q := le_antisymm (hgreatest _ hmem le_rfl) hle
    obtain rfl : i = j := (List.getElem?_inj hi hnodup).1 (hp.trans hq.symm)
    rw [htransform i _ _ hp (hlt _ hmem) le_rfl fun q _ hle => hle] at hresult
    have hpair := RealPC.mk.inj (Option.some_injective _ hresult)
    exact (slotOf_eq_iff cubin_id).1 ⟨hpair.1, hpair.2.1⟩
  · intro hright
    refine ⟨_, hstored, fun pc hpc hexists => ?_⟩
    obtain ⟨p, hmem, hle, hgreatest⟩ := exists_greatest hexists
    obtain ⟨i, hp⟩ := List.mem_iff_getElem?.1 hmem
    refine ⟨i, p, hp, hle, hgreatest, ?_⟩
    obtain ⟨hcubin, hindex⟩ :=
      (slotOf_eq_iff cubin_id).2 (hright i (List.getElem?_eq_some_iff.1 hp).1)
    rw [htransform i p pc hp hpc hle hgreatest, hcubin, hindex]

/-- A file describes both functions, and the memory of the symbols holds the id of the cubin. -/
theorem registeredRight_twoFunctions : ∃ cubin_map',
    cubinRegister ⟨fun _ => some [⟨1, 64, []⟩, ⟨0, 0, []⟩], .FLOAT, fun _ _ => 5⟩ ∅ 5 0 [32, 16]
        "x/cubins/x.cubin".toList = some (.REDSHOW_SUCCESS, cubin_map') ∧
      RegisteredRight ⟨fun _ => some [⟨1, 64, []⟩, ⟨0, 0, []⟩], .FLOAT, fun _ _ => 5⟩ cubin_map' 5 0
        [32, 16] "x/cubins/x.cubin".toList := by
  obtain ⟨cubin_map', hregister⟩ : ∃ cubin_map',
      cubinRegister ⟨fun _ => some [⟨1, 64, []⟩, ⟨0, 0, []⟩], .FLOAT, fun _ _ => 5⟩ ∅ 5 0 [32, 16]
        "x/cubins/x.cubin".toList = some (.REDSHOW_SUCCESS, cubin_map') := ⟨_, rfl⟩
  refine ⟨cubin_map', hregister,
    (registeredRight_iff hregister (by decide) (by decide) (by decide)).2 fun i hi => ?_⟩
  match i, hi with
  | 0, _ => rfl
  | 1, _ => rfl

/-- Without a file the second function is taken for the first one, and with a file the id of the
cubin is the one that is left in the memory. -/
theorem not_registeredRight_noFile :
    (∃ cubin_map',
      cubinRegister ⟨fun _ => none, .FLOAT, fun _ _ => 5⟩ ∅ 5 0 [16, 32]
          "x/cubins/x.cubin".toList = some (.REDSHOW_SUCCESS, cubin_map') ∧
        ¬RegisteredRight ⟨fun _ => none, .FLOAT, fun _ _ => 5⟩ cubin_map' 5 0 [16, 32]
          "x/cubins/x.cubin".toList) ∧
      ∃ cubin_map',
        cubinRegister ⟨fun _ => some [⟨0, 0, []⟩], .FLOAT, fun _ _ => 0⟩ ∅ 5 0 [16]
            "x/cubins/x.cubin".toList = some (.REDSHOW_SUCCESS, cubin_map') ∧
          ¬RegisteredRight ⟨fun _ => some [⟨0, 0, []⟩], .FLOAT, fun _ _ => 0⟩ cubin_map' 5 0 [16]
            "x/cubins/x.cubin".toList := by
  refine ⟨⟨_, rfl, ?_⟩, ⟨_, rfl, ?_⟩⟩
  · rintro ⟨symbols, hstored, hright⟩
    obtain rfl : [⟨5, 0, 0, 16⟩, ⟨5, 0, 0, 32⟩] = symbols := Option.some_injective _ hstored
    obtain ⟨i, p, hp, -, hgreatest, hresult⟩ := hright 32 (by norm_num) ⟨32, by simp, le_rfl⟩
    -- The index says that the pc belongs to the first function, whose pc is not the greatest one.
    obtain rfl : 0 = i := (RealPC.mk.inj (Option.some_injective _ hresult)).2.1
    obtain rfl : 16 = p := Option.some_injective _ hp
    exact absurd (hgreatest 32 (by simp) le_rfl) (by norm_num)
  · rintro ⟨symbols, hstored, hright⟩
    obtain rfl : [⟨0, 0, 0, 16⟩] = symbols := Option.some_injective _ hstored
    obtain ⟨i, p, -, -, -, hresult⟩ := hright 16 (by norm_num) ⟨16, by simp, le_rfl⟩
    exact absurd (RealPC.mk.inj (Option.some_injective _ hresult)).1 (by norm_num)

end

end TenProf.Redshow
