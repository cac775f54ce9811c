import TenProf.Library.Loops
import TenProf.Library.Runs
import TenProf.Redshow.CubinRegister

/-!
# The cubins that are registered late

`redshow_cubin_cache_register` only notes the pcs of a module, and `trace_analyze` registers the
module with them when it does not find it. The pcs are noted for each module, the number of symbols
and the path for the first module of a cubin only. `lazy_registration_iff` says for which calls the
symbols that an analysis finds are those of the first registration of the module all the same. What
a symbol holds of its memory from before (`forget`) is not compared.
-/

namespace TenProf.Redshow

open Binutils

/-! ## The calls -/

/-- `CubinCache`; `symbol_pcs` is the map from module ids to pcs. -/
structure CubinCache where
  cubin_id : ℕ
  nsymbols : ℕ
  symbol_pcs : OrderedMap ℕ (List ℕ)
  path : CString

/-- `cubin_cache_map`. -/
abbrev CubinCacheMap := OrderedMap ℕ CubinCache

/-- `redshow_cubin_cache_register`: its result and the map after it. -/
def cubinCacheRegister (cubin_cache_map : CubinCacheMap) (cubin_id mod_id : ℕ)
    (symbol_pcs : List ℕ) (path : CString) : CubinResult × CubinCacheMap :=
  match cubin_cache_map.find? cubin_id with
  | none =>
    (.REDSHOW_SUCCESS, cubin_cache_map.set cubin_id
      { cubin_id := cubin_id, path := path, nsymbols := symbol_pcs.length
        symbol_pcs := OrderedMap.set ∅ mod_id symbol_pcs })
  | some cubin_cache =>
    if (cubin_cache.symbol_pcs.find? mod_id).isNone then
      (.REDSHOW_SUCCESS, cubin_cache_map.set cubin_id
        { cubin_cache with symbol_pcs := cubin_cache.symbol_pcs.set mod_id symbol_pcs })
    else (.REDSHOW_ERROR_DUPLICATE_ENTRY, cubin_cache_map)

/-- What is noted for a module, with the cubin that it is noted for. -/
def cachedPcs (cubin_cache_map : CubinCacheMap) (cubin_id mod_id : ℕ) :
    Option (CubinCache × List ℕ) :=
  (cubin_cache_map.find? cubin_id).bind fun cubin_cache =>
    (cubin_cache.symbol_pcs.find? mod_id).map fun symbol_pcs => (cubin_cache, symbol_pcs)

/-- What the rest of `trace_analyze` gets of a cubin. -/
structure Fetched where
  symbols : List Symbol
  inst_graph : InstructionGraph
  cubin_path : CString

/-- The lookup of a module. -/
def lookupCubin (cubin_map : CubinMap) (cubin_id mod_id : ℕ) : Option Fetched :=
  (cubin_map.find? cubin_id).bind fun cubin =>
    (cubin.symbols.find? mod_id).map fun symbols => ⟨symbols, cubin.inst_graph, cubin.path⟩

/-- The start of `trace_analyze`, up to where it proceeds with a cubin or returns an error: the map
after it, and the cubin. It has no result where the registration has none or reads a pc behind those
that are noted. -/
def fetchCubin (env : Environment) (cubin_map : CubinMap) (cubin_cache_map : CubinCacheMap)
    (cubin_id mod_id : ℕ) : Option (CubinMap × Option Fetched) :=
  match lookupCubin cubin_map cubin_id mod_id with
  | some fetched => some (cubin_map, some fetched)
  | none =>
    -- Cubin not found, maybe in the cache map
    match cachedPcs cubin_cache_map cubin_id mod_id with
    | none => some (cubin_map, none)
    | some (cubin_cache, symbol_pcs) =>
      if cubin_cache.nsymbols ≤ symbol_pcs.length then
        (cubinRegister env cubin_map cubin_id mod_id (symbol_pcs.take cubin_cache.nsymbols)
          cubin_cache.path).map fun (result, cubin_map) =>
            (cubin_map,
              if result = .REDSHOW_SUCCESS then lookupCubin cubin_map cubin_id mod_id else none)
      else none

/-! ## What is registered -/

/-- The environment with what the memory of the symbols holds in a call. -/
def Environment.withMemory (env : Environment) (uninitialized : ℕ → ℕ → ℕ) : Environment :=
  { env with uninitialized := uninitialized }

/-- A symbol without what its memory held before. -/
def forget (symbol : Symbol) : Symbol := { symbol with cubin_id := 0 }

theorem map_forget_newSymbols (uninitialized : ℕ → ℕ) (first count : ℕ) :
    (newSymbols uninitialized first count).map forget = newSymbols (fun _ => 0) first count := by
  unfold newSymbols
  rw [List.map_map]
  rfl

theorem map_forget_resize (uninitialized : ℕ → ℕ) (symbols : List Symbol) (size : ℕ) :
    (resize uninitialized symbols size).map forget =
      resize (fun _ => 0) (symbols.map forget) size := by
  unfold resize
  rw [List.map_append, map_forget_newSymbols, List.length_map]

/-- A function of the file says the same of its symbol, whatever its memory held. -/
theorem map_forget_parseSymbol (uninitialized : ℕ → ℕ) (symbols : List Symbol)
    (f : FunctionEntry) : (parseSymbol uninitialized symbols f).map (List.map forget) =
      parseSymbol (fun _ => 0) (symbols.map forget) f := by
  unfold parseSymbol
  split
  · rfl
  · rw [Option.map_some, List.map_set, map_forget_resize, List.length_map]
    rfl

/-- The file says the same of the symbols, whatever their memory held. -/
theorem map_forget_foldlM_parseSymbol (uninitialized : ℕ → ℕ → ℕ)
    (entries : List (FunctionEntry × ℕ)) (symbols : List Symbol) :
    (entries.foldlM (fun symbols (f, step) => parseSymbol (uninitialized step) symbols f)
        symbols).map (List.map forget) =
      entries.foldlM (fun symbols (f, _) => parseSymbol (fun _ => 0) symbols f)
        (symbols.map forget) :=
  map_foldlM (fun symbols e => map_forget_parseSymbol (uninitialized e.2) symbols e.1) entries
    symbols

/-- What `analyze_cubin` makes of the symbols does not depend on what their memory held. -/
theorem map_forget_analyzeCubin (env : Environment) (uninitialized : ℕ → ℕ → ℕ) (path : CString)
    (n : ℕ) :
    (analyzeCubin (env.withMemory uninitialized) path (symbolVector (uninitialized 0) n)).map
        (fun r => (r.2.1.map forget, r.2.2)) =
      (analyzeCubin (env.withMemory fun _ _ => 0) path (symbolVector (fun _ => 0) n)).map
        fun r => r.2 := by
  have hnew : (symbolVector (uninitialized 0) n).map forget = symbolVector (fun _ => 0) n :=
    map_forget_newSymbols (uninitialized 0) 0 n
  have hfile : ∀ u, (env.withMemory u).functions? path = env.functions? path := fun _ => rfl
  unfold analyzeCubin
  rw [hfile, hfile]
  cases env.functions? path with
  | none => simp [hnew]
  | some file =>
    have hfold := map_forget_foldlM_parseSymbol uninitialized (file.zipIdx 1)
      (symbolVector (uninitialized 0) n)
    rw [hnew] at hfold
    simp only [parse, Environment.withMemory, Option.map_map]
    rw [← hfold]
    cases (file.zipIdx 1).foldlM (fun symbols (f, step) =>
      parseSymbol (uninitialized step) symbols f) (symbolVector (uninitialized 0) n) with
    | none => rfl
    | some symbols =>
      cases analyzeGraph env.default_data_type (dependencyGraph file) <;> rfl

theorem map_forget_assignPcs (symbols : List Symbol) (symbol_pcs : List ℕ) :
    (assignPcs symbols symbol_pcs).map forget = assignPcs (symbols.map forget) symbol_pcs := by
  refine List.ext_getElem? fun i => ?_
  rw [List.getElem?_map, getElem?_assignPcs, getElem?_assignPcs, List.getElem?_map]
  cases symbols[i]? <;> rfl

theorem map_forget_sortSymbols (symbols : List Symbol) :
    (sortSymbols symbols).map forget = sortSymbols (symbols.map forget) :=
  List.map_insertionSort _ _ _ _ fun _ _ _ _ => Iff.rfl

/-- The symbols that `redshow_cubin_register` builds from pcs, with the instruction file of a path.
It has no result where the call has none. -/
def registeredSymbols (env : Environment) (path : CString) (symbol_pcs : List ℕ) :
    Option (List Symbol) :=
  if 2^31 ≤ symbol_pcs.length then none
  else
    (analyzeCubin (env.withMemory fun _ _ => 0) path
      (symbolVector (fun _ => 0) symbol_pcs.length)).map fun r =>
        sortSymbols (assignPcs r.2.1 symbol_pcs)

/-- A call of `redshow_cubin_register` that comes to reading the pcs reads none behind those that
are there. The counter of the loop ends at 2^31 at the latest. -/
def PcsInside (env : Environment) (path : CString) (nsymbols : ℕ) (symbol_pcs : List ℕ) : Prop :=
  (analyzeCubin (env.withMemory fun _ _ => 0) path (symbolVector (fun _ => 0) nsymbols)).isSome →
    min nsymbols (2^31) ≤ symbol_pcs.length

variable {env : Environment} {uninitialized : ℕ → ℕ → ℕ} {cubin_map cubin_map' : CubinMap}
  {cubin_id mod_id : ℕ} {symbol_pcs : List ℕ} {path : CString} {result : CubinResult}

/-- What a module is found with is stored for it. -/
theorem lookupCubin_symbols (cubin_map : CubinMap) (cubin_id mod_id : ℕ) :
    (lookupCubin cubin_map cubin_id mod_id).map Fetched.symbols =
      storedSymbols cubin_map cubin_id mod_id := by
  unfold lookupCubin storedSymbols
  cases cubin_map.find? cubin_id with
  | none => rfl
  | some cubin =>
    rw [Option.bind_some, Option.bind_some]
    cases cubin.symbols.find? mod_id <;> rfl

/-- What is stored for a module when a cubin is stored. -/
theorem storedSymbols_set (cubin_map : CubinMap) (cubin_id : ℕ) (cubin : Cubin) (c m : ℕ) :
    storedSymbols (cubin_map.set cubin_id cubin) c m =
      if c = cubin_id then cubin.symbols.find? m else storedSymbols cubin_map c m := by
  unfold storedSymbols
  rw [OrderedMap.find?_set]
  split_ifs <;> rfl

/-- A call of `redshow_cubin_register` with a result: it builds symbols, which are stored for a
module that is new; for one that is there it is rejected, and the map stays as it is. -/
theorem cubinRegister_spec (h : cubinRegister (env.withMemory uninitialized) cubin_map cubin_id
      mod_id symbol_pcs path = some (result, cubin_map')) :
    ∃ symbols, registeredSymbols env path symbol_pcs = some (symbols.map forget) ∧
      if (storedSymbols cubin_map cubin_id mod_id).isSome then
        result = .REDSHOW_ERROR_DUPLICATE_ENTRY ∧ cubin_map' = cubin_map
      else result = .REDSHOW_SUCCESS ∧ ∀ c m, storedSymbols cubin_map' c m =
        if c = cubin_id ∧ m = mod_id then some symbols else storedSymbols cubin_map c m := by
  unfold cubinRegister at h
  split_ifs at h with hlen
  obtain ⟨⟨r, symbols, g⟩, hanalyze, h⟩ := Option.map_eq_some_iff.1 h
  refine ⟨sortSymbols (assignPcs symbols symbol_pcs), ?_, ?_⟩
  · -- What is built is what is built on empty memory, but for what the memory held.
    have hforget := map_forget_analyzeCubin env uninitialized path symbol_pcs.length
    have hvector : symbolVector ((env.withMemory uninitialized).uninitialized 0)
        symbol_pcs.length = symbolVector (uninitialized 0) symbol_pcs.length := rfl
    rw [hvector] at hanalyze
    rw [hanalyze, Option.map_some] at hforget
    obtain ⟨⟨r', symbols', g'⟩, hzero, hpair⟩ := Option.map_eq_some_iff.1 hforget.symm
    cases hpair
    unfold registeredSymbols
    rw [if_neg hlen, hzero, Option.map_some, map_forget_sortSymbols, map_forget_assignPcs]
  · -- A new cubin, a new module of one that is there, or a module that is there.
    have hstored : storedSymbols cubin_map cubin_id mod_id =
        (cubin_map.find? cubin_id).bind fun cubin => cubin.symbols.find? mod_id := rfl
    cases hcubin : cubin_map.find? cubin_id with
    | none =>
      simp only [hcubin] at h
      cases h
      rw [hcubin, Option.bind_none] at hstored
      rw [hstored, if_neg (by simp)]
      refine ⟨rfl, fun c m => ?_⟩
      rw [storedSymbols_set, OrderedMap.find?_set, OrderedMap.find?_empty]
      by_cases hc : c = cubin_id
      · subst hc
        simp [storedSymbols, hcubin]
      · simp [hc]
    | some cubin =>
      simp only [hcubin] at h
      rw [hcubin, Option.bind_some] at hstored
      rw [hstored]
      split_ifs at h with hmod
      · cases h
        rw [Option.isNone_iff_eq_none.1 hmod, if_neg (by simp)]
        refine ⟨rfl, fun c m => ?_⟩
        rw [storedSymbols_set, OrderedMap.find?_set]
        by_cases hc : c = cubin_id
        · subst hc
          simp [storedSymbols, hcubin]
        · simp [hc]
      · cases h
        rw [if_pos (by simpa [Option.isSome_iff_ne_none] using hmod)]
        exact ⟨rfl, rfl⟩

/-- A call of `redshow_cubin_register` has a result when the symbols can be built. -/
theorem cubinRegister_isSome_iff : (cubinRegister (env.withMemory uninitialized) cubin_map cubin_id
      mod_id symbol_pcs path).isSome ↔ (registeredSymbols env path symbol_pcs).isSome := by
  have hforget := map_forget_analyzeCubin env uninitialized path symbol_pcs.length
  have hsome := congrArg Option.isSome hforget
  rw [Option.isSome_map, Option.isSome_map] at hsome
  unfold cubinRegister registeredSymbols
  split_ifs
  · rfl
  · rw [Option.isSome_map, Option.isSome_map, ← hsome]
    rfl

/-- What is noted for a module that is new, and what stays noted. -/
theorem cachedPcs_cubinCacheRegister (cubin_cache_map : CubinCacheMap) (cubin_id mod_id : ℕ)
    (symbol_pcs : List ℕ) (path : CString) :
    if (cachedPcs cubin_cache_map cubin_id mod_id).isSome then
      cubinCacheRegister cubin_cache_map cubin_id mod_id symbol_pcs path =
        (.REDSHOW_ERROR_DUPLICATE_ENTRY, cubin_cache_map)
    else ∃ nsymbols first_path,
      (match cubin_cache_map.find? cubin_id with
        | none => nsymbols = symbol_pcs.length ∧ first_path = path
        | some cubin_cache =>
          nsymbols = cubin_cache.nsymbols ∧ first_path = cubin_cache.path) ∧
      (cubinCacheRegister cubin_cache_map cubin_id mod_id symbol_pcs path).1 = .REDSHOW_SUCCESS ∧
      ∀ c m, (cachedPcs (cubinCacheRegister cubin_cache_map cubin_id mod_id symbol_pcs path).2
          c m).map (fun p => (p.1.nsymbols, p.1.path, p.2)) =
        if c = cubin_id ∧ m = mod_id then some (nsymbols, first_path, symbol_pcs)
        else (cachedPcs cubin_cache_map c m).map fun p => (p.1.nsymbols, p.1.path, p.2) := by
  unfold cubinCacheRegister cachedPcs
  cases hcubin : cubin_cache_map.find? cubin_id with
  | none =>
    refine ⟨symbol_pcs.length, path, ⟨rfl, rfl⟩, rfl, fun c m => ?_⟩
    rw [OrderedMap.find?_set]
    by_cases hc : c = cubin_id
    · subst hc
      by_cases hm : m = mod_id <;> simp [OrderedMap.find?_set, hcubin, hm]
    · simp [hc]
  | some cubin =>
    rw [Option.bind_some, Option.isSome_map]
    cases hmod : cubin.symbol_pcs.find? mod_id with
    | some pcs => simp [hmod]
    | none =>
      refine ⟨cubin.nsymbols, cubin.path, ⟨rfl, rfl⟩, by simp [hmod], fun c m => ?_⟩
      simp only [hmod, Option.isNone_none, if_true, OrderedMap.find?_set]
      by_cases hc : c = cubin_id
      · subst hc
        by_cases hm : m = mod_id
        · simp [hm]
        · simp only [OrderedMap.find?_set, hcubin, hm, if_true, if_false, and_false,
            Option.bind_some, Option.map_map]
          rfl
      · simp [hc]

/-! ## Runs -/

/-- The calls; a registration comes with what the memory of the symbols holds. -/
inductive CubinEvent
  | cubin_register (uninitialized : ℕ → ℕ → ℕ) (cubin_id mod_id : ℕ) (symbol_pcs : List ℕ)
    (path : CString)
  | cubin_cache_register (cubin_id mod_id : ℕ) (symbol_pcs : List ℕ) (path : CString)
  | analyze (uninitialized : ℕ → ℕ → ℕ) (cubin_id mod_id : ℕ)

/-- The cubin and the module of a call. -/
def CubinEvent.target : CubinEvent → ℕ × ℕ
  | .cubin_register _ cubin_id mod_id _ _ => (cubin_id, mod_id)
  | .cubin_cache_register cubin_id mod_id _ _ => (cubin_id, mod_id)
  | .analyze _ cubin_id mod_id => (cubin_id, mod_id)

/-- The two maps, with the pcs and the path that each module was registered with first. -/
structure Cubins where
  cubin_map : CubinMap := ∅
  cubin_cache_map : CubinCacheMap := ∅
  first : ℕ → ℕ → Option (List ℕ × CString) := fun _ _ => none

namespace Cubins

/-- The first registration of a module is noted. -/
def noteFirst (s : Cubins) (cubin_id mod_id : ℕ) (symbol_pcs : List ℕ) (path : CString) :
    ℕ → ℕ → Option (List ℕ × CString) := fun c m =>
  if c = cubin_id ∧ m = mod_id then some ((s.first c m).getD (symbol_pcs, path)) else s.first c m

/-- The handling of a call. -/
def step (env : Environment) (s : Cubins) : CubinEvent → Option Cubins
  | .cubin_register uninitialized cubin_id mod_id symbol_pcs path =>
    (cubinRegister (env.withMemory uninitialized) s.cubin_map cubin_id mod_id symbol_pcs path).map
      fun (_, cubin_map) =>
        { s with
          cubin_map := cubin_map
          first := s.noteFirst cubin_id mod_id symbol_pcs path }
  | .cubin_cache_register cubin_id mod_id symbol_pcs path =>
    some { s with
      cubin_cache_map := (cubinCacheRegister s.cubin_cache_map cubin_id mod_id symbol_pcs path).2
      first := s.noteFirst cubin_id mod_id symbol_pcs path }
  | .analyze uninitialized cubin_id mod_id =>
    (fetchCubin (env.withMemory uninitialized) s.cubin_map s.cubin_cache_map cubin_id mod_id).map
      fun (cubin_map, _) => { s with cubin_map := cubin_map }

/-- The number of symbols, the path and the pcs that an analysis registers a module with. -/
def lazily (s : Cubins) (cubin_id mod_id : ℕ) : Option (ℕ × CString × List ℕ) :=
  (cachedPcs s.cubin_cache_map cubin_id mod_id).map fun p => (p.1.nsymbols, p.1.path, p.2)

/-- Symbols, without what their memory held before, are those that the first registration of a
module builds. -/
def FirstBuilds (env : Environment) (s : Cubins) (cubin_id mod_id : ℕ) (symbols : List Symbol) :
    Prop :=
  ∃ symbol_pcs path, s.first cubin_id mod_id = some (symbol_pcs, path) ∧
    registeredSymbols env path symbol_pcs = some symbols

/-- An analysis of any module finds the symbols that its first registration builds, if it proceeds,
and reads no pc behind those that were registered. -/
structure AnalysesRight (env : Environment) (s : Cubins) : Prop where
  symbols : ∀ uninitialized c m cubin_map fetched,
    fetchCubin (env.withMemory uninitialized) s.cubin_map s.cubin_cache_map c m =
      some (cubin_map, some fetched) → s.FirstBuilds env c m (fetched.symbols.map forget)
  inside : ∀ c m nsymbols path symbol_pcs, storedSymbols s.cubin_map c m = none →
    s.lazily c m = some (nsymbols, path, symbol_pcs) → PcsInside env path nsymbols symbol_pcs

/-- The number of symbols and the path of a cubin that is noted already do for the pcs of another
module: they are not too many to read, and build the symbols of the module's own. -/
def Serves (env : Environment) (nsymbols : ℕ) (first_path : CString) (symbol_pcs : List ℕ)
    (path : CString) : Prop :=
  PcsInside env first_path nsymbols symbol_pcs ∧
    ∀ symbols, nsymbols ≤ symbol_pcs.length →
      registeredSymbols env first_path (symbol_pcs.take nsymbols) = some symbols →
      registeredSymbols env path symbol_pcs = some symbols

/-- A module's own number of symbols and path do for it. -/
theorem serves_self (env : Environment) (symbol_pcs : List ℕ) (path : CString) :
    Serves env symbol_pcs.length path symbol_pcs path :=
  ⟨fun _ => min_le_left _ _, fun symbols _ hbuilt => by rwa [List.take_length] at hbuilt⟩

/-- A call agrees with the first registrations. A module that is registered for the first time, and
only noted, for a cubin that is noted already, is served by the number of symbols and the path of
the cubin. A module that was only noted before is registered with what builds the same symbols. -/
def Agrees (env : Environment) (s : Cubins) : CubinEvent → Prop
  | .cubin_register _ cubin_id mod_id symbol_pcs path =>
    storedSymbols s.cubin_map cubin_id mod_id = none → ∀ first_pcs first_path,
      s.first cubin_id mod_id = some (first_pcs, first_path) →
      ∀ symbols, registeredSymbols env path symbol_pcs = some symbols →
        registeredSymbols env first_path first_pcs = some symbols
  | .cubin_cache_register cubin_id mod_id symbol_pcs path =>
    s.first cubin_id mod_id = none → ∀ cubin_cache, s.cubin_cache_map.find? cubin_id =
      some cubin_cache → Serves env cubin_cache.nsymbols cubin_cache.path symbol_pcs path
  | .analyze _ _ _ => True

/-- A call gives the same arguments: a module that is only noted comes with the number of symbols
and the path of its cubin, if this is noted already, and a module that was only noted before is
registered with the pcs and the path that it was noted with. -/
def SameArguments (s : Cubins) : CubinEvent → Prop
  | .cubin_register _ cubin_id mod_id symbol_pcs path =>
    storedSymbols s.cubin_map cubin_id mod_id = none → ∀ first,
      s.first cubin_id mod_id = some first → first = (symbol_pcs, path)
  | .cubin_cache_register cubin_id mod_id symbol_pcs path =>
    s.first cubin_id mod_id = none → ∀ cubin_cache, s.cubin_cache_map.find? cubin_id =
      some cubin_cache → cubin_cache.nsymbols = symbol_pcs.length ∧ cubin_cache.path = path
  | .analyze _ _ _ => True

/-- A call that is rejected because the module is there changes neither map. An analysis registers
only modules that are not there. -/
def KeepsRejected (env : Environment) (s : Cubins) : CubinEvent → Prop
  | .cubin_register uninitialized cubin_id mod_id symbol_pcs path => ∀ cubin_map,
    cubinRegister (env.withMemory uninitialized) s.cubin_map cubin_id mod_id symbol_pcs path =
      some (.REDSHOW_ERROR_DUPLICATE_ENTRY, cubin_map) → cubin_map = s.cubin_map
  | .cubin_cache_register cubin_id mod_id symbol_pcs path => ∀ cubin_cache_map,
    cubinCacheRegister s.cubin_cache_map cubin_id mod_id symbol_pcs path =
      (.REDSHOW_ERROR_DUPLICATE_ENTRY, cubin_cache_map) → cubin_cache_map = s.cubin_cache_map
  | .analyze _ _ _ => True

/-! ## An analysis -/

section

variable {c m nsymbols : ℕ} {s s' : Cubins} {e : CubinEvent} {symbols : List Symbol}
  {fetched : Option Fetched}

/-- An analysis of a module whose symbols are stored. -/
theorem fetchCubin_of_stored (env : Environment) (cubin_cache_map : CubinCacheMap)
    (h : storedSymbols cubin_map c m = some symbols) :
    ∃ fetched, fetchCubin env cubin_map cubin_cache_map c m = some (cubin_map, some fetched) ∧
      fetched.symbols = symbols := by
  rw [← lookupCubin_symbols] at h
  obtain ⟨fetched, hlookup, rfl⟩ := Option.map_eq_some_iff.1 h
  exact ⟨fetched, by rw [fetchCubin, hlookup], rfl⟩

theorem lookupCubin_eq_none (h : storedSymbols cubin_map c m = none) :
    lookupCubin cubin_map c m = none := by
  rwa [← lookupCubin_symbols, Option.map_eq_none_iff] at h

/-- An analysis of a module that is neither stored nor noted. -/
theorem fetchCubin_of_unknown (env : Environment) (h : storedSymbols s.cubin_map c m = none)
    (hlazily : s.lazily c m = none) :
    fetchCubin env s.cubin_map s.cubin_cache_map c m = some (s.cubin_map, none) := by
  rw [lazily, Option.map_eq_none_iff] at hlazily
  rw [fetchCubin, lookupCubin_eq_none h, hlazily]

/-- An analysis of a module that is only noted proceeds when the symbols can be built, and stores
them. -/
theorem fetchCubin_of_noted (env : Environment) (uninitialized : ℕ → ℕ → ℕ)
    (h : storedSymbols s.cubin_map c m = none)
    (hlazily : s.lazily c m = some (nsymbols, path, symbol_pcs)) :
    (∀ cubin_map' fetched, fetchCubin (env.withMemory uninitialized) s.cubin_map s.cubin_cache_map
        c m = some (cubin_map', fetched) →
      nsymbols ≤ symbol_pcs.length ∧ ∃ symbols,
        registeredSymbols env path (symbol_pcs.take nsymbols) = some (symbols.map forget) ∧
        fetched.map Fetched.symbols = some symbols ∧
        ∀ c' m', storedSymbols cubin_map' c' m' =
          if c' = c ∧ m' = m then some symbols else storedSymbols s.cubin_map c' m') ∧
    (nsymbols ≤ symbol_pcs.length →
      (registeredSymbols env path (symbol_pcs.take nsymbols)).isSome →
      (fetchCubin (env.withMemory uninitialized) s.cubin_map s.cubin_cache_map c m).isSome) := by
  obtain ⟨⟨cubin_cache, pcs⟩, hcached, hpair⟩ := Option.map_eq_some_iff.1 hlazily
  cases hpair
  unfold fetchCubin
  simp only [lookupCubin_eq_none h, hcached]
  refine ⟨fun cubin_map' fetched hfetch => ?_, fun hlen hsome => ?_⟩
  · split_ifs at hfetch with hlen
    obtain ⟨⟨result, after⟩, hregister, hpair⟩ := Option.map_eq_some_iff.1 hfetch
    obtain ⟨symbols, hbuilt, hstored⟩ := cubinRegister_spec hregister
    rw [h, if_neg (by simp)] at hstored
    cases hpair
    refine ⟨hlen, symbols, hbuilt, ?_, hstored.2⟩
    rw [if_pos hstored.1, lookupCubin_symbols, hstored.2, if_pos ⟨rfl, rfl⟩]
  · rw [if_pos hlen, Option.isSome_map, cubinRegister_isSome_iff]
    exact hsome

/-! ## One module -/

/-- An analysis of a module finds what it should, from what is stored and noted for it. -/
def RightAt (env : Environment) (s : Cubins) (c m : ℕ) : Prop :=
  match storedSymbols s.cubin_map c m with
  | some symbols => s.FirstBuilds env c m (symbols.map forget)
  | none => ∀ nsymbols path symbol_pcs, s.lazily c m = some (nsymbols, path, symbol_pcs) →
    PcsInside env path nsymbols symbol_pcs ∧ ∀ symbols, nsymbols ≤ symbol_pcs.length →
      registeredSymbols env path (symbol_pcs.take nsymbols) = some symbols →
      s.FirstBuilds env c m symbols

theorem rightAt_of_stored (h : storedSymbols s.cubin_map c m = some symbols) :
    RightAt env s c m ↔ s.FirstBuilds env c m (symbols.map forget) := by
  rw [RightAt, h]

theorem rightAt_of_noted (h : storedSymbols s.cubin_map c m = none) : RightAt env s c m ↔
    ∀ nsymbols path symbol_pcs, s.lazily c m = some (nsymbols, path, symbol_pcs) →
      PcsInside env path nsymbols symbol_pcs ∧ ∀ symbols, nsymbols ≤ symbol_pcs.length →
        registeredSymbols env path (symbol_pcs.take nsymbols) = some symbols →
        s.FirstBuilds env c m symbols := by
  rw [RightAt, h]

/-- A module for which nothing changes stays right. -/
theorem rightAt_congr (hstored : storedSymbols s'.cubin_map c m = storedSymbols s.cubin_map c m)
    (hlazily : s'.lazily c m = s.lazily c m) (hfirst : s'.first c m = s.first c m) :
    RightAt env s' c m ↔ RightAt env s c m := by
  unfold RightAt FirstBuilds
  rw [hstored, hlazily, hfirst]

/-- The analyses are right when each module is. -/
theorem analysesRight_iff : AnalysesRight env s ↔ ∀ c m, RightAt env s c m := by
  refine ⟨fun hright c m => ?_, fun hright => ⟨fun u c m cubin_map' fetched hfetch => ?_,
    fun c m nsymbols path symbol_pcs hstored hlazily =>
      ((rightAt_of_noted hstored).1 (hright c m) _ _ _ hlazily).1⟩⟩
  · cases hstored : storedSymbols s.cubin_map c m with
    | some symbols =>
      obtain ⟨fetched, hfetch, rfl⟩ :=
        fetchCubin_of_stored (env.withMemory fun _ _ => 0) s.cubin_cache_map hstored
      exact (rightAt_of_stored hstored).2 (hright.symbols _ c m _ _ hfetch)
    | none =>
      -- Whatever an analysis would build, one on empty memory does build.
      refine (rightAt_of_noted hstored).2 fun nsymbols path symbol_pcs hlazily =>
        ⟨hright.inside c m _ _ _ hstored hlazily, fun symbols hlen hbuilt => ?_⟩
      have hnoted := fetchCubin_of_noted env (fun _ _ => 0) hstored hlazily
      obtain ⟨⟨cubin_map', fetched⟩, hfetch⟩ :=
        Option.isSome_iff_exists.1 (hnoted.2 hlen (by simp [hbuilt]))
      obtain ⟨-, symbols', hbuilt', hfetched, -⟩ := hnoted.1 _ _ hfetch
      obtain ⟨fetched, rfl, rfl⟩ := Option.map_eq_some_iff.1 hfetched
      rw [← Option.some.inj (hbuilt'.symm.trans hbuilt)]
      exact hright.symbols _ c m _ _ hfetch
  · cases hstored : storedSymbols s.cubin_map c m with
    | some symbols =>
      obtain ⟨fetched', hfetch', rfl⟩ :=
        fetchCubin_of_stored (env.withMemory u) s.cubin_cache_map hstored
      cases hfetch.symm.trans hfetch'
      exact (rightAt_of_stored hstored).1 (hright c m)
    | none =>
      cases hlazily : s.lazily c m with
      | none => cases hfetch.symm.trans (fetchCubin_of_unknown (env.withMemory u) hstored hlazily)
      | some noted =>
        obtain ⟨nsymbols, path, symbol_pcs⟩ := noted
        obtain ⟨hlen, symbols, hbuilt, hfetched, -⟩ :=
          (fetchCubin_of_noted env u hstored hlazily).1 _ _ hfetch
        cases hfetched
        exact ((rightAt_of_noted hstored).1 (hright c m) _ _ _ hlazily).2 _ hlen hbuilt

/-- What is stored and noted for a module, and its first registration: the module is stored or noted
once it has been registered, and the pcs that it waits with are those of its first registration. -/
structure InvAt (s : Cubins) (c m : ℕ) : Prop where
  known : (s.first c m).isSome ↔ (storedSymbols s.cubin_map c m).isSome ∨ (s.lazily c m).isSome
  waits : storedSymbols s.cubin_map c m = none → ∀ nsymbols path symbol_pcs,
    s.lazily c m = some (nsymbols, path, symbol_pcs) →
    ∃ first_path, s.first c m = some (symbol_pcs, first_path)

theorem invAt_congr (hstored : storedSymbols s'.cubin_map c m = storedSymbols s.cubin_map c m)
    (hlazily : s'.lazily c m = s.lazily c m) (hfirst : s'.first c m = s.first c m)
    (h : InvAt s c m) : InvAt s' c m := by
  constructor
  · rw [hstored, hlazily, hfirst]
    exact h.known
  · rw [hstored, hlazily, hfirst]
    exact h.waits

/-! ## The steps -/

theorem noteFirst_self (s : Cubins) (cubin_id mod_id : ℕ) (symbol_pcs : List ℕ)
    (path : CString) : s.noteFirst cubin_id mod_id symbol_pcs path cubin_id mod_id =
      some ((s.first cubin_id mod_id).getD (symbol_pcs, path)) :=
  if_pos ⟨rfl, rfl⟩

theorem noteFirst_of_ne (s : Cubins) (symbol_pcs : List ℕ) (path : CString)
    (h : ¬(c = cubin_id ∧ m = mod_id)) :
    s.noteFirst cubin_id mod_id symbol_pcs path c m = s.first c m :=
  if_neg h

/-- A module that has been registered keeps its first registration. -/
theorem noteFirst_of_known (s : Cubins) (symbol_pcs : List ℕ) (path : CString)
    (h : (s.first cubin_id mod_id).isSome) :
    s.noteFirst cubin_id mod_id symbol_pcs path = s.first := by
  obtain ⟨first, hfirst⟩ := Option.isSome_iff_exists.1 h
  funext c m
  by_cases hcm : c = cubin_id ∧ m = mod_id
  · rw [hcm.1, hcm.2, noteFirst_self, hfirst, Option.getD_some]
  · exact noteFirst_of_ne s symbol_pcs path hcm

/-- `redshow_cubin_register` builds symbols, which are stored for a module that is new. -/
theorem step_cubin_register
    (h : s.step env (.cubin_register uninitialized c m symbol_pcs path) = some s') :
    ∃ symbols, registeredSymbols env path symbol_pcs = some (symbols.map forget) ∧
      s'.cubin_cache_map = s.cubin_cache_map ∧ s'.first = s.noteFirst c m symbol_pcs path ∧
      if (storedSymbols s.cubin_map c m).isSome then s'.cubin_map = s.cubin_map
      else ∀ c' m', storedSymbols s'.cubin_map c' m' =
        if c' = c ∧ m' = m then some symbols else storedSymbols s.cubin_map c' m' := by
  obtain ⟨⟨result, cubin_map'⟩, hregister, hs'⟩ := Option.map_eq_some_iff.1 h
  obtain ⟨symbols, hbuilt, hstored⟩ := cubinRegister_spec hregister
  cases hs'
  refine ⟨symbols, hbuilt, rfl, rfl, ?_⟩
  split_ifs with hthere
  · rw [if_pos hthere] at hstored
    exact hstored.2
  · rw [if_neg hthere] at hstored
    exact hstored.2

/-- `redshow_cubin_cache_register` notes the pcs of a module that is new, and the number of symbols
and the path of a cubin that is new. -/
theorem step_cubin_cache_register
    (h : s.step env (.cubin_cache_register c m symbol_pcs path) = some s') :
    s'.cubin_map = s.cubin_map ∧ s'.first = s.noteFirst c m symbol_pcs path ∧
      if (s.lazily c m).isSome then s'.cubin_cache_map = s.cubin_cache_map
      else ∃ nsymbols first_path,
        (match s.cubin_cache_map.find? c with
          | none => nsymbols = symbol_pcs.length ∧ first_path = path
          | some cubin_cache =>
            nsymbols = cubin_cache.nsymbols ∧ first_path = cubin_cache.path) ∧
        ∀ c' m', s'.lazily c' m' =
          if c' = c ∧ m' = m then some (nsymbols, first_path, symbol_pcs) else s.lazily c' m' := by
  cases h
  refine ⟨rfl, rfl, ?_⟩
  have hnoted := cachedPcs_cubinCacheRegister s.cubin_cache_map c m symbol_pcs path
  unfold lazily
  rw [Option.isSome_map]
  split_ifs with hthere
  · rw [if_pos hthere] at hnoted
    rw [hnoted]
  · rw [if_neg hthere] at hnoted
    obtain ⟨nsymbols, first_path, hfirst, -, hnoted⟩ := hnoted
    exact ⟨nsymbols, first_path, hfirst, hnoted⟩

/-- An analysis stores symbols for a module that is only noted, and nothing else. -/
theorem step_analyze (h : s.step env (.analyze uninitialized c m) = some s') :
    s'.cubin_cache_map = s.cubin_cache_map ∧ s'.first = s.first ∧
      (s'.cubin_map = s.cubin_map ∨ storedSymbols s.cubin_map c m = none ∧
        ∃ nsymbols path symbol_pcs symbols, s.lazily c m = some (nsymbols, path, symbol_pcs) ∧
          nsymbols ≤ symbol_pcs.length ∧
          registeredSymbols env path (symbol_pcs.take nsymbols) = some (symbols.map forget) ∧
          ∀ c' m', storedSymbols s'.cubin_map c' m' =
            if c' = c ∧ m' = m then some symbols else storedSymbols s.cubin_map c' m') := by
  obtain ⟨⟨cubin_map', fetched⟩, hfetch, hs'⟩ := Option.map_eq_some_iff.1 h
  cases hs'
  refine ⟨rfl, rfl, ?_⟩
  cases hstored : storedSymbols s.cubin_map c m with
  | some symbols =>
    obtain ⟨fetched', hfetch', -⟩ :=
      fetchCubin_of_stored (env.withMemory uninitialized) s.cubin_cache_map hstored
    cases hfetch.symm.trans hfetch'
    exact .inl rfl
  | none =>
    cases hlazily : s.lazily c m with
    | none =>
      cases hfetch.symm.trans (fetchCubin_of_unknown (env.withMemory uninitialized) hstored hlazily)
      exact .inl rfl
    | some noted =>
      obtain ⟨nsymbols, path, symbol_pcs⟩ := noted
      obtain ⟨hlen, symbols, hbuilt, -, hafter⟩ :=
        (fetchCubin_of_noted env uninitialized hstored hlazily).1 _ _ hfetch
      exact .inr ⟨rfl, nsymbols, path, symbol_pcs, symbols, rfl, hlen, hbuilt, hafter⟩

theorem lazily_congr (h : s'.cubin_cache_map = s.cubin_cache_map) : s'.lazily = s.lazily := by
  unfold lazily
  rw [h]

/-- A call changes what is stored and noted for its own module only. -/
theorem step_frame (h : s.step env e = some s') (hne : (c, m) ≠ e.target) :
    storedSymbols s'.cubin_map c m = storedSymbols s.cubin_map c m ∧
      s'.lazily c m = s.lazily c m ∧ s'.first c m = s.first c m := by
  cases e with
  | cubin_register uninitialized cubin_id mod_id symbol_pcs path =>
    have hother : ¬(c = cubin_id ∧ m = mod_id) := fun hcm => hne (Prod.ext hcm.1 hcm.2)
    obtain ⟨symbols, -, hcache, hfirst, hmap⟩ := step_cubin_register h
    refine ⟨?_, by rw [lazily_congr hcache], by rw [hfirst, noteFirst_of_ne _ _ _ hother]⟩
    split_ifs at hmap
    · rw [hmap]
    · rw [hmap, if_neg hother]
  | cubin_cache_register cubin_id mod_id symbol_pcs path =>
    have hother : ¬(c = cubin_id ∧ m = mod_id) := fun hcm => hne (Prod.ext hcm.1 hcm.2)
    obtain ⟨hmap, hfirst, hcache⟩ := step_cubin_cache_register h
    refine ⟨by rw [hmap], ?_, by rw [hfirst, noteFirst_of_ne _ _ _ hother]⟩
    split_ifs at hcache
    · rw [lazily_congr hcache]
    · obtain ⟨_, _, -, hlazily⟩ := hcache
      rw [hlazily, if_neg hother]
  | analyze uninitialized cubin_id mod_id =>
    have hother : ¬(c = cubin_id ∧ m = mod_id) := fun hcm => hne (Prod.ext hcm.1 hcm.2)
    obtain ⟨hcache, hfirst, hmap⟩ := step_analyze h
    refine ⟨?_, by rw [lazily_congr hcache], by rw [hfirst]⟩
    obtain hmap | ⟨-, _, _, _, _, -, -, -, hmap⟩ := hmap
    · rw [hmap]
    · rw [hmap, if_neg hother]

/-- The invariant survives a call at its own module. -/
theorem invAt_target (htarget : e.target = (c, m)) (hinv : InvAt s c m)
    (h : s.step env e = some s') : InvAt s' c m := by
  cases e with
  | cubin_register uninitialized cubin_id mod_id symbol_pcs path =>
    cases htarget
    obtain ⟨symbols, -, hcache, hfirst, hmap⟩ := step_cubin_register h
    -- The module is stored after the call, whether it was there or not.
    have hstored : (storedSymbols s'.cubin_map c m).isSome := by
      split_ifs at hmap with hthere
      · rwa [hmap]
      · rw [hmap, if_pos ⟨rfl, rfl⟩, Option.isSome_some]
    have hknown : (s'.first c m).isSome := by
      rw [hfirst, noteFirst_self, Option.isSome_some]
    exact ⟨iff_of_true hknown (.inl hstored), fun hnone => by
      rw [hnone] at hstored
      cases hstored⟩
  | cubin_cache_register cubin_id mod_id symbol_pcs path =>
    cases htarget
    obtain ⟨hmap, hfirst, hcache⟩ := step_cubin_cache_register h
    have hknown : (s'.first c m).isSome := by
      rw [hfirst, noteFirst_self, Option.isSome_some]
    split_ifs at hcache with hthere
    · rw [noteFirst_of_known s _ _ (hinv.known.2 (.inr hthere))] at hfirst
      exact invAt_congr (by rw [hmap]) (by rw [lazily_congr hcache]) (by rw [hfirst])
        hinv
    · obtain ⟨nsymbols, first_path, -, hlazily⟩ := hcache
      have hself := hlazily c m
      rw [if_pos ⟨rfl, rfl⟩] at hself
      refine ⟨iff_of_true hknown (.inr (by rw [hself, Option.isSome_some])),
        fun hnone nsymbols' path' pcs' hlazily' => ?_⟩
      -- The module was neither stored nor noted, so this is its first registration.
      have hnew : s.first c m = none := by
        rw [← Option.not_isSome_iff_eq_none, hinv.known, ← hmap, hnone]
        simpa using hthere
      cases hself.symm.trans hlazily'
      exact ⟨path, by rw [hfirst, noteFirst_self, hnew, Option.getD_none]⟩
  | analyze uninitialized cubin_id mod_id =>
    cases htarget
    obtain ⟨hcache, hfirst, hmap | ⟨-, _, _, _, symbols, hlazily, -, -, hmap⟩⟩ := step_analyze h
    · exact invAt_congr (by rw [hmap]) (by rw [lazily_congr hcache]) (by rw [hfirst])
        hinv
    · -- The module was noted, so that it has been registered, and is stored now.
      have hself := hmap c m
      rw [if_pos ⟨rfl, rfl⟩] at hself
      refine ⟨iff_of_true ?_ (.inl (by rw [hself, Option.isSome_some])), fun hnone => ?_⟩
      · rw [hfirst]
        exact hinv.known.2 (.inr (by rw [hlazily, Option.isSome_some]))
      · cases hself.symm.trans hnone

/-- The invariant survives a call. -/
theorem inv_step (hinv : ∀ c m, InvAt s c m) (h : s.step env e = some s') :
    ∀ c m, InvAt s' c m := by
  intro c m
  by_cases htarget : (c, m) = e.target
  · exact invAt_target htarget.symm (hinv c m) h
  · obtain ⟨hstored, hlazily, hfirst⟩ := step_frame h htarget
    exact invAt_congr hstored hlazily hfirst (hinv c m)

/-- A module that is registered is right after the call if the call agrees with its first
registration. -/
theorem rightAt_cubin_register (hinv : InvAt s c m) (hright : RightAt env s c m)
    (h : s.step env (.cubin_register uninitialized c m symbol_pcs path) = some s') :
    RightAt env s' c m ↔
      Agrees env s (.cubin_register uninitialized c m symbol_pcs path) := by
  obtain ⟨symbols, hbuilt, hcache, hfirst, hmap⟩ := step_cubin_register h
  split_ifs at hmap with hthere
  · -- The module is there, and nothing changes.
    rw [noteFirst_of_known s _ _ (hinv.known.2 (.inl hthere))] at hfirst
    have hsame : RightAt env s' c m :=
      (rightAt_congr (by rw [hmap]) (by rw [lazily_congr hcache]) (by rw [hfirst])).2 hright
    exact iff_of_true hsame fun hnone => by
      rw [hnone] at hthere
      cases hthere
  · -- The symbols of this call are stored, beside the first registration of the module.
    have hnone : storedSymbols s.cubin_map c m = none := Option.not_isSome_iff_eq_none.1 hthere
    have hself := hmap c m
    rw [if_pos ⟨rfl, rfl⟩] at hself
    have hnoted : s'.first c m = some ((s.first c m).getD (symbol_pcs, path)) := by
      rw [hfirst, noteFirst_self]
    rw [rightAt_of_stored hself]
    unfold FirstBuilds
    rw [hnoted]
    cases hbefore : s.first c m with
    | none =>
      exact iff_of_true ⟨symbol_pcs, path, rfl, hbuilt⟩ fun _ _ _ hfalse => by
        cases hbefore.symm.trans hfalse
    | some first =>
      obtain ⟨first_pcs, first_path⟩ := first
      constructor
      · rintro ⟨_, _, hpair, hfirst_built⟩ - _ _ hpair' symbols' hbuilt'
        cases hpair
        cases hbefore.symm.trans hpair'
        rwa [← Option.some.inj (hbuilt.symm.trans hbuilt')]
      · exact fun hagrees => ⟨first_pcs, first_path, rfl, hagrees hnone _ _ hbefore _ hbuilt⟩

/-- A module that waits with its own pcs, and a number of symbols and a path, is right if these do
for it. -/
theorem rightAt_iff_serves {first_path : CString} (hstored : storedSymbols s.cubin_map c m = none)
    (hlazily : s.lazily c m = some (nsymbols, first_path, symbol_pcs))
    (hfirst : s.first c m = some (symbol_pcs, path)) :
    RightAt env s c m ↔ Serves env nsymbols first_path symbol_pcs path := by
  rw [rightAt_of_noted hstored, hlazily]
  unfold FirstBuilds Serves
  rw [hfirst]
  constructor
  · intro hright
    obtain ⟨hinside, hbuilds⟩ := hright _ _ _ rfl
    refine ⟨hinside, fun symbols hlen hbuilt => ?_⟩
    obtain ⟨_, _, hpair, hown⟩ := hbuilds symbols hlen hbuilt
    cases hpair
    exact hown
  · rintro ⟨hinside, hbuilds⟩ _ _ _ hpair
    cases hpair
    exact ⟨hinside, fun symbols hlen hbuilt =>
      ⟨symbol_pcs, path, rfl, hbuilds symbols hlen hbuilt⟩⟩

/-- A module that has been registered stays right when it is noted: its symbols are stored, or it
waits with its pcs already. -/
theorem rightAt_of_known (hinv : InvAt s c m) (hright : RightAt env s c m)
    (h : s.step env (.cubin_cache_register c m symbol_pcs path) = some s')
    (hknown : (s.first c m).isSome) : RightAt env s' c m := by
  obtain ⟨hmap, hfirst, hcache⟩ := step_cubin_cache_register h
  rw [noteFirst_of_known s _ _ hknown] at hfirst
  cases hstored : storedSymbols s.cubin_map c m with
  | some symbols =>
    have hstored' : storedSymbols s'.cubin_map c m = some symbols := by rw [hmap, hstored]
    rw [rightAt_of_stored hstored']
    unfold FirstBuilds
    rw [hfirst]
    exact (rightAt_of_stored hstored).1 hright
  | none =>
    have hlazily : (s.lazily c m).isSome := by
      simpa [hstored] using hinv.known.1 hknown
    rw [if_pos hlazily] at hcache
    exact (rightAt_congr (by rw [hmap]) (by rw [lazily_congr hcache]) (by rw [hfirst])).2 hright

/-- A module that is noted is right after the call if the call agrees with what its cubin is noted
with. -/
theorem rightAt_cubin_cache_register (hinv : InvAt s c m) (hright : RightAt env s c m)
    (h : s.step env (.cubin_cache_register c m symbol_pcs path) = some s') :
    RightAt env s' c m ↔ Agrees env s (.cubin_cache_register c m symbol_pcs path) := by
  by_cases hknown : (s.first c m).isSome
  · refine iff_of_true (rightAt_of_known hinv hright h hknown) fun hnone => ?_
    rw [hnone] at hknown
    cases hknown
  · obtain ⟨hmap, hfirst, hcache⟩ := step_cubin_cache_register h
    have hnone : s.first c m = none := Option.not_isSome_iff_eq_none.1 hknown
    obtain ⟨hstored, hlazily⟩ := not_or.1 (mt hinv.known.2 hknown)
    rw [if_neg hlazily] at hcache
    obtain ⟨nsymbols, first_path, hcubin, hlazily'⟩ := hcache
    -- After the call the module waits with its own pcs, and the cubin's number and path.
    have hstored' : storedSymbols s'.cubin_map c m = none := by
      rw [hmap]
      exact Option.not_isSome_iff_eq_none.1 hstored
    have hself := hlazily' c m
    rw [if_pos ⟨rfl, rfl⟩] at hself
    have hnoted : s'.first c m = some (symbol_pcs, path) := by
      rw [hfirst, noteFirst_self, hnone, Option.getD_none]
    rw [rightAt_iff_serves hstored' hself hnoted]
    cases hcubin' : s.cubin_cache_map.find? c with
    | none =>
      rw [hcubin'] at hcubin
      obtain ⟨rfl, rfl⟩ := hcubin
      exact iff_of_true (serves_self env symbol_pcs first_path) fun _ _ hfalse => by
        cases hcubin'.symm.trans hfalse
    | some cubin_cache =>
      rw [hcubin'] at hcubin
      obtain ⟨rfl, rfl⟩ := hcubin
      constructor
      · intro hserves _ _ hpair
        cases hcubin'.symm.trans hpair
        exact hserves
      · exact fun hagrees => hagrees hnone _ hcubin'

/-- A module that is analyzed stays right. -/
theorem rightAt_analyze (hright : RightAt env s c m)
    (h : s.step env (.analyze uninitialized c m) = some s') : RightAt env s' c m := by
  obtain ⟨hcache, hfirst, hmap | ⟨hnone, _, _, _, symbols, hlazily, hlen, hbuilt, hmap⟩⟩ :=
    step_analyze h
  · exact (rightAt_congr (by rw [hmap]) (by rw [lazily_congr hcache]) (by rw [hfirst])).2 hright
  · have hself := hmap c m
    rw [if_pos ⟨rfl, rfl⟩] at hself
    rw [rightAt_of_stored hself]
    unfold FirstBuilds
    rw [hfirst]
    exact ((rightAt_of_noted hnone).1 hright _ _ _ hlazily).2 _ hlen hbuilt

/-- A call at which all modules are right leaves them right if it agrees with the first
registrations. -/
theorem analysesRight_step (hinv : ∀ c m, InvAt s c m) (hright : AnalysesRight env s)
    (h : s.step env e = some s') : AnalysesRight env s' ↔ Agrees env s e := by
  rw [analysesRight_iff] at hright ⊢
  have hother : ∀ c m, (c, m) ≠ e.target → RightAt env s' c m := fun c m hne => by
    obtain ⟨hstored, hlazily, hfirst⟩ := step_frame h hne
    exact (rightAt_congr hstored hlazily hfirst).2 (hright c m)
  have htarget : RightAt env s' e.target.1 e.target.2 ↔ Agrees env s e := by
    cases e with
    | cubin_register uninitialized cubin_id mod_id symbol_pcs path =>
      exact rightAt_cubin_register (hinv cubin_id mod_id) (hright cubin_id mod_id) h
    | cubin_cache_register cubin_id mod_id symbol_pcs path =>
      exact rightAt_cubin_cache_register (hinv cubin_id mod_id) (hright cubin_id mod_id) h
    | analyze uninitialized cubin_id mod_id =>
      exact iff_of_true (rightAt_analyze (hright cubin_id mod_id) h) trivial
  -- All other modules are as they were.
  rw [← htarget]
  refine ⟨fun hall => hall _ _, fun hself c m => ?_⟩
  by_cases hcm : (c, m) = e.target
  · obtain ⟨rfl, rfl⟩ := Prod.ext_iff.1 hcm
    exact hself
  · exact hother c m hcm

/-- A call without a result builds no symbols. -/
theorem agrees_of_step_eq_none (h : s.step env e = none) : Agrees env s e := by
  cases e with
  | cubin_register uninitialized cubin_id mod_id symbol_pcs path =>
    intro _ _ _ _ symbols hbuilt
    have hnone : cubinRegister (env.withMemory uninitialized) s.cubin_map cubin_id mod_id symbol_pcs
        path = none := Option.map_eq_none_iff.1 h
    have hsome : (cubinRegister (env.withMemory uninitialized) s.cubin_map cubin_id mod_id
        symbol_pcs path).isSome := cubinRegister_isSome_iff.2 (by rw [hbuilt, Option.isSome_some])
    rw [hnone] at hsome
    cases hsome
  | cubin_cache_register cubin_id mod_id symbol_pcs path => cases h
  | analyze uninitialized cubin_id mod_id => trivial

end

/-- Nothing is stored, noted or registered at the start. -/
theorem inv_start (c m : ℕ) : InvAt {} c m :=
  ⟨iff_of_false (by simp) (by simp [storedSymbols, lazily, cachedPcs]), fun _ _ _ _ hfalse => by
    cases hfalse⟩

theorem analysesRight_start (env : Environment) : AnalysesRight env {} :=
  analysesRight_iff.2 fun _ _ _ _ _ hfalse => by cases hfalse

/-- A call that is rejected changes neither map. -/
theorem keepsRejected (env : Environment) (s : Cubins) (e : CubinEvent) :
    KeepsRejected env s e := by
  cases e with
  | cubin_register uninitialized cubin_id mod_id symbol_pcs path =>
    intro cubin_map h
    obtain ⟨symbols, -, hresult⟩ := cubinRegister_spec h
    split_ifs at hresult
    · exact hresult.2
    · cases hresult.1
  | cubin_cache_register cubin_id mod_id symbol_pcs path =>
    intro cubin_cache_map h
    have hnoted := cachedPcs_cubinCacheRegister s.cubin_cache_map cubin_id mod_id symbol_pcs path
    rw [h] at hnoted
    split_ifs at hnoted
    · exact (Prod.ext_iff.1 hnoted).2
    · obtain ⟨_, _, -, hsuccess, -⟩ := hnoted
      cases hsuccess
  | analyze uninitialized cubin_id mod_id => trivial

/-- A call that gives the same arguments agrees with the first registrations. -/
theorem agrees_of_sameArguments (env : Environment) (s : Cubins) (e : CubinEvent)
    (h : SameArguments s e) : Agrees env s e := by
  cases e with
  | cubin_register uninitialized cubin_id mod_id symbol_pcs path =>
    intro hnone first_pcs first_path hfirst symbols hbuilt
    cases h hnone _ hfirst
    exact hbuilt
  | cubin_cache_register cubin_id mod_id symbol_pcs path =>
    intro hnone cubin_cache hcubin
    obtain ⟨hnsymbols, hpath⟩ := h hnone cubin_cache hcubin
    rw [hnsymbols, hpath]
    exact serves_self env symbol_pcs path
  | analyze uninitialized cubin_id mod_id => trivial

/-- The calls are right when every one agrees with the first registrations, which it does if it
gives the same arguments: an analysis of a module then finds the symbols that its first registration
builds and reads no pc behind those that were registered, and a call that is rejected changes
neither map. -/
theorem lazy_registration_iff (env : Environment) (es : List CubinEvent) :
    (AllStates (step env) (AnalysesRight env) {} es ∧
        AllSteps (step env) (KeepsRejected env) {} es ↔
      AllSteps (step env) (Agrees env) {} es) ∧
    (AllSteps (step env) SameArguments {} es →
      AllStates (step env) (AnalysesRight env) {} es ∧
        AllSteps (step env) (KeepsRejected env) {} es) := by
  have hkeeps : AllSteps (step env) (KeepsRejected env) {} es :=
    (allSteps_true {} es).imp fun s e _ => keepsRejected env s e
  have hright : AllStates (step env) (AnalysesRight env) {} es ↔
      AllSteps (step env) (Agrees env) {} es :=
    allStates_iff_allSteps (I := fun s => ∀ c m, InvAt s c m)
      (fun _ _ _ hinv h => inv_step hinv h) (fun _ _ _ _ h => agrees_of_step_eq_none h)
      (fun _ _ _ hinv hright h => analysesRight_step hinv hright h) inv_start
      (analysesRight_start env)
  refine ⟨(and_iff_left hkeeps).trans hright, fun hsame => ⟨hright.2 ?_, hkeeps⟩⟩
  exact hsame.imp fun s e h => agrees_of_sameArguments env s e h

/-- An environment without instruction files. -/
def noFiles : Environment where
  files _ := none
  default_data_type := .UNKNOWN
  uninitialized _ _ := 0

/-- Two modules of a cubin with one symbol each. -/
theorem lazy_registration_two_modules :
    AllStates (step noFiles) (AnalysesRight noFiles) {}
        [.cubin_cache_register 1 0 [16] [], .cubin_cache_register 1 1 [32] [],
          .analyze (fun _ _ => 0) 1 1] ∧
      AllSteps (step noFiles) (KeepsRejected noFiles) {}
        [.cubin_cache_register 1 0 [16] [], .cubin_cache_register 1 1 [32] [],
          .analyze (fun _ _ => 0) 1 1] := by
  refine (lazy_registration_iff noFiles _).2 ⟨fun _ _ h => ?_, fun s₁ h₁ => ⟨fun _ _ h => ?_,
    fun s₂ h₂ => ⟨trivial, fun s₃ h₃ => trivial⟩⟩⟩
  · cases h
  · cases h₁
    cases h
    exact ⟨rfl, rfl⟩

/-- The second module of a cubin has one symbol and the first two: an analysis reads two pcs. -/
theorem lazy_registration_reads_outside :
    ¬(AllStates (step noFiles) (AnalysesRight noFiles) {}
        [.cubin_cache_register 1 0 [16, 32] [], .cubin_cache_register 1 1 [16] []] ∧
      AllSteps (step noFiles) (KeepsRejected noFiles) {}
        [.cubin_cache_register 1 0 [16, 32] [], .cubin_cache_register 1 1 [16] []]) := by
  rintro ⟨hright, -⟩
  have hinside := ((hright.2 _ rfl).2 _ rfl).inside 1 1 2 [] [16] rfl rfl
  exact absurd (hinside rfl) (by decide)

end Cubins

end TenProf.Redshow
