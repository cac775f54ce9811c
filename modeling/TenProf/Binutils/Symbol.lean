import TenProf.Words
import TenProf.Library.Predecessor

/-!
# The symbols of a cubin

`Symbol`, `RealPC` and `SymbolVector` of `binutils/symbol.h`. No constructor of `Symbol` sets
`cubin_id`, so a new symbol has in it what its memory held before: `uninitialized step slot` is that
value for the symbol that is constructed for a slot of the vector at a step, where step 0 is the
construction of the vector.
-/

namespace TenProf.Binutils

/-- `Symbol`. -/
structure Symbol where
  cubin_id : ℕ
  index : ℕ
  offset : ℕ
  pc : ℕ
  deriving DecidableEq, Repr

/-- `RealPC`. -/
structure RealPC where
  cubin_id : ℕ
  function_index : ℕ
  pc_offset : ℕ
  cubin_offset : ℕ
  deriving DecidableEq, Repr

/-- `Symbol()` at the slots of a vector from one on. -/
def newSymbols (uninitialized : ℕ → ℕ) (first count : ℕ) : List Symbol :=
  (List.range' first count).map fun slot => ⟨uninitialized slot, 0, 0, 0⟩

/-- `SymbolVector(size)`. -/
def symbolVector (uninitialized : ℕ → ℕ) (size : ℕ) : List Symbol :=
  newSymbols uninitialized 0 size

/-- `resize` to a size that is not smaller. -/
def resize (uninitialized : ℕ → ℕ) (symbols : List Symbol) (size : ℕ) : List Symbol :=
  symbols ++ newSymbols uninitialized symbols.length (size - symbols.length)

/-- The loop of `redshow_cubin_register` that assigns the symbols their pcs, by position. -/
def assignPcs (symbols : List Symbol) (symbol_pcs : List ℕ) : List Symbol :=
  symbols.zipIdx.map fun (symbol, i) =>
    { symbol with pc := (symbol_pcs[i]?).getD symbol.pc }

/-- `std::sort` of the symbols by their pcs. -/
def sortSymbols (symbols : List Symbol) : List Symbol :=
  symbols.insertionSort fun a b => a.pc ≤ b.pc

/-- `SymbolVector::transform_pc`: the last symbol whose pc is not above the given one. -/
def transformPc (symbols : List Symbol) (pc : ℕ) : Option RealPC :=
  (symbols.takeWhile fun symbol => symbol.pc ≤ pc).getLast?.map fun symbol =>
    let pc_offset := subU64 pc symbol.pc
    { pc_offset := pc_offset
      cubin_offset := u64 (pc_offset + symbol.offset)
      function_index := symbol.index
      cubin_id := symbol.cubin_id }

/-! ## The symbols by position -/

variable {symbols : List Symbol} {symbol_pcs : List ℕ} {i p pc : ℕ} {symbol : Symbol}

@[simp] theorem getElem?_newSymbols (uninitialized : ℕ → ℕ) (first count : ℕ) (h : i < count) :
    (newSymbols uninitialized first count)[i]? = some ⟨uninitialized (first + i), 0, 0, 0⟩ := by
  simp [newSymbols, List.getElem?_range' h]

/-- A new symbol has no pc yet. -/
theorem pc_of_mem_newSymbols {uninitialized : ℕ → ℕ} {first count : ℕ}
    (h : symbol ∈ newSymbols uninitialized first count) : symbol.pc = 0 := by
  obtain ⟨slot, -, rfl⟩ := List.mem_map.1 h
  rfl

/-- `resize` leaves the symbols that are there. -/
theorem getElem?_resize (uninitialized : ℕ → ℕ) (size : ℕ) (h : i < symbols.length) :
    (resize uninitialized symbols size)[i]? = symbols[i]? :=
  List.getElem?_append_left h

@[simp] theorem length_resize (uninitialized : ℕ → ℕ) (size : ℕ) :
    (resize uninitialized symbols size).length = max symbols.length size := by
  unfold resize newSymbols
  simp
  omega

theorem getElem?_assignPcs : (assignPcs symbols symbol_pcs)[i]? =
    symbols[i]?.map fun symbol => { symbol with pc := (symbol_pcs[i]?).getD symbol.pc } := by
  simp [assignPcs, Function.comp_def]

/-- Where no symbol had a pc and the new pcs are distinct and not 0, a pc is transformed to the
symbol at the position of the greatest one that is not above it. -/
theorem transformPc_of_greatest (hzero : ∀ symbol ∈ symbols, symbol.pc = 0)
    (hnodup : symbol_pcs.Nodup) (hpos : 0 ∉ symbol_pcs) (hsymbol : symbols[i]? = some symbol)
    (hp : symbol_pcs[i]? = some p) (hpc : pc < 2^64) (hle : p ≤ pc)
    (hgreatest : ∀ q ∈ symbol_pcs, q ≤ pc → q ≤ p) :
    transformPc (sortSymbols (assignPcs symbols symbol_pcs)) pc =
      some ⟨symbol.cubin_id, symbol.index, pc - p, u64 (pc - p + symbol.offset)⟩ := by
  -- What stands at a position has the pc of that position, or none.
  have hassigned : ∀ assigned ∈ sortSymbols (assignPcs symbols symbol_pcs), assigned.pc = 0 ∨
      ∃ (j : ℕ) (old : Symbol), symbols[j]? = some old ∧ symbol_pcs[j]? = some assigned.pc ∧
        assigned = { old with pc := assigned.pc } := by
    intro assigned hmem
    obtain ⟨j, hj⟩ := List.mem_iff_getElem?.1 ((List.mem_insertionSort _).1 hmem)
    rw [getElem?_assignPcs, Option.map_eq_some_iff] at hj
    obtain ⟨old, hold, rfl⟩ := hj
    cases hpcs : symbol_pcs[j]? with
    | none => exact .inl (hzero old (List.mem_of_getElem? hold))
    | some q => exact .inr ⟨j, old, hold, hpcs, rfl⟩
  have hp0 : p ≠ 0 := fun h => hpos (h ▸ List.mem_of_getElem? hp)
  have hlast := getLast?_takeWhile_of_greatest Symbol.pc
    (l := sortSymbols (assignPcs symbols symbol_pcs)) (a := { symbol with pc := p }) (k := pc)
    (List.pairwise_insertionSort _ _) ?_ hle ?_ ?_
  · unfold transformPc
    rw [hlast]
    simp [subU64_of_le hpc hle]
  · refine (List.mem_insertionSort _).2 (List.mem_of_getElem? (i := i) ?_)
    rw [getElem?_assignPcs, hsymbol, hp]
    rfl
  · intro assigned hmem hassigned_le
    rcases hassigned assigned hmem with h0 | ⟨j, -, -, hj, -⟩
    · rw [h0]
      exact Nat.zero_le _
    · exact hgreatest _ (List.mem_of_getElem? hj) hassigned_le
  · intro assigned hmem heq
    rcases hassigned assigned hmem with h0 | ⟨j, old, hold, hj, hassigned⟩
    · exact absurd (heq.symm.trans h0) hp0
    · -- The pcs are distinct, so the position is that of `p`.
      rw [heq] at hj hassigned
      obtain ⟨hlt, -⟩ := List.getElem?_eq_some_iff.1 hp
      obtain rfl : i = j := (List.getElem?_inj hlt hnodup).1 (hp.trans hj.symm)
      rw [hassigned, Option.some_injective _ (hold.symm.trans hsymbol)]

end TenProf.Binutils
