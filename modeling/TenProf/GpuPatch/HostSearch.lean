import TenProf.GpuPatch.AuxTorchview
import TenProf.Library.OrderedMap
import TenProf.Library.While
import TenProf.Words
import Mathlib.Data.List.GetD

/-!
# The device's search and the host's map

`map_prev` of `include/utils.h` as it is compiled: on 32-bit words, and with a result only as long
as it reads inside the array. On an array that is sorted by start it finds the last range that
starts at an address or before (`map_prev_agrees`). That is the position in which `Map::prev` of the
host finds its entry, so that the index that the device reports names the block of the host.
-/

namespace TenProf.GpuPatch

variable {τ : Type*}

/-- A turn of the loop of `map_upper_bound`, on the words `low` and `high`. The loop is left without
a position when it reads outside the array. -/
def upperBoundTurn (map : List τ) (value : τ) (cmp : τ → τ → Bool) :
    ℕ × ℕ → ℕ × ℕ ⊕ Option ℕ
  | (low, high) =>
    if low < high then
      let mid := u32 (subU32 high low / 2 + low)
      match map[mid]? with
      | none => .inr none
      | some e => if cmp e value then .inl (u32 (mid + 1), high) else .inl (low, mid)
    else .inr (some low)

/-- `map_upper_bound` on words. -/
def mapUpperBoundWords (fuel : ℕ) (map : List τ) (value : τ) (len : ℕ) (cmp : τ → τ → Bool) :
    Option (Option ℕ) :=
  loop (upperBoundTurn map value cmp) fuel (0, len)

/-- `map_prev` on words. -/
def mapPrevWords (fuel : ℕ) (map : List τ) (value : τ) (len : ℕ) (cmp : τ → τ → Bool) :
    Option (Option ℕ) :=
  (mapUpperBoundWords fuel map value len cmp).map fun pos =>
    pos.map fun pos => if pos ≠ 0 then subU32 pos 1 else len

/-! ## The words of the search -/

section Words

variable {map : List τ} {value : τ} {cmp : τ → τ → Bool}

/-- The middle of two words is one, and lies between them. -/
theorem mid_eq {low high : ℕ} (hlt : low < high) (hword : high < 2^32) :
    u32 (subU32 high low / 2 + low) = (high - low) / 2 + low := by
  unfold u32 subU32
  omega

/-- The loop on words reads inside the array and ends where the loop on numbers does. -/
theorem settles_upperBound (value : τ) (cmp : τ → τ → Bool) {low high : ℕ} (hle : low ≤ high)
    (hlen : high ≤ map.length) (hword : map.length < 2^32) :
    Settles (fun fuel => loop (upperBoundTurn map value cmp) fuel (low, high))
      (some (mapUpperBoundLoop (fun i => map.getD i value) value cmp low high)) := by
  have hread : ∀ i < map.length, map[i]? = some (map.getD i value) := fun i hi => by
    rw [List.getD_eq_getElem?_getD, List.getElem?_eq_getElem hi, Option.getD_some]
  -- By induction on the turns of the loop on numbers, whose middle is inside the array.
  fun_induction mapUpperBoundLoop (fun i => map.getD i value) value cmp low high with
  | case1 low high hlt mid hcmp ih =>
    -- The middle compares, and the search goes on behind it.
    refine Settles.of_inl ?_ (ih (by omega) hlen)
    unfold upperBoundTurn
    dsimp only
    rw [if_pos hlt, mid_eq hlt (by omega), hread _ (by omega)]
    dsimp only
    rw [if_pos hcmp, u32_of_lt (by omega)]
  | case2 low high hlt mid hcmp ih =>
    -- The middle does not compare, and the search goes on before it.
    refine Settles.of_inl ?_ (ih (by omega) (by omega))
    unfold upperBoundTurn
    dsimp only
    rw [if_pos hlt, mid_eq hlt (by omega), hread _ (by omega)]
    dsimp only
    rw [if_neg hcmp]
  | case3 low high hge => exact settles_of_inr (if_neg hge)

/-- The search on words reads inside the array and finds what the search on numbers does. -/
theorem settles_mapPrev (value : τ) (cmp : τ → τ → Bool) (hword : map.length < 2^32) :
    Settles (fun fuel => mapPrevWords fuel map value map.length cmp)
      (some (mapPrev (fun i => map.getD i value) value map.length cmp)) := by
  have hloop := settles_upperBound value cmp (Nat.zero_le map.length) le_rfl hword
  have hle := mapUpperBoundLoop_le (fun i => map.getD i value) value cmp 0 map.length
    (Nat.zero_le _)
  have hend : some (mapPrev (fun i => map.getD i value) value map.length cmp) =
      (some (mapUpperBoundLoop (fun i => map.getD i value) value cmp 0 map.length)).map fun pos =>
        if pos ≠ 0 then subU32 pos 1 else map.length := by
    unfold mapPrev mapUpperBound
    rw [Option.map_some, Option.some.injEq]
    dsimp only
    split_ifs with hpos
    · unfold subU32
      omega
    · rfl
  rw [hend]
  exact hloop.map _

end Words

/-! ## The last range that starts before an address -/

section Ranges

variable {ranges : List MemoryRange} {address pos : ℕ}

/-- A position is that of the last range that starts at an address or before, or the number of
ranges if none does. -/
def PrevPosition (ranges : List MemoryRange) (address pos : ℕ) : Prop :=
  (∃ r, ranges[pos]? = some r ∧ r.start ≤ address ∧
    ∀ j r', pos < j → ranges[j]? = some r' → address < r'.start) ∨
  pos = ranges.length ∧ ∀ r ∈ ranges, address < r.start

/-- In ranges that are sorted by start the comparison holds up to some position and no further. -/
theorem comparator_mono_of_sorted (hsorted : ranges.Pairwise fun r r' => r.start ≤ r'.start)
    (address i j : ℕ) (hij : i ≤ j) (hj : j < ranges.length)
    (hcmp : addressComparator (ranges.getD j ⟨address, 0⟩) ⟨address, 0⟩) :
    addressComparator (ranges.getD i ⟨address, 0⟩) ⟨address, 0⟩ := by
  rcases hij.eq_or_lt with rfl | hlt
  · exact hcmp
  · have hle := List.pairwise_iff_getElem.1 hsorted i j (hlt.trans hj) hj hlt
    rw [List.getD_eq_getElem _ _ hj] at hcmp
    rw [List.getD_eq_getElem _ _ (hlt.trans hj)]
    simp only [addressComparator, decide_eq_true_eq] at hcmp ⊢
    exact hle.trans hcmp

/-- On ranges that are sorted by start the search finds the last one that starts at an address or
before. -/
theorem prevPosition_mapPrev (hsorted : ranges.Pairwise fun r r' => r.start ≤ r'.start)
    (address : ℕ) :
    PrevPosition ranges address
      (mapPrev (fun i => ranges.getD i ⟨address, 0⟩) ⟨address, 0⟩ ranges.length
        addressComparator) := by
  have hmono := comparator_mono_of_sorted hsorted address
  by_cases hsome : ∃ i, i < ranges.length ∧
      addressComparator (ranges.getD i ⟨address, 0⟩) ⟨address, 0⟩
  · obtain ⟨i, hi, hcmp⟩ := hsome
    have hlt := mapPrev_lt hmono hi hcmp
    obtain ⟨hat, hlast⟩ := (mapPrev_eq_iff hmono hlt).1 rfl
    rw [List.getD_eq_getElem _ _ hlt] at hat
    -- The position compares, and none behind it does.
    refine .inl ⟨_, List.getElem?_eq_getElem hlt, of_decide_eq_true hat, fun j r' hj hr' => ?_⟩
    obtain ⟨hjlen, rfl⟩ := List.getElem?_eq_some_iff.1 hr'
    have hnot := hlast j hjlen hj
    rw [List.getD_eq_getElem _ _ hjlen] at hnot
    simpa [addressComparator] using hnot
  · -- No range compares, so that none is found.
    have hnone : ∀ i < ranges.length, address < (ranges.getD i ⟨address, 0⟩).start := fun i hi => by
      have hnot : ¬addressComparator (ranges.getD i ⟨address, 0⟩) ⟨address, 0⟩ := fun hcmp =>
        hsome ⟨i, hi, hcmp⟩
      simpa [addressComparator] using hnot
    refine .inr ⟨?_, fun r hr => ?_⟩
    · refine le_antisymm (mapPrev_le _ _ _ _) (not_lt.1 fun hlt => ?_)
      have hat := ((mapPrev_eq_iff hmono hlt).1 rfl).1
      exact hsome ⟨_, hlt, hat⟩
    · obtain ⟨i, hi, rfl⟩ := List.getElem_of_mem hr
      have hlt := hnone i hi
      rwa [List.getD_eq_getElem _ _ hi] at hlt

/-- In a map with the same keys `Map::prev` finds the entry at that position. -/
theorem PrevPosition.getElem?_eq {β : Type} {m : OrderedMap ℕ β}
    (h : PrevPosition ranges address pos)
    (hkeys : m.toList.map Prod.fst = ranges.map MemoryRange.start) :
    m.toList[pos]? = m.prev address := by
  have hkey : ∀ (i : ℕ) (e : ℕ × β), m.toList[i]? = some e →
      ∃ r : MemoryRange, ranges[i]? = some r ∧ r.start = e.1 := by
    intro i e he
    have hfst : (m.toList.map Prod.fst)[i]? = some e.1 := by rw [List.getElem?_map, he]; rfl
    rw [hkeys, List.getElem?_map] at hfst
    exact Option.map_eq_some_iff.1 hfst
  have hlength : m.toList.length = ranges.length := by
    simpa using congrArg List.length hkeys
  rcases h with ⟨r, hr, hle, hlast⟩ | ⟨rfl, hnone⟩
  · obtain ⟨hpos, -⟩ := List.getElem?_eq_some_iff.1 hr
    have hat := List.getElem?_eq_getElem (hlength.symm ▸ hpos : pos < m.toList.length)
    obtain ⟨r₁, hr₁, hstart⟩ := hkey pos _ hat
    obtain rfl : r₁ = r := Option.some.inj (hr₁.symm.trans hr)
    rw [hat]
    refine ((m.prev_eq_some_iff _ _).2 ⟨⟨List.getElem_mem _, hstart ▸ hle⟩, ?_⟩).symm
    -- What stands behind the position starts behind the address.
    intro e he hele
    obtain ⟨j, hj, rfl⟩ := List.getElem_of_mem he
    rcases Nat.lt_trichotomy j pos with hlt | rfl | hgt
    · exact .inr (List.pairwise_iff_getElem.1 m.sorted j pos hj _ hlt)
    · exact .inl rfl
    · obtain ⟨r', hr', hstart'⟩ := hkey j _ (List.getElem?_eq_getElem hj)
      exact absurd (hlast j r' hgt hr') (hstart' ▸ hele).not_gt
  · rw [List.getElem?_eq_none hlength.le, eq_comm, OrderedMap.prev_eq_none_iff]
    intro e he
    obtain ⟨i, hi, rfl⟩ := List.getElem_of_mem he
    obtain ⟨r, hr, hstart⟩ := hkey i _ (List.getElem?_eq_getElem hi)
    exact hstart ▸ hnone r (List.mem_of_getElem? hr)

/-- On ranges that are sorted by start `map_prev` ends, reads inside the array, and finds the last
range that starts at an address or before, in the position of the entry that the host finds. -/
theorem map_prev_agrees (ranges : List MemoryRange)
    (hsorted : ranges.Pairwise fun r r' => r.start ≤ r'.start)
    (hlen : ranges.length < 2^32) (address : ℕ) :
    ∃ pos, Settles (fun fuel =>
        mapPrevWords fuel ranges ⟨address, 0⟩ ranges.length addressComparator) (some pos) ∧
      PrevPosition ranges address pos ∧
      ∀ (β : Type) (m : OrderedMap ℕ β),
        m.toList.map Prod.fst = ranges.map MemoryRange.start →
          m.toList[pos]? = m.prev address :=
  ⟨_, settles_mapPrev ⟨address, 0⟩ addressComparator hlen, prevPosition_mapPrev hsorted address,
    fun _ _ hkeys => (prevPosition_mapPrev hsorted address).getElem?_eq hkeys⟩

/-- Two ranges with a gap between them. -/
theorem map_prev_agrees_gap :
    ∃ pos, Settles (fun fuel =>
        mapPrevWords fuel [⟨16, 32⟩, ⟨64, 96⟩] ⟨40, 0⟩ 2 addressComparator) (some pos) ∧
      PrevPosition [⟨16, 32⟩, ⟨64, 96⟩] 40 pos ∧
      ∀ (β : Type) (m : OrderedMap ℕ β), m.toList.map Prod.fst = [16, 64] →
        m.toList[pos]? = m.prev 40 :=
  map_prev_agrees [⟨16, 32⟩, ⟨64, 96⟩] (by decide) (by decide) 40

end Ranges

end TenProf.GpuPatch
