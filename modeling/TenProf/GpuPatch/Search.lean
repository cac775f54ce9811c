import Mathlib.Tactic.Ring
import Mathlib.Order.Basic

/-!
# The device's binary search

`map_upper_bound` and `map_prev` of `include/utils.h`. The array is read through `map`, a function
of the index, and `cmp l r` is the comparator, which the kernels instantiate with
`l.start <= r.start`.
-/

namespace TenProf.GpuPatch

variable {τ : Type*}

/-- `map_upper_bound`, from any interval `[low, high)` of its loop. -/
def mapUpperBoundLoop (map : ℕ → τ) (value : τ) (cmp : τ → τ → Bool) (low high : ℕ) : ℕ :=
  if low < high then
    let mid := (high - low) / 2 + low
    if cmp (map mid) value then mapUpperBoundLoop map value cmp (mid + 1) high
    else mapUpperBoundLoop map value cmp low mid
  else low
termination_by high - low

/-- `map_upper_bound`: where the entries stop that compare with `value`. -/
def mapUpperBound (map : ℕ → τ) (value : τ) (len : ℕ) (cmp : τ → τ → Bool) : ℕ :=
  mapUpperBoundLoop map value cmp 0 len

/-- `map_prev`: the position before the upper bound, or `len` if there is none. -/
def mapPrev (map : ℕ → τ) (value : τ) (len : ℕ) (cmp : τ → τ → Bool) : ℕ :=
  let pos := mapUpperBound map value len cmp
  if pos ≠ 0 then pos - 1 else len

/-- The loop ends inside its interval. -/
theorem mapUpperBoundLoop_le (map : ℕ → τ) (value : τ) (cmp : τ → τ → Bool) (low high : ℕ)
    (h : low ≤ high) : mapUpperBoundLoop map value cmp low high ≤ high := by
  fun_induction mapUpperBoundLoop map value cmp low high with
  | case1 low high hlt mid hcmp ih => exact ih (by omega)
  | case2 low high hlt mid hcmp ih => exact (ih (by omega)).trans (by omega)
  | case3 low high hge => exact h

/-- A position that `map_prev` returns is below `len`, unless it is `len` itself. -/
theorem mapPrev_le (map : ℕ → τ) (value : τ) (len : ℕ) (cmp : τ → τ → Bool) :
    mapPrev map value len cmp ≤ len := by
  have hle : mapUpperBound map value len cmp ≤ len :=
    mapUpperBoundLoop_le map value cmp 0 len (Nat.zero_le len)
  simp only [mapPrev]
  split_ifs
  · exact (Nat.sub_le _ _).trans hle
  · exact le_rfl

/-- Where the comparison holds up to some position and no further, the loop finds that position. -/
theorem mapUpperBoundLoop_spec {map : ℕ → τ} {value : τ} {cmp : τ → τ → Bool} {low high len : ℕ}
    (hmono : ∀ i j, i ≤ j → j < len → cmp (map j) value → cmp (map i) value)
    (hle : low ≤ high) (hlen : high ≤ len) (hlow : ∀ i < low, cmp (map i) value)
    (hhigh : ∀ i, high ≤ i → i < len → ¬cmp (map i) value) (i : ℕ) (hi : i < len) :
    cmp (map i) value ↔ i < mapUpperBoundLoop map value cmp low high := by
  -- Below `low` the comparison holds, and from `high` on it does not.
  fun_induction mapUpperBoundLoop map value cmp low high with
  | case1 low high hlt mid hcmp ih =>
    refine ih (by omega) hlen (fun j hj => ?_) hhigh
    exact hmono j mid (Nat.lt_succ_iff.1 hj) (by omega) hcmp
  | case2 low high hlt mid hcmp ih =>
    refine ih (by omega) (by omega) hlow fun j hj hjlen hcj => ?_
    exact hcmp (hmono mid j hj hjlen hcj)
  | case3 low high hge =>
    constructor
    · intro hc
      by_contra hi'
      exact hhigh i (by omega) hi hc
    · exact hlow i

/-- When some entry compares with the value, `map_prev` finds a position. -/
theorem mapPrev_lt {map : ℕ → τ} {value : τ} {cmp : τ → τ → Bool} {len : ℕ}
    (hmono : ∀ i j, i ≤ j → j < len → cmp (map j) value → cmp (map i) value) {i : ℕ}
    (hi : i < len) (hcmp : cmp (map i) value) : mapPrev map value len cmp < len := by
  have hspec := mapUpperBoundLoop_spec hmono (Nat.zero_le len) le_rfl (by simp)
    (fun i h h' => absurd h' (not_lt.2 h)) i hi
  have hle : mapUpperBound map value len cmp ≤ len :=
    mapUpperBoundLoop_le map value cmp 0 len (Nat.zero_le len)
  have hlt : i < mapUpperBound map value len cmp := hspec.1 hcmp
  simp only [mapPrev]
  rw [if_pos (by omega)]
  omega

/-- A position that `map_prev` finds is the last one that compares with the value. -/
theorem mapPrev_eq_iff {map : ℕ → τ} {value : τ} {cmp : τ → τ → Bool} {len : ℕ}
    (hmono : ∀ i j, i ≤ j → j < len → cmp (map j) value → cmp (map i) value) {pos : ℕ}
    (hpos : pos < len) : mapPrev map value len cmp = pos ↔
      cmp (map pos) value ∧ ∀ j < len, pos < j → ¬cmp (map j) value := by
  have hspec := mapUpperBoundLoop_spec hmono (Nat.zero_le len) le_rfl (by simp)
    (fun i h h' => absurd h' (not_lt.2 h))
  have hle : mapUpperBound map value len cmp ≤ len :=
    mapUpperBoundLoop_le map value cmp 0 len (Nat.zero_le len)
  change ∀ i, i < len → (cmp (map i) value ↔ i < mapUpperBound map value len cmp) at hspec
  generalize hbound : mapUpperBound map value len cmp = bound at hspec hle
  simp only [mapPrev, hbound]
  rw [hspec pos hpos]
  constructor
  · intro h
    split_ifs at h with hzero
    · refine ⟨by omega, fun j hlen hj => ?_⟩
      rw [hspec j hlen]
      omega
    · omega
  · rintro ⟨hlt, hlast⟩
    rw [if_pos (by omega)]
    -- The position behind it, if there is one, does not compare.
    by_contra hne
    have hnext := hlast (pos + 1) (by omega) (Nat.lt_succ_self pos)
    rw [hspec (pos + 1) (by omega)] at hnext
    omega

end TenProf.GpuPatch
