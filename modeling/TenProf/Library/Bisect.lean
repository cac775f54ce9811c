import Mathlib.Order.Basic
import Mathlib.Tactic.Common

/-!
# Binary search by probing

`bisect probe low high` halves the interval of positions from `low` to `high`. It probes the middle
one, and the verdict ends the search there or moves it to one side. Whatever the verdicts are, a
position that the search returns was found by its probe (`bisect_spec`). The search is sure to
return a position only when a target exists that is found and to which every other probe points
(`bisect_isSome`). Over an array that is not in the order that the verdicts assume, a probe may
point away from every position that would be found.
-/

namespace TenProf

/-- What a probe says about a position: it is found, the search goes on to its right or to its
left, or the search stops. -/
inductive Verdict
  | found
  | right
  | left
  | stop
  deriving DecidableEq, Repr

/-- Search among the positions from `low` to `high`. -/
def bisect (probe : ℕ → Verdict) (low high : ℕ) : Option ℕ :=
  if low ≤ high then
    let mid := low + (high - low) / 2
    match probe mid with
    | .found => some mid
    | .right => bisect probe (mid + 1) high
    | .left => if mid = 0 then none else bisect probe low (mid - 1)
    | .stop => none
  else none
termination_by high + 1 - low

variable {probe : ℕ → Verdict} {low high : ℕ}

/-- A position that the search returns lies in the interval and was found. -/
theorem bisect_spec {i : ℕ} (h : bisect probe low high = some i) :
    low ≤ i ∧ i ≤ high ∧ probe i = .found := by
  fun_induction bisect probe low high with
  | case1 low high hle mid hmid =>
    rw [← Option.some.inj h]
    exact ⟨by omega, by omega, hmid⟩
  | case2 low high hle mid hmid ih =>
    obtain ⟨hlow, hhigh, hi⟩ := ih h
    exact ⟨by omega, hhigh, hi⟩
  | case3 low high hle mid hmid hzero => cases h
  | case4 low high hle mid hmid hne ih =>
    obtain ⟨hlow, hhigh, hi⟩ := ih h
    exact ⟨hlow, by omega, hi⟩
  | case5 low high hle mid hmid => cases h
  | case6 low high hgt => cases h

section Target

variable {t : ℕ} (ht : probe t = .found)
  (hbelow : ∀ i, low ≤ i → i < t → probe i = .found ∨ probe i = .right)
  (habove : ∀ i, t < i → i ≤ high → probe i = .found ∨ probe i = .left)

include ht hbelow habove

/-- A probe that says to go right lies below the target. -/
theorem lt_target_of_right {i : ℕ} (hhigh : i ≤ high) (hi : probe i = .right) : i < t := by
  rcases Nat.lt_trichotomy i t with hlt | rfl | hgt
  · exact hlt
  · simp [ht] at hi
  · have hverdict := habove i hgt hhigh
    simp [hi] at hverdict

/-- A probe that says to go left lies above the target. -/
theorem target_lt_of_left {i : ℕ} (hlow : low ≤ i) (hi : probe i = .left) : t < i := by
  rcases Nat.lt_trichotomy i t with hlt | rfl | hgt
  · have hverdict := hbelow i hlow hlt
    simp [hi] at hverdict
  · simp [ht] at hi
  · exact hgt

/-- No probe of the interval stops the search. -/
theorem not_stop_of_target {i : ℕ} (hlow : low ≤ i) (hhigh : i ≤ high) : probe i ≠ .stop := by
  intro hi
  rcases Nat.lt_trichotomy i t with hlt | rfl | hgt
  · have hverdict := hbelow i hlow hlt
    simp [hi] at hverdict
  · simp [ht] at hi
  · have hverdict := habove i hgt hhigh
    simp [hi] at hverdict

/-- The search returns a position when there is a target that is found and to which every other
probe points. -/
theorem bisect_isSome (hlow : low ≤ t) (hhigh : t ≤ high) : (bisect probe low high).isSome := by
  fun_induction bisect probe low high with
  | case1 low high hle mid hmid => rfl
  | case2 low high hle mid hmid ih =>
    have hlt := lt_target_of_right ht hbelow habove (by omega) hmid
    exact ih (fun i hi => hbelow i (by omega)) habove (by omega) hhigh
  | case3 low high hle mid hmid hzero =>
    have hlt := target_lt_of_left ht hbelow habove (by omega) hmid
    omega
  | case4 low high hle mid hmid hne ih =>
    have hlt := target_lt_of_left ht hbelow habove (by omega) hmid
    exact ih hbelow (fun i hi _ => habove i hi (by omega)) hlow (by omega)
  | case5 low high hle mid hmid =>
    exact absurd hmid (not_stop_of_target ht hbelow habove (by omega) (by omega))
  | case6 low high hgt => omega

end Target

end TenProf
