import TenProf.Library.Intervals

/-!
# The clusters of sorted intervals

The intervals from `s k` up to `t k`, for `f ≤ k < n`, are sorted by their starts and by their ends.
Position `k` is a `head` when the interval before it ends below its start, and `last k` is the last
position before the next head. One interval for each head, from its start up to the end at its last
position, covers what the intervals cover (`Clusters.covered_clusters_iff`), and these intervals are
`Separated` (`Clusters.separated`).
-/

namespace TenProf

variable {α : Type*}

/-- The intervals of the heads. -/
def clusters (n : ℕ) (s t : ℕ → α) (head : ℕ → Bool) (last : ℕ → ℕ) : List (α × α) :=
  ((List.range n).filter head).map fun k => (s k, t (last k))

variable {f n : ℕ} {s t : ℕ → α} {head : ℕ → Bool} {last : ℕ → ℕ}

theorem mem_clusters {e : α × α} :
    e ∈ clusters n s t head last ↔ ∃ k < n, head k = true ∧ (s k, t (last k)) = e := by
  simp [clusters, and_assoc]

variable [LinearOrder α]

/-- The intervals are sorted, the marks are those of the heads, and `last` finds the last position
before the next head. -/
structure Clusters (f n : ℕ) (s t : ℕ → α) (head : ℕ → Bool) (last : ℕ → ℕ) : Prop where
  start_mono : ∀ i j, f ≤ i → i ≤ j → j < n → s i ≤ s j
  end_mono : ∀ i j, f ≤ i → i ≤ j → j < n → t i ≤ t j
  head_iff : ∀ k < n, head k = true ↔ f ≤ k ∧ (k = f ∨ t (k - 1) < s k)
  le_last : ∀ k < n, k ≤ last k
  last_lt : ∀ k < n, last k < n
  not_head : ∀ k < n, ∀ i, k < i → i ≤ last k → head i = false
  head_succ : ∀ k < n, last k + 1 < n → head (last k + 1) = true

namespace Clusters

variable (h : Clusters f n s t head last)

include h

/-- A head is one of the intervals. -/
theorem le_of_head {k : ℕ} (hk : k < n) (hhead : head k = true) : f ≤ k :=
  ((h.head_iff k hk).1 hhead).1

/-- An interval that is no head begins before the end of the one before. -/
theorem le_of_not_head {k : ℕ} (hk : f ≤ k) (hlt : k + 1 < n) (hhead : head (k + 1) = false) :
    s (k + 1) ≤ t k := by
  by_contra hgt
  have htrue := (h.head_iff (k + 1) hlt).2 ⟨by omega, .inr (not_le.1 hgt)⟩
  rw [hhead] at htrue
  cases htrue

/-- The cluster of a head ends before the next head begins. -/
theorem end_lt_start {i j : ℕ} (hi : head i = true) (hij : i < j) (hj : j < n)
    (hjhead : head j = true) : t (last i) < s j := by
  have hin : i < n := hij.trans hj
  have hf := h.le_of_head hin hi
  have hle := h.le_last i hin
  -- The last position of the cluster lies before `j`, which is a head.
  have hlast : last i < j := by
    by_contra hge
    have hfalse := h.not_head i hin j hij (by omega)
    rw [hjhead] at hfalse
    cases hfalse
  have hsucc := h.head_succ i hin (by omega)
  obtain ⟨-, heq | hlt⟩ := (h.head_iff (last i + 1) (by omega)).1 hsucc
  · omega
  · exact hlt.trans_le (h.start_mono _ j (by omega) (by omega) hj)

/-- The clusters are neither overlapping nor touching. -/
theorem separated : Separated (clusters n s t head last) := by
  refine List.pairwise_map.2 ((List.pairwise_lt_range.filter _).imp_of_mem ?_)
  intro i j hi hj hij
  obtain ⟨-, hihead⟩ := List.mem_filter.1 hi
  obtain ⟨hjn, hjhead⟩ := List.mem_filter.1 hj
  exact h.end_lt_start hihead hij (List.mem_range.1 hjn) hjhead

/-- No cluster of proper intervals is empty. -/
theorem proper (hproper : ∀ k, f ≤ k → k < n → s k < t k) :
    Proper (clusters n s t head last) := by
  intro e he
  obtain ⟨k, hk, hhead, rfl⟩ := mem_clusters.1 he
  have hf := h.le_of_head hk hhead
  have hle := h.le_last k hk
  have hlt := h.last_lt k hk
  exact (h.start_mono k _ hf hle hlt).trans_lt (hproper _ (by omega) hlt)

/-- A cluster ends where one of the intervals does. -/
theorem exists_end {e : α × α} (he : e ∈ clusters n s t head last) :
    ∃ k, f ≤ k ∧ k < n ∧ t k = e.2 := by
  obtain ⟨k, hk, hhead, rfl⟩ := mem_clusters.1 he
  exact ⟨last k, (h.le_of_head hk hhead).trans (h.le_last k hk), h.last_lt k hk, rfl⟩

/-- No cluster of ordered intervals ends before it starts. -/
theorem ordered (hordered : ∀ k, f ≤ k → k < n → s k ≤ t k) :
    Ordered (clusters n s t head last) := by
  intro e he
  obtain ⟨k, hk, hhead, rfl⟩ := mem_clusters.1 he
  have hf := h.le_of_head hk hhead
  have hle := h.le_last k hk
  have hlt := h.last_lt k hk
  exact (h.start_mono k _ hf hle hlt).trans (hordered _ (by omega) hlt)

/-- An interval lies behind a head, with no other head in between. -/
theorem exists_head {k : ℕ} (hf : f ≤ k) (hk : k < n) :
    ∃ i ≤ k, head i = true ∧ ∀ j, i < j → j ≤ k → head j = false := by
  induction k, hf using Nat.le_induction with
  | base => exact ⟨f, le_rfl, (h.head_iff f hk).2 ⟨le_rfl, .inl rfl⟩, fun j _ _ => by omega⟩
  | succ k _ ih =>
    cases hhead : head (k + 1) with
    | true => exact ⟨k + 1, le_rfl, hhead, fun j _ _ => by omega⟩
    | false =>
      obtain ⟨i, hik, hi, hbetween⟩ := ih (by omega)
      refine ⟨i, by omega, hi, fun j hij hjk => ?_⟩
      rcases eq_or_lt_of_le hjk with rfl | hlt
      · exact hhead
      · exact hbetween j hij (by omega)

/-- A point between the start of one interval and the end of a later one lies in an interval, if
there is no head in between. -/
theorem exists_of_between {i k : ℕ} {x : α} (hf : f ≤ i) (hik : i ≤ k) (hk : k < n)
    (hbetween : ∀ j, i < j → j ≤ k → head j = false) (hstart : s i ≤ x) (hend : x < t k) :
    ∃ j, f ≤ j ∧ j < n ∧ s j ≤ x ∧ x < t j := by
  induction k, hik using Nat.le_induction with
  | base => exact ⟨i, hf, hk, hstart, hend⟩
  | succ k hle ih =>
    rcases le_or_gt (s (k + 1)) x with hx | hx
    · exact ⟨k + 1, by omega, hk, hx, hend⟩
    · have htouch := h.le_of_not_head (by omega) hk (hbetween (k + 1) (by omega) le_rfl)
      exact ih (by omega) (fun j hij hjk => hbetween j hij (by omega)) (hx.trans_le htouch)

/-- The clusters cover what the intervals cover. -/
theorem covered_clusters_iff (x : α) : Covered (clusters n s t head last) x ↔
    ∃ k, f ≤ k ∧ k < n ∧ s k ≤ x ∧ x < t k := by
  constructor
  · rintro ⟨e, he, hstart, hend⟩
    obtain ⟨k, hk, hhead, rfl⟩ := mem_clusters.1 he
    exact h.exists_of_between (h.le_of_head hk hhead) (h.le_last k hk) (h.last_lt k hk)
      (h.not_head k hk) hstart hend
  · rintro ⟨k, hf, hk, hstart, hend⟩
    obtain ⟨i, hik, hi, hbetween⟩ := h.exists_head hf hk
    have hin : i < n := by omega
    have hif := h.le_of_head hin hi
    -- The cluster of the head goes at least up to `k`.
    have hlast : k ≤ last i := by
      by_contra hlt
      have hle := h.le_last i hin
      have hsucc := h.head_succ i hin (by omega)
      rw [hbetween (last i + 1) (by omega) (by omega)] at hsucc
      cases hsucc
    exact ⟨(s i, t (last i)), mem_clusters.2 ⟨i, hin, hi, rfl⟩,
      (h.start_mono i k hif hik hk).trans hstart,
      hend.trans_le (h.end_mono k _ hf hlast (h.last_lt i hin))⟩

end Clusters

end TenProf
