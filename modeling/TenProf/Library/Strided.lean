import Mathlib.Data.List.Perm.Basic
import Mathlib.Data.Set.Basic
import Mathlib.Algebra.BigOperators.Group.List.Basic
import Mathlib.Tactic.Ring
import Mathlib.Tactic.Linarith

/-!
# Strided layouts

A layout is a list of dimensions, each a pair of a size and a step. Its `offsets` are the sums of
an index times the step over all dimensions, one index below the size for each. They do not depend
on the order of the dimensions (`offsets_perm`), and the largest is the last element's, which is
the first element exactly when every dimension is trivial (`maxOffset_eq_zero_iff`).

A greedy membership test takes the remainder of a number by the step of each dimension but the
last, in order, and asks whether what remains is a multiple of the last step in range. It is exact
for layouts whose dimensions before the last have step `0` (`greedyTest_iff`), and on every other
layout it accepts a number no larger than the `span` that is no offset (`exists_greedyTest`).
-/

namespace TenProf.Strided

/-- An index: for each dimension a number below its size. -/
def IsIndex (ds : List (ℕ × ℕ)) (idx : List ℕ) : Prop :=
  List.Forall₂ (fun i d => i < d.1) idx ds

/-- The sum of an index times the steps. -/
def offset (ds : List (ℕ × ℕ)) (idx : List ℕ) : ℕ :=
  (List.zipWith (fun i d => i * d.2) idx ds).sum

/-- The offsets of all indices. -/
def offsets (ds : List (ℕ × ℕ)) : Set ℕ := {x | ∃ idx, IsIndex ds idx ∧ offset ds idx = x}

/-- The offset of the last element. -/
def maxOffset (ds : List (ℕ × ℕ)) : ℕ := (ds.map fun d => (d.1 - 1) * d.2).sum

/-- The sum of the sizes times the steps. -/
def span (ds : List (ℕ × ℕ)) : ℕ := (ds.map fun d => d.1 * d.2).sum

@[simp] theorem mem_offsets_nil (x : ℕ) : x ∈ offsets [] ↔ x = 0 := by
  constructor
  · rintro ⟨idx, hidx, rfl⟩
    rw [List.forall₂_nil_right_iff.1 hidx]
    rfl
  · rintro rfl
    exact ⟨[], List.Forall₂.nil, rfl⟩

/-- The offsets with one more dimension. -/
theorem mem_offsets_cons (d : ℕ × ℕ) (ds : List (ℕ × ℕ)) (x : ℕ) :
    x ∈ offsets (d :: ds) ↔ ∃ i < d.1, ∃ y ∈ offsets ds, x = i * d.2 + y := by
  constructor
  · rintro ⟨idx, hidx, rfl⟩
    obtain ⟨i, idx', hi, hidx', rfl⟩ := List.forall₂_cons_right_iff.1 hidx
    exact ⟨i, hi, _, ⟨idx', hidx', rfl⟩, rfl⟩
  · rintro ⟨i, hi, _, ⟨idx, hidx, rfl⟩, rfl⟩
    exact ⟨i :: idx, List.Forall₂.cons hi hidx, rfl⟩

/-- The order of the dimensions does not matter. -/
theorem offsets_perm {ds ds' : List (ℕ × ℕ)} (h : ds.Perm ds') : offsets ds = offsets ds' := by
  induction h with
  | nil => rfl
  | cons d _ ih =>
    ext x
    simp only [mem_offsets_cons, ih]
  | swap d e ds =>
    ext x
    simp only [mem_offsets_cons]
    constructor <;> rintro ⟨i, hi, _, ⟨j, hj, y, hy, rfl⟩, rfl⟩ <;>
      exact ⟨j, hj, _, ⟨i, hi, y, hy, rfl⟩, by ring⟩
  | trans _ _ ih₁ ih₂ => exact ih₁.trans ih₂

/-- When all sizes are positive, the first element has offset `0`. -/
theorem zero_mem_offsets {ds : List (ℕ × ℕ)} (hds : ∀ d ∈ ds, 0 < d.1) : 0 ∈ offsets ds := by
  induction ds with
  | nil => simp
  | cons d ds ih =>
    obtain ⟨hd, hds⟩ := List.forall_mem_cons.1 hds
    exact (mem_offsets_cons d ds 0).2 ⟨0, hd, 0, ih hds, by simp⟩

/-- When there is an offset, all sizes are positive. -/
theorem pos_of_mem_offsets {ds : List (ℕ × ℕ)} {x : ℕ} (hx : x ∈ offsets ds) :
    ∀ d ∈ ds, 0 < d.1 := by
  induction ds generalizing x with
  | nil => simp
  | cons d ds ih =>
    obtain ⟨i, hi, y, hy, -⟩ := (mem_offsets_cons d ds x).1 hx
    exact List.forall_mem_cons.2 ⟨by omega, ih hy⟩

/-- Steps in another unit scale the offsets. -/
theorem mem_offsets_scale (c : ℕ) (ds : List (ℕ × ℕ)) (x : ℕ) :
    x ∈ offsets (ds.map fun d => (d.1, d.2 * c)) ↔ ∃ y ∈ offsets ds, x = c * y := by
  induction ds generalizing x with
  | nil => simp
  | cons d ds ih =>
    simp only [List.map_cons, mem_offsets_cons, ih]
    constructor
    · rintro ⟨i, hi, _, ⟨y, hy, rfl⟩, rfl⟩
      exact ⟨_, ⟨i, hi, y, hy, rfl⟩, by ring⟩
    · rintro ⟨_, ⟨i, hi, y, hy, rfl⟩, rfl⟩
      exact ⟨i, hi, _, ⟨y, hy, rfl⟩, by ring⟩

@[simp] theorem span_cons (d : ℕ × ℕ) (ds : List (ℕ × ℕ)) :
    span (d :: ds) = d.1 * d.2 + span ds := rfl

@[simp] theorem maxOffset_cons (d : ℕ × ℕ) (ds : List (ℕ × ℕ)) :
    maxOffset (d :: ds) = (d.1 - 1) * d.2 + maxOffset ds := rfl

/-- No offset is larger than the last element's. -/
theorem le_maxOffset {ds : List (ℕ × ℕ)} {x : ℕ} (hx : x ∈ offsets ds) : x ≤ maxOffset ds := by
  induction ds generalizing x with
  | nil => exact ((mem_offsets_nil x).1 hx).le
  | cons d ds ih =>
    obtain ⟨i, hi, y, hy, rfl⟩ := (mem_offsets_cons d ds x).1 hx
    exact Nat.add_le_add (Nat.mul_le_mul_right _ (by omega)) (ih hy)

/-- The last element lies within the span. -/
theorem maxOffset_le_span (ds : List (ℕ × ℕ)) : maxOffset ds ≤ span ds := by
  induction ds with
  | nil => exact le_rfl
  | cons d ds ih => exact Nat.add_le_add (Nat.mul_le_mul_right _ (Nat.sub_le _ _)) ih

/-- Every offset is a step of any dimension below the span. -/
theorem add_step_le_span {ds : List (ℕ × ℕ)} {x : ℕ} (hx : x ∈ offsets ds) {d : ℕ × ℕ}
    (hd : d ∈ ds) : x + d.2 ≤ span ds := by
  induction ds generalizing x with
  | nil => simp at hd
  | cons e ds ih =>
    obtain ⟨i, hi, y, hy, rfl⟩ := (mem_offsets_cons e ds x).1 hx
    rw [span_cons]
    have hi' : i * e.2 + e.2 ≤ e.1 * e.2 := by
      calc i * e.2 + e.2 = (i + 1) * e.2 := by ring
        _ ≤ e.1 * e.2 := Nat.mul_le_mul_right _ hi
    rcases List.mem_cons.1 hd with rfl | hd
    · -- The step is that of the first dimension, whose index has room for one more.
      have hy' : y ≤ span ds := (le_maxOffset hy).trans (maxOffset_le_span ds)
      omega
    · have hy' : y + d.2 ≤ span ds := ih hy hd
      omega

/-- When all sizes are positive, the last element has its offset. -/
theorem maxOffset_mem {ds : List (ℕ × ℕ)} (hds : ∀ d ∈ ds, 0 < d.1) :
    maxOffset ds ∈ offsets ds := by
  induction ds with
  | nil => simp [maxOffset]
  | cons d ds ih =>
    obtain ⟨hd, hds⟩ := List.forall_mem_cons.1 hds
    exact (mem_offsets_cons d ds _).2 ⟨d.1 - 1, by omega, maxOffset ds, ih hds, rfl⟩

/-- With elements of `w` bytes, all bytes end before `stop` exactly when the last element's do. -/
theorem forall_bytes_lt_iff {ds : List (ℕ × ℕ)} (hds : ∀ d ∈ ds, 0 < d.1) {w : ℕ} (hw : 0 < w)
    (base stop : ℕ) :
    (∀ x ∈ offsets ds, ∀ b, base + w * x ≤ b → b < base + w * x + w → b < stop) ↔
      base + w * maxOffset ds + w ≤ stop := by
  constructor
  · intro h
    have hlast := h _ (maxOffset_mem hds) (base + w * maxOffset ds + w - 1) (by omega) (by omega)
    omega
  · intro h x hx b _ hb
    have hle := Nat.mul_le_mul_left w (le_maxOffset hx)
    omega

/-- When all sizes are positive, the last element is the first exactly if each dimension has one
index or step `0`. -/
theorem maxOffset_eq_zero_iff {ds : List (ℕ × ℕ)} (hds : ∀ d ∈ ds, 0 < d.1) :
    maxOffset ds = 0 ↔ ∀ d ∈ ds, d.1 = 1 ∨ d.2 = 0 := by
  induction ds with
  | nil => simp [maxOffset]
  | cons d ds ih =>
    obtain ⟨hd, hds⟩ := List.forall_mem_cons.1 hds
    have hone : d.1 - 1 = 0 ↔ d.1 = 1 := by omega
    rw [List.forall_mem_cons, ← ih hds, maxOffset_cons, Nat.add_eq_zero_iff, Nat.mul_eq_zero, hone]

/-- What remains after the remainders by some steps, in order. A step of `0` changes nothing. -/
def residue (ws : List ℕ) (r : ℕ) : ℕ := ws.foldl (· % ·) r

@[simp] theorem residue_nil (r : ℕ) : residue [] r = r := rfl

@[simp] theorem residue_cons (w : ℕ) (ws : List ℕ) (r : ℕ) :
    residue (w :: ws) r = residue ws (r % w) := rfl

/-- The greedy test: the remainder by all steps but the last is a multiple of the last step in
range. -/
def GreedyTest (init : List (ℕ × ℕ)) (last : ℕ × ℕ) (r : ℕ) : Prop :=
  residue (init.map Prod.snd) r = 0 ∨
    residue (init.map Prod.snd) r < last.1 * last.2 ∧ residue (init.map Prod.snd) r % last.2 = 0

/-- Nothing remains of nothing. -/
theorem residue_zero (ws : List ℕ) : residue ws 0 = 0 := by
  induction ws with
  | nil => rfl
  | cons w ws ih => rw [residue_cons, Nat.zero_mod, ih]

/-- What remains is no larger. -/
theorem residue_le (ws : List ℕ) (r : ℕ) : residue ws r ≤ r := by
  induction ws generalizing r with
  | nil => exact le_rfl
  | cons w ws ih => exact (ih (r % w)).trans (Nat.mod_le r w)

/-- Steps of `0` leave the number as it is. -/
theorem residue_of_zero {ws : List ℕ} (h : ∀ w ∈ ws, w = 0) (r : ℕ) : residue ws r = r := by
  induction ws with
  | nil => rfl
  | cons w ws ih =>
    obtain ⟨hw, hws⟩ := List.forall_mem_cons.1 h
    rw [residue_cons, hw, Nat.mod_zero, ih hws]

/-- Of a multiple of the first positive step nothing remains. -/
theorem exists_residue_eq_zero {ws : List ℕ} (h : ∃ w ∈ ws, w ≠ 0) :
    ∃ w ∈ ws, w ≠ 0 ∧ ∀ m, residue ws (m * w) = 0 := by
  induction ws with
  | nil => simp at h
  | cons w ws ih =>
    by_cases hw : w = 0
    · -- A remainder by `0` changes nothing, so the first positive step comes later.
      subst hw
      obtain ⟨w, hw, hne, hres⟩ := ih (by simpa using h)
      refine ⟨w, List.mem_cons_of_mem _ hw, hne, fun m => ?_⟩
      rw [residue_cons, Nat.mod_zero, hres]
    · refine ⟨w, List.mem_cons_self, hw, fun m => ?_⟩
      rw [residue_cons, Nat.mul_mod_left, residue_zero]

/-- When the steps before the last are `0`, the offsets are the multiples of the last step. -/
theorem mem_offsets_of_zero {init : List (ℕ × ℕ)} {last : ℕ × ℕ} (hsize : ∀ d ∈ init, 0 < d.1)
    (hzero : ∀ d ∈ init, d.2 = 0) (r : ℕ) :
    r ∈ offsets (init ++ [last]) ↔ ∃ i < last.1, r = i * last.2 := by
  induction init with
  | nil => simp [mem_offsets_cons]
  | cons d init ih =>
    obtain ⟨hd, hsize⟩ := List.forall_mem_cons.1 hsize
    obtain ⟨hd0, hzero⟩ := List.forall_mem_cons.1 hzero
    rw [List.cons_append, mem_offsets_cons, ← ih hsize hzero]
    simp only [hd0, Nat.mul_zero, Nat.zero_add, exists_eq_right']
    exact ⟨fun ⟨_, _, h⟩ => h, fun h => ⟨0, hd, h⟩⟩

/-- When the steps before the last are `0`, the test accepts exactly the offsets. -/
theorem greedyTest_iff {init : List (ℕ × ℕ)} {last : ℕ × ℕ} (hsize : ∀ d ∈ init, 0 < d.1)
    (hlast : 0 < last.1) (hzero : ∀ d ∈ init, d.2 = 0) (r : ℕ) :
    GreedyTest init last r ↔ r ∈ offsets (init ++ [last]) := by
  have hres : residue (init.map Prod.snd) r = r := by
    refine residue_of_zero (fun w hw => ?_) r
    obtain ⟨d, hd, rfl⟩ := List.mem_map.1 hw
    exact hzero d hd
  unfold GreedyTest
  rw [hres, mem_offsets_of_zero hsize hzero]
  constructor
  · rintro (rfl | ⟨hlt, hmod⟩)
    · exact ⟨0, hlast, by simp⟩
    · -- The multiple in range is the quotient's.
      refine ⟨r / last.2, Nat.div_lt_of_lt_mul (by rwa [Nat.mul_comm]), ?_⟩
      exact (Nat.div_mul_cancel (Nat.dvd_of_mod_eq_zero hmod)).symm
  · rintro ⟨i, hi, rfl⟩
    rcases Nat.eq_zero_or_pos last.2 with h0 | hpos
    · simp [h0]
    · exact Or.inr ⟨Nat.mul_lt_mul_of_pos_right hi hpos, Nat.mul_mod_left _ _⟩

/-- When some step before the last is positive, the test accepts a number within the span that is
no offset. -/
theorem exists_greedyTest {init : List (ℕ × ℕ)} (last : ℕ × ℕ) (h : ∃ d ∈ init, d.2 ≠ 0) :
    ∃ r ≤ span (init ++ [last]), GreedyTest init last r ∧ r ∉ offsets (init ++ [last]) := by
  obtain ⟨d, hd, hne⟩ := h
  obtain ⟨w, hw, hpos, hres⟩ :=
    exists_residue_eq_zero ⟨d.2, List.mem_map.2 ⟨d, hd, rfl⟩, hne⟩
  obtain ⟨e, he, rfl⟩ := List.mem_map.1 hw
  -- The last multiple of the step within the span lies above every offset.
  refine ⟨span (init ++ [last]) / e.2 * e.2, Nat.div_mul_le_self _ _, Or.inl (hres _), ?_⟩
  intro hmem
  have hle := add_step_le_span hmem (List.mem_append_left [last] he)
  have hlt : span (init ++ [last]) < span (init ++ [last]) / e.2 * e.2 + e.2 :=
    Nat.lt_div_mul_add (Nat.pos_of_ne_zero hpos)
  omega

end TenProf.Strided
