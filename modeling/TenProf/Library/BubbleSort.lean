import Mathlib.Data.Multiset.Count
import Mathlib.Data.List.Basic
import Mathlib.Order.Lattice

/-!
# Bubble sort by its table

The table of a list says for each element how many elements in front of it have a smaller key. The
keys of a list do not increase exactly when its table is zero (`table_eq_zero_iff`). A pass of the
bubble sort carries the first element on until one that is not larger takes its place: it drops the
first entry of the table, takes one off all others and adds a zero (`table_pass`). So the `n`-th
pass leaves the table without its first `n` entries and with `n` taken off the others
(`shifted_succ`).
-/

namespace TenProf.Bubble

variable {α κ : Type*} [LinearOrder κ] (key : α → κ)

/-- The table of a list behind elements with the given keys. -/
def table (before : Multiset κ) : List α → List ℕ
  | [] => []
  | x :: xs => before.countP (· < key x) :: table (key x ::ₘ before) xs

/-- A pass with `k` comparisons, which starts with the element `c` in front of the list. -/
def pass : ℕ → α → List α → List α
  | k + 1, c, b :: bs => if key c < key b then b :: pass k c bs else c :: pass k b bs
  | _, c, bs => c :: bs

/-- The table after `n` passes. -/
def shifted (n : ℕ) (t : List ℕ) : List ℕ := (t.drop n).map (· - n) ++ List.replicate n 0

@[simp] theorem table_nil (before : Multiset κ) : table key before ([] : List α) = [] := rfl

@[simp] theorem table_cons (before : Multiset κ) (x : α) (xs : List α) :
    table key before (x :: xs) = before.countP (· < key x) :: table key (key x ::ₘ before) xs := rfl

@[simp] theorem length_table (before : Multiset κ) (xs : List α) :
    (table key before xs).length = xs.length := by
  induction xs generalizing before with
  | nil => rfl
  | cons x xs ih => simp [ih]

/-- The entries of the table. -/
theorem getElem?_table (before : Multiset κ) (xs : List α) (m : ℕ) :
    (table key before xs)[m]? = xs[m]?.map fun x =>
      before.countP (· < key x) + (xs.take m).countP (key · < key x) := by
  induction xs generalizing before m with
  | nil => simp
  | cons x xs ih =>
    cases m with
    | zero => simp
    | succ m =>
      simp only [table_cons, List.getElem?_cons_succ, ih, Multiset.countP_cons, List.take_succ_cons,
        List.countP_cons, decide_eq_true_eq]
      congr 1
      funext y
      omega

/-- The table is zero exactly when the keys do not increase. -/
theorem table_eq_zero_iff (before : Multiset κ) (xs : List α) :
    (∀ t ∈ table key before xs, t = 0) ↔
      xs.Pairwise (fun a b => key b ≤ key a) ∧ ∀ x ∈ xs, ∀ k ∈ before, key x ≤ k := by
  induction xs generalizing before with
  | nil => simp
  | cons x xs ih =>
    simp only [table_cons, List.forall_mem_cons, ih, List.pairwise_cons, Multiset.mem_cons,
      forall_eq_or_imp, Multiset.countP_eq_zero, not_lt]
    constructor
    · rintro ⟨hx, hsorted, hall⟩
      exact ⟨⟨fun y hy => (hall y hy).1, hsorted⟩, hx, fun y hy => (hall y hy).2⟩
    · rintro ⟨⟨hfirst, hsorted⟩, hx, hall⟩
      exact ⟨hx, hsorted, fun y hy => ⟨hfirst y hy, hall y hy⟩⟩

/-- A pass that starts with a smallest element, and whose comparisons reach all entries that are not
zero, takes one off each entry and adds a zero. -/
theorem table_pass {k : ℕ} {c : α} {bs : List α} {before : Multiset κ}
    (hmin : ∀ x ∈ before, key c ≤ x)
    (hrest : ∀ t ∈ (table key (key c ::ₘ before) bs).drop k, t = 0) :
    table key before (pass key k c bs) =
      (table key (key c ::ₘ before) bs).map (· - 1) ++ [0] := by
  have hfirst : ∀ (c : α) (before : Multiset κ), (∀ x ∈ before, key c ≤ x) →
      before.countP (· < key c) = 0 := by
    intro c before hmin
    simpa only [Multiset.countP_eq_zero, not_lt] using hmin
  induction bs generalizing k c before with
  | nil =>
    cases k <;> simp [pass, hfirst c before hmin]
  | cons b bs ih =>
    cases k with
    | zero =>
      -- No comparison is left, and all entries are zero.
      have hzero := List.eq_replicate_of_mem hrest
      rw [List.drop_zero] at hzero
      rw [pass.eq_2 key 0 c (b :: bs) (by simp), table_cons, hfirst c before hmin, hzero,
        length_table, List.map_replicate, ← List.replicate_succ, ← List.replicate_succ']
    | succ k =>
      rw [table_cons, List.drop_succ_cons] at hrest
      rw [pass]
      split_ifs with hlt
      · -- The element is larger than the one that is carried, which goes on behind it.
        have hmin' : ∀ x ∈ key b ::ₘ before, key c ≤ x := by
          intro x hx
          rcases Multiset.mem_cons.1 hx with rfl | hx
          · exact hlt.le
          · exact hmin x hx
        rw [Multiset.cons_swap] at hrest
        rw [table_cons, table_cons, ih hmin' hrest, Multiset.cons_swap (key c), List.map_cons,
          List.cons_append, Multiset.countP_cons_of_pos (p := (· < key b)) before hlt,
          Nat.add_sub_cancel]
      · -- The element is no larger than any before it and is carried from here on.
        have hle : key b ≤ key c := not_lt.1 hlt
        have hmin' : ∀ x ∈ key c ::ₘ before, key b ≤ x := by
          intro x hx
          rcases Multiset.mem_cons.1 hx with rfl | hx
          · exact hle
          · exact hle.trans (hmin x hx)
        rw [table_cons, table_cons, ih hmin' hrest, hfirst c before hmin,
          hfirst b (key c ::ₘ before) hmin', List.map_cons, List.cons_append]

/-- Before the first pass the table is as it is. -/
theorem shifted_zero (t : List ℕ) : shifted 0 t = t := by
  simp [shifted]

/-- The table after one more pass. -/
theorem shifted_succ {n : ℕ} {t : List ℕ} (h : n < t.length) :
    (shifted n t).tail.map (· - 1) ++ [0] = shifted (n + 1) t := by
  unfold shifted
  rw [List.drop_eq_getElem_cons h, List.map_cons, List.cons_append, List.tail_cons, List.map_append,
    List.map_map, List.map_replicate, List.append_assoc, List.replicate_succ']
  congr 2

/-- The table after `n` passes is zero exactly when no entry from the `n`-th on is above `n`. -/
theorem shifted_eq_zero_iff (n : ℕ) (t : List ℕ) :
    (∀ x ∈ shifted n t, x = 0) ↔ ∀ m x, n ≤ m → t[m]? = some x → x ≤ n := by
  unfold shifted
  constructor
  · intro h m x hm hx
    have hmem : x ∈ t.drop n := by
      refine List.mem_of_getElem? (i := m - n) ?_
      rw [List.getElem?_drop, Nat.add_sub_cancel' hm, hx]
    have hzero := h (x - n) (List.mem_append_left _ (List.mem_map_of_mem hmem))
    omega
  · intro h x hx
    rcases List.mem_append.1 hx with hx | hx
    · obtain ⟨y, hy, rfl⟩ := List.mem_map.1 hx
      obtain ⟨i, hi⟩ := List.mem_iff_getElem?.1 hy
      rw [List.getElem?_drop] at hi
      have hle := h (n + i) y (Nat.le_add_right _ _) hi
      omega
    · exact List.eq_of_mem_replicate hx

end TenProf.Bubble
