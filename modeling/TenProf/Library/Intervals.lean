import Mathlib.Algebra.BigOperators.Group.List.Basic
import Mathlib.Algebra.Ring.Nat
import Mathlib.Data.List.Pairwise
import Mathlib.Order.Interval.Finset.Nat

/-!
# Lists of half-open intervals

A list of pairs stands for the intervals from the first component up to, and without, the second.
`Covered` is the set of points that lie in one of them. A list is `Separated` when each interval
ends before the later ones begin, so that they are neither overlapping nor touching, and they are
`Chunks` when they may touch. For intervals of natural numbers, the total length of pairwise
disjoint ones is the number of points that they cover (`card_points_eq_totalLength`).
-/

namespace TenProf

section Covered

variable {α : Type*} [LinearOrder α]

/-- A point lies in one of the intervals of a list. -/
def Covered (l : List (α × α)) (x : α) : Prop := ∃ e ∈ l, e.1 ≤ x ∧ x < e.2

instance (l : List (α × α)) : DecidablePred (Covered l) := fun x =>
  inferInstanceAs (Decidable (∃ e ∈ l, e.1 ≤ x ∧ x < e.2))

/-- Each interval ends before the later ones of the list begin. -/
def Separated (l : List (α × α)) : Prop := l.Pairwise fun a b => a.2 < b.1

instance (l : List (α × α)) : Decidable (Separated l) :=
  inferInstanceAs (Decidable (l.Pairwise fun a b => a.2 < b.1))

/-- No interval of the list is empty. -/
def Proper (l : List (α × α)) : Prop := ∀ e ∈ l, e.1 < e.2

/-- No interval of the list ends before it starts. -/
def Ordered (l : List (α × α)) : Prop := ∀ e ∈ l, e.1 ≤ e.2

/-- The intervals stand in order and do not overlap. -/
structure Chunks (l : List (α × α)) : Prop where
  apart : l.Pairwise fun a b => a.2 ≤ b.1
  le : ∀ e ∈ l, e.1 ≤ e.2

@[simp] theorem covered_nil (x : α) : ¬Covered ([] : List (α × α)) x := by simp [Covered]

@[simp] theorem covered_cons (e : α × α) (l : List (α × α)) (x : α) :
    Covered (e :: l) x ↔ (e.1 ≤ x ∧ x < e.2) ∨ Covered l x := by simp [Covered]

@[simp] theorem covered_append (l l' : List (α × α)) (x : α) :
    Covered (l ++ l') x ↔ Covered l x ∨ Covered l' x := by
  simp [Covered, or_and_right, exists_or]

/-- Which points are covered depends on the intervals only, not on their order or number. -/
theorem covered_congr {l l' : List (α × α)} (h : ∀ e, e ∈ l ↔ e ∈ l') (x : α) :
    Covered l x ↔ Covered l' x := by simp [Covered, h]

/-- An interval that is not empty does not end before it starts. -/
theorem Proper.ordered {l : List (α × α)} (h : Proper l) : Ordered l := fun e he => (h e he).le

/-- The start of a proper interval is covered. -/
theorem Proper.covered_start {l : List (α × α)} (h : Proper l) {e : α × α} (he : e ∈ l) :
    Covered l e.1 := ⟨e, he, le_rfl, h e he⟩

/-- A point lies below the starts of proper intervals exactly when it lies below all points that
they cover. -/
theorem Proper.forall_lt_start_iff {l : List (α × α)} (h : Proper l) (y : α) :
    (∀ e ∈ l, y < e.1) ↔ ∀ x, Covered l x → y < x := by
  constructor
  · rintro hlow x ⟨e, he, hx, -⟩
    exact (hlow e he).trans_le hx
  · intro hlow e he
    exact hlow e.1 (h.covered_start he)

/-- Of separated intervals, only one holds a point, even where it ends. -/
theorem Separated.eq_of_mem {l : List (α × α)} (h : Separated l) {e d : α × α} (he : e ∈ l)
    (hd : d ∈ l) {x : α} (hex : e.1 ≤ x ∧ x ≤ e.2) (hdx : d.1 ≤ x ∧ x ≤ d.2) : e = d := by
  obtain ⟨i, hi, rfl⟩ := List.getElem_of_mem he
  obtain ⟨j, hj, rfl⟩ := List.getElem_of_mem hd
  rcases Nat.lt_trichotomy i j with hlt | rfl | hlt
  · have hij := List.pairwise_iff_getElem.1 h i j hi hj hlt
    exact absurd (hex.2.trans_lt hij) (not_lt.2 hdx.1)
  · rfl
  · have hji := List.pairwise_iff_getElem.1 h j i hj hi hlt
    exact absurd (hdx.2.trans_lt hji) (not_lt.2 hex.1)

/-- An interval of a list is replaced by smaller ones within it. -/
theorem Chunks.replace {before later pieces : List (α × α)} {e : α × α}
    (h : Chunks (before ++ e :: later)) (hpieces : Chunks pieces)
    (hwithin : ∀ d ∈ pieces, e.1 ≤ d.1 ∧ d.2 ≤ e.2) : Chunks (before ++ (pieces ++ later)) := by
  obtain ⟨hbefore, hrest, hcross⟩ := List.pairwise_append.1 h.apart
  obtain ⟨hlater, hapart⟩ := List.pairwise_cons.1 hrest
  constructor
  · refine List.pairwise_append.2 ⟨hbefore, List.pairwise_append.2 ⟨hpieces.apart, hapart, ?_⟩, ?_⟩
    · exact fun d hd c hc => (hwithin d hd).2.trans (hlater c hc)
    · intro c hc d hd
      rcases List.mem_append.1 hd with hd | hd
      · exact (hcross c hc e List.mem_cons_self).trans (hwithin d hd).1
      · exact hcross c hc d (List.mem_cons_of_mem e hd)
  · intro d hd
    rcases List.mem_append.1 hd with hd | hd
    · exact h.le d (List.mem_append_left _ hd)
    · rcases List.mem_append.1 hd with hd | hd
      · exact hpieces.le d hd
      · exact h.le d (List.mem_append_right _ (List.mem_cons_of_mem e hd))

/-- The intervals behind one of a list start at its end or later. -/
theorem Chunks.le_of_split {before later : List (α × α)} {e d : α × α}
    (h : Chunks (before ++ e :: later)) (hd : d ∈ later) : e.2 ≤ d.1 :=
  List.rel_of_pairwise_cons (List.pairwise_append.1 h.apart).2.1 hd

/-- The longest part of an interval from its start on that a list covers. -/
def coveredPrefix (l : List (α × α)) (e : α × α) : Set α :=
  {x | e.1 ≤ x ∧ x < e.2 ∧ ∀ y, e.1 ≤ y → y ≤ x → Covered l y}

/-- When all points below `c` are covered and `c` is not, or not in the interval, the part ends
at `c`. -/
theorem mem_coveredPrefix_iff {l : List (α × α)} {e : α × α} {c : α}
    (hbelow : ∀ x, e.1 ≤ x → x < c → x < e.2 ∧ Covered l x)
    (hend : e.2 ≤ c ∨ e.1 ≤ c ∧ ¬Covered l c) (x : α) :
    x ∈ coveredPrefix l e ↔ e.1 ≤ x ∧ x < c := by
  constructor
  · rintro ⟨hle, hlt, hall⟩
    refine ⟨hle, ?_⟩
    rcases hend with hend | ⟨hc, hnot⟩
    · exact hlt.trans_le hend
    · by_contra hge
      exact hnot (hall c hc (not_lt.1 hge))
  · rintro ⟨hle, hlt⟩
    exact ⟨hle, (hbelow x hle hlt).1, fun y hy hyx => (hbelow y hy (hyx.trans_lt hlt)).2⟩

end Covered

section Length

/-- The sum of the lengths of the intervals. -/
def totalLength (l : List (ℕ × ℕ)) : ℕ := (l.map fun e => e.2 - e.1).sum

/-- The points that the intervals cover. -/
def points (l : List (ℕ × ℕ)) : Finset ℕ := l.foldr (fun e s => Finset.Ico e.1 e.2 ∪ s) ∅

@[simp] theorem totalLength_nil : totalLength [] = 0 := rfl

@[simp] theorem totalLength_cons (e : ℕ × ℕ) (l : List (ℕ × ℕ)) :
    totalLength (e :: l) = (e.2 - e.1) + totalLength l := rfl

@[simp] theorem points_nil : points [] = ∅ := rfl

@[simp] theorem points_cons (e : ℕ × ℕ) (l : List (ℕ × ℕ)) :
    points (e :: l) = Finset.Ico e.1 e.2 ∪ points l := rfl

@[simp] theorem mem_points (l : List (ℕ × ℕ)) (x : ℕ) : x ∈ points l ↔ Covered l x := by
  induction l with
  | nil => simp
  | cons e l ih => simp [ih]

/-- Lists that cover the same points have the same set of points. -/
theorem points_eq_iff (l l' : List (ℕ × ℕ)) :
    points l = points l' ↔ ∀ x, Covered l x ↔ Covered l' x := by simp [Finset.ext_iff]

/-- The points of pairwise disjoint intervals that pass a test are counted interval by interval. -/
theorem card_filter_points {l : List (ℕ × ℕ)} (p : ℕ → Prop) [DecidablePred p]
    (h : l.Pairwise fun a b => ∀ x, ¬((a.1 ≤ x ∧ x < a.2) ∧ b.1 ≤ x ∧ x < b.2)) :
    ((points l).filter p).card = (l.map fun e => ((Finset.Ico e.1 e.2).filter p).card).sum := by
  induction l with
  | nil => rfl
  | cons e l ih =>
    obtain ⟨hfirst, hrest⟩ := List.pairwise_cons.1 h
    -- The first interval shares no point with the others.
    have hdisj : Disjoint (Finset.Ico e.1 e.2) (points l) := by
      rw [Finset.disjoint_left]
      intro x hx hmem
      obtain ⟨e', he', hx'⟩ := (mem_points l x).1 hmem
      exact hfirst e' he' x ⟨Finset.mem_Ico.1 hx, hx'⟩
    rw [points_cons, Finset.filter_union,
      Finset.card_union_of_disjoint (Finset.disjoint_filter_filter hdisj), ih hrest, List.map_cons,
      List.sum_cons]

/-- The total length of pairwise disjoint intervals is the number of points that they cover. -/
theorem card_points_eq_totalLength {l : List (ℕ × ℕ)}
    (h : l.Pairwise fun a b => ∀ x, ¬((a.1 ≤ x ∧ x < a.2) ∧ b.1 ≤ x ∧ x < b.2)) :
    (points l).card = totalLength l := by
  have hcount := card_filter_points (fun _ => True) h
  simp only [Finset.filter_true, Nat.card_Ico] at hcount
  exact hcount

/-- A list of separated intervals is the shortest that covers its points. -/
theorem Separated.length_le {l l' : List (ℕ × ℕ)} (h : Separated l) (hproper : Proper l)
    (hcovered : ∀ x, Covered l x ↔ Covered l' x) : l.length ≤ l'.length := by
  -- Each interval starts where one of the other list does, since nothing is covered before it.
  have hstart : ∀ a ∈ l.map Prod.fst, a ∈ l'.map Prod.fst := by
    rintro a ha
    obtain ⟨e, he, rfl⟩ := List.mem_map.1 ha
    obtain ⟨e', he', hle, hlt⟩ := (hcovered e.1).1 (hproper.covered_start he)
    rcases Nat.eq_or_lt_of_le hle with heq | hbefore
    · exact heq ▸ List.mem_map_of_mem he'
    · obtain ⟨d, hd, hdle, hdlt⟩ := (hcovered (e.1 - 1)).2 ⟨e', he', by omega, by omega⟩
      have heq := h.eq_of_mem he hd (x := e.1) ⟨le_rfl, (hproper e he).le⟩ ⟨by omega, by omega⟩
      rw [← heq] at hdle
      omega
  have hnodup : (l.map Prod.fst).Nodup := by
    rw [List.Nodup, List.pairwise_map]
    refine h.imp_of_mem fun {a b} ha _ hab => ?_
    have := hproper a ha
    omega
  simpa using (hnodup.subperm hstart).length_le

/-- Separated intervals that cover the points of one interval are this interval. -/
theorem Separated.eq_singleton {l : List (ℕ × ℕ)} (h : Separated l) (hproper : Proper l) {a b : ℕ}
    (hab : a < b) (hcovered : ∀ x, Covered l x ↔ a ≤ x ∧ x < b) : l = [(a, b)] := by
  have hlen : l.length ≤ [(a, b)].length := h.length_le hproper fun x => by simp [hcovered]
  obtain ⟨e, he, hle, hlt⟩ := (hcovered a).2 ⟨le_rfl, hab⟩
  obtain rfl : l = [e] := by
    match l, hlen, he with
    | [d], _, he => rw [List.mem_singleton.1 he]
  have hstart := (hcovered e.1).1 (by simp; omega)
  have hlast := (hcovered (e.2 - 1)).1 (by simp; omega)
  have hend : b ≤ e.2 := by
    by_contra hgt
    simpa using (hcovered e.2).2 ⟨by omega, by omega⟩
  rw [show e = (a, b) from Prod.ext (by omega) (by show e.2 = b; omega)]

/-- The total length of separated intervals is the number of points that they cover. -/
theorem Separated.card_points {l : List (ℕ × ℕ)} (h : Separated l) :
    (points l).card = totalLength l :=
  card_points_eq_totalLength (h.imp fun {a b} hab x hx => by omega)

/-- The total length of intervals that do not overlap is the number of points that they cover. -/
theorem Chunks.card_points {l : List (ℕ × ℕ)} (h : Chunks l) :
    (points l).card = totalLength l :=
  card_points_eq_totalLength (h.apart.imp fun {a b} hab x hx => by omega)

end Length

section Stretches

/-- The lengths of the stretches of consecutive numbers in a set. -/
def stretches (s : Set ℕ) : Set ℕ := {n | ∃ x, Set.Ico x (x + n) ⊆ s}

/-- The length of the longest interval. -/
def maxLength (l : List (ℕ × ℕ)) : ℕ := (l.map fun e => e.2 - e.1).foldr max 0

@[simp] theorem maxLength_nil : maxLength [] = 0 := rfl

@[simp] theorem maxLength_cons (e : ℕ × ℕ) (l : List (ℕ × ℕ)) :
    maxLength (e :: l) = max (e.2 - e.1) (maxLength l) := rfl

/-- A larger set has longer stretches. -/
theorem stretches_mono {s t : Set ℕ} (h : s ⊆ t) : stretches s ⊆ stretches t := by
  rintro n ⟨x, hx⟩
  exact ⟨x, hx.trans h⟩

/-- The longest stretch of an interval is all of it. -/
theorem isGreatest_stretches_Ico (a b : ℕ) : IsGreatest (stretches (Set.Ico a b)) (b - a) := by
  constructor
  · refine ⟨a, fun x hx => ?_⟩
    rw [Set.mem_Ico] at hx ⊢
    omega
  · rintro n ⟨x, hx⟩
    by_contra hlt
    have hfirst := hx (Set.mem_Ico.2 ⟨le_rfl, by omega⟩ : x ∈ Set.Ico x (x + n))
    have hlast := hx (Set.mem_Ico.2 ⟨by omega, by omega⟩ : x + n - 1 ∈ Set.Ico x (x + n))
    rw [Set.mem_Ico] at hfirst hlast
    omega

/-- No interval is longer than the longest one. -/
theorem length_le_maxLength {l : List (ℕ × ℕ)} {e : ℕ × ℕ} (he : e ∈ l) :
    e.2 - e.1 ≤ maxLength l := by
  induction l with
  | nil => exact absurd he List.not_mem_nil
  | cons d l ih =>
    rw [maxLength_cons]
    rcases List.mem_cons.1 he with rfl | he
    · exact le_max_left _ _
    · exact (ih he).trans (le_max_right _ _)

/-- The longest interval is one of the list, unless there is none but empty ones. -/
theorem exists_length_eq_maxLength {l : List (ℕ × ℕ)} (h : maxLength l ≠ 0) :
    ∃ e ∈ l, e.2 - e.1 = maxLength l := by
  induction l with
  | nil => exact absurd rfl h
  | cons d l ih =>
    rw [maxLength_cons] at h ⊢
    rcases le_total (maxLength l) (d.2 - d.1) with hle | hle
    · exact ⟨d, List.mem_cons_self, (max_eq_left hle).symm⟩
    · rw [max_eq_right hle] at h ⊢
      obtain ⟨e, he, heq⟩ := ih h
      exact ⟨e, List.mem_cons_of_mem d he, heq⟩

/-- A stretch that separated intervals cover lies in one of them. -/
theorem Separated.exists_of_stretch {l : List (ℕ × ℕ)} (h : Separated l) {x n : ℕ}
    (hcovered : ∀ y ∈ Set.Ico x (x + (n + 1)), Covered l y) :
    ∃ e ∈ l, e.1 ≤ x ∧ x + (n + 1) ≤ e.2 := by
  -- By induction on the length: the next point lies in the same interval.
  induction n with
  | zero =>
    obtain ⟨e, he, hle, hlt⟩ := hcovered x (Set.mem_Ico.2 ⟨le_rfl, by omega⟩)
    exact ⟨e, he, hle, hlt⟩
  | succ n ih =>
    obtain ⟨e, he, hle, hge⟩ := ih fun y hy => hcovered y (by rw [Set.mem_Ico] at hy ⊢; omega)
    obtain ⟨d, hd, hdle, hdlt⟩ := hcovered (x + (n + 1)) (Set.mem_Ico.2 ⟨by omega, by omega⟩)
    refine ⟨e, he, hle, ?_⟩
    by_contra hlt
    -- The interval ends here, where the one with the next point has begun.
    have hend : e.2 = x + (n + 1) := by omega
    have heq := h.eq_of_mem he hd (x := e.2) ⟨by omega, le_rfl⟩ ⟨by omega, by omega⟩
    rw [← heq] at hdlt
    omega

/-- The longest stretch that separated intervals cover is the longest of them. -/
theorem Separated.isGreatest_maxLength {l : List (ℕ × ℕ)} (h : Separated l) :
    IsGreatest (stretches {x | Covered l x}) (maxLength l) := by
  constructor
  · by_cases hzero : maxLength l = 0
    · exact ⟨0, fun y hy => by simp [hzero] at hy⟩
    · obtain ⟨e, he, heq⟩ := exists_length_eq_maxLength hzero
      refine ⟨e.1, fun y hy => ⟨e, he, ?_⟩⟩
      rw [Set.mem_Ico] at hy
      omega
  · rintro n ⟨x, hx⟩
    cases n with
    | zero => exact Nat.zero_le _
    | succ n =>
      obtain ⟨e, he, hle, hge⟩ := h.exists_of_stretch hx
      calc n + 1
        _ ≤ e.2 - e.1 := by omega
        _ ≤ maxLength l := length_le_maxLength he

end Stretches

end TenProf
