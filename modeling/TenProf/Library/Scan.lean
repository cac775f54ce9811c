import Mathlib.Data.Int.Basic
import Mathlib.Data.List.Basic
import Mathlib.Data.List.TakeWhile
import Mathlib.Data.List.Zip
import Mathlib.Algebra.BigOperators.Group.List.Basic
import Mathlib.Algebra.Ring.Int.Defs

/-!
# Scans and compaction

`runningSums` is the inclusive prefix sum of a list, and `headFlags` marks the elements that differ
from the one before. When the marks of a list are `0` or `1`, their running sums number the marked
elements, so that each marked element finds its place in a shorter list without the others
(`flatMap_zip_runningSums`).
-/

namespace TenProf

/-- The sums of `acc` and the elements up to each position. -/
def runningSums (acc : ℤ) : List ℤ → List ℤ
  | [] => []
  | x :: l => (acc + x) :: runningSums (acc + x) l

/-- A mark at each element that is not equal to the one before. -/
def headFlags (prev : Option ℤ) : List ℤ → List ℤ
  | [] => []
  | x :: l => (if prev = some x then 0 else 1) :: headFlags (some x) l

/-- The elements whose mark is `1`. -/
def kept {α : Type*} : List α → List ℤ → List α
  | v :: vals, m :: ms => if m = 1 then v :: kept vals ms else kept vals ms
  | _, _ => []

variable {α β : Type*}

@[simp] theorem runningSums_nil (acc : ℤ) : runningSums acc [] = [] := rfl

@[simp] theorem runningSums_cons (acc x : ℤ) (l : List ℤ) :
    runningSums acc (x :: l) = (acc + x) :: runningSums (acc + x) l := rfl

@[simp] theorem headFlags_nil (prev : Option ℤ) : headFlags prev [] = [] := rfl

@[simp] theorem headFlags_cons (prev : Option ℤ) (x : ℤ) (l : List ℤ) :
    headFlags prev (x :: l) = (if prev = some x then 0 else 1) :: headFlags (some x) l := rfl

@[simp] theorem kept_nil (ms : List ℤ) : kept ([] : List α) ms = [] := by
  cases ms <;> rfl

@[simp] theorem kept_cons (v : α) (vals : List α) (m : ℤ) (ms : List ℤ) :
    kept (v :: vals) (m :: ms) = if m = 1 then v :: kept vals ms else kept vals ms := rfl

@[simp] theorem length_runningSums (acc : ℤ) (l : List ℤ) :
    (runningSums acc l).length = l.length := by
  induction l generalizing acc with
  | nil => rfl
  | cons x l ih => simp [ih]

@[simp] theorem length_headFlags (prev : Option ℤ) (l : List ℤ) :
    (headFlags prev l).length = l.length := by
  induction l generalizing prev with
  | nil => rfl
  | cons x l ih => simp [ih]

/-- As many elements are kept as the marks sum up to. -/
theorem length_kept (vals : List α) {ms : List ℤ} (hms : ∀ m ∈ ms, m = 0 ∨ m = 1)
    (hlen : vals.length = ms.length) : ((kept vals ms).length : ℤ) = ms.sum := by
  induction vals generalizing ms with
  | nil =>
    rw [List.length_nil, eq_comm, List.length_eq_zero_iff] at hlen
    simp [hlen]
  | cons v vals ih =>
    cases ms with
    | nil => simp at hlen
    | cons m ms =>
      obtain ⟨hm, hms'⟩ := List.forall_mem_cons.1 hms
      have hrest := ih hms' (by simpa using hlen)
      rcases hm with rfl | rfl
      · simpa using hrest
      · simp only [kept_cons, if_pos, List.length_cons, List.sum_cons]
        push_cast
        omega

/-- The running sums of the marks number the marked elements. -/
theorem flatMap_zip_runningSums (f : ℤ → α → β) (vals : List α) {ms : List ℤ}
    (hms : ∀ m ∈ ms, m = 0 ∨ m = 1) (n : ℕ) :
    (vals.zip (ms.zip (runningSums n ms))).flatMap
        (fun e => if e.2.1 = 1 then [f (e.2.2 - 1) e.1] else []) =
      ((kept vals ms).zipIdx n).map fun e => f e.2 e.1 := by
  induction vals generalizing ms n with
  | nil => simp
  | cons v vals ih =>
    cases ms with
    | nil => simp [kept]
    | cons m ms =>
      obtain ⟨hm, hms'⟩ := List.forall_mem_cons.1 hms
      rcases hm with rfl | rfl
      · simpa using ih hms' n
      · have hrest := ih hms' (n + 1)
        push_cast at hrest
        simp [hrest]

/-- What holds of every value of a function holds of the elements of a zip with it. -/
theorem forall_mem_zipWith {γ : Type*} {f : α → β → γ} {P : γ → Prop} (h : ∀ a b, P (f a b))
    (as : List α) (bs : List β) : ∀ c ∈ List.zipWith f as bs, P c := by
  induction as generalizing bs with
  | nil => simp
  | cons a as ih =>
    cases bs with
    | nil => simp
    | cons b bs => exact List.forall_mem_cons.2 ⟨h a b, ih bs⟩

end TenProf
