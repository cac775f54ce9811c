import TenProf.Library.Runs
import Mathlib.Algebra.Order.BigOperators.Group.Finset
import Mathlib.Data.Fintype.Basic
import Mathlib.Logic.Function.Basic
import Mathlib.Logic.Relation

/-!
# Threads that take locks

A thread has a list of operations on locks to do and holds some locks. It may acquire a lock that no
other thread holds, and one that it holds itself only if the lock is reentrant; a thread whose next
lock is taken waits. `LockOrder.hold` is one operation that follows an order of the locks: a lock is
acquired above all those that are held. When every thread follows one order to the end of its
operations, whatever state the threads come to leads on to one where all are done
(`LockState.Ordered.completes`).
-/

namespace TenProf

/-- What a thread does to a lock. -/
inductive LockOp (L : Type*) where
  | acquire (l : L)
  | release (l : L)
  deriving DecidableEq, Repr

/-- The locks that a thread may acquire again while it holds them, and an order of all locks. -/
structure LockOrder (L : Type*) where
  reentrant : L → Bool
  rank : L → ℕ

/-- The locks that each thread holds, the last acquired one first, and what it has left to do. -/
structure LockState (ι L : Type*) where
  held : ι → List L
  todo : ι → List (LockOp L)

variable {ι L : Type*} [DecidableEq ι] [DecidableEq L]

/-- The operations of a section under a lock. -/
def locked (l : L) (body : List (LockOp L)) : List (LockOp L) :=
  .acquire l :: (body ++ [.release l])

/-! ## The operations of one thread -/

namespace LockOrder

variable (D : LockOrder L) {held held' : List L} {ops ops' : List (LockOp L)} {l : L}

/-- The locks held after an operation; `none` when it does not follow the order. -/
def hold (held : List L) : LockOp L → Option (List L)
  | .acquire l =>
    if (D.reentrant l = true ∧ l ∈ held) ∨ ∀ k ∈ held, D.rank k < D.rank l then some (l :: held)
    else none
  | .release l => if l ∈ held then some (held.erase l) else none

/-- The operations follow the order, and the same locks are held after them. -/
def Balanced (held : List L) (ops : List (LockOp L)) : Prop := run D.hold held ops = some held

variable {D}

/-- An acquisition in the order. -/
theorem hold_acquire_iff : D.hold held (.acquire l) = some held' ↔
    ((D.reentrant l = true ∧ l ∈ held) ∨ ∀ k ∈ held, D.rank k < D.rank l) ∧ l :: held = held' := by
  unfold hold
  rw [ite_eq_iff]
  simp only [Option.some.injEq, reduceCtorEq, and_false, or_false]

/-- A release in the order. -/
theorem hold_release_iff : D.hold held (.release l) = some held' ↔
    l ∈ held ∧ held.erase l = held' := by
  unfold hold
  rw [ite_eq_iff]
  simp only [Option.some.injEq, reduceCtorEq, and_false, or_false]

/-- No operation is balanced. -/
theorem balanced_nil : D.Balanced held [] := rfl

/-- Balanced operations one after the other. -/
theorem Balanced.append (h : D.Balanced held ops) (h' : D.Balanced held ops') :
    D.Balanced held (ops ++ ops') := by
  unfold Balanced
  rw [run_append, show run D.hold held ops = some held from h, Option.bind_some]
  exact h'

/-- Lists of balanced operations one after the other. -/
theorem balanced_flatten {opss : List (List (LockOp L))} (h : ∀ ops ∈ opss, D.Balanced held ops) :
    D.Balanced held opss.flatten := by
  induction opss with
  | nil => exact balanced_nil
  | cons ops opss ih =>
    rw [List.flatten_cons]
    exact (h ops List.mem_cons_self).append (ih fun o ho => h o (List.mem_cons_of_mem _ ho))

/-- The balanced operations of each element of a list. -/
theorem balanced_flatMap {α : Type*} {xs : List α} {f : α → List (LockOp L)}
    (h : ∀ x ∈ xs, D.Balanced held (f x)) : D.Balanced held (xs.flatMap f) := by
  rw [List.flatMap_def]
  refine balanced_flatten fun ops hops => ?_
  obtain ⟨x, hx, rfl⟩ := List.mem_map.1 hops
  exact h x hx

/-- Balanced operations that are done in one case only. -/
theorem Balanced.ite {p : Prop} [Decidable p] (h : p → D.Balanced held ops)
    (h' : ¬p → D.Balanced held ops') : D.Balanced held (if p then ops else ops') := by
  split_ifs with hp
  · exact h hp
  · exact h' hp

/-- A section under a lock that may be taken, with a body that is balanced under it. -/
theorem Balanced.locked
    (hl : (D.reentrant l = true ∧ l ∈ held) ∨ ∀ k ∈ held, D.rank k < D.rank l)
    (h : D.Balanced (l :: held) ops) : D.Balanced held (locked l ops) := by
  have htake : D.hold held (.acquire l) = some (l :: held) := hold_acquire_iff.2 ⟨hl, rfl⟩
  have hfree : D.hold (l :: held) (.release l) = some held :=
    hold_release_iff.2 ⟨List.mem_cons_self, List.erase_cons_head ..⟩
  unfold Balanced TenProf.locked
  rw [run_cons, htake, Option.bind_some, run_append, show run D.hold (l :: held) ops = _ from h,
    Option.bind_some, run_singleton, hfree]

end LockOrder

/-! ## All threads together -/

namespace LockState

/-- The state in which a thread has new locks and new operations left. -/
def turn (s : LockState ι L) (i : ι) (held : List L) (todo : List (LockOp L)) : LockState ι L :=
  ⟨Function.update s.held i held, Function.update s.todo i todo⟩

omit [DecidableEq L] in
@[simp] theorem turn_held (s : LockState ι L) (i : ι) (held : List L) (todo : List (LockOp L)) :
    (s.turn i held todo).held = Function.update s.held i held := rfl

omit [DecidableEq L] in
@[simp] theorem turn_todo (s : LockState ι L) (i : ι) (held : List L) (todo : List (LockOp L)) :
    (s.turn i held todo).todo = Function.update s.todo i todo := rfl

/-- One operation of one thread. -/
inductive Step (reentrant : L → Bool) (s : LockState ι L) : LockState ι L → Prop
  /-- Nobody else holds the lock, and the thread does not hold it unless it is reentrant. -/
  | acquire {i : ι} {l : L} {rest : List (LockOp L)} (htodo : s.todo i = .acquire l :: rest)
      (hfree : ∀ j, j ≠ i → l ∉ s.held j) (hown : l ∈ s.held i → reentrant l = true) :
      Step reentrant s (s.turn i (l :: s.held i) rest)
  | release {i : ι} {l : L} {rest : List (LockOp L)} (htodo : s.todo i = .release l :: rest)
      (hown : l ∈ s.held i) : Step reentrant s (s.turn i ((s.held i).erase l) rest)

/-- A run of all threads. -/
abbrev Steps (reentrant : L → Bool) : LockState ι L → LockState ι L → Prop :=
  Relation.ReflTransGen (Step reentrant)

/-- The threads at the start, without locks. -/
def start (todo : ι → List (LockOp L)) : LockState ι L := ⟨fun _ => [], todo⟩

/-- Every state that the threads can come to leads on to one in which all of them are done. -/
def Completes (reentrant : L → Bool) (s : LockState ι L) : Prop :=
  ∀ s', Steps reentrant s s' → ∃ s'', Steps reentrant s' s'' ∧ ∀ i, s''.todo i = []

/-- No lock is held by two threads, and each thread follows the order to its end, when it holds
nothing. -/
structure Ordered (D : LockOrder L) (s : LockState ι L) : Prop where
  exclusive : ∀ i j l, l ∈ s.held i → l ∈ s.held j → i = j
  inOrder : ∀ i, run D.hold (s.held i) (s.todo i) = some []

variable {D : LockOrder L} {reentrant : L → Bool} {s s' : LockState ι L} {i : ι} {l : L}
  {rest : List (LockOp L)} {held : List L}

/-- The turn of a thread that takes no lock of others and goes on in order. -/
theorem Ordered.turn (h : s.Ordered D) (hrest : run D.hold held rest = some [])
    (hfree : ∀ l ∈ held, ∀ j, j ≠ i → l ∉ s.held j) : (s.turn i held rest).Ordered D := by
  refine ⟨fun j k l hj hk => ?_, fun j => ?_⟩
  · by_contra hne
    simp only [turn_held, Function.update_apply] at hj hk
    split_ifs at hj hk with hji hki hki
    · exact hne (hji.trans hki.symm)
    · exact hfree l hj k hki hk
    · exact hfree l hk j hji hj
    · exact hne (h.exclusive j k l hj hk)
  · simp only [turn_held, turn_todo, Function.update_apply]
    split_ifs with hji
    · exact hrest
    · exact h.inOrder j

omit [DecidableEq ι] in
/-- What a thread in order does next, and what it has to hold for it. -/
theorem Ordered.next (h : s.Ordered D) {op : LockOp L} (htodo : s.todo i = op :: rest) :
    ∃ held', D.hold (s.held i) op = some held' ∧ run D.hold held' rest = some [] := by
  have hrun := h.inOrder i
  rw [htodo, run_cons] at hrun
  exact Option.bind_eq_some_iff.1 hrun

/-- Each step keeps the order. -/
theorem Ordered.step (h : s.Ordered D) (hstep : Step reentrant s s') : s'.Ordered D := by
  cases hstep with
  | @acquire i l rest htodo hfree hown =>
    obtain ⟨held', hhold, hrest⟩ := h.next htodo
    obtain ⟨-, rfl⟩ := LockOrder.hold_acquire_iff.1 hhold
    refine h.turn hrest fun k hk j hji hj => ?_
    rcases List.mem_cons.1 hk with rfl | hk
    · exact hfree j hji hj
    · exact hji (h.exclusive j i k hj hk)
  | @release i l rest htodo hown =>
    obtain ⟨held', hhold, hrest⟩ := h.next htodo
    obtain ⟨-, rfl⟩ := LockOrder.hold_release_iff.1 hhold
    exact h.turn hrest fun k hk j hji hj => hji (h.exclusive j i k hj (List.mem_of_mem_erase hk))

/-- Whatever the threads do, the order is kept. -/
theorem Ordered.steps (h : s.Ordered D) (hsteps : Steps reentrant s s') : s'.Ordered D := by
  induction hsteps with
  | refl => exact h
  | tail _ hstep ih => exact ih.step hstep

/-- When nobody can do a step, a thread that is not done waits for a lock, and the holder of this
lock waits for a lock of a higher rank. -/
theorem Ordered.waits (h : s.Ordered D) (hstuck : ∀ s', ¬Step D.reentrant s s')
    (hi : s.todo i ≠ []) : ∃ l rest, s.todo i = .acquire l :: rest ∧
      ∃ j m rest', s.todo j = .acquire m :: rest' ∧ D.rank l < D.rank m := by
  have hacquire : ∀ i, s.todo i ≠ [] → ∃ l rest, s.todo i = .acquire l :: rest := by
    intro i hi
    obtain ⟨op, rest, htodo⟩ := List.exists_cons_of_ne_nil hi
    cases op with
    | acquire l => exact ⟨l, rest, htodo⟩
    | release l =>
      obtain ⟨held', hhold, -⟩ := h.next htodo
      exact absurd (.release htodo (LockOrder.hold_release_iff.1 hhold).1) (hstuck _)
  have hheld : ∀ i l rest, s.todo i = .acquire l :: rest → (l ∈ s.held i → D.reentrant l = true) →
      ∃ j, j ≠ i ∧ l ∈ s.held j := by
    intro i l rest htodo hown
    by_contra! hfree
    exact hstuck _ (.acquire htodo hfree hown)
  obtain ⟨l, rest, htodo⟩ := hacquire i hi
  refine ⟨l, rest, htodo, ?_⟩
  -- A lock that the thread itself holds is not taken again unless it is reentrant.
  have hown : ∀ i l rest, s.todo i = .acquire l :: rest → l ∈ s.held i → D.reentrant l = true := by
    intro i l rest htodo hl
    obtain ⟨held', hhold, -⟩ := h.next htodo
    obtain ⟨⟨hr, -⟩ | habove, -⟩ := LockOrder.hold_acquire_iff.1 hhold
    · exact hr
    · exact absurd (habove l hl) (Nat.lt_irrefl _)
  obtain ⟨j, hji, hj⟩ := hheld i l rest htodo (hown i l rest htodo)
  -- The holder is not done, since at its end it holds nothing.
  have hjtodo : s.todo j ≠ [] := by
    intro hnil
    have hrun := h.inOrder j
    rw [hnil, run_nil, Option.some.injEq] at hrun
    rw [hrun] at hj
    exact List.not_mem_nil hj
  obtain ⟨m, rest', htodo'⟩ := hacquire j hjtodo
  refine ⟨j, m, rest', htodo', ?_⟩
  obtain ⟨held', hhold, -⟩ := h.next htodo'
  obtain ⟨⟨-, hm⟩ | habove, -⟩ := LockOrder.hold_acquire_iff.1 hhold
  · obtain ⟨k, hkj, hk⟩ := hheld j m rest' htodo' (hown j m rest' htodo')
    exact absurd (h.exclusive k j m hk hm) hkj
  · exact habove l hj

/-- While a thread is not done, some thread can do a step. -/
theorem Ordered.exists_step (h : s.Ordered D) {N : ℕ} (hrank : ∀ l, D.rank l ≤ N)
    (hi : s.todo i ≠ []) : ∃ s', Step D.reentrant s s' := by
  by_contra! hstuck
  -- Along the holders the ranks would increase without end.
  have hclimb : ∀ n, ∃ i l rest, s.todo i = .acquire l :: rest ∧ n ≤ D.rank l := by
    intro n
    induction n with
    | zero =>
      obtain ⟨l, rest, htodo, -⟩ := h.waits hstuck hi
      exact ⟨i, l, rest, htodo, Nat.zero_le _⟩
    | succ n ih =>
      obtain ⟨i, l, rest, htodo, hn⟩ := ih
      have hne : s.todo i ≠ [] := by rw [htodo]; exact List.cons_ne_nil _ _
      obtain ⟨l', rest', htodo', j, m, rest'', hm, hlt⟩ := h.waits hstuck hne
      have hl : l' = l := by
        rw [htodo] at htodo'
        exact (LockOp.acquire.inj (List.cons.inj htodo').1).symm
      rw [hl] at hlt
      exact ⟨j, m, rest'', hm, Nat.lt_of_le_of_lt hn hlt⟩
  obtain ⟨j, l, rest, -, hn⟩ := hclimb (N + 1)
  have hle := hrank l
  omega

/-! ## Completion -/

section Completion

variable [Fintype ι]

/-- The number of operations that are left. -/
def opsLeft (s : LockState ι L) : ℕ := ∑ i, (s.todo i).length

omit [DecidableEq L] in
/-- A turn of one operation. -/
theorem opsLeft_turn {op : LockOp L} (htodo : s.todo i = op :: rest) (held : List L) :
    (s.turn i held rest).opsLeft < s.opsLeft := by
  unfold opsLeft
  refine Finset.sum_lt_sum (fun j _ => ?_) ⟨i, Finset.mem_univ i, ?_⟩
  · simp only [turn_todo, Function.update_apply]
    split_ifs with hji
    · rw [hji, htodo]
      exact Nat.le_succ _
    · exact le_rfl
  · simp only [turn_todo, Function.update_self, htodo]
    exact Nat.lt_succ_self _

/-- Each step leaves fewer operations. -/
theorem Step.opsLeft_lt (h : Step reentrant s s') : s'.opsLeft < s.opsLeft := by
  cases h with
  | acquire htodo _ _ => exact opsLeft_turn htodo _
  | release htodo _ => exact opsLeft_turn htodo _

/-- Threads in order can be brought to their end. -/
theorem Ordered.exists_done (h : s.Ordered D) {N : ℕ} (hrank : ∀ l, D.rank l ≤ N) :
    ∃ s', Steps D.reentrant s s' ∧ ∀ i, s'.todo i = [] := by
  -- By induction on the operations that are left.
  induction hn : s.opsLeft using Nat.strong_induction_on generalizing s with
  | _ n ih =>
    by_cases hdone : ∀ i, s.todo i = []
    · exact ⟨s, .refl, hdone⟩
    · obtain ⟨i, hi⟩ := not_forall.1 hdone
      obtain ⟨s₁, hstep⟩ := h.exists_step hrank hi
      obtain ⟨s', hsteps, hdone'⟩ := ih s₁.opsLeft (hn ▸ hstep.opsLeft_lt) (h.step hstep) rfl
      exact ⟨s', .head hstep hsteps, hdone'⟩

/-- From threads in order every run leads on to one in which all are done. -/
theorem Ordered.completes (h : s.Ordered D) {N : ℕ} (hrank : ∀ l, D.rank l ≤ N) :
    s.Completes D.reentrant := fun _ hsteps => (h.steps hsteps).exists_done hrank

end Completion

omit [DecidableEq ι] in
/-- Threads that start in order. -/
theorem ordered_start {todo : ι → List (LockOp L)} (h : ∀ i, D.Balanced [] (todo i)) :
    (start todo).Ordered D :=
  ⟨fun _ _ _ hl _ => absurd hl List.not_mem_nil, h⟩

/-- A thread goes on alone while it takes no lock of others. -/
theorem steps_solo {ops : List (LockOp L)} {held' : List L} (htodo : s.todo i = ops ++ rest)
    (hrun : run D.hold (s.held i) ops = some held')
    (hfree : ∀ l, .acquire l ∈ ops → ∀ j, j ≠ i → l ∉ s.held j) :
    Steps D.reentrant s (s.turn i held' rest) := by
  induction ops generalizing s with
  | nil =>
    obtain rfl := Option.some.inj hrun
    have hsame : s.turn i (s.held i) rest = s := by
      unfold turn
      rw [← List.nil_append rest, ← htodo, Function.update_eq_self, Function.update_eq_self]
    rw [hsame]
  | cons op ops ih =>
    obtain ⟨held₁, hhold, hrun⟩ := Option.bind_eq_some_iff.1 hrun
    have hstep : Step D.reentrant s (s.turn i held₁ (ops ++ rest)) := by
      cases op with
      | acquire l =>
        obtain ⟨horder, rfl⟩ := LockOrder.hold_acquire_iff.1 hhold
        refine .acquire htodo (hfree l List.mem_cons_self) fun hl => ?_
        rcases horder with hr | habove
        · exact hr.1
        · exact absurd (habove l hl) (Nat.lt_irrefl _)
      | release l =>
        obtain ⟨hl, rfl⟩ := LockOrder.hold_release_iff.1 hhold
        exact .release htodo hl
    have hrest := ih (s := s.turn i held₁ (ops ++ rest)) (by simp) (by simpa using hrun)
      fun l hl j hji => by
        simpa [hji] using hfree l (List.mem_cons_of_mem _ hl) j hji
    have hturn : (s.turn i held₁ (ops ++ rest)).turn i held' rest = s.turn i held' rest := by
      unfold turn
      simp only [Function.update_idem]
    exact .head hstep (hturn ▸ hrest)

/-- Threads that come to a state in which one of them is not done and nobody can go on. -/
theorem not_completes (hsteps : Steps reentrant s s') (hi : s'.todo i ≠ [])
    (hstuck : ∀ s'', ¬Step reentrant s' s'') : ¬s.Completes reentrant := by
  intro h
  obtain ⟨s'', hsteps', hdone⟩ := h s' hsteps
  rcases Relation.ReflTransGen.cases_head hsteps' with rfl | ⟨s₁, hstep, -⟩
  · exact hi (hdone i)
  · exact hstuck s₁ hstep

end LockState

end TenProf
