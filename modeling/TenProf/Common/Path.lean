import TenProf.Library.Runs
import TenProf.Words
import Mathlib.Data.List.Basic
import Mathlib.Tactic.Common

/-!
# `Path`

The growing array of `common/path.h`, beside the list that its callers take it for. The room for the
next entry is made after an operation, by a comparison of the index with the capacity that only
equality passes. `push_back` and `pop_back` move the index by one and `reset` moves it to the front,
so none of them passes the capacity without meeting it; `resize` does, with a size above the
capacity. The path is the list, with room for one more entry, in every state of a run exactly when
no `resize` of the run asks for more than the capacity.
-/

namespace TenProf

/-- `Path<T>`: `index` entries of an array of `capacity` entries. An array has less than `2^63`
entries. -/
structure Path (α : Type*) where
  entries : List α
  index : ℕ
  capacity : ℕ
  entries_length : entries.length = capacity
  capacity_lt : capacity < 2^63

namespace Path

variable {α : Type*}

/-- The constructor, which has no result for a capacity that no array has. -/
def construct [Inhabited α] (capacity : ℕ) : Option (Path α) :=
  if h : capacity < 2^63 then
    some ⟨List.replicate capacity default, 0, capacity, List.length_replicate, h⟩
  else
    none

/-- `reserve`: the entries go to the front of a larger array. It has no result when there is no
array of the new capacity. -/
def reserve [Inhabited α] (p : Path α) (new_capacity : ℕ) : Option (Path α) :=
  if hlt : p.capacity < new_capacity then
    if h : new_capacity < 2^63 then
      some
        { p with
          entries := p.entries.rightpad new_capacity default
          capacity := new_capacity
          entries_length := by
            have := p.entries_length
            simp only [List.rightpad, List.length_append, List.length_replicate]
            omega
          capacity_lt := h }
    else
      none
  else
    some p

/-- What `push_back` and `resize` end with: a full array is doubled. -/
def grow [Inhabited α] (p : Path α) : Option (Path α) :=
  if p.index = p.capacity then p.reserve (u64 (p.capacity * 2)) else some p

/-- A write to the array, which has no result outside of it. -/
def write (p : Path α) (i : ℕ) (value : α) : Option (Path α) :=
  if i < p.capacity then
    some
      { p with
        entries := p.entries.set i value
        entries_length := List.length_set.trans p.entries_length }
  else
    none

/-- `push_back`. -/
def pushBack [Inhabited α] (p : Path α) (value : α) : Option (Path α) :=
  (p.write p.index value).bind fun q => { q with index := u64 (q.index + 1) : Path α }.grow

/-- `pop_back`, with the entry that it returns. It has no result when it reads outside of the
array. -/
def popBack (p : Path α) : Option (α × Path α) :=
  let index := subU64 p.index 1
  p.entries[index]?.map fun value => (value, { p with index := index })

/-- `reset`. -/
def reset (p : Path α) : Path α := { p with index := 0 }

/-- `resize`. -/
def resize [Inhabited α] (p : Path α) (size : ℕ) : Option (Path α) :=
  { p with index := size : Path α }.grow

/-- A write has a result exactly inside the array. -/
theorem write_isSome_iff {p : Path α} {i : ℕ} {value : α} :
    (p.write i value).isSome ↔ i < p.capacity := by
  unfold write
  split <;> simp_all

/-- What a larger reservation leaves: the index and the entries, and no less capacity. -/
theorem reserve_spec [Inhabited α] {p q : Path α} {new_capacity : ℕ}
    (h : p.reserve new_capacity = some q) :
    q.index = p.index ∧ q.capacity = max p.capacity new_capacity ∧ p.entries <+: q.entries := by
  unfold reserve at h
  split at h
  case isTrue hlt =>
    split at h
    · cases h
      exact ⟨rfl, (max_eq_right hlt.le).symm, List.prefix_append _ _⟩
    · cases h
  case isFalse hle =>
    cases h
    exact ⟨rfl, (max_eq_left (not_lt.1 hle)).symm, List.prefix_rfl⟩

/-- An operation that ends with an index up to the capacity leaves room for one more entry, and one
that ends with a larger index does not. -/
theorem grow_spec [Inhabited α] {p q : Path α} (h : p.grow = some q) (hpos : 0 < p.capacity) :
    q.index = p.index ∧ (q.index < q.capacity ↔ p.index ≤ p.capacity) ∧
      p.entries <+: q.entries := by
  have hlt := p.capacity_lt
  unfold grow at h
  split at h
  case isTrue heq =>
    obtain ⟨hindex, hcapacity, hentries⟩ := reserve_spec h
    have hdouble : u64 (p.capacity * 2) = p.capacity * 2 := u64_of_lt (by omega)
    rw [hdouble] at hcapacity
    exact ⟨hindex, by omega, hentries⟩
  case isFalse hne =>
    cases h
    exact ⟨rfl, by omega, List.prefix_rfl⟩

/-- What `push_back` does when it has a result: the index was inside the array. -/
theorem pushBack_spec [Inhabited α] {p q : Path α} {value : α} (h : p.pushBack value = some q) :
    p.index < p.capacity ∧ q.index = p.index + 1 ∧ q.index < q.capacity ∧
      p.entries.set p.index value <+: q.entries := by
  obtain ⟨w, hw, hgrow⟩ := Option.bind_eq_some_iff.1 h
  have hlt : p.index < p.capacity := write_isSome_iff.1 (Option.isSome_of_eq_some hw)
  have hbound := p.capacity_lt
  simp only [write, hlt, ↓reduceIte, Option.some.injEq] at hw
  subst hw
  have hindex : u64 (p.index + 1) = p.index + 1 := u64_of_lt (by omega)
  obtain ⟨h₁, h₂, h₃⟩ := grow_spec hgrow (by exact Nat.zero_lt_of_lt hlt)
  exact ⟨hlt, h₁.trans hindex, h₂.2 (hindex.trans_le hlt), h₃⟩

/-- What `pop_back` does when it has a result: it returns the entry before the index. -/
theorem popBack_spec {p q : Path α} {value : α} (h : p.popBack = some (value, q))
    (hindex : p.index < 2^64) : 0 < p.index ∧ q = { p with index := p.index - 1 } ∧
      p.entries[p.index - 1]? = some value := by
  obtain ⟨v, hv, heq⟩ := Option.map_eq_some_iff.1 h
  have hlen := p.entries_length
  have hlt := p.capacity_lt
  have hinside : subU64 p.index 1 < p.entries.length := (List.getElem?_eq_some_iff.1 hv).1
  -- The index that an empty path wraps to is above every capacity.
  have hpred : 0 < p.index ∧ subU64 p.index 1 = p.index - 1 := by
    unfold subU64 at hinside ⊢
    omega
  rw [hpred.2] at hv heq
  cases heq
  exact ⟨hpred.1, rfl, hv⟩

end Path

/-- The operations that change a path. -/
inductive PathOp (α : Type*) where
  | push_back (value : α)
  | pop_back
  | resize (size : ℕ)
  | reserve (new_capacity : ℕ)
  | reset

/-- A path beside the list that it stands for; an entry that is not specified is `none`. -/
structure PathModel (α : Type*) where
  path : Path α
  list : List (Option α)

namespace PathModel

variable {α : Type*}

/-- The path has room for one more entry, so that the next write is inside the array, and its first
entries are those of the list. -/
structure Agrees (s : PathModel α) : Prop where
  room : s.path.index < s.path.capacity
  write_inside : ∀ value, (s.path.write s.path.index value).isSome
  size : s.list.length = s.path.index
  entries : ∀ (i : ℕ) value, s.list[i]? = some (some value) → s.path.entries[i]? = some value

/-- What `Agrees` comes down to. -/
theorem agrees_of {p : Path α} {l : List (Option α)} (hroom : p.index < p.capacity)
    (hsize : l.length = p.index)
    (hentries : ∀ (i : ℕ) value, l[i]? = some (some value) → p.entries[i]? = some value) :
    Agrees ⟨p, l⟩ :=
  ⟨hroom, fun _ => Path.write_isSome_iff.2 hroom, hsize, hentries⟩

/-- An entry of a list is that of any longer one. -/
theorem getElem?_of_longer {xs ys : List α} (h : xs <+: ys) {i : ℕ} {x : α} (hx : xs[i]? = some x) :
    ys[i]? = some x := by
  obtain ⟨zs, rfl⟩ := h
  exact (List.getElem?_append_left (List.getElem?_eq_some_iff.1 hx).1).trans hx

variable {s s' : PathModel α} {op : PathOp α}

/-- `pop_back` keeps the agreement, and returns the last entry of the list when it is specified. -/
theorem Agrees.pop_back {p : Path α} {value : α} (h : Agrees s)
    (hp : s.path.popBack = some (value, p)) :
    Agrees ⟨p, s.list.dropLast⟩ ∧ ∀ x, s.list.getLast? = some (some x) → x = value := by
  have hroom := h.room
  have hbound := s.path.capacity_lt
  obtain ⟨hpos, rfl, hvalue⟩ := Path.popBack_spec hp (by omega)
  constructor
  · refine agrees_of ((Nat.sub_le _ 1).trans_lt hroom) (by simp [h.size]) fun i x hx => ?_
    rw [List.getElem?_dropLast] at hx
    split at hx
    · exact h.entries i x hx
    · cases hx
  · intro x hx
    rw [List.getLast?_eq_getElem?, h.size] at hx
    exact Option.some.inj ((h.entries _ x hx).symm.trans hvalue)

/-- `reset` keeps the agreement. -/
theorem Agrees.reset (h : Agrees s) : Agrees ⟨s.path.reset, []⟩ :=
  agrees_of (Nat.zero_lt_of_lt h.room) rfl (by simp)

variable [Inhabited α]

/-- What an operation does to the list. -/
def listStep (l : List (Option α)) : PathOp α → List (Option α)
  | .push_back value => l ++ [some value]
  | .pop_back => l.dropLast
  | .resize size => (l.rightpad size none).take size
  | .reserve _ => l
  | .reset => []

/-- What an operation does to the path. -/
def pathStep (p : Path α) : PathOp α → Option (Path α)
  | .push_back value => p.pushBack value
  | .pop_back => p.popBack.map (·.2)
  | .resize size => p.resize size
  | .reserve new_capacity => p.reserve new_capacity
  | .reset => some p.reset

/-- An operation on both. -/
def step (s : PathModel α) (op : PathOp α) : Option (PathModel α) :=
  (pathStep s.path op).map fun p => ⟨p, listStep s.list op⟩

/-- A `resize` asks for no more than the capacity. -/
def WithinCapacity (s : PathModel α) : PathOp α → Prop
  | .resize size => size ≤ s.path.capacity
  | _ => True

/-- `push_back` keeps the agreement. -/
theorem Agrees.push_back {p : Path α} {value : α} (h : Agrees s)
    (hp : s.path.pushBack value = some p) : Agrees ⟨p, s.list ++ [some value]⟩ := by
  obtain ⟨hlt, hindex, hroom, hkept⟩ := Path.pushBack_spec hp
  refine agrees_of hroom (by simp [h.size, hindex]) fun i x hx => ?_
  refine getElem?_of_longer hkept ?_
  rcases lt_trichotomy i s.list.length with hi | rfl | hi
  · -- An entry that was there is not the one that is written.
    rw [List.getElem?_append_left hi] at hx
    rw [List.getElem?_set_ne (by rw [← h.size]; exact hi.ne')]
    exact h.entries i x hx
  · rw [List.getElem?_concat_length] at hx
    cases hx
    rw [h.size]
    exact List.getElem?_set_self (hlt.trans_eq s.path.entries_length.symm)
  · rw [List.getElem?_eq_none (by simpa using Nat.succ_le_of_lt hi)] at hx
    cases hx

/-- A `resize` has room for one more entry exactly when it asks for no more than the capacity. -/
theorem Agrees.resize_iff {p : Path α} {size : ℕ} (h : Agrees s)
    (hp : s.path.resize size = some p) :
    Agrees ⟨p, (s.list.rightpad size none).take size⟩ ↔ size ≤ s.path.capacity := by
  have hroom := h.room
  obtain ⟨hindex, hiff, hkept⟩ := Path.grow_spec hp (by exact Nat.zero_lt_of_lt hroom)
  refine ⟨fun hagrees => hiff.1 hagrees.room, fun hle => ?_⟩
  refine agrees_of (hiff.2 hle) ?_ fun i x hx => getElem?_of_longer hkept (h.entries i x ?_)
  · rw [List.length_take, List.length_rightpad, hindex]
    exact min_eq_left (le_max_left _ _)
  · -- Where the list is extended its entries are not specified.
    rw [List.getElem?_take] at hx
    split at hx
    · rw [List.rightpad, List.getElem?_append] at hx
      split at hx
      · exact hx
      · rw [List.getElem?_replicate] at hx
        split at hx <;> simp at hx
    · cases hx

/-- `reserve` keeps the agreement. -/
theorem Agrees.reserve {p : Path α} {new_capacity : ℕ} (h : Agrees s)
    (hp : s.path.reserve new_capacity = some p) : Agrees ⟨p, s.list⟩ := by
  have hroom := h.room
  obtain ⟨hindex, hcapacity, hkept⟩ := Path.reserve_spec hp
  exact agrees_of (by omega) (h.size.trans hindex.symm) fun i x hx =>
    getElem?_of_longer hkept (h.entries i x hx)

/-- An operation keeps the agreement exactly when it is no `resize` above the capacity. -/
theorem Agrees.step_iff (h : Agrees s) (hstep : step s op = some s') :
    Agrees s' ↔ WithinCapacity s op := by
  obtain ⟨p, hp, rfl⟩ := Option.map_eq_some_iff.1 hstep
  cases op with
  | push_back value => exact iff_of_true (h.push_back hp) trivial
  | pop_back =>
    obtain ⟨⟨value, p⟩, hpop, rfl⟩ := Option.map_eq_some_iff.1 hp
    exact iff_of_true (h.pop_back hpop).1 trivial
  | resize size => exact h.resize_iff hp
  | reserve new_capacity => exact iff_of_true (h.reserve hp) trivial
  | reset =>
    cases hp
    exact iff_of_true h.reset trivial

/-- An operation without a result is no `resize` above the capacity: such a `resize` makes no
room. -/
theorem withinCapacity_of_none (hstep : step s op = none) : WithinCapacity s op := by
  cases op with
  | resize size =>
    by_contra hgt
    have hne : size ≠ s.path.capacity := (not_le.1 hgt).ne'
    simp [step, pathStep, Path.resize, Path.grow, hne] at hstep
  | _ => trivial

/-- A path that has just been constructed with room for an entry is the empty list. -/
theorem agrees_construct {capacity : ℕ} {p : Path α} (hpos : 1 ≤ capacity)
    (hp : Path.construct capacity = some p) : Agrees ⟨p, []⟩ := by
  unfold Path.construct at hp
  split at hp
  · cases hp
    exact agrees_of hpos rfl (by simp)
  · cases hp

/-- In every run from a path that was constructed with room for an entry, the path is the list, with
room for one more entry, after every operation exactly when every `resize` asks for no more than
the capacity. -/
theorem path_agrees_iff {capacity : ℕ} {p : Path α} (hpos : 1 ≤ capacity)
    (hp : Path.construct capacity = some p) (ops : List (PathOp α)) :
    AllStates step Agrees ⟨p, []⟩ ops ↔ AllSteps step WithinCapacity ⟨p, []⟩ ops :=
  allStates_iff_allSteps (I := fun _ => True) (fun _ _ _ _ _ => trivial)
    (fun _ _ _ _ hnone => withinCapacity_of_none hnone)
    (fun _ _ _ _ hagrees hstep => hagrees.step_iff hstep) trivial (agrees_construct hpos hp)

/-- A path of one entry has room for its one entry, and for two after it. -/
theorem path_agrees_one : AllStates step Agrees ⟨⟨[0], 0, 1, rfl, by decide⟩, []⟩
    [.resize 1, .push_back 5, .pop_back] :=
  (path_agrees_iff (le_refl 1) (by rfl) _).2 (by simp [AllSteps, WithinCapacity])

/-- A path of one entry that is resized to three has its index behind its only entry, so that the
next write is outside of it. -/
theorem resize_above_capacity : ¬ ∀ (capacity : ℕ) (p : Path ℕ), 1 ≤ capacity →
    Path.construct capacity = some p → ∀ ops, AllStates step Agrees ⟨p, []⟩ ops := by
  intro hall
  have hstates := hall 1 ⟨[0], 0, 1, rfl, by decide⟩ le_rfl (by rfl) [.resize 3]
  have hagrees := (hstates.2 ⟨⟨[0], 3, 1, rfl, by decide⟩, [none, none, none]⟩ (by rfl)).start
  exact absurd hagrees.room (by decide)

end PathModel
end TenProf
