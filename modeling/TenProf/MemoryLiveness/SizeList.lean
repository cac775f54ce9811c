import TenProf.Library.OrderedMap
import TenProf.Library.While
import TenProf.Words
import Mathlib.Data.List.Induction
import Mathlib.Data.List.Infix

/-!
# The sorted list of sizes

`output_memory_size_list` sorts the sizes of all objects by selection: for each position the first
largest entry behind it is looked for, and exchanged with the one there. The loop variables are of
type `int`, the size of the list is unsigned, and the outer loop runs up to `size() - 1`, which is
no small number for the empty list. There is no result where an entry outside the list is read or
written, where an `int` overflows, or while the loops have not ended. `sizeLists_sorted_iff` says
when the sort is right. Its twin for sub-memories does nothing without sub-memories, and so does not
sort the empty list.
-/

namespace TenProf.MemoryLiveness

/-- `MemoryEntry`. -/
structure MemoryEntry where
  op_id : ℕ
  size : ℕ
  deriving DecidableEq, Repr

/-- The variables of the inner loop. -/
structure Scan where
  j : ℤ
  index : ℤ
  temp : MemoryEntry

/-- A turn of the inner loop. -/
def scanTurn (l : List MemoryEntry) (s : Scan) : Scan ⊕ Option Scan :=
  if u64OfInt s.j < l.length then
    match l[u64OfInt s.j]?, intSucc s.j with
    | some entry, some j =>
      .inl (if entry.size > s.temp.size then ⟨j, s.j, entry⟩ else ⟨j, s.index, s.temp⟩)
    | _, _ => .inr none
  else .inr (some s)

/-- The exchange behind the inner loop. -/
def exchange (l : List MemoryEntry) (i index : ℤ) (temp : MemoryEntry) :
    Option (List MemoryEntry) :=
  if index ≠ i then
    l[u64OfInt i]?.bind fun entry =>
      if u64OfInt index < l.length then
        some ((l.set (u64OfInt index) entry).set (u64OfInt i) temp)
      else none
  else some l

/-- The body of the outer loop, with at most `fuel` turns of the inner one. -/
def selectEntry (fuel : ℕ) (l : List MemoryEntry) (i : ℤ) : Option (List MemoryEntry) :=
  l[u64OfInt i]?.bind fun temp =>
    (intSucc i).bind fun j =>
      (loop (scanTurn l) fuel ⟨j, i, temp⟩).join.bind fun scan => exchange l i scan.index scan.temp

/-- `size() - 1`, which is unsigned. -/
def sizeMinusOne : List MemoryEntry → ℕ
  | [] => 2^64 - 1
  | _ :: l => l.length

/-- A turn of the outer loop. -/
def sortTurn (fuel : ℕ) (s : ℤ × List MemoryEntry) :
    (ℤ × List MemoryEntry) ⊕ Option (List MemoryEntry) :=
  if u64OfInt s.1 < sizeMinusOne s.2 then
    match selectEntry fuel s.2 s.1, intSucc s.1 with
    | some l, some i => .inl (i, l)
    | _, _ => .inr none
  else .inr (some s.2)

/-- `output_memory_size_list`: the list after the sort, with at most `fuel` turns of each loop. -/
def outputMemorySizeList (memory_size_list : List MemoryEntry) (fuel : ℕ) :
    Option (List MemoryEntry) :=
  (loop (sortTurn fuel) fuel (0, memory_size_list)).join

/-- The members for the sub-memories that the callbacks have filled. -/
structure SubmemorySizes where
  submemories : OrderedMap ℕ ℕ := ∅
  submemory_size_list : List MemoryEntry := []

/-- The callback for a new sub-memory; `submemories` holds the length of each here. -/
def SubmemorySizes.alloc (s : SubmemorySizes) (op : MemoryEntry) : SubmemorySizes where
  submemories := s.submemories.emplace op.op_id op.size
  submemory_size_list := s.submemory_size_list ++ [op]

/-- `output_submemory_size_list`. -/
def SubmemorySizes.output (s : SubmemorySizes) (fuel : ℕ) : Option (List MemoryEntry) :=
  if s.submemories.toList.isEmpty then some s.submemory_size_list
  else outputMemorySizeList s.submemory_size_list fuel

/-- A sort is right for a list: with enough turns it ends, with a permutation of the list in which
the sizes do not increase. -/
def Sorts (sort : ℕ → Option (List MemoryEntry)) (l : List MemoryEntry) : Prop :=
  ∃ n, ∀ fuel, n ≤ fuel → ∃ l', sort fuel = some l' ∧ l'.Perm l ∧
    l'.Pairwise fun a b => b.size ≤ a.size

/-! ## The inner loop -/

/-- The index of a position. -/
theorem u64OfInt_natCast {n : ℕ} (h : n < 2^64) : u64OfInt (n : ℤ) = n := by
  unfold u64OfInt
  omega

/-- The index of the next position. -/
theorem intSucc_natCast {n : ℕ} (h : n + 1 < 2^31) : intSucc (n : ℤ) = some ((n + 1 : ℕ) : ℤ) := by
  unfold intSucc
  rw [if_pos (by omega)]
  rfl

/-- The inner loop has come so far: behind the entry `x` at the position `i` it has looked at some
entries, and found the first of the largest of them all. -/
structure Scanned (i : ℕ) (x : MemoryEntry) (seen : List MemoryEntry) (s : Scan) : Prop where
  j_eq : s.j = ((i + 1 + seen.length : ℕ) : ℤ)
  le_temp : ∀ y ∈ x :: seen, y.size ≤ s.temp.size
  found : s.index = i ∧ s.temp = x ∨
    ∃ before later, seen = before ++ s.temp :: later ∧
      s.index = ((i + 1 + before.length : ℕ) : ℤ)

section Scan

variable {i : ℕ} {x : MemoryEntry} {front rest seen : List MemoryEntry} {s : Scan}

/-- A turn looks at one more entry. -/
theorem Scanned.turn {y : MemoryEntry} {later : List MemoryEntry} (hfront : front.length = i)
    (hlen : (front ++ x :: (seen ++ y :: later)).length < 2^31) (h : Scanned i x seen s) :
    ∃ s', scanTurn (front ++ x :: (seen ++ y :: later)) s = .inl s' ∧
      Scanned i x (seen ++ [y]) s' := by
  have hj : i + 1 + seen.length + 1 < 2^31 := by
    simp only [List.length_append, List.length_cons] at hlen
    omega
  have hread : (front ++ x :: (seen ++ y :: later))[i + 1 + seen.length]? = some y := by
    rw [List.getElem?_append_right (by omega), show i + 1 + seen.length - front.length =
      seen.length + 1 by omega, List.getElem?_cons_succ, List.getElem?_append_right le_rfl,
      Nat.sub_self, List.getElem?_cons_zero]
  have hlt : i + 1 + seen.length < (front ++ x :: (seen ++ y :: later)).length := by
    simp only [List.length_append, List.length_cons]
    omega
  unfold scanTurn
  rw [h.j_eq, u64OfInt_natCast (by omega), if_pos hlt, hread, intSucc_natCast hj]
  refine ⟨_, rfl, ?_⟩
  have hnext : i + 1 + seen.length + 1 = i + 1 + (seen ++ [y]).length := by
    rw [List.length_append, List.length_singleton, Nat.add_assoc]
  rw [hnext]
  split_ifs with hgt
  · -- The entry is the first of its size.
    refine ⟨rfl, fun z hz => ?_, .inr ⟨seen, [], rfl, rfl⟩⟩
    rw [← List.cons_append] at hz
    rcases List.mem_append.1 hz with hz | hz
    · exact (h.le_temp z hz).trans hgt.le
    · rw [List.mem_singleton.1 hz]
  · refine ⟨rfl, fun z hz => ?_, ?_⟩
    · rw [← List.cons_append] at hz
      rcases List.mem_append.1 hz with hz | hz
      · exact h.le_temp z hz
      · rw [List.mem_singleton.1 hz]
        exact not_lt.1 hgt
    · rcases h.found with hfirst | ⟨before, after, hseen, hindex⟩
      · exact .inl hfirst
      · exact .inr ⟨before, after ++ [y], by rw [hseen]; simp, hindex⟩

/-- The loop ends when it has looked at all entries. -/
theorem Scanned.done (hfront : front.length = i) (hlen : (front ++ x :: seen).length < 2^31)
    (h : Scanned i x seen s) : scanTurn (front ++ x :: seen) s = .inr (some s) := by
  have hj : i + 1 + seen.length = (front ++ x :: seen).length := by
    simp only [List.length_append, List.length_cons]
    omega
  unfold scanTurn
  rw [h.j_eq, u64OfInt_natCast (by omega), if_neg (by omega)]

/-- The loop looks at all entries behind its position. -/
theorem Scanned.loop_eq (hfront : front.length = i) {later : List MemoryEntry}
    (hlen : (front ++ x :: (seen ++ later)).length < 2^31) (h : Scanned i x seen s) {fuel : ℕ}
    (hfuel : later.length < fuel) :
    ∃ s', loop (scanTurn (front ++ x :: (seen ++ later))) fuel s = some (some s') ∧
      Scanned i x (seen ++ later) s' := by
  induction later generalizing seen s fuel with
  | nil =>
    obtain ⟨fuel, rfl⟩ : ∃ n, fuel = n + 1 := ⟨fuel - 1, by simp at hfuel; omega⟩
    rw [List.append_nil] at hlen ⊢
    exact ⟨s, loop_of_inr (h.done hfront hlen) fuel, h⟩
  | cons y later ih =>
    obtain ⟨fuel, rfl⟩ : ∃ n, fuel = n + 1 := ⟨fuel - 1, by simp at hfuel; omega⟩
    obtain ⟨s', hturn, h'⟩ := h.turn hfront hlen
    have hsame : seen ++ y :: later = seen ++ [y] ++ later := by simp
    rw [loop_of_inl hturn]
    rw [hsame] at hlen ⊢
    exact ih hlen h' (by simp at hfuel; omega)

end Scan

/-! ## The outer loop -/

section Selection

variable {i : ℕ} {x : MemoryEntry} {front rest l l₀ : List MemoryEntry} {fuel : ℕ}

theorem sizeMinusOne_eq (hne : l ≠ []) : sizeMinusOne l = l.length - 1 := by
  cases l with
  | nil => exact absurd rfl hne
  | cons x l => rfl

/-- The inner loop starts at the next position. -/
theorem scanned_start (i : ℕ) (x : MemoryEntry) : Scanned i x [] ⟨((i + 1 : ℕ) : ℤ), i, x⟩ :=
  ⟨rfl, fun y hy => by rw [List.mem_singleton.1 hy], .inl ⟨rfl, rfl⟩⟩

/-- The exchange brings the entry that was found to the position. -/
theorem Scanned.exchange_eq {s : Scan} (hfront : front.length = i)
    (hlen : (front ++ x :: rest).length < 2^31) (h : Scanned i x rest s) :
    ∃ rest', exchange (front ++ x :: rest) i s.index s.temp = some (front ++ s.temp :: rest') ∧
      (s.temp :: rest').Perm (x :: rest) := by
  have hread : (front ++ x :: rest)[i]? = some x := by
    rw [List.getElem?_append_right hfront.le, hfront, Nat.sub_self, List.getElem?_cons_zero]
  simp only [List.length_append, List.length_cons] at hlen
  unfold exchange
  rw [u64OfInt_natCast (by omega), hread, Option.bind_some]
  rcases h.found with ⟨hindex, htemp⟩ | ⟨before, later, hrest, hindex⟩
  · rw [hindex, htemp, if_neg (not_not.2 rfl)]
    exact ⟨rest, rfl, List.Perm.refl _⟩
  · have hlt : i + 1 + before.length < (front ++ x :: rest).length := by
      rw [hrest]
      simp only [List.length_append, List.length_cons]
      omega
    have hbound : i + 1 + before.length < 2^64 := by
      simp only [List.length_append, List.length_cons] at hlt
      omega
    rw [hindex, if_pos (by omega), u64OfInt_natCast hbound, if_pos hlt]
    refine ⟨before ++ x :: later, ?_, ?_⟩
    · -- The entry of the position goes to where the other one was found.
      rw [Option.some.injEq, hrest, List.set_append_right _ _ (by omega),
        show i + 1 + before.length - front.length = before.length + 1 by omega, List.set_cons_succ,
        List.set_append_right _ _ le_rfl, Nat.sub_self, List.set_cons_zero,
        List.set_append_right _ _ hfront.le, hfront, Nat.sub_self, List.set_cons_zero]
    · rw [hrest]
      exact ((List.perm_middle.cons s.temp).trans (List.Perm.swap x s.temp _)).trans
        (List.perm_middle.symm.cons x)

/-- The body brings one of the largest entries behind its position to it. -/
theorem selectEntry_eq (hfront : front.length = i) (hlen : (front ++ x :: rest).length < 2^31)
    (hfuel : rest.length < fuel) :
    ∃ y rest', selectEntry fuel (front ++ x :: rest) i = some (front ++ y :: rest') ∧
      (y :: rest').Perm (x :: rest) ∧ ∀ z ∈ rest', z.size ≤ y.size := by
  have hbound : i + 1 + rest.length < 2^31 := by
    simp only [List.length_append, List.length_cons] at hlen
    omega
  have hread : (front ++ x :: rest)[i]? = some x := by
    rw [List.getElem?_append_right hfront.le, hfront, Nat.sub_self, List.getElem?_cons_zero]
  obtain ⟨s, hloop, h⟩ := (scanned_start i x).loop_eq hfront hlen hfuel
  obtain ⟨rest', hexchange, hperm⟩ := h.exchange_eq hfront hlen
  refine ⟨s.temp, rest', ?_, hperm, fun z hz => ?_⟩
  · unfold selectEntry
    rw [u64OfInt_natCast (by omega), hread, Option.bind_some, intSucc_natCast (by omega),
      Option.bind_some]
    rw [List.nil_append] at hloop
    rw [hloop]
    exact hexchange
  · exact h.le_temp z (hperm.subset (List.mem_cons_of_mem _ hz))

/-- The outer loop has come so far: the entries before its position are sorted, and none behind it
is larger. -/
structure SortedTo (l₀ : List MemoryEntry) (s : ℤ × List MemoryEntry)
    (front rest : List MemoryEntry) : Prop where
  list_eq : s.2 = front ++ rest
  i_eq : s.1 = (front.length : ℤ)
  perm : (front ++ rest).Perm l₀
  sorted : front.Pairwise fun a b => b.size ≤ a.size
  le : ∀ a ∈ front, ∀ b ∈ rest, b.size ≤ a.size

/-- With at most one entry left, the whole list is sorted. -/
theorem SortedTo.pairwise {s : ℤ × List MemoryEntry} (h : SortedTo l₀ s front rest)
    (hrest : rest.length ≤ 1) : (front ++ rest).Pairwise fun a b => b.size ≤ a.size := by
  refine List.pairwise_append.2 ⟨h.sorted, ?_, h.le⟩
  match rest, hrest with
  | [], _ => exact List.Pairwise.nil
  | [x], _ => exact List.pairwise_singleton _ x

/-- A turn sorts one more entry. -/
theorem SortedTo.turn {s : ℤ × List MemoryEntry} (hlen : l₀.length < 2^31)
    (hfuel : l₀.length < fuel) (h : SortedTo l₀ s front (x :: rest)) (hrest : rest ≠ []) :
    ∃ y rest', sortTurn fuel s = .inl (((front ++ [y]).length : ℤ), front ++ [y] ++ rest') ∧
      SortedTo l₀ (((front ++ [y]).length : ℤ), front ++ [y] ++ rest') (front ++ [y]) rest' ∧
      rest'.length = rest.length := by
  have htotal := h.perm.length_eq
  have hpos := List.length_pos_iff.2 hrest
  simp only [List.length_append, List.length_cons] at htotal
  obtain ⟨y, rest', hselect, hperm, hle⟩ : ∃ y rest',
      selectEntry fuel (front ++ x :: rest) front.length = some (front ++ y :: rest') ∧ _ :=
    selectEntry_eq rfl (by rw [h.perm.length_eq]; exact hlen) (by omega)
  have hsame : front ++ [y] ++ rest' = front ++ y :: rest' := by simp
  refine ⟨y, rest', ?_, ⟨rfl, rfl, ?_, ?_, ?_⟩, ?_⟩
  · unfold sortTurn
    have hcond : front.length < sizeMinusOne (front ++ x :: rest) := by
      rw [sizeMinusOne_eq (by simp)]
      simp only [List.length_append, List.length_cons]
      omega
    rw [h.i_eq, h.list_eq, u64OfInt_natCast (by omega), if_pos hcond, hselect,
      intSucc_natCast (by omega), hsame, List.length_append, List.length_singleton]
  · rw [hsame]
    exact (hperm.append_left front).trans h.perm
  · refine List.pairwise_append.2 ⟨h.sorted, List.pairwise_singleton _ y, fun a ha b hb => ?_⟩
    rw [List.mem_singleton.1 hb]
    exact h.le a ha y (hperm.subset List.mem_cons_self)
  · intro a ha b hb
    rcases List.mem_append.1 ha with ha | ha
    · exact h.le a ha b (hperm.subset (List.mem_cons_of_mem y hb))
    · rw [List.mem_singleton.1 ha]
      exact hle b hb
  · simpa using hperm.length_eq

/-- The loop ends when at most one entry is left. -/
theorem SortedTo.done {s : ℤ × List MemoryEntry} (hlen : l₀.length < 2^31)
    (h : SortedTo l₀ s front [x]) : sortTurn fuel s = .inr (some (front ++ [x])) := by
  have htotal := h.perm.length_eq
  rw [List.length_append, List.length_singleton] at htotal
  have hcond : ¬front.length < sizeMinusOne (front ++ [x]) := by
    rw [sizeMinusOne_eq (by simp), List.length_append, List.length_singleton]
    omega
  unfold sortTurn
  rw [h.i_eq, h.list_eq, u64OfInt_natCast (by omega), if_neg hcond]

/-- The loop sorts all entries. -/
theorem SortedTo.loop_eq {s : ℤ × List MemoryEntry} (hlen : l₀.length < 2^31)
    (hfuel : l₀.length < fuel) {turns : ℕ} (h : SortedTo l₀ s front (x :: rest))
    (hturns : rest.length < turns) :
    ∃ l', loop (sortTurn fuel) turns s = some (some l') ∧ l'.Perm l₀ ∧
      l'.Pairwise fun a b => b.size ≤ a.size := by
  induction turns generalizing s front x rest with
  | zero => exact absurd hturns (Nat.not_lt_zero _)
  | succ turns ih =>
    cases rest with
    | nil =>
      exact ⟨_, loop_of_inr (h.done hlen) turns, h.perm, h.pairwise le_rfl⟩
    | cons y rest =>
      obtain ⟨z, rest', hturn, h', hlength⟩ := h.turn hlen hfuel (List.cons_ne_nil y rest)
      rw [loop_of_inl hturn]
      cases rest' with
      | nil => cases hlength
      | cons z' rest' =>
        refine ih h' ?_
        rw [List.length_cons] at hturns
        rw [List.length_cons, List.length_cons] at hlength
        omega

/-- The sort of a list that is not empty, and that an `int` can count, is right. -/
theorem sorts_outputMemorySizeList (hne : l₀ ≠ []) (hlen : l₀.length < 2^31) :
    Sorts (outputMemorySizeList l₀) l₀ := by
  refine ⟨l₀.length + 1, fun fuel hfuel => ?_⟩
  obtain ⟨x, rest, rfl⟩ := List.exists_cons_of_ne_nil hne
  have hstart : SortedTo (x :: rest) (0, x :: rest) [] (x :: rest) :=
    ⟨rfl, rfl, List.Perm.refl _, List.Pairwise.nil, fun a ha => absurd ha List.not_mem_nil⟩
  rw [List.length_cons] at hfuel
  obtain ⟨l', hloop, hl'⟩ : ∃ l', loop (sortTurn fuel) fuel (0, x :: rest) = some (some l') ∧ _ :=
    hstart.loop_eq hlen (by rw [List.length_cons]; omega) (by omega)
  refine ⟨l', ?_, hl'⟩
  unfold outputMemorySizeList
  rw [hloop]
  rfl

/-- The empty list is read at its start. -/
theorem outputMemorySizeList_nil (fuel : ℕ) : outputMemorySizeList [] fuel = none := by
  cases fuel with
  | zero => rfl
  | succ fuel => rfl

/-- The inner loop overflows in a list that an `int` cannot count. -/
theorem scanLoop_overflow (hlen : 2^31 ≤ l.length) (turns : ℕ) {s : Scan} (h0 : 0 ≤ s.j)
    (hlt : s.j < 2^31) : (loop (scanTurn l) turns s).join = none := by
  induction turns generalizing s with
  | zero => rfl
  | succ turns ih =>
    have hinside : u64OfInt s.j < l.length := by
      unfold u64OfInt
      omega
    cases hturn : scanTurn l s with
    | inr b =>
      rw [loop_of_inr hturn]
      unfold scanTurn at hturn
      rw [if_pos hinside] at hturn
      split at hturn <;> cases hturn
      rfl
    | inl s' =>
      rw [loop_of_inl hturn]
      unfold scanTurn at hturn
      rw [if_pos hinside] at hturn
      split at hturn
      · -- The turn has counted the index up.
        rename_i entry j hentry hj
        unfold intSucc at hj
        split_ifs at hj with hfits
        have hnext : s'.j = s.j + 1 := by
          rw [← Sum.inl.inj hturn, ← Option.some.inj hj]
          split_ifs <;> rfl
        exact ih (by omega) (by omega)
      · cases hturn

/-- The sort overflows for such a list. -/
theorem outputMemorySizeList_overflow (hlen : 2^31 ≤ l.length) (fuel : ℕ) :
    outputMemorySizeList l fuel = none := by
  cases fuel with
  | zero => rfl
  | succ fuel =>
    have hne : l ≠ [] := by
      rintro rfl
      simp at hlen
    have hselect : selectEntry (fuel + 1) l 0 = none := by
      unfold selectEntry
      rw [Option.bind_eq_none_iff]
      intro temp _
      show (loop (scanTurn l) (fuel + 1) ⟨1, 0, temp⟩).join.bind _ = none
      rw [scanLoop_overflow hlen _ (by norm_num) (by norm_num)]
      rfl
    have hcond : u64OfInt 0 < sizeMinusOne l := by
      rw [sizeMinusOne_eq hne]
      show 0 < l.length - 1
      omega
    have hturn : sortTurn (fuel + 1) (0, l) = .inr none := by
      unfold sortTurn
      rw [if_pos hcond, hselect]
    unfold outputMemorySizeList
    rw [loop_of_inr hturn]
    rfl

/-- The sort is right exactly for a list that is not empty and that an `int` can count. -/
theorem sorts_iff (l : List MemoryEntry) :
    Sorts (outputMemorySizeList l) l ↔ l ≠ [] ∧ l.length < 2^31 := by
  constructor
  · rintro ⟨n, h⟩
    obtain ⟨l', hl', -⟩ := h n le_rfl
    constructor
    · rintro rfl
      rw [outputMemorySizeList_nil] at hl'
      cases hl'
    · by_contra hlong
      rw [outputMemorySizeList_overflow (not_lt.1 hlong)] at hl'
      cases hl'
  · rintro ⟨hne, hlen⟩
    exact sorts_outputMemorySizeList hne hlen

end Selection

/-! ## The lists of both functions -/

/-- The members for some new sub-memories. -/
def submemorySizesOf (ops : List MemoryEntry) : SubmemorySizes := ops.foldl SubmemorySizes.alloc {}

/-- The list has all sub-memories, and there is a sub-memory when the list is not empty. -/
theorem submemorySizesOf_eq (ops : List MemoryEntry) :
    (submemorySizesOf ops).submemory_size_list = ops ∧
      ((submemorySizesOf ops).submemories.toList.isEmpty ↔ ops = []) := by
  induction ops using List.reverseRecOn with
  | nil => exact ⟨rfl, by decide⟩
  | append_singleton ops op ih =>
    have hstep : submemorySizesOf (ops ++ [op]) = (submemorySizesOf ops).alloc op :=
      List.foldl_concat ..
    rw [hstep]
    refine ⟨congrArg (· ++ [op]) ih.1, iff_of_false ?_ (by simp)⟩
    -- The new sub-memory is found in the map.
    rw [List.isEmpty_iff]
    intro hnil
    have hfound := OrderedMap.find?_emplace (submemorySizesOf ops).submemories op.op_id op.op_id
      op.size
    rw [if_pos rfl, OrderedMap.find?_eq_some_iff] at hfound
    exact absurd hfound (hnil ▸ List.not_mem_nil)

/-- The sort of the sizes is right exactly for a list that is not empty and that an `int` can count;
that of the sub-memories exactly for a list that an `int` can count. -/
theorem sizeLists_sorted_iff (l : List MemoryEntry) :
    (Sorts (outputMemorySizeList l) l ↔ l ≠ [] ∧ l.length < 2^31) ∧
    (Sorts (submemorySizesOf l).output (submemorySizesOf l).submemory_size_list ↔
      l.length < 2^31) := by
  obtain ⟨hlist, hempty⟩ := submemorySizesOf_eq l
  refine ⟨sorts_iff l, ?_⟩
  unfold SubmemorySizes.output
  rw [hlist]
  by_cases hl : l = []
  · simp only [if_pos (hempty.2 hl)]
    rw [hl]
    exact iff_of_true ⟨0, fun _ _ => ⟨[], rfl, List.Perm.refl _, List.Pairwise.nil⟩⟩ (by norm_num)
  · simp only [if_neg (mt hempty.1 hl)]
    exact (sorts_iff l).trans (and_iff_right hl)

/-- The empty list is read outside. -/
theorem not_sorts_empty : ¬Sorts (outputMemorySizeList []) [] := fun h => ((sorts_iff []).1 h).1 rfl

end TenProf.MemoryLiveness
