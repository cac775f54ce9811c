import TenProf.Library.Intervals
import TenProf.Library.OrderedMap
import TenProf.Operation.Memory

/-!
# `merge_memory_range`

The three analyses that collect the bytes of a kernel's accesses (`DataFlow`, `DataDependency` and
`MemoryProfile`) have the same function `merge_memory_range`, which adds an access range to a
`Set<MemoryRange>`. The set is ordered by the starts alone, so it is a map from starts to ends. An
iterator of the source is here the list of the entries from its position on.

`covered_mergeAll` says that the set covers exactly the bytes of the ranges merged, whatever their
order. The set has touching or overlapping ranges only when a range was merged that starts below
all stored ones: `Set::prev` then finds nothing, and the function looks at no neighbour at all
(`canonical_iff`).
-/

namespace TenProf

/-- A set of memory ranges: `Set<MemoryRange>`, as a map from starts to ends. -/
abbrev RangeSet := OrderedMap ℕ ℕ

/-- The range of an access, which has at least one byte. -/
structure AccessRange extends MemoryRange where
  start_lt_stop : start < stop

/-- The loop over further right neighbours. It erases them up to the first that reaches the end of
the range, whose own end becomes the new one, or up to the first that lies behind the range. -/
def eraseCovered (memory_range : MemoryRange) :
    RangeSet → List (ℕ × ℕ) → ℕ → RangeSet × ℕ
  | memory, [], stop => (memory, stop)
  | memory, riter :: rest, stop =>
    if riter.1 ≤ memory_range.stop then
      if riter.2 < memory_range.stop then
        eraseCovered memory_range (memory.erase riter.1) rest stop
      else
        (memory.erase riter.1, riter.2)
    else
      (memory, stop)

/-- The right neighbours from `riter` on, once the left one is dealt with: what stays of the set,
and the start and end that are put into it at the end. No result means that the function returns
before. -/
def mergeRight (memory_range : MemoryRange) (memory : RangeSet) (riter : List (ℕ × ℕ))
    (start : ℕ) : Option (RangeSet × ℕ × ℕ) :=
  match riter with
  | [] => some (memory, start, memory_range.stop)
  | riter :: rest =>
    if riter.1 ≤ memory_range.stop then
      if riter.2 < memory_range.stop then
        -- Overlap and not covered: the loop goes on behind the erased neighbour.
        let (memory, stop) :=
          eraseCovered memory_range (memory.erase riter.1) rest memory_range.stop
        some (memory, start, stop)
      else if riter.1 = memory_range.start then
        none
      else
        some (memory.erase riter.1, start, riter.2)
    else
      some (memory, start, memory_range.stop)

/-- What stays of the set, and what is put into it, when a range is merged. -/
def mergeParts (memory : RangeSet) (memory_range : MemoryRange) : Option (RangeSet × ℕ × ℕ) :=
  match memory.prev memory_range.start with
  | none =>
    -- `liter` is the end of the set, and `riter` starts from there.
    mergeRight memory_range memory [] memory_range.start
  | some liter =>
    if memory_range.start ≤ liter.2 then
      if liter.2 < memory_range.stop then
        mergeRight memory_range (memory.erase liter.1) (memory.after liter.1) liter.1
      else
        none
    else
      mergeRight memory_range memory (memory.after liter.1) memory_range.start

/-- `merge_memory_range`. -/
def mergeMemoryRange (memory : RangeSet) (memory_range : MemoryRange) : RangeSet :=
  match mergeParts memory memory_range with
  | none => memory
  | some (memory, start, stop) => memory.emplace start stop

/-- The set after ranges are merged one after the other, from the empty set on. -/
def mergeAll (rs : List AccessRange) : RangeSet :=
  rs.foldl (fun memory r => mergeMemoryRange memory r.toMemoryRange) ∅

/-- The ranges as intervals. -/
def accessed (rs : List AccessRange) : List (ℕ × ℕ) := rs.map fun r => (r.start, r.stop)

/-! ## What one merge does to the right neighbours -/

/-- What a merge leaves of the entries `riter` on its right: it erases a first part of them, that
lies within the new end, and keeps the rest. The new end is the end of the range, and the rest lies
behind it, or the end of an erased entry that starts within the range. -/
structure RightMerged (memory_range : MemoryRange) (memory : RangeSet) (riter : List (ℕ × ℕ))
    (memory' : RangeSet) (stop : ℕ) (erased kept : List (ℕ × ℕ)) : Prop where
  riter_eq : riter = erased ++ kept
  mem_iff : ∀ e, e ∈ memory'.toList ↔ e ∈ memory.toList ∧ ∀ d ∈ erased, e.1 ≠ d.1
  within : ∀ d ∈ erased, d.2 ≤ stop
  le_stop : memory_range.stop ≤ stop
  stop_eq : (stop = memory_range.stop ∧ ∀ k ∈ kept, memory_range.stop < k.1) ∨
    ∃ d ∈ erased, stop = d.2 ∧ d.1 ≤ memory_range.stop

/-- The loop over the right neighbours erases a first part of them. -/
theorem rightMerged_eraseCovered (memory_range : MemoryRange) (memory : RangeSet)
    {riter : List (ℕ × ℕ)} (hsorted : riter.Pairwise fun a b => a.1 < b.1) :
    ∃ erased kept, RightMerged memory_range memory riter
      (eraseCovered memory_range memory riter memory_range.stop).1
      (eraseCovered memory_range memory riter memory_range.stop).2 erased kept := by
  induction riter generalizing memory with
  | nil => exact ⟨[], [], rfl, by simp [eraseCovered], by simp, le_rfl, .inl ⟨rfl, by simp⟩⟩
  | cons riter rest ih =>
    obtain ⟨hfirst, hrest⟩ := List.pairwise_cons.1 hsorted
    unfold eraseCovered
    split_ifs with hle hlt
    · -- The neighbour is erased, and the loop goes on.
      obtain ⟨erased, kept, h⟩ := ih (memory.erase riter.1) hrest
      refine ⟨riter :: erased, kept, by rw [h.riter_eq]; rfl, fun e => ?_, ?_, h.le_stop, ?_⟩
      · rw [h.mem_iff, OrderedMap.mem_erase, List.forall_mem_cons, and_assoc]
      · exact List.forall_mem_cons.2 ⟨hlt.le.trans h.le_stop, h.within⟩
      · refine h.stop_eq.imp_right ?_
        rintro ⟨d, hd, hstop⟩
        exact ⟨d, List.mem_cons_of_mem _ hd, hstop⟩
    · -- The neighbour reaches the end of the range: it is the last one erased.
      refine ⟨[riter], rest, rfl, fun e => ?_, by simp, not_lt.1 hlt, ?_⟩
      · rw [OrderedMap.mem_erase, List.forall_mem_singleton]
      · exact .inr ⟨riter, by simp, rfl, hle⟩
    · -- The neighbour lies behind the range, and so do the others.
      have hbehind : ∀ k ∈ riter :: rest, memory_range.stop < k.1 := by
        refine List.forall_mem_cons.2 ⟨not_le.1 hle, fun k hk => ?_⟩
        exact (not_le.1 hle).trans (hfirst k hk)
      exact ⟨[], riter :: rest, rfl, by simp, by simp, le_rfl, .inl ⟨rfl, hbehind⟩⟩

/-- The part of the function on the right neighbours has a result, and erases a first part of
them. -/
theorem rightMerged_mergeRight (memory_range : MemoryRange) (memory : RangeSet)
    {riter : List (ℕ × ℕ)} (hsorted : riter.Pairwise fun a b => a.1 < b.1)
    (hright : ∀ e ∈ riter, memory_range.start < e.1) (start : ℕ) :
    ∃ memory' stop erased kept,
      mergeRight memory_range memory riter start = some (memory', start, stop) ∧
      RightMerged memory_range memory riter memory' stop erased kept := by
  cases riter with
  | nil =>
    refine ⟨memory, memory_range.stop, [], [], rfl, rfl, by simp, by simp, le_rfl, ?_⟩
    exact .inl ⟨rfl, by simp⟩
  | cons riter rest =>
    obtain ⟨hfirst, hrest⟩ := List.pairwise_cons.1 hsorted
    have hne : riter.1 ≠ memory_range.start := (hright riter (by simp)).ne'
    -- The first turn of the loop is written out in front of it.
    have hloop : mergeRight memory_range memory (riter :: rest) start =
        some ((eraseCovered memory_range memory (riter :: rest) memory_range.stop).1, start,
          (eraseCovered memory_range memory (riter :: rest) memory_range.stop).2) := by
      simp only [mergeRight, eraseCovered, if_neg hne]
      split_ifs <;> rfl
    obtain ⟨erased, kept, h⟩ := rightMerged_eraseCovered memory_range memory hsorted
    exact ⟨_, _, erased, kept, hloop, h⟩

/-- The kept neighbours of a canonical set lie behind the new end. -/
theorem RightMerged.stop_lt {memory_range : MemoryRange} {memory memory' : RangeSet}
    {riter erased kept : List (ℕ × ℕ)} {stop : ℕ}
    (h : RightMerged memory_range memory riter memory' stop erased kept) (hsep : Separated riter)
    {e : ℕ × ℕ} (he : e ∈ kept) : stop < e.1 := by
  rcases h.stop_eq with ⟨rfl, hkept⟩ | ⟨d, hd, rfl, -⟩
  · exact hkept e he
  · rw [Separated, h.riter_eq] at hsep
    exact (List.pairwise_append.1 hsep).2.2 d hd e he

/-! ## What one merge does -/

/-- What a merge erases and inserts: the erased entries lie within the inserted range, and besides
their bytes the inserted range covers those of the range merged only. Its start is free in what
stays of the set. What stays of a canonical set does not touch it, unless the range starts below
all stored ones. -/
structure Merged (memory_range : MemoryRange) (memory memory' : RangeSet) (start stop : ℕ) :
    Prop where
  subset : ∀ e ∈ memory'.toList, e ∈ memory.toList
  within : ∀ e ∈ memory.toList, e ∈ memory'.toList ∨ start ≤ e.1 ∧ e.2 ≤ stop
  start_le : start ≤ memory_range.start
  le_stop : memory_range.stop ≤ stop
  start_eq : start = memory_range.start ∨
    ∃ d ∈ memory.toList, d.1 = start ∧ memory_range.start ≤ d.2
  stop_eq : stop = memory_range.stop ∨
    ∃ d ∈ memory.toList, d.2 = stop ∧ d.1 ≤ memory_range.stop
  free : Proper memory.toList → memory'.find? start = none
  apart : Separated memory.toList →
    (memory.prev memory_range.start = none → ∀ e ∈ memory.toList, memory_range.stop < e.1) →
    ∀ e ∈ memory'.toList, e.2 < start ∨ stop < e.1

/-- What stays of the set where the left neighbour is erased when it reaches the range. -/
theorem mem_leftMerged {memory_range : MemoryRange} {memory memory₁ : RangeSet} {liter : ℕ × ℕ}
    (hliter : liter ∈ memory.toList)
    (hcase : (memory_range.start ≤ liter.2 ∧ memory₁ = memory.erase liter.1) ∨
      (liter.2 < memory_range.start ∧ memory₁ = memory)) (e : ℕ × ℕ) :
    e ∈ memory₁.toList ↔ e ∈ memory.toList ∧ (e ≠ liter ∨ liter.2 < memory_range.start) := by
  rcases hcase with ⟨hreach, rfl⟩ | ⟨hbefore, rfl⟩
  · rw [OrderedMap.mem_erase]
    refine and_congr_right fun he => ?_
    rw [or_iff_left (not_lt.2 hreach)]
    refine ⟨fun hne h => hne (by rw [h]), fun hne hkey => ?_⟩
    exact hne (OrderedMap.eq_of_key he hliter hkey)
  · exact ⟨fun he => ⟨he, .inr hbefore⟩, fun he => he.1⟩

/-- A merge with a left neighbour, which is erased when it reaches the range. -/
theorem merged_mergeRight {memory_range : MemoryRange} {memory memory₁ : RangeSet} {liter : ℕ × ℕ}
    {start : ℕ} (hprev : memory.prev memory_range.start = some liter)
    (hcase : (memory_range.start ≤ liter.2 ∧ liter.2 < memory_range.stop ∧ start = liter.1 ∧
        memory₁ = memory.erase liter.1) ∨
      (liter.2 < memory_range.start ∧ start = memory_range.start ∧ memory₁ = memory)) :
    ∃ memory' stop, mergeRight memory_range memory₁ (memory.after liter.1) start =
      some (memory', start, stop) ∧ Merged memory_range memory memory' start stop := by
  obtain ⟨⟨hliter, hle⟩, hlast⟩ := (memory.prev_eq_some_iff _ _).1 hprev
  have hright : ∀ e ∈ memory.after liter.1, memory_range.start < e.1 :=
    fun e he => OrderedMap.lt_of_mem_after_prev hprev he
  obtain ⟨memory', stop, erased, kept, hresult, h⟩ :=
    rightMerged_mergeRight memory_range memory₁ (memory.after_sorted liter.1) hright
      start
  have herased : ∀ d ∈ erased, d ∈ memory.toList ∧ memory_range.start < d.1 := by
    intro d hd
    have hafter : d ∈ memory.after liter.1 := by
      rw [h.riter_eq]
      exact List.mem_append_left _ hd
    exact ⟨((memory.mem_after _ _).1 hafter).1, hright d hafter⟩
  -- The left neighbour stays exactly when it ends before the range.
  have hmem := mem_leftMerged hliter
    (hcase.imp (fun hc => ⟨hc.1, hc.2.2.2⟩) fun hc => ⟨hc.1, hc.2.2⟩)
  have hsubset : ∀ e ∈ memory'.toList, e ∈ memory.toList := fun e he =>
    ((hmem e).1 ((h.mem_iff e).1 he).1).1
  refine ⟨memory', stop, hresult, hsubset, fun e he => ?_, ?_, h.le_stop, ?_, ?_, fun hproper => ?_,
    fun hsep _ e he => ?_⟩
  · -- An entry that goes is the left neighbour or one of those erased on the right.
    by_cases hright' : ∃ d ∈ erased, e.1 = d.1
    · obtain ⟨d, hd, hkey⟩ := hright'
      obtain ⟨hdmem, hlt⟩ := herased d hd
      obtain rfl := OrderedMap.eq_of_key he hdmem hkey
      exact .inr ⟨by rcases hcase with hc | hc <;> omega, h.within e hd⟩
    · by_cases hleft : e ≠ liter ∨ liter.2 < memory_range.start
      · exact .inl ((h.mem_iff e).2 ⟨(hmem e).2 ⟨he, hleft⟩, fun d hd h => hright' ⟨d, hd, h⟩⟩)
      · obtain ⟨rfl, hreach⟩ : e = liter ∧ memory_range.start ≤ liter.2 := by simpa using hleft
        have := h.le_stop
        exact .inr (by rcases hcase with hc | hc <;> omega)
  · rcases hcase with hc | hc <;> omega
  · rcases hcase with ⟨hreach, -, rfl, -⟩ | ⟨-, rfl, -⟩
    · exact .inr ⟨liter, hliter, rfl, hreach⟩
    · exact .inl rfl
  · rcases h.stop_eq with ⟨hstop, -⟩ | ⟨d, hd, hstop, hdle⟩
    · exact .inl hstop
    · exact .inr ⟨d, (herased d hd).1, hstop.symm, hdle⟩
  · -- Only the left neighbour could have the new start.
    rw [OrderedMap.find?_eq_none_iff]
    rintro e he rfl
    have he₁ := (hmem e).1 ((h.mem_iff e).1 he).1
    have hpos := hproper liter hliter
    rcases hlast e he₁.1 (by rcases hcase with hc | hc <;> omega) with rfl | hlt
    · rcases hcase with hc | hc <;> rcases he₁.2 with hne | hbefore <;>
        first | omega | exact hne rfl
    · rcases hcase with hc | hc <;> omega
  · have he₁ := (h.mem_iff e).1 he
    have he₂ := (hmem e).1 he₁.1
    rcases lt_trichotomy e.1 liter.1 with hlt | heq | hgt
    · -- An entry before the left neighbour ends before it.
      have := OrderedMap.rel_of_lt hsep he₂.1 hliter hlt
      exact .inl (by rcases hcase with hc | hc <;> omega)
    · -- The left neighbour stays only when it ends before the range.
      obtain rfl := OrderedMap.eq_of_key he₂.1 hliter heq
      have hbefore := he₂.2.resolve_left (by simp)
      exact .inl (by rcases hcase with hc | hc <;> omega)
    · -- An entry behind the left neighbour that stays is one of those kept.
      have hmem_after : e ∈ memory.after liter.1 := (memory.mem_after _ _).2 ⟨he₂.1, hgt⟩
      rw [h.riter_eq, List.mem_append] at hmem_after
      have hkept := hmem_after.resolve_left fun hd => he₁.2 e hd rfl
      exact .inr (h.stop_lt (hsep.filter _) hkept)

/-- What a merge does: it returns early when a stored range covers the one merged, and it erases
and inserts otherwise. -/
theorem mergeParts_cases (memory : RangeSet) (memory_range : MemoryRange) :
    (mergeParts memory memory_range = none ∧
      ∃ e ∈ memory.toList, e.1 ≤ memory_range.start ∧ memory_range.stop ≤ e.2) ∨
    ∃ memory' start stop, mergeParts memory memory_range = some (memory', start, stop) ∧
      Merged memory_range memory memory' start stop := by
  unfold mergeParts
  cases hprev : memory.prev memory_range.start with
  | none =>
    -- Without a left neighbour the set stays as it is.
    have hbehind := (memory.prev_eq_none_iff _).1 hprev
    refine .inr ⟨memory, _, _, rfl, fun e he => he, fun e he => .inl he, le_rfl, le_rfl, .inl rfl,
      .inl rfl, fun _ => ?_, fun _ hlow e he => .inr (hlow hprev e he)⟩
    exact (memory.find?_eq_none_iff _).2 fun e he => (hbehind e he).ne'
  | some liter =>
    obtain ⟨⟨hliter, hle⟩, -⟩ := (memory.prev_eq_some_iff _ _).1 hprev
    simp only
    split_ifs with hreach hlt
    · obtain ⟨memory', stop, hresult, h⟩ := merged_mergeRight hprev (.inl ⟨hreach, hlt, rfl, rfl⟩)
      exact .inr ⟨memory', _, stop, hresult, h⟩
    · exact .inl ⟨rfl, liter, hliter, hle, not_lt.1 hlt⟩
    · obtain ⟨memory', stop, hresult, h⟩ :=
        merged_mergeRight hprev (.inr ⟨not_le.1 hreach, rfl, rfl⟩)
      exact .inr ⟨memory', _, stop, hresult, h⟩

/-- The entries after a merge that inserts a range. -/
theorem Merged.mem_iff {memory_range : MemoryRange} {memory memory' : RangeSet} {start stop : ℕ}
    (h : Merged memory_range memory memory' start stop) (hproper : Proper memory.toList)
    (e : ℕ × ℕ) :
    e ∈ (memory'.emplace start stop).toList ↔ e ∈ (start, stop) :: memory'.toList := by
  have hfree := h.free hproper
  rw [OrderedMap.emplace_of_none hfree, OrderedMap.mem_set, List.mem_cons]
  refine or_congr_right ⟨fun he => he.1, fun he => ⟨he, ?_⟩⟩
  exact (OrderedMap.find?_eq_none_iff _ _).1 hfree e he

variable {memory : RangeSet}

/-- A merge covers the bytes that were covered and those of the range merged. -/
theorem covered_mergeMemoryRange (hproper : Proper memory.toList) (memory_range : MemoryRange)
    (x : ℕ) :
    Covered (mergeMemoryRange memory memory_range).toList x ↔
      Covered memory.toList x ∨ memory_range.start ≤ x ∧ x < memory_range.stop := by
  unfold mergeMemoryRange
  rcases mergeParts_cases memory memory_range with
    ⟨hresult, e, he, hle, hge⟩ | ⟨memory', start, stop, hresult, h⟩
  · -- The stored range that covers the one merged has its bytes.
    rw [hresult]
    exact ⟨.inl, fun hx => hx.elim id fun hx => ⟨e, he, by omega⟩⟩
  · rw [hresult]
    simp only [covered_congr (h.mem_iff hproper), covered_cons]
    have hstart := h.start_le
    have hstop := h.le_stop
    constructor
    · rintro (⟨hge, hlt⟩ | ⟨e, he, hx⟩)
      · -- A byte of the inserted range is one of the range merged or of a neighbour.
        rcases lt_or_ge x memory_range.start with hbefore | hx
        · rcases h.start_eq with hs | ⟨d, hd, hs, hsd⟩
          · omega
          · exact .inl ⟨d, hd, by omega⟩
        · rcases lt_or_ge x memory_range.stop with hx' | hbehind
          · exact .inr ⟨hx, hx'⟩
          · rcases h.stop_eq with ht | ⟨d, hd, ht, htd⟩
            · omega
            · exact .inl ⟨d, hd, by omega⟩
      · exact .inl ⟨e, h.subset e he, hx⟩
    · rintro (⟨e, he, hx⟩ | hx)
      · -- A stored range stays or lies within the inserted one.
        rcases h.within e he with hkept | hwithin
        · exact .inr ⟨e, hkept, hx⟩
        · exact .inl (by omega)
      · exact .inl (by omega)

/-- A merge of a range with bytes keeps the stored ranges from being empty. -/
theorem proper_mergeMemoryRange (hproper : Proper memory.toList) (r : AccessRange) :
    Proper (mergeMemoryRange memory r.toMemoryRange).toList := by
  unfold mergeMemoryRange
  rcases mergeParts_cases memory r.toMemoryRange with
    ⟨hresult, -⟩ | ⟨memory', start, stop, hresult, h⟩
  · rw [hresult]
    exact hproper
  · rw [hresult]
    intro e he
    have hstart := h.start_le
    have hstop := h.le_stop
    have hpos := r.start_lt_stop
    rcases List.mem_cons.1 ((h.mem_iff hproper e).1 he) with rfl | he
    · simp only
      omega
    · exact hproper e (h.subset e he)

theorem mergeAll_append (rs : List AccessRange) (r : AccessRange) :
    mergeAll (rs ++ [r]) = mergeMemoryRange (mergeAll rs) r.toMemoryRange := by
  simp [mergeAll]

/-- No stored range is empty. -/
theorem proper_mergeAll (rs : List AccessRange) : Proper (mergeAll rs).toList := by
  induction rs using List.reverseRecOn with
  | nil => simp [mergeAll, Proper]
  | append_singleton rs r ih =>
    rw [mergeAll_append]
    exact proper_mergeMemoryRange ih r

/-- The merged ranges cover exactly the bytes accessed. -/
theorem covered_mergeAll (rs : List AccessRange) (x : ℕ) :
    Covered (mergeAll rs).toList x ↔ Covered (accessed rs) x := by
  induction rs using List.reverseRecOn with
  | nil => simp [mergeAll, accessed]
  | append_singleton rs r ih =>
    rw [mergeAll_append, covered_mergeMemoryRange (proper_mergeAll rs), ih]
    simp [accessed]

/-- The insertion at the end of a merge meets no range with the same start. -/
theorem emplace_free (rs : List AccessRange) {memory_range : MemoryRange} {memory' : RangeSet}
    {start stop : ℕ}
    (hresult : mergeParts (mergeAll rs) memory_range = some (memory', start, stop)) :
    memory'.find? start = none := by
  rcases mergeParts_cases (mergeAll rs) memory_range with
    ⟨hnone, -⟩ | ⟨memory'', start', stop', hsome, h⟩
  · rw [hnone] at hresult
    exact absurd hresult (by simp)
  · rw [hsome, Option.some.injEq, Prod.mk.injEq, Prod.mk.injEq] at hresult
    obtain ⟨rfl, rfl, -⟩ := hresult
    exact h.free (proper_mergeAll rs)

/-- Merging loses no byte accessed and invents none: the merged ranges cover exactly the union of
the ranges, and the insertion of a further range never fails on a start that is there. -/
theorem mergeAll_exact (rs : List AccessRange) :
    (∀ x, Covered (mergeAll rs).toList x ↔ ∃ r ∈ rs, r.start ≤ x ∧ x < r.stop) ∧
    ∀ (r : AccessRange) (memory' : RangeSet) (start stop : ℕ),
      mergeParts (mergeAll rs) r.toMemoryRange = some (memory', start, stop) →
      memory'.find? start = none := by
  refine ⟨fun x => ?_, fun r memory' start stop => emplace_free rs⟩
  rw [covered_mergeAll]
  simp [Covered, accessed]

/-! ## Canonical sets -/

/-- A set of ranges is canonical when they neither overlap nor touch. -/
def Canonical (memory : RangeSet) : Prop := Separated memory.toList

instance (memory : RangeSet) : Decidable (Canonical memory) :=
  inferInstanceAs (Decidable (Separated memory.toList))

/-- A range that starts below all ranges before it ends before the first of them, without touching
it. -/
def SparesLowest (rs : List AccessRange) (r : AccessRange) : Prop :=
  (∀ p ∈ rs, r.start < p.start) → ∀ p ∈ rs, r.stop < p.start

/-- In a canonical set, each range ends before a range with a larger start. -/
theorem canonical_iff_forall :
    Canonical memory ↔ ∀ a ∈ memory.toList, ∀ b ∈ memory.toList, a.1 < b.1 → a.2 < b.1 :=
  ⟨fun h _ ha _ hb hlt => OrderedMap.rel_of_lt h ha hb hlt,
    fun h => memory.sorted.imp_of_mem fun ha hb hlt => h _ ha _ hb hlt⟩

/-- A merge keeps a canonical set canonical exactly when the range, in case it starts below all
stored ones, ends before them. -/
theorem canonical_mergeMemoryRange (hproper : Proper memory.toList) (hsep : Canonical memory)
    (r : AccessRange) :
    Canonical (mergeMemoryRange memory r.toMemoryRange) ↔
      ((∀ e ∈ memory.toList, r.start < e.1) → ∀ e ∈ memory.toList, r.stop < e.1) := by
  rw [← memory.prev_eq_none_iff]
  unfold mergeMemoryRange
  constructor
  · -- Without a left neighbour the range is inserted as it is, before the stored ones.
    intro h hprev e he
    have hlow := (memory.prev_eq_none_iff _).1 hprev
    have hfree := (memory.find?_eq_none_iff _).2 fun e he => (hlow e he).ne'
    have hparts : mergeParts memory r.toMemoryRange =
        some (memory, r.start, r.stop) := by
      unfold mergeParts
      rw [hprev]
      rfl
    rw [hparts] at h
    simp only [OrderedMap.emplace_of_none hfree] at h
    refine canonical_iff_forall.1 h _ ((memory.mem_set _ _ _).2 (.inl rfl)) e ?_ (hlow e he)
    exact (memory.mem_set _ _ _).2 (.inr ⟨he, (hlow e he).ne'⟩)
  · intro hlow
    rcases mergeParts_cases memory r.toMemoryRange with
      ⟨hresult, -⟩ | ⟨memory', start, stop, hresult, h⟩
    · rw [hresult]
      exact hsep
    · rw [hresult]
      have hapart := h.apart hsep hlow
      have hstart := h.start_le
      have hstop := h.le_stop
      have hpos := r.start_lt_stop
      refine canonical_iff_forall.2 fun a ha b hb hlt => ?_
      rcases List.mem_cons.1 ((h.mem_iff hproper a).1 ha) with rfl | ha <;>
        rcases List.mem_cons.1 ((h.mem_iff hproper b).1 hb) with rfl | hb
      · exact absurd hlt (lt_irrefl _)
      · -- The inserted range before a stored one.
        have := hproper b (h.subset b hb)
        exact (hapart b hb).resolve_left (by simp only at hlt; omega)
      · -- A stored range before the inserted one.
        exact (hapart a ha).resolve_right (by simp only at hlt; omega)
      · exact canonical_iff_forall.1 hsep a (h.subset a ha) b (h.subset b hb) hlt

/-- A canonical set has as many bytes as its ranges are long. -/
theorem canonical_length (rs : List AccessRange) (h : Canonical (mergeAll rs)) :
    totalLength (mergeAll rs).toList = (points (accessed rs)).card := by
  rw [← Separated.card_points h]
  exact congrArg _ ((points_eq_iff _ _).2 (covered_mergeAll rs))

/-- A further merge keeps the set canonical exactly when the range spares those before it. -/
theorem canonical_mergeAll_append {rs : List AccessRange} (h : Canonical (mergeAll rs))
    (r : AccessRange) : Canonical (mergeAll (rs ++ [r])) ↔ SparesLowest rs r := by
  have hproper := proper_mergeAll rs
  have haccessed : Proper (accessed rs) := by
    rintro e he
    obtain ⟨p, -, rfl⟩ := List.mem_map.1 he
    exact p.start_lt_stop
  -- The stored ranges and those merged have the same points, so the same lower bounds.
  have hbound : ∀ y, (∀ e ∈ (mergeAll rs).toList, y < e.1) ↔ ∀ p ∈ rs, y < p.start := by
    intro y
    rw [hproper.forall_lt_start_iff]
    simp only [covered_mergeAll]
    rw [← haccessed.forall_lt_start_iff]
    simp [accessed]
  rw [mergeAll_append, canonical_mergeMemoryRange hproper h, hbound, hbound]
  rfl

/-- After every merge of a sequence the set is canonical, and its ranges are as long as there are
bytes accessed, exactly when no range of the sequence that starts below all those before it
overlaps or touches one of them. -/
theorem canonical_iff (rs : List AccessRange) :
    (∀ ps, ps <+: rs → Canonical (mergeAll ps) ∧
      totalLength (mergeAll ps).toList = (points (accessed ps)).card) ↔
    ∀ ps r, ps ++ [r] <+: rs → SparesLowest ps r := by
  induction rs using List.reverseRecOn with
  | nil =>
    refine iff_of_true (fun ps hps => ?_) fun ps r hps => ?_
    · rw [List.prefix_nil.1 hps]
      exact ⟨List.Pairwise.nil, rfl⟩
    · exact absurd (List.prefix_nil.1 hps) (by simp)
  | append_singleton rs r ih =>
    -- The last merge is judged from the canonical set before it.
    constructor
    · intro h ps r' hps
      rcases List.prefix_concat_iff.1 hps with heq | hps
      · obtain ⟨rfl, hr⟩ := List.append_inj' heq rfl
        rw [List.singleton_inj.1 hr]
        have hbefore := (h ps (List.prefix_append _ _)).1
        exact (canonical_mergeAll_append hbefore r).1 (h _ List.prefix_rfl).1
      · exact ih.1 (fun ps hps => h ps (hps.trans (List.prefix_append _ _))) ps r' hps
    · intro h ps hps
      have hbefore := ih.2 fun ps r' hps => h ps r' (hps.trans (List.prefix_append _ _))
      rcases List.prefix_concat_iff.1 hps with rfl | hps
      · have hcanonical := (canonical_mergeAll_append (hbefore rs List.prefix_rfl).1 r).2
          (h rs r List.prefix_rfl)
        exact ⟨hcanonical, canonical_length _ hcanonical⟩
      · exact hbefore ps hps

/-- A range that starts below the stored one and overlaps it is stored beside it. -/
theorem not_canonical_overlapping : ¬∀ rs : List AccessRange, Canonical (mergeAll rs) ∧
    totalLength (mergeAll rs).toList = (points (accessed rs)).card := by
  intro h
  have hmerged := (h [⟨⟨10, 20⟩, by decide⟩, ⟨⟨5, 15⟩, by decide⟩]).1
  exact absurd hmerged (by decide)

end TenProf
