import Mathlib.Algebra.Order.BigOperators.Group.List
import TenProf.DataFlow.Kernel

/-!
# The shadow copy of a written object

The buffer `value` of a memory object is to hold the bytes that the object has on the device. After
the kernel callback the written bytes of the buffer are those of the cache
(`shadow_compareWithCache`), and a byte of the cache is the written byte of the device when the
ranges are copied one by one. The other policy copies from the start of the object, although the
first written byte may lie behind it, so that the bytes in the cache are those of other addresses
(`cache_copyToCache`). `updateHost_correct_iff` says exactly when the buffer and the count of the
redundant bytes are right all the same; the count is an `int`.
-/

namespace TenProf.DataFlow

/-- An allocated memory object. Its two buffers on the host do not overlap, and `new` returns no
buffer of `2^63` bytes or more. -/
structure AllocatedMemory extends Memory where
  start_le : memory_range.start ≤ memory_range.stop
  len_eq : len = memory_range.stop - memory_range.start
  len_lt : len < 2^63
  buffers : value + len ≤ value_cache ∨ value_cache + len ≤ value

/-- The written ranges of an object: not empty, disjoint, and inside the object. -/
structure WrittenRanges (memory : Memory) where
  ranges : RangeSet
  nonempty : ranges.toList ≠ []
  proper : Proper ranges.toList
  disjoint : ranges.toList.Pairwise fun a b => a.2 ≤ b.1
  inside : ∀ e ∈ ranges.toList, memory.memory_range.start ≤ e.1 ∧ e.2 ≤ memory.memory_range.stop

/-- The byte of a buffer for a byte of the device. -/
def bufferByte (host_mem : ByteMem) (buffer : ℕ) (memory : Memory) (a : ℕ) : UInt8 :=
  host_mem (buffer + a - memory.memory_range.start)

/-- The first byte written. -/
def startMin (ranges : RangeSet) : ℕ := (ranges.toList.head?.map Prod.fst).getD 0

/-- The buffer `value` has the bytes of the device in the written ranges and is unchanged
elsewhere. -/
def UpdatesShadow (device_mem host_mem host_mem' : ByteMem) (memory : Memory) (ranges : RangeSet) :
    Prop :=
  ∀ a, memory.memory_range.start ≤ a → a < memory.memory_range.stop →
    bufferByte host_mem' memory.value memory a =
      if Covered ranges.toList a then device_mem a else bufferByte host_mem memory.value memory a

/-- The number of written bytes whose new value is the one that the buffer `value` has. -/
def redundantBytes (new_value : ℕ → UInt8) (host_mem : ByteMem) (memory : Memory)
    (ranges : RangeSet) : ℕ :=
  ((points ranges.toList).filter fun a =>
    bufferByte host_mem memory.value memory a = new_value a).card

/-- A byte of the object that is copied to the cache from a given place of the device. -/
def cachedFrom (env : Env) (memory : Memory) (ranges : RangeSet) (a : ℕ) : ℕ :=
  match copyType env memory ranges with
  | .MIN_MAX_FRAGMENT => memory.memory_range.start + (a - startMin ranges)
  | .NON_CONTINOUS_FRAGMENT => a

section Buffers

variable {host_mem from_mem : ByteMem} {memory : AllocatedMemory} {buffer buffer' s t src a : ℕ}

/-- A block written to a buffer, at the place of the object's bytes from `s` up to `t`. -/
theorem bufferByte_copyBytes (hs : memory.memory_range.start ≤ s)
    (ha : memory.memory_range.start ≤ a) :
    bufferByte (copyBytes host_mem from_mem (buffer + s - memory.memory_range.start) src (t - s))
      buffer memory.toMemory a =
    if s ≤ a ∧ a < t then from_mem (src + (a - s)) else
      bufferByte host_mem buffer memory.toMemory a := by
  unfold bufferByte
  split_ifs with h
  · have haddr : buffer + a - memory.memory_range.start =
        buffer + s - memory.memory_range.start + (a - s) := by omega
    rw [haddr, copyBytes_add (by omega)]
  · exact copyBytes_of_outside (by omega)

/-- A block written to a buffer leaves a buffer apart from it as it is. -/
theorem bufferByte_copyBytes_apart
    (hapart : buffer + memory.len ≤ buffer' ∨ buffer' + memory.len ≤ buffer)
    (hs : memory.memory_range.start ≤ s) (ht : t ≤ memory.memory_range.stop)
    (ha : memory.memory_range.start ≤ a) (ha' : a < memory.memory_range.stop) :
    bufferByte (copyBytes host_mem from_mem (buffer + s - memory.memory_range.start) src (t - s))
      buffer' memory.toMemory a = bufferByte host_mem buffer' memory.toMemory a := by
  have hlen := memory.len_eq
  unfold bufferByte
  rcases lt_or_ge s t with hlt | hge
  · exact copyBytes_of_outside (by omega)
  · rw [Nat.sub_eq_zero_of_le hge, copyBytes_zero]

end Buffers

section Cache

variable {device_mem host_mem : ByteMem} {memory : AllocatedMemory}

/-- The copy of ranges one by one puts each of their bytes in its place of the cache. -/
theorem cache_copyFragments {l : List (ℕ × ℕ)}
    (hinside : ∀ e ∈ l, memory.memory_range.start ≤ e.1 ∧ e.2 ≤ memory.memory_range.stop) {a : ℕ}
    (ha : memory.memory_range.start ≤ a) :
    bufferByte (l.foldl (fun host_mem range_iter =>
      dtoh host_mem device_mem (memory.value_cache + range_iter.1 - memory.memory_range.start)
        range_iter.1 (range_iter.2 - range_iter.1)) host_mem) memory.value_cache memory.toMemory a =
    if Covered l a then device_mem a else
      bufferByte host_mem memory.value_cache memory.toMemory a := by
  induction l generalizing host_mem with
  | nil => simp
  | cons e l ih =>
    obtain ⟨he, hl⟩ := List.forall_mem_cons.1 hinside
    simp only [List.foldl_cons, ih hl, covered_cons]
    unfold dtoh
    rw [bufferByte_copyBytes he.1 ha]
    by_cases hcovered : Covered l a
    · simp [hcovered]
    · simp only [hcovered, or_false, if_false]
      split_ifs with h
      · rw [Nat.add_sub_cancel' h.1]
      · rfl

/-- The copy of ranges to the cache leaves the buffer `value` as it is. -/
theorem value_copyFragments {l : List (ℕ × ℕ)}
    (hinside : ∀ e ∈ l, memory.memory_range.start ≤ e.1 ∧ e.2 ≤ memory.memory_range.stop) {a : ℕ}
    (ha : memory.memory_range.start ≤ a) (ha' : a < memory.memory_range.stop) :
    bufferByte (l.foldl (fun host_mem range_iter =>
      dtoh host_mem device_mem (memory.value_cache + range_iter.1 - memory.memory_range.start)
        range_iter.1 (range_iter.2 - range_iter.1)) host_mem) memory.value memory.toMemory a =
    bufferByte host_mem memory.value memory.toMemory a := by
  induction l generalizing host_mem with
  | nil => rfl
  | cons e l ih =>
    obtain ⟨he, hl⟩ := List.forall_mem_cons.1 hinside
    rw [List.foldl_cons, ih hl]
    exact bufferByte_copyBytes_apart memory.buffers.symm he.1 he.2 ha ha'

/-- The ranges written lie between the first and the last byte written. -/
theorem WrittenRanges.exists_ends (written : WrittenRanges memory.toMemory) :
    ∃ first last, written.ranges.toList.head? = some first ∧
      written.ranges.toList.getLast? = some last ∧ startMin written.ranges = first.1 ∧
      memory.memory_range.start ≤ first.1 ∧ last.2 ≤ memory.memory_range.stop ∧
      ∀ a, Covered written.ranges.toList a → first.1 ≤ a ∧ a < last.2 := by
  have hfirst := List.head?_eq_some_head written.nonempty
  have hlast := List.getLast?_eq_some_getLast written.nonempty
  generalize written.ranges.toList.head written.nonempty = first at hfirst
  generalize written.ranges.toList.getLast written.nonempty = last at hlast
  have hfirst_mem := List.mem_of_head? hfirst
  have hlast_mem := List.mem_of_getLast? hlast
  refine ⟨first, last, hfirst, hlast, ?_, (written.inside _ hfirst_mem).1,
    (written.inside _ hlast_mem).2, ?_⟩
  · unfold startMin
    rw [hfirst]
    rfl
  · rintro a ⟨e, he, hge, hlt⟩
    constructor
    · -- The first range has the lowest start.
      obtain ⟨l, hl⟩ := List.head?_eq_some_iff.1 hfirst
      have hsorted := written.ranges.sorted
      rw [hl] at he hsorted
      rcases List.mem_cons.1 he with rfl | he
      · exact hge
      · exact ((List.pairwise_cons.1 hsorted).1 e he).le.trans hge
    · -- The ranges before the last one end before it.
      obtain ⟨l, hl⟩ := List.getLast?_eq_some_iff.1 hlast
      have hdisjoint := written.disjoint
      have hpos := written.proper last hlast_mem
      rw [hl] at he hdisjoint
      rcases List.mem_append.1 he with he | he
      · have := (List.pairwise_append.1 hdisjoint).2.2 e he last (by simp)
        omega
      · rwa [List.mem_singleton.1 he] at hlt

variable {env : Env} (written : WrittenRanges memory.toMemory) {first last : ℕ × ℕ}

/-- A written byte in the cache is the byte of the device that the policy copies there. -/
theorem cache_copyToCache (hstart : startMin written.ranges = first.1)
    (hfirst : memory.memory_range.start ≤ first.1)
    (hends : ∀ a, Covered written.ranges.toList a → first.1 ≤ a ∧ a < last.2) {a : ℕ}
    (ha : Covered written.ranges.toList a) :
    bufferByte (copyToCache env device_mem host_mem memory.toMemory written.ranges first.1 last.2)
      memory.value_cache memory.toMemory a =
    device_mem (cachedFrom env memory.toMemory written.ranges a) := by
  have hbetween := hends a ha
  unfold copyToCache cachedFrom
  cases copyType env memory.toMemory written.ranges with
  | MIN_MAX_FRAGMENT =>
    simp only
    unfold dtoh
    rw [bufferByte_copyBytes hfirst (by omega), if_pos hbetween, hstart]
  | NON_CONTINOUS_FRAGMENT =>
    simp only
    rw [cache_copyFragments written.inside (by omega), if_pos ha]

/-- The copy to the cache leaves the buffer `value` as it is. -/
theorem value_copyToCache (hfirst : memory.memory_range.start ≤ first.1)
    (hlast : last.2 ≤ memory.memory_range.stop) {a : ℕ} (ha : memory.memory_range.start ≤ a)
    (ha' : a < memory.memory_range.stop) :
    bufferByte (copyToCache env device_mem host_mem memory.toMemory written.ranges first.1 last.2)
      memory.value memory.toMemory a = bufferByte host_mem memory.value memory.toMemory a := by
  unfold copyToCache
  cases copyType env memory.toMemory written.ranges with
  | MIN_MAX_FRAGMENT => exact bufferByte_copyBytes_apart memory.buffers.symm hfirst hlast ha ha'
  | NON_CONTINOUS_FRAGMENT => exact value_copyFragments written.inside ha ha'

end Cache

section Compare

variable {memory : AllocatedMemory}

/-- The number of bytes of a range that are the same in both buffers. -/
def sameInRange (host_mem : ByteMem) (memory : Memory) (e : ℕ × ℕ) : ℕ :=
  ((Finset.Ico e.1 e.2).filter fun a => bufferByte host_mem memory.value memory a =
    bufferByte host_mem memory.value_cache memory a).card

/-- The bytes compared for a range are those of the range in the two buffers. -/
theorem sameBytes_eq_sameInRange (host_mem : ByteMem) {e : ℕ × ℕ}
    (he : memory.memory_range.start ≤ e.1) :
    sameBytes host_mem (memory.value + e.1 - memory.memory_range.start)
      (memory.value_cache + e.1 - memory.memory_range.start) (e.2 - e.1) =
    sameInRange host_mem memory.toMemory e := by
  unfold sameBytes sameInRange
  have haddr : ∀ buffer i : ℕ, buffer + e.1 - memory.memory_range.start + i =
      buffer + (e.1 + i) - memory.memory_range.start := fun buffer i => by omega
  refine Finset.card_bij' (fun i _ => e.1 + i) (fun a _ => a - e.1) (fun i hi => ?_)
    (fun a ha => ?_) (fun i _ => Nat.add_sub_cancel_left e.1 i) fun a ha => ?_
  · obtain ⟨hlt, hsame⟩ := Finset.mem_filter.1 hi
    rw [haddr, haddr] at hsame
    have := Finset.mem_range.1 hlt
    exact Finset.mem_filter.2 ⟨Finset.mem_Ico.2 ⟨by omega, by omega⟩, hsame⟩
  · obtain ⟨hbetween, hsame⟩ := Finset.mem_filter.1 ha
    obtain ⟨hge, hlt⟩ := Finset.mem_Ico.1 hbetween
    refine Finset.mem_filter.2 ⟨Finset.mem_range.2 (by omega), ?_⟩
    rw [haddr, haddr, Nat.add_sub_cancel' hge]
    exact hsame
  · exact Nat.add_sub_cancel' (Finset.mem_Ico.1 (Finset.mem_filter.1 ha).1).1

/-- Memories with the same bytes of the object in both buffers have as many same bytes. -/
theorem sameInRange_congr {host_mem host_mem' : ByteMem} {e : ℕ × ℕ}
    (hvalue : ∀ a, e.1 ≤ a → a < e.2 → bufferByte host_mem' memory.value memory.toMemory a =
      bufferByte host_mem memory.value memory.toMemory a)
    (hcache : ∀ a, e.1 ≤ a → a < e.2 → bufferByte host_mem' memory.value_cache memory.toMemory a =
      bufferByte host_mem memory.value_cache memory.toMemory a) :
    sameInRange host_mem' memory.toMemory e = sameInRange host_mem memory.toMemory e := by
  unfold sameInRange
  congr 1
  refine Finset.filter_congr fun a ha => ?_
  obtain ⟨hge, hlt⟩ := Finset.mem_Ico.1 ha
  rw [hvalue a hge hlt, hcache a hge hlt]

/-- The turn of the comparison for one range copies its bytes and adds its count. -/
theorem compareRange_eq (host_mem : ByteMem) (same : ℤ) {e : ℕ × ℕ}
    (he : memory.memory_range.start ≤ e.1 ∧ e.2 ≤ memory.memory_range.stop) (hpos : e.1 < e.2) :
    compareRange memory.toMemory (host_mem, same) e =
    (copyBytes host_mem host_mem (memory.value + e.1 - memory.memory_range.start)
      (memory.value_cache + e.1 - memory.memory_range.start) (e.2 - e.1),
      i32 (same + (min (2^53) (sameInRange host_mem memory.toMemory e) : ℕ))) := by
  have hlen := memory.len_eq
  have hbuffers := memory.buffers
  unfold compareRange
  simp only
  rw [computeMemcpyRedundancy_eq (by omega), sameBytes_eq_sameInRange host_mem he.1]

/-- The comparison copies the bytes of the ranges from the cache to the buffer `value`. -/
theorem shadow_compareRanges {l : List (ℕ × ℕ)} (hproper : Proper l)
    (hinside : ∀ e ∈ l, memory.memory_range.start ≤ e.1 ∧ e.2 ≤ memory.memory_range.stop)
    (host_mem : ByteMem) (same : ℤ) {a : ℕ} (ha : memory.memory_range.start ≤ a)
    (ha' : a < memory.memory_range.stop) :
    bufferByte (l.foldl (compareRange memory.toMemory) (host_mem, same)).1 memory.value
      memory.toMemory a =
    if Covered l a then bufferByte host_mem memory.value_cache memory.toMemory a else
      bufferByte host_mem memory.value memory.toMemory a := by
  induction l generalizing host_mem same with
  | nil => simp
  | cons e l ih =>
    obtain ⟨he, hl⟩ := List.forall_mem_cons.1 hinside
    obtain ⟨hpos, hproper⟩ := List.forall_mem_cons.1 hproper
    -- The turn leaves the cache as it is, and copies the range.
    rw [List.foldl_cons, compareRange_eq host_mem same he hpos, ih hproper hl,
      bufferByte_copyBytes_apart memory.buffers he.1 he.2 ha ha', bufferByte_copyBytes he.1 ha]
    simp only [covered_cons]
    by_cases hcovered : Covered l a
    · simp [hcovered]
    · simp only [hcovered, or_false, if_false]
      split_ifs with h
      · have haddr : memory.value_cache + e.1 - memory.memory_range.start + (a - e.1) =
            memory.value_cache + a - memory.memory_range.start := by omega
        rw [haddr]
        rfl
      · rfl

/-- The comparison counts the bytes of the ranges that were the same. -/
theorem count_compareRanges {l : List (ℕ × ℕ)} (hproper : Proper l)
    (hdisjoint : l.Pairwise fun a b => a.2 ≤ b.1)
    (hinside : ∀ e ∈ l, memory.memory_range.start ≤ e.1 ∧ e.2 ≤ memory.memory_range.stop)
    (host_mem : ByteMem) (same : ℤ) :
    (l.foldl (compareRange memory.toMemory) (host_mem, i32 same)).2 =
      i32 (same + (l.map fun e => min (2^53) (sameInRange host_mem memory.toMemory e)).sum) := by
  induction l generalizing host_mem same with
  | nil => simp
  | cons e l ih =>
    obtain ⟨he, hl⟩ := List.forall_mem_cons.1 hinside
    obtain ⟨hpos, hproper⟩ := List.forall_mem_cons.1 hproper
    obtain ⟨hfirst, hdisjoint⟩ := List.pairwise_cons.1 hdisjoint
    -- The bytes of the later ranges are those of before the turn.
    have hcongr : ∀ e' ∈ l, sameInRange (copyBytes host_mem host_mem
        (memory.value + e.1 - memory.memory_range.start)
        (memory.value_cache + e.1 - memory.memory_range.start) (e.2 - e.1)) memory.toMemory e' =
        sameInRange host_mem memory.toMemory e' := by
      intro e' he'
      have hbehind := hfirst e' he'
      have hin := hl e' he'
      refine sameInRange_congr (fun a hge hlt => ?_) fun a hge hlt => ?_
      · rw [bufferByte_copyBytes he.1 (by omega), if_neg (by omega)]
      · exact bufferByte_copyBytes_apart memory.buffers he.1 he.2 (by omega) (by omega)
    rw [List.foldl_cons, compareRange_eq host_mem _ he hpos, i32_i32_add, ih hproper hdisjoint hl,
      List.map_cons, List.sum_cons, List.map_congr_left fun e' he' => by rw [hcongr e' he']]
    push_cast
    rw [add_assoc]

end Compare

/-- Counts that are cut off at a bound have the same sum as those that are not, when the one or the
other sum is below the bound. -/
theorem sum_min_eq {α : Type*} {l : List α} {f : α → ℕ} {bound : ℕ}
    (h : (l.map fun e => min bound (f e)).sum < bound ∨ (l.map f).sum < bound) :
    (l.map fun e => min bound (f e)).sum = (l.map f).sum := by
  induction l with
  | nil => rfl
  | cons e l ih =>
    simp only [List.map_cons, List.sum_cons] at h ⊢
    have hrest := ih (by omega)
    omega

variable {env : Env} {device_mem host_mem : ByteMem} {memory : AllocatedMemory}

/-- The ranges have fewer than `2^63` points. -/
theorem WrittenRanges.card_points_lt (written : WrittenRanges memory.toMemory) :
    (points written.ranges.toList).card < 2^63 := by
  have hsubset : points written.ranges.toList ⊆
      Finset.Ico memory.memory_range.start memory.memory_range.stop := by
    intro a ha
    obtain ⟨e, he, hge, hlt⟩ := (mem_points _ _).1 ha
    have := written.inside e he
    exact Finset.mem_Ico.2 ⟨by omega, by omega⟩
  have hcard := Finset.card_le_card hsubset
  rw [Nat.card_Ico, ← memory.len_eq] at hcard
  exact hcard.trans_lt memory.len_lt

/-- An object does not have more redundant bytes than bytes. -/
theorem redundantBytes_lt (written : WrittenRanges memory.toMemory) (new_value : ℕ → UInt8) :
    redundantBytes new_value host_mem memory.toMemory written.ranges < 2^63 :=
  (Finset.card_filter_le _ _).trans_lt written.card_points_lt

/-- The bytes in the cache decide what is taken over: the written bytes of the buffer `value` become
those of the cache, and the redundancy is the number of them that were there, as an `int`. -/
theorem updateHost_eq (env : Env) (device_mem host_mem : ByteMem)
    (written : WrittenRanges memory.toMemory) :
    ∃ res, updateHost env device_mem host_mem memory.toMemory written.ranges = some res ∧
      (∀ a, memory.memory_range.start ≤ a → a < memory.memory_range.stop →
        bufferByte res.1 memory.value memory.toMemory a =
          if Covered written.ranges.toList a then
            device_mem (cachedFrom env memory.toMemory written.ranges a)
          else bufferByte host_mem memory.value memory.toMemory a) ∧
      ∀ cached, cached = redundantBytes
          (fun a => device_mem (cachedFrom env memory.toMemory written.ranges a)) host_mem
          memory.toMemory written.ranges →
        (u64OfInt res.2 = cached ↔ cached < 2^31) := by
  obtain ⟨first, last, hfirst, hlast, hmin, hge, hle, hends⟩ := written.exists_ends
  generalize hcopied : copyToCache env device_mem host_mem memory.toMemory written.ranges first.1
    last.2 = copied
  have hcache : ∀ a, Covered written.ranges.toList a →
      bufferByte copied memory.value_cache memory.toMemory a =
        device_mem (cachedFrom env memory.toMemory written.ranges a) := by
    intro a ha
    rw [← hcopied]
    exact cache_copyToCache written hmin hge hends ha
  have hvalue : ∀ a, memory.memory_range.start ≤ a → a < memory.memory_range.stop →
      bufferByte copied memory.value memory.toMemory a =
        bufferByte host_mem memory.value memory.toMemory a := by
    intro a ha ha'
    rw [← hcopied]
    exact value_copyToCache written hge hle ha ha'
  refine ⟨_, by unfold updateHost; rw [hfirst, hlast], fun a ha ha' => ?_, ?_⟩
  · simp only [compareWithCache, hcopied,
      shadow_compareRanges written.proper written.inside copied 0 ha ha', hvalue a ha ha']
    split_ifs with hcovered
    · exact hcache a hcovered
    · rfl
  · rintro cached rfl
    -- The counts of the ranges add up to the number of bytes that the cache has in common.
    have hsum : redundantBytes
        (fun a => device_mem (cachedFrom env memory.toMemory written.ranges a)) host_mem
        memory.toMemory written.ranges =
        (written.ranges.toList.map (sameInRange copied memory.toMemory)).sum := by
      unfold redundantBytes
      rw [card_filter_points _ (written.disjoint.imp fun {a b} hab x hx => by omega)]
      refine congrArg List.sum (List.map_congr_left fun e he => congrArg _ ?_)
      refine Finset.filter_congr fun a ha => ?_
      obtain ⟨hge', hlt'⟩ := Finset.mem_Ico.1 ha
      have hin := written.inside e he
      rw [hvalue a (by omega) (by omega), hcache a ⟨e, he, hge', hlt'⟩]
    have hcount : (compareWithCache copied memory.toMemory written.ranges.toList).2 =
        i32 ((written.ranges.toList.map fun e =>
          min (2^53) (sameInRange copied memory.toMemory e)).sum : ℕ) := by
      have h := count_compareRanges written.proper written.disjoint written.inside copied 0
      rw [zero_add, show i32 0 = 0 from rfl] at h
      exact h
    simp only [hcopied, hcount]
    refine u64OfInt_i32_eq_iff (redundantBytes_lt written _) fun hlt => ?_
    rw [hsum] at hlt ⊢
    exact sum_min_eq (by omega)

/-- The copy takes each written byte from its place on the device: range by range it always does,
and otherwise when the device has the same byte as many places before it as the first written byte
is behind the start of the object. -/
def CopiesWritten (env : Env) (device_mem : ByteMem) (memory : Memory) (ranges : RangeSet) : Prop :=
  copyType env memory ranges = .NON_CONTINOUS_FRAGMENT ∨
    ∀ a, Covered ranges.toList a →
      device_mem (memory.memory_range.start + (a - startMin ranges)) = device_mem a

/-- The copy takes each written byte from its place exactly when the cache has it. -/
theorem copiesWritten_iff (env : Env) (device_mem : ByteMem) (memory : Memory) (ranges : RangeSet) :
    CopiesWritten env device_mem memory ranges ↔ ∀ a, Covered ranges.toList a →
      device_mem (cachedFrom env memory ranges a) = device_mem a := by
  unfold CopiesWritten cachedFrom
  cases copyType env memory ranges with
  | MIN_MAX_FRAGMENT => simp
  | NON_CONTINOUS_FRAGMENT => simp

/-- The written bytes of the shadow copy become those of the device, the others stay, and the
redundancy is the number of written bytes that were there, exactly when the copy takes each written
byte from its place and fewer than `2^31` bytes are redundant. -/
theorem updateHost_correct_iff (env : Env) (device_mem host_mem : ByteMem)
    (memory : AllocatedMemory) (written : WrittenRanges memory.toMemory) :
    ∃ res, updateHost env device_mem host_mem memory.toMemory written.ranges = some res ∧
      (UpdatesShadow device_mem host_mem res.1 memory.toMemory written.ranges ∧
          u64OfInt res.2 = redundantBytes device_mem host_mem memory.toMemory written.ranges ↔
        CopiesWritten env device_mem memory.toMemory written.ranges ∧
          redundantBytes device_mem host_mem memory.toMemory written.ranges < 2^31) := by
  obtain ⟨res, hres, hshadow, hcount⟩ := updateHost_eq env device_mem host_mem written
  refine ⟨res, hres, ?_⟩
  rw [copiesWritten_iff]
  have hin : ∀ a, Covered written.ranges.toList a →
      memory.memory_range.start ≤ a ∧ a < memory.memory_range.stop := by
    rintro a ⟨e, he, hge, hlt⟩
    have := written.inside e he
    omega
  have hupdates : UpdatesShadow device_mem host_mem res.1 memory.toMemory written.ranges ↔
      ∀ a, Covered written.ranges.toList a →
        device_mem (cachedFrom env memory.toMemory written.ranges a) = device_mem a := by
    constructor
    · intro h a ha
      have heq := h a (hin a ha).1 (hin a ha).2
      rwa [hshadow a (hin a ha).1 (hin a ha).2, if_pos ha, if_pos ha] at heq
    · intro h a ha ha'
      rw [hshadow a ha ha']
      split_ifs with hcovered
      · exact h a hcovered
      · rfl
  rw [hupdates]
  -- With the device's bytes in the cache, the bytes counted are the redundant ones.
  refine and_congr_right fun hcopies => hcount _ ?_
  unfold redundantBytes
  refine congrArg _ (Finset.filter_congr fun a ha => ?_)
  simp only [hcopies a ((mem_points _ _).1 ha)]

/-- The third of four bytes is written, and the cache gets the first one. -/
theorem not_updateHost_correct_behind :
    ¬∀ (env : Env) (device_mem host_mem : ByteMem) (memory : AllocatedMemory)
      (written : WrittenRanges memory.toMemory) (res : ByteMem × ℤ),
      updateHost env device_mem host_mem memory.toMemory written.ranges = some res →
      UpdatesShadow device_mem host_mem res.1 memory.toMemory written.ranges ∧
        u64OfInt res.2 = redundantBytes device_mem host_mem memory.toMemory written.ranges := by
  intro h
  let memory : AllocatedMemory :=
    ⟨⟨7, 0, 0, ⟨1000, 1004⟩, 4, 2000, 3000⟩, by decide, rfl, by decide, by decide⟩
  let written : WrittenRanges memory.toMemory :=
    ⟨(∅ : RangeSet).set 1002 1003, by decide, by unfold Proper; decide, by decide, by decide⟩
  let device_mem : ByteMem := fun a => if a = 1002 then 1 else 0
  let env : Env := { ratio_below_limit := fun _ _ => false, sha256 := fun _ => "" }
  obtain ⟨hshadow, -⟩ := h env device_mem (fun _ => 0) memory written _ rfl
  exact absurd (hshadow 1002 (by decide) (by decide)) (by decide)

end TenProf.DataFlow
