import Mathlib.Algebra.Order.Field.Rat
import TenProf.MemoryProfile.Gaps
import TenProf.Words

/-!
# The fragmentation of the blank chunks

After every kernel that is analysed, `update_object_fragmentation_per_kernel` files how large the
largest blank chunk of each object is that the kernel accessed, how much of the blank bytes lies
outside it, and how much of the object was accessed. The quotients are those before the rounding to
`float`; where the source divides 0 by 0, for an object without bytes, they are 0 here.
-/

namespace TenProf

/-- `ChunkFragmentation`. -/
structure ChunkFragmentation where
  largest_chunk : ℕ
  fragmentation : ℚ
  access_rate : ℚ
  deriving DecidableEq

/-- `MemoryProfile` with the members for the fragmentation. -/
structure MemoryProfileReport where
  profile : MemoryProfile
  larget_chunk_with_memories : OrderedMap ℕ ℕ
  object_fragmentation_of_kernel_per_thread :
    OrderedMap ℕ (OrderedMap ℕ (OrderedMap ℕ ChunkFragmentation))

namespace MemoryProfileReport

open MemoryProfile (Event)

/-- The analysis before the first callback. -/
def empty : MemoryProfileReport := ⟨MemoryProfile.empty, ∅, ∅⟩

/-- `_object_fragmentation_of_kernel_per_thread.at(t).at(k).at(m)`. -/
def fragmentationAt (s : MemoryProfileReport) (cpu_thread kernel_op_id memory_op_id : ℕ) :
    Option ChunkFragmentation :=
  ((s.object_fragmentation_of_kernel_per_thread.findD cpu_thread ∅).findD kernel_op_id ∅).find?
    memory_op_id

/-- An entry of the report is set. -/
def setFragmentation (s : MemoryProfileReport) (cpu_thread kernel_op_id memory_op_id : ℕ)
    (chunck_frag : ChunkFragmentation) : MemoryProfileReport :=
  let kernel_map := s.object_fragmentation_of_kernel_per_thread.findD cpu_thread ∅
  { s with
    object_fragmentation_of_kernel_per_thread :=
      s.object_fragmentation_of_kernel_per_thread.set cpu_thread
        (kernel_map.set kernel_op_id
          ((kernel_map.findD kernel_op_id ∅).set memory_op_id chunck_frag)) }

/-- The largest blank size and the total blank size. -/
def blankSizes (unuse_range_set : RangeSet) : ℕ × ℕ :=
  unuse_range_set.toList.foldl (fun (len, sum) siter =>
    (if len < siter.2 - siter.1 then siter.2 - siter.1 else len, sum + (siter.2 - siter.1))) (0, 0)

/-- The turn of the loop of `update_object_fragmentation_per_kernel` for an object. -/
def updateFragmentation (cpu_thread kernel_op_id : ℕ) (s : MemoryProfileReport)
    (miter : ℕ × RangeSet) : Option MemoryProfileReport :=
  let (len, sum) := blankSizes miter.2
  (s.larget_chunk_with_memories.find? miter.1).bind fun larget_chunk =>
    -- The largest chunk is not to grow from one kernel to the next.
    let len := if larget_chunk < len then larget_chunk else len
    let empty_set := miter.2.toList.isEmpty || len == 0
    let s :=
      { s with larget_chunk_with_memories := s.larget_chunk_with_memories.set miter.1 len }
    (s.profile.memories.find? miter.1).map fun memory =>
      let access_rate : ℚ := (subU64 memory.len sum : ℚ) / memory.len
      let frag : ℚ := if empty_set then 0 else 1 - (len : ℚ) / sum
      s.setFragmentation cpu_thread kernel_op_id miter.1 ⟨len, frag, access_rate⟩

/-- `update_object_fragmentation_per_kernel`. -/
def updateObjectFragmentationPerKernel (s : MemoryProfileReport) (cpu_thread kernel_op_id : ℕ) :
    Option MemoryProfileReport :=
  (s.profile.blank_chunks.find? kernel_op_id).bind fun unused_map =>
    unused_map.toList.foldlM (updateFragmentation cpu_thread kernel_op_id) s

/-- `kernel_op_callback`, which files the fragmentation before it resets the trace. The thread is
that of the kernel in the trace, a member that `analysis_begin` does not set: `unset` says what it
holds in which trace. -/
def kernelOpCallback (unset : ℕ × ℕ → ℕ) (fuel : ℕ) (s : MemoryProfileReport) (op : Kernel) :
    Option MemoryProfileReport :=
  (s.profile.kernelOpCallback fuel op).bind fun profile =>
    match s.profile.trace with
    | none => some { s with profile := profile }
    | some i => updateObjectFragmentationPerKernel { s with profile := profile } (unset i) op.op_id

/-- What an event does. -/
def step (unset : ℕ × ℕ → ℕ) (fuel : ℕ) (s : MemoryProfileReport) :
    Event → Option MemoryProfileReport
  | .memory op =>
    some { s with
      profile := s.profile.memoryOpCallback op
      larget_chunk_with_memories := s.larget_chunk_with_memories.emplace op.op_id op.len }
  | .memfree op => (s.profile.memfreeOpCallback op).map fun profile => { s with profile := profile }
  | .kernel op patches =>
    (patches.foldlM (MemoryProfile.analyzePatch op) s.profile).bind fun profile =>
      kernelOpCallback unset fuel { s with profile := profile } op

/-! ## What is filed for an object -/

variable {s s' : MemoryProfileReport} {cpu_thread kernel_op_id m : ℕ} {c : RangeSet}

/-- The sizes of a set of blank chunks. -/
theorem blankSizes_eq (c : RangeSet) :
    blankSizes c = (maxLength c.toList, totalLength c.toList) := by
  suffices h : ∀ (l : List (ℕ × ℕ)) (len sum : ℕ),
      l.foldl (fun (len, sum) siter =>
        (if len < siter.2 - siter.1 then siter.2 - siter.1 else len, sum + (siter.2 - siter.1)))
        (len, sum) = (max len (maxLength l), sum + totalLength l) by
    unfold blankSizes
    rw [h, Nat.zero_max, Nat.zero_add]
  intro l
  induction l with
  | nil => simp
  | cons e l ih =>
    intro len sum
    have hmax : (if len < e.2 - e.1 then e.2 - e.1 else len) = max len (e.2 - e.1) := by
      split_ifs with hlt
      · exact (max_eq_right hlt.le).symm
      · exact (max_eq_left (not_lt.1 hlt)).symm
    rw [List.foldl_cons, ih, hmax, maxLength_cons, totalLength_cons, max_assoc, Nat.add_assoc]

/-- The entries of the report after one is set. -/
theorem fragmentationAt_setFragmentation (s : MemoryProfileReport)
    (cpu_thread kernel_op_id memory_op_id t k m : ℕ) (f : ChunkFragmentation) :
    (s.setFragmentation cpu_thread kernel_op_id memory_op_id f).fragmentationAt t k m =
      if t = cpu_thread ∧ k = kernel_op_id ∧ m = memory_op_id then some f
      else s.fragmentationAt t k m := by
  unfold setFragmentation fragmentationAt
  dsimp only
  by_cases ht : t = cpu_thread
  · by_cases hk : k = kernel_op_id
    · by_cases hm : m = memory_op_id
      · simp [OrderedMap.findD_set, ht, hk, hm]
      · simp [OrderedMap.findD_set, OrderedMap.find?_set, ht, hk, hm]
    · simp [OrderedMap.findD_set, ht, hk]
  · simp [OrderedMap.findD_set, ht]

/-- The entry for an object with blank chunks. -/
def chunkFragmentation (memory : Memory) (c : RangeSet) : ChunkFragmentation where
  largest_chunk := maxLength c.toList
  fragmentation :=
    if maxLength c.toList = 0 then 0 else 1 - (maxLength c.toList : ℚ) / totalLength c.toList
  access_rate := ((memory.len - totalLength c.toList : ℕ) : ℚ) / memory.len

/-- The turn for an object whose blank chunks have not grown: the largest one is filed as it is. -/
theorem updateFragmentation_eq {n : ℕ} {memory : Memory}
    (hlarget : s.larget_chunk_with_memories.find? m = some n) (hle : maxLength c.toList ≤ n)
    (hmemory : s.profile.memories.find? m = some memory) (hword : memory.len < 2^64)
    (htotal : totalLength c.toList ≤ memory.len) :
    updateFragmentation cpu_thread kernel_op_id s (m, c) =
      some (({ s with
        larget_chunk_with_memories := s.larget_chunk_with_memories.set m (maxLength c.toList) } :
          MemoryProfileReport).setFragmentation cpu_thread kernel_op_id m
            (chunkFragmentation memory c)) := by
  have hempty : (c.toList.isEmpty || maxLength c.toList == 0) = true ↔
      maxLength c.toList = 0 := by
    rw [Bool.or_eq_true, beq_iff_eq, List.isEmpty_iff, or_iff_right_of_imp]
    intro hnil
    rw [hnil, maxLength_nil]
  unfold updateFragmentation chunkFragmentation
  simp only [blankSizes_eq, hlarget, Option.bind_some, hmemory, Option.map_some,
    if_neg (not_lt.2 hle), subU64_of_le hword htotal, hempty]

/-- The state after the first objects of a kernel have been filed. -/
structure Filed (s : MemoryProfileReport) (cpu_thread kernel_op_id : ℕ)
    (done : List (ℕ × RangeSet)) (s' : MemoryProfileReport) : Prop where
  profile : s'.profile = s.profile
  larget : ∀ e ∈ done, s'.larget_chunk_with_memories.find? e.1 = some (maxLength e.2.toList)
  larget_others : ∀ m, m ∉ done.map Prod.fst →
    s'.larget_chunk_with_memories.find? m = s.larget_chunk_with_memories.find? m
  entries : ∀ e ∈ done, ∃ memory, s.profile.memories.find? e.1 = some memory ∧
    s'.fragmentationAt cpu_thread kernel_op_id e.1 = some (chunkFragmentation memory e.2)
  others : ∀ t k m, ¬(t = cpu_thread ∧ k = kernel_op_id ∧ m ∈ done.map Prod.fst) →
    s'.fragmentationAt t k m = s.fragmentationAt t k m

/-- An object can be filed: it is known, and its blank chunks are no larger than before. -/
def Fileable (s : MemoryProfileReport) (miter : ℕ × RangeSet) : Prop :=
  ∃ n memory, s.larget_chunk_with_memories.find? miter.1 = some n ∧
    maxLength miter.2.toList ≤ n ∧ s.profile.memories.find? miter.1 = some memory ∧
    memory.len < 2^64 ∧ totalLength miter.2.toList ≤ memory.len

/-- The turn for a further object. -/
theorem Filed.updateFragmentation {done : List (ℕ × RangeSet)} {miter : ℕ × RangeSet}
    (h : Filed s cpu_thread kernel_op_id done s') (hfileable : Fileable s miter)
    (hnew : miter.1 ∉ done.map Prod.fst) :
    ∃ s'', updateFragmentation cpu_thread kernel_op_id s' miter = some s'' ∧
      Filed s cpu_thread kernel_op_id (done ++ [miter]) s'' := by
  obtain ⟨n, memory, hn, hle, hmemory, hword, htotal⟩ := hfileable
  rw [← h.larget_others _ hnew] at hn
  have hmemory' : s'.profile.memories.find? miter.1 = some memory := by rw [h.profile, hmemory]
  refine ⟨_, updateFragmentation_eq hn hle hmemory' hword htotal, h.profile, ?_, ?_, ?_, ?_⟩
  · intro e he
    show (s'.larget_chunk_with_memories.set miter.1 _).find? e.1 = _
    rcases List.mem_append.1 he with he | he
    · rw [OrderedMap.find?_set_of_ne, h.larget e he]
      intro heq
      exact hnew (heq ▸ List.mem_map_of_mem he)
    · rw [List.mem_singleton.1 he, OrderedMap.find?_set_self]
  · intro m hm
    simp only [List.map_append, List.map_cons, List.map_nil, List.mem_append, List.mem_singleton,
      not_or] at hm
    exact (OrderedMap.find?_set_of_ne _ hm.2 _).trans (h.larget_others m hm.1)
  · intro e he
    rw [fragmentationAt_setFragmentation]
    rcases List.mem_append.1 he with he | he
    · obtain ⟨memory₀, hmemory₀, hentry⟩ := h.entries e he
      have hne : e.1 ≠ miter.1 := fun heq => hnew (heq ▸ List.mem_map_of_mem he)
      exact ⟨memory₀, hmemory₀, by rw [if_neg fun hall => hne hall.2.2]; exact hentry⟩
    · rw [List.mem_singleton.1 he, if_pos ⟨rfl, rfl, rfl⟩]
      exact ⟨memory, hmemory, rfl⟩
  · intro t k m hne
    simp only [List.map_append, List.map_cons, List.map_nil, List.mem_append,
      List.mem_singleton] at hne
    rw [fragmentationAt_setFragmentation, if_neg fun hall => hne ⟨hall.1, hall.2.1, .inr hall.2.2⟩]
    exact h.others t k m fun hall => hne ⟨hall.1, hall.2.1, .inl hall.2.2⟩

/-- `update_object_fragmentation_per_kernel` for objects that can be filed. -/
theorem exists_updateObjectFragmentationPerKernel {unused_map : OrderedMap ℕ RangeSet}
    (hmap : s.profile.blank_chunks.find? kernel_op_id = some unused_map)
    (hfileable : ∀ e ∈ unused_map.toList, Fileable s e) (cpu_thread : ℕ) :
    ∃ s', updateObjectFragmentationPerKernel s cpu_thread kernel_op_id = some s' ∧
      Filed s cpu_thread kernel_op_id unused_map.toList s' := by
  obtain ⟨s', ⟨n, hn⟩, hfiled⟩ := exists_settles_foldlM
    (f := fun _ => MemoryProfileReport.updateFragmentation cpu_thread kernel_op_id)
    (Filed s cpu_thread kernel_op_id)
    (fun before e later s₁ (heq : unused_map.toList = before ++ e :: later) h => by
      have hnodup := unused_map.nodup_keys
      rw [heq, List.map_append, List.map_cons, List.nodup_append'] at hnodup
      obtain ⟨s₂, hs₂, h₂⟩ := h.updateFragmentation (hfileable e (by rw [heq]; simp)) fun hmem =>
        hnodup.2.2 hmem List.mem_cons_self
      exact ⟨s₂, settles_const hs₂, h₂⟩)
    ⟨rfl, by simp, fun _ _ => rfl, by simp, fun _ _ _ _ => rfl⟩
  refine ⟨s', ?_, hfiled⟩
  unfold updateObjectFragmentationPerKernel
  rw [hmap, Option.bind_some]
  exact hn n le_rfl

end MemoryProfileReport

end TenProf
