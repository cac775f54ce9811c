import TenProf.GpuPatch.AuxPatch
import TenProf.MemoryLiveness.State

/-!
# Whether a kernel is linked to the objects that it accessed

`update_graph_at_kernel` links a kernel to the objects that its patch has marked as hit, and as read
or written. The patches mark the last object that starts at an address or before, whatever its end,
and they compare the flags with `READ` and `WRITE` where an access may have both bits. So the marks
of the patch `aux` are right exactly when no object is hit from behind its end alone, and the
accesses with one flag tell the same as those with the bit (`AuxRight`). The patch `torch-aux` does
not mark reads and writes at all, so that its marks are right only when there is nothing to mark
(`marks_iff`).
-/

namespace TenProf

namespace GpuPatch

/-- The address lies in a range. -/
def Access.InRange (a : Access) (r : MemoryRange) : Prop :=
  r.start ≤ a.address ∧ a.address < r.stop

/-- The access has the bit of a read, as atomics have beside that of a write. -/
def Access.Reads (a : Access) : Prop := a.flags &&& READ ≠ 0

/-- The access has the bit of a write. -/
def Access.Writes (a : Access) : Prop := a.flags &&& WRITE ≠ 0

instance (a : Access) (r : MemoryRange) : Decidable (a.InRange r) :=
  inferInstanceAs (Decidable (_ ∧ _))

instance (a : Access) : Decidable a.Reads := inferInstanceAs (Decidable (¬_))

instance (a : Access) : Decidable a.Writes := inferInstanceAs (Decidable (¬_))

/-- The dictionary that a kernel gets: ranges that are sorted, apart and not empty, and no marks. -/
structure AddressDict.Fresh (dict : AddressDict) : Prop where
  apart : (dict.entries.map AddressEntry.start_end).Pairwise fun r r' => r.stop ≤ r'.start
  nonempty : ∀ entry ∈ dict.entries, entry.start_end.start < entry.start_end.stop
  unmarked : ∀ entry ∈ dict.entries, entry.hit = 0 ∧ entry.read = 0 ∧ entry.write = 0

/-- The marks of a dictionary say which objects some accesses touched, read, and wrote. -/
structure MarksRight (dict : AddressDict) (accesses : List Access) (dict' : AddressDict) :
    Prop where
  ranges : dict'.entries.map AddressEntry.start_end = dict.entries.map AddressEntry.start_end
  hit : ∀ entry ∈ dict'.entries, entry.hit = 1 ↔ ∃ a ∈ accesses, a.InRange entry.start_end
  read : ∀ entry ∈ dict'.entries,
    entry.read = 1 ↔ ∃ a ∈ accesses, a.InRange entry.start_end ∧ a.Reads
  write : ∀ entry ∈ dict'.entries,
    entry.write = 1 ↔ ∃ a ∈ accesses, a.InRange entry.start_end ∧ a.Writes

/-- An address from the start of an object on, up to the start of the next. -/
def AddressDict.Behind (dict : AddressDict) (i : ℕ) (a : Access) : Prop :=
  (dict.startEnd i).start ≤ a.address ∧
    ∀ j < dict.size, i < j → a.address < (dict.startEnd j).start

instance (dict : AddressDict) (i : ℕ) (a : Access) : Decidable (dict.Behind i a) :=
  inferInstanceAs (Decidable (_ ∧ _))

/-- An object with an access between its end and the next object has one in its range as well, and
the accesses from its start on that only read, or only write, tell whether those in its range
do. -/
structure AuxRight (dict : AddressDict) (accesses : List Access) : Prop where
  hit : ∀ i < dict.size, (∃ a ∈ accesses, dict.Behind i a) →
    ∃ a ∈ accesses, a.InRange (dict.startEnd i)
  read : ∀ i < dict.size, (∃ a ∈ accesses, dict.Behind i a ∧ a.flags = READ) ↔
    ∃ a ∈ accesses, a.InRange (dict.startEnd i) ∧ a.Reads
  write : ∀ i < dict.size, (∃ a ∈ accesses, dict.Behind i a ∧ a.flags = WRITE) ↔
    ∃ a ∈ accesses, a.InRange (dict.startEnd i) ∧ a.Writes

/-! ## The marks of one object -/

/-- A mark that each access sets if it has a property, and leaves otherwise, is set by a list of
accesses exactly if one of them has the property. -/
theorem mark_foldl_iff (mark : AddressEntry → ℕ) {step : AddressEntry → Access → AddressEntry}
    {p : Access → Prop} [DecidablePred p]
    (hstep : ∀ entry a, mark (step entry a) = if mark entry = 0 ∧ p a then 1 else mark entry)
    (accesses : List Access) {entry : AddressEntry} (h : mark entry = 0) :
    mark (accesses.foldl step entry) = 1 ↔ ∃ a ∈ accesses, p a := by
  -- A mark that is set stays set.
  have hset : ∀ (l : List Access) (e : AddressEntry), mark e = 1 → mark (l.foldl step e) = 1 := by
    intro l
    induction l with
    | nil => exact fun _ he => he
    | cons a l ih => exact fun e he => ih _ (by simp [hstep, he])
  induction accesses generalizing entry with
  | nil => simp [h]
  | cons a accesses ih =>
    rw [List.foldl_cons]
    by_cases ha : p a
    · exact iff_of_true (hset _ _ (by simp [hstep, h, ha])) ⟨a, List.mem_cons_self, ha⟩
    · have hrest : mark (step entry a) = 0 := by simp [hstep, h, ha]
      exact (ih hrest).trans (by simp [ha])

/-- The hit mark of an object after some accesses. -/
theorem hit_foldl_markAccess (accesses : List Access) {entry : AddressEntry}
    (h : entry.hit = 0) :
    (accesses.foldl (fun entry a => entry.markAccess a.flags) entry).hit = 1 ↔
      ∃ a ∈ accesses, True := by
  refine mark_foldl_iff AddressEntry.hit (fun e a => ?_) accesses h
  unfold AddressEntry.markAccess AddressEntry.markWrite AddressEntry.markRead AddressEntry.markHit
  split_ifs <;> simp_all

/-- The read mark. -/
theorem read_foldl_markAccess (accesses : List Access) {entry : AddressEntry}
    (h : entry.read = 0) :
    (accesses.foldl (fun entry a => entry.markAccess a.flags) entry).read = 1 ↔
      ∃ a ∈ accesses, a.flags = READ := by
  refine mark_foldl_iff AddressEntry.read (fun e a => ?_) accesses h
  unfold AddressEntry.markAccess AddressEntry.markWrite AddressEntry.markRead AddressEntry.markHit
  split_ifs <;> simp_all

/-- The write mark. -/
theorem write_foldl_markAccess (accesses : List Access) {entry : AddressEntry}
    (h : entry.write = 0) :
    (accesses.foldl (fun entry a => entry.markAccess a.flags) entry).write = 1 ↔
      ∃ a ∈ accesses, a.flags = WRITE := by
  refine mark_foldl_iff AddressEntry.write (fun e a => ?_) accesses h
  unfold AddressEntry.markAccess AddressEntry.markWrite AddressEntry.markRead AddressEntry.markHit
  split_ifs <;> simp_all

/-! ## The marks of the dictionary -/

section

variable {dict : AddressDict} {accesses : List Access}

/-- The range of an object, at its index. -/
theorem AddressDict.startEnd_eq {i : ℕ} {entry : AddressEntry}
    (h : dict.entries[i]? = some entry) : dict.startEnd i = entry.start_end := by
  rw [startEnd, List.getD_eq_getElem?_getD, List.getElem?_map, h]
  rfl

/-- The ranges at two indices are apart. -/
theorem AddressDict.Fresh.stop_le (h : dict.Fresh) {i j : ℕ} (hij : i < j) (hj : j < dict.size) :
    (dict.startEnd i).start < (dict.startEnd i).stop ∧
      (dict.startEnd i).stop ≤ (dict.startEnd j).start := by
  have hi : i < dict.size := hij.trans hj
  have hat : ∀ k, (hk : k < dict.size) → dict.startEnd k = (dict.entries.get ⟨k, hk⟩).start_end :=
    fun k hk => AddressDict.startEnd_eq (List.getElem?_eq_getElem hk)
  have hapart := List.pairwise_iff_getElem.1 h.apart i j
    (by simpa [size] using hi) (by simpa [size] using hj) hij
  rw [List.getElem_map, List.getElem_map] at hapart
  rw [hat i hi, hat j hj]
  exact ⟨h.nonempty _ (List.getElem_mem hi), hapart⟩

/-- The comparison that the search makes holds up to some position and no further. -/
theorem AddressDict.Fresh.comparator_mono (h : dict.Fresh) (address : ℕ) (i j : ℕ) (hij : i ≤ j)
    (hj : j < dict.size) (hcmp : addressComparator (dict.startEnd j) ⟨address, 0⟩) :
    addressComparator (dict.startEnd i) ⟨address, 0⟩ := by
  rcases hij.eq_or_lt with rfl | hlt
  · exact hcmp
  · obtain ⟨hpos, hle⟩ := h.stop_le hlt hj
    simp only [addressComparator, decide_eq_true_eq] at hcmp ⊢
    omega

/-- An access marks the object behind whose start it lies. -/
theorem AddressDict.Fresh.findPrev_eq_iff (h : dict.Fresh) {i : ℕ} (hi : i < dict.size)
    (a : Access) : dict.findPrev a.address = i ↔ dict.Behind i a := by
  unfold findPrev Behind
  rw [mapPrev_eq_iff (h.comparator_mono a.address) hi]
  simp [addressComparator]

/-- An access at an object's start or behind it marks some object. -/
theorem AddressDict.Fresh.exists_behind (h : dict.Fresh) {i : ℕ} (hi : i < dict.size) {a : Access}
    (ha : (dict.startEnd i).start ≤ a.address) : ∃ j < dict.size, dict.Behind j a := by
  have hlt : dict.findPrev a.address < dict.size :=
    mapPrev_lt (h.comparator_mono a.address) hi (decide_eq_true ha)
  exact ⟨_, hlt, (h.findPrev_eq_iff hlt a).1 rfl⟩

/-- An access in an object's range lies before the next object. -/
theorem AddressDict.Fresh.behind_of_inRange (h : dict.Fresh) {i : ℕ} {a : Access}
    (ha : a.InRange (dict.startEnd i)) : dict.Behind i a :=
  ⟨ha.1, fun _ hj hij => ha.2.trans_le (h.stop_le hij hj).2⟩

/-- The marks that some accesses make, where a patch takes accesses for reads and for writes in its
own way. -/
structure Marked (dict : AddressDict) (accesses : List Access) (reads writes : Access → Prop)
    (dict' : AddressDict) : Prop where
  ranges : dict'.entries.map AddressEntry.start_end = dict.entries.map AddressEntry.start_end
  hit : ∀ i entry, dict'.entries[i]? = some entry →
    (entry.hit = 1 ↔ ∃ a ∈ accesses, dict.Behind i a)
  read : ∀ i entry, dict'.entries[i]? = some entry →
    (entry.read = 1 ↔ ∃ a ∈ accesses, dict.Behind i a ∧ reads a)
  write : ∀ i entry, dict'.entries[i]? = some entry →
    (entry.write = 1 ↔ ∃ a ∈ accesses, dict.Behind i a ∧ writes a)

/-- What a patch marks is right exactly if the accesses that it takes to be at an object, to read it
and to write it tell the same as those in the object's range. -/
theorem Marked.right_iff {reads writes : Access → Prop} {dict' : AddressDict}
    (h : Marked dict accesses reads writes dict') : MarksRight dict accesses dict' ↔
      ∀ i < dict.size,
        ((∃ a ∈ accesses, dict.Behind i a) ↔ ∃ a ∈ accesses, a.InRange (dict.startEnd i)) ∧
        ((∃ a ∈ accesses, dict.Behind i a ∧ reads a) ↔
          ∃ a ∈ accesses, a.InRange (dict.startEnd i) ∧ a.Reads) ∧
        ((∃ a ∈ accesses, dict.Behind i a ∧ writes a) ↔
          ∃ a ∈ accesses, a.InRange (dict.startEnd i) ∧ a.Writes) := by
  -- The object at an index, after the accesses.
  have hat : ∀ i entry, dict'.entries[i]? = some entry → dict.startEnd i = entry.start_end := by
    intro i entry hentry
    rw [AddressDict.startEnd, ← h.ranges]
    exact AddressDict.startEnd_eq hentry
  have hsize : dict'.entries.length = dict.size := by
    simpa [AddressDict.size] using congrArg List.length h.ranges
  constructor
  · intro hright i hi
    have hentry := List.getElem?_eq_getElem (hsize.symm ▸ hi : i < dict'.entries.length)
    have hmem := List.mem_of_getElem? hentry
    rw [← h.hit i _ hentry, ← h.read i _ hentry, ← h.write i _ hentry, hat i _ hentry]
    exact ⟨hright.hit _ hmem, hright.read _ hmem, hright.write _ hmem⟩
  · intro hall
    have hone : ∀ entry ∈ dict'.entries, ∃ i < dict.size, dict'.entries[i]? = some entry := by
      intro entry hentry
      obtain ⟨i, hi, rfl⟩ := List.getElem_of_mem hentry
      exact ⟨i, hsize ▸ hi, List.getElem?_eq_getElem hi⟩
    refine ⟨h.ranges, fun entry hmem => ?_, fun entry hmem => ?_, fun entry hmem => ?_⟩
    all_goals
      obtain ⟨i, hi, hentry⟩ := hone entry hmem
      obtain ⟨hhit, hread, hwrite⟩ := hall i hi
    · rw [h.hit i _ hentry, ← hat i _ hentry, hhit]
    · rw [h.read i _ hentry, ← hat i _ hentry, hread]
    · rw [h.write i _ hentry, ← hat i _ hentry, hwrite]

/-- The marks after some accesses, for a patch that marks an object in one step. -/
theorem AddressDict.Fresh.marked (h : dict.Fresh) {reads writes : Access → Prop}
    {step : AddressDict → Access → AddressDict} {f : Access → AddressEntry → AddressEntry}
    (hf : ∀ a entry, (f a entry).start_end = entry.start_end)
    (hstep : ∀ dict a, step dict a = if a.IsGlobal then dict.mark a.address (f a) (hf a) else dict)
    (hglobal : ∀ a ∈ accesses, a.IsGlobal)
    (hmarks : ∀ entry : AddressEntry, entry.hit = 0 ∧ entry.read = 0 ∧ entry.write = 0 →
      ∀ l : List Access, ((l.foldl (fun e a => f a e) entry).hit = 1 ↔ ∃ a ∈ l, True) ∧
        ((l.foldl (fun e a => f a e) entry).read = 1 ↔ ∃ a ∈ l, reads a) ∧
        ((l.foldl (fun e a => f a e) entry).write = 1 ↔ ∃ a ∈ l, writes a)) :
    Marked dict accesses reads writes (accesses.foldl step dict) := by
  have hall := AddressDict.getElem?_foldl hf hstep accesses dict
  have hentries : ∀ i entry, (accesses.foldl step dict).entries[i]? = some entry →
      (entry.hit = 1 ↔ ∃ a ∈ accesses, dict.Behind i a) ∧
      (entry.read = 1 ↔ ∃ a ∈ accesses, dict.Behind i a ∧ reads a) ∧
      (entry.write = 1 ↔ ∃ a ∈ accesses, dict.Behind i a ∧ writes a) := by
    intro i entry hentry
    rw [hall, Option.map_eq_some_iff] at hentry
    obtain ⟨entry₀, hentry₀, rfl⟩ := hentry
    have hi : i < dict.size := (List.getElem?_eq_some_iff.1 hentry₀).1
    have hland : ∀ a, a ∈ dict.landing accesses i ↔ a ∈ accesses ∧ dict.Behind i a := by
      intro a
      rw [AddressDict.landing, List.mem_filter, decide_eq_true_eq, h.findPrev_eq_iff hi]
      exact and_congr_right fun ha => and_iff_right (hglobal a ha)
    obtain ⟨hhit, hread, hwrite⟩ := hmarks entry₀ (h.unmarked _ (List.mem_of_getElem? hentry₀))
      (dict.landing accesses i)
    rw [hhit, hread, hwrite]
    simp only [hland, and_true, and_assoc]
  refine ⟨?_, fun i e he => (hentries i e he).1, fun i e he => (hentries i e he).2.1,
    fun i e he => (hentries i e he).2.2⟩
  -- No mark changes a range.
  have hsame : ∀ (l : List Access) (entry : AddressEntry),
      (l.foldl (fun e a => f a e) entry).start_end = entry.start_end := by
    intro l
    induction l with
    | nil => exact fun _ => rfl
    | cons a l ih => exact fun entry => (ih _).trans (hf a entry)
  apply List.ext_getElem?
  intro i
  rw [List.getElem?_map, List.getElem?_map, hall, Option.map_map]
  exact congrArg (fun g => dict.entries[i]?.map g) (funext fun entry => hsame _ entry)

end

end GpuPatch

namespace MemoryLiveness

open GpuPatch

/-- The link to an object that a kernel wrote, or only read. -/
def linkAccessed (addresses_map : OrderedMap ℕ ℕ) (op_id stream_id : ℕ) (accesses : List Access)
    (d : Dependencies) (r : MemoryRange) : Option Dependencies :=
  if ∃ a ∈ accesses, a.InRange r ∧ a.Writes then
    (addresses_map.find? r.start).bind fun memory_op_id =>
      d.updateGraphAtAccess op_id .REDSHOW_MEMORY_ACCESS stream_id memory_op_id .WRITE
  else if ∃ a ∈ accesses, a.InRange r ∧ a.Reads then
    (addresses_map.find? r.start).bind fun memory_op_id =>
      d.updateGraphAtAccess op_id .REDSHOW_MEMORY_ACCESS stream_id memory_op_id .READ
  else some d

/-- The marks of the kernel's dictionary are right, and `update_graph_at_kernel` links the kernel to
the objects that it wrote or read and to no others. -/
structure KernelRight (dict : AddressDict) (accesses : List Access) (dict' : AddressDict) :
    Prop where
  marks : MarksRight dict accesses dict'
  links : ∀ (s : MemoryLiveness) (op_id stream_id : ℕ),
    s.updateGraphAtKernel dict' op_id stream_id =
      ((dict.entries.map AddressEntry.start_end).foldlM
        (linkAccessed s.addresses_map op_id stream_id accesses) s.deps).map fun deps =>
          { s with deps := deps }

variable {dict torch_dict dict' : AddressDict} {accesses : List Access}

/-- With right marks, the turn for an object links it if it was written or read. -/
theorem graphAtEntry_eq (h : MarksRight dict accesses dict')
    (hkind : ∀ a ∈ accesses, a.Reads ∨ a.Writes) (addresses_map : OrderedMap ℕ ℕ)
    (op_id stream_id : ℕ) (d : Dependencies) {entry : AddressEntry}
    (hentry : entry ∈ dict'.entries) :
    graphAtEntry addresses_map op_id stream_id d entry =
      linkAccessed addresses_map op_id stream_id accesses d entry.start_end := by
  have hhit := h.hit entry hentry
  unfold graphAtEntry linkAccessed
  simp only [← h.write entry hentry, ← h.read entry hentry]
  by_cases hin : entry.hit = 1
  · -- Some access is in the range, and it reads or writes.
    obtain ⟨a, ha, hrange⟩ := hhit.1 hin
    have hmarked : entry.write = 1 ∨ entry.read = 1 := by
      rw [h.write entry hentry, h.read entry hentry]
      rcases hkind a ha with hread | hwrite
      · exact .inr ⟨a, ha, hrange, hread⟩
      · exact .inl ⟨a, ha, hrange, hwrite⟩
    rw [if_pos hin]
    cases addresses_map.find? entry.start_end.start with
    | none =>
      rcases hmarked with hwrite | hread
      · simp [hwrite]
      · simp [hread]
    | some memory_op_id =>
      simp only [Option.bind_some]
  · -- No access is in the range, so that there is none that reads or writes.
    have hwrite : ¬entry.write = 1 := fun hone => by
      obtain ⟨a, ha, hrange, -⟩ := (h.write entry hentry).1 hone
      exact hin (hhit.2 ⟨a, ha, hrange⟩)
    have hread : ¬entry.read = 1 := fun hone => by
      obtain ⟨a, ha, hrange, -⟩ := (h.read entry hentry).1 hone
      exact hin (hhit.2 ⟨a, ha, hrange⟩)
    rw [if_neg hin, if_neg hwrite, if_neg hread]

/-- With right marks, the objects that are linked are right too. -/
theorem kernelRight_iff (hkind : ∀ a ∈ accesses, a.Reads ∨ a.Writes) :
    KernelRight dict accesses dict' ↔ MarksRight dict accesses dict' := by
  refine ⟨KernelRight.marks, fun h => ⟨h, fun s op_id stream_id => ?_⟩⟩
  unfold updateGraphAtKernel
  have hfold : ∀ (entries : List AddressEntry) (d : Dependencies), entries ⊆ dict'.entries →
      entries.foldlM (graphAtEntry s.addresses_map op_id stream_id) d =
        (entries.map AddressEntry.start_end).foldlM
          (linkAccessed s.addresses_map op_id stream_id accesses) d := by
    intro entries
    induction entries with
    | nil => exact fun _ _ => rfl
    | cons entry entries ih =>
      intro d hsub
      obtain ⟨hentry, hsub⟩ := List.cons_subset.1 hsub
      rw [List.foldlM_cons, List.map_cons, List.foldlM_cons,
        graphAtEntry_eq h hkind _ _ _ _ hentry]
      exact congrArg _ (funext fun d' => ih d' hsub)
  rw [hfold _ _ (List.Subset.refl _), h.ranges]

/-- The marks of the patch `aux`. -/
theorem marked_aux (h : dict.Fresh) (hglobal : ∀ a ∈ accesses, a.IsGlobal) :
    Marked dict accesses (fun a => a.flags = READ) (fun a => a.flags = WRITE)
      (accesses.foldl (fun dict a => (auxAccessCallback dict a).1) dict) := by
  refine h.marked (f := fun a => AddressEntry.markAccess a.flags)
    (fun a => AddressEntry.start_end_markAccess a.flags) (fun dict a => ?_) hglobal
    fun entry hzero l => ?_
  · unfold auxAccessCallback
    split_ifs <;> rfl
  · exact ⟨hit_foldl_markAccess l hzero.1, read_foldl_markAccess l hzero.2.1,
      write_foldl_markAccess l hzero.2.2⟩

/-- The marks of the patch `torch-aux` in the dictionary of the memory: it never takes an access for
a read or a write. -/
theorem marked_torchAux (h : dict.Fresh) (hglobal : ∀ a ∈ accesses, a.IsGlobal) :
    Marked dict accesses (fun _ => False) (fun _ => False)
      (accesses.foldl (fun dicts a => (torchAuxAccessCallback dicts a).1)
        (dict, torch_dict)).1 := by
  -- The dictionary of the memory goes its own way.
  have hstep : ∀ (dicts : AddressDict × AddressDict) (a : Access), (if a.IsGlobal then
      dicts.1.mark a.address AddressEntry.markHit AddressEntry.start_end_markHit else dicts.1) =
        (torchAuxAccessCallback dicts a).1.1 := fun dicts a => by
    unfold torchAuxAccessCallback
    simp only
    split_ifs <;> rfl
  have hfst := @List.foldl_hom _ _ _ Prod.fst (fun dicts a => (torchAuxAccessCallback dicts a).1)
    (fun dict a => if a.IsGlobal then
      dict.mark a.address AddressEntry.markHit AddressEntry.start_end_markHit else dict)
    accesses (dict, torch_dict) hstep
  rw [← hfst]
  refine h.marked (f := fun _ => AddressEntry.markHit)
    (fun _ => AddressEntry.start_end_markHit) (fun _ _ => rfl) hglobal fun entry hzero l => ?_
  refine ⟨mark_foldl_iff AddressEntry.hit (fun e a => ?_) l hzero.1,
    mark_foldl_iff AddressEntry.read (fun e a => ?_) l hzero.2.1,
    mark_foldl_iff AddressEntry.write (fun e a => ?_) l hzero.2.2⟩
  all_goals
    unfold AddressEntry.markHit
    split_ifs <;> simp_all

/-- From a dictionary without marks, the patch `aux` links a kernel to the objects that it accessed
exactly when no object is hit from behind its end alone and the accesses with one flag tell the
same as those with the bit. The patch `torch-aux` does so exactly when no access is at or behind
the start of an object. -/
theorem marks_iff (h : dict.Fresh)
    (hglobal : ∀ a ∈ accesses, a.IsGlobal ∧ (a.Reads ∨ a.Writes)) :
    (KernelRight dict accesses
        (accesses.foldl (fun dict a => (auxAccessCallback dict a).1) dict) ↔
      AuxRight dict accesses) ∧
    (KernelRight dict accesses
        (accesses.foldl (fun dicts a => (torchAuxAccessCallback dicts a).1)
          (dict, torch_dict)).1 ↔
      ∀ a ∈ accesses, ∀ i < dict.size, a.address < (dict.startEnd i).start) := by
  have hkind : ∀ a ∈ accesses, a.Reads ∨ a.Writes := fun a ha => (hglobal a ha).2
  constructor
  · rw [kernelRight_iff hkind, (marked_aux h fun a ha => (hglobal a ha).1).right_iff]
    constructor
    · exact fun hall => ⟨fun i hi => (hall i hi).1.1, fun i hi => (hall i hi).2.1,
        fun i hi => (hall i hi).2.2⟩
    · -- An access in the range of an object is also one behind its start.
      refine fun haux i hi => ⟨⟨haux.hit i hi, ?_⟩, haux.read i hi, haux.write i hi⟩
      rintro ⟨a, ha, hrange⟩
      exact ⟨a, ha, h.behind_of_inRange hrange⟩
  · rw [kernelRight_iff hkind, (marked_torchAux h fun a ha => (hglobal a ha).1).right_iff]
    constructor
    · -- An access behind a start hits an object, and the access in its range, which reads or
      -- writes, is not marked.
      intro hall a ha i hi
      by_contra hstart
      obtain ⟨j, hj, hbehind⟩ := h.exists_behind hi (not_lt.1 hstart)
      obtain ⟨hhit, hread, hwrite⟩ := hall j hj
      obtain ⟨b, hb, hrange⟩ := hhit.1 ⟨a, ha, hbehind⟩
      rcases hkind b hb with hreads | hwrites
      · obtain ⟨_, -, -, hfalse⟩ := hread.2 ⟨b, hb, hrange, hreads⟩
        exact hfalse
      · obtain ⟨_, -, -, hfalse⟩ := hwrite.2 ⟨b, hb, hrange, hwrites⟩
        exact hfalse
    · intro hbelow i hi
      have hnone : ∀ a ∈ accesses, ¬(dict.startEnd i).start ≤ a.address := fun a ha =>
        not_le.2 (hbelow a ha i hi)
      refine ⟨iff_of_false ?_ ?_, iff_of_false ?_ ?_, iff_of_false ?_ ?_⟩
      · rintro ⟨a, ha, hbehind⟩
        exact hnone a ha hbehind.1
      · rintro ⟨a, ha, hrange⟩
        exact hnone a ha hrange.1
      · rintro ⟨a, ha, -, hfalse⟩
        exact hfalse
      · rintro ⟨a, ha, hrange, -⟩
        exact hnone a ha hrange.1
      · rintro ⟨a, ha, -, hfalse⟩
        exact hfalse
      · rintro ⟨a, ha, hrange, -⟩
        exact hnone a ha hrange.1

/-- The dictionary of one object of 16 bytes at 1000. -/
def oneObject : AddressDict where
  entries := [⟨⟨1000, 1016⟩, 0, 0, 0⟩]
  distinct := by decide

theorem fresh_oneObject : oneObject.Fresh := ⟨by decide, by decide, by decide⟩

/-- A read of the object is linked by the patch `aux`. -/
theorem marks_oneObject : KernelRight oneObject [⟨0, 1000, READ⟩]
      ([⟨0, 1000, READ⟩].foldl (fun dict a => (auxAccessCallback dict a).1) oneObject) ∧
    ¬KernelRight oneObject [⟨0, 1000, READ⟩]
      ([⟨0, 1000, READ⟩].foldl (fun dicts a => (torchAuxAccessCallback dicts a).1)
        (oneObject, oneObject)).1 := by
  have hglobal : ∀ a ∈ [(⟨0, 1000, READ⟩ : Access)], a.IsGlobal ∧ (a.Reads ∨ a.Writes) := by
    decide
  have hiff := @marks_iff oneObject oneObject [⟨0, 1000, READ⟩] fresh_oneObject hglobal
  refine ⟨hiff.1.2 ⟨by decide, by decide, by decide⟩, fun hright => ?_⟩
  exact absurd (hiff.2.1 hright) (by decide)

/-- An atomic on the object, which reads and writes it, is linked by neither patch. -/
theorem not_marks_atomic : ¬∀ (dict torch_dict : AddressDict) (accesses : List Access),
    dict.Fresh → (∀ a ∈ accesses, a.IsGlobal ∧ (a.Reads ∨ a.Writes)) →
      KernelRight dict accesses
        (accesses.foldl (fun dict a => (auxAccessCallback dict a).1) dict) ∧
      KernelRight dict accesses
        (accesses.foldl (fun dicts a => (torchAuxAccessCallback dicts a).1)
          (dict, torch_dict)).1 := by
  intro h
  obtain ⟨haux, -⟩ := h oneObject oneObject [⟨0, 1000, READ ||| WRITE⟩] fresh_oneObject (by decide)
  have hread := (haux.marks.read ⟨⟨1000, 1016⟩, 1, 0, 0⟩ (by decide +kernel)).2
    ⟨_, List.mem_singleton_self _, by decide, by decide⟩
  exact absurd hread (by decide)

end MemoryLiveness

end TenProf
