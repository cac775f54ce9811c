import TenProf.GpuPatch.AuxTorchview
import TenProf.GpuPatch.AddressDict
import Mathlib.Data.List.Basic

/-!
# The patches that mark the accessed objects

`memory_access_callback` of `gpu-patch-aux.cu` and of `gpu-patch-torch-aux.cu`. Each access to
global memory looks for the last object that starts at its address or before, and marks it, without
a look at the object's end. Both patches are given their dictionaries (`aux` and `torch_aux` are not
null). The marks only go from 0 to 1, so that the order in which the threads make them does not
matter. A callback also returns whether its access is kept for the buffer.
-/

namespace TenProf.GpuPatch

namespace AddressDict

/-- `size`. -/
def size (dict : AddressDict) : ℕ := dict.entries.length

/-- `start_end`, as a function of the index. -/
def startEnd (dict : AddressDict) (i : ℕ) : MemoryRange :=
  (dict.entries.map AddressEntry.start_end).getD i ⟨0, 0⟩

/-- The position of the last object that starts at an address or before, `size` if none does. -/
def findPrev (dict : AddressDict) (address : ℕ) : ℕ :=
  mapPrev dict.startEnd ⟨address, 0⟩ dict.size addressComparator

/-- A change of the marks at a position changes no range. -/
theorem map_start_end_modify (entries : List AddressEntry) {f : AddressEntry → AddressEntry}
    (hf : ∀ entry, (f entry).start_end = entry.start_end) (pos : ℕ) :
    (entries.modify pos f).map AddressEntry.start_end =
      entries.map AddressEntry.start_end := by
  apply List.ext_getElem?
  intro i
  rw [List.getElem?_map, List.getElem?_map, List.getElem?_modify]
  cases entries[i]? with
  | none => rfl
  | some entry =>
    by_cases hpos : pos = i
    · simp [hpos, hf]
    · simp [hpos]

/-- A change of the marks at a position. -/
def modify (dict : AddressDict) (pos : ℕ) (f : AddressEntry → AddressEntry)
    (hf : ∀ entry, (f entry).start_end = entry.start_end) : AddressDict where
  entries := dict.entries.modify pos f
  distinct := by
    have hsame := congrArg (List.map MemoryRange.start)
      (map_start_end_modify dict.entries hf pos)
    rw [List.map_map, List.map_map] at hsame
    exact hsame ▸ dict.distinct

end AddressDict

namespace AddressEntry

/-- The first access to an object is a hit. -/
def markHit (entry : AddressEntry) : AddressEntry :=
  if entry.hit = 0 then { entry with hit := 1 } else entry

/-- The test for a read. -/
def markRead (flags : ℕ) (entry : AddressEntry) : AddressEntry :=
  if entry.read = 0 ∧ flags = READ then { entry with read := 1 } else entry

/-- The test for a write. -/
def markWrite (flags : ℕ) (entry : AddressEntry) : AddressEntry :=
  if entry.write = 0 ∧ flags = WRITE then { entry with write := 1 } else entry

/-- What the patch `aux` does with the marks of an object. -/
def markAccess (flags : ℕ) (entry : AddressEntry) : AddressEntry :=
  ((entry.markHit).markRead flags).markWrite flags

@[simp] theorem start_end_markHit (entry : AddressEntry) :
    entry.markHit.start_end = entry.start_end := by
  unfold markHit
  split_ifs <;> rfl

@[simp] theorem start_end_markAccess (flags : ℕ) (entry : AddressEntry) :
    (entry.markAccess flags).start_end = entry.start_end := by
  unfold markAccess markWrite markRead
  split_ifs <;> exact start_end_markHit entry

end AddressEntry

/-- An access to neither shared nor local memory. -/
def Access.IsGlobal (a : Access) : Prop := a.flags &&& (SHARED ||| LOCAL) = 0

instance (a : Access) : Decidable a.IsGlobal := inferInstanceAs (Decidable (_ = _))

/-- An access is kept if its object was not hit before. -/
def AddressDict.isFirst (dict : AddressDict) (address : ℕ) : Bool :=
  (dict.entries[dict.findPrev address]?).all fun entry => entry.hit = 0

/-- The marks at an address, when an object starts there or before. -/
def AddressDict.mark (dict : AddressDict) (address : ℕ) (f : AddressEntry → AddressEntry)
    (hf : ∀ entry, (f entry).start_end = entry.start_end) : AddressDict :=
  let pos := dict.findPrev address
  if pos ≠ dict.size then dict.modify pos f hf else dict

/-- `memory_access_callback` of `gpu-patch-aux.cu`. -/
def auxAccessCallback (dict : AddressDict) (a : Access) : AddressDict × Bool :=
  if a.IsGlobal then
    (dict.mark a.address (AddressEntry.markAccess a.flags)
      (AddressEntry.start_end_markAccess a.flags), dict.isFirst a.address)
  else (dict, true)

/-- `memory_access_callback` of `gpu-patch-torch-aux.cu`, on the two dictionaries. -/
def torchAuxAccessCallback (dicts : AddressDict × AddressDict) (a : Access) :
    (AddressDict × AddressDict) × Bool :=
  let hit := fun dict : AddressDict =>
    dict.mark a.address AddressEntry.markHit AddressEntry.start_end_markHit
  if a.IsGlobal then
    ((hit dicts.1, hit dicts.2), dicts.1.isFirst a.address && dicts.2.isFirst a.address)
  else (dicts, true)

/-! ## What a list of accesses marks -/

section

variable {dict : AddressDict} {f : Access → AddressEntry → AddressEntry}

/-- Marks leave the ranges, and with them the positions that later accesses find. -/
theorem AddressDict.findPrev_mark (dict : AddressDict) (address : ℕ)
    {g : AddressEntry → AddressEntry} (hg : ∀ entry, (g entry).start_end = entry.start_end) :
    (dict.mark address g hg).findPrev = dict.findPrev := by
  unfold mark
  simp only
  split_ifs
  · have hranges := map_start_end_modify dict.entries hg (dict.findPrev address)
    have hstart : (dict.modify (dict.findPrev address) g hg).startEnd = dict.startEnd :=
      funext fun i => congrArg (fun ranges => ranges.getD i ⟨0, 0⟩) hranges
    have hsize : (dict.modify (dict.findPrev address) g hg).size = dict.size :=
      List.length_modify g dict.entries _
    generalize dict.modify (dict.findPrev address) g hg = marked at hstart hsize
    funext address'
    rw [findPrev, findPrev, hstart, hsize]
  · rfl

/-- The element at an index after the marks at an address. -/
theorem AddressDict.getElem?_mark (dict : AddressDict) (address i : ℕ)
    {g : AddressEntry → AddressEntry} (hg : ∀ entry, (g entry).start_end = entry.start_end) :
    (dict.mark address g hg).entries[i]? =
      dict.entries[i]?.map fun entry => if dict.findPrev address = i then g entry else entry := by
  unfold mark
  by_cases hpos : dict.findPrev address ≠ dict.size
  · rw [if_pos hpos]
    exact List.getElem?_modify g _ _ _
  · -- No object is marked, and no object stands at the position `size`.
    rw [if_neg hpos]
    cases hentry : dict.entries[i]? with
    | none => rfl
    | some entry =>
      have hlt : i < dict.size := (List.getElem?_eq_some_iff.1 hentry).1
      rw [Option.map_some, if_neg (by omega)]

/-- The accesses of a list that mark the object at a position. -/
def AddressDict.landing (dict : AddressDict) (accesses : List Access) (i : ℕ) : List Access :=
  accesses.filter fun a => a.IsGlobal ∧ dict.findPrev a.address = i

/-- Each object has the marks of the accesses that land at it, one after the other. -/
theorem AddressDict.getElem?_foldl {step : AddressDict → Access → AddressDict}
    (hf : ∀ a entry, (f a entry).start_end = entry.start_end)
    (hstep : ∀ dict a, step dict a = if a.IsGlobal then dict.mark a.address (f a) (hf a) else dict)
    (accesses : List Access) (dict : AddressDict) (i : ℕ) :
    (accesses.foldl step dict).entries[i]? =
      dict.entries[i]?.map fun entry =>
        (dict.landing accesses i).foldl (fun entry a => f a entry) entry := by
  induction accesses generalizing dict with
  | nil =>
    unfold landing
    simp
  | cons a accesses ih =>
    have hfind : (step dict a).findPrev = dict.findPrev := by
      rw [hstep]
      split_ifs
      · exact findPrev_mark dict a.address (hf a)
      · rfl
    have hland : (step dict a).landing accesses i = dict.landing accesses i := by
      unfold landing
      rw [hfind]
    have hfirst : (step dict a).entries[i]? = dict.entries[i]?.map fun entry =>
        if a.IsGlobal ∧ dict.findPrev a.address = i then f a entry else entry := by
      rw [hstep]
      by_cases hglobal : a.IsGlobal
      · simp only [hglobal, if_true, true_and]
        exact getElem?_mark dict a.address i (hf a)
      · simp [hglobal]
    rw [List.foldl_cons, ih, hland, hfirst, Option.map_map]
    refine congrArg (fun g => dict.entries[i]?.map g) (funext fun entry => ?_)
    unfold landing
    by_cases hlands : a.IsGlobal ∧ dict.findPrev a.address = i
    · simp [hlands]
    · rw [List.filter_cons_of_neg (by simpa using hlands), Function.comp_apply, if_neg hlands]

end

end TenProf.GpuPatch
