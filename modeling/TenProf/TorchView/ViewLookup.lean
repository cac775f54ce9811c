import TenProf.TorchView.PcRangeMap

/-!
# Which view an access is credited with

`memory_access_callback` is meant to set, in the row of an access's instruction, the bit of a view
range that contains its address. It looks at one range only, the last one that starts at or before
the address, and its mask is a 32-bit shift. `lookupSets_iff` says when the row has the bit of a
range that contains the address after the access: when it had one before, or when the range that is
looked at contains the address and its position in its column is below 32. Ranges may overlap, so
another range, which starts earlier and ends later, may contain the address when that one does not.
-/

namespace TenProf.TorchView

open GpuPatch

/-- A range of the dictionary contains an address. -/
def ContainsAt (dict : TorchviewDict) (p address : ℕ) : Prop :=
  p < dict.view_range_size ∧ (dict.start_end p).start ≤ address ∧ address < (dict.start_end p).stop

/-- The bit of a range in the row of an instruction. -/
def RowBit (dict : TorchviewDict) (bit_map : ℕ → BitVec 64) (pc p : ℕ) : Prop :=
  (bit_map (wordOf dict pc p)).getLsbD (p % 64) = true

/-- The row of an access's instruction has the bit of a range that contains the address. -/
def HasContaining (dict : TorchviewDict) (a : Access) : Prop :=
  ∃ p, ContainsAt dict p a.address ∧ RowBit dict (bitMapOf a.flags dict) a.pc p

/-- The last range that starts at or before an address contains it, and its position in its column
is below 32. -/
def LastContains (dict : TorchviewDict) (address : ℕ) : Prop :=
  ∃ p, ContainsAt dict p address ∧ p % 64 < 32 ∧
    ∀ j < dict.view_range_size, p < j → address < (dict.start_end j).start

/-- The ranges of a dictionary are sorted by their starts. -/
def SortedStarts (dict : TorchviewDict) : Prop :=
  ∀ i j, i ≤ j → j < dict.view_range_size → (dict.start_end i).start ≤ (dict.start_end j).start

variable {dict : TorchviewDict}

/-- Among sorted ranges, the one that the callback finds is the last one that starts at or before
the address, if that contains it. -/
theorem findRange_eq_some_iff (hsorted : SortedStarts dict) {address p : ℕ} :
    dict.findRange address = some p ↔ ContainsAt dict p address ∧
      ∀ j < dict.view_range_size, p < j → address < (dict.start_end j).start := by
  have hmono : ∀ i j, i ≤ j → j < dict.view_range_size →
      addressComparator (dict.start_end j) ⟨address, 0⟩ →
        addressComparator (dict.start_end i) ⟨address, 0⟩ := by
    intro i j hij hj hcmp
    unfold addressComparator at hcmp ⊢
    simp only [decide_eq_true_eq] at hcmp ⊢
    exact (hsorted i j hij hj).trans hcmp
  have hlast : ∀ p < dict.view_range_size,
      (mapPrev dict.start_end ⟨address, 0⟩ dict.view_range_size addressComparator = p ↔
        (dict.start_end p).start ≤ address ∧
          ∀ j < dict.view_range_size, p < j → address < (dict.start_end j).start) := by
    intro p hp
    rw [mapPrev_eq_iff hmono hp]
    simp [addressComparator]
  unfold TorchviewDict.findRange ContainsAt
  simp only [Option.ite_none_right_eq_some, Option.some.injEq]
  constructor
  · rintro ⟨⟨hne, hstop⟩, rfl⟩
    have hlt := lt_of_le_of_ne (mapPrev_le dict.start_end ⟨address, 0⟩ dict.view_range_size
      addressComparator) hne
    obtain ⟨hstart, hafter⟩ := (hlast _ hlt).1 rfl
    exact ⟨⟨hlt, hstart, hstop⟩, hafter⟩
  · rintro ⟨⟨hlt, hstart, hstop⟩, hafter⟩
    have heq := (hlast p hlt).2 ⟨hstart, hafter⟩
    rw [heq]
    exact ⟨⟨hlt.ne, hstop⟩, rfl⟩

/-- A position below 32 of its column has its own bit in its mask, and any other position has none
in it. -/
theorem bitMask_bit (p k : ℕ) (hk : k < 64) (h : (bitMask p).getLsbD k = true) : p % 64 < 32 := by
  rw [getLsbD_bitMask p k hk, decide_eq_true_eq] at h
  omega

/-- After a read or a write, the row of its instruction has the bit of a range that contains the
address if and only if it had one before, or the last range that starts at or before the address
contains it and has a position below 32 in its column. -/
theorem lookupSets_iff (hsorted : SortedStarts dict) (a : Access)
    (ha : a.flags = READ ∨ a.flags = WRITE) :
    HasContaining (memoryAccessCallback dict a) a ↔
      HasContaining dict a ∨ LastContains dict a.address := by
  obtain ⟨hoff, hsize, hranges⟩ := memoryAccessCallback_frame dict a
  have hword : ∀ p, wordOf (memoryAccessCallback dict a) a.pc p = wordOf dict a.pc p := by
    intro p
    simp only [wordOf, hoff, hsize]
  -- A bit of the row was set before, or the range that is found has it in its mask.
  have hbit : ∀ p, RowBit (memoryAccessCallback dict a)
      (bitMapOf a.flags (memoryAccessCallback dict a)) a.pc p ↔
      RowBit dict (bitMapOf a.flags dict) a.pc p ∨ ∃ pos, dict.findRange a.address = some pos ∧
        wordOf dict a.pc pos = wordOf dict a.pc p ∧ (bitMask pos).getLsbD (p % 64) = true := by
    intro p
    have hfold := @getLsbD_bitMapOf_foldl dict a.flags ha [a] (by simpa using ha)
      (wordOf dict a.pc p) (p % 64)
    simp only [List.foldl_cons, List.foldl_nil, List.mem_singleton, exists_eq_left,
      true_and] at hfold
    unfold RowBit
    rw [hword, hfold]
  unfold HasContaining
  simp only [hbit, ContainsAt, hsize, hranges]
  constructor
  · rintro ⟨p, hp, hset | ⟨pos, hpos, -, hmask⟩⟩
    · exact Or.inl ⟨p, hp, hset⟩
    · -- The mask has a bit, so its position is below 32.
      obtain ⟨hin, hafter⟩ := (findRange_eq_some_iff hsorted).1 hpos
      exact Or.inr ⟨pos, hin, bitMask_bit pos _ (Nat.mod_lt _ (by norm_num)) hmask, hafter⟩
  · rintro (⟨p, hp, hset⟩ | ⟨p, hp, h32, hafter⟩)
    · exact ⟨p, hp, Or.inl hset⟩
    · refine ⟨p, hp, Or.inr ⟨p, (findRange_eq_some_iff hsorted).2 ⟨hp, hafter⟩, rfl, ?_⟩⟩
      rw [getLsbD_bitMask p _ (Nat.mod_lt _ (by norm_num)), decide_eq_true_eq]
      omega

/-- The 33 ranges of the dictionary are sorted. -/
theorem sortedStarts_dict33 : SortedStarts dict33 := by
  intro i j hij hj
  show 16 * i ≤ 16 * j
  omega

/-- A read of the first of the 33 ranges sets its bit. -/
theorem lookupSets_dict33 : HasContaining (memoryAccessCallback dict33 ⟨0, 4, READ⟩) ⟨0, 4, READ⟩ :=
  (lookupSets_iff sortedStarts_dict33 ⟨0, 4, READ⟩ (Or.inl rfl)).2 <| Or.inr
    ⟨0, ⟨by decide, by decide, by decide⟩, by decide, fun j _ hj => by
      show 4 < 16 * j
      omega⟩

/-- A read of the last of the 33 ranges sets no bit. -/
theorem not_lookupSets_dict33 : ¬∀ (dict : TorchviewDict) (a : Access), SortedStarts dict →
    (∀ p < dict.view_range_size, (dict.start_end p).start < (dict.start_end p).stop) →
    Mapped dict a → (∃ p, ContainsAt dict p a.address) →
    HasContaining (memoryAccessCallback dict a) a := by
  intro h
  have hmapped : Mapped dict33 ⟨0, 516, READ⟩ :=
    ⟨Or.inl rfl, ⟨0, by decide, rfl⟩, by norm_num⟩
  obtain ⟨p, hp, hset⟩ := h dict33 ⟨0, 516, READ⟩ sortedStarts_dict33
    (fun p _ => by show 16 * p < 16 * p + 8; omega) hmapped
    ⟨32, by decide, by decide, by decide⟩
  -- All words of the bitmap are still zero.
  have hzero : ∀ w, (memoryAccessCallback dict33 ⟨0, 516, READ⟩).read_pc_range_bit_map w = 0 := by
    intro w
    have hfind : dict33.findRange 516 = some 32 := by decide +kernel
    have hmask : bitMask 32 = 0 := by decide
    unfold memoryAccessCallback
    rw [if_pos (by decide)]
    simp only [hfind, if_true, setBits, hmask]
    rcases eq_or_ne w (wordOf dict33 0 32) with rfl | hne
    · exact Function.update_self _ _ _
    · exact Function.update_of_ne hne _ _
  unfold RowBit bitMapOf at hset
  rw [if_pos rfl, hzero] at hset
  exact absurd hset (by simp)

end TenProf.TorchView
