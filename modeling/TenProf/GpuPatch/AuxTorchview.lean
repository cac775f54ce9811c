import TenProf.Words
import TenProf.Operation.Memory
import TenProf.GpuPatch.Search
import Mathlib.Logic.Function.Basic

/-!
# The on-GPU torch-view patch

`memory_access_callback` of `gpu-patch-aux-torchview.cu`. Each global access looks its address up
among the view ranges of the dictionary and, on a hit, sets a bit in the row of its instruction: the
word at column `pos / 64`, or-ed with `1 << (pos % 64)`. That shift is an `int` shift, which the
device performs in a 32-bit register, so a count of 32 or more gives `0`, and the result is
sign-extended to the 64-bit mask (`bitMask`).
-/

namespace TenProf.GpuPatch

/-- `GPU_PATCH_READ`. -/
def READ : ℕ := 0x1

/-- `GPU_PATCH_WRITE`. -/
def WRITE : ℕ := 0x2

/-- `GPU_PATCH_LOCAL`. -/
def LOCAL : ℕ := 0x8

/-- `GPU_PATCH_SHARED`. -/
def SHARED : ℕ := 0x10

/-- `gpu_patch_aux_torchview_dict_t`. The arrays are functions of the index. -/
structure TorchviewDict where
  function_pc_offset : ℕ
  view_range_size : ℕ
  start_end : ℕ → MemoryRange
  current_read_pc_size : ℕ
  current_write_pc_size : ℕ
  read_pc_range_bit_map : ℕ → BitVec 64
  write_pc_range_bit_map : ℕ → BitVec 64

/-- One call of the patch: the instruction, the address, and the access flags. -/
structure Access where
  pc : ℕ
  address : ℕ
  flags : ℕ

/-- `gpu_patch_analysis_address_comparator`. -/
def addressComparator (l r : MemoryRange) : Bool := l.start ≤ r.start

/-- The position at which the callback finds an address inside a view range. -/
def TorchviewDict.findRange (dict : TorchviewDict) (address : ℕ) : Option ℕ :=
  let pos := mapPrev dict.start_end ⟨address, 0⟩ dict.view_range_size addressComparator
  if pos ≠ dict.view_range_size ∧ address < (dict.start_end pos).stop then some pos else none

/-- `uint64_t bit_mask = 1 << (pos % 64)`. -/
def bitMask (pos : ℕ) : BitVec 64 := (1#32 <<< (pos % 64)).signExtend 64

/-- The bitmap with `mask` or-ed into the word of an instruction's row and a range's column. -/
def setBits (dict : TorchviewDict) (bit_map : ℕ → BitVec 64) (pc pos : ℕ) : ℕ → BitVec 64 :=
  let byte_offset := pos / 64
  let range_columns := dict.view_range_size / 64
  let local_pc_offset := subU64 pc dict.function_pc_offset / 8
  let word := local_pc_offset * (range_columns + 2) + byte_offset
  Function.update bit_map word (bit_map word ||| bitMask pos)

/-- `memory_access_callback`. -/
def memoryAccessCallback (dict : TorchviewDict) (a : Access) : TorchviewDict :=
  if a.flags &&& (SHARED ||| LOCAL) = 0 then
    match dict.findRange a.address with
    | some pos =>
      if a.flags = READ then
        { dict with read_pc_range_bit_map := setBits dict dict.read_pc_range_bit_map a.pc pos }
      else if a.flags = WRITE then
        { dict with write_pc_range_bit_map := setBits dict dict.write_pc_range_bit_map a.pc pos }
      else dict
    | none => dict
  else dict

/-- A position that the callback finds is one of the dictionary's. -/
theorem TorchviewDict.findRange_lt {dict : TorchviewDict} {address pos : ℕ}
    (h : dict.findRange address = some pos) : pos < dict.view_range_size := by
  simp only [findRange, Option.ite_none_right_eq_some, Option.some.injEq] at h
  obtain ⟨⟨hne, -⟩, rfl⟩ := h
  exact lt_of_le_of_ne (mapPrev_le _ _ _ _) hne

/-- The bits of the mask. Below 31 it is the one bit of the position, at 31 the sign extension
sets every bit from 31 on, and above 31 no bit is set. -/
theorem getLsbD_bitMask (pos k : ℕ) (hk : k < 64) :
    (bitMask pos).getLsbD k = decide (k = pos % 64 ∧ pos % 64 < 31 ∨ pos % 64 = 31 ∧ 31 ≤ k) := by
  unfold bitMask
  generalize pos % 64 = j
  rw [BitVec.getLsbD_signExtend, BitVec.msb_eq_getLsbD_last, Bool.eq_iff_iff]
  -- Below 32 the bit is that of the shift, and from 32 on it is the sign of the 32-bit result.
  rcases Nat.lt_or_ge k 32 with hk' | hk'
  · simp only [hk, hk', BitVec.getLsbD_shiftLeft, BitVec.getLsbD_one, if_true, Bool.and_eq_true,
      Bool.not_eq_true', decide_eq_true_eq, decide_eq_false_iff_not, true_and]
    omega
  · simp only [hk, hk'.not_gt, BitVec.getLsbD_shiftLeft, BitVec.getLsbD_one, if_false,
      Bool.and_eq_true, Bool.not_eq_true', decide_eq_true_eq, decide_eq_false_iff_not,
      true_and]
    omega

end TenProf.GpuPatch
