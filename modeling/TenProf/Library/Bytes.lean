import Mathlib.Algebra.BigOperators.Group.List.Basic
import Mathlib.Data.List.Range
import Mathlib.Data.Nat.Notation
import Mathlib.Logic.Function.Basic
import Mathlib.Tactic.Common
import Mathlib.Tactic.Ring

/-!
# Byte-addressed memory

A memory is a function from addresses to bytes, and `copyBytes` writes a block of one memory to a
place of another. `littleEndian` is the number that some bytes stand for.
-/

namespace TenProf

/-- A byte-addressed memory. -/
abbrev ByteMem := ℕ → UInt8

/-- The memory `mem` with `len` bytes at `dst` that are those at `src` of the memory `from_mem`. -/
def copyBytes (mem from_mem : ByteMem) (dst src len : ℕ) : ByteMem := fun a =>
  if dst ≤ a ∧ a < dst + len then from_mem (src + (a - dst)) else mem a

variable {mem from_mem : ByteMem} {dst src len : ℕ}

/-- A byte of the block written. -/
theorem copyBytes_add {i : ℕ} (h : i < len) :
    copyBytes mem from_mem dst src len (dst + i) = from_mem (src + i) := by
  unfold copyBytes
  rw [if_pos (by omega), Nat.add_sub_cancel_left]

/-- A byte outside of the block written. -/
theorem copyBytes_of_outside {a : ℕ} (h : a < dst ∨ dst + len ≤ a) :
    copyBytes mem from_mem dst src len a = mem a := by
  unfold copyBytes
  rw [if_neg (by omega)]

@[simp] theorem copyBytes_zero : copyBytes mem from_mem dst src 0 = mem := by
  funext a
  exact copyBytes_of_outside (by omega)

/-- A block one byte longer has that byte written last. -/
theorem copyBytes_succ : copyBytes mem from_mem dst src (len + 1) =
    Function.update (copyBytes mem from_mem dst src len) (dst + len) (from_mem (src + len)) := by
  funext a
  rw [Function.update_apply]
  split_ifs with h
  · rw [h, copyBytes_add (Nat.lt_succ_self len)]
  · unfold copyBytes
    congr 1
    exact propext ⟨fun ha => by omega, fun ha => by omega⟩

/-- The number of the first `n` bytes, the lowest one first. -/
def littleEndian (byte : ℕ → UInt8) (n : ℕ) : ℕ :=
  ((List.range n).map fun i => (byte i).toNat * 256^i).sum

/-- One more byte is the highest one. -/
theorem littleEndian_succ (byte : ℕ → UInt8) (n : ℕ) :
    littleEndian byte (n + 1) = littleEndian byte n + (byte n).toNat * 256^n := by
  unfold littleEndian
  rw [List.range_succ, List.map_append, List.sum_append, List.map_singleton, List.sum_singleton]

/-- The number of some bytes is below the number of their values. -/
theorem littleEndian_lt (byte : ℕ → UInt8) (n : ℕ) : littleEndian byte n < 256^n := by
  induction n with
  | zero => exact Nat.one_pos
  | succ n ih =>
    have hbyte : (byte n).toNat * 256^n ≤ 255 * 256^n :=
      Nat.mul_le_mul_right _ (Nat.le_of_lt_succ (byte n).toNat_lt)
    rw [littleEndian_succ, pow_succ]
    omega

/-- The number depends on its bytes only. -/
theorem littleEndian_congr {byte byte' : ℕ → UInt8} {n : ℕ} (h : ∀ i < n, byte i = byte' i) :
    littleEndian byte n = littleEndian byte' n := by
  unfold littleEndian
  exact congrArg List.sum (List.map_congr_left fun i hi => by rw [h i (List.mem_range.1 hi)])

end TenProf
