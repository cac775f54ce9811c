import Mathlib.Data.Finset.Card
import Mathlib.Data.Finset.Range
import TenProf.Library.Bytes
import TenProf.Operation.Memory

/-!
# `compute_memcpy_redundancy`

The two instances of `compute_memcpy_redundancy` of `operation/memcpy.cpp`, which count the bytes
that are the same at two places of the host memory. The instance `true` also copies the others.
-/

namespace TenProf

/-- `same += 1` on a `double`, which is exact up to `2^53` and has no effect from there on. -/
def doubleSucc (n : ℕ) : ℕ := if n < 2^53 then n + 1 else n

/-- `compute_memcpy_redundancy<true>`: the memory after the loop, and the count. -/
def computeMemcpyRedundancy (host : ByteMem) (dst_start src_start len : ℕ) : ByteMem × ℕ :=
  (List.range len).foldl (fun res i =>
    if res.1 (dst_start + i) = res.1 (src_start + i) then
      (res.1, doubleSucc res.2)
    else
      (Function.update res.1 (dst_start + i) (res.1 (src_start + i)), res.2)) (host, 0)

/-- The number of bytes that are the same at two places. -/
def sameBytes (host : ByteMem) (dst_start src_start len : ℕ) : ℕ :=
  ((Finset.range len).filter fun i => host (dst_start + i) = host (src_start + i)).card

variable {host : ByteMem} {dst_start src_start len : ℕ}

/-- The number of same bytes of a block one byte longer. -/
theorem sameBytes_succ : sameBytes host dst_start src_start (len + 1) =
    sameBytes host dst_start src_start len +
      if host (dst_start + len) = host (src_start + len) then 1 else 0 := by
  unfold sameBytes
  rw [Finset.range_add_one, Finset.filter_insert]
  split_ifs with h
  · rw [Finset.card_insert_of_notMem (by simp)]
  · rfl

/-- One more turn of the loop. -/
theorem computeMemcpyRedundancy_succ :
    computeMemcpyRedundancy host dst_start src_start (len + 1) =
      let res := computeMemcpyRedundancy host dst_start src_start len
      if res.1 (dst_start + len) = res.1 (src_start + len) then
        (res.1, doubleSucc res.2)
      else
        (Function.update res.1 (dst_start + len) (res.1 (src_start + len)), res.2) := by
  unfold computeMemcpyRedundancy
  rw [List.range_succ, List.foldl_append]
  rfl

/-- On two places that do not overlap, the loop copies the bytes of the one to the other, and the
count is the number of bytes that were the same, as far as a `double` counts. -/
theorem computeMemcpyRedundancy_eq
    (hdisj : dst_start + len ≤ src_start ∨ src_start + len ≤ dst_start) :
    computeMemcpyRedundancy host dst_start src_start len =
      (copyBytes host host dst_start src_start len,
        min (2^53) (sameBytes host dst_start src_start len)) := by
  induction len with
  | zero => simp [computeMemcpyRedundancy, sameBytes]
  | succ len ih =>
    -- The turns so far changed neither of the two bytes.
    have hdst : copyBytes host host dst_start src_start len (dst_start + len) =
        host (dst_start + len) := copyBytes_of_outside (by omega)
    have hsrc : copyBytes host host dst_start src_start len (src_start + len) =
        host (src_start + len) := copyBytes_of_outside (by omega)
    rw [computeMemcpyRedundancy_succ, ih (by omega), copyBytes_succ, sameBytes_succ]
    simp only [hdst, hsrc]
    split_ifs with h
    · -- The bytes are the same: writing the one over the other has no effect.
      have hsame : Function.update (copyBytes host host dst_start src_start len) (dst_start + len)
          (host (src_start + len)) = copyBytes host host dst_start src_start len := by
        rw [← h, ← hdst, Function.update_eq_self]
      rw [hsame]
      congr 1
      unfold doubleSucc
      split_ifs <;> omega
    · rfl

end TenProf
