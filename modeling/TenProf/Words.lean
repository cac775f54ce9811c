import Mathlib.Tactic.NormNum
import Mathlib.Tactic.Ring
import Mathlib.Data.Int.Basic

/-!
# 64-bit words

A `u64` of the source is a natural number below `2^64`. `u64` reduces the result of an addition or
a multiplication, `subU64` is the wrapping subtraction, and `u64OfInt` is the conversion from a
signed type. `u32` and `subU32` are the same for words of 32 bits. An `int` is an integer from
`-2^31` up to `2^31`, and `i32` is the conversion to it.
-/

namespace TenProf

/-- The 64-bit word of a natural number. -/
def u64 (n : ℕ) : ℕ := n % 2^64

/-- Wrapping subtraction of words. -/
def subU64 (a b : ℕ) : ℕ := (a + 2^64 - b) % 2^64

/-- The 32-bit word of a natural number. -/
def u32 (n : ℕ) : ℕ := n % 2^32

/-- Wrapping subtraction of 32-bit words. -/
def subU32 (a b : ℕ) : ℕ := (a + 2^32 - b) % 2^32

/-- The conversion of a signed 64-bit number to an unsigned one. -/
def u64OfInt (z : ℤ) : ℕ := (z % 2^64).toNat

/-- The conversion to `int`. -/
def i32 (z : ℤ) : ℤ := (z + 2^31) % 2^32 - 2^31

/-- An `int` that is counted up by one, which has no result where it overflows. -/
def intSucc (z : ℤ) : Option ℤ := if z + 1 < 2^31 then some (z + 1) else none

/-- A number below `2^64` is its own word. -/
theorem u64_of_lt {n : ℕ} (h : n < 2^64) : u64 n = n := Nat.mod_eq_of_lt h

/-- A number below `2^32` is its own word. -/
theorem u32_of_lt {n : ℕ} (h : n < 2^32) : u32 n = n := Nat.mod_eq_of_lt h

/-- A word is not above its number. -/
theorem u32_le (n : ℕ) : u32 n ≤ n := Nat.mod_le n (2^32)

/-- Only the numbers below `2^32` are their own words. -/
theorem u32_eq_self_iff {n : ℕ} : u32 n = n ↔ n < 2^32 := Nat.mod_eq_iff_lt (by decide)

/-- The word of a number is increased as the number is. -/
theorem u32_u32_add_one (n : ℕ) : u32 (u32 n + 1) = u32 (n + 1) := by
  unfold u32
  omega

/-- The word of a successor is decreased to the word of the number. -/
theorem subU32_u32_succ (n : ℕ) : subU32 (u32 (n + 1)) 1 = u32 n := by
  unfold subU32 u32
  omega

/-- A word that is increased and then decreased by one is what it was. -/
theorem subU32_u32_add_one {n : ℕ} (h : n < 2^32) : subU32 (u32 (n + 1)) 1 = n :=
  (subU32_u32_succ n).trans (u32_of_lt h)

/-- Subtraction of a smaller word does not wrap. -/
theorem subU64_of_le {a b : ℕ} (ha : a < 2^64) (h : b ≤ a) : subU64 a b = a - b := by
  unfold subU64
  omega

/-- Subtraction of a larger word wraps to the complement of the distance. -/
theorem subU64_of_lt {a b : ℕ} (hb : b < 2^64) (h : a < b) : subU64 a b = 2^64 - (b - a) := by
  unfold subU64
  omega

/-- Adding after the conversion to `int` is adding before it. -/
theorem i32_i32_add (y z : ℤ) : i32 (i32 y + z) = i32 (y + z) := by
  unfold i32
  omega

/-- The conversion to `int` and back to a 64-bit word keeps exactly the numbers below `2^31`, among
those below `2^63`. -/
theorem u64OfInt_i32_eq_iff {n m : ℕ} (hm : m < 2^63) (h : n < 2^31 ∨ m < 2^31 → n = m) :
    u64OfInt (i32 n) = m ↔ m < 2^31 := by
  unfold u64OfInt i32
  constructor
  · intro heq
    omega
  · intro hlt
    have := h (.inr hlt)
    omega

end TenProf
