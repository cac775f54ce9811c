import Mathlib.Algebra.Order.Ring.Nat
import Mathlib.Tactic.Ring

/-!
# Floating-point formats

A pattern of a binary floating-point format is a natural number, with the fraction in its low bits,
the exponent above them and the sign on top. `magnitude` is the absolute value that a pattern stands
for, in units of the least positive value of the format; where all exponent bits are set, which is
no finite number, it goes on as below. `truncate` clears the fraction bits after the first of them:
it composes to the shorter of two truncations, and changes nothing but the fraction, which it does
not raise.
-/

namespace TenProf

/-- A binary floating-point format. -/
structure FloatFormat where
  fraction_bits : ℕ
  exponent_bits : ℕ

namespace FloatFormat

/-- Single precision. -/
def binary32 : FloatFormat := ⟨23, 8⟩

/-- Double precision. -/
def binary64 : FloatFormat := ⟨52, 11⟩

variable (F : FloatFormat)

/-- The sign bit of a pattern. -/
def sign (x : ℕ) : ℕ := x / 2^(F.fraction_bits + F.exponent_bits)

/-- The exponent bits of a pattern. -/
def exponent (x : ℕ) : ℕ := x / 2^F.fraction_bits % 2^F.exponent_bits

/-- The fraction bits of a pattern. -/
def fraction (x : ℕ) : ℕ := x % 2^F.fraction_bits

/-- The absolute value that a pattern stands for, in units of the least positive value. -/
def magnitude (x : ℕ) : ℕ :=
  if F.exponent x = 0 then
    F.fraction x
  else
    (2^F.fraction_bits + F.fraction x) * 2^(F.exponent x - 1)

/-- The pattern that keeps the first `d` bits of the fraction. -/
def truncate (d x : ℕ) : ℕ := x / 2^(F.fraction_bits - d) * 2^(F.fraction_bits - d)

/-- Clearing some low bits and then others clears the more of them. -/
theorem clear_clear (x j k : ℕ) :
    x / 2^j * 2^j / 2^k * 2^k = x / 2^(max j k) * 2^(max j k) := by
  rcases le_total k j with h | h
  · -- The bits that are cleared second are among those that were cleared first.
    have hdvd : 2^k ∣ x / 2^j * 2^j := Dvd.dvd.mul_left (pow_dvd_pow 2 h) _
    rw [max_eq_left h, Nat.div_mul_cancel hdvd]
  · -- The second time `k - j` more bits are cleared.
    have hsplit : 2^k = 2^j * 2^(k - j) := by rw [← pow_add, Nat.add_sub_cancel' h]
    calc x / 2^j * 2^j / 2^k * 2^k
        = x / 2^j * 2^j / 2^j / 2^(k - j) * 2^k := by rw [Nat.div_div_eq_div_mul, ← hsplit]
      _ = x / 2^j / 2^(k - j) * 2^k := by rw [Nat.mul_div_cancel _ (Nat.two_pow_pos j)]
      _ = x / 2^k * 2^k := by rw [Nat.div_div_eq_div_mul, ← hsplit]
      _ = x / 2^(max j k) * 2^(max j k) := by rw [max_eq_right h]

variable {F} {d e x y : ℕ}

/-- Two truncations are the shorter one. -/
theorem truncate_truncate : F.truncate e (F.truncate d x) = F.truncate (min d e) x := by
  unfold truncate
  have hmax : max (F.fraction_bits - d) (F.fraction_bits - e) = F.fraction_bits - min d e := by
    omega
  rw [clear_clear, hmax]

/-- A truncation is no larger than the pattern. -/
theorem truncate_le : F.truncate d x ≤ x := Nat.div_mul_le_self x _

/-- What is above the fraction is kept. -/
theorem truncate_div : F.truncate d x / 2^F.fraction_bits = x / 2^F.fraction_bits := by
  set k := F.fraction_bits - d
  have hsplit : 2^F.fraction_bits = 2^k * 2^(F.fraction_bits - k) := by
    rw [← pow_add]
    congr 1
    omega
  calc x / 2^k * 2^k / 2^F.fraction_bits
      = x / 2^k * 2^k / 2^k / 2^(F.fraction_bits - k) := by rw [hsplit, Nat.div_div_eq_div_mul]
    _ = x / 2^k / 2^(F.fraction_bits - k) := by rw [Nat.mul_div_cancel _ (Nat.two_pow_pos k)]
    _ = x / 2^F.fraction_bits := by rw [Nat.div_div_eq_div_mul, ← hsplit]

/-- The sign is kept. -/
theorem sign_truncate : F.sign (F.truncate d x) = F.sign x :=
  calc F.truncate d x / 2^(F.fraction_bits + F.exponent_bits)
      = F.truncate d x / 2^F.fraction_bits / 2^F.exponent_bits := by
        rw [pow_add, Nat.div_div_eq_div_mul]
    _ = x / 2^F.fraction_bits / 2^F.exponent_bits := by rw [truncate_div]
    _ = x / 2^(F.fraction_bits + F.exponent_bits) := by rw [pow_add, Nat.div_div_eq_div_mul]

/-- The exponent is kept. -/
theorem exponent_truncate : F.exponent (F.truncate d x) = F.exponent x := by
  unfold exponent
  rw [truncate_div]

/-- The fraction does not grow. -/
theorem fraction_truncate_le : F.fraction (F.truncate d x) ≤ F.fraction x := by
  -- The pattern does not grow, and what is above the fraction is kept.
  have hle : F.truncate d x ≤ x := truncate_le
  have hdiv : F.truncate d x / 2^F.fraction_bits = x / 2^F.fraction_bits := truncate_div
  have htruncated := Nat.div_add_mod (F.truncate d x) (2^F.fraction_bits)
  have hwhole := Nat.div_add_mod x (2^F.fraction_bits)
  rw [hdiv] at htruncated
  unfold fraction
  omega

/-- Among the patterns of an exponent the magnitude grows with the fraction. -/
theorem magnitude_le (hexponent : F.exponent x = F.exponent y)
    (hfraction : F.fraction x ≤ F.fraction y) : F.magnitude x ≤ F.magnitude y := by
  unfold magnitude
  rw [hexponent]
  split
  · exact hfraction
  · exact Nat.mul_le_mul_right _ (Nat.add_le_add_left hfraction _)

/-- The magnitude does not grow. -/
theorem magnitude_truncate_le : F.magnitude (F.truncate d x) ≤ F.magnitude x :=
  magnitude_le exponent_truncate fraction_truncate_le

end FloatFormat
end TenProf
