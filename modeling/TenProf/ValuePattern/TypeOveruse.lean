import TenProf.Binutils.Instruction
import TenProf.Library.NestedMap
import TenProf.Words
import Mathlib.Data.Fin.VecNotation
import Mathlib.Data.Nat.Bitwise

/-!
# The type overuse of an array

`dense_value_pattern` reports for an array of integers how narrow a type would do: one with a sign,
one without, and one for values that are shifted by their trailing zeros. For each value
`get_redundant_zeros_bits` counts the zeros at both ends, and `check_zeros_bits` looks the smallest
count up in a table. The leading zeros of a type with a sign are counted behind the sign bit,
whatever this bit is, so that a negative value counts as one without its sign. The mask of the count
is shifted as an `unsigned int`. For values of 64 bits the count of the shift is too large for that;
the behaviour is that of processors that take it modulo 32, where the mask is the one of the lower
half. `denseValuePattern_sound_iff` says exactly when the types are wide enough.
-/

namespace TenProf.ValuePattern

open Binutils

/-- The loop over the leading bits, `i` of which are left: `i` at its end. -/
def leadingLoop (flag : ℕ) : ℕ → ℕ → ℤ
  | 0, _ => -1
  | i + 1, a => if a &&& flag ≠ 0 then i else leadingLoop flag i (u64 (a <<< 1))

/-- The loop over the trailing bits, from the `j`-th on: `j` at its end. -/
def tailLoop : ℕ → ℕ → ℕ → ℕ
  | 0, j, _ => j
  | left + 1, j, b => if b &&& 1 ≠ 0 then j else tailLoop left (j + 1) (b >>> 1)

/-- The counts of redundant bits: for a type with a sign, for one without, and at the end. -/
structure RedundantBits where
  leading_signed : ℤ
  leading_unsigned : ℤ
  tail : ℤ
  deriving DecidableEq, Repr

/-- `get_redundant_zeros_bits`. -/
def getRedundantZerosBits (a unit_size : ℕ) : RedundantBits :=
  let flag := u32 (1 <<< ((unit_size - 1) % 32))
  let sign_bit := (a >>> (unit_size - 1)) &&& 1
  let i := leadingLoop flag unit_size (u64 (a <<< 1))
  { leading_signed := unit_size - 1 - i
    leading_unsigned := if sign_bit ≠ 0 then 0 else unit_size - i
    tail := tailLoop unit_size 0 a }

/-- `power2`. -/
def power2 : Fin 4 → ℤ := ![0, 1, 2, 4]

/-- `valid_int_bits`. -/
def validIntBits : Fin 4 → ℕ := ![8, 16, 32, 64]

/-- `check_zeros_bits`. There is no result where the loop ends behind the last entry, since the
table is read at `-1` then. -/
def checkZerosBits (zeros_bits full : ℤ) : Option ℕ :=
  if zeros_bits = full then some 8
  else
    (([3, 2, 1, 0] : List (Fin 4)).find? fun i =>
      0 < full - 8 * power2 i ∧ zeros_bits < full - 8 * power2 i).map validIntBits

/-- `narrow_down_to_unit_size`. -/
structure NarrowSizes where
  signed : ℕ
  unsigned : ℕ
  tail : ℕ
  deriving DecidableEq, Repr

/-- `detect_type_overuse`. -/
def detectTypeOveruse (redundant_zero_bits : RedundantBits) (unit_size : ℕ) : Option NarrowSizes :=
  if unit_size = 64 ∨ unit_size = 32 ∨ unit_size = 16 then
    (checkZerosBits redundant_zero_bits.leading_signed unit_size).bind fun signed =>
      (checkZerosBits redundant_zero_bits.leading_unsigned unit_size).bind fun unsigned =>
        (checkZerosBits redundant_zero_bits.tail unit_size).map fun tail => ⟨signed, unsigned, tail⟩
  else some ⟨unit_size, unit_size, unit_size⟩

/-- The values of the items of an array, with their counts: `ItemsValueCount`. -/
abbrev ItemsValueCount := NestedMap ℕ ℕ ℕ

/-- The smaller counts. -/
def RedundantBits.min (bits bits' : RedundantBits) : RedundantBits :=
  ⟨Min.min bits.leading_signed bits'.leading_signed,
    Min.min bits.leading_unsigned bits'.leading_unsigned, Min.min bits.tail bits'.tail⟩

/-- The loop of `dense_value_pattern` over the items, for integers. -/
def redundantZeroBits (array_items : ItemsValueCount) (unit_size : ℕ) : RedundantBits :=
  array_items.toList.foldl (fun redundant_zero_bits item =>
    item.2.toList.foldl (fun redundant_zero_bits temp_value =>
      redundant_zero_bits.min (getRedundantZerosBits temp_value.1 unit_size)) redundant_zero_bits)
    ⟨unit_size, unit_size, unit_size⟩

/-- `dense_value_pattern`, as far as it reports the sizes: for an array of integers, unless its
memory has no length. There is no result where `check_zeros_bits` has none. -/
def denseValuePattern (access_kind : AccessKind) (memory_size : ℕ) (array_items : ItemsValueCount) :
    Option (Option NarrowSizes) :=
  -- special memory array
  if memory_size = 0 then some none
  else if access_kind.data_type = .INT then
    (detectTypeOveruse (redundantZeroBits array_items access_kind.unit_size)
      access_kind.unit_size).map some
  else some none

/-- The values of an array. -/
def valuesOf (array_items : ItemsValueCount) : List ℕ :=
  array_items.toList.flatMap fun item => item.2.toList.map Prod.fst

/-- A word of some bits as a number with a sign. -/
def signedValue (bits v : ℕ) : ℤ := if v < 2^(bits - 1) then v else v - 2^bits

/-- The sizes are wide enough for the values, and among those of the integer types. -/
structure SizesSound (unit_size : ℕ) (values : List ℕ) (sizes : NarrowSizes) : Prop where
  signed : ∀ v ∈ values, signedValue unit_size v = signedValue sizes.signed (v % 2^sizes.signed)
  unsigned : ∀ v ∈ values, v < 2^sizes.unsigned
  tail : ∀ v ∈ values, 2^(unit_size - sizes.tail) ∣ v
  mem : ∀ size ∈ [sizes.signed, sizes.unsigned, sizes.tail], size ∈ [8, 16, 32, 64]

/-! ## The counts of a value -/

/-- A bit of a word that is shifted by one. -/
theorem testBit_u64_shiftLeft_one {a i : ℕ} (hi : i < 64) :
    (u64 (a <<< 1)).testBit i = (decide (1 ≤ i) && a.testBit (i - 1)) := by
  unfold u64
  rw [Nat.testBit_mod_two_pow, Nat.testBit_shiftLeft]
  simp [hi]

/-- The loop over the leading bits passes as many bits as are zero. -/
theorem le_leadingLoop_iff {f k a c : ℕ} (hc : c ≤ k) (hf : f < 64) :
    (c : ℤ) ≤ k - 1 - leadingLoop (2^f) k a ↔ ∀ j < c, j ≤ f → a.testBit (f - j) = false := by
  induction k generalizing a c with
  | zero =>
    obtain rfl : c = 0 := by omega
    simp [leadingLoop]
  | succ k ih =>
    have hflag : a &&& 2^f ≠ 0 ↔ a.testBit f = true := by
      rw [Nat.and_two_pow]
      cases a.testBit f <;> simp
    unfold leadingLoop
    by_cases hbit : a.testBit f = true
    · -- The loop ends at once.
      rw [if_pos (hflag.2 hbit)]
      constructor
      · intro hle j hj
        push_cast at hle
        omega
      · intro h
        by_contra hlt
        push_cast at hlt
        have hfirst := h 0 (by omega) (Nat.zero_le f)
        rw [Nat.sub_zero, hbit] at hfirst
        cases hfirst
    · rw [if_neg (mt hflag.1 hbit)]
      cases c with
      | zero =>
        have hnonneg := (ih (a := u64 (a <<< 1)) (Nat.zero_le k)).2 fun j hj => absurd hj (by omega)
        refine iff_of_true ?_ fun j hj => absurd hj (by omega)
        push_cast at hnonneg ⊢
        omega
      | succ c =>
        have hrest := ih (a := u64 (a <<< 1)) (c := c) (by omega)
        generalize leadingLoop (2^f) k (u64 (a <<< 1)) = i at hrest ⊢
        have hshift : ((c + 1 : ℕ) : ℤ) ≤ ((k + 1 : ℕ) : ℤ) - 1 - i ↔ (c : ℤ) ≤ k - 1 - i := by
          push_cast
          omega
        rw [hshift, hrest]
        constructor
        · intro h j hj hjf
          cases j with
          | zero => simpa using hbit
          | succ j =>
            have hbit' := h j (by omega) (by omega)
            rw [testBit_u64_shiftLeft_one (by omega), decide_eq_true (by omega : 1 ≤ f - j),
              Bool.true_and] at hbit'
            rwa [Nat.sub_add_eq]
        · intro h j hj hjf
          rw [testBit_u64_shiftLeft_one (by omega)]
          by_cases hpos : 1 ≤ f - j
          · rw [← Nat.sub_add_eq, h (j + 1) (by omega) (by omega), Bool.and_false]
          · rw [decide_eq_false hpos, Bool.false_and]

/-- A number whose highest bits of some are zero is small. -/
theorem mod_lt_iff {f c v : ℕ} :
    (∀ j < c, j < f → v.testBit (f - 1 - j) = false) ↔ v % 2^f < 2^(f - c) := by
  constructor
  · intro h
    refine Nat.lt_pow_two_of_testBit _ fun i hi => ?_
    rw [Nat.testBit_mod_two_pow]
    by_cases hif : i < f
    · have hbit := h (f - 1 - i) (by omega) (by omega)
      rw [show f - 1 - (f - 1 - i) = i by omega] at hbit
      rw [hbit, Bool.and_false]
    · rw [decide_eq_false hif, Bool.false_and]
  · intro h j hj hjf
    have hbit := Nat.testBit_lt_two_pow (h.trans_le (Nat.pow_le_pow_right Nat.two_pos
      (show f - c ≤ f - 1 - j by omega)))
    rwa [Nat.testBit_mod_two_pow, decide_eq_true (by omega), Bool.true_and] at hbit

/-- The loop over the trailing bits passes as many bits as are zero. -/
theorem le_tailLoop_iff {left j b c : ℕ} (hc : c ≤ left) :
    j + c ≤ tailLoop left j b ↔ 2^c ∣ b := by
  induction left generalizing j b c with
  | zero =>
    obtain rfl : c = 0 := by omega
    simp [tailLoop]
  | succ left ih =>
    unfold tailLoop
    rw [Nat.and_one_is_mod]
    split_ifs with hodd
    · -- An odd number has no trailing zeros.
      refine ⟨fun hle => ?_, fun hdvd => ?_⟩
      · obtain rfl : c = 0 := by omega
        exact one_dvd b
      · cases c with
        | zero => exact le_rfl
        | succ c =>
          have htwo : 2 ∣ b := (dvd_pow_self 2 (Nat.succ_ne_zero c)).trans hdvd
          omega
    · cases c with
      | zero =>
        have hnext := (ih (j := j + 1) (b := b >>> 1) (Nat.zero_le left)).2 (one_dvd _)
        exact iff_of_true (by omega) (one_dvd b)
      | succ c =>
        have hrest := ih (j := j + 1) (b := b >>> 1) (c := c) (by omega)
        rw [show j + (c + 1) = j + 1 + c by omega, hrest, Nat.shiftRight_one, pow_succ']
        have hb : b = 2 * (b / 2) := by omega
        conv_rhs => rw [hb]
        exact (Nat.mul_dvd_mul_iff_left Nat.two_pos).symm

section Value

variable {n v c : ℕ}

/-- The mask has one bit: the highest one of a type, but for the type of 64 bits. -/
theorem flag_eq (n : ℕ) : u32 (1 <<< ((n - 1) % 32)) = 2^((n - 1) % 32) := by
  rw [Nat.one_shiftLeft]
  exact u32_of_lt (Nat.pow_lt_pow_right (by omega) (by omega))

/-- The leading zeros for a type with a sign are those of the bits below the mask. -/
theorem le_leading_signed_iff (hc : c ≤ n) :
    (c : ℤ) ≤ (getRedundantZerosBits v n).leading_signed ↔
      v % 2^((n - 1) % 32) < 2^((n - 1) % 32 - c) := by
  have hcount : (getRedundantZerosBits v n).leading_signed =
      (n : ℤ) - (1 : ℤ) - leadingLoop (2^((n - 1) % 32)) n (u64 (v <<< 1)) := by
    rw [← flag_eq]
    rfl
  have hf : (n - 1) % 32 < 64 := by omega
  rw [hcount, le_leadingLoop_iff hc hf, ← mod_lt_iff]
  generalize (n - 1) % 32 = f at hf ⊢
  -- The value was shifted by one, so that the first bit looked at is the one below the mask.
  refine forall_congr' fun j => forall_congr' fun _ => ?_
  constructor
  · intro h hjf
    have hbit := h hjf.le
    rw [testBit_u64_shiftLeft_one (by omega), decide_eq_true (by omega : 1 ≤ f - j),
      Bool.true_and] at hbit
    rwa [Nat.sub_right_comm]
  · intro h hjf
    rw [testBit_u64_shiftLeft_one (by omega)]
    by_cases hpos : 1 ≤ f - j
    · rw [Nat.sub_right_comm, h (by omega), Bool.and_false]
    · rw [decide_eq_false hpos, Bool.false_and]

/-- For a type without a sign there is one more leading zero: the sign bit, if it is zero. -/
theorem leading_unsigned_eq (v n : ℕ) : (getRedundantZerosBits v n).leading_unsigned =
    if (v >>> (n - 1)) &&& 1 ≠ 0 then 0 else (getRedundantZerosBits v n).leading_signed + 1 := by
  show (if _ then 0 else (n : ℤ) - leadingLoop _ n _) =
    if _ then 0 else (n : ℤ) - 1 - leadingLoop _ n _ + 1
  congr 1
  omega

/-- The leading zeros for a type without a sign are those and the sign bit. -/
theorem le_leading_unsigned_iff (hc : c < n) (hv : v < 2^n) :
    ((c + 1 : ℕ) : ℤ) ≤ (getRedundantZerosBits v n).leading_unsigned ↔
      v < 2^(n - 1) ∧ v % 2^((n - 1) % 32) < 2^((n - 1) % 32 - c) := by
  have hsign : (v >>> (n - 1)) &&& 1 ≠ 0 ↔ ¬v < 2^(n - 1) := by
    have hn : 2^n = 2 * 2^(n - 1) := by rw [← pow_succ', Nat.sub_add_cancel (by omega)]
    have hdiv : v / 2^(n - 1) < 2 := Nat.div_lt_of_lt_mul (by rwa [mul_comm, ← hn])
    have hone := Nat.le_div_iff_mul_le (k := 2^(n - 1)) (x := 1) (y := v) (by positivity)
    rw [Nat.shiftRight_eq_div_pow, Nat.and_one_is_mod]
    generalize v / 2^(n - 1) = q at hdiv hone ⊢
    omega
  rw [← le_leading_signed_iff hc.le, leading_unsigned_eq]
  split_ifs with h
  · exact iff_of_false (by push_cast; omega) fun hboth => hsign.1 h hboth.1
  · rw [and_iff_right (not_not.1 (mt hsign.2 h))]
    push_cast
    omega

/-- The trailing zeros. -/
theorem le_tail_iff (hc : c ≤ n) :
    (c : ℤ) ≤ (getRedundantZerosBits v n).tail ↔ 2^c ∣ v := by
  show (c : ℤ) ≤ tailLoop n 0 v ↔ _
  rw [Nat.cast_le, ← le_tailLoop_iff hc, Nat.zero_add]

/-- The counts are not negative. -/
theorem getRedundantZerosBits_nonneg (v n : ℕ) :
    0 ≤ (getRedundantZerosBits v n).leading_signed ∧
      0 ≤ (getRedundantZerosBits v n).leading_unsigned ∧
      0 ≤ (getRedundantZerosBits v n).tail := by
  have hsigned : 0 ≤ (getRedundantZerosBits v n).leading_signed :=
    (le_leading_signed_iff (Nat.zero_le n)).2 (Nat.mod_lt _ (by positivity))
  refine ⟨hsigned, ?_, (le_tail_iff (Nat.zero_le n)).2 (one_dvd v)⟩
  rw [leading_unsigned_eq]
  split_ifs
  · exact le_rfl
  · omega

end Value

/-! ## The smallest counts and the table -/

/-- The loops over the items are one over the values. -/
theorem redundantZeroBits_eq (array_items : ItemsValueCount) (unit_size : ℕ) :
    redundantZeroBits array_items unit_size = (valuesOf array_items).foldl
      (fun redundant_zero_bits v => redundant_zero_bits.min (getRedundantZerosBits v unit_size))
      ⟨unit_size, unit_size, unit_size⟩ := by
  unfold redundantZeroBits valuesOf
  rw [List.foldl_flatMap]
  simp only [List.foldl_map]

/-- A component of the smallest counts is one of the smallest. -/
theorem le_foldl_min_iff {α : Type*} (component : RedundantBits → ℤ)
    (hmin : ∀ bits bits', component (bits.min bits') = Min.min (component bits) (component bits'))
    (f : α → RedundantBits) (l : List α) (bits : RedundantBits) (c : ℤ) :
    c ≤ component (l.foldl (fun bits v => bits.min (f v)) bits) ↔
      c ≤ component bits ∧ ∀ v ∈ l, c ≤ component (f v) := by
  induction l generalizing bits with
  | nil => simp
  | cons v l ih =>
    rw [List.foldl_cons, ih, hmin, le_min_iff, List.forall_mem_cons, and_assoc]

/-- The search in the table, written out. -/
theorem checkZerosBits_eq (z full : ℤ) : checkZerosBits z full =
    if z = full then some 8
    else if 0 < full - 32 ∧ z < full - 32 then some 64
    else if 0 < full - 16 ∧ z < full - 16 then some 32
    else if 0 < full - 8 ∧ z < full - 8 then some 16
    else if 0 < full - 0 ∧ z < full - 0 then some 8 else none := by
  have hcons : ∀ (p : Fin 4 → Prop) [DecidablePred p] (i : Fin 4) (l : List (Fin 4)),
      (i :: l).find? (fun i => p i) = if p i then some i else l.find? fun i => p i := by
    intro p _ i l
    by_cases hp : p i <;> simp [hp]
  unfold checkZerosBits
  simp only [hcons, List.find?_nil, apply_ite (Option.map validIntBits), Option.map_some,
    Option.map_none]
  rfl

/-- What the table gives: a type that is no wider than the old one and has room for the rest of
the bits. The type stays as it is where less than half of the bits are redundant. -/
structure Narrowed (n : ℕ) (zeros_bits : ℤ) (size : ℕ) : Prop where
  mem : size ∈ [8, 16, 32, 64]
  le : size ≤ n
  room : (n : ℤ) - size ≤ zeros_bits
  eq_iff : size = n ↔ zeros_bits < (n / 2 : ℕ)
  full : zeros_bits = n → size = 8

/-- The table is not read out of its range. -/
theorem checkZerosBits_spec {n : ℕ} {z : ℤ} (hn : n ∈ [16, 32, 64]) (hz : 0 ≤ z) (hzn : z ≤ n) :
    ∃ size, checkZerosBits z n = some size ∧ Narrowed n z size := by
  rw [checkZerosBits_eq]
  simp only [List.mem_cons, List.not_mem_nil, or_false] at hn
  split_ifs
  · exact ⟨8, rfl, by decide, by omega, by omega, by omega, by omega⟩
  · exact ⟨64, rfl, by decide, by omega, by omega, by omega, by omega⟩
  · exact ⟨32, rfl, by decide, by omega, by omega, by omega, by omega⟩
  · exact ⟨16, rfl, by decide, by omega, by omega, by omega, by omega⟩
  · exact ⟨8, rfl, by decide, by omega, by omega, by omega, by omega⟩
  · omega

section Array

variable {array_items : ItemsValueCount} {n c : ℕ}

/-- The smallest number of leading zeros for a type with a sign. -/
theorem le_redundant_signed_iff (hc : c ≤ n) :
    (c : ℤ) ≤ (redundantZeroBits array_items n).leading_signed ↔
      ∀ v ∈ valuesOf array_items, v % 2^((n - 1) % 32) < 2^((n - 1) % 32 - c) := by
  rw [redundantZeroBits_eq, le_foldl_min_iff RedundantBits.leading_signed fun _ _ => rfl,
    and_iff_right (Nat.cast_le.2 hc)]
  exact forall₂_congr fun v _ => le_leading_signed_iff hc

/-- The smallest number of leading zeros for a type without a sign. -/
theorem le_redundant_unsigned_iff (hvalues : ∀ v ∈ valuesOf array_items, v < 2^n) (hc : c < n) :
    ((c + 1 : ℕ) : ℤ) ≤ (redundantZeroBits array_items n).leading_unsigned ↔
      ∀ v ∈ valuesOf array_items,
        v < 2^(n - 1) ∧ v % 2^((n - 1) % 32) < 2^((n - 1) % 32 - c) := by
  rw [redundantZeroBits_eq, le_foldl_min_iff RedundantBits.leading_unsigned fun _ _ => rfl,
    and_iff_right (Nat.cast_le.2 hc)]
  exact forall₂_congr fun v hv => le_leading_unsigned_iff hc (hvalues v hv)

/-- The smallest number of trailing zeros. -/
theorem le_redundant_tail_iff (hc : c ≤ n) :
    (c : ℤ) ≤ (redundantZeroBits array_items n).tail ↔ ∀ v ∈ valuesOf array_items, 2^c ∣ v := by
  rw [redundantZeroBits_eq, le_foldl_min_iff RedundantBits.tail fun _ _ => rfl,
    and_iff_right (Nat.cast_le.2 hc)]
  exact forall₂_congr fun v _ => le_tail_iff hc

/-- The smallest counts are counts of bits of the type. -/
theorem redundantZeroBits_bounds (array_items : ItemsValueCount) (component : RedundantBits → ℤ)
    (hmin : ∀ bits bits', component (bits.min bits') = Min.min (component bits) (component bits'))
    (hfull : component ⟨n, n, n⟩ = n)
    (hnonneg : ∀ v, 0 ≤ component (getRedundantZerosBits v n)) :
    0 ≤ component (redundantZeroBits array_items n) ∧
      component (redundantZeroBits array_items n) ≤ n := by
  have hle := le_foldl_min_iff component hmin (fun v => getRedundantZerosBits v n)
    (valuesOf array_items) ⟨n, n, n⟩
  rw [← redundantZeroBits_eq, hfull] at hle
  exact ⟨(hle 0).2 ⟨Nat.cast_nonneg n, fun v _ => hnonneg v⟩, ((hle _).1 le_rfl).1⟩

/-- The sizes that are found for an array are read from the table. -/
theorem detectTypeOveruse_spec (array_items : ItemsValueCount) (hn : n ∈ [16, 32, 64]) :
    ∃ sizes, detectTypeOveruse (redundantZeroBits array_items n) n = some sizes ∧
      Narrowed n (redundantZeroBits array_items n).leading_signed sizes.signed ∧
      Narrowed n (redundantZeroBits array_items n).leading_unsigned sizes.unsigned ∧
      Narrowed n (redundantZeroBits array_items n).tail sizes.tail := by
  have hsigned := redundantZeroBits_bounds array_items RedundantBits.leading_signed
    (fun _ _ => rfl) rfl fun v => (getRedundantZerosBits_nonneg v n).1
  have hunsigned := redundantZeroBits_bounds array_items RedundantBits.leading_unsigned
    (fun _ _ => rfl) rfl fun v => (getRedundantZerosBits_nonneg v n).2.1
  have htail := redundantZeroBits_bounds array_items RedundantBits.tail
    (fun _ _ => rfl) rfl fun v => (getRedundantZerosBits_nonneg v n).2.2
  obtain ⟨signed, hs, hs'⟩ := checkZerosBits_spec hn hsigned.1 hsigned.2
  obtain ⟨unsigned, hu, hu'⟩ := checkZerosBits_spec hn hunsigned.1 hunsigned.2
  obtain ⟨tail, ht, ht'⟩ := checkZerosBits_spec hn htail.1 htail.2
  have hcase : n = 64 ∨ n = 32 ∨ n = 16 := by
    simp only [List.mem_cons, List.not_mem_nil, or_false] at hn
    omega
  refine ⟨⟨signed, unsigned, tail⟩, ?_, hs', hu', ht'⟩
  unfold detectTypeOveruse
  rw [if_pos hcase, hs, hu, ht]
  rfl

/-! ## The sizes -/

/-- A value without high bits extends from its low bits. -/
theorem signedValue_of_low {s v : ℕ} (hn : n ∈ [16, 32, 64]) (hs : s ∈ [8, 16, 32, 64])
    (hsn : s < n) (hv : v < 2^((n - 1) % 32))
    (hlow : v % 2^((n - 1) % 32) < 2^((n - 1) % 32 - (n - s))) :
    signedValue n v = signedValue s (v % 2^s) := by
  simp only [List.mem_cons, List.not_mem_nil, or_false] at hn hs
  rcases hn with rfl | rfl | rfl <;> rcases hs with rfl | rfl | rfl | rfl <;>
    simp [signedValue] at * <;> omega

/-- A value with the sign bit and nothing else but low bits does not. -/
theorem signedValue_ne_of_high {s v : ℕ} (hn : n ∈ [16, 32, 64]) (hs : s ∈ [8, 16, 32, 64])
    (hsn : s < n) (hfull : n = 64 → s = 8) (hv : v < 2^n) (hhigh : 2^((n - 1) % 32) ≤ v)
    (hlow : v % 2^((n - 1) % 32) < 2^((n - 1) % 32 - n / 2)) :
    signedValue n v ≠ signedValue s (v % 2^s) := by
  simp only [List.mem_cons, List.not_mem_nil, or_false] at hn hs
  rcases hn with rfl | rfl | rfl <;> rcases hs with rfl | rfl | rfl | rfl <;>
    simp [signedValue] at * <;> omega

/-- A value without a sign bit has the rest of the bits. -/
theorem lt_of_low {u v : ℕ} (hn : n ∈ [16, 32, 64]) (hu : u ∈ [8, 16, 32, 64]) (hun : u < n)
    (hfull : n = 64 → v < 2^((n - 1) % 32)) (hv : v < 2^(n - 1))
    (hlow : v % 2^((n - 1) % 32) < 2^((n - 1) % 32 - (n - u - 1))) : v < 2^u := by
  simp only [List.mem_cons, List.not_mem_nil, or_false] at hn hu
  rcases hn with rfl | rfl | rfl <;> rcases hu with rfl | rfl | rfl | rfl <;>
    simp at * <;> omega

/-- The values of an array do not mislead the count: none has a bit from the mask on, or one has a
bit in the upper half below the mask. -/
def Counted (n : ℕ) (values : List ℕ) : Prop :=
  (∀ v ∈ values, v < 2^((n - 1) % 32)) ∨
    ∃ v ∈ values, 2^((n - 1) % 32 - n / 2) ≤ v % 2^((n - 1) % 32)

/-- The type with a sign is wide enough for exactly the arrays that do not mislead the count. -/
theorem signed_sound_iff {s : ℕ} (hn : n ∈ [16, 32, 64])
    (hvalues : ∀ v ∈ valuesOf array_items, v < 2^n)
    (hs : Narrowed n (redundantZeroBits array_items n).leading_signed s) :
    (∀ v ∈ valuesOf array_items, signedValue n v = signedValue s (v % 2^s)) ↔
      Counted n (valuesOf array_items) := by
  constructor
  · intro hsound
    by_contra hcounted
    unfold Counted at hcounted
    push Not at hcounted
    obtain ⟨⟨v, hv, hhigh⟩, hlow⟩ := hcounted
    -- All bits of the upper half seem redundant, for values of 64 bits all bits.
    have hhalf := (le_redundant_signed_iff (Nat.div_le_self n 2)).2 hlow
    have hsn : s < n := hs.le.lt_of_ne fun heq => (hs.eq_iff.1 heq).not_ge hhalf
    have hfull : n = 64 → s = 8 := by
      rintro rfl
      refine hs.full (le_antisymm ?_ ((le_redundant_signed_iff le_rfl).2 hlow))
      exact (redundantZeroBits_bounds array_items RedundantBits.leading_signed
        (fun _ _ => rfl) rfl fun v => (getRedundantZerosBits_nonneg v 64).1).2
    exact signedValue_ne_of_high hn hs.mem hsn hfull (hvalues v hv) hhigh (hlow v hv) (hsound v hv)
  · intro hcounted v hv
    rcases hs.le.eq_or_lt with rfl | hsn
    · rw [Nat.mod_eq_of_lt (hvalues v hv)]
    · have hle : ((n - s : ℕ) : ℤ) ≤ (redundantZeroBits array_items n).leading_signed := by
        rw [Nat.cast_sub hs.le]
        exact hs.room
      have hlow := (le_redundant_signed_iff (Nat.sub_le n s)).1 hle
      have hhalf : ((n / 2 : ℕ) : ℤ) ≤ (redundantZeroBits array_items n).leading_signed :=
        not_lt.1 fun hlt => hsn.ne (hs.eq_iff.2 hlt)
      have hnot := (le_redundant_signed_iff (Nat.div_le_self n 2)).1 hhalf
      have hsmall : ∀ v ∈ valuesOf array_items, v < 2^((n - 1) % 32) :=
        hcounted.resolve_right fun ⟨w, hw, hge⟩ => (hnot w hw).not_ge hge
      exact signedValue_of_low hn hs.mem hsn (hsmall v hv) (hlow v hv)

/-- The type without a sign is wide enough for the arrays that do not mislead the count. -/
theorem unsigned_sound {u : ℕ} (hn : n ∈ [16, 32, 64])
    (hvalues : ∀ v ∈ valuesOf array_items, v < 2^n)
    (hu : Narrowed n (redundantZeroBits array_items n).leading_unsigned u)
    (hcounted : Counted n (valuesOf array_items)) : ∀ v ∈ valuesOf array_items, v < 2^u := by
  intro v hv
  rcases hu.le.eq_or_lt with rfl | hun
  · exact hvalues v hv
  · have hc : n - u - 1 < n := by omega
    have hle : ((n - u - 1 + 1 : ℕ) : ℤ) ≤ (redundantZeroBits array_items n).leading_unsigned := by
      rw [Nat.sub_add_cancel (by omega), Nat.cast_sub hu.le]
      exact hu.room
    have hlow := (le_redundant_unsigned_iff hvalues hc).1 hle
    refine lt_of_low hn hu.mem hun ?_ (hlow v hv).1 (hlow v hv).2
    rintro rfl
    -- Of the values that mislead the count none is left: the lower half of all of them is zero.
    have huhalf : u ≤ 32 := by
      have hmem := hu.mem
      simp only [List.mem_cons, List.not_mem_nil, or_false] at hmem
      omega
    refine hcounted.resolve_right (fun ⟨w, hw, hge⟩ => ?_) v hv
    have hzero := (hlow w hw).2
    rw [show (64 - 1) % 32 - (64 - u - 1) = (64 - 1) % 32 - 64 / 2 by omega] at hzero
    exact hzero.not_ge hge

/-- The type for shifted values is wide enough. -/
theorem tail_sound {t : ℕ} (ht : Narrowed n (redundantZeroBits array_items n).tail t) :
    ∀ v ∈ valuesOf array_items, 2^(n - t) ∣ v := by
  refine (le_redundant_tail_iff (Nat.sub_le n t)).1 ?_
  rw [Nat.cast_sub ht.le]
  exact ht.room

end Array

/-- **Exactly when the types that `dense_value_pattern` reports are wide enough.** The table is
never read out of its range, and the sizes are sizes of integer types. They are wide enough if and
only if nothing is reported, since the memory has no length, or no value has a bit from the mask
on, or some value has a bit in the upper half below the mask; the mask of values of 64 bits is bit
31, so that this half is all of the bits below it. -/
theorem denseValuePattern_sound_iff {access_kind : AccessKind} {array_items : ItemsValueCount}
    (memory_size : ℕ) (hint : access_kind.data_type = .INT)
    (hn : access_kind.unit_size ∈ [16, 32, 64])
    (hvalues : ∀ v ∈ valuesOf array_items, v < 2^access_kind.unit_size) :
    ∃ reported, denseValuePattern access_kind memory_size array_items = some reported ∧
      ((∀ sizes ∈ reported, SizesSound access_kind.unit_size (valuesOf array_items) sizes) ↔
        memory_size = 0 ∨ Counted access_kind.unit_size (valuesOf array_items)) := by
  unfold denseValuePattern
  by_cases hmem : memory_size = 0
  · rw [if_pos hmem]
    exact ⟨none, rfl, iff_of_true (fun sizes hsizes => by cases hsizes) (.inl hmem)⟩
  · obtain ⟨sizes, hsizes, hs, hu, ht⟩ := detectTypeOveruse_spec array_items hn
    rw [if_neg hmem, if_pos hint, hsizes]
    refine ⟨some sizes, rfl, ?_⟩
    rw [or_iff_right hmem]
    constructor
    · intro hsound
      exact (signed_sound_iff hn hvalues hs).1 (hsound sizes rfl).signed
    · rintro hcounted _ ⟨⟩
      refine ⟨(signed_sound_iff hn hvalues hs).2 hcounted,
        unsigned_sound hn hvalues hu hcounted, tail_sound ht, ?_⟩
      intro size hsize
      simp only [List.mem_cons, List.not_mem_nil, or_false] at hsize
      rcases hsize with rfl | rfl | rfl
      · exact hs.mem
      · exact hu.mem
      · exact ht.mem

/-- An array of one value of 32 bits: the smallest negative one. -/
def minimumItems : ItemsValueCount := NestedMap.put ∅ 0 (2^31) 1

theorem denseValuePattern_sound_iff_minimum :
    ∃ reported, denseValuePattern ⟨32, 32, .INT⟩ 4 minimumItems = some reported ∧
      ((∀ sizes ∈ reported, SizesSound 32 (valuesOf minimumItems) sizes) ↔
        4 = 0 ∨ Counted 32 (valuesOf minimumItems)) :=
  denseValuePattern_sound_iff 4 rfl (by decide) (by decide +kernel)

/-- The smallest number of 32 bits is reported to fit into 8 bits with a sign. -/
theorem not_denseValuePattern_sound :
    ¬ ∀ (access_kind : AccessKind) (memory_size : ℕ) (array_items : ItemsValueCount),
      memory_size ≠ 0 → access_kind.data_type = .INT → access_kind.unit_size ∈ [16, 32, 64] →
      valuesOf array_items ≠ [] →
      (∀ v ∈ valuesOf array_items, v < 2^access_kind.unit_size) →
      ∃ sizes, denseValuePattern access_kind memory_size array_items = some (some sizes) ∧
        SizesSound access_kind.unit_size (valuesOf array_items) sizes := by
  intro h
  obtain ⟨sizes, hsizes, hsound⟩ := h ⟨32, 32, .INT⟩ 4 minimumItems (by decide) rfl (by decide)
    (by decide +kernel) (by decide +kernel)
  have hreported : denseValuePattern ⟨32, 32, .INT⟩ 4 minimumItems =
      some (some ⟨8, 32, 8⟩) := by decide +kernel
  rw [hreported] at hsizes
  cases hsizes
  have hsigned := hsound.signed (2^31) (by decide +kernel)
  revert hsigned
  decide +kernel

end TenProf.ValuePattern
