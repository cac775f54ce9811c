import TenProf.Library.FloatFormat
import TenProf.ValuePattern.UnitAccess

/-!
# The approximate values

`value_to_float` and `value_to_double` cut the fraction of a floating-point value after some digits.
They are truncations of the two formats, so that several of them, one after the other, are the
shortest one. `ValuePattern::approximate_value_pattern` counts the accesses to an array anew under
the values that are cut to the fewest digits, where several values may become one. `+=` adds words,
as the total of `dense_value_pattern` does, and the total of each item is what it was.
-/

namespace TenProf.ValuePattern

open Binutils

/-! ## The digits -/

/-- `VALID_DOUBLE_DIGITS`. -/
def VALID_DOUBLE_DIGITS : ℕ := 52

/-- `LOW_FLOAT_DIGITS`. -/
def LOW_FLOAT_DIGITS : ℕ := 15

/-- `LOW_DOUBLE_DIGITS`. -/
def LOW_DOUBLE_DIGITS : ℕ := 36

/-- `MID_FLOAT_DIGITS`. -/
def MID_FLOAT_DIGITS : ℕ := 11

/-- `MID_DOUBLE_DIGITS`. -/
def MID_DOUBLE_DIGITS : ℕ := 28

/-- `HIGH_FLOAT_DIGITS`. -/
def HIGH_FLOAT_DIGITS : ℕ := 7

/-- `HIGH_DOUBLE_DIGITS`. -/
def HIGH_DOUBLE_DIGITS : ℕ := 20

/-- `MAX_FLOAT_DIGITS`. -/
def MAX_FLOAT_DIGITS : ℕ := 3

/-- `MAX_DOUBLE_DIGITS`. -/
def MAX_DOUBLE_DIGITS : ℕ := 12

/-- `redshow_approx_level_t`. -/
inductive ApproxLevel
  | NONE | MIN | LOW | MID | HIGH | MAX
  deriving DecidableEq

/-- `vp_approx_level_config`: the digits of the fractions of both formats. -/
def vpApproxLevelConfig : ApproxLevel → ℕ × ℕ
  | .NONE => (VALID_FLOAT_DIGITS, VALID_DOUBLE_DIGITS)
  | .MIN => (MIN_FLOAT_DIGITS, MIN_DOUBLE_DIGITS)
  | .LOW => (LOW_FLOAT_DIGITS, LOW_DOUBLE_DIGITS)
  | .MID => (MID_FLOAT_DIGITS, MID_DOUBLE_DIGITS)
  | .HIGH => (HIGH_FLOAT_DIGITS, HIGH_DOUBLE_DIGITS)
  | .MAX => (MAX_FLOAT_DIGITS, MAX_DOUBLE_DIGITS)

/-- The words without their last `k` bits. -/
theorem and_mask_eq {a k : ℕ} (ha : a < 2^64) :
    a &&& u64 (0xffffffffffffffff <<< k) = a / 2^k * 2^k := by
  refine Nat.eq_of_testBit_eq fun i => ?_
  have hones : 0xffffffffffffffff = 2^64 - 1 := rfl
  unfold u64
  rw [Nat.testBit_and, Nat.testBit_mod_two_pow, Nat.testBit_shiftLeft, hones,
    Nat.testBit_two_pow_sub_one, ← Nat.shiftRight_eq_div_pow, ← Nat.shiftLeft_eq,
    Nat.testBit_shiftLeft, Nat.testBit_shiftRight]
  -- The mask has the bits from `k` to 63, and the word has none behind them.
  by_cases hk : k ≤ i
  · by_cases hi : i < 64
    · have hlow : i - k < 64 := by omega
      simp [hk, hi, hlow]
    · have hzero : a.testBit i = false :=
        Nat.testBit_lt_two_pow (ha.trans_le (Nat.pow_le_pow_right two_pos (not_lt.1 hi)))
      simp [hk, hzero]
  · simp [hk]

/-- `value_to_double` is a truncation of double precision. -/
theorem valueToDouble_eq {x d : ℕ} (hx : x < 2^64) :
    valueToDouble x d = FloatFormat.binary64.truncate d x := and_mask_eq hx

/-- `value_to_float` is a truncation of single precision. -/
theorem valueToFloat_eq {x d : ℕ} (hx : x < 2^32) :
    valueToFloat x d = FloatFormat.binary32.truncate d x := by
  have hlow : x &&& 0xffffffff = x :=
    (Nat.and_two_pow_sub_one_eq_mod x 32).trans (Nat.mod_eq_of_lt hx)
  unfold valueToFloat
  rw [hlow, and_mask_eq (by omega)]
  rfl

/-- What a conversion to a number of digits does to a pattern: two of them are the one to the
fewer digits, and it keeps the sign and the exponent and does not raise the magnitude. -/
structure CutsFraction (F : FloatFormat) (convert : ℕ → ℕ → ℕ) (x d e : ℕ) : Prop where
  convert_convert : convert (convert x d) e = convert x (min d e)
  sign : F.sign (convert x d) = F.sign x
  exponent : F.exponent (convert x d) = F.exponent x
  magnitude : F.magnitude (convert x d) ≤ F.magnitude x

/-- A conversion that is a truncation of some patterns cuts their fractions. -/
theorem cutsFraction_of_truncate {F : FloatFormat} {convert : ℕ → ℕ → ℕ} {size x d e : ℕ}
    (h : ∀ {x d}, x < size → convert x d = F.truncate d x) (hx : x < size) :
    CutsFraction F convert x d e where
  convert_convert := by
    -- What has been cut is a pattern again.
    have hcut : F.truncate d x < size := FloatFormat.truncate_le.trans_lt hx
    rw [h hx, h hcut, h hx, FloatFormat.truncate_truncate]
  sign := by rw [h hx, FloatFormat.sign_truncate]
  exponent := by rw [h hx, FloatFormat.exponent_truncate]
  magnitude := by
    rw [h hx]
    exact FloatFormat.magnitude_truncate_le

/-! ## The counts -/

/-- `array_items_approx[index][new_value] += count`. -/
def addCount (index new_value count : ℕ) (array_items : ItemsValueCount) : ItemsValueCount :=
  array_items.update index ∅ fun values => values.update new_value 0 fun n => u64 (n + count)

/-- What the loop of `approximate_value_pattern` does with the count of a value of an item. -/
def countApprox (unit_size : ℕ) (digits : ℕ × ℕ) (index : ℕ) (array_items_approx : ItemsValueCount)
    (one_value_count : ℕ × ℕ) : ItemsValueCount :=
  if unit_size = 32 then
    addCount index (valueToFloat one_value_count.1 digits.1) one_value_count.2 array_items_approx
  else if unit_size = 64 then
    addCount index (valueToDouble one_value_count.1 digits.2) one_value_count.2 array_items_approx
  else
    array_items_approx

/-- The counts that `approximate_value_pattern` makes from those of an array, and none when the
values are not floating-point ones. -/
def approximateItems (access_kind : AccessKind) (array_items : ItemsValueCount) :
    Option ItemsValueCount :=
  if access_kind.data_type ≠ .FLOAT then
    none
  else
    let digits := vpApproxLevelConfig .MAX
    some <| array_items.toList.foldl
      (fun approx item => item.2.toList.foldl (countApprox access_kind.unit_size digits item.1)
        approx)
      ∅

/-- The number of accesses to an item. -/
def itemAccesses (array_items : ItemsValueCount) (index : ℕ) : ℕ :=
  (array_items.findD index ∅).sumBy id

/-- The sum of counts that were added up as words to a total: it is the total, less what has left
the words. -/
def AddsUpTo (n total : ℕ) : Prop := ∃ carry, n + 2^64 * carry = total

/-- A total that fits in a word is the sum of its counts. -/
theorem AddsUpTo.eq_of_lt {n total : ℕ} (h : AddsUpTo n total) (hlt : total < 2^64) :
    n = total := by
  obtain ⟨carry, heq⟩ := h
  omega

/-- The sum of the counts and the total are the same word. -/
theorem AddsUpTo.u64_eq {n total : ℕ} (h : AddsUpTo n total) : u64 n = u64 total := by
  obtain ⟨carry, rfl⟩ := h
  exact (Nat.add_mul_mod_self_left n (2^64) carry).symm

/-- What adds up to a total that has been raised, with what adds up to the total before. -/
theorem AddsUpTo.add {n n' total count : ℕ} (h : AddsUpTo n (n' + count))
    (h' : AddsUpTo n' total) : AddsUpTo n (total + count) := by
  obtain ⟨carry, heq⟩ := h
  obtain ⟨carry', heq'⟩ := h'
  exact ⟨carry + carry', by omega⟩

/-- A sum of counts grows as the count that is raised does. -/
theorem sumBy_addCount (values : OrderedMap ℕ ℕ) (value count : ℕ) :
    AddsUpTo ((values.update value 0 fun n => u64 (n + count)).sumBy id)
      (values.sumBy id + count) := by
  have hsum := OrderedMap.sumBy_update id values value (d := 0) rfl fun n => u64 (n + count)
  simp only [id_eq] at hsum
  refine ⟨(values.findD value 0 + count) / 2^64, ?_⟩
  unfold u64 at hsum ⊢
  omega

/-- A count is added to the total of its item and to no other. -/
theorem itemAccesses_addCount (array_items : ItemsValueCount) (index index' new_value count : ℕ) :
    AddsUpTo (itemAccesses (addCount index new_value count array_items) index')
      (itemAccesses array_items index' + if index' = index then count else 0) := by
  unfold itemAccesses addCount
  rw [OrderedMap.findD_update]
  split_ifs with h
  · exact sumBy_addCount _ _ _
  · exact ⟨0, rfl⟩

/-- The loop over the values of an item adds all of their counts to the total of the item. -/
theorem itemAccesses_foldl_values {unit_size : ℕ} (hunit : unit_size = 32 ∨ unit_size = 64)
    (digits : ℕ × ℕ) (index index' : ℕ) (values : List (ℕ × ℕ)) (approx : ItemsValueCount) :
    AddsUpTo (itemAccesses (values.foldl (countApprox unit_size digits index) approx) index')
      (itemAccesses approx index' +
        if index' = index then (values.map Prod.snd).sum else 0) := by
  induction values generalizing approx with
  | nil => exact ⟨0, by simp⟩
  | cons one values ih =>
    have hone : AddsUpTo (itemAccesses (countApprox unit_size digits index approx one) index')
        (itemAccesses approx index' + if index' = index then one.2 else 0) := by
      rcases hunit with rfl | rfl <;> exact itemAccesses_addCount _ _ _ _ _
    have hrest := (ih (countApprox unit_size digits index approx one)).add hone
    rw [List.foldl_cons, List.map_cons, List.sum_cons]
    -- The counts of the loop are those of one item.
    split_ifs at hrest ⊢
    · rwa [← Nat.add_assoc]
    · exact hrest

/-- The loop over the items adds all counts of an item to its total. -/
theorem itemAccesses_foldl_items {unit_size : ℕ} (hunit : unit_size = 32 ∨ unit_size = 64)
    (digits : ℕ × ℕ) (index : ℕ) (items : List (ℕ × OrderedMap ℕ ℕ)) (approx : ItemsValueCount) :
    AddsUpTo
      (itemAccesses (items.foldl (fun approx item => item.2.toList.foldl
        (countApprox unit_size digits item.1) approx) approx) index)
      (itemAccesses approx index +
        ((items.filter fun item => item.1 = index).map fun item => item.2.sumBy id).sum) := by
  induction items generalizing approx with
  | nil => exact ⟨0, by simp⟩
  | cons item items ih =>
    have hitem := itemAccesses_foldl_values hunit digits item.1 index item.2.toList approx
    have hrest :=
      (ih (item.2.toList.foldl (countApprox unit_size digits item.1) approx)).add hitem
    have hsum : (item.2.toList.map Prod.snd).sum = item.2.sumBy id := by
      rw [OrderedMap.sumBy]
      rfl
    rw [List.foldl_cons, List.filter_cons]
    by_cases h : item.1 = index
    · simp only [h, if_true, hsum, decide_true, List.map_cons, List.sum_cons] at hrest ⊢
      rwa [← Nat.add_assoc]
    · simpa only [h, Ne.symm h, if_false, decide_false, Bool.false_eq_true, Nat.add_zero]
        using hrest

/-- The approximate counts of an item add up to its exact ones. -/
theorem itemAccesses_approximateItems {access_kind : AccessKind}
    (hunit : access_kind.unit_size = 32 ∨ access_kind.unit_size = 64)
    {array_items approx : ItemsValueCount}
    (h : approximateItems access_kind array_items = some approx) (index : ℕ) :
    AddsUpTo (itemAccesses approx index) (itemAccesses array_items index) := by
  unfold approximateItems at h
  split at h
  · cases h
  · cases h
    have hfold := itemAccesses_foldl_items hunit (vpApproxLevelConfig .MAX) index
      array_items.toList ∅
    -- The item comes at most once, with the values that are looked up.
    have htotal : ((array_items.toList.filter fun item => item.1 = index).map
        fun item => item.2.sumBy id).sum = itemAccesses array_items index := by
      rw [array_items.filter_key index (by simp)]
      unfold itemAccesses OrderedMap.findD
      cases array_items.find? index <;> simp
    have hempty : itemAccesses ∅ index = 0 := rfl
    rwa [htotal, hempty, Nat.zero_add] at hfold

/-- For all patterns and digits both conversions cut the fraction, and for all counts the
approximate ones give each item the total of the exact ones, as the word that the code adds up and,
where it fits in a word, as a number. -/
theorem approximation_spec :
    (∀ x d e, x < 2^32 → d ≤ 23 → e ≤ 23 → CutsFraction FloatFormat.binary32 valueToFloat x d e) ∧
    (∀ x d e, x < 2^64 → d ≤ 52 → e ≤ 52 →
      CutsFraction FloatFormat.binary64 valueToDouble x d e) ∧
    ∀ access_kind : AccessKind, access_kind.unit_size = 32 ∨ access_kind.unit_size = 64 →
      ∀ array_items approx, approximateItems access_kind array_items = some approx → ∀ index,
        u64 (itemAccesses approx index) = u64 (itemAccesses array_items index) ∧
        (itemAccesses array_items index < 2^64 →
          itemAccesses approx index = itemAccesses array_items index) := by
  refine ⟨fun x d e hx _ _ => cutsFraction_of_truncate (fun h => valueToFloat_eq h) hx,
    fun x d e hx _ _ => cutsFraction_of_truncate (fun h => valueToDouble_eq h) hx,
    fun access_kind hunit array_items approx h index => ?_⟩
  have hadds := itemAccesses_approximateItems hunit h index
  exact ⟨hadds.u64_eq, hadds.eq_of_lt⟩

/-- Two values near one that were read once and twice become one with three reads. -/
def nearOne : ItemsValueCount :=
  NestedMap.put (NestedMap.put ∅ 5 0x3f800000 1) 5 0x3f800001 2

theorem approximation_spec_near_one :
    CutsFraction FloatFormat.binary32 valueToFloat 0x3f800001 20 3 ∧
    CutsFraction FloatFormat.binary64 valueToDouble 0x3ff0000000000001 46 12 ∧
    itemAccesses (NestedMap.put ∅ 5 0x3f800000 3) 5 = itemAccesses nearOne 5 :=
  ⟨approximation_spec.1 _ _ _ (by decide) (by decide) (by decide),
    approximation_spec.2.1 _ _ _ (by decide) (by decide) (by decide),
    (approximation_spec.2.2 ⟨32, 32, .FLOAT⟩ (.inl rfl) nearOne _ (by decide) 5).2 (by decide)⟩

end TenProf.ValuePattern
