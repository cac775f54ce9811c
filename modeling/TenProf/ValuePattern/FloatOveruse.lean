import TenProf.ValuePattern.UnitAccess
import Mathlib.Data.List.Chain
import Mathlib.Data.List.TakeWhile

/-!
# The type overuse of an array of floating-point numbers

`dense_value_pattern` reports for an array of `FLOAT` that a type of half the size would do. It
looks at the exponents of the values until one is out of the range of the narrower type, but what it
has found is not asked for in the end: the test is whether the array has a single value or the first
bits of the fractions have been seen to change, and whether the largest exponent is small enough.

For 32 bits the loop keeps the exponent where that of 64 bits is kept, less 127 a second time. So
only the first value of an array is looked at, and the fractions are never seen to change.
`float_overuse_sound_iff` says for which arrays of either size all exponents are in the range of the
type that is reported.
-/

namespace TenProf.ValuePattern

open Binutils

/-! ## The checks of a value -/

/-- The variables that `check_exponent_and_fraction` is given. -/
structure ExponentCheck where
  all_first_Xbits_same : Bool
  all_first_Xbits : ℕ
  max_exponents_X : ℤ
  deriving DecidableEq, Repr

/-- The comparison of the first bits with those of the last value. -/
def ExponentCheck.compareBits (s : ExponentCheck) (tmp_first_Xbits : ℕ) : ExponentCheck :=
  if tmp_first_Xbits ≠ s.all_first_Xbits then
    { s with
      all_first_Xbits_same := if s.all_first_Xbits ≠ 0 then false else s.all_first_Xbits_same
      all_first_Xbits := tmp_first_Xbits }
  else s

/-- `check_exponent_and_fraction`. -/
def checkExponentAndFraction (s : ExponentCheck) (value unit_size : ℕ) : ExponentCheck × Bool :=
  if unit_size = 64 then
    let s := s.compareBits (0xfffff00000000 &&& value)
    let tmp_exponent := (value >>> 52) &&& 0x7ff
    if 896 ≤ tmp_exponent ∧ tmp_exponent ≤ 1151 then
      let tmp_abs_exponent := if 1023 < tmp_exponent then tmp_exponent - 1023 else
        1023 - tmp_exponent
      ({ s with
          max_exponents_X := if tmp_abs_exponent < |s.max_exponents_X| then s.max_exponents_X
            else (tmp_exponent : ℤ) - 1023 }, true)
    else (s, false)
  else if unit_size = 32 then
    let s := s.compareBits (0x7fc000 &&& value)
    let tmp_exponent := (value >>> 23) &&& 0x7f8
    if 113 ≤ tmp_exponent ∧ tmp_exponent ≤ 142 then
      let tmp_abs_exponent := if 127 < tmp_exponent then tmp_exponent - 127 else 127 - tmp_exponent
      ({ s with
          max_exponents_X := if tmp_abs_exponent < |s.max_exponents_X| then s.max_exponents_X
            else (tmp_abs_exponent : ℤ) - 127 }, true)
    else (s, false)
  else (s, false)

/-! ## The loops over the items -/

/-- The variables of `dense_value_pattern` for floating-point numbers. -/
structure FloatChecks where
  all_first_20bits_double_same : Bool := true
  all_first_9bits_float_same : Bool := true
  last_first_20bits_double : ℕ := 0
  last_first_9bits_float : ℕ := 0
  max_exponents_double : ℤ := 0
  max_exponents_float : ℤ := 0
  possible_float_type_overuse : Bool := true
  deriving DecidableEq, Repr

/-- The check of a value of 64 bits. -/
def FloatChecks.checkDouble (s : FloatChecks) (value : ℕ) : FloatChecks :=
  let check := checkExponentAndFraction
    ⟨s.all_first_20bits_double_same, s.last_first_20bits_double, s.max_exponents_double⟩ value 64
  { s with
    all_first_20bits_double_same := check.1.all_first_Xbits_same
    last_first_20bits_double := check.1.all_first_Xbits
    max_exponents_double := check.1.max_exponents_X
    possible_float_type_overuse := check.2 }

/-- The check of a value of 32 bits. -/
def FloatChecks.checkFloat (s : FloatChecks) (value : ℕ) : FloatChecks :=
  let check := checkExponentAndFraction
    ⟨s.all_first_9bits_float_same, s.last_first_9bits_float, s.max_exponents_double⟩ value 32
  { s with
    all_first_9bits_float_same := check.1.all_first_Xbits_same
    last_first_9bits_float := check.1.all_first_Xbits
    max_exponents_double := check.1.max_exponents_X
    possible_float_type_overuse := check.2 }

/-- The loop over the values of an item. -/
def valueLoop (unit_size : ℕ) : List ℕ → FloatChecks → FloatChecks
  | [], s => s
  | value :: values, s =>
    if unit_size = 64 then
      if -127 ≤ s.max_exponents_double ∧ s.max_exponents_double ≤ 128 then
        let s := s.checkDouble value
        if s.possible_float_type_overuse then valueLoop unit_size values s else s
      else valueLoop unit_size values s
    else if unit_size = 32 then
      if -14 ≤ s.max_exponents_double ∧ s.max_exponents_double ≤ 15 then
        let s := s.checkFloat value
        if s.possible_float_type_overuse then valueLoop unit_size values s else s
      else valueLoop unit_size values s
    else valueLoop unit_size values s

/-- The loop over the items, as far as it checks values. -/
def floatChecks (unit_size : ℕ) (array_items : ItemsValueCount) : FloatChecks :=
  array_items.toList.foldl (fun s item =>
    if s.possible_float_type_overuse then valueLoop unit_size (item.2.toList.map Prod.fst) s else s)
    {}

/-- The variables of `dense_value_pattern` that count values and accesses. -/
structure AccessCounts where
  unique_value_count : OrderedMap ℕ ℕ := ∅
  unique_item_count : ℕ := 0
  total_access_count : ℕ := 0
  total_unique_item_access_count : ℕ := 0
  deriving DecidableEq

/-- The counts for an item. -/
def AccessCounts.countItem (s : AccessCounts) (temp_item_value_count : OrderedMap ℕ ℕ) :
    AccessCounts :=
  let accesses := (temp_item_value_count.toList.map Prod.snd).sum
  match temp_item_value_count.toList with
  | [(value, _)] =>
    { unique_value_count := s.unique_value_count.update value 0 (· + 1)
      unique_item_count := s.unique_item_count + 1
      total_access_count := s.total_access_count + accesses
      total_unique_item_access_count := s.total_unique_item_access_count + accesses }
  | _ => { s with total_access_count := s.total_access_count + accesses }

/-- The loop over the items, as far as it counts. -/
def accessCounts (array_items : ItemsValueCount) : AccessCounts :=
  array_items.toList.foldl (fun s item => s.countItem item.2) {}

/-! ## The report -/

/-- The values of `ValuePatternType` that the variable `vpt` takes. -/
inductive ValuePatternType
  | REDUNDANT_ZEROS
  | SINGLE_VALUE
  | DENSE_VALUE
  | NO_PATTERN
  deriving DecidableEq, Repr

/-- The comparisons of floating-point numbers in `dense_value_pattern`: whether the value is next to
zero, and whether the numbers of unique items, of unique values and of items are those of a dense
array. -/
structure FloatTests where
  nearZero : ℕ → Bool
  dense : ℕ → ℕ → ℕ → Bool

/-- The variable `vpt`, for an array of floating-point numbers. -/
def valuePatternType (tests : FloatTests) (unit_size : ℕ) (array_items : ItemsValueCount) :
    ValuePatternType :=
  let counts := accessCounts array_items
  match counts.unique_value_count.toList with
  | [(value, _)] =>
    if counts.total_access_count = counts.total_unique_item_access_count then
      if unit_size = 32 ∨ unit_size = 64 then
        if tests.nearZero value then .REDUNDANT_ZEROS else .SINGLE_VALUE
      else .NO_PATTERN
    else .NO_PATTERN
  | unique_values =>
    if tests.dense counts.unique_item_count unique_values.length array_items.size then .DENSE_VALUE
    else .NO_PATTERN

/-- `MAX_DOUBLE_EXPONENT`. -/
def MAX_DOUBLE_EXPONENT : ℤ := 127

/-- `MAX_FLOAT_EXPONENT`. -/
def MAX_FLOAT_EXPONENT : ℤ := 14

/-- `dense_value_pattern` for an array of `FLOAT`: the sizes with which it reports type overuse. -/
def denseFloatPattern (tests : FloatTests) (unit_size memory_size : ℕ)
    (array_items : ItemsValueCount) : Option NarrowSizes :=
  let vpt := valuePatternType tests unit_size array_items
  let checks := floatChecks unit_size array_items
  -- special memory array
  if memory_size = 0 then none
  else if unit_size = 32 then
    if ((vpt = .SINGLE_VALUE ∨ vpt = .REDUNDANT_ZEROS) ∨ ¬checks.all_first_9bits_float_same) ∧
        checks.max_exponents_float ≤ MAX_FLOAT_EXPONENT then
      some ⟨16, 32, 32⟩
    else none
  else if unit_size = 64 then
    if ((vpt = .SINGLE_VALUE ∨ vpt = .REDUNDANT_ZEROS) ∨ ¬checks.all_first_20bits_double_same) ∧
        checks.max_exponents_double ≤ MAX_DOUBLE_EXPONENT then
      some ⟨32, 64, 64⟩
    else none
  else none

/-! ## What should hold -/

/-- The exponent field of a value of either size. -/
def exponentField (unit_size v : ℕ) : ℕ :=
  if unit_size = 64 then (v >>> 52) &&& 0x7ff else (v >>> 23) &&& 0xff

/-- The exponent is in the range of the type of half the size. -/
def ExponentFits (unit_size v : ℕ) : Prop :=
  if unit_size = 64 then 896 ≤ exponentField 64 v ∧ exponentField 64 v ≤ 1151
  else 113 ≤ exponentField 32 v ∧ exponentField 32 v ≤ 142

instance (unit_size v : ℕ) : Decidable (ExponentFits unit_size v) :=
  inferInstanceAs (Decidable (if unit_size = 64 then _ ∧ _ else _ ∧ _))

/-- A type of half the size is only reported when all exponents are in its range. -/
def FloatOveruseSound (tests : FloatTests) (unit_size memory_size : ℕ)
    (array_items : ItemsValueCount) : Prop :=
  ∀ sizes, denseFloatPattern tests unit_size memory_size array_items = some sizes →
    sizes.signed = unit_size / 2 → ∀ v ∈ valuesOf array_items, ExponentFits unit_size v

/-- Every recorded value has been counted. -/
def Recorded (array_items : ItemsValueCount) : Prop :=
  ∀ item ∈ array_items.toList, ∀ temp_value ∈ item.2.toList, 0 < temp_value.2

/-- All values are the same. -/
def OneValue (values : List ℕ) : Prop := ∃ v ∈ values, ∀ w ∈ values, w = v

/-- The values in front of the first whose exponent is not in the range. -/
def fitting (unit_size : ℕ) (values : List ℕ) : List ℕ :=
  values.takeWhile fun v => ExponentFits unit_size v

/-- The first bits of the fraction of a value of 64 bits. -/
def firstBits (v : ℕ) : ℕ := 0xfffff00000000 &&& v

/-- The first bits of the fractions are not seen to change: no two neighbours have different ones,
unless those of the first are zero. -/
def Steady (values : List ℕ) : Prop :=
  (values.map firstBits).IsChain fun bits bits' => bits = 0 ∨ bits' = bits

/-- The arrays for which no exponent is missed: those whose exponents are all in the range, and
those with several values which, for 64 bits, are steady up to the first whose exponent is not in
the range, or have the largest exponent before it. -/
def NoExponentMissed (unit_size : ℕ) (values : List ℕ) : Prop :=
  (∀ v ∈ values, ExponentFits unit_size v) ∨
    ¬OneValue values ∧ (unit_size = 64 →
      Steady (values.take ((fitting 64 values).length + 1)) ∨
        ∃ v ∈ fitting 64 values, exponentField 64 v = 1151)

/-! ## What has been recorded -/

/-- The values of an item are still counted after one more. -/
theorem recorded_update {array_items : ItemsValueCount} (h : Recorded array_items)
    (offset value : ℕ) :
    Recorded (array_items.update offset ∅ fun values => values.update value 0 (· + 1)) := by
  intro item hitem temp_value hvalue
  rcases (OrderedMap.mem_set _ _ _ _).1 hitem with rfl | ⟨hold, -⟩
  · rcases (OrderedMap.mem_set _ _ _ _).1 hvalue with rfl | ⟨hold, -⟩
    · exact Nat.succ_pos _
    · cases hfound : array_items.find? offset with
      | none =>
        rw [OrderedMap.findD, hfound] at hold
        cases hold
      | some values =>
        rw [OrderedMap.findD, hfound] at hold
        exact h _ ((array_items.find?_eq_some_iff _ _).1 hfound) temp_value hold
  · exact h item hold temp_value hvalue

/-- Every array of a block and an access kind has been recorded. -/
def ValueDist.Recorded (value_dist : ValueDist) : Prop :=
  ∀ memory_op_id access_kind,
    ValuePattern.Recorded ((value_dist.findD memory_op_id ∅).findD access_kind ∅)

/-- One more value is recorded. -/
theorem recorded_countValue {value_dist : ValueDist} (h : value_dist.Recorded) (memory_op_id : ℕ)
    (access_kind : AccessKind) (offset value : ℕ) :
    (countValue memory_op_id access_kind offset value value_dist).Recorded := by
  intro memory_op_id' access_kind'
  unfold countValue
  rw [OrderedMap.findD_update]
  split_ifs with hmemory
  · rw [OrderedMap.findD_update]
    split_ifs with hkind
    · exact recorded_update (h memory_op_id' access_kind') offset value
    · exact h memory_op_id' access_kind'
  · exact h memory_op_id' access_kind'

/-- One more unit is recorded. -/
theorem recorded_unitAccess (decimal_degree_f32 : ℕ) {trace : ValuePatternTrace}
    (h : ∀ type, (trace.dist type).Recorded) (a : ThreadAccess) (type : RedshowAccessType) :
    ((unitAccess decimal_degree_f32 trace a).dist type).Recorded := by
  have hcount : ∀ {trace : ValuePatternTrace}, (∀ type, (trace.dist type).Recorded) →
      ∀ a addr type, ((countUnit decimal_degree_f32 trace a addr).dist type).Recorded := by
    intro trace h a addr type
    rw [dist_countUnit]
    split_ifs
    · exact recorded_countValue (h type) _ _ _ _
    · exact h type
  by_cases hunknown : a.access_kind.data_type = .UNKNOWN
  · rw [unitAccess_unknown _ _ hunknown]
    exact hcount (hcount h _ _) _ _ type
  · rw [unitAccess_known _ _ hunknown]
    exact hcount h _ _ type

/-- What `unit_access` records has been recorded, after any accesses. -/
theorem recorded_run (decimal_degree_f32 : ℕ) (accesses : List ThreadAccess)
    (type : RedshowAccessType) :
    ((accesses.foldl (unitAccess decimal_degree_f32) {}).dist type).Recorded := by
  induction accesses using List.reverseRecOn generalizing type with
  | nil =>
    intro memory_op_id access_kind item hitem
    cases type <;> cases hitem
  | append_singleton accesses a ih =>
    rw [List.foldl_concat]
    exact recorded_unitAccess decimal_degree_f32 ih a type

/-! ## The loops as one -/

/-- The check of a value, which is left out where the kept exponent is out of its range. -/
def FloatChecks.checkValue (unit_size : ℕ) (s : FloatChecks) (value : ℕ) : FloatChecks :=
  if unit_size = 64 ∧ -127 ≤ s.max_exponents_double ∧ s.max_exponents_double ≤ 128 then
    s.checkDouble value
  else if unit_size = 32 ∧ -14 ≤ s.max_exponents_double ∧ s.max_exponents_double ≤ 15 then
    s.checkFloat value
  else s

/-- One turn of the loop over the values. -/
theorem valueLoop_cons (unit_size value : ℕ) (values : List ℕ) {s : FloatChecks}
    (hs : s.possible_float_type_overuse = true) :
    valueLoop unit_size (value :: values) s =
      if (s.checkValue unit_size value).possible_float_type_overuse then
        valueLoop unit_size values (s.checkValue unit_size value)
      else s.checkValue unit_size value := by
  rw [valueLoop]
  have hkept : s.checkValue unit_size value = s → valueLoop unit_size values s =
      if (s.checkValue unit_size value).possible_float_type_overuse then
        valueLoop unit_size values (s.checkValue unit_size value)
      else s.checkValue unit_size value := fun hcheck => by rw [hcheck, if_pos hs]
  by_cases hdouble : unit_size = 64
  · have hfloat : ¬unit_size = 32 := by omega
    rw [if_pos hdouble]
    by_cases hwindow : -127 ≤ s.max_exponents_double ∧ s.max_exponents_double ≤ 128
    · have hcheck : s.checkValue unit_size value = s.checkDouble value := if_pos ⟨hdouble, hwindow⟩
      rw [if_pos hwindow, hcheck]
    · rw [if_neg hwindow]
      exact hkept ((if_neg fun h => hwindow h.2).trans (if_neg fun h => hfloat h.1))
  · rw [if_neg hdouble]
    by_cases hfloat : unit_size = 32
    · rw [if_pos hfloat]
      by_cases hwindow : -14 ≤ s.max_exponents_double ∧ s.max_exponents_double ≤ 15
      · have hcheck : s.checkValue unit_size value = s.checkFloat value :=
          (if_neg fun h => hdouble h.1).trans (if_pos ⟨hfloat, hwindow⟩)
        rw [if_pos hwindow, hcheck]
      · rw [if_neg hwindow]
        exact hkept ((if_neg fun h => hdouble h.1).trans (if_neg fun h => hwindow h.2))
    · rw [if_neg hfloat]
      exact hkept ((if_neg fun h => hdouble h.1).trans (if_neg fun h => hfloat h.1))

/-- Values are checked one after the other, as long as the checks succeed. -/
theorem valueLoop_append (unit_size : ℕ) (values values' : List ℕ) {s : FloatChecks}
    (hs : s.possible_float_type_overuse = true) :
    valueLoop unit_size (values ++ values') s =
      if (valueLoop unit_size values s).possible_float_type_overuse then
        valueLoop unit_size values' (valueLoop unit_size values s)
      else valueLoop unit_size values s := by
  induction values generalizing s with
  | nil => exact (if_pos hs).symm
  | cons value values ih =>
    rw [List.cons_append, valueLoop_cons _ _ _ hs, valueLoop_cons _ _ _ hs]
    by_cases hcheck : (s.checkValue unit_size value).possible_float_type_overuse = true
    · rw [if_pos hcheck, if_pos hcheck, ih hcheck]
    · rw [if_neg hcheck, if_neg hcheck, if_neg hcheck]

/-- The loops over the items and their values are one over all values. -/
theorem floatChecks_eq (unit_size : ℕ) (array_items : ItemsValueCount) :
    floatChecks unit_size array_items = valueLoop unit_size (valuesOf array_items) {} := by
  have hstop : ∀ (items : List (ℕ × OrderedMap ℕ ℕ)) (s : FloatChecks),
      s.possible_float_type_overuse ≠ true →
      items.foldl (fun s item => if s.possible_float_type_overuse then
        valueLoop unit_size (item.2.toList.map Prod.fst) s else s) s = s := by
    intro items s hs
    induction items with
    | nil => rfl
    | cons item items ih => rw [List.foldl_cons, if_neg hs, ih]
  suffices h : ∀ (items : List (ℕ × OrderedMap ℕ ℕ)) (s : FloatChecks),
      s.possible_float_type_overuse = true →
      items.foldl (fun s item => if s.possible_float_type_overuse then
        valueLoop unit_size (item.2.toList.map Prod.fst) s else s) s =
      valueLoop unit_size (items.flatMap fun item => item.2.toList.map Prod.fst) s from
    h array_items.toList {} rfl
  intro items s hs
  induction items generalizing s with
  | nil => rfl
  | cons item items ih =>
    rw [List.foldl_cons, if_pos hs, List.flatMap_cons, valueLoop_append _ _ _ hs]
    split_ifs with hitem
    · exact ih _ hitem
    · exact hstop items _ hitem

/-! ## The comparison of the first bits -/

section Bits

variable (check : ExponentCheck) (bits : ℕ)

/-- The comparison does not look at exponents. -/
theorem compareBits_max : (check.compareBits bits).max_exponents_X = check.max_exponents_X := by
  unfold ExponentCheck.compareBits
  split_ifs <;> rfl

/-- The comparison remembers the bits. -/
theorem compareBits_bits : (check.compareBits bits).all_first_Xbits = bits := by
  unfold ExponentCheck.compareBits
  by_cases hne : bits = check.all_first_Xbits
  · rw [if_neg (not_not.2 hne)]
    exact hne.symm
  · rw [if_pos hne]

/-- The comparison takes a change from bits that are not zero as a difference. -/
theorem compareBits_same : (check.compareBits bits).all_first_Xbits_same = true ↔
    check.all_first_Xbits_same = true ∧
      (check.all_first_Xbits = 0 ∨ bits = check.all_first_Xbits) := by
  unfold ExponentCheck.compareBits
  by_cases hne : bits = check.all_first_Xbits
  · rw [if_neg (not_not.2 hne), and_iff_left (.inr hne)]
  · rw [if_pos hne]
    by_cases hzero : check.all_first_Xbits = 0
    · simp [hzero]
    · simp [hzero, hne]

end Bits

/-! ## Values of 64 bits -/

section Double

variable {s : FloatChecks} {v : ℕ}

/-- The exponent that is kept of the one that was and that of a value of 64 bits. -/
def keptExponent (max_exponents_double : ℤ) (tmp_exponent : ℕ) : ℤ :=
  if |(tmp_exponent : ℤ) - 1023| < |max_exponents_double| then max_exponents_double
  else tmp_exponent - 1023

/-- The check of a value of 64 bits, written out. -/
theorem checkExponentAndFraction_double (check : ExponentCheck) (v : ℕ) :
    checkExponentAndFraction check v 64 =
      ({ check.compareBits (firstBits v) with
          max_exponents_X := if ExponentFits 64 v then
            keptExponent check.max_exponents_X (exponentField 64 v) else check.max_exponents_X },
        decide (ExponentFits 64 v)) := by
  have habs : ((if 1023 < exponentField 64 v then exponentField 64 v - 1023 else
      1023 - exponentField 64 v : ℕ) : ℤ) = |(exponentField 64 v : ℤ) - 1023| := by
    split_ifs with hlt
    · rw [abs_of_nonneg (by omega)]
      omega
    · rw [abs_of_nonpos (by omega)]
      omega
  unfold keptExponent
  rw [← habs, ← compareBits_max check (firstBits v)]
  unfold checkExponentAndFraction
  rw [if_pos rfl]
  by_cases hfits : ExponentFits 64 v
  · rw [if_pos hfits, decide_eq_true hfits]
    exact if_pos hfits
  · rw [if_neg hfits, decide_eq_false hfits]
    exact if_neg hfits

/-- The check succeeds when the exponent is in the range. -/
theorem checkDouble_possible :
    (s.checkDouble v).possible_float_type_overuse = true ↔ ExponentFits 64 v := by
  unfold FloatChecks.checkDouble
  rw [checkExponentAndFraction_double]
  exact decide_eq_true_iff

/-- The check remembers the first bits. -/
theorem checkDouble_last : (s.checkDouble v).last_first_20bits_double = firstBits v := by
  unfold FloatChecks.checkDouble
  rw [checkExponentAndFraction_double]
  exact compareBits_bits ..

/-- The check compares the first bits with those of the value before. -/
theorem checkDouble_same : (s.checkDouble v).all_first_20bits_double_same = true ↔
    s.all_first_20bits_double_same = true ∧
      (s.last_first_20bits_double = 0 ∨ firstBits v = s.last_first_20bits_double) := by
  unfold FloatChecks.checkDouble
  rw [checkExponentAndFraction_double]
  exact compareBits_same ..

/-- The kept exponent stays in its range. It is the largest there exactly when it was before or that
of the value is. -/
theorem checkDouble_max (hlow : -127 ≤ s.max_exponents_double)
    (hhigh : s.max_exponents_double ≤ 128) :
    (-127 ≤ (s.checkDouble v).max_exponents_double ∧
      (s.checkDouble v).max_exponents_double ≤ 128) ∧
    ((s.checkDouble v).max_exponents_double ≤ 127 ↔ s.max_exponents_double ≤ 127 ∧
      (ExponentFits 64 v → exponentField 64 v ≠ 1151)) := by
  have hmax : (s.checkDouble v).max_exponents_double = if ExponentFits 64 v then
      keptExponent s.max_exponents_double (exponentField 64 v) else s.max_exponents_double := by
    unfold FloatChecks.checkDouble
    rw [checkExponentAndFraction_double]
  rw [hmax]
  by_cases hfits : ExponentFits 64 v
  · have hrange : 896 ≤ exponentField 64 v ∧ exponentField 64 v ≤ 1151 := hfits
    rw [if_pos hfits, imp_iff_right hfits]
    unfold keptExponent
    rcases abs_cases s.max_exponents_double with ⟨h, hsign⟩ | ⟨h, hsign⟩ <;>
      rcases abs_cases ((exponentField 64 v : ℤ) - 1023) with ⟨h', hsign'⟩ | ⟨h', hsign'⟩ <;>
      rw [h, h'] <;> split_ifs <;> omega
  · rw [if_neg hfits, and_iff_left fun h => absurd h hfits]
    exact ⟨⟨hlow, hhigh⟩, Iff.rfl⟩

/-- What the loop over values of 64 bits has found. -/
theorem valueLoop_double (values : List ℕ) {s : FloatChecks}
    (hs : s.possible_float_type_overuse = true) (hlow : -127 ≤ s.max_exponents_double)
    (hhigh : s.max_exponents_double ≤ 128) :
    ((valueLoop 64 values s).all_first_20bits_double_same = true ↔
      s.all_first_20bits_double_same = true ∧
        (s.last_first_20bits_double ::
          (values.take ((fitting 64 values).length + 1)).map firstBits).IsChain
            fun bits bits' => bits = 0 ∨ bits' = bits) ∧
    ((valueLoop 64 values s).max_exponents_double ≤ 127 ↔
      s.max_exponents_double ≤ 127 ∧ ∀ v ∈ fitting 64 values, exponentField 64 v ≠ 1151) := by
  induction values generalizing s with
  | nil =>
    constructor
    · exact (and_iff_left (List.isChain_singleton _)).symm
    · exact (and_iff_left fun v hv => absurd hv List.not_mem_nil).symm
  | cons v values ih =>
    obtain ⟨⟨hlow', hhigh'⟩, hmax⟩ := checkDouble_max (v := v) hlow hhigh
    have hvalue : s.checkValue 64 v = s.checkDouble v := if_pos ⟨rfl, hlow, hhigh⟩
    rw [valueLoop_cons _ _ _ hs, hvalue]
    by_cases hfits : ExponentFits 64 v
    · -- The loop goes on, with the first bits of this value as the last ones.
      have hfitting : fitting 64 (v :: values) = v :: fitting 64 values :=
        List.takeWhile_cons_of_pos (decide_eq_true hfits)
      obtain ⟨hsame, hlargest⟩ := ih (checkDouble_possible.2 hfits) hlow' hhigh'
      rw [if_pos (checkDouble_possible.2 hfits), hfitting, hsame, hlargest, hmax,
        checkDouble_same, checkDouble_last, List.length_cons, List.take_succ_cons, List.map_cons,
        List.isChain_cons_cons, List.forall_mem_cons, imp_iff_right hfits]
      exact ⟨and_assoc, and_assoc⟩
    · -- The loop ends, but the first bits of this value have been compared.
      have hfitting : fitting 64 (v :: values) = [] :=
        List.takeWhile_cons_of_neg (by rw [decide_eq_false hfits]; exact Bool.false_ne_true)
      rw [if_neg (mt checkDouble_possible.1 hfits), hfitting, hmax, checkDouble_same,
        List.length_nil, List.take_succ_cons, List.take_zero, List.map_cons, List.map_nil,
        List.isChain_pair]
      exact ⟨Iff.rfl, and_congr_right fun _ => iff_of_true (fun h => absurd h hfits)
        fun v hv => absurd hv List.not_mem_nil⟩

end Double

/-! ## Values of 32 bits -/

section Float

variable {s : FloatChecks} {v : ℕ}

/-- A check of a value of 32 bits that succeeds leaves an exponent at which no further value is
checked. -/
theorem checkFloat_max (hzero : s.max_exponents_double = 0)
    (hcheck : (s.checkFloat v).possible_float_type_overuse = true) :
    (s.checkFloat v).max_exponents_double < -14 := by
  unfold FloatChecks.checkFloat checkExponentAndFraction at hcheck ⊢
  rw [if_neg (by decide), if_pos rfl] at hcheck ⊢
  dsimp only at hcheck ⊢
  generalize (v >>> 23) &&& 0x7f8 = tmp_exponent at hcheck ⊢
  by_cases hfits : 113 ≤ tmp_exponent ∧ tmp_exponent ≤ 142
  · rw [if_pos hfits, compareBits_max, hzero, abs_zero]
    dsimp only
    split_ifs <;> omega
  · rw [if_neg hfits] at hcheck
    exact absurd hcheck Bool.false_ne_true

/-- The first check of a value of 32 bits sees no change of the first bits. -/
theorem checkFloat_same (hlast : s.last_first_9bits_float = 0) :
    (s.checkFloat v).all_first_9bits_float_same = s.all_first_9bits_float_same := by
  have hbits := compareBits_same
    ⟨s.all_first_9bits_float_same, s.last_first_9bits_float, s.max_exponents_double⟩
    (0x7fc000 &&& v)
  rw [and_iff_left (.inl hlast), ← Bool.eq_iff_iff] at hbits
  unfold FloatChecks.checkFloat checkExponentAndFraction
  rw [if_neg (by decide), if_pos rfl]
  dsimp only
  split_ifs <;> exact hbits

/-- No value is checked once the kept exponent is out of its range. -/
theorem valueLoop_float_closed (values : List ℕ) (hs : s.possible_float_type_overuse = true)
    (hmax : s.max_exponents_double < -14) : valueLoop 32 values s = s := by
  induction values with
  | nil => rfl
  | cons v values ih =>
    have hvalue : s.checkValue 32 v = s :=
      (if_neg fun h => absurd h.1 (by decide)).trans (if_neg fun h => by omega)
    rw [valueLoop_cons _ _ _ hs, hvalue, if_pos hs, ih]

/-- The first bits of values of 32 bits are never seen to change. -/
theorem valueLoop_float (values : List ℕ) :
    (valueLoop 32 values {}).all_first_9bits_float_same = true := by
  cases values with
  | nil => rfl
  | cons v values =>
    have hvalue : ({} : FloatChecks).checkValue 32 v = ({} : FloatChecks).checkFloat v :=
      (if_neg fun h => absurd h.1 (by decide)).trans (if_pos ⟨rfl, by decide, by decide⟩)
    rw [valueLoop_cons _ _ _ rfl, hvalue]
    split_ifs with hcheck
    · -- The first check that succeeds closes the window for the exponents.
      rw [valueLoop_float_closed values hcheck (checkFloat_max rfl hcheck)]
      exact checkFloat_same rfl
    · exact checkFloat_same rfl

/-- The exponent of 32 bits is never kept. -/
theorem valueLoop_max_float (unit_size : ℕ) (values : List ℕ) {s : FloatChecks}
    (hs : s.possible_float_type_overuse = true) :
    (valueLoop unit_size values s).max_exponents_float = s.max_exponents_float := by
  induction values generalizing s with
  | nil => rfl
  | cons v values ih =>
    have hvalue : (s.checkValue unit_size v).max_exponents_float = s.max_exponents_float := by
      unfold FloatChecks.checkValue
      split_ifs <;> rfl
    rw [valueLoop_cons _ _ _ hs]
    split_ifs with hcheck
    · exact (ih hcheck).trans hvalue
    · exact hvalue

end Float

/-! ## Arrays with one value -/

section Counts

variable {s : AccessCounts} {m : OrderedMap ℕ ℕ}

/-- An item with one value. -/
theorem countItem_of_single {e : ℕ × ℕ} (h : m.toList = [e]) : s.countItem m =
    { unique_value_count := s.unique_value_count.update e.1 0 (· + 1)
      unique_item_count := s.unique_item_count + 1
      total_access_count := s.total_access_count + e.2
      total_unique_item_access_count := s.total_unique_item_access_count + e.2 } := by
  unfold AccessCounts.countItem
  rw [h]
  rfl

/-- An item with several values or none. -/
theorem countItem_of_ne (h : ∀ e, m.toList ≠ [e]) : s.countItem m =
    { s with total_access_count := s.total_access_count + (m.toList.map Prod.snd).sum } := by
  unfold AccessCounts.countItem
  split
  · exact absurd ‹_› (h _)
  · rfl

/-- The unique values are those of the items with one value. -/
theorem mem_unique_values (items : List (ℕ × OrderedMap ℕ ℕ)) (s : AccessCounts) (v : ℕ) :
    (∃ c, (v, c) ∈ (items.foldl (fun s item => s.countItem item.2) s).unique_value_count.toList) ↔
      (∃ c, (v, c) ∈ s.unique_value_count.toList) ∨
        ∃ item ∈ items, ∃ c, item.2.toList = [(v, c)] := by
  induction items generalizing s with
  | nil => simp
  | cons item items ih =>
    rw [List.foldl_cons, ih, List.exists_mem_cons_iff, ← or_assoc]
    refine or_congr_left ?_
    by_cases hsingle : ∃ e, item.2.toList = [e]
    · obtain ⟨e, he⟩ := hsingle
      have hvalue : v = e.1 ↔ ∃ c, item.2.toList = [(v, c)] := by
        rw [he]
        constructor
        · rintro rfl
          exact ⟨e.2, rfl⟩
        · rintro ⟨c, hc⟩
          exact (congrArg Prod.fst (List.cons.inj hc).1).symm
      rw [countItem_of_single he, OrderedMap.mem_keys_update, hvalue, or_comm]
    · rw [countItem_of_ne fun e he => hsingle ⟨e, he⟩]
      exact (or_iff_left fun ⟨c, hc⟩ => hsingle ⟨_, hc⟩).symm

/-- The accesses of items with one value are all accesses exactly when the other items have none. -/
theorem totals_eq_iff (items : List (ℕ × OrderedMap ℕ ℕ)) (s : AccessCounts)
    (hle : s.total_unique_item_access_count ≤ s.total_access_count) :
    (items.foldl (fun s item => s.countItem item.2) s).total_access_count =
        (items.foldl (fun s item => s.countItem item.2) s).total_unique_item_access_count ↔
      s.total_access_count = s.total_unique_item_access_count ∧
        ∀ item ∈ items, (∃ e, item.2.toList = [e]) ∨ (item.2.toList.map Prod.snd).sum = 0 := by
  induction items generalizing s with
  | nil => simp
  | cons item items ih =>
    rw [List.foldl_cons, List.forall_mem_cons]
    by_cases hsingle : ∃ e, item.2.toList = [e]
    · obtain ⟨e, he⟩ := hsingle
      rw [countItem_of_single he, ih _ (Nat.add_le_add_right hle e.2), Nat.add_right_cancel_iff,
        and_iff_right (.inl ⟨e, he⟩ : (∃ e, item.2.toList = [e]) ∨ _)]
    · have hrest := ih
        { s with total_access_count := s.total_access_count + (item.2.toList.map Prod.snd).sum }
        (hle.trans (Nat.le_add_right _ _))
      rw [countItem_of_ne fun e he => hsingle ⟨e, he⟩, hrest, or_iff_right hsingle, ← and_assoc]
      refine and_congr_left fun _ => ?_
      dsimp only
      omega

/-- The pattern is that of a single value, zero or not, exactly when the items with one value have
the same one and all accesses are theirs. -/
theorem valuePatternType_iff (tests : FloatTests) {unit_size : ℕ}
    (hunit : unit_size = 32 ∨ unit_size = 64) (array_items : ItemsValueCount) :
    (valuePatternType tests unit_size array_items = .SINGLE_VALUE ∨
      valuePatternType tests unit_size array_items = .REDUNDANT_ZEROS) ↔
    (∃ e, (accessCounts array_items).unique_value_count.toList = [e]) ∧
      (accessCounts array_items).total_access_count =
        (accessCounts array_items).total_unique_item_access_count := by
  unfold valuePatternType
  dsimp only
  split
  · rename_i v c hone
    rw [if_pos hunit, and_iff_right ⟨_, hone⟩]
    split_ifs with htotal hzero
    · exact iff_of_true (.inr rfl) htotal
    · exact iff_of_true (.inl rfl) htotal
    · exact iff_of_false (by simp) htotal
  · rename_i hne
    refine iff_of_false ?_ fun h => h.1.elim fun e he => hne e.1 e.2 he
    split_ifs <;> simp

/-- A value of an array is one of an item. -/
theorem mem_valuesOf {array_items : ItemsValueCount} {v : ℕ} :
    v ∈ valuesOf array_items ↔ ∃ item ∈ array_items.toList, ∃ c, (v, c) ∈ item.2.toList := by
  unfold valuesOf
  simp

/-- The unique values of an array are those of its items with one value. -/
theorem unique_value_iff {array_items : ItemsValueCount} {v : ℕ} :
    (∃ c, (v, c) ∈ (accessCounts array_items).unique_value_count.toList) ↔
      ∃ item ∈ array_items.toList, ∃ c, item.2.toList = [(v, c)] :=
  (mem_unique_values array_items.toList {} v).trans (or_iff_right fun ⟨c, hc⟩ => by cases hc)

/-- An item without accesses has no value. -/
theorem Recorded.eq_nil_of_sum {array_items : ItemsValueCount} (hrecorded : Recorded array_items)
    {item : ℕ × OrderedMap ℕ ℕ} (hitem : item ∈ array_items.toList)
    (hsum : (item.2.toList.map Prod.snd).sum = 0) : item.2.toList = [] := by
  refine List.eq_nil_iff_forall_not_mem.2 fun e he => ?_
  have hzero := List.sum_eq_zero_iff_forall_eq_nat.1 hsum e.2 (List.mem_map.2 ⟨e, he, rfl⟩)
  exact absurd hzero (hrecorded item hitem e he).ne'

/-- The pattern is that of a single value exactly when all values are the same. -/
theorem single_iff (tests : FloatTests) {unit_size : ℕ} (hunit : unit_size = 32 ∨ unit_size = 64)
    {array_items : ItemsValueCount} (hrecorded : Recorded array_items) :
    (valuePatternType tests unit_size array_items = .SINGLE_VALUE ∨
      valuePatternType tests unit_size array_items = .REDUNDANT_ZEROS) ↔
    OneValue (valuesOf array_items) := by
  rw [valuePatternType_iff tests hunit, accessCounts, totals_eq_iff _ _ le_rfl,
    and_iff_right (rfl : ({} : AccessCounts).total_access_count = _), ← accessCounts]
  constructor
  · -- The one unique value is that of every item that has a value.
    rintro ⟨⟨e, he⟩, hitems⟩
    have hone : ∀ w, (∃ item ∈ array_items.toList, ∃ c, item.2.toList = [(w, c)]) → w = e.1 := by
      intro w hw
      obtain ⟨c, hc⟩ := unique_value_iff.2 hw
      rw [he, List.mem_singleton] at hc
      exact congrArg Prod.fst hc
    refine ⟨e.1, ?_, fun w hw => ?_⟩
    · obtain ⟨item, hitem, c, hc⟩ := unique_value_iff.1 ⟨e.2, he ▸ List.mem_singleton_self e⟩
      exact mem_valuesOf.2 ⟨item, hitem, c, by rw [hc]; exact List.mem_singleton_self _⟩
    · obtain ⟨item, hitem, c, hc⟩ := mem_valuesOf.1 hw
      rcases hitems item hitem with ⟨e', he'⟩ | hsum
      · rw [he', List.mem_singleton] at hc
        exact hone w ⟨item, hitem, c, by rw [he', hc]⟩
      · rw [hrecorded.eq_nil_of_sum hitem hsum] at hc
        cases hc
  · -- Then no item has two values, and all that have one have the same.
    rintro ⟨v, hv, hall⟩
    have hsingle : ∀ item ∈ array_items.toList, item.2.toList = [] ∨ ∃ e, item.2.toList = [e] :=
      fun item hitem => item.2.toList_of_one_key fun e he =>
        hall e.1 (mem_valuesOf.2 ⟨item, hitem, e.2, he⟩)
    constructor
    · have hkey : ∀ e ∈ (accessCounts array_items).unique_value_count.toList, e.1 = v := by
        intro e he
        obtain ⟨item, hitem, c, hc⟩ := unique_value_iff.1 ⟨e.2, he⟩
        exact hall e.1 (mem_valuesOf.2 ⟨item, hitem, c, hc ▸ List.mem_singleton_self _⟩)
      refine (OrderedMap.toList_of_one_key _ hkey).resolve_left fun hnil => ?_
      obtain ⟨item, hitem, c, hc⟩ := mem_valuesOf.1 hv
      obtain ⟨e, he⟩ := (hsingle item hitem).resolve_left (List.ne_nil_of_mem hc)
      rw [he, List.mem_singleton] at hc
      obtain ⟨c', hc'⟩ := unique_value_iff.2 ⟨item, hitem, c, by rw [he, hc]⟩
      rw [hnil] at hc'
      cases hc'
    · intro item hitem
      rcases hsingle item hitem with hnil | hone
      · exact .inr (by rw [hnil]; rfl)
      · exact .inl hone

end Counts

/-! ## The report -/

section Report

variable {tests : FloatTests} {memory_size : ℕ} {array_items : ItemsValueCount}

/-- A chain may start from zero bits. -/
theorem isChain_zero_cons (l : List ℕ) :
    (0 :: l).IsChain (fun bits bits' => bits = 0 ∨ bits' = bits) ↔
      l.IsChain fun bits bits' => bits = 0 ∨ bits' = bits := by
  cases l with
  | nil => exact iff_of_true (List.isChain_singleton _) List.isChain_nil
  | cons a l => rw [List.isChain_cons_cons, and_iff_right (.inl rfl)]

/-- When a type is reported for values of 32 bits. -/
theorem denseFloatPattern_float (hmemory : memory_size ≠ 0) (hrecorded : Recorded array_items)
    (sizes : NarrowSizes) :
    denseFloatPattern tests 32 memory_size array_items = some sizes ↔
      ⟨16, 32, 32⟩ = sizes ∧ OneValue (valuesOf array_items) := by
  have hmax :
      (valueLoop 32 (valuesOf array_items) {}).max_exponents_float ≤ MAX_FLOAT_EXPONENT := by
    rw [valueLoop_max_float _ _ rfl]
    decide
  unfold denseFloatPattern
  dsimp only
  rw [if_neg hmemory, if_pos rfl, Option.ite_none_right_eq_some, Option.some.injEq,
    and_comm,
    single_iff tests (.inl rfl) hrecorded, floatChecks_eq, valueLoop_float,
    or_iff_left (not_not.2 rfl), and_iff_left hmax]

/-- When a type is reported for values of 64 bits. -/
theorem denseFloatPattern_double (hmemory : memory_size ≠ 0) (hrecorded : Recorded array_items)
    (sizes : NarrowSizes) :
    denseFloatPattern tests 64 memory_size array_items = some sizes ↔
      ⟨32, 64, 64⟩ = sizes ∧
        (OneValue (valuesOf array_items) ∨
          ¬Steady ((valuesOf array_items).take ((fitting 64 (valuesOf array_items)).length + 1))) ∧
        ∀ v ∈ fitting 64 (valuesOf array_items), exponentField 64 v ≠ 1151 := by
  obtain ⟨hsame, hmax⟩ := valueLoop_double (valuesOf array_items) (s := {}) rfl (by decide)
    (by decide)
  rw [and_iff_right rfl, isChain_zero_cons] at hsame
  rw [and_iff_right (by decide)] at hmax
  unfold denseFloatPattern
  dsimp only
  rw [if_neg hmemory, if_neg (by decide), if_pos rfl, Option.ite_none_right_eq_some,
    Option.some.injEq, and_comm,
    single_iff tests (.inr rfl) hrecorded, floatChecks_eq, hsame, MAX_DOUBLE_EXPONENT, hmax]
  rfl

/-- No exponent is missed when all exponents fit as soon as there is one value, or the first bits
are seen to change and the largest exponent is not met. -/
theorem noExponentMissed_iff {unit_size : ℕ} {values : List ℕ} :
    NoExponentMissed unit_size values ↔
      (OneValue values ∨ unit_size = 64 ∧
        ¬Steady (values.take ((fitting 64 values).length + 1)) ∧
        ∀ v ∈ fitting 64 values, exponentField 64 v ≠ 1151) →
      ∀ v ∈ values, ExponentFits unit_size v := by
  unfold NoExponentMissed
  have hsteady : (Steady (values.take ((fitting 64 values).length + 1)) ∨
      ∃ v ∈ fitting 64 values, exponentField 64 v = 1151) ↔
      ¬(¬Steady (values.take ((fitting 64 values).length + 1)) ∧
        ∀ v ∈ fitting 64 values, exponentField 64 v ≠ 1151) := by
    rw [not_and_or, not_not]
    simp only [ne_eq, not_forall, not_not, exists_prop]
  rw [hsteady, ← not_and, ← not_or, or_comm, ← imp_iff_not_or]

/-- When all values are the same, they fit or none is in front of the first that does not. -/
theorem fits_or_fitting_eq_nil {values : List ℕ} (hone : OneValue values) :
    (∀ v ∈ values, ExponentFits 64 v) ∨ fitting 64 values = [] := by
  obtain ⟨v, -, hall⟩ := hone
  by_cases hfits : ExponentFits 64 v
  · exact .inl fun w hw => by rwa [hall w hw]
  · refine .inr (List.takeWhile_eq_nil_iff.2 fun hpos hhead => hfits ?_)
    rw [← hall _ (List.getElem_mem hpos)]
    exact of_decide_eq_true hhead

/-- All exponents are in the range of the type that is reported exactly when the block has no length
or no exponent is missed. -/
theorem float_overuse_sound_iff (tests : FloatTests) {unit_size : ℕ}
    (hunit : unit_size = 32 ∨ unit_size = 64) (memory_size : ℕ)
    (hrecorded : Recorded array_items) :
    FloatOveruseSound tests unit_size memory_size array_items ↔
      memory_size = 0 ∨ NoExponentMissed unit_size (valuesOf array_items) := by
  unfold FloatOveruseSound
  by_cases hmemory : memory_size = 0
  · refine iff_of_true (fun sizes hsizes => ?_) (.inl hmemory)
    unfold denseFloatPattern at hsizes
    dsimp only at hsizes
    rw [if_pos hmemory] at hsizes
    cases hsizes
  · rw [or_iff_right hmemory, noExponentMissed_iff]
    rcases hunit with rfl | rfl
    · simp only [denseFloatPattern_float hmemory hrecorded]
      constructor
      · rintro hsound (hone | ⟨hunit, -⟩)
        · exact hsound _ ⟨rfl, hone⟩ rfl
        · exact absurd hunit (by decide)
      · rintro hmissed sizes ⟨-, hone⟩ -
        exact hmissed (.inl hone)
    · simp only [denseFloatPattern_double hmemory hrecorded]
      constructor
      · rintro hsound (hone | ⟨-, hsteady, hmax⟩)
        · rcases fits_or_fitting_eq_nil hone with hfits | hnil
          · exact hfits
          · refine hsound _ ⟨rfl, .inl hone, fun v hv => ?_⟩ rfl
            rw [hnil] at hv
            cases hv
        · exact hsound _ ⟨rfl, .inr hsteady, hmax⟩ rfl
      · rintro hmissed sizes ⟨-, hone | hsteady, hmax⟩ -
        · exact hmissed (.inl hone)
        · exact hmissed (.inr ⟨trivial, hsteady, hmax⟩)

end Report

/-- The comparisons of an array of values that are not next to zero. -/
def farTests : FloatTests := ⟨fun _ => false, fun _ _ _ => false⟩

/-- An array of one item with one value. -/
def oneItem (v : ℕ) : ItemsValueCount := NestedMap.put ∅ 0 v 1

theorem recorded_oneItem (v : ℕ) : Recorded (oneItem v) := by
  intro item hitem temp_value hvalue
  rw [List.mem_singleton.1 hitem] at hvalue
  rw [List.mem_singleton.1 hvalue]
  exact Nat.one_pos

theorem float_overuse_sound_one : FloatOveruseSound farTests 32 4 (oneItem 0x3f800000) :=
  (float_overuse_sound_iff farTests (.inl rfl) 4 (recorded_oneItem _)).2 (.inr (.inl (by decide)))

/-- The value `2^127` is to be kept in 16 bits. -/
theorem float_overuse_large : ¬FloatOveruseSound farTests 32 4 (oneItem 0x7f000000) := by
  intro h
  exact absurd (h ⟨16, 32, 32⟩ (by decide +kernel) rfl 0x7f000000 (by decide)) (by decide)

end TenProf.ValuePattern
