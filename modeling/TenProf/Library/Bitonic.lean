import Mathlib.Order.Hom.Basic
import Mathlib.Order.MinMax
import Mathlib.Data.List.Nodup
import Mathlib.Data.Set.Basic
import Mathlib.Tactic.Ring

/-!
# The bitonic sorting network

The network works on the values of `2^n` lanes. `exchange up j` compares each lane with the lane
whose number differs in bit `j`; one of the two takes the larger value, the other one the smaller.
`bitonicMerge up m` compares along the bits `m - 1` down to `0`, and `bitonicSort n` merges blocks
of `2`, `4` and so on up to `2^n` lanes, the blocks in alternating directions.

The network sorts (`bitonicSort_le`). It commutes with monotone maps, so it is enough to look at
values that are false or true (`bitonicSort_comp`). A block of such values is bitonic when the lanes
that are true, or those that are false, are an interval; a merge sorts a bitonic block
(`bitonicMerge_of_bitonic`), and two blocks that are sorted in opposite directions are a bitonic
block of twice the size.
-/

namespace TenProf

variable {α β : Type*} [LinearOrder α] [LinearOrder β]

/-- Each lane is compared with the lane that differs in bit `j`. Among the two, the one whose bit
`j` is `up` takes the larger value. -/
def exchange (up : ℕ → Bool) (j : ℕ) (x : ℕ → α) (l : ℕ) : α :=
  if l.testBit j = up l then max (x l) (x (l ^^^ 2^j)) else min (x l) (x (l ^^^ 2^j))

/-- The comparisons along the bits below `m`, from the highest one on. -/
def bitonicMerge (up : ℕ → Bool) : ℕ → (ℕ → α) → ℕ → α
  | 0, x => x
  | m + 1, x => bitonicMerge up m (exchange up m x)

/-- The merges of the blocks of `2^1` up to `2^n` lanes. A block is sorted upwards when its number
is even. -/
def bitonicSort : ℕ → (ℕ → α) → ℕ → α
  | 0, x => x
  | n + 1, x => bitonicMerge (fun l => !l.testBit (n + 1)) (n + 1) (bitonicSort n x)

/-! ## The numbers of the lanes -/

/-- The partner of a lane in the lower half of a block is in the upper half. -/
theorem xor_two_pow_of_lt (c : ℕ) {m i : ℕ} (hi : i < 2^m) :
    (2^(m + 1) * c + i) ^^^ 2^m = 2^(m + 1) * c + (2^m + i) := by
  have hi' : i < 2^(m + 1) := hi.trans (Nat.pow_lt_pow_right (by omega) (Nat.lt_succ_self m))
  have hup : 2^m + i < 2^(m + 1) := by
    rw [Nat.pow_succ]
    omega
  apply Nat.eq_of_testBit_eq
  intro j
  rw [Nat.testBit_xor, Nat.testBit_two_pow_mul_add c hi', Nat.testBit_two_pow_mul_add c hup,
    Nat.testBit_two_pow]
  rcases lt_trichotomy j m with hj | rfl | hj
  · rw [Nat.testBit_two_pow_add_gt hj]
    simp [hj.ne', hj.trans (Nat.lt_succ_self m)]
  · rw [Nat.testBit_two_pow_add_eq]
    simp
  · simp [hj.ne, Nat.not_lt.2 hj]

/-- The partner of a lane in the upper half of a block is in the lower half. -/
theorem xor_two_pow_of_le (c : ℕ) {m i : ℕ} (hi : i < 2^m) :
    (2^(m + 1) * c + (2^m + i)) ^^^ 2^m = 2^(m + 1) * c + i := by
  rw [← xor_two_pow_of_lt c hi, Nat.xor_assoc, Nat.xor_self, Nat.xor_zero]

/-- The bit of a lane in the lower half of a block. -/
theorem testBit_of_lt (c : ℕ) {m i : ℕ} (hi : i < 2^m) :
    (2^(m + 1) * c + i).testBit m = false := by
  have hi' : i < 2^(m + 1) := hi.trans (Nat.pow_lt_pow_right (by omega) (Nat.lt_succ_self m))
  rw [Nat.testBit_two_pow_mul_add c hi', if_pos (Nat.lt_succ_self m), Nat.testBit_lt_two_pow hi]

/-- The bit of a lane in the upper half of a block. -/
theorem testBit_of_le (c : ℕ) {m i : ℕ} (hi : i < 2^m) :
    (2^(m + 1) * c + (2^m + i)).testBit m = true := by
  have hup : 2^m + i < 2^(m + 1) := by
    rw [Nat.pow_succ]
    omega
  rw [Nat.testBit_two_pow_mul_add c hup, if_pos (Nat.lt_succ_self m), Nat.testBit_two_pow_add_eq,
    Nat.testBit_lt_two_pow hi]
  rfl

/-- The lower half of a block. -/
theorem lower_half (c m i : ℕ) : 2^(m + 1) * c + i = 2^m * (2 * c) + i := by
  ring

/-- The upper half of a block. -/
theorem upper_half (c m i : ℕ) : 2^(m + 1) * c + (2^m + i) = 2^m * (2 * c + 1) + i := by
  ring

/-! ## The values -/

/-- A comparison commutes with a monotone map. -/
theorem exchange_comp {f : α → β} (hf : Monotone f) (up : ℕ → Bool) (j : ℕ) (x : ℕ → α) :
    exchange up j (f ∘ x) = f ∘ exchange up j x := by
  funext l
  unfold exchange
  simp only [Function.comp_apply]
  split_ifs
  · exact (hf.map_max).symm
  · exact (hf.map_min).symm

/-- A merge commutes with a monotone map. -/
theorem bitonicMerge_comp {f : α → β} (hf : Monotone f) (up : ℕ → Bool) (m : ℕ) (x : ℕ → α) :
    bitonicMerge up m (f ∘ x) = f ∘ bitonicMerge up m x := by
  induction m generalizing x with
  | zero => rfl
  | succ m ih =>
    calc bitonicMerge up (m + 1) (f ∘ x) = bitonicMerge up m (exchange up m (f ∘ x)) := rfl
      _ = bitonicMerge up m (f ∘ exchange up m x) := by rw [exchange_comp hf]
      _ = f ∘ bitonicMerge up (m + 1) x := ih _

/-- The network commutes with a monotone map. -/
theorem bitonicSort_comp {f : α → β} (hf : Monotone f) (n : ℕ) (x : ℕ → α) :
    bitonicSort n (f ∘ x) = f ∘ bitonicSort n x := by
  induction n with
  | zero => rfl
  | succ n ih =>
    show bitonicMerge _ (n + 1) (bitonicSort n (f ∘ x)) = _
    rw [ih, bitonicMerge_comp hf]
    rfl

/-- Only the values and the directions of the first lanes matter to them. -/
theorem bitonicMerge_congr {up up' : ℕ → Bool} {x x' : ℕ → α} {n m : ℕ} (hm : m ≤ n)
    (hup : ∀ l < 2^n, up l = up' l) (hx : ∀ l < 2^n, x l = x' l) {l : ℕ} (hl : l < 2^n) :
    bitonicMerge up m x l = bitonicMerge up' m x' l := by
  induction m generalizing x x' with
  | zero => exact hx l hl
  | succ m ih =>
    refine ih (by omega) fun k hk => ?_
    have hpartner : k ^^^ 2^m < 2^n :=
      Nat.xor_lt_two_pow hk (Nat.pow_lt_pow_right (by omega) (by omega))
    unfold exchange
    rw [hup k hk, hx k hk, hx _ hpartner]

/-- The values that a block of lanes has. -/
def blockValues {α : Type*} (x : ℕ → α) (m c : ℕ) : Set α := {v | ∃ i < 2^m, x (2^m * c + i) = v}

/-- The values of a block are those of its halves. -/
theorem blockValues_succ {α : Type*} (x : ℕ → α) (m c : ℕ) :
    blockValues x (m + 1) c = blockValues x m (2 * c) ∪ blockValues x m (2 * c + 1) := by
  ext v
  constructor
  · rintro ⟨i, hi, rfl⟩
    rcases lt_or_ge i (2^m) with hlt | hge
    · exact .inl ⟨i, hlt, by rw [lower_half]⟩
    · obtain ⟨k, rfl⟩ := Nat.exists_eq_add_of_le hge
      have hk : k < 2^m := by
        rw [Nat.pow_succ] at hi
        omega
      exact .inr ⟨k, hk, by rw [upper_half]⟩
  · have hpow : 2^(m + 1) = 2^m + 2^m := by
      rw [Nat.pow_succ]
      omega
    rintro (⟨i, hi, rfl⟩ | ⟨i, hi, rfl⟩)
    · exact ⟨i, by omega, by rw [lower_half]⟩
    · exact ⟨2^m + i, by omega, by rw [upper_half]⟩

/-- A comparison within a block keeps its values. -/
theorem blockValues_exchange {up : ℕ → Bool} {m c : ℕ} (x : ℕ → α)
    (hup : ∀ i < 2^m, up (2^(m + 1) * c + i) = up (2^(m + 1) * c + (2^m + i))) :
    blockValues (exchange up m x) (m + 1) c = blockValues x (m + 1) c := by
  -- The two lanes of a pair get the two values of the pair.
  have hpair : ∀ i < 2^m, ∀ v,
      (exchange up m x (2^(m + 1) * c + i) = v ∨
        exchange up m x (2^(m + 1) * c + (2^m + i)) = v) ↔
      (x (2^(m + 1) * c + i) = v ∨ x (2^(m + 1) * c + (2^m + i)) = v) := by
    intro i hi v
    unfold exchange
    rw [xor_two_pow_of_lt c hi, xor_two_pow_of_le c hi, testBit_of_lt c hi, testBit_of_le c hi,
      ← hup i hi]
    rcases le_total (x (2^(m + 1) * c + i)) (x (2^(m + 1) * c + (2^m + i))) with hle | hle
    · cases up (2^(m + 1) * c + i) <;> simp [hle, or_comm]
    · cases up (2^(m + 1) * c + i) <;> simp [hle, or_comm]
  rw [blockValues_succ, blockValues_succ]
  ext v
  simp only [blockValues, Set.mem_union, Set.mem_ofPred_eq, ← lower_half, ← upper_half]
  constructor
  · rintro (⟨i, hi, h⟩ | ⟨i, hi, h⟩)
    · exact ((hpair i hi v).1 (.inl h)).imp (fun h => ⟨i, hi, h⟩) fun h => ⟨i, hi, h⟩
    · exact ((hpair i hi v).1 (.inr h)).imp (fun h => ⟨i, hi, h⟩) fun h => ⟨i, hi, h⟩
  · rintro (⟨i, hi, h⟩ | ⟨i, hi, h⟩)
    · exact ((hpair i hi v).2 (.inl h)).imp (fun h => ⟨i, hi, h⟩) fun h => ⟨i, hi, h⟩
    · exact ((hpair i hi v).2 (.inr h)).imp (fun h => ⟨i, hi, h⟩) fun h => ⟨i, hi, h⟩

/-- The lanes of the blocks of `2^m` lanes all take the same direction within a block. -/
def SameDirection (up : ℕ → Bool) (m c : ℕ) (u : Bool) : Prop := ∀ i < 2^m, up (2^m * c + i) = u

theorem SameDirection.lower {up : ℕ → Bool} {m c : ℕ} {u : Bool}
    (h : SameDirection up (m + 1) c u) : SameDirection up m (2 * c) u := by
  intro i hi
  rw [← lower_half]
  exact h i (hi.trans (Nat.pow_lt_pow_right (by decide) (Nat.lt_succ_self m)))

theorem SameDirection.upper {up : ℕ → Bool} {m c : ℕ} {u : Bool}
    (h : SameDirection up (m + 1) c u) : SameDirection up m (2 * c + 1) u := by
  intro i hi
  rw [← upper_half]
  refine h _ ?_
  rw [Nat.pow_succ]
  omega

/-- A merge within a block keeps its values. -/
theorem blockValues_bitonicMerge {up : ℕ → Bool} {m c : ℕ} {u : Bool} (x : ℕ → α)
    (hup : SameDirection up m c u) : blockValues (bitonicMerge up m x) m c = blockValues x m c := by
  induction m generalizing x c with
  | zero => rfl
  | succ m ih =>
    rw [bitonicMerge, blockValues_succ, ih _ hup.lower, ih _ hup.upper, ← blockValues_succ]
    refine blockValues_exchange x fun i hi => ?_
    have hpow : 2^(m + 1) = 2^m + 2^m := by
      rw [Nat.pow_succ]
      omega
    rw [hup i (by omega), hup (2^m + i) (by omega)]

/-- The direction of a block in the network: upwards when its number is even. -/
theorem sameDirection_bitonicSort (n c : ℕ) :
    SameDirection (fun l => !l.testBit n) n c (!c.testBit 0) := by
  intro i hi
  simp only
  rw [Nat.testBit_two_pow_mul_add c hi, if_neg (lt_irrefl n), Nat.sub_self]

/-- The network keeps the values of its blocks. -/
theorem blockValues_bitonicSort (n c : ℕ) (x : ℕ → α) :
    blockValues (bitonicSort n x) n c = blockValues x n c := by
  induction n generalizing c with
  | zero => rfl
  | succ n ih =>
    rw [bitonicSort, blockValues_bitonicMerge _ (sameDirection_bitonicSort (n + 1) c),
      blockValues_succ, ih, ih, ← blockValues_succ]

/-! ## Values that are false or true -/

/-- The lanes of a block that have one of the two values are an interval. -/
def Bitonic (x : ℕ → Bool) (m c : ℕ) : Prop :=
  ∃ v a b, ∀ i < 2^m, x (2^m * c + i) = v ↔ a ≤ i ∧ i < b

/-- A block is sorted, upwards or downwards. -/
def SortedBlock (x : ℕ → α) (m c : ℕ) : Bool → Prop
  | true => ∀ i j, i ≤ j → j < 2^m → x (2^m * c + i) ≤ x (2^m * c + j)
  | false => ∀ i j, i ≤ j → j < 2^m → x (2^m * c + j) ≤ x (2^m * c + i)

/-- When the places of a value are an interval, those at which both halves have it are one. -/
theorem both_halves_iff {p : ℕ → Prop} {a b h : ℕ} (hp : ∀ i < 2 * h, p i ↔ a ≤ i ∧ i < b) :
    ∀ i < h, (p i ∧ p (h + i)) ↔ a ≤ i ∧ i < b - h := by
  intro i hi
  rw [hp i (by omega), hp (h + i) (by omega)]
  omega

/-- When the places of a value are an interval, those at which one of the halves has it are an
interval or all others. -/
theorem either_half_iff {p : ℕ → Prop} {a b h : ℕ} (hp : ∀ i < 2 * h, p i ↔ a ≤ i ∧ i < b) :
    (∃ c d, ∀ i < h, (p i ∨ p (h + i)) ↔ c ≤ i ∧ i < d) ∨
      ∃ c d, ∀ i < h, ¬(p i ∨ p (h + i)) ↔ c ≤ i ∧ i < d := by
  have heither : ∀ i < h, (p i ∨ p (h + i)) ↔ (a ≤ i ∧ i < b) ∨ a ≤ h + i ∧ h + i < b := by
    intro i hi
    rw [hp i (by omega), hp (h + i) (by omega)]
  by_cases hlower : b ≤ h
  · -- The interval lies in the lower half.
    refine Or.inl ⟨a, b, fun i hi => ?_⟩
    rw [heither i hi]
    omega
  · by_cases hupper : h ≤ a
    · -- The interval lies in the upper half.
      refine Or.inl ⟨a - h, b - h, fun i hi => ?_⟩
      rw [heither i hi]
      omega
    · -- The interval has the end of the lower half and the start of the upper half.
      refine Or.inr ⟨b - h, a, fun i hi => ?_⟩
      rw [heither i hi]
      omega

/-- When the places of a value are an interval, the halves have it nowhere together, or everywhere
at least one of them has it. -/
theorem both_or_either {p : ℕ → Prop} {a b h : ℕ} (hp : ∀ i < 2 * h, p i ↔ a ≤ i ∧ i < b) :
    (∀ i < h, ¬(p i ∧ p (h + i))) ∨ ∀ i < h, p i ∨ p (h + i) := by
  by_cases hlong : a ≤ h ∧ a + h ≤ b
  · refine Or.inr fun i hi => ?_
    rw [hp i (by omega), hp (h + i) (by omega)]
    omega
  · refine Or.inl fun i hi => ?_
    rw [both_halves_iff hp i hi]
    omega

/-- The lanes of the two halves of a block after the comparison along its highest bit: one half gets
the smaller values of the pairs, the other one the larger values. -/
theorem exchange_halves {up : ℕ → Bool} {m c : ℕ} {u : Bool} (hup : SameDirection up (m + 1) c u)
    (x : ℕ → α) {i : ℕ} (hi : i < 2^m) :
    exchange up m x (2^m * (2 * c) + i) =
        (if u then min else max) (x (2^m * (2 * c) + i)) (x (2^m * (2 * c + 1) + i)) ∧
      exchange up m x (2^m * (2 * c + 1) + i) =
        (if u then max else min) (x (2^m * (2 * c) + i)) (x (2^m * (2 * c + 1) + i)) := by
  have hlow := hup.lower i hi
  have hhigh := hup.upper i hi
  unfold exchange
  rw [hlow, hhigh, ← lower_half, ← upper_half, xor_two_pow_of_lt c hi, xor_two_pow_of_le c hi,
    testBit_of_lt c hi, testBit_of_le c hi]
  cases u <;> simp [max_comm, min_comm]

/-- The places of one of two values in a half are an interval. -/
def IntervalOf (y : ℕ → Bool) (h : ℕ) : Prop := ∃ v a b, ∀ i < h, y i = v ↔ a ≤ i ∧ i < b

/-- When a value's places in two halves are an interval, so it is with the smaller values of the
pairs and with the larger ones, and all smaller values are false or all larger ones are true. -/
theorem intervalOf_pairs {p : ℕ → Prop} {a b h : ℕ} (hp : ∀ i < 2 * h, p i ↔ a ≤ i ∧ i < b)
    {y z : ℕ → Bool} {v : Bool} (hy : ∀ i < h, y i = v ↔ p i) (hz : ∀ i < h, z i = v ↔ p (h + i)) :
    IntervalOf (fun i => min (y i) (z i)) h ∧ IntervalOf (fun i => max (y i) (z i)) h ∧
      ((∀ i < h, min (y i) (z i) = false) ∨ ∀ i < h, max (y i) (z i) = true) := by
  have hand : ∀ i < h, (y i = v ∧ z i = v) ↔ p i ∧ p (h + i) := fun i hi => by
    rw [hy i hi, hz i hi]
  have hor : ∀ i < h, (y i = v ∨ z i = v) ↔ p i ∨ p (h + i) := fun i hi => by
    rw [hy i hi, hz i hi]
  -- Of the two halves, one has the value where both have it, the other where one has it.
  have hboth : IntervalOf (fun i => if v then min (y i) (z i) else max (y i) (z i)) h := by
    refine ⟨v, a, b - h, fun i hi => ?_⟩
    rw [← both_halves_iff hp i hi, ← hand i hi]
    exact (by decide : ∀ v y z : Bool,
      (if v then min y z else max y z) = v ↔ y = v ∧ z = v) v (y i) (z i)
  have heither : IntervalOf (fun i => if v then max (y i) (z i) else min (y i) (z i)) h := by
    rcases either_half_iff hp with ⟨c, d, hcd⟩ | ⟨c, d, hcd⟩
    · refine ⟨v, c, d, fun i hi => ?_⟩
      rw [← hcd i hi, ← hor i hi]
      exact (by decide : ∀ v y z : Bool,
        (if v then max y z else min y z) = v ↔ y = v ∨ z = v) v (y i) (z i)
    · refine ⟨!v, c, d, fun i hi => ?_⟩
      rw [← hcd i hi, ← hor i hi]
      exact (by decide : ∀ v y z : Bool,
        (if v then max y z else min y z) = !v ↔ ¬(y = v ∨ z = v)) v (y i) (z i)
  have hsides := both_or_either hp
  cases v with
  | false =>
    refine ⟨heither, hboth, hsides.symm.imp (fun hall i hi => ?_) fun hnone i hi => ?_⟩
    · exact (by decide : ∀ y z : Bool, y = false ∨ z = false → min y z = false) _ _
        ((hor i hi).2 (hall i hi))
    · exact (by decide : ∀ y z : Bool, ¬(y = false ∧ z = false) → max y z = true) _ _
        (mt (hand i hi).1 (hnone i hi))
  | true =>
    refine ⟨hboth, heither, hsides.imp (fun hnone i hi => ?_) fun hall i hi => ?_⟩
    · exact (by decide : ∀ y z : Bool, ¬(y = true ∧ z = true) → min y z = false) _ _
        (mt (hand i hi).1 (hnone i hi))
    · exact (by decide : ∀ y z : Bool, y = true ∨ z = true → max y z = true) _ _
        ((hor i hi).2 (hall i hi))

/-- The comparison along the highest bit of a bitonic block makes its halves bitonic, and puts the
values of one half before those of the other. -/
theorem exchange_of_bitonic {up : ℕ → Bool} {m c : ℕ} {u : Bool}
    (hup : SameDirection up (m + 1) c u) {x : ℕ → Bool} (hx : Bitonic x (m + 1) c) :
    (Bitonic (exchange up m x) m (2 * c) ∧ Bitonic (exchange up m x) m (2 * c + 1)) ∧
      ∀ v ∈ blockValues (exchange up m x) m (2 * c),
        ∀ w ∈ blockValues (exchange up m x) m (2 * c + 1), if u then v ≤ w else w ≤ v := by
  obtain ⟨v, a, b, hv⟩ := hx
  have hp : ∀ i < 2 * 2^m, x (2^(m + 1) * c + i) = v ↔ a ≤ i ∧ i < b := fun i hi =>
    hv i (by rwa [Nat.pow_succ, Nat.mul_comm])
  obtain ⟨hmin, hmax, hsides⟩ := intervalOf_pairs hp
    (y := fun i => x (2^m * (2 * c) + i)) (z := fun i => x (2^m * (2 * c + 1) + i))
    (fun i _ => by rw [lower_half]) (fun i _ => by rw [upper_half])
  have hlower := fun i hi => (exchange_halves hup x (i := i) hi).1
  have hupper := fun i hi => (exchange_halves hup x (i := i) hi).2
  cases u with
  | false =>
    refine ⟨⟨?_, ?_⟩, ?_⟩
    · obtain ⟨v, a, b, h⟩ := hmax
      exact ⟨v, a, b, fun i hi => by rw [hlower i hi]; exact h i hi⟩
    · obtain ⟨v, a, b, h⟩ := hmin
      exact ⟨v, a, b, fun i hi => by rw [hupper i hi]; exact h i hi⟩
    · rintro v ⟨i, hi, rfl⟩ w ⟨j, hj, rfl⟩
      rw [hlower i hi, hupper j hj]
      show min _ _ ≤ max _ _
      rcases hsides with hfalse | htrue
      · exact (hfalse j hj).le.trans (Bool.false_le _)
      · exact (Bool.le_true _).trans (htrue i hi).ge
  | true =>
    refine ⟨⟨?_, ?_⟩, ?_⟩
    · obtain ⟨v, a, b, h⟩ := hmin
      exact ⟨v, a, b, fun i hi => by rw [hlower i hi]; exact h i hi⟩
    · obtain ⟨v, a, b, h⟩ := hmax
      exact ⟨v, a, b, fun i hi => by rw [hupper i hi]; exact h i hi⟩
    · rintro v ⟨i, hi, rfl⟩ w ⟨j, hj, rfl⟩
      rw [hlower i hi, hupper j hj]
      show min _ _ ≤ max _ _
      rcases hsides with hfalse | htrue
      · exact (hfalse i hi).le.trans (Bool.false_le _)
      · exact (Bool.le_true _).trans (htrue j hj).ge

/-- A block of one lane is sorted. -/
theorem sortedBlock_zero (x : ℕ → α) (c : ℕ) (u : Bool) : SortedBlock x 0 c u := by
  have hone : ∀ i j, i ≤ j → j < 2^0 → i = j := by
    intro i j hij hj
    rw [Nat.pow_zero] at hj
    omega
  cases u <;> exact fun i j hij hj => hone i j hij hj ▸ le_rfl

/-- Two sorted halves, of which one has its values before those of the other, are sorted. -/
theorem SortedBlock.append {x : ℕ → α} {m c : ℕ} {u : Bool} (hlower : SortedBlock x m (2 * c) u)
    (hupper : SortedBlock x m (2 * c + 1) u)
    (hcross : ∀ v ∈ blockValues x m (2 * c), ∀ w ∈ blockValues x m (2 * c + 1),
      if u then v ≤ w else w ≤ v) : SortedBlock x (m + 1) c u := by
  have hpow : 2^(m + 1) = 2^m + 2^m := by
    rw [Nat.pow_succ]
    omega
  -- The places of two values: both in one half, or one in each.
  have hcases : ∀ i j, i ≤ j → j < 2^(m + 1) →
      if u then x (2^(m + 1) * c + i) ≤ x (2^(m + 1) * c + j)
      else x (2^(m + 1) * c + j) ≤ x (2^(m + 1) * c + i) := by
    intro i j hij hj
    rcases lt_or_ge j (2^m) with hjlow | hjhigh
    · rw [lower_half, lower_half]
      cases u <;> exact hlower i j hij hjlow
    · obtain ⟨j, rfl⟩ := Nat.exists_eq_add_of_le hjhigh
      rw [upper_half]
      rcases lt_or_ge i (2^m) with hilow | hihigh
      · rw [lower_half]
        exact hcross _ ⟨i, hilow, rfl⟩ _ ⟨j, by omega, rfl⟩
      · obtain ⟨i, rfl⟩ := Nat.exists_eq_add_of_le hihigh
        rw [upper_half]
        cases u <;> exact hupper i j (by omega) (by omega)
  cases u <;> exact hcases

/-- A merge sorts a bitonic block. -/
theorem bitonicMerge_of_bitonic {up : ℕ → Bool} {m c : ℕ} {u : Bool} (hup : SameDirection up m c u)
    {x : ℕ → Bool} (hx : Bitonic x m c) : SortedBlock (bitonicMerge up m x) m c u := by
  induction m generalizing x c with
  | zero => exact sortedBlock_zero _ c u
  | succ m ih =>
    obtain ⟨⟨hlower, hupper⟩, hcross⟩ := exchange_of_bitonic hup hx
    rw [bitonicMerge]
    refine (ih hup.lower hlower).append (ih hup.upper hupper) ?_
    rw [blockValues_bitonicMerge _ hup.lower, blockValues_bitonicMerge _ hup.upper]
    exact hcross

/-- A property that is kept from a place to the later ones holds from some place on. -/
theorem exists_threshold {p : ℕ → Prop} {h : ℕ} (hp : ∀ i j, i ≤ j → j < h → p i → p j) :
    ∃ a ≤ h, ∀ i < h, p i ↔ a ≤ i := by
  classical
  have hex : ∃ a, a = h ∨ p a := ⟨h, Or.inl rfl⟩
  refine ⟨Nat.find hex, Nat.find_min' hex (Or.inl rfl), fun i hi => ⟨fun hpi => ?_, fun hle => ?_⟩⟩
  · exact Nat.find_min' hex (Or.inr hpi)
  · rcases Nat.find_spec hex with heq | hfirst
    · omega
    · exact hp _ i hle hi hfirst

/-- The places of the true values in a block that is sorted upwards. -/
theorem exists_of_sorted_up {x : ℕ → Bool} {m c : ℕ} (h : SortedBlock x m c true) :
    ∃ a ≤ 2^m, ∀ i < 2^m, x (2^m * c + i) = true ↔ a ≤ i :=
  exists_threshold fun i j hij hj hi => Bool.le_iff_imp.1 (h i j hij hj) hi

/-- The places of the true values in a block that is sorted downwards. -/
theorem exists_of_sorted_down {x : ℕ → Bool} {m c : ℕ} (h : SortedBlock x m c false) :
    ∃ a ≤ 2^m, ∀ i < 2^m, x (2^m * c + i) = true ↔ i < a := by
  obtain ⟨a, ha, hfalse⟩ := exists_threshold (p := fun i => ¬x (2^m * c + i) = true) (h := 2^m)
    fun i j hij hj hi htrue => hi (Bool.le_iff_imp.1 (h i j hij hj) htrue)
  refine ⟨a, ha, fun i hi => ?_⟩
  rw [← not_le, ← hfalse i hi, not_not]

/-- Two halves that are sorted in opposite directions are a bitonic block. -/
theorem bitonic_of_sorted {x : ℕ → Bool} {m c : ℕ} (hlower : SortedBlock x m (2 * c) true)
    (hupper : SortedBlock x m (2 * c + 1) false) : Bitonic x (m + 1) c := by
  obtain ⟨a, ha, hlow⟩ := exists_of_sorted_up hlower
  obtain ⟨b, hb, hhigh⟩ := exists_of_sorted_down hupper
  refine ⟨true, a, 2^m + b, fun i hi => ?_⟩
  rw [Nat.pow_succ] at hi
  rcases lt_or_ge i (2^m) with hilow | hihigh
  · rw [lower_half, hlow i hilow]
    omega
  · obtain ⟨j, rfl⟩ := Nat.exists_eq_add_of_le hihigh
    rw [upper_half, hhigh j (by omega)]
    omega

/-- The network sorts blocks of false and true values, each in its direction. -/
theorem sortedBlock_bitonicSort (n c : ℕ) (x : ℕ → Bool) :
    SortedBlock (bitonicSort n x) n c (!c.testBit 0) := by
  induction n generalizing c with
  | zero => exact sortedBlock_zero x c _
  | succ n ih =>
    have hlower := ih (2 * c)
    have hupper := ih (2 * c + 1)
    rw [show (!(2 * c).testBit 0) = true by simp] at hlower
    rw [show (!(2 * c + 1).testBit 0) = false by simp] at hupper
    rw [bitonicSort]
    exact bitonicMerge_of_bitonic (sameDirection_bitonicSort (n + 1) c)
      (bitonic_of_sorted hlower hupper)

/-- The network sorts. -/
theorem bitonicSort_le (n : ℕ) (x : ℕ → α) {i j : ℕ} (hij : i ≤ j) (hj : j < 2^n) :
    bitonicSort n x i ≤ bitonicSort n x j := by
  by_contra hlt
  -- A map to false and true that tells the two values apart commutes with the network.
  have hmono : Monotone fun a : α => decide (bitonicSort n x i ≤ a) := by
    intro a b hab
    simp only [Bool.le_iff_imp, decide_eq_true_eq]
    exact fun h => h.trans hab
  have hsorted := sortedBlock_bitonicSort n 0 ((fun a => decide (bitonicSort n x i ≤ a)) ∘ x)
  rw [bitonicSort_comp hmono] at hsorted
  have hle := hsorted i j hij hj
  simp only [Nat.mul_zero, Nat.zero_add, Function.comp_apply, Bool.le_iff_imp,
    decide_eq_true_eq] at hle
  exact hlt (hle le_rfl)

/-- The network keeps the values. -/
theorem exists_bitonicSort_iff (n : ℕ) (x : ℕ → α) (v : α) :
    (∃ l < 2^n, bitonicSort n x l = v) ↔ ∃ l < 2^n, x l = v := by
  have hvalues := blockValues_bitonicSort n 0 x
  have hmem := Set.ext_iff.1 hvalues v
  simpa [blockValues] using hmem

/-! ## The values are permuted -/

/-- The values of the lanes below `n` are those of the lanes of `x`, in another order. -/
def Permutes {α : Type*} (n : ℕ) (y x : ℕ → α) : Prop :=
  ((List.range n).map y).Perm ((List.range n).map x)

/-- Lanes that read the value of another lane, each lane being read once. -/
theorem permutes_of_involutive {α : Type*} {n : ℕ} {x y : ℕ → α} (partner : ℕ → ℕ)
    (hlt : ∀ l < n, partner l < n) (hinv : ∀ l < n, partner (partner l) = l)
    (hy : ∀ l < n, y l = x (partner l)) : Permutes n y x := by
  have hlanes : ((List.range n).map partner).Perm (List.range n) := by
    refine (List.perm_ext_iff_of_nodup ?_ List.nodup_range).2 fun l => ?_
    · refine List.nodup_range.map_on fun a ha b hb heq => ?_
      rw [← hinv a (List.mem_range.1 ha), heq, hinv b (List.mem_range.1 hb)]
    · simp only [List.mem_map, List.mem_range]
      constructor
      · rintro ⟨k, hk, rfl⟩
        exact hlt k hk
      · exact fun hl => ⟨partner l, hlt l hl, hinv l hl⟩
  have hmap : (List.range n).map y = ((List.range n).map partner).map x := by
    rw [List.map_map]
    exact List.map_congr_left fun l hl => hy l (List.mem_range.1 hl)
  unfold Permutes
  rw [hmap]
  exact hlanes.map x

/-- Between partners that agree on the direction, the values are swapped or stay. -/
theorem permutes_exchange {up : ℕ → Bool} {n j : ℕ} (hj : j < n)
    (hup : ∀ l < 2^n, up (l ^^^ 2^j) = up l) (x : ℕ → α) : Permutes (2^n) (exchange up j x) x := by
  have hback : ∀ l, (l ^^^ 2^j) ^^^ 2^j = l := fun l => by
    rw [Nat.xor_assoc, Nat.xor_self, Nat.xor_zero]
  -- One of two partners takes the smaller value, the other one the larger.
  have hpair : ∀ l < 2^n, exchange up j x l = x l ∧ exchange up j x (l ^^^ 2^j) = x (l ^^^ 2^j) ∨
      exchange up j x l = x (l ^^^ 2^j) ∧ exchange up j x (l ^^^ 2^j) = x l := by
    intro l hl
    have hbit : (l ^^^ 2^j).testBit j = !l.testBit j := by
      rw [Nat.testBit_xor, Nat.testBit_two_pow_self, Bool.xor_true]
    unfold exchange
    rw [hback, hbit, hup l hl]
    rcases le_total (x l) (x (l ^^^ 2^j)) with hle | hle
    · rw [max_eq_right hle, min_eq_left hle, max_eq_left hle, min_eq_right hle]
      cases l.testBit j <;> cases up l <;> simp
    · rw [max_eq_left hle, min_eq_right hle, max_eq_right hle, min_eq_left hle]
      cases l.testBit j <;> cases up l <;> simp
  refine permutes_of_involutive (fun l => if exchange up j x l = x l then l else l ^^^ 2^j)
    (fun l hl => ?_) (fun l hl => ?_) fun l hl => ?_
  · split_ifs
    · exact hl
    · exact Nat.xor_lt_two_pow hl (Nat.pow_lt_pow_right (by decide) hj)
  · by_cases hstay : exchange up j x l = x l
    · simp only [if_pos hstay]
    · obtain ⟨hkeep, -⟩ | ⟨hswap, hswap'⟩ := hpair l hl
      · exact absurd hkeep hstay
      · have hne : exchange up j x (l ^^^ 2^j) ≠ x (l ^^^ 2^j) := fun heq =>
          hstay (hswap.trans (heq.symm.trans hswap'))
        simp only [if_neg hstay, if_neg hne, hback]
  · split_ifs with hstay
    · exact hstay
    · exact (hpair l hl).elim (fun hkeep => absurd hkeep.1 hstay) And.left

/-- A merge permutes the values, if its directions do not depend on the bits that it compares. -/
theorem permutes_bitonicMerge {up : ℕ → Bool} {n m : ℕ} (hm : m ≤ n)
    (hup : ∀ j < m, ∀ l < 2^n, up (l ^^^ 2^j) = up l) (x : ℕ → α) :
    Permutes (2^n) (bitonicMerge up m x) x := by
  induction m generalizing x with
  | zero => exact List.Perm.refl _
  | succ m ih =>
    have hrest := ih (by omega) (fun j hj => hup j (by omega)) (exchange up m x)
    exact hrest.trans (permutes_exchange hm (hup m (Nat.lt_succ_self m)) x)

/-- The network permutes the values. -/
theorem permutes_bitonicSort {n k : ℕ} (hk : k ≤ n) (x : ℕ → α) :
    Permutes (2^n) (bitonicSort k x) x := by
  induction k with
  | zero => exact List.Perm.refl _
  | succ k ih =>
    refine (permutes_bitonicMerge hk (fun j hj l _ => ?_) _).trans (ih (by omega))
    rw [Nat.testBit_xor, Nat.testBit_two_pow_of_ne (by omega : j ≠ k + 1), Bool.xor_false]

end TenProf
