import TenProf.Words
import TenProf.Library.Bitonic

/-!
# The primitives of a warp

The functions of `utils.h` that `interval_compact` calls. The `GPU_PATCH_WARP_SIZE` lanes of a warp,
32 of them, run in lockstep: a variable of the code is a function of the lane, and a primitive that
exchanges values between the lanes is a function of the variable of all lanes. The bits of a word
are those of a `BitVec`. `warpSort` is a bitonic network (`warpSort_eq`).
-/

namespace TenProf.Warp

variable {α : Type*}

/-- `shfl`: the value of the lane `srcline`. -/
def shfl (v : ℕ → α) (srcline : ℕ) : α := v (srcline % 32)

/-- `shfl_up`: the value of the lane `delta` below, or the own one when there is no such lane. -/
def shflUp (v : ℕ → α) (delta laneid : ℕ) : α :=
  if laneid < delta then v laneid else v (laneid - delta)

/-- `shfl_xor`. -/
def shflXor (v : ℕ → α) (lane_mask laneid : ℕ) : α := v (laneid ^^^ lane_mask)

/-- `ballot`: the word with the predicates of the lanes as its bits. -/
def ballot (predicate : ℕ → Bool) : BitVec 32 :=
  (BitVec.ofBoolListLE ((List.range 32).map predicate)).cast (by simp)

/-- `__ffs`: one more than the position of the lowest bit that is set, `0` if none is. -/
def ffs (source : BitVec 32) : ℕ := if source = 0#32 then 0 else source.ctz.toNat + 1

/-- `bfe`. -/
def bfe (source bit_index : ℕ) : Bool := source.testBit bit_index

/-- `brev`. -/
def brev (source : BitVec 32) : BitVec 32 := source.reverse

/-- `MAX_U32`. -/
def MAX_U32 : ℕ := 0xFFFFFFFF

/-- `bfind`: the position of the highest bit that is set. -/
def bfind (source : BitVec 32) : ℕ := if source = 0#32 then MAX_U32 else 31 - source.clz.toNat

variable [LinearOrder α]

/-- `comparator`. -/
def comparator (x : ℕ → α) (lane_mask : ℕ) (dir : ℕ → Bool) (laneid : ℕ) : α :=
  let y := shflXor x lane_mask laneid
  if decide (x laneid < y) = dir laneid then y else x laneid

/-- `warp_sort`. -/
def warpSort (x : ℕ → α) : ℕ → α :=
  let x := comparator x 1 fun laneid => bfe laneid 1 ^^ bfe laneid 0
  let x := comparator x 2 fun laneid => bfe laneid 2 ^^ bfe laneid 1
  let x := comparator x 1 fun laneid => bfe laneid 2 ^^ bfe laneid 0
  let x := comparator x 4 fun laneid => bfe laneid 3 ^^ bfe laneid 2
  let x := comparator x 2 fun laneid => bfe laneid 3 ^^ bfe laneid 1
  let x := comparator x 1 fun laneid => bfe laneid 3 ^^ bfe laneid 0
  let x := comparator x 8 fun laneid => bfe laneid 4 ^^ bfe laneid 3
  let x := comparator x 4 fun laneid => bfe laneid 4 ^^ bfe laneid 2
  let x := comparator x 2 fun laneid => bfe laneid 4 ^^ bfe laneid 1
  let x := comparator x 1 fun laneid => bfe laneid 4 ^^ bfe laneid 0
  let x := comparator x 16 fun laneid => bfe laneid 4
  let x := comparator x 8 fun laneid => bfe laneid 3
  let x := comparator x 4 fun laneid => bfe laneid 2
  let x := comparator x 2 fun laneid => bfe laneid 1
  comparator x 1 fun laneid => bfe laneid 0

/-! ## The bits of a word -/

/-- A bit of a ballot is the predicate of its lane. -/
theorem getLsbD_ballot (predicate : ℕ → Bool) {laneid : ℕ} (hl : laneid < 32) :
    (ballot predicate).getLsbD laneid = predicate laneid := by
  have hlane : ((List.range 32).map predicate)[laneid]? = some (predicate laneid) := by
    rw [List.getElem?_map, List.getElem?_range hl]
    rfl
  unfold ballot
  rw [BitVec.getLsbD_cast, BitVec.getLsbD_ofBoolListLE, List.getD_eq_getElem?_getD, hlane]
  rfl

/-- The lowest bit that is set is where `ctz` says. -/
theorem ctz_eq_iff {source : BitVec 32} {l : ℕ} (hl : l < 32) :
    source.ctz.toNat = l ↔ source.getLsbD l = true ∧ ∀ k < l, source.getLsbD k = false := by
  constructor
  · rintro rfl
    have hne : source ≠ 0#32 := by
      rw [← BitVec.ctz_lt_iff_ne_zero]
      exact hl
    exact ⟨BitVec.getLsbD_true_ctz_of_ne_zero hne, fun k hk => BitVec.getLsbD_false_of_lt_ctz hk⟩
  · rintro ⟨hset, hlow⟩
    have hne : source ≠ 0#32 := by
      rintro rfl
      simp at hset
    rcases lt_trichotomy source.ctz.toNat l with hlt | heq | hgt
    · have hfalse := hlow _ hlt
      rw [BitVec.getLsbD_true_ctz_of_ne_zero hne] at hfalse
      cases hfalse
    · exact heq
    · rw [BitVec.getLsbD_false_of_lt_ctz hgt] at hset
      cases hset

/-- `__ffs(b) - 1` is a lane exactly when its bit is the lowest one that is set. -/
theorem subU32_ffs_eq_iff {source : BitVec 32} {l : ℕ} (hl : l < 32) :
    subU32 (ffs source) 1 = l ↔ source.getLsbD l = true ∧ ∀ k < l, source.getLsbD k = false := by
  unfold ffs subU32
  split_ifs with hzero
  · subst hzero
    simp
    omega
  · rw [← ctz_eq_iff hl]
    have hlt := BitVec.ctz_lt_iff_ne_zero.2 hzero
    rw [BitVec.lt_def] at hlt
    have h32 : ((32 : ℕ) : BitVec 32).toNat = 32 := rfl
    omega

/-- The highest bit that is set is where `bfind` says. -/
theorem bfind_eq {source : BitVec 32} {j : ℕ} (hj : source.getLsbD j = true)
    (hhigh : ∀ k, j < k → source.getLsbD k = false) : bfind source = j := by
  have hlt : j < 32 := BitVec.lt_of_getLsbD hj
  have hne : source ≠ 0#32 := by
    rintro rfl
    simp at hj
  have hclz : source.clz.toNat = 31 - j := by
    rw [BitVec.clz_eq_reverse_ctz, ctz_eq_iff (by omega)]
    constructor
    · rw [BitVec.getLsbD_reverse, BitVec.getMsbD_eq_getLsbD]
      simpa [show 31 - (31 - j) = j by omega] using ⟨by omega, hj⟩
    · intro k hk
      rw [BitVec.getLsbD_reverse, BitVec.getMsbD_eq_getLsbD, hhigh _ (by omega)]
      simp
  unfold bfind
  rw [if_neg hne, hclz]
  omega

/-! ## The sort -/

/-- A comparator is the exchange whose directions say which lane takes the larger value. -/
theorem comparator_eq {lane_mask j : ℕ} (hmask : lane_mask = 2^j) {dir up : ℕ → Bool}
    (hdir : ∀ l, dir l = (l.testBit j == up l)) (x : ℕ → α) :
    comparator x lane_mask dir = exchange up j x := by
  subst hmask
  funext l
  unfold comparator shflXor exchange
  simp only [hdir]
  rcases lt_or_ge (x l) (x (l ^^^ 2^j)) with hlt | hge
  · rw [max_eq_right hlt.le, min_eq_left hlt.le]
    simp [hlt]
  · rw [max_eq_left hge, min_eq_right hge]
    simp [hge.not_gt]

/-- A comparator of the merges of blocks of `2^k` lanes. -/
theorem comparator_xor (lane_mask k j : ℕ) (hmask : lane_mask = 2^j) (x : ℕ → α) :
    comparator x lane_mask (fun laneid => bfe laneid k ^^ bfe laneid j) =
      exchange (fun l => !l.testBit k) j x := by
  refine comparator_eq hmask (fun l => ?_) x
  unfold bfe
  cases l.testBit k <;> cases l.testBit j <;> rfl

/-- A comparator of the last merge. -/
theorem comparator_last (lane_mask j : ℕ) (hmask : lane_mask = 2^j) (x : ℕ → α) :
    comparator x lane_mask (fun laneid => bfe laneid j) = exchange (fun _ => true) j x := by
  refine comparator_eq hmask (fun l => ?_) x
  unfold bfe
  cases l.testBit j <;> rfl

/-- `warp_sort` is the bitonic network on 32 lanes. -/
theorem warpSort_eq (x : ℕ → α) {l : ℕ} (hl : l < 32) : warpSort x l = bitonicSort 5 x l := by
  have hnetwork : warpSort x = bitonicMerge (fun _ => true) 5 (bitonicSort 4 x) := by
    unfold warpSort
    dsimp only
    rw [comparator_xor 1 1 0 rfl, comparator_xor 2 2 1 rfl, comparator_xor 1 2 0 rfl,
      comparator_xor 4 3 2 rfl, comparator_xor 2 3 1 rfl, comparator_xor 1 3 0 rfl,
      comparator_xor 8 4 3 rfl, comparator_xor 4 4 2 rfl, comparator_xor 2 4 1 rfl,
      comparator_xor 1 4 0 rfl, comparator_last 16 4 rfl, comparator_last 8 3 rfl,
      comparator_last 4 2 rfl, comparator_last 2 1 rfl, comparator_last 1 0 rfl]
    rfl
  rw [hnetwork]
  -- The bit above the number of a lane is not set, so all lanes are sorted upwards.
  refine bitonicMerge_congr (n := 5) le_rfl (fun k hk => ?_) (fun _ _ => rfl) hl
  rw [Nat.testBit_lt_two_pow hk]
  rfl

/-- The lanes are sorted. -/
theorem warpSort_le (x : ℕ → α) {i j : ℕ} (hij : i ≤ j) (hj : j < 32) :
    warpSort x i ≤ warpSort x j := by
  rw [warpSort_eq x (by omega), warpSort_eq x hj]
  exact bitonicSort_le 5 x hij hj

/-- The values of the lanes are what they were. -/
theorem exists_warpSort_iff (x : ℕ → α) (v : α) :
    (∃ l < 32, warpSort x l = v) ↔ ∃ l < 32, x l = v := by
  refine Iff.trans ?_ (exists_bitonicSort_iff 5 x v)
  refine exists_congr fun l => and_congr_right fun hl => ?_
  rw [warpSort_eq x hl]

/-- `warp_sort` sorts the values of the lanes: what the lanes have afterwards is in ascending order,
and a permutation of what they had. -/
theorem warpSort_sorts (x : ℕ → α) :
    (∀ i j, i ≤ j → j < 32 → warpSort x i ≤ warpSort x j) ∧
      ((List.range 32).map (warpSort x)).Perm ((List.range 32).map x) := by
  refine ⟨fun i j hij hj => warpSort_le x hij hj, ?_⟩
  have hperm : Permutes (2^5) (bitonicSort 5 x) x := permutes_bitonicSort le_rfl x
  have hmap : (List.range 32).map (warpSort x) = (List.range 32).map (bitonicSort 5 x) :=
    List.map_congr_left fun l hl => warpSort_eq x (List.mem_range.1 hl)
  rw [hmap]
  exact hperm

end TenProf.Warp
