import TenProf.Library.Sweep
import TenProf.GpuAnalysis.Cub
import TenProf.Words

/-!
# The merge of one tile of intervals

`interval_merge_impl` loads the endpoints of intervals into a tile, tags them with `1` and `-1`,
sorts them, and finds the places where the sum of the tags is zero. The items of a thread are
neighbours and even in number, so the first of each pair is at an even position of the tile.
Positions without an item hold `MAX_U64`, which is also the key of an end at `2^63 - 1`. Without
such an end the tile is written back as the normal form of its intervals
(`intervalMergeImpl_eq`).
-/

namespace TenProf

/-- `MAX_U64`. -/
def MAX_U64 : ℕ := 0xFFFFFFFFFFFFFFFF

/-- The key of the item at a position: twice the address, and one more for an end. -/
def keyOf (i item : ℕ) : ℕ :=
  if item = MAX_U64 then item
  else if i % 2 = 0 then u64 (item <<< 1)
  else u64 (u64 (item <<< 1) + 1)

/-- The tag of the key at a position, the first use of `interval_start_point`. -/
def tagOf (i item : ℕ) : ℤ :=
  if item = MAX_U64 then 0 else if i % 2 = 0 then 1 else -1

/-- `interval_end_point` of an item, from the sum of the tags. -/
def endPoint (item : ℕ) (sum : ℤ) : ℤ := if item ≠ MAX_U64 ∧ sum = 0 then 1 else 0

/-- `interval_start_point` of an item, from its head flag and its `interval_end_point`. -/
def startPoint (item : ℕ) (marks : ℤ × ℤ) : ℤ :=
  if item ≠ MAX_U64 ∧ marks.1 = 1 ∧ marks.2 ≠ 1 then 1 else 0

/-- The keys of a tile with their tags, before they are sorted. -/
def loadTile (c : Cub) (tile_size : ℕ) (d_in : ℕ → ℕ) (valid_items : ℕ) : List (ℕ × ℤ) :=
  let items := (c.load d_in tile_size valid_items MAX_U64).mapIdx keyOf
  items.zip (items.mapIdx tagOf)

/-- What is written to `d_out` for an item that is marked as a start, and for one marked as an end.
A mark comes with its index. -/
def putStart (e : ℕ × ℤ × ℤ) : List (ℕ × ℕ) :=
  if e.2.1 = 1 then [(((e.2.2 - 1) * 2).toNat, e.1 >>> 1)] else []

@[inherit_doc putStart]
def putEnd (e : ℕ × ℤ × ℤ) : List (ℕ × ℕ) :=
  if e.2.1 = 1 then [(((e.2.2 - 1) * 2 + 1).toNat, subU64 e.1 1 >>> 1)] else []

/-- The words that are written to `d_out` for the sorted keys, and the aggregate. -/
def writeTile (c : Cub) (sorted : List (ℕ × ℤ)) : List (ℕ × ℕ) × ℤ :=
  let items := sorted.map Prod.fst
  -- Get end marks
  let interval_start_point := (c.inclusiveSum (sorted.map Prod.snd)).1
  let interval_end_point := List.zipWith endPoint items interval_start_point
  -- Get start marks
  let interval_start_point := c.flagHeads interval_end_point
  let interval_start_point :=
    List.zipWith startPoint items (interval_start_point.zip interval_end_point)
  let (interval_start_index, aggregate) := c.inclusiveSum interval_start_point
  let interval_end_index := (c.inclusiveSum interval_end_point).1
  -- Put indices in the corresponding slots
  let starts := items.zip (interval_start_point.zip interval_start_index)
  let ends := items.zip (interval_end_point.zip interval_end_index)
  ((starts.zip ends).flatMap fun e => putStart e.1 ++ putEnd e.2, aggregate)

/-- `interval_merge_impl`: the words that it writes to `d_out`, each with its place, and the
aggregate that it returns. -/
def intervalMergeImpl (c : Cub) (tile_size : ℕ) (d_in : ℕ → ℕ) (valid_items : ℕ) :
    List (ℕ × ℕ) × ℤ :=
  writeTile c (c.sort (loadTile c tile_size d_in valid_items))

/-- The first intervals of a memory of words. -/
def intervalsAt (records : ℕ → ℕ) (n : ℕ) : List (ℕ × ℕ) :=
  (List.range n).map fun i => (records (2 * i), records (2 * i + 1))

/-- The words of intervals that stand one after the other, each with its place. -/
def wordsOf (l : List (ℕ × ℕ)) : List (ℕ × ℕ) :=
  l.zipIdx.flatMap fun e => [(2 * e.2, e.1.1), (2 * e.2 + 1, e.1.2)]

variable {ks : List ℕ} {d : ℤ} {n : ℕ}

/-- The keys of endpoints are no padding. -/
theorem endPoint_of_lt {k : ℕ} (hk : k < MAX_U64) (sum : ℤ) :
    endPoint k sum = if sum = 0 then 1 else 0 := by
  simp [endPoint, hk.ne]

/-- No padding is marked as an end. -/
theorem kept_endPoint_replicate (n : ℕ) (sums : List ℤ) :
    kept (List.replicate n MAX_U64)
      (List.zipWith endPoint (List.replicate n MAX_U64) sums) = [] := by
  induction n generalizing sums with
  | zero => simp
  | succ n ih => cases sums <;> simp [List.replicate_succ, kept, endPoint, ih]

/-- No padding is marked as a start. -/
theorem kept_startPoint_replicate (n : ℕ) (marks : List (ℤ × ℤ)) :
    kept (List.replicate n MAX_U64)
      (List.zipWith startPoint (List.replicate n MAX_U64) marks) = [] := by
  induction n generalizing marks with
  | zero => simp
  | succ n ih => cases marks <;> simp [List.replicate_succ, kept, startPoint, ih]

/-- The keys of a tile with their tags: sorted endpoints, then padding. -/
def padded (ks : List ℕ) (n : ℕ) : List (ℕ × ℤ) :=
  (ks.map fun k => (k, weight k)) ++ List.replicate n (MAX_U64, 0)

@[simp] theorem padded_cons (k : ℕ) (ks : List ℕ) (n : ℕ) :
    padded (k :: ks) n = (k, weight k) :: padded ks n := rfl

@[simp] theorem map_fst_padded_nil (n : ℕ) :
    (padded [] n).map Prod.fst = List.replicate n MAX_U64 := by
  simp [padded]

/-- The marks of the ends in a tile, when `d` intervals are open before it. -/
def endMarks (d : ℤ) (sorted : List (ℕ × ℤ)) : List ℤ :=
  List.zipWith endPoint (sorted.map Prod.fst) (runningSums d (sorted.map Prod.snd))

/-- The marks of the starts in a tile, with the mark of the end before it. -/
def startMarks (prev : Option ℤ) (d : ℤ) (sorted : List (ℕ × ℤ)) : List ℤ :=
  List.zipWith startPoint (sorted.map Prod.fst)
    ((headFlags prev (endMarks d sorted)).zip (endMarks d sorted))

theorem endMarks_cons (d : ℤ) (e : ℕ × ℤ) (sorted : List (ℕ × ℤ)) :
    endMarks d (e :: sorted) = endPoint e.1 (d + e.2) :: endMarks (d + e.2) sorted := rfl

theorem startMarks_cons (prev : Option ℤ) (d : ℤ) (e : ℕ × ℤ) (sorted : List (ℕ × ℤ)) :
    startMarks prev d (e :: sorted) =
      startPoint e.1 (if prev = some (endPoint e.1 (d + e.2)) then 0 else 1,
        endPoint e.1 (d + e.2)) ::
      startMarks (some (endPoint e.1 (d + e.2))) (d + e.2) sorted := rfl

/-- The items that are marked as ends are those behind which nothing is open. -/
theorem kept_endMarks (hks : ∀ k ∈ ks, k < MAX_U64) :
    kept ((padded ks n).map Prod.fst) (endMarks d (padded ks n)) = sweepEnds d ks := by
  induction ks generalizing d with
  | nil =>
    unfold endMarks
    rw [map_fst_padded_nil, kept_endPoint_replicate]
    rfl
  | cons k ks ih =>
    obtain ⟨hk, hks⟩ := List.forall_mem_cons.1 hks
    rw [padded_cons, endMarks_cons, List.map_cons, kept_cons, ih hks, endPoint_of_lt hk, sweepEnds]
    by_cases hzero : d + weight k = 0 <;> simp [hzero]

/-- The items that are marked as starts are those at which nothing was open. -/
theorem kept_startMarks (hks : ∀ k ∈ ks, k < MAX_U64) {prev : Option ℤ}
    (hprev : prev = some (if d = 0 then 1 else 0) ∨ prev = none ∧ d = 0) :
    kept ((padded ks n).map Prod.fst) (startMarks prev d (padded ks n)) = sweepStarts d ks := by
  induction ks generalizing d prev with
  | nil =>
    unfold startMarks
    rw [map_fst_padded_nil, kept_startPoint_replicate]
    rfl
  | cons k ks ih =>
    obtain ⟨hk, hks⟩ := List.forall_mem_cons.1 hks
    have hw := weight_cases k
    have hmark := endPoint_of_lt hk (d + weight k)
    -- A key is a start exactly when nothing was open before it, since then the end mark before it
    -- is set or missing, and its own is not set.
    have hstart : startPoint k (if prev = some (endPoint k (d + weight k)) then 0 else 1,
        endPoint k (d + weight k)) = if d = 0 then 1 else 0 := by
      rw [hmark, startPoint]
      rcases hprev with rfl | ⟨rfl, hd⟩
      · by_cases hd : d = 0
        · have hzero : d + weight k ≠ 0 := by omega
          simp [hd, hk.ne]
          omega
        · by_cases hzero : d + weight k = 0 <;> simp [hd, hzero]
      · have hzero : d + weight k ≠ 0 := by omega
        simp [hd, hk.ne]
        omega
    rw [padded_cons, startMarks_cons, List.map_cons, kept_cons, ih hks (Or.inl (by rw [hmark])),
      hstart, sweepStarts]
    by_cases hd : d = 0 <;> simp [hd]

/-- The marks of ends are `0` or `1`. -/
theorem endMarks_eq (d : ℤ) (sorted : List (ℕ × ℤ)) : ∀ m ∈ endMarks d sorted, m = 0 ∨ m = 1 :=
  forall_mem_zipWith (fun item sum => by unfold endPoint; split_ifs <;> simp) _ _

/-- The marks of starts are `0` or `1`. -/
theorem startMarks_eq (prev : Option ℤ) (d : ℤ) (sorted : List (ℕ × ℤ)) :
    ∀ m ∈ startMarks prev d sorted, m = 0 ∨ m = 1 :=
  forall_mem_zipWith (fun item marks => by unfold startPoint; split_ifs <;> simp) _ _

@[simp] theorem length_endMarks (d : ℤ) (sorted : List (ℕ × ℤ)) :
    (endMarks d sorted).length = sorted.length := by
  simp [endMarks]

@[simp] theorem length_startMarks (prev : Option ℤ) (d : ℤ) (sorted : List (ℕ × ℤ)) :
    (startMarks prev d sorted).length = sorted.length := by
  simp [startMarks]

/-- The words of intervals are their starts and their ends. -/
theorem wordsOf_perm (l : List (ℕ × ℕ)) : (wordsOf l).Perm
    (((l.map Prod.fst).zipIdx.map fun e => (2 * e.2, e.1)) ++
      (l.map Prod.snd).zipIdx.map fun e => (2 * e.2 + 1, e.1)) := by
  have hflat : wordsOf l = l.zipIdx.flatMap fun e => [(2 * e.2, e.1.1)] ++ [(2 * e.2 + 1, e.1.2)] :=
    rfl
  rw [hflat]
  refine (List.flatMap_append_perm _ _ _).symm.trans (List.Perm.of_eq ?_)
  rw [List.zipIdx_map, List.zipIdx_map, List.map_map, List.map_map, ← List.map_eq_flatMap,
    ← List.map_eq_flatMap]
  rfl

/-- What is written for the starts of a tile with sorted endpoints. -/
theorem flatMap_putStart (hbal : Balanced 0 ks) (hks : ∀ k ∈ ks, k < MAX_U64) (n : ℕ) :
    (((padded ks n).map Prod.fst).zip ((startMarks none 0 (padded ks n)).zip
        (runningSums 0 (startMarks none 0 (padded ks n))))).flatMap putStart =
      ((sweep 0 0 ks).map Prod.fst).zipIdx.map fun e => (2 * e.2, e.1) := by
  have hput := flatMap_zip_runningSums (fun i k => ((i * 2).toNat, k >>> 1))
    ((padded ks n).map Prod.fst) (startMarks_eq none 0 (padded ks n)) 0
  rw [kept_startMarks hks (Or.inr ⟨rfl, rfl⟩)] at hput
  refine hput.trans ?_
  rw [← map_fst_sweep hbal, if_pos rfl, List.nil_append, List.zipIdx_map, List.map_map]
  refine List.map_congr_left fun ⟨k, i⟩ _ => ?_
  simp only [Function.comp_apply, Prod.map_apply, id_eq, Prod.mk.injEq, Nat.shiftRight_eq_div_pow,
    pow_one, and_true]
  omega

/-- What is written for the ends of a tile with sorted endpoints. -/
theorem flatMap_putEnd (hbal : Balanced 0 ks) (hks : ∀ k ∈ ks, k < MAX_U64) (n : ℕ) :
    (((padded ks n).map Prod.fst).zip ((endMarks 0 (padded ks n)).zip
        (runningSums 0 (endMarks 0 (padded ks n))))).flatMap putEnd =
      ((sweep 0 0 ks).map Prod.snd).zipIdx.map fun e => (2 * e.2 + 1, e.1) := by
  have hput := flatMap_zip_runningSums (fun i k => ((i * 2 + 1).toNat, subU64 k 1 >>> 1))
    ((padded ks n).map Prod.fst) (endMarks_eq 0 (padded ks n)) 0
  rw [kept_endMarks hks] at hput
  refine hput.trans ?_
  rw [← map_snd_sweep, List.zipIdx_map, List.map_map]
  refine List.map_congr_left fun ⟨k, i⟩ hk => ?_
  -- The item of an end is odd, so its decrement does not wrap around.
  obtain ⟨hmem, hodd⟩ := hbal.mem_sweepEnds (List.fst_mem_of_mem_zipIdx hk)
  have hlt := hks k hmem
  unfold MAX_U64 at hlt
  simp only [Function.comp_apply, Prod.map_apply, id_eq, Prod.mk.injEq, Nat.shiftRight_eq_div_pow]
  rw [subU64_of_le (by omega) (by omega)]
  omega

/-- A tile with sorted endpoints and padding is written as the intervals of the sweep. -/
theorem writeTile_padded {c : Cub} (hc : c.Spec) (hbal : Balanced 0 ks)
    (hks : ∀ k ∈ ks, k < MAX_U64) (n : ℕ) :
    (writeTile c (padded ks n)).1.Perm (wordsOf (sweep 0 0 ks)) ∧
      (writeTile c (padded ks n)).2 = (sweep 0 0 ks).length := by
  have hwrites : writeTile c (padded ks n) =
      (((((padded ks n).map Prod.fst).zip ((startMarks none 0 (padded ks n)).zip
        (runningSums 0 (startMarks none 0 (padded ks n))))).zip
        (((padded ks n).map Prod.fst).zip ((endMarks 0 (padded ks n)).zip
        (runningSums 0 (endMarks 0 (padded ks n)))))).flatMap fun e => putStart e.1 ++ putEnd e.2,
        (startMarks none 0 (padded ks n)).sum) := by
    simp only [writeTile, hc.inclusiveSum, hc.flagHeads]
    rfl
  rw [hwrites]
  constructor
  · refine (List.flatMap_append_perm _ _ _).symm.trans ?_
    refine List.Perm.trans (List.Perm.of_eq ?_) (wordsOf_perm _).symm
    rw [← flatMap_putStart hbal hks n, ← flatMap_putEnd hbal hks n]
    congr 1
    · rw [← List.flatMap_map Prod.fst putStart, List.map_fst_zip (by simp)]
    · rw [← List.flatMap_map Prod.snd putEnd, List.map_snd_zip (by simp)]
  · simp only
    rw [← length_kept ((padded ks n).map Prod.fst) (startMarks_eq _ _ _) (by simp),
      kept_startMarks hks (Or.inr ⟨rfl, rfl⟩)]
    have hlen := congrArg List.length (map_fst_sweep (s := 0) hbal)
    simpa using hlen

/-- The positions of an even number of items, pair by pair. -/
theorem map_range_two_mul {α : Type*} (f : ℕ → α) (k : ℕ) :
    (List.range (2 * k)).map f = (List.range k).flatMap fun i => [f (2 * i), f (2 * i + 1)] := by
  induction k with
  | zero => rfl
  | succ k ih =>
    rw [Nat.mul_succ, List.range_succ, List.range_succ, List.range_succ, List.map_append,
      List.map_append, ih, List.flatMap_append]
    simp

/-- Below `2^63 - 1`, the key and the tag of a start are those of the endpoint. -/
theorem keyOf_start {item : ℕ} (h : item < 2^63 - 1) (i : ℕ) :
    keyOf (2 * i) item = 2 * item ∧ tagOf (2 * i) (2 * item) = weight (2 * item) := by
  have hne : item ≠ MAX_U64 := by unfold MAX_U64; omega
  have hkey : 2 * item ≠ MAX_U64 := by unfold MAX_U64; omega
  constructor
  · rw [keyOf, if_neg hne, if_pos (by omega), Nat.shiftLeft_eq, pow_one, u64_of_lt (by omega)]
    omega
  · rw [tagOf, if_neg hkey, if_pos (by omega), weight_start]

/-- Below `2^63 - 1`, the key and the tag of an end are those of the endpoint. -/
theorem keyOf_end {item : ℕ} (h : item < 2^63 - 1) (i : ℕ) :
    keyOf (2 * i + 1) item = 2 * item + 1 ∧
      tagOf (2 * i + 1) (2 * item + 1) = weight (2 * item + 1) := by
  have hne : item ≠ MAX_U64 := by unfold MAX_U64; omega
  have hkey : 2 * item + 1 ≠ MAX_U64 := by unfold MAX_U64; omega
  constructor
  · rw [keyOf, if_neg hne, if_neg (by omega), Nat.shiftLeft_eq, pow_one,
      u64_of_lt (by omega : item * 2 < 2^64), u64_of_lt (by omega)]
    omega
  · rw [tagOf, if_neg hkey, if_neg (by omega), weight_end]

/-- A tile of intervals that end before `2^63 - 1` holds their endpoints, and padding. -/
theorem loadTile_eq {c : Cub} (hc : c.Spec) {m k : ℕ} (hk : k ≤ m) {d_in : ℕ → ℕ}
    (hlt : ∀ e ∈ intervalsAt d_in k, e.1 < 2^63 - 1 ∧ e.2 < 2^63 - 1) :
    loadTile c (2 * m) d_in (2 * k) = padded (endpoints (intervalsAt d_in k)) (2 * (m - k)) := by
  have hitems : loadTile c (2 * m) d_in (2 * k) = (List.range (2 * m)).map fun i =>
      (keyOf i (if i < 2 * k then d_in i else MAX_U64),
        tagOf i (keyOf i (if i < 2 * k then d_in i else MAX_U64))) := by
    rw [loadTile, hc.load]
    refine List.ext_getElem (by simp) fun i hi hi' => ?_
    simp
  have hsize : 2 * m = 2 * k + 2 * (m - k) := by omega
  rw [hitems, hsize, List.range_add, List.map_append, map_range_two_mul, padded]
  congr 1
  · rw [endpoints, intervalsAt, List.flatMap_map, List.map_flatMap]
    refine List.flatMap_congr fun i hi => ?_
    have hi' := List.mem_range.1 hi
    obtain ⟨hstart, hend⟩ := hlt _ (List.mem_map_of_mem hi)
    obtain ⟨hkey, htag⟩ := keyOf_start hstart i
    obtain ⟨hkey', htag'⟩ := keyOf_end hend i
    simp only at hkey htag hkey' htag'
    rw [if_pos (by omega), if_pos (by omega), hkey, htag, hkey', htag']
    rfl
  · rw [List.map_map]
    refine List.eq_replicate_iff.2 ⟨by simp, fun e he => ?_⟩
    obtain ⟨i, -, rfl⟩ := List.mem_map.1 he
    simp [keyOf, tagOf]

/-- Sorting puts the endpoints in order, before the padding. -/
theorem sort_padded {c : Cub} (hc : c.Spec) {es : List ℕ} (hes : ∀ k ∈ es, k < MAX_U64) (n : ℕ) :
    c.sort (padded es n) = padded (es.insertionSort (· ≤ ·)) n := by
  have hmem : ∀ e ∈ padded es n, e.1 ≤ MAX_U64 ∧ e.2 = if e.1 = MAX_U64 then 0 else weight e.1 := by
    intro e he
    rcases List.mem_append.1 he with he | he
    · obtain ⟨k, hk, rfl⟩ := List.mem_map.1 he
      have hlt := hes k hk
      exact ⟨hlt.le, (if_neg hlt.ne).symm⟩
    · rw [List.eq_of_mem_replicate he]
      exact ⟨le_rfl, rfl⟩
  have hperm : (padded (es.insertionSort (· ≤ ·)) n).Perm (padded es n) :=
    ((List.perm_insertionSort _ es).map _).append_right _
  have hsorted : (padded (es.insertionSort (· ≤ ·)) n).Pairwise fun a b => a.1 ≤ b.1 := by
    refine List.pairwise_append.2 ⟨List.pairwise_map.2 (List.pairwise_insertionSort _ es),
      List.pairwise_replicate.2 (Or.inr le_rfl), fun a ha b hb => ?_⟩
    rw [List.eq_of_mem_replicate hb]
    exact (hmem a (hperm.subset (List.mem_append_left _ ha))).1
  -- The keys decide the tags, so there is only one way to sort.
  refine List.Perm.eq_of_pairwise (fun a b ha hb hab hba => ?_) (hc.sort_sorted _) hsorted
    ((hc.sort_perm _).trans hperm.symm)
  have hkey := le_antisymm hab hba
  have hta := (hmem a ((hc.sort_perm _).subset ha)).2
  have htb := (hmem b (hperm.subset hb)).2
  exact Prod.ext hkey (by rw [hta, htb, hkey])

/-- The merge of a tile of intervals that end before `2^63 - 1` writes the words of their normal
form, each once, and the aggregate is the number of its intervals. -/
theorem intervalMergeImpl_eq {c : Cub} (hc : c.Spec) {m k : ℕ} (hk : k ≤ m) {d_in : ℕ → ℕ}
    (hordered : Ordered (intervalsAt d_in k)) (hlt : ∀ e ∈ intervalsAt d_in k, e.2 < 2^63 - 1) :
    (intervalMergeImpl c (2 * m) d_in (2 * k)).1.Perm (wordsOf (normalForm (intervalsAt d_in k))) ∧
      (intervalMergeImpl c (2 * m) d_in (2 * k)).2 = (normalForm (intervalsAt d_in k)).length := by
  have hlt' : ∀ e ∈ intervalsAt d_in k, e.1 < 2^63 - 1 ∧ e.2 < 2^63 - 1 := fun e he =>
    ⟨(hordered e he).trans_lt (hlt e he), hlt e he⟩
  have hes : ∀ k' ∈ endpoints (intervalsAt d_in k), k' < MAX_U64 := by
    intro k' hk'
    obtain ⟨e, he, hk'⟩ := List.mem_flatMap.1 hk'
    have hend := hlt' e he
    have hcases : k' = 2 * e.1 ∨ k' = 2 * e.2 + 1 := by simpa using hk'
    unfold MAX_U64
    omega
  have hperm := List.perm_insertionSort (· ≤ ·) (endpoints (intervalsAt d_in k))
  have hsorted := List.pairwise_insertionSort (· ≤ ·) (endpoints (intervalsAt d_in k))
  rw [intervalMergeImpl, loadTile_eq hc hk hlt', sort_padded hc hes]
  exact writeTile_padded hc (balanced_endpoints hordered hsorted hperm)
    (fun k' hk' => hes k' (hperm.subset hk')) (2 * (m - k))

/-- The merge of a tile of proper intervals that end before `2^63 - 1`: what it writes are the words
of intervals that are sorted, neither overlap nor touch, and cover the same points, each word once,
and the aggregate is the number of these intervals. -/
theorem intervalMergeImpl_normalForm {c : Cub} (hc : c.Spec) {m k : ℕ} (hk : k ≤ m)
    {d_in : ℕ → ℕ} (hproper : Proper (intervalsAt d_in k))
    (hlt : ∀ e ∈ intervalsAt d_in k, e.2 < 2^63 - 1) :
    ∃ out, Separated out ∧ Proper out ∧
      (∀ x, Covered out x ↔ Covered (intervalsAt d_in k) x) ∧
      (intervalMergeImpl c (2 * m) d_in (2 * k)).1.Perm (wordsOf out) ∧
      (intervalMergeImpl c (2 * m) d_in (2 * k)).2 = out.length := by
  have hmerges := merges_normalForm hproper.ordered
  obtain ⟨hwords, haggregate⟩ := intervalMergeImpl_eq hc hk hproper.ordered hlt
  exact ⟨_, separated_normalForm hproper.ordered, hmerges.proper hproper, hmerges.covered, hwords,
    haggregate⟩

/-- The words of three intervals, the last of which touches the second. -/
def threeIntervals (i : ℕ) : ℕ := [5, 9, 1, 3, 3, 5, 20, 30].getD i 0

example : intervalMergeImpl Cub.sequential 8 threeIntervals 8 =
    ([(0, 1), (1, 9), (2, 20), (3, 30)], 2) := by decide

/-- The merge of the first three of them. -/
theorem intervalMergeImpl_threeIntervals : ∃ out, Separated out ∧ Proper out ∧
    (∀ x, Covered out x ↔ Covered (intervalsAt threeIntervals 3) x) ∧
    (intervalMergeImpl Cub.sequential (2 * 4) threeIntervals (2 * 3)).1.Perm (wordsOf out) ∧
    (intervalMergeImpl Cub.sequential (2 * 4) threeIntervals (2 * 3)).2 = out.length :=
  intervalMergeImpl_normalForm Cub.sequential_spec (by decide) (by unfold Proper; decide)
    (by decide)

/-- The key of an end at `2^63 - 1` is taken for padding, so a start is written and no end. -/
theorem not_intervalMergeImpl_normalForm : ¬∀ (c : Cub) (m k : ℕ) (d_in : ℕ → ℕ), c.Spec →
    1 ≤ k → k ≤ m → Proper (intervalsAt d_in k) → (∀ e ∈ intervalsAt d_in k, e.2 < 2^63) →
    ∃ out, Separated out ∧ Proper out ∧
      (∀ x, Covered out x ↔ Covered (intervalsAt d_in k) x) ∧
      (intervalMergeImpl c (2 * m) d_in (2 * k)).1.Perm (wordsOf out) ∧
      (intervalMergeImpl c (2 * m) d_in (2 * k)).2 = out.length := by
  intro h
  obtain ⟨out, -, -, -, hperm, hlen⟩ := h Cub.sequential 2 1 (fun i => [0, 2^63 - 1].getD i 0)
    Cub.sequential_spec le_rfl (by decide) (by unfold Proper; decide) (by decide)
  have hwrites : intervalMergeImpl Cub.sequential (2 * 2) (fun i => [0, 2^63 - 1].getD i 0)
      (2 * 1) = ([(0, 0)], 1) := by decide
  rw [hwrites] at hperm hlen
  obtain ⟨e, rfl⟩ := List.length_eq_one_iff.1 (show out.length = 1 by simpa using hlen.symm)
  exact absurd hperm.length_eq (by simp [wordsOf])

end TenProf
