import Mathlib.Tactic.Ring
import Mathlib.Tactic.SplitIfs
import Mathlib.Data.List.Sort
import TenProf.Library.Intervals

/-!
# The sweep over sorted endpoints

An interval from `a` up to `b` has two endpoints, written as one number each: `2 * a` for its start
and `2 * b + 1` for its end, so that the start of one interval comes before the end of another at
the same point. Along the sorted endpoints of a list of intervals the `weight`s, `1` for a start and
`-1` for an end, sum up to the number of intervals that are open. The `sweep` makes an interval of
each stretch between two places where none is open. The result is the normal form of the list: it is
`Separated` and covers the same points (`merges_normalForm`).
-/

namespace TenProf

/-- The endpoints of intervals. -/
def endpoints (l : List (ℕ × ℕ)) : List ℕ := l.flatMap fun e => [2 * e.1, 2 * e.2 + 1]

/-- A start opens an interval, an end closes one. -/
def weight (k : ℕ) : ℤ := if k % 2 = 0 then 1 else -1

/-- The sum of the weights of the endpoints below `t`. -/
def below (t : ℕ) (ks : List ℕ) : ℤ := ((ks.filter (· < t)).map weight).sum

/-- Where the stretch of an endpoint started, when `d` intervals are open, the first of them
since `s`. -/
def openSince (d : ℤ) (s k : ℕ) : ℕ := if d = 0 then k / 2 else s

/-- The intervals that the sweep makes of endpoints, when `d` intervals are open, the first of them
since `s`. -/
def sweep (d : ℤ) (s : ℕ) : List ℕ → List (ℕ × ℕ)
  | [] => []
  | k :: ks =>
    if d + weight k = 0 then
      (openSince d s k, (k - 1) / 2) :: sweep (d + weight k) (openSince d s k) ks
    else sweep (d + weight k) (openSince d s k) ks

/-- The starts at which no interval was open. -/
def sweepStarts (d : ℤ) : List ℕ → List ℕ
  | [] => []
  | k :: ks => if d = 0 then k :: sweepStarts (d + weight k) ks else sweepStarts (d + weight k) ks

/-- The ends behind which no interval is open. -/
def sweepEnds (d : ℤ) : List ℕ → List ℕ
  | [] => []
  | k :: ks =>
    if d + weight k = 0 then k :: sweepEnds (d + weight k) ks else sweepEnds (d + weight k) ks

/-- The number of open intervals never gets negative, and is zero at the end. -/
def Balanced (d : ℤ) : List ℕ → Prop
  | [] => d = 0
  | k :: ks => 0 ≤ d ∧ Balanced (d + weight k) ks

theorem weight_cases (k : ℕ) : k % 2 = 0 ∧ weight k = 1 ∨ k % 2 = 1 ∧ weight k = -1 := by
  unfold weight
  rcases Nat.mod_two_eq_zero_or_one k with h | h <;> simp [h]

@[simp] theorem weight_start (a : ℕ) : weight (2 * a) = 1 := by simp [weight]

@[simp] theorem weight_end (b : ℕ) : weight (2 * b + 1) = -1 := by simp [weight]

@[simp] theorem below_nil (t : ℕ) : below t [] = 0 := rfl

theorem below_cons (t k : ℕ) (ks : List ℕ) :
    below t (k :: ks) = (if k < t then weight k else 0) + below t ks := by
  unfold below
  by_cases h : k < t <;> simp [h]

@[simp] theorem below_append (t : ℕ) (ks ks' : List ℕ) :
    below t (ks ++ ks') = below t ks + below t ks' := by
  unfold below
  rw [List.filter_append, List.map_append, List.sum_append]

/-- The order of the endpoints does not matter. -/
theorem below_perm (t : ℕ) {ks ks' : List ℕ} (h : ks.Perm ks') : below t ks = below t ks' :=
  ((h.filter _).map _).sum_eq

/-- Below a bound of all endpoints there is none. -/
theorem below_of_le {t : ℕ} {ks : List ℕ} (h : ∀ k ∈ ks, t ≤ k) : below t ks = 0 := by
  unfold below
  rw [List.filter_eq_nil_iff.2 fun k hk => by simpa using h k hk]
  rfl

@[simp] theorem endpoints_nil : endpoints [] = [] := rfl

@[simp] theorem endpoints_cons (e : ℕ × ℕ) (l : List (ℕ × ℕ)) :
    endpoints (e :: l) = 2 * e.1 :: (2 * e.2 + 1) :: endpoints l := rfl

/-- The endpoints of intervals below a bound: every end comes with its start. -/
theorem below_endpoints_nonneg {l : List (ℕ × ℕ)} (h : Ordered l) (t : ℕ) :
    0 ≤ below t (endpoints l) := by
  induction l with
  | nil => exact le_rfl
  | cons e l ih =>
    have he : e.1 ≤ e.2 := h e List.mem_cons_self
    have hrest := ih fun e' he' => h e' (List.mem_cons_of_mem e he')
    rw [endpoints_cons, below_cons, below_cons, weight_start, weight_end]
    split_ifs <;> omega

/-- A point is covered exactly when more intervals start than end up to it. -/
theorem below_endpoints_pos_iff {l : List (ℕ × ℕ)} (h : Ordered l) (x : ℕ) :
    0 < below (2 * x + 2) (endpoints l) ↔ Covered l x := by
  induction l with
  | nil => simp
  | cons e l ih =>
    have he : e.1 ≤ e.2 := h e List.mem_cons_self
    have hl : Ordered l := fun e' he' => h e' (List.mem_cons_of_mem e he')
    have hnonneg := below_endpoints_nonneg hl (2 * x + 2)
    rw [covered_cons, ← ih hl, endpoints_cons, below_cons, below_cons, weight_start, weight_end]
    split_ifs <;> omega

/-- Of a prefix of endpoints, those below a bound sum up to no more than all, when the others are
starts in the prefix and ends behind it. -/
theorem below_append_le {t : ℕ} {ks ks' : List ℕ} (h : ∀ k ∈ ks, t ≤ k → weight k = 1)
    (h' : ∀ k ∈ ks', k < t → weight k = -1) : below t (ks ++ ks') ≤ (ks.map weight).sum := by
  induction ks with
  | nil =>
    induction ks' with
    | nil => exact le_rfl
    | cons k ks' ih =>
      obtain ⟨hk, hks'⟩ := List.forall_mem_cons.1 h'
      have hrest := ih hks'
      simp only [List.nil_append, List.map_nil, List.sum_nil] at hrest ⊢
      rw [below_cons]
      split_ifs with hlt
      · rw [hk hlt]
        omega
      · omega
  | cons k ks ih =>
    obtain ⟨hk, hks⟩ := List.forall_mem_cons.1 h
    have hrest := ih hks
    rw [List.cons_append, below_cons, List.map_cons, List.sum_cons]
    split_ifs with hlt
    · omega
    · rw [hk (not_lt.1 hlt)]
      omega

/-- No prefix of the sorted endpoints of intervals closes more than it opens. -/
theorem sum_prefix_nonneg {l : List (ℕ × ℕ)} (h : Ordered l) {ks ks' : List ℕ}
    (hsorted : (ks ++ ks').Pairwise (· ≤ ·)) (hperm : (ks ++ ks').Perm (endpoints l)) :
    0 ≤ (ks.map weight).sum := by
  rcases List.eq_nil_or_concat ks with rfl | ⟨front, k, rfl⟩
  · exact le_rfl
  · rw [List.concat_eq_append] at *
    obtain ⟨hleft, -, hcross⟩ := List.pairwise_append.1 hsorted
    have hle : ∀ k' ∈ front ++ [k], k' ≤ k := by
      intro k' hk'
      rcases List.mem_append.1 hk' with hk' | hk'
      · exact (List.pairwise_append.1 hleft).2.2 k' hk' k (List.mem_singleton_self k)
      · exact (List.mem_singleton.1 hk').le
    -- The bound lies before the last endpoint if it is a start, and behind it if it is an end.
    refine (below_endpoints_nonneg h (k + k % 2)).trans ?_
    rw [← below_perm _ hperm]
    refine below_append_le (fun k' hk' hge => ?_) fun k' hk' hlt => ?_
    · have := hle k' hk'
      rcases weight_cases k' with ⟨-, hw⟩ | ⟨hodd, -⟩
      · exact hw
      · omega
    · have := hcross k (List.mem_append_right _ (List.mem_singleton_self k)) k' hk'
      rcases weight_cases k' with ⟨heven, -⟩ | ⟨-, hw⟩
      · omega
      · exact hw

/-- The sorted endpoints of intervals are balanced. -/
theorem balanced_endpoints {l : List (ℕ × ℕ)} (h : Ordered l) {ks : List ℕ}
    (hsorted : ks.Pairwise (· ≤ ·)) (hperm : ks.Perm (endpoints l)) : Balanced 0 ks := by
  have htotal : (ks.map weight).sum = 0 := by
    rw [(hperm.map weight).sum_eq]
    clear hperm hsorted h
    induction l with
    | nil => rfl
    | cons e l ih => simp [ih]
  suffices hrest : ∀ back front, ks = front ++ back → Balanced (front.map weight).sum back from
    hrest ks [] rfl
  intro back
  induction back with
  | nil =>
    rintro front rfl
    rwa [List.append_nil] at htotal
  | cons k back ih =>
    intro front heq
    refine ⟨sum_prefix_nonneg h (heq ▸ hsorted) (heq ▸ hperm), ?_⟩
    have hnext := ih (front ++ [k]) (by rw [heq, List.append_assoc]; rfl)
    simpa using hnext

variable {d : ℤ} {s : ℕ} {ks : List ℕ}

/-- A stretch starts no earlier than a bound of what is open and of its first endpoint. -/
theorem le_openSince {c k : ℕ} (hk : 2 * c ≤ k) (hs : d ≠ 0 → c ≤ s) : c ≤ openSince d s k := by
  unfold openSince
  split_ifs with hd
  · omega
  · exact hs hd

/-- A stretch starts no later than its first endpoint, if what is open does. -/
theorem openSince_le {k : ℕ} (hs : d ≠ 0 → 2 * s ≤ k) : 2 * openSince d s k ≤ k := by
  unfold openSince
  split_ifs with hd
  · omega
  · exact hs hd

theorem Balanced.nonneg (h : Balanced d ks) : 0 ≤ d := by
  cases ks with
  | nil => exact h.ge
  | cons k ks => exact h.1

/-- No interval of the sweep starts before a bound of the endpoints and of what is open. -/
theorem le_of_mem_sweep {c : ℕ} (hks : ∀ k ∈ ks, 2 * c ≤ k) (hs : d ≠ 0 → c ≤ s) {e : ℕ × ℕ}
    (he : e ∈ sweep d s ks) : c ≤ e.1 := by
  induction ks generalizing d s with
  | nil => simp [sweep] at he
  | cons k ks ih =>
    obtain ⟨hk, hks⟩ := List.forall_mem_cons.1 hks
    have hopen := le_openSince hk hs
    rw [sweep] at he
    split_ifs at he with hzero
    · rcases List.mem_cons.1 he with rfl | he
      · exact hopen
      · exact ih hks (fun _ => hopen) he
    · exact ih hks (fun _ => hopen) he

/-- The intervals of the sweep cover the points at which some interval is open. -/
theorem covered_sweep_iff (hsorted : ks.Pairwise (· ≤ ·)) (hbal : Balanced d ks)
    (hs : d ≠ 0 → ∀ k ∈ ks, 2 * s ≤ k) {x : ℕ} (hx : d ≠ 0 → s ≤ x) :
    Covered (sweep d s ks) x ↔ 0 < d + below (2 * x + 2) ks := by
  induction ks generalizing d s with
  | nil =>
    have hd : d = 0 := hbal
    simp [sweep, hd]
  | cons k ks ih =>
    obtain ⟨hd, hbal⟩ := hbal
    obtain ⟨hfirst, hsorted⟩ := List.pairwise_cons.1 hsorted
    have hopen := openSince_le fun h0 => hs h0 k List.mem_cons_self
    have hlater : ∀ k' ∈ ks, 2 * openSince d s k ≤ k' := fun k' hk' => hopen.trans (hfirst k' hk')
    rcases Nat.lt_or_ge x (openSince d s k) with hlt | hge
    · -- Before the stretch starts nothing is open, and nothing is covered.
      have h0 : d = 0 := by
        by_contra h0
        have := hx h0
        rw [openSince, if_neg h0] at hlt
        omega
      rw [h0, below_of_le (List.forall_mem_cons.2 ⟨by omega, fun k' hk' => by
        have := hlater k' hk'; omega⟩)]
      refine iff_of_false ?_ (lt_irrefl _)
      rintro ⟨e, he, hle, -⟩
      have := le_of_mem_sweep (List.forall_mem_cons.2 ⟨hopen, hlater⟩) (fun h => absurd rfl h) he
      omega
    · have hrest := ih hsorted hbal (fun _ => hlater) fun _ => hge
      have hnext := hbal.nonneg
      have hw := weight_cases k
      rw [sweep, below_cons]
      by_cases hk : k < 2 * x + 2
      · -- The endpoint is not behind the point, which an interval that ends there does not hold.
        rw [if_pos hk, ← add_assoc, ← hrest]
        split_ifs with hzero
        · rw [covered_cons]
          refine or_iff_right ?_
          rintro ⟨-, hlt⟩
          simp only at hlt
          omega
        · exact Iff.rfl
      · -- The endpoint is behind the point, so the point is covered if something is open before.
        have hbelow : below (2 * x + 2) ks = 0 := below_of_le fun k' hk' => by
          have := hfirst k' hk'
          omega
        have hd0 : d ≠ 0 := by
          intro h0
          rw [openSince, if_pos h0] at hge
          omega
        rw [hbelow] at hrest
        rw [if_neg hk, hbelow]
        split_ifs with hzero
        · rw [covered_cons]
          refine iff_of_true (Or.inl ⟨hge, ?_⟩) (by omega)
          simp only
          omega
        · rw [hrest]
          omega

/-- Each interval of the sweep ends before the next one starts. -/
theorem separated_sweep (hsorted : ks.Pairwise (· ≤ ·)) (hbal : Balanced d ks) :
    Separated (sweep d s ks) := by
  induction ks generalizing d s with
  | nil => exact List.Pairwise.nil
  | cons k ks ih =>
    obtain ⟨hd, hbal⟩ := hbal
    obtain ⟨hfirst, hsorted⟩ := List.pairwise_cons.1 hsorted
    rw [sweep]
    split_ifs with hzero
    · refine List.pairwise_cons.2 ⟨fun e he => ?_, ih hsorted hbal⟩
      have hw := weight_cases k
      -- Behind an end at which nothing is open there is a start, and it lies behind the end.
      have hnext : ∀ k' ∈ ks, 2 * ((k - 1) / 2 + 1) ≤ k' := by
        cases ks with
        | nil => simp
        | cons k₂ ks =>
          have hk₂ := hfirst k₂ List.mem_cons_self
          have hw₂ := weight_cases k₂
          have hnonneg := hbal.2.nonneg
          refine List.forall_mem_cons.2 ⟨by omega, fun k' hk' => ?_⟩
          have := (List.pairwise_cons.1 hsorted).1 k' hk'
          omega
      exact le_of_mem_sweep hnext (fun h => absurd hzero h) he
    · exact ih hsorted hbal

/-- The sweep keeps the starts that open a stretch. -/
theorem map_fst_sweep (hbal : Balanced d ks) :
    (if d = 0 then [] else [s]) ++ (sweepStarts d ks).map (· / 2) =
      (sweep d s ks).map Prod.fst := by
  induction ks generalizing d s with
  | nil =>
    have hd : d = 0 := hbal
    simp [sweep, sweepStarts, hd]
  | cons k ks ih =>
    have hrest := ih (s := openSince d s k) hbal.2
    have hw := weight_cases k
    rw [sweep, sweepStarts]
    by_cases hd : d = 0
    · -- The first endpoint opens a stretch, and does not close it.
      have hzero : d + weight k ≠ 0 := by omega
      have hopen : openSince d s k = k / 2 := if_pos hd
      rw [if_neg hzero, hopen] at hrest
      rw [if_pos hd, if_pos hd, if_neg hzero, hopen, ← hrest]
      rfl
    · have hopen : openSince d s k = s := if_neg hd
      rw [hopen] at hrest
      rw [if_neg hd, if_neg hd, hopen]
      split_ifs at hrest ⊢ with hzero
      · rw [List.map_cons, ← hrest]
        rfl
      · exact hrest

/-- An endpoint that opens a stretch is a start. -/
theorem Balanced.mem_sweepStarts (hbal : Balanced d ks) {k : ℕ} (hk : k ∈ sweepStarts d ks) :
    k ∈ ks ∧ k % 2 = 0 := by
  induction ks generalizing d with
  | nil => simp [sweepStarts] at hk
  | cons k' ks ih =>
    have hw := weight_cases k'
    have hnext := hbal.2.nonneg
    rw [sweepStarts] at hk
    split_ifs at hk with hd
    · rcases List.mem_cons.1 hk with rfl | hk
      · exact ⟨List.mem_cons_self, by omega⟩
      · exact ⟨List.mem_cons_of_mem _ (ih hbal.2 hk).1, (ih hbal.2 hk).2⟩
    · exact ⟨List.mem_cons_of_mem _ (ih hbal.2 hk).1, (ih hbal.2 hk).2⟩

/-- An endpoint that closes a stretch is an end. -/
theorem Balanced.mem_sweepEnds (hbal : Balanced d ks) {k : ℕ} (hk : k ∈ sweepEnds d ks) :
    k ∈ ks ∧ k % 2 = 1 := by
  induction ks generalizing d with
  | nil => simp [sweepEnds] at hk
  | cons k' ks ih =>
    have hw := weight_cases k'
    have hd := hbal.1
    rw [sweepEnds] at hk
    split_ifs at hk with hzero
    · rcases List.mem_cons.1 hk with rfl | hk
      · exact ⟨List.mem_cons_self, by omega⟩
      · exact ⟨List.mem_cons_of_mem _ (ih hbal.2 hk).1, (ih hbal.2 hk).2⟩
    · exact ⟨List.mem_cons_of_mem _ (ih hbal.2 hk).1, (ih hbal.2 hk).2⟩

/-- No interval of the sweep ends before it starts. -/
theorem le_of_mem_sweep_self (hsorted : ks.Pairwise (· ≤ ·)) (hbal : Balanced d ks)
    (hs : d ≠ 0 → ∀ k ∈ ks, 2 * s ≤ k) {e : ℕ × ℕ} (he : e ∈ sweep d s ks) : e.1 ≤ e.2 := by
  induction ks generalizing d s with
  | nil => simp [sweep] at he
  | cons k ks ih =>
    obtain ⟨hfirst, hsorted⟩ := List.pairwise_cons.1 hsorted
    have hw := weight_cases k
    have hd := hbal.1
    have hopen := openSince_le fun h0 => hs h0 k List.mem_cons_self
    have hlater : d + weight k ≠ 0 → ∀ k' ∈ ks, 2 * openSince d s k ≤ k' :=
      fun _ k' hk' => hopen.trans (hfirst k' hk')
    rw [sweep] at he
    split_ifs at he with hzero
    · rcases List.mem_cons.1 he with rfl | he
      · simp only
        omega
      · exact ih hsorted hbal.2 hlater he
    · exact ih hsorted hbal.2 hlater he

/-- The sweep keeps the ends that close a stretch. -/
theorem map_snd_sweep (d : ℤ) (s : ℕ) (ks : List ℕ) :
    (sweepEnds d ks).map (fun k => (k - 1) / 2) = (sweep d s ks).map Prod.snd := by
  induction ks generalizing d s with
  | nil => rfl
  | cons k ks ih =>
    rw [sweep, sweepEnds]
    split_ifs with hzero
    · rw [List.map_cons, List.map_cons, ih]
    · exact ih _ _

/-- An endpoint is the start or the end of an interval. -/
theorem exists_of_mem_endpoints {l : List (ℕ × ℕ)} {k : ℕ} (hk : k ∈ endpoints l) :
    ∃ e ∈ l, k = 2 * e.1 ∨ k = 2 * e.2 + 1 := by
  obtain ⟨e, he, hk⟩ := List.mem_flatMap.1 hk
  exact ⟨e, he, by simpa using hk⟩

/-- There are as many starts among the endpoints as there are intervals. -/
theorem length_filter_endpoints (l : List (ℕ × ℕ)) :
    ((endpoints l).filter (· % 2 = 0)).length = l.length := by
  induction l with
  | nil => rfl
  | cons e l ih =>
    rw [endpoints_cons, List.filter_cons_of_pos (by simp), List.filter_cons_of_neg (by simp),
      List.length_cons, List.length_cons, ih]

/-- The endpoints that open a stretch are among the others in the same order. -/
theorem sweepStarts_sublist (d : ℤ) (ks : List ℕ) : (sweepStarts d ks).Sublist ks := by
  induction ks generalizing d with
  | nil => exact List.Sublist.refl _
  | cons k ks ih =>
    rw [sweepStarts]
    split_ifs
    · exact (ih _).cons_cons k
    · exact (ih _).cons k

section NormalForm

variable {l : List (ℕ × ℕ)} (hsorted : ks.Pairwise (· ≤ ·)) (hperm : ks.Perm (endpoints l))

include hsorted hperm

/-- The sweep over the sorted endpoints of intervals makes intervals that neither overlap nor touch
and cover the same points. -/
theorem sweep_normalForm (h : Ordered l) : Separated (sweep 0 0 ks) ∧ Ordered (sweep 0 0 ks) ∧
    ∀ x, Covered (sweep 0 0 ks) x ↔ Covered l x := by
  have hbal := balanced_endpoints h hsorted hperm
  refine ⟨separated_sweep hsorted hbal, fun e he =>
    le_of_mem_sweep_self hsorted hbal (fun h0 => absurd rfl h0) he, fun x => ?_⟩
  rw [covered_sweep_iff hsorted hbal (fun h0 => absurd rfl h0) fun h0 => absurd rfl h0, zero_add,
    below_perm _ hperm, below_endpoints_pos_iff h]

/-- An interval of the sweep starts where one of the list does. -/
theorem exists_start_of_mem_sweep (h : Ordered l) {e : ℕ × ℕ} (he : e ∈ sweep 0 0 ks) :
    ∃ a ∈ l, a.1 = e.1 := by
  have hbal := balanced_endpoints h hsorted hperm
  have hfst := List.mem_map_of_mem (f := Prod.fst) he
  rw [← map_fst_sweep hbal, if_pos rfl, List.nil_append] at hfst
  obtain ⟨k, hk, hke⟩ := List.mem_map.1 hfst
  obtain ⟨hmem, heven⟩ := hbal.mem_sweepStarts hk
  obtain ⟨a, ha, hcases⟩ := exists_of_mem_endpoints (hperm.subset hmem)
  exact ⟨a, ha, by omega⟩

/-- An interval of the sweep ends where one of the list does. -/
theorem exists_end_of_mem_sweep (h : Ordered l) {e : ℕ × ℕ} (he : e ∈ sweep 0 0 ks) :
    ∃ a ∈ l, a.2 = e.2 := by
  have hbal := balanced_endpoints h hsorted hperm
  have hsnd := List.mem_map_of_mem (f := Prod.snd) he
  rw [← map_snd_sweep] at hsnd
  obtain ⟨k, hk, hke⟩ := List.mem_map.1 hsnd
  obtain ⟨hmem, hodd⟩ := hbal.mem_sweepEnds hk
  obtain ⟨a, ha, hcases⟩ := exists_of_mem_endpoints (hperm.subset hmem)
  exact ⟨a, ha, by omega⟩

/-- The sweep makes no more intervals than there are in the list. -/
theorem length_sweep_le (h : Ordered l) : (sweep 0 0 ks).length ≤ l.length := by
  have hbal := balanced_endpoints h hsorted hperm
  have hfst := congrArg List.length (map_fst_sweep (s := 0) hbal)
  have heven : (sweepStarts 0 ks).filter (· % 2 = 0) = sweepStarts 0 ks :=
    List.filter_eq_self.2 fun k hk => decide_eq_true (hbal.mem_sweepStarts hk).2
  calc (sweep 0 0 ks).length = (sweepStarts 0 ks).length := by simpa using hfst.symm
    _ = ((sweepStarts 0 ks).filter (· % 2 = 0)).length := by rw [heven]
    _ ≤ (ks.filter (· % 2 = 0)).length := ((sweepStarts_sublist 0 ks).filter _).length_le
    _ = ((endpoints l).filter (· % 2 = 0)).length := (hperm.filter _).length_eq
    _ = l.length := length_filter_endpoints l

/-- The sweep over the endpoints of proper intervals makes proper intervals. -/
theorem proper_sweep (h : Proper l) : Proper (sweep 0 0 ks) := by
  obtain ⟨hseparated, hordered, hcovered⟩ := sweep_normalForm hsorted hperm h.ordered
  intro e he
  -- An interval of the list starts where this one does, so its start is covered, and by itself.
  obtain ⟨a, ha, hae⟩ := exists_start_of_mem_sweep hsorted hperm h.ordered he
  obtain ⟨d, hd, hle, hlt⟩ := (hcovered e.1).2 (hae ▸ h.covered_start ha)
  rw [hseparated.eq_of_mem he hd (x := e.1) ⟨le_rfl, hordered e he⟩ ⟨hle, hlt.le⟩]
  omega

end NormalForm

/-- The normal form of a list of intervals. -/
def normalForm (l : List (ℕ × ℕ)) : List (ℕ × ℕ) :=
  sweep 0 0 ((endpoints l).insertionSort (· ≤ ·))

/-- A list covers the same points as another one, with no more intervals: these end where intervals
of the other list do, and are ordered or proper if those are. -/
structure Merges (l l' : List (ℕ × ℕ)) : Prop where
  length_le : l'.length ≤ l.length
  ordered : Ordered l → Ordered l'
  proper : Proper l → Proper l'
  exists_end : ∀ e ∈ l', ∃ a ∈ l, a.2 = e.2
  covered : ∀ x, Covered l' x ↔ Covered l x

namespace Merges

variable {l l' m m' : List (ℕ × ℕ)}

theorem refl (l : List (ℕ × ℕ)) : Merges l l :=
  ⟨le_rfl, id, id, fun e he => ⟨e, he, rfl⟩, fun _ => Iff.rfl⟩

theorem trans (h : Merges l l') (h' : Merges l' m) : Merges l m where
  length_le := h'.length_le.trans h.length_le
  ordered := h'.ordered ∘ h.ordered
  proper := h'.proper ∘ h.proper
  exists_end e he := by
    obtain ⟨a, ha, hae⟩ := h'.exists_end e he
    obtain ⟨b, hb, hba⟩ := h.exists_end a ha
    exact ⟨b, hb, hba.trans hae⟩
  covered x := (h'.covered x).trans (h.covered x)

/-- Two lists may be merged each by itself. -/
theorem append (h : Merges l l') (h' : Merges m m') : Merges (l ++ m) (l' ++ m') where
  length_le := by
    have hl := h.length_le
    have hm := h'.length_le
    simp only [List.length_append]
    omega
  ordered ho := by
    obtain ⟨hl, hm⟩ := List.forall_mem_append.1 ho
    exact List.forall_mem_append.2 ⟨h.ordered hl, h'.ordered hm⟩
  proper hp := by
    obtain ⟨hl, hm⟩ := List.forall_mem_append.1 hp
    exact List.forall_mem_append.2 ⟨h.proper hl, h'.proper hm⟩
  exists_end e he := by
    rcases List.mem_append.1 he with he | he
    · obtain ⟨a, ha, hae⟩ := h.exists_end e he
      exact ⟨a, List.mem_append_left _ ha, hae⟩
    · obtain ⟨a, ha, hae⟩ := h'.exists_end e he
      exact ⟨a, List.mem_append_right _ ha, hae⟩
  covered x := by rw [covered_append, covered_append, h.covered x, h'.covered x]

end Merges

/-- The normal form is separated. -/
theorem separated_normalForm {l : List (ℕ × ℕ)} (h : Ordered l) : Separated (normalForm l) :=
  (sweep_normalForm (List.pairwise_insertionSort _ _) (List.perm_insertionSort _ _) h).1

/-- The normal form merges the list. -/
theorem merges_normalForm {l : List (ℕ × ℕ)} (h : Ordered l) : Merges l (normalForm l) := by
  have hsorted := List.pairwise_insertionSort (· ≤ ·) (endpoints l)
  have hperm := List.perm_insertionSort (· ≤ ·) (endpoints l)
  obtain ⟨-, hordered, hcovered⟩ := sweep_normalForm hsorted hperm h
  exact ⟨length_sweep_le hsorted hperm h, fun _ => hordered, proper_sweep hsorted hperm,
    fun _ he => exists_end_of_mem_sweep hsorted hperm h he, hcovered⟩

end TenProf
