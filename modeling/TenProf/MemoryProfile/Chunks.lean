import TenProf.MemoryProfile.State

/-!
# What `update_blank_chunks` does to the chunks of an object

The loop walks over the chunks from the last one that starts at the access or before it. The chunk
at the iterator is erased, trimmed at its front, or split at the start of the access; the chunks
before it lie below the access, and outside the access nothing is lost. The loop ends for every
access, since the iterator moves on after every turn but one, and what it leaves are the bytes that
do not lie in the access (`exists_settles_eraseRange`).
-/

namespace TenProf.MemoryProfile

/-- The chunks that are left of others without the bytes from `a` up to, and without, `b`. -/
structure Erased (a b : ℕ) (chunks chunks' : List (ℕ × ℕ)) : Prop where
  ordered : Chunks chunks'
  covered : ∀ x, Covered chunks' x ↔ Covered chunks x ∧ ¬(a ≤ x ∧ x < b)

/-- The loop at a chunk. Either the chunk starts within the access, and `start` is its own start, or
it starts below the access, as the only one behind the iterator, and `start` is that of the
access. -/
structure Walking (a b : ℕ) (chunks : List (ℕ × ℕ)) (unuse_range_set : RangeSet)
    (before : List (ℕ × ℕ)) (iter : ℕ × ℕ) (rest : List (ℕ × ℕ)) (start : ℕ) : Prop where
  split : unuse_range_set.toList = before ++ iter :: rest
  ordered : Chunks unuse_range_set.toList
  subset : ∀ x, Covered unuse_range_set.toList x → Covered chunks x
  kept : ∀ x, Covered chunks x → ¬(a ≤ x ∧ x < b) → Covered unuse_range_set.toList x
  below : ∀ e ∈ before, e.2 ≤ a
  position : start = iter.1 ∧ a ≤ iter.1 ∧ iter.1 ≤ b ∨
    start = a ∧ iter.1 < a ∧ ∀ e ∈ rest, a < e.1

/-- The states of the loop: before the first chunk, when no chunk starts at the access or below it,
or at a chunk. -/
def WalkState (a b : ℕ) (chunks : List (ℕ × ℕ)) : ChunkState → Prop
  | (unuse_range_set, [], start) =>
    unuse_range_set.toList = chunks ∧ chunks ≠ [] ∧ start = a ∧ Chunks chunks ∧
      ∀ e ∈ chunks, a < e.1
  | (unuse_range_set, iter :: rest, start) =>
    ∃ before, Walking a b chunks unuse_range_set before iter rest start

/-- The turns that are left at most. -/
def walkMeasure : ChunkState → ℕ
  | (unuse_range_set, [], _) => 2 * unuse_range_set.toList.length
  | (_, iter :: rest, start) => 2 * rest.length + if start = iter.1 then 0 else 1

variable {a b start : ℕ} {chunks before rest : List (ℕ × ℕ)} {unuse_range_set : RangeSet}
  {iter : ℕ × ℕ}

namespace Walking

variable (h : Walking a b chunks unuse_range_set before iter rest start)

include h

/-- The chunk at the iterator is replaced by parts of it that have all its bytes outside the
access. -/
theorem replace {set' : RangeSet} (pieces : List (ℕ × ℕ))
    (hlist : set'.toList = before ++ (pieces ++ rest)) (hpieces : Chunks pieces)
    (hwithin : ∀ d ∈ pieces, iter.1 ≤ d.1 ∧ d.2 ≤ iter.2)
    (hkept : ∀ x, iter.1 ≤ x → x < iter.2 → ¬(a ≤ x ∧ x < b) → Covered pieces x) :
    Chunks set'.toList ∧ (∀ x, Covered set'.toList x → Covered chunks x) ∧
      ∀ x, Covered chunks x → ¬(a ≤ x ∧ x < b) → Covered set'.toList x := by
  rw [hlist]
  refine ⟨(h.split ▸ h.ordered).replace hpieces hwithin, fun x hx => h.subset x ?_,
    fun x hx hout => ?_⟩
  · rw [h.split, covered_append, covered_cons]
    rw [covered_append, covered_append] at hx
    rcases hx with hx | ⟨d, hd, hge, hlt⟩ | hx
    · exact .inl hx
    · have hd' := hwithin d hd
      exact .inr (.inl ⟨by omega, by omega⟩)
    · exact .inr (.inr hx)
  · have hold := h.kept x hx hout
    rw [h.split, covered_append, covered_cons] at hold
    rw [covered_append, covered_append]
    rcases hold with hold | ⟨hge, hlt⟩ | hold
    · exact .inl hold
    · exact .inr (.inl (hkept x hge hlt hout))
    · exact .inr (.inr hold)

/-- The loop ends with the chunk at the iterator replaced by parts of it outside the access, when
the chunks behind it lie behind the access. -/
theorem erased {set' : RangeSet} (pieces : List (ℕ × ℕ))
    (hlist : set'.toList = before ++ (pieces ++ rest)) (hpieces : Chunks pieces)
    (hwithin : ∀ d ∈ pieces, iter.1 ≤ d.1 ∧ d.2 ≤ iter.2)
    (hcovered : ∀ x, iter.1 ≤ x → x < iter.2 → (Covered pieces x ↔ ¬(a ≤ x ∧ x < b)))
    (hrest : ∀ e ∈ rest, b ≤ e.1) : Erased a b chunks set'.toList := by
  obtain ⟨hchunks, hsubset, hkept⟩ :=
    h.replace pieces hlist hpieces hwithin fun x hge hlt => (hcovered x hge hlt).2
  refine ⟨hchunks, fun x => ⟨fun hx => ⟨hsubset x hx, fun hin => ?_⟩, fun hx => hkept x hx.1 hx.2⟩⟩
  rw [hlist, covered_append, covered_append] at hx
  rcases hx with ⟨e, he, hge, hlt⟩ | ⟨d, hd, hge, hlt⟩ | ⟨e, he, hge, hlt⟩
  · have hle := h.below e he
    omega
  · have hd' := hwithin d hd
    exact (hcovered x (by omega) (by omega)).1 ⟨d, hd, hge, hlt⟩ hin
  · have hle := hrest e he
    omega

/-- The chunks behind the iterator start at the end of its chunk or later. -/
theorem le_rest {e : ℕ × ℕ} (he : e ∈ rest) : iter.2 ≤ e.1 := (h.split ▸ h.ordered).le_of_split he

/-- When the next chunk lies behind the access, all further ones do. -/
theorem forall_rest {next : ℕ × ℕ} {later : List (ℕ × ℕ)} (hrest : rest = next :: later)
    (hnext : b ≤ next.1) : ∀ e ∈ rest, b ≤ e.1 := by
  intro e he
  have hsorted := unuse_range_set.sorted
  rw [h.split, hrest, List.pairwise_append, List.pairwise_cons] at hsorted
  rw [hrest] at he
  rcases List.mem_cons.1 he with rfl | he
  · exact hnext
  · exact hnext.trans (List.rel_of_pairwise_cons hsorted.2.1.2 he).le

/-- The chunk is trimmed at its front. -/
theorem trim (hge : a ≤ iter.1) (hle : iter.1 ≤ b) (hlt : b < iter.2) :
    Erased a b chunks ((unuse_range_set.erase iter.1).emplace b iter.2).toList := by
  obtain ⟨hbefore, -⟩ := OrderedMap.keys_of_split h.split
  have hlist : ((unuse_range_set.erase iter.1).emplace b iter.2).toList =
      before ++ (b, iter.2) :: rest :=
    OrderedMap.toList_emplace_split (OrderedMap.toList_erase_split h.split)
      (fun e he => (hbefore e he).trans_le hle) (fun e he => hlt.trans_le (h.le_rest he)) _
  apply h.erased [(b, iter.2)] hlist
  · exact ⟨by simp, by simpa using hlt.le⟩
  · simpa using hle
  · intro x hx hx'
    rw [covered_cons, or_iff_left (covered_nil x)]
    dsimp only
    omega
  · exact fun e he => hlt.le.trans (h.le_rest he)

/-- The chunk is erased, and the loop ends. -/
theorem erase_last (hge : a ≤ iter.1) (hle : iter.2 ≤ b) (hrest : ∀ e ∈ rest, b ≤ e.1) :
    Erased a b chunks (unuse_range_set.erase iter.1).toList := by
  apply h.erased [] (OrderedMap.toList_erase_split h.split)
  · exact ⟨by simp, by simp⟩
  · simp
  · intro x hx hx'
    refine iff_of_false (covered_nil x) ?_
    omega
  · exact hrest

/-- The chunk is erased, and the loop goes on at the next one. -/
theorem erase_next {next : ℕ × ℕ} {later : List (ℕ × ℕ)} (hrest : rest = next :: later)
    (hge : a ≤ iter.1) (hle : iter.2 ≤ b) (hnext : next.1 ≤ b) :
    Walking a b chunks (unuse_range_set.erase iter.1) before next later next.1 := by
  have hlist := OrderedMap.toList_erase_split h.split
  obtain ⟨hchunks, hsubset, hkept⟩ := h.replace [] hlist ⟨by simp, by simp⟩ (by simp)
    fun x hx hx' hout => absurd ⟨hge.trans hx, hx'.trans_le hle⟩ hout
  have hgt := (OrderedMap.keys_of_split h.split).2 next (by rw [hrest]; exact List.mem_cons_self)
  exact
    { split := by rw [hlist, hrest]
      ordered := hchunks
      subset := hsubset
      kept := hkept
      below := h.below
      position := .inl ⟨rfl, by omega, hnext⟩ }

/-- The chunk is split at the start of the access. -/
theorem split_chunk (hab : a ≤ b) (hlt : iter.1 < a) (hlt' : a < iter.2)
    (hrest : ∀ e ∈ rest, a < e.1) :
    Walking a b chunks (((unuse_range_set.erase iter.1).emplace iter.1 a).emplace a iter.2)
      (before ++ [(iter.1, a)]) (a, iter.2) rest a := by
  obtain ⟨hbefore, hlater⟩ := OrderedMap.keys_of_split h.split
  have hfirst : ((unuse_range_set.erase iter.1).emplace iter.1 a).toList =
      before ++ (iter.1, a) :: rest :=
    OrderedMap.toList_emplace_split (OrderedMap.toList_erase_split h.split) hbefore hlater _
  have hlist : (((unuse_range_set.erase iter.1).emplace iter.1 a).emplace a iter.2).toList =
      (before ++ [(iter.1, a)]) ++ (a, iter.2) :: rest := by
    refine OrderedMap.toList_emplace_split (hfirst.trans (by simp)) (fun e he => ?_) hrest _
    rcases List.mem_append.1 he with he | he
    · exact (hbefore e he).trans hlt
    · rw [List.mem_singleton.1 he]
      exact hlt
  have hpieces : Chunks [(iter.1, a), (a, iter.2)] :=
    ⟨by simp, by simpa using ⟨hlt.le, hlt'.le⟩⟩
  obtain ⟨hchunks, hsubset, hkept⟩ := h.replace _ (hlist.trans (by simp)) hpieces
    (by simpa using ⟨hlt'.le, hlt.le⟩) fun x hx hx' _ => by
      rw [covered_cons, covered_cons]
      dsimp only
      omega
  refine
    { split := hlist
      ordered := hchunks
      subset := hsubset
      kept := hkept
      below := fun e he => ?_
      position := .inl ⟨rfl, le_rfl, hab⟩ }
  rcases List.mem_append.1 he with he | he
  · exact h.below e he
  · rw [List.mem_singleton.1 he]

/-- The chunk lies below the access, and the loop ends. -/
theorem keep_last (hle : iter.2 ≤ a) (hrest : ∀ e ∈ rest, b ≤ e.1) :
    Erased a b chunks unuse_range_set.toList := by
  have hiter : iter.1 ≤ iter.2 := h.ordered.le iter (by rw [h.split]; simp)
  apply h.erased [iter] h.split
  · exact ⟨by simp, by simpa using hiter⟩
  · simp
  · intro x hx hx'
    rw [covered_cons, or_iff_left (covered_nil x)]
    omega
  · exact hrest

/-- The chunk lies below the access, and the loop goes on at the next one. -/
theorem keep_next {next : ℕ × ℕ} {later : List (ℕ × ℕ)} (hrest : rest = next :: later)
    (hle : iter.2 ≤ a) (habove : ∀ e ∈ rest, a < e.1) (hnext : next.1 < b) :
    Walking a b chunks unuse_range_set (before ++ [iter]) next later next.1 := by
  refine
    { split := by rw [h.split, hrest, List.append_assoc, List.singleton_append]
      ordered := h.ordered
      subset := h.subset
      kept := h.kept
      below := fun e he => ?_
      position := .inl ⟨rfl, (habove next (by rw [hrest]; simp)).le, hnext.le⟩ }
  rcases List.mem_append.1 he with he | he
  · exact h.below e he
  · rw [List.mem_singleton.1 he]
    exact hle

end Walking

/-- What a turn is to do: either it keeps the state in order and comes closer to the end of the
loop, or it leaves the bytes outside the access. -/
def GoodTurn (a b : ℕ) (chunks : List (ℕ × ℕ)) (s : ChunkState) : Prop :=
  (∃ s', chunkTurn b s = .inl s' ∧ WalkState a b chunks s' ∧ walkMeasure s' < walkMeasure s) ∨
    ∃ set', chunkTurn b s = .inr (some set') ∧ Erased a b chunks set'.toList

/-- A turn before the first chunk. -/
theorem goodTurn_begin (hs : WalkState a b chunks (unuse_range_set, [], start)) :
    GoodTurn a b chunks (unuse_range_set, [], start) := by
  obtain ⟨hlist, hne, -, hchunks, habove⟩ := hs
  obtain ⟨first, rest, rfl⟩ := List.exists_cons_of_ne_nil hne
  by_cases hstop : b ≤ first.1
  · refine .inr ⟨unuse_range_set, by simp only [chunkTurn, hlist, if_pos hstop], ?_⟩
    rw [hlist]
    refine ⟨hchunks, fun x => (and_iff_left_of_imp fun hx hin => ?_).symm⟩
    obtain ⟨e, he, hge, hlt⟩ := hx
    rcases List.mem_cons.1 he with rfl | he
    · omega
    · have hle := List.rel_of_pairwise_cons hchunks.apart he
      have hfirst := hchunks.le first List.mem_cons_self
      omega
  · refine .inl ⟨(unuse_range_set, first :: rest, first.1),
      by simp only [chunkTurn, hlist, if_neg hstop], ⟨[], ?_⟩, ?_⟩
    · exact
        { split := hlist
          ordered := hlist ▸ hchunks
          subset := fun x hx => hlist ▸ hx
          kept := fun x hx _ => hlist ▸ hx
          below := by simp
          position := .inl ⟨rfl, (habove first List.mem_cons_self).le, by omega⟩ }
    · simp only [walkMeasure, hlist, List.length_cons, if_pos]
      omega

/-- A turn at a chunk that starts within the access. -/
theorem goodTurn_within (h : Walking a b chunks unuse_range_set before iter rest iter.1)
    (hge : a ≤ iter.1) (hle : iter.1 ≤ b) :
    GoodTurn a b chunks (unuse_range_set, iter :: rest, iter.1) := by
  by_cases hlt : b < iter.2
  · exact .inr ⟨_, by simp only [chunkTurn, if_pos, if_pos hlt], h.trim hge hle hlt⟩
  · have hle' := not_lt.1 hlt
    rcases hrest : rest with _ | ⟨next, later⟩
    · refine .inr ⟨_, by simp only [chunkTurn, if_pos, if_neg hlt], h.erase_last hge hle' ?_⟩
      simp [hrest]
    · by_cases hnext : b < next.1
      · exact .inr ⟨_, by simp only [chunkTurn, if_pos, if_neg hlt, if_pos hnext],
          h.erase_last hge hle' (h.forall_rest hrest hnext.le)⟩
      · refine .inl ⟨(unuse_range_set.erase iter.1, next :: later, next.1),
          by simp only [chunkTurn, if_pos, if_neg hlt, if_neg hnext],
          ⟨before, h.erase_next hrest hge hle' (not_lt.1 hnext)⟩, ?_⟩
        simp only [walkMeasure, List.length_cons, if_pos]
        omega

/-- A turn at a chunk that starts below the access. -/
theorem goodTurn_below (hab : a ≤ b) (h : Walking a b chunks unuse_range_set before iter rest a)
    (hlt : iter.1 < a) (habove : ∀ e ∈ rest, a < e.1) :
    GoodTurn a b chunks (unuse_range_set, iter :: rest, a) := by
  have hne : a ≠ iter.1 := hlt.ne'
  by_cases hstart : a < iter.2
  · refine .inl ⟨(((unuse_range_set.erase iter.1).emplace iter.1 a).emplace a iter.2,
        (a, iter.2) :: rest, a),
      by simp only [chunkTurn, if_neg hne, if_pos hstart],
      ⟨_, h.split_chunk hab hlt hstart habove⟩, ?_⟩
    simp only [walkMeasure, if_pos, if_neg hne]
    omega
  · have hle := not_lt.1 hstart
    rcases hrest : rest with _ | ⟨next, later⟩
    · refine .inr ⟨_, by simp only [chunkTurn, if_neg hne, if_neg hstart], h.keep_last hle ?_⟩
      simp [hrest]
    · by_cases hnext : next.1 < b
      · refine .inl ⟨(unuse_range_set, next :: later, next.1),
          by simp only [chunkTurn, if_neg hne, if_neg hstart, if_pos hnext],
          ⟨_, h.keep_next hrest hle habove hnext⟩, ?_⟩
        simp only [walkMeasure, List.length_cons, if_pos, if_neg hne]
        omega
      · exact .inr ⟨_, by simp only [chunkTurn, if_neg hne, if_neg hstart, if_neg hnext],
          h.keep_last hle (h.forall_rest hrest (not_lt.1 hnext))⟩

/-- Every turn is a good one. -/
theorem goodTurn (hab : a ≤ b) {s : ChunkState} (hs : WalkState a b chunks s) :
    GoodTurn a b chunks s := by
  obtain ⟨unuse_range_set, iter, start⟩ := s
  cases iter with
  | nil => exact goodTurn_begin hs
  | cons iter rest =>
    obtain ⟨before, h⟩ := hs
    rcases h.position with ⟨rfl, hge, hle⟩ | ⟨rfl, hlt, habove⟩
    · exact goodTurn_within h hge hle
    · exact goodTurn_below hab h hlt habove

/-- The state in which the loop starts. -/
theorem walkState_chunkIter (hne : unuse_range_set.size ≠ 0)
    (hchunks : Chunks unuse_range_set.toList) (hab : a ≤ b) :
    WalkState a b unuse_range_set.toList (unuse_range_set, chunkIter unuse_range_set a, a) := by
  unfold chunkIter
  cases hprev : unuse_range_set.prev a with
  | none =>
    have hne' : unuse_range_set.toList ≠ [] := fun hnil => hne (List.length_eq_zero_iff.2 hnil)
    exact ⟨rfl, hne', rfl, hchunks, (OrderedMap.prev_eq_none_iff _ _).1 hprev⟩
  | some iter =>
    obtain ⟨⟨-, hle⟩, hlast⟩ := (OrderedMap.prev_eq_some_iff _ _ _).1 hprev
    obtain ⟨before, hsplit⟩ := OrderedMap.toList_of_prev hprev
    -- No chunk behind the one that is found starts at the access or below it.
    have habove : ∀ e ∈ unuse_range_set.after iter.1, a < e.1 := by
      intro e he
      obtain ⟨hmem, hlt⟩ := (OrderedMap.mem_after _ _ _).1 he
      by_contra hnot
      rcases hlast e hmem (not_lt.1 hnot) with rfl | hlt'
      · exact lt_irrefl _ hlt
      · exact lt_asymm hlt hlt'
    refine ⟨before, hsplit, hchunks, fun x hx => hx, fun x hx _ => hx, fun e he => ?_, ?_⟩
    · have hcross := (List.pairwise_append.1 (hsplit ▸ hchunks.apart)).2.2 e he iter
        List.mem_cons_self
      exact hcross.trans hle
    · rcases hle.eq_or_lt with heq | hlt
      · exact .inl ⟨heq.symm, heq.ge, heq ▸ hab⟩
      · exact .inr ⟨rfl, hlt, habove⟩

/-- For every access the loop ends, and leaves the bytes of the chunks that do not lie in it. -/
theorem exists_settles_eraseRange (hchunks : Chunks unuse_range_set.toList)
    (range_iter : MemoryRange) (hle : range_iter.start ≤ range_iter.stop) :
    ∃ set', Settles (fun fuel => eraseRange fuel unuse_range_set range_iter) set' ∧
      Erased range_iter.start range_iter.stop unuse_range_set.toList set'.toList := by
  unfold eraseRange
  by_cases hsize : unuse_range_set.size = 0
  · simp only [if_pos hsize]
    refine ⟨_, settles_const rfl, hchunks, fun x => ?_⟩
    have hnil : unuse_range_set.toList = [] := List.length_eq_zero_iff.1 hsize
    rw [hnil]
    simp
  · simp only [if_neg hsize]
    have hloop : ∃ res, Settles (fun fuel => loop (chunkTurn range_iter.stop) fuel
        (unuse_range_set, chunkIter unuse_range_set range_iter.start, range_iter.start)) res ∧
        ∃ set', res = some set' ∧
          Erased range_iter.start range_iter.stop unuse_range_set.toList set'.toList := by
      apply exists_settles_loop walkMeasure _ _ (walkState_chunkIter hsize hchunks hle)
      · intro s s' hs hturn
        rcases goodTurn hle hs with ⟨s'', hturn', hs', hlt⟩ | ⟨set', hturn', -⟩
        · rw [hturn, Sum.inl.injEq] at hturn'
          exact hturn' ▸ ⟨hs', hlt⟩
        · exact absurd (hturn.symm.trans hturn') (by simp)
      · intro s res hs hturn
        rcases goodTurn hle hs with ⟨s', hturn', -⟩ | ⟨set', hturn', herased⟩
        · exact absurd (hturn.symm.trans hturn') (by simp)
        · exact ⟨set', Sum.inr.inj (hturn.symm.trans hturn'), herased⟩
    obtain ⟨_, hsettles, set', rfl, herased⟩ := hloop
    exact ⟨set', hsettles.bind (settles_const rfl), herased⟩

end TenProf.MemoryProfile
