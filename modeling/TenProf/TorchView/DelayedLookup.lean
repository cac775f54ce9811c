import TenProf.Library.Predecessor
import TenProf.TorchView.Exactness
import TenProf.TorchView.Invariant

/-!
# Which roots a delayed lookup finds

A delayed lookup is meant to find every root that has an element at an address. It takes the roots
from the lower bound of the address on, so those that start at the address or behind it, and keeps
the ones that start at the address or before it. What is left are the roots that start at the
address itself (`mem_possibleNodes_delayed`). So a lookup is complete exactly when every root that
has an element at the address starts there (`delayedComplete_iff`).
-/

namespace TenProf.TorchView

variable {env : Env} {s : TorchView} {is_delay : Bool} {a : ℕ} {n : ViewNode}

/-- A node is a root that starts at an address, and no root up to it that starts there ends before
it, as the range of a tensor does that runs over the last address. -/
def StartsAt (roots : List (Tree ViewNode)) (a : ℕ) (n : ViewNode) : Prop :=
  n.data_ptr = a ∧ ∃ front r back, roots = front ++ r :: back ∧ r.root = n ∧
    ∀ r' ∈ front ++ [r], r'.root.data_ptr = a → a ≤ r'.root.mem_block_range.2

/-- A lookup has a result, with every root that has an element at the address. -/
def LookupComplete (env : Env) (s : TorchView) (a : ℕ) (is_delay : Bool) : Prop :=
  ∃ hits cells, newGetViewNodesByMemAddr env s s.attribution.cells a is_delay =
      some (hits, cells) ∧
    ∀ r ∈ s.roots, ∀ c, s.attribution.cells.find? r.root.ptr = some c →
      IsElement r.root c.dims a → r.root ∈ hits

/-- The nodes that a delayed lookup tests are the roots that start at the address. -/
theorem mem_possibleNodes_delayed (h : Inv env s) {possible : List ViewNode}
    (hdelay : is_delay = true ∨ s.op_stack = [])
    (hpossible : possibleNodes s a is_delay = some possible) :
    n ∈ possible ↔ StartsAt s.roots a n := by
  have hbranch : ¬(!is_delay && s.op_stack ≠ []) = true := by
    rcases hdelay with rfl | hstack
    · simp
    · simp [hstack]
  unfold possibleNodes at hpossible
  rw [if_neg hbranch, Option.some.injEq] at hpossible
  subst hpossible
  simp only [List.mem_filter, List.mem_map, decide_eq_true_eq, StartsAt]
  have happend := lowerBound_append s.roots a
  constructor
  · -- Behind the lower bound no root starts earlier, and the node does not start later.
    rintro ⟨⟨r, hr, rfl⟩, hle⟩
    obtain ⟨front, back, hsplit, hall⟩ := mem_takeWhile_iff_split.1 hr
    have habove : r ∈ (lowerBound s.roots a).2 := by simp [hsplit]
    have hr' : r ∈ s.roots := happend ▸ List.mem_append_right _ habove
    have hge := le_of_mem_lowerBound h.sorted habove
    rw [h.root_range r hr'] at hle
    refine ⟨by omega, (lowerBound s.roots a).1 ++ front, r, back, ?_, rfl, ?_⟩
    · rw [List.append_assoc, ← hsplit, happend]
    · intro r' hr' heq
      rw [List.append_assoc] at hr'
      rcases List.mem_append.1 hr' with hbelow | hfront
      · have hlt := lt_of_mem_lowerBound hbelow
        omega
      · simpa using hall r' hfront
  · rintro ⟨hstart, front, r, back, hsplit, rfl, hall⟩
    have hr : r ∈ s.roots := by simp [hsplit]
    have hsorted := h.sorted
    rw [hsplit] at hsorted
    obtain ⟨hfront, -, hcross⟩ := List.pairwise_append.1 hsorted
    -- From the lower bound on, the roots up to the node start where it does.
    have habove : (lowerBound s.roots a).2 =
        front.dropWhile (fun r => r.root.data_ptr < a) ++ r :: back := by
      unfold lowerBound
      rw [List.span_eq_takeWhile_dropWhile, hsplit, List.dropWhile_append]
      split_ifs with hempty
      · rw [List.isEmpty_iff.1 hempty, List.dropWhile_cons, if_neg (by simp [hstart])]
        rfl
      · rfl
    refine ⟨⟨r, mem_takeWhile_iff_split.2 ⟨_, back, habove, fun r' hr' => ?_⟩, rfl⟩, ?_⟩
    · have hmem : r' ∈ front ++ [r] := by
        rcases List.mem_append.1 hr' with hr' | hr'
        · exact List.mem_append_left _ ((List.dropWhile_sublist _).subset hr')
        · exact List.mem_append_right _ hr'
      have hge : a ≤ r'.root.data_ptr := by
        refine le_of_mem_lowerBound h.sorted ?_
        rw [habove]
        rcases List.mem_append.1 hr' with hr' | hr'
        · exact List.mem_append_left _ hr'
        · exact List.mem_append_right _ (by simpa using Or.inl (List.mem_singleton.1 hr'))
      have hle : r'.root.data_ptr ≤ a := by
        rcases List.mem_append.1 hmem with hr' | hr'
        · exact hstart ▸ hcross r' hr' r List.mem_cons_self
        · rw [List.mem_singleton.1 hr', hstart]
      simpa using hall r' hmem (by omega)
    · rw [h.root_range r hr, hstart]

/-- A node is hit at its own address, unless this is null. -/
theorem isHit_start {dims : List Dim} (hdims : ∀ d ∈ dims, 0 < d.size) :
    isHit env n dims n.data_ptr = true ↔ n.data_ptr ≠ 0 := by
  constructor
  · intro hhit hnull
    rw [hnull, isHit_null hdims hnull] at hhit
    exact absurd hhit (by simp)
  · intro hne
    -- Nothing remains of the distance, so the search ends at the address.
    have hsit : findClosestStartingAddress n dims n.data_ptr = n.data_ptr := by
      unfold findClosestStartingAddress
      split_ifs
      · rfl
      · rw [closestLoop_eq n.itemsize_pos (fun d hd => hdims d (List.dropLast_subset dims hd))
          (by omega) le_rfl, Nat.sub_self, Strided.residue_zero, Nat.sub_zero]
    simp [isHit, hsit, hne]

/-- A delayed lookup is complete if and only if every root that has an element at the address
starts there, the address is not null, and no root up to it that starts there ends before it. -/
theorem delayedComplete_iff (hinj : Function.Injective env.update_op_id_func)
    (hs : Reachable env s) (hdelay : is_delay = true ∨ s.op_stack = []) :
    LookupComplete env s a is_delay ↔ ∀ r ∈ s.roots, ∀ c,
      s.attribution.cells.find? r.root.ptr = some c → IsElement r.root c.dims a →
        a ≠ 0 ∧ StartsAt s.roots a r.root := by
  have h := inv_of_reachable hinj hs
  obtain ⟨possible, hpossible⟩ : ∃ possible, possibleNodes s a is_delay = some possible := by
    unfold possibleNodes
    rw [if_neg (by rcases hdelay with rfl | hstack <;> simp [*])]
    exact ⟨_, rfl⟩
  -- The nodes that are tested are roots, so they have cells, and the lookup has a result.
  obtain ⟨hits, cells, hlookup, -⟩ := newGetViewNodesByMemAddr_eq_some env hpossible fun n hn => by
    obtain ⟨-, front, r, back, hsplit, rfl, -⟩ :=
      (mem_possibleNodes_delayed h hdelay hpossible).1 hn
    exact h.cells r.root (Tree.mem_nodesOf.2 ⟨r, by simp [hsplit], r.root_mem_nodes⟩)
  have hiff : ∀ r ∈ s.roots, ∀ c, s.attribution.cells.find? r.root.ptr = some c →
      IsElement r.root c.dims a → (r.root ∈ hits ↔ a ≠ 0 ∧ StartsAt s.roots a r.root) := by
    intro r hr c hc helement
    have hsize : ∀ d ∈ sortedDims s.attribution.cells r.root, 0 < d.size := by
      intro d hd
      unfold sortedDims at hd
      rw [hc, Option.map_some, Option.getD_some, c.sort_dims_perm.mem_iff] at hd
      obtain ⟨x, hx, -⟩ := helement
      exact Strided.pos_of_mem_offsets hx (d.size, d.stride) (List.mem_map_of_mem hd)
    rw [mem_newGetViewNodesByMemAddr hpossible hlookup,
      mem_possibleNodes_delayed h hdelay hpossible, and_comm]
    refine and_congr_left fun hstart => ?_
    rw [← hstart.1]
    exact isHit_start hsize
  unfold LookupComplete
  rw [hlookup]
  constructor
  · rintro ⟨hits', cells', heq, hall⟩ r hr c hc helement
    cases heq
    exact (hiff r hr c hc helement).1 (hall r hr c hc helement)
  · intro hall
    exact ⟨hits, cells, rfl, fun r hr c hc helement =>
      (hiff r hr c hc helement).2 (hall r hr c hc helement)⟩

/-- The delayed lookup of the first byte of a vector is complete. -/
theorem delayedComplete_vector : ∃ s,
    run (step countingEnv) (initial false) [.enter ⟨[], [vector 0 1000 2]⟩ []] = some s ∧
      LookupComplete countingEnv s 1000 true := by
  obtain ⟨s, hrun, hroots⟩ := Option.map_eq_some_iff.1
    (show (run (step countingEnv) (initial false) [.enter ⟨[], [vector 0 1000 2]⟩ []]).map
      TorchView.roots = some [⟨firstVector 2, .nil⟩] by decide +kernel)
  refine ⟨s, hrun, (delayedComplete_iff countingEnv_injective (reachable_of_run hrun)
    (Or.inl rfl)).2 ?_⟩
  rw [hroots]
  intro r hr c _ _
  obtain rfl := List.mem_singleton.1 hr
  exact ⟨by decide, rfl, [], _, [], rfl, rfl, by decide⟩

/-- The delayed lookup of the second element of a vector finds nothing. -/
theorem not_delayedComplete_vector : ¬∀ (env : Env) (s : TorchView) (a : ℕ),
    Function.Injective env.update_op_id_func → Reachable env s → LookupComplete env s a true := by
  intro h
  obtain ⟨s, hrun, hfacts⟩ := Option.map_eq_some_iff.1
    (show (run (step countingEnv) (initial false) [.enter ⟨[], [vector 0 1000 2]⟩ []]).map
      (fun s => (s.roots, s.attribution.cells.find? 0,
        (newGetViewNodesByMemAddr countingEnv s s.attribution.cells 1004 true).map Prod.fst)) =
      some ([⟨firstVector 2, .nil⟩], some ⟨[⟨2, 1⟩], true, false, ∅⟩, some []) by decide +kernel)
  simp only [Prod.mk.injEq] at hfacts
  obtain ⟨hroots, hcell, hhits⟩ := hfacts
  obtain ⟨hits, cells, hlookup, hall⟩ :=
    h countingEnv s 1004 countingEnv_injective (reachable_of_run hrun)
  have helement : IsElement (firstVector 2) [⟨2, 1⟩] 1004 :=
    ⟨1, ⟨[1], List.Forall₂.cons (by decide) List.Forall₂.nil, rfl⟩, rfl⟩
  have hmem := hall ⟨firstVector 2, .nil⟩ (by rw [hroots]; exact List.mem_singleton_self _) _ hcell
    helement
  rw [hlookup, Option.map_some, Option.some.injEq] at hhits
  simp only at hhits
  rw [hhits] at hmem
  exact absurd hmem List.not_mem_nil

end TenProf.TorchView
