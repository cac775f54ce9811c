import TenProf.TorchView.Invariant

/-!
# What the snapshot covers

`updata_torchview_memory_snapshot` means to record the bytes of a tensor, up to its last element.
Its loop over the dimensions never moves `last_ele`, so it records the bytes of the first element.
`covered_iff` says for which tensors these are all the bytes: for those whose elements all are the
first one, and for those at whose start the snapshot already holds a longer range of another node,
whose end stays.
-/

namespace TenProf.TorchView

/-- The ranges that are recorded for a node: those in `viewnode_mem_range_map`, and those in the
snapshot that lead to the node. -/
def recordedRanges (s : TorchView) (n : ViewNode) : List MemoryRange :=
  s.viewnode_mem_range_map.findD n.view_id [] ++
    (s.torchview_memory_snapshot.toList.filter fun e => e.2.2 = n.ptr).map fun e => ⟨e.1, e.2.1⟩

/-- Every byte of every element of the node lies in a recorded range. -/
def Covered (s : TorchView) (n : ViewNode) (dims : List Dim) : Prop :=
  ∀ a, IsElement n dims a → ∀ b, a ≤ b → b < a + n.itemsize →
    ∃ r ∈ recordedRanges s n, r.start ≤ b ∧ b < r.stop

/-- The byte behind the last element. -/
def endOf (n : ViewNode) (dims : List Dim) : ℕ :=
  n.data_ptr + n.itemsize * Strided.maxOffset (dims.map fun d => (d.size, d.stride)) + n.itemsize

variable {env : Env} {s s' : TorchView} {n : ViewNode} {c : NodeCell}

/-- The ranges recorded for a node after an update all start at the node. One is the node's own
range; the other ends where a range that started there before did, if there was one. -/
theorem mem_recordedRanges (h : Inv env s) (hn : n ∈ Tree.nodesOf s.roots)
    (hc : s.attribution.cells.find? n.ptr = some c) (hdim : c.dims ≠ [])
    (hstep : updataTorchviewMemorySnapshot s (some n.ptr) = some s') (r : MemoryRange) :
    r ∈ recordedRanges s' n ↔ r = ownRange n ∨
      r = ⟨n.data_ptr, ((s.torchview_memory_snapshot.find? n.data_ptr).map Prod.fst).getD
        (ownRange n).stop⟩ := by
  obtain rfl := updataTorchviewMemorySnapshot_of_dims (h.deref_eq hn) hc hdim hstep
  simp only [recordedRanges, h.rangesOf_eq hn, OrderedMap.findD, OrderedMap.find?_set_self,
    Option.getD_some, List.foldl_cons, List.foldl_nil, insertSnapshot, List.mem_append,
    List.mem_singleton, List.mem_map, List.mem_filter, decide_eq_true_eq, OrderedMap.mem_set,
    ownRange]
  -- An entry of the snapshot that leads to the node starts at it, so it is the one that was set.
  refine or_congr_right ⟨?_, ?_⟩
  · rintro ⟨e, ⟨rfl | ⟨he, hne⟩, hlead⟩, rfl⟩
    · rfl
    · exact absurd ((h.snapshot_start e he).2 n hn hlead.symm).symm hne
  · rintro rfl
    exact ⟨_, ⟨Or.inl rfl, rfl⟩, rfl⟩

/-- When all elements are inside ranges that start at the node, the byte behind the last element is
not behind the longest of them, and conversely. -/
theorem covered_iff_endOf_le {dims : List Dim} {x y : ℕ} (hsize : ∀ d ∈ dims, 0 < d.size)
    (hranges : ∀ r, r ∈ recordedRanges s n ↔ r = ⟨n.data_ptr, x⟩ ∨ r = ⟨n.data_ptr, y⟩) :
    Covered s n dims ↔ endOf n dims ≤ max x y := by
  have hsize' : ∀ d ∈ dims.map fun d => (d.size, d.stride), 0 < d.1 := by
    simpa using hsize
  unfold endOf
  rw [← Strided.forall_bytes_lt_iff hsize' n.itemsize_pos]
  simp only [Covered, hranges, or_and_right, exists_or, exists_eq_left]
  constructor
  · intro h x hx b hle hlt
    have hb := h _ ⟨x, hx, rfl⟩ b hle hlt
    omega
  · rintro h a ⟨x, hx, rfl⟩ b hle hlt
    have hb := h x hx b hle hlt
    omega

/-- The recorded ranges cover a tensor exactly when all its elements are the first one and the byte
behind it is a word, or when the snapshot held a range from the same start that covers it. -/
theorem covered_iff (hinj : Function.Injective env.update_op_id_func) (hs : Reachable env s)
    (hn : n ∈ Tree.nodesOf s.roots) (hc : s.attribution.cells.find? n.ptr = some c)
    (hdim : c.dims ≠ []) (hsize : ∀ d ∈ c.dims, 0 < d.size)
    (hstep : updataTorchviewMemorySnapshot s (some n.ptr) = some s') :
    Covered s' n c.dims ↔
      ((∀ d ∈ c.dims, d.size = 1 ∨ d.stride = 0) ∧ n.data_ptr + n.itemsize < 2^64) ∨
        ∃ e, s.torchview_memory_snapshot.find? n.data_ptr = some e ∧ endOf n c.dims ≤ e.1 := by
  have hsize' : ∀ d ∈ c.dims.map fun d => (d.size, d.stride), 0 < d.1 := by
    simpa using hsize
  have hpos := n.itemsize_pos
  -- The node's own range is long enough exactly when all elements are the first one.
  have hown : endOf n c.dims ≤ (ownRange n).stop ↔
      (∀ d ∈ c.dims, d.size = 1 ∨ d.stride = 0) ∧ n.data_ptr + n.itemsize < 2^64 := by
    have hzero := Strided.maxOffset_eq_zero_iff hsize'
    simp only [List.forall_mem_map] at hzero
    rw [← hzero]
    unfold endOf ownRange u64
    dsimp only
    constructor
    · intro hle
      have hlt : n.data_ptr + n.itemsize < 2^64 := by
        by_contra hge
        omega
      -- An element behind the first would need more than one element's bytes.
      refine ⟨?_, hlt⟩
      rw [Nat.mod_eq_of_lt hlt] at hle
      by_contra hne
      have hmul := Nat.le_mul_of_pos_right n.itemsize (Nat.pos_of_ne_zero hne)
      omega
    · rintro ⟨h0, hlt⟩
      rw [h0, Nat.mod_eq_of_lt hlt]
      omega
  rw [covered_iff_endOf_le hsize
    (mem_recordedRanges (inv_of_reachable hinj hs) hn hc hdim hstep), ← hown, le_max_iff]
  cases hsnap : s.torchview_memory_snapshot.find? n.data_ptr with
  | none => simp [ownRange]
  | some e => simp [ownRange]

/-- A vector with one element is covered. -/
theorem covered_vector_one : ∃ s s',
    run (step countingEnv) (initial true) [.enter ⟨[], [vector 0 1000 1]⟩ []] = some s ∧
      updataTorchviewMemorySnapshot s (some 0) = some s' ∧
      Covered s' (firstVector 1) [⟨1, 1⟩] := by
  obtain ⟨s, hrun, hfacts⟩ := Option.map_eq_some_iff.1
    (show (run (step countingEnv) (initial true) [.enter ⟨[], [vector 0 1000 1]⟩ []]).map
      (fun s => (Tree.nodesOf s.roots, s.attribution.cells.find? 0,
        (updataTorchviewMemorySnapshot s (some 0)).isSome)) =
      some ([firstVector 1], some ⟨[⟨1, 1⟩], true, false, ∅⟩, true) by decide +kernel)
  simp only [Prod.mk.injEq] at hfacts
  obtain ⟨hnodes, hcell, hsome⟩ := hfacts
  obtain ⟨s', hstep⟩ := Option.isSome_iff_exists.1 hsome
  have hmem : firstVector 1 ∈ Tree.nodesOf s.roots := hnodes ▸ List.mem_singleton_self _
  refine ⟨s, s', hrun, hstep, (covered_iff countingEnv_injective (reachable_of_run hrun) hmem
    hcell (by decide) (by decide) hstep).2 ?_⟩
  exact Or.inl (by decide)

/-- A vector with two elements is not covered: its second element lies behind the range. -/
theorem not_covered_vector_two : ¬∀ (env : Env) (s s' : TorchView) (n : ViewNode) (c : NodeCell),
    Function.Injective env.update_op_id_func → Reachable env s → n ∈ Tree.nodesOf s.roots →
    s.attribution.cells.find? n.ptr = some c → c.dims ≠ [] → (∀ d ∈ c.dims, 0 < d.size) →
    updataTorchviewMemorySnapshot s (some n.ptr) = some s' → Covered s' n c.dims := by
  intro h
  obtain ⟨s, hrun, hfacts⟩ := Option.map_eq_some_iff.1
    (show (run (step countingEnv) (initial true) [.enter ⟨[], [vector 0 1000 2]⟩ []]).map
      (fun s => (Tree.nodesOf s.roots, s.attribution.cells.find? 0,
        (updataTorchviewMemorySnapshot s (some 0)).map fun s' =>
          recordedRanges s' (firstVector 2))) =
      some ([firstVector 2], some ⟨[⟨2, 1⟩], true, false, ∅⟩,
        some [⟨1000, 1004⟩, ⟨1000, 1004⟩]) by decide +kernel)
  simp only [Prod.mk.injEq, Option.map_eq_some_iff] at hfacts
  obtain ⟨hnodes, hcell, s', hstep, hranges⟩ := hfacts
  have hcovered := h countingEnv s s' (firstVector 2) _ countingEnv_injective
    (reachable_of_run hrun) (hnodes ▸ List.mem_singleton_self _) hcell (by decide) (by decide) hstep
  have helement : IsElement (firstVector 2) [⟨2, 1⟩] 1004 :=
    ⟨1, ⟨[1], List.Forall₂.cons (by decide) List.Forall₂.nil, rfl⟩, rfl⟩
  obtain ⟨r, hr, hstart, hstop⟩ := hcovered 1004 helement 1004 le_rfl (by decide)
  rw [hranges] at hr
  simp only [List.mem_cons, List.not_mem_nil, or_false, or_self] at hr
  subst hr
  exact absurd hstop (lt_irrefl _)

end TenProf.TorchView
