import TenProf.TorchView.Context
import TenProf.TorchView.Free
import TenProf.TorchView.RootSearch

/-!
# The forest in every reachable state

`WellFormed` says what a reader of the forest may rely on: sorted roots, trees that share no node,
ranges that are those of the root and hold the nodes, live nodes that are those of the forest, and
call paths that the deletions and the kernel callbacks can read. All of it but the ranges follows
from `Inv`. A view has its father's range, in which the search found room for all its bytes; a root
has the range from its first byte to its end, and that end is computed in 64 bits. So the ranges
hold the nodes in every run whose tensors do not reach past the last address (`wellFormed_of_run`),
and not without that (`not_wellFormed_wrapped`).
-/

namespace TenProf.TorchView

/-- A tensor's bytes end below 2^64. -/
def NoWrap (t : TensorData) : Prop := t.data_ptr + t.itemsize * t.numel < 2 ^ 64

/-- No tensor that an event hands to the forest wraps around. -/
def NoneWraps : Event → Prop
  | .enter op _ => ∀ t ∈ op.tensor_data, t.isSkipped = false → NoWrap t
  | .exit op _ => ∀ t ∈ op.tensor_data, t.isSkipped = false → NoWrap t
  | _ => True

/-- A node's range holds its first byte. -/
def HoldsStart (n : ViewNode) : Prop :=
  n.mem_block_range.1 ≤ n.data_ptr ∧ n.data_ptr < n.mem_block_range.2

/-- The forest, the live nodes and the call paths fit together. -/
structure WellFormed (s : TorchView) : Prop where
  /-- The roots are sorted. -/
  sorted : s.roots.Pairwise fun a b => a.root.data_ptr ≤ b.root.data_ptr
  /-- Every node is a root or the child of one node, once. -/
  distinct : ((Tree.nodesOf s.roots).map ViewNode.ptr).Nodup
  /-- All nodes of a tree have the root's range. -/
  range : ∀ r ∈ s.roots, ∀ n ∈ r.nodes, n.mem_block_range = r.root.mem_block_range
  /-- The range of a node holds its first byte. -/
  start : ∀ n ∈ Tree.nodesOf s.roots, HoldsStart n
  /-- The live nodes are those of the forest. -/
  live : ∀ p, p ∈ s.live_nodes ↔ p ∈ (Tree.nodesOf s.roots).map ViewNode.ptr
  /-- Every node has a call path. -/
  call_path : ∀ n ∈ Tree.nodesOf s.roots, s.attribution.call_path_map.findD n.view_id [] ≠ []
  /-- A FREE can read the call paths of the trees that it deletes. -/
  free : ∀ mem, (onFree s mem).isSome
  /-- A kernel callback can log a hit of any node, whatever it has logged before. -/
  hit : ∀ a, Kept s.attribution a → ∀ n ∈ Tree.nodesOf s.roots, ∀ trace ctx_id pc,
    (recordHit trace ctx_id pc a n).isSome
  /-- The same in the on-GPU mode. -/
  gpu_hit : ∀ a, Kept s.attribution a → ∀ n ∈ Tree.nodesOf s.roots, ∀ flag ctx_id pc,
    (recordGpuHit s.roots flag ctx_id pc a n.ptr).isSome

section

variable {env : Env} {s s' : TorchView}

/-- An instruction can be logged at an id with a call path. -/
theorem pushPc_isSome {a : Attribution} {view_id : ℕ}
    (h : a.call_path_map.findD view_id [] ≠ []) (ctx_id pc : ℕ) :
    (pushPc a view_id ctx_id pc).isSome := by
  unfold pushPc
  rw [Option.isSome_map, List.getLast?_isSome]
  exact h

/-- A copy can be logged at an id with a call path. -/
theorem recordAtenCopy_isSome {a : Attribution} {view_id : ℕ}
    (h : a.call_path_map.findD view_id [] ≠ []) : (recordAtenCopy a view_id).isSome := by
  unfold recordAtenCopy
  split_ifs
  · rw [Option.isSome_map, List.getLast?_isSome]
    exact h
  · rfl

/-- A hit of a node of the forest can be logged. -/
theorem Inv.recordHit_isSome (h : Inv env s) {a : Attribution} (hkept : Kept s.attribution a)
    {n : ViewNode} (hn : n ∈ Tree.nodesOf s.roots) (trace : Trace) (ctx_id pc : ℕ) :
    (recordHit trace ctx_id pc a n).isSome := by
  have hpath := hkept.call_path _ (h.call_path n hn)
  obtain ⟨a₁, h₁⟩ := Option.isSome_iff_exists.1 (pushPc_isSome hpath ctx_id pc)
  have hkept₁ := hkept.trans (kept_pushPc h₁)
  obtain ⟨c, hc⟩ := Option.isSome_iff_exists.1 (hkept₁.cells.isSome (h.cells n hn))
  have hpath₁ := hkept₁.call_path _ (h.call_path n hn)
  simp only [recordHit, h₁, setMemoryWritePc, hc, Option.bind_some, Option.map_some]
  split_ifs
  all_goals exact recordAtenCopy_isSome hpath₁

/-- A hit of a node of the forest can be logged in the on-GPU mode. -/
theorem Inv.recordGpuHit_isSome (h : Inv env s) {a : Attribution}
    (hkept : Kept s.attribution a) {n : ViewNode} (hn : n ∈ Tree.nodesOf s.roots)
    (flag ctx_id pc : ℕ) : (recordGpuHit s.roots flag ctx_id pc a n.ptr).isSome := by
  have hpath := hkept.call_path _ (h.call_path n hn)
  obtain ⟨a₁, h₁⟩ := Option.isSome_iff_exists.1 (pushPc_isSome hpath ctx_id pc)
  have hkept₁ := hkept.trans (kept_pushPc h₁)
  obtain ⟨c, hc⟩ := Option.isSome_iff_exists.1 (hkept₁.cells.isSome (h.cells n hn))
  have hpath₁ := hkept₁.call_path _ (h.call_path n hn)
  simp only [recordGpuHit, h.deref_eq hn, Option.bind_some]
  split_ifs
  · rfl
  · -- A write reads the cell as well.
    simp only [h₁, hc, setMemoryWritePc, Option.bind_some]
    split_ifs
    all_goals
      simp only [pushWriteAfterWrite, hc, Option.map_some, Option.bind_some]
      exact recordAtenCopy_isSome hpath₁
  · simp only [h₁, Option.bind_some]
    exact recordAtenCopy_isSome hpath₁

/-- A tensor with elements that does not wrap around has a byte before its end. -/
theorem data_ptr_lt_endAddress {t : TensorData} (ht : NoWrap t) (hskip : t.isSkipped = false) :
    t.data_ptr < endAddress t := by
  have hnumel : 0 < t.numel := by
    unfold TensorData.isSkipped at hskip
    simp only [Bool.or_eq_false_iff, decide_eq_false_iff_not, not_le] at hskip
    exact hskip.2
  unfold endAddress
  rw [u64_of_lt ht]
  exact Nat.lt_add_of_pos_right (Nat.mul_pos t.itemsize_pos hnumel)

/-- The handling of a tensor that does not wrap around keeps the ranges right. -/
theorem holdsStart_updateTensor (hinv : Inv env s)
    (h : ∀ n ∈ Tree.nodesOf s.roots, HoldsStart n) {frames : List PythonState} {t : TensorData}
    {p : Option ℕ} (hskip : t.isSkipped = false) (ht : NoWrap t)
    (hstep : updateTensor env frames s t = some (p, s')) :
    ∀ n ∈ Tree.nodesOf s'.roots, HoldsStart n := by
  have hlt := data_ptr_lt_endAddress ht hskip
  have hupdated := updated_of_updateViewForest hstep
  generalize hs₁ : ({ s with op_ids := s.op_ids + 1 } : TorchView) = s₁ at hupdated
  cases hupdated with
  | found hroot hnode =>
    subst hs₁
    exact h
  | orphan hroot hnode hop hfather =>
    subst hs₁
    exact h
  | @view r op v n hroot hnode hop hfather hn =>
    subst hs₁
    -- The father has the range of the root, which contains the bytes of the view.
    obtain ⟨hv, -⟩ := findFather_eq_some hfather
    obtain ⟨hr, hstart, hstop⟩ := contains_of_findRootNodeOf hroot
    have hnew : HoldsStart n := by
      have hrange := hinv.node_range r hr v hv
      rw [hn]
      unfold HoldsStart
      change v.mem_block_range.1 ≤ t.data_ptr ∧ t.data_ptr < v.mem_block_range.2
      rw [hrange]
      exact ⟨hstart, hlt.trans_le hstop⟩
    intro m hm
    obtain ⟨r', hr', hm⟩ := Tree.mem_nodesOf.1 hm
    obtain ⟨r₁, hr₁, rfl⟩ := List.mem_map.1 hr'
    rcases (Tree.mem_nodes_insertUnder _ _ _ _ _).1 hm with hm | ⟨rfl, -⟩
    · exact h m (Tree.mem_nodesOf.2 ⟨r₁, hr₁, hm⟩)
    · exact hnew
  | @root n hroot hn =>
    subst hs₁
    -- The end of the root's range is that of the tensor.
    have hnew : HoldsStart n := by
      rw [hn]
      exact ⟨le_rfl, hlt⟩
    intro m hm
    rcases List.mem_cons.1 ((nodesOf_insertRoot_perm s.roots t.data_ptr n).mem_iff.1 hm) with
      rfl | hm
    · exact hnew
    · exact h m hm

/-- Every event whose tensors do not wrap around keeps the ranges right. -/
theorem holdsStart_step (hinj : Function.Injective env.update_op_id_func) (hinv : Inv env s)
    {e : Event} (h : ∀ n ∈ Tree.nodesOf s.roots, HoldsStart n)
    (he : NoneWraps e) (hstep : step env s e = some s') :
    ∀ n ∈ Tree.nodesOf s'.roots, HoldsStart n := by
  cases e with
  | enter op frames =>
    refine (foldlM_invariant (I := fun s : TorchView =>
      (Inv env s ∧ s.torchview_memory_snapshot = ∅) ∧ ∀ n ∈ Tree.nodesOf s.roots, HoldsStart n)
      (fun s₁ input s₂ hs hin hstep => ⟨hs.1.1.after_enterInput hinj hs.1.2 hstep, ?_⟩)
      (s := pushOp s op) ⟨⟨hinv.after_pushOp op, rfl⟩, h⟩ hstep).2
    unfold enterInput at hstep
    split_ifs at hstep with hskip
    · cases hstep
      exact hs.2
    · obtain ⟨⟨p, s₃⟩, h₃, rfl⟩ := Option.map_eq_some_iff.1 hstep
      have hmem : input.1 ∈ op.tensor_data := List.fst_mem_of_mem_zipIdx hin
      have hskip : input.1.isSkipped = false := by simpa using hskip
      have hstart := holdsStart_updateTensor hs.1.1 hs.2 hskip (he _ hmem hskip) h₃
      exact hstart
  | exit op frames =>
    obtain ⟨s₁, h₁, hstep⟩ := Option.bind_eq_some_iff.1 hstep
    obtain ⟨a, -, rfl⟩ := Option.map_eq_some_iff.1 hstep
    split_ifs at h₁
    · cases h₁
      exact h
    · obtain ⟨s₂, h₂, rfl⟩ := Option.map_eq_some_iff.1 h₁
      refine (foldlM_invariant (I := fun s : TorchView =>
        Inv env s ∧ ∀ n ∈ Tree.nodesOf s.roots, HoldsStart n) (fun s₁ t s₂ hs hin hstep => ?_)
        ⟨hinv, h⟩ h₂).2
      unfold exitOutput at hstep
      split_ifs at hstep with hskip
      · cases hstep
        exact hs
      · obtain ⟨⟨p, s₃⟩, h₃, rfl⟩ := Option.map_eq_some_iff.1 hstep
        have hskip : t.isSkipped = false := by simpa using hskip
        exact ⟨hs.1.after_updateTensor hinj h₃,
          holdsStart_updateTensor hs.1 hs.2 hskip (he t hin hskip) h₃⟩
  | free mem =>
    -- A deletion only takes roots away.
    obtain ⟨s₁, h₁, rfl⟩ := Option.map_eq_some_iff.1 hstep
    obtain ⟨s₂, -, rfl⟩ := deleteForestTree_eq_some rfl h₁
    intro n hn
    obtain ⟨r, hr, hn⟩ := Tree.mem_nodesOf.1 hn
    exact h n (Tree.mem_nodesOf.2 ⟨r, (roots_sublist s.roots mem.ptr _).subset hr, hn⟩)
  | _ =>
    obtain ⟨-, hroots⟩ := contextKept_step hstep id (by simp)
    rwa [hroots]

/-- A state with the invariant is well formed if the ranges hold the nodes. -/
theorem Inv.wellFormed (h : Inv env s) (hstart : ∀ n ∈ Tree.nodesOf s.roots, HoldsStart n) :
    WellFormed s where
  sorted := h.sorted
  distinct := h.ptr_nodup
  range := h.node_range
  start := hstart
  live := h.live
  call_path := h.call_path
  free := h.onFree_isSome
  hit _ hkept _ hn := h.recordHit_isSome hkept hn
  gpu_hit _ hkept _ hn := h.recordGpuHit_isSome hkept hn

/-- The forest is well formed in every state of every run whose ids are fresh and whose tensors do
not wrap around. -/
theorem wellFormed_of_run (hinj : Function.Injective env.update_op_id_func) {ongpu : Bool}
    {es : List Event} (hwrap : ∀ e ∈ es, NoneWraps e)
    (hrun : run (step env) (initial ongpu) es = some s) : WellFormed s := by
  have hstart : ∀ n ∈ Tree.nodesOf s.roots, HoldsStart n := by
    rw [run_eq_foldlM] at hrun
    refine (foldlM_invariant (I := fun s : TorchView =>
      Inv env s ∧ ∀ n ∈ Tree.nodesOf s.roots, HoldsStart n) (fun s₁ e s₂ hs he hstep =>
        ⟨hs.1.after_step hinj hstep, holdsStart_step hinj hs.1 hs.2 (hwrap e he) hstep⟩)
      ⟨inv_initial env ongpu, ?_⟩ hrun).2
    simp [initial]
  exact (inv_of_reachable hinj (reachable_of_run hrun)).wellFormed hstart

end

/-- A vector at 1000, then a view of its second element. -/
def viewEvents : List Event :=
  [.enter ⟨[], [vector 0 1000 4]⟩ [], .exit ⟨[], [vector 0 1004 1]⟩ [], .free ⟨1000, 16, 0⟩]

theorem wellFormed_viewEvents :
    ∃ s, run (step countingEnv) (initial false) viewEvents = some s ∧ WellFormed s := by
  have hsome : (run (step countingEnv) (initial false) viewEvents).isSome = true := by
    decide +kernel
  obtain ⟨s, hrun⟩ := Option.isSome_iff_exists.1 hsome
  refine ⟨s, hrun, wellFormed_of_run countingEnv_injective (fun e he => ?_) hrun⟩
  simp only [viewEvents, List.mem_cons, List.not_mem_nil, or_false] at he
  rcases he with rfl | rfl | rfl <;> simp [NoneWraps, NoWrap, vector]

/-- The range of a vector over the last eight addresses ends before it starts. -/
theorem not_wellFormed_wrapped : ¬∀ (env : Env) (ongpu : Bool) (es : List Event) (s : TorchView),
    Function.Injective env.update_op_id_func →
      run (step env) (initial ongpu) es = some s → WellFormed s := by
  intro h
  have hrun : (run (step countingEnv) (initial false)
      [.enter ⟨[], [vector 0 (2 ^ 64 - 8) 4]⟩ []]).any
        (fun s => (Tree.nodesOf s.roots).any fun n => n.mem_block_range.2 < n.data_ptr) = true := by
    decide +kernel
  obtain ⟨s, hs, hwrapped⟩ := (Option.any_eq_true _ _).1 hrun
  obtain ⟨n, hn, hlt⟩ := List.any_eq_true.1 hwrapped
  have hstart := (h countingEnv false _ s countingEnv_injective hs).start n hn
  exact absurd hstart.2 (of_decide_eq_true hlt).not_gt

end TenProf.TorchView
