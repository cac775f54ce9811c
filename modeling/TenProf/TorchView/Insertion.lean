import TenProf.TorchView.Context
import TenProf.TorchView.Free
import TenProf.TorchView.RootSearch
import Mathlib.Data.List.Flatten

/-!
# Which tensors get their node

After an ENTER every captured input should have exactly one node, which a second update finds again
(`Captured`). `update_view_forest` fails at that in three ways: roots that overlap mislead its
search, a tensor whose pair belongs to a node of another root gets a second node, and a view inside
a root gets none when no captured input of the operation has a node in the root's tree. In runs
whose tensors avoid the first two (`Placed`), an ENTER captures its inputs exactly when they avoid
the third (`allCapturesInputs_iff`).
-/

namespace TenProf.TorchView

/-- The roots are apart, and no two nodes have one pair. -/
structure Tidy (roots : List (Tree ViewNode)) : Prop where
  separated : Separated roots
  key_nodup : ((Tree.nodesOf roots).map ViewNode.key).Nodup

/-- A node has a tensor's pair, and stands in the tree of a root that contains the tensor. -/
structure Home (roots : List (Tree ViewNode)) (t : TensorData) (n : ViewNode) : Prop where
  key : n.key = t.key
  place : ∃ r ∈ roots, n ∈ r.nodes ∧ Contains r t.data_ptr (endAddress t)

/-- A tensor lies inside a root or apart from all of them, and a node that has its pair lies in a
range that contains it. -/
structure Placed (roots : List (Tree ViewNode)) (t : TensorData) : Prop where
  place : InsideOrApart roots t
  home : ∀ n ∈ Tree.nodesOf roots, n.key = t.key →
    n.mem_block_range.1 ≤ t.data_ptr ∧ endAddress t ≤ n.mem_block_range.2

/-- In the tree of a root that contains the tensor, the tensor or a captured input of the operation
on top has a node. -/
def Fathered (s : TorchView) (t : TensorData) : Prop :=
  ∀ r ∈ s.roots, Contains r t.data_ptr (endAddress t) → (∃ n ∈ r.nodes, n.key = t.key) ∨
    ∃ op, s.op_stack.head? = some op ∧ ∃ u ∈ op.tensor_data, u.isSkipped = false ∧
      ∃ v ∈ r.nodes, v.key = u.key

section Roots

variable {roots : List (Tree ViewNode)} {t : TensorData} {n : ViewNode}

/-- A tensor with elements occupies bytes. -/
theorem InsideOrApart.lt (h : InsideOrApart roots t) : t.data_ptr < endAddress t := by
  unfold endAddress
  rw [u64_of_lt h.no_wrap]
  have hpos := Nat.mul_pos t.itemsize_pos h.numel_pos
  omega

/-- Of roots that are apart, only one contains some bytes. -/
theorem Separated.eq_of_contains (h : Separated roots) {x y : ℕ} (hxy : x < y)
    {r r' : Tree ViewNode} (hr : r ∈ roots) (hr' : r' ∈ roots) (hin : Contains r x y)
    (hin' : Contains r' x y) : r = r' := by
  obtain ⟨i, hi, rfl⟩ := List.getElem_of_mem hr
  obtain ⟨j, hj, rfl⟩ := List.getElem_of_mem hr'
  obtain ⟨hstart, hstop⟩ := hin
  obtain ⟨hstart', hstop'⟩ := hin'
  rcases lt_trichotomy i j with hij | rfl | hij
  · have hapart := List.pairwise_iff_getElem.1 h.apart i j hi hj hij
    omega
  · rfl
  · have hapart := List.pairwise_iff_getElem.1 h.apart j i hj hi hij
    omega

/-- The search finds a node that is at home, and no other. -/
theorem Tidy.find (h : Tidy roots) (hlt : t.data_ptr < endAddress t) (hn : Home roots t n) :
    ∃ r, findRootNode roots t = some r ∧ findNode r t = some n := by
  obtain ⟨r, hr, hnr, hin⟩ := hn.place
  have hsome := (findRootNodeOf_isSome_iff h.separated).2 ⟨r, hr, hin⟩
  obtain ⟨r', hr'⟩ := Option.isSome_iff_exists.1 hsome
  -- The root that the search returns is the one that contains the tensor.
  obtain ⟨hmem, hin'⟩ := contains_of_findRootNodeOf hr'
  obtain rfl := h.separated.eq_of_contains hlt hmem hr hin' hin
  refine ⟨r', hr', ?_⟩
  cases hm : findNode r' t with
  | none => exact absurd hn.key (findNode_eq_none_iff.1 hm n hnr)
  | some m =>
    obtain ⟨hmr, hkey⟩ := findNode_eq_some hm
    rw [List.inj_on_of_nodup_map h.key_nodup (Tree.mem_nodesOf.2 ⟨r', hr, hmr⟩)
      (Tree.mem_nodesOf.2 ⟨r', hr, hnr⟩) (hkey.trans hn.key.symm)]

/-- A node with the pair of a tensor that is placed is at home. -/
theorem Placed.home_of_key (ht : Placed roots t)
    (hrange : ∀ r ∈ roots, ∀ m ∈ r.nodes, m.mem_block_range = r.root.mem_block_range)
    (hn : n ∈ Tree.nodesOf roots) (hkey : n.key = t.key) : Home roots t n := by
  obtain ⟨r, hr, hnr⟩ := Tree.mem_nodesOf.1 hn
  have hin := ht.home n hn hkey
  rw [hrange r hr n hnr] at hin
  exact ⟨hkey, r, hr, hnr, hin⟩

/-- A tensor that is placed and that no search finds has its pair at no node. -/
theorem Tidy.key_ne (h : Tidy roots) (ht : Placed roots t)
    (hrange : ∀ r ∈ roots, ∀ m ∈ r.nodes, m.mem_block_range = r.root.mem_block_range)
    (hnone : ∀ r, findRootNode roots t = some r → findNode r t = none) :
    t.key ∉ (Tree.nodesOf roots).map ViewNode.key := by
  intro hmem
  obtain ⟨m, hm, hkey⟩ := List.mem_map.1 hmem
  obtain ⟨r, hroot, hnode⟩ := h.find ht.place.lt (ht.home_of_key hrange hm hkey)
  rw [hnone r hroot] at hnode
  cases hnode

/-- A node with a new pair keeps the pairs distinct. -/
theorem Tidy.key_nodup_of_perm (h : Tidy roots) {roots' : List (Tree ViewNode)}
    (hperm : (Tree.nodesOf roots').Perm (n :: Tree.nodesOf roots)) (hkey : n.key = t.key)
    (hnew : t.key ∉ (Tree.nodesOf roots).map ViewNode.key) :
    ((Tree.nodesOf roots').map ViewNode.key).Nodup := by
  rw [(hperm.map ViewNode.key).nodup_iff, List.map_cons, List.nodup_cons, hkey]
  exact ⟨hnew, h.key_nodup⟩

/-- A node stays at home when views are added. -/
theorem Home.insertUnder (h : Home roots t n) (k : ℕ) (m : ViewNode) :
    Home (roots.map (Tree.insertUnder ViewNode.ptr k m)) t n := by
  obtain ⟨r, hr, hnr, hin⟩ := h.place
  refine ⟨h.key, _, List.mem_map_of_mem hr, ?_, ?_⟩
  · exact (Tree.mem_nodes_insertUnder _ _ _ _ _).2 (Or.inl hnr)
  · simpa [Contains] using hin

/-- A node stays at home when a root is added. -/
theorem Home.insertRoot (h : Home roots t n) (x : ℕ) (r' : Tree ViewNode) :
    Home ((lowerBound roots x).1 ++ r' :: (lowerBound roots x).2) t n := by
  obtain ⟨r, hr, hnr, hin⟩ := h.place
  exact ⟨h.key, r, mem_insertRoot.2 (Or.inr hr), hnr, hin⟩

end Roots

section Update

variable {env : Env} {s s' : TorchView} {frames : List PythonState} {t : TensorData} {p : Option ℕ}

/-- A node of an input is a father, if its range contains the tensor. -/
theorem findFather_isSome {r : Tree ViewNode} {inputs : List TensorData} {u : TensorData}
    {v : ViewNode} (hu : u ∈ inputs) (hskip : u.isSkipped = false) (hv : v ∈ r.nodes)
    (hkey : v.key = u.key) (hrange : ∀ m ∈ r.nodes,
      m.mem_block_range.1 ≤ t.data_ptr ∧ t.data_ptr ≤ m.mem_block_range.2) :
    (findFather r t inputs).isSome := by
  unfold findFather
  rw [List.findSome?_isSome_iff]
  refine ⟨u, hu, ?_⟩
  cases hm : findNode r u with
  | none => exact absurd hkey (findNode_eq_none_iff.1 hm v hv)
  | some m => simp [hskip, Option.filter, hrange m (findNode_eq_some hm).1]

/-- What an update does to a tidy forest, for a tensor that is placed: the forest stays tidy, nodes
stay at home, a node that is returned is at home, and one is returned exactly if the tensor has a
node or a father. -/
theorem Tidy.after_updateTensor (h : Tidy s.roots) (hinv : Inv env s) (ht : Placed s.roots t)
    (hstep : updateTensor env frames s t = some (p, s')) :
    Tidy s'.roots ∧ (∀ u m, Home s.roots u m → Home s'.roots u m) ∧
      (∀ q, p = some q → ∃ n, n.ptr = q ∧ Home s'.roots t n) ∧ (Fathered s t ↔ p ≠ none) := by
  have hupdated := updated_of_updateViewForest hstep
  have hseparated := h.separated.updated (s := { s with op_ids := s.op_ids + 1 }) ht.place hupdated
  have hlt := ht.place.lt
  -- The update starts after an id is drawn.
  generalize hs₁ : ({ s with op_ids := s.op_ids + 1 } : TorchView) = s₁ at hupdated
  cases hupdated with
  | @found r n hroot hnode =>
    subst hs₁
    obtain ⟨hr, hin⟩ := contains_of_findRootNodeOf hroot
    obtain ⟨hn, hkey⟩ := findNode_eq_some hnode
    refine ⟨h, fun _ _ h => h, fun q hq => ⟨n, Option.some.inj hq, hkey, r, hr, hn, hin⟩, ?_⟩
    refine iff_of_true (fun r' hr' hin' => Or.inl ⟨n, ?_, hkey⟩) (by simp)
    rwa [h.separated.eq_of_contains hlt hr' hr hin' hin]
  | @orphan r op hroot hnode hop hfather =>
    subst hs₁
    refine ⟨h, fun _ _ h => h, fun q hq => absurd hq (by simp),
      iff_of_false (fun hfathered => ?_) (by simp)⟩
    obtain ⟨hr, hin⟩ := contains_of_findRootNodeOf hroot
    -- A node of the tensor would have been found, and a captured input's would be a father.
    rcases hfathered r hr hin with ⟨m, hm, hkey⟩ | ⟨op', hop', u, hu, hskip, v, hv, hkey⟩
    · exact findNode_eq_none_iff.1 hnode m hm hkey
    · obtain rfl : op = op' := Option.some.inj (hop.symm.trans hop')
      have hsome := findFather_isSome (t := t) hu hskip hv hkey fun m hm => by
        rw [hinv.node_range r hr m hm]
        exact ⟨hin.1, hlt.le.trans hin.2⟩
      rw [hfather] at hsome
      exact absurd hsome (by simp)
  | @view r op v n hroot hnode hop hfather hn =>
    subst hs₁
    obtain ⟨hr, hin⟩ := contains_of_findRootNodeOf hroot
    obtain ⟨hv, -, -, u, hu, hskip, hkey⟩ := findFather_eq_some hfather
    have hvmem : v ∈ Tree.nodesOf s.roots := Tree.mem_nodesOf.2 ⟨r, hr, hv⟩
    have hnkey : n.key = t.key := by
      rw [hn]
      rfl
    have hnew := h.key_ne ht hinv.node_range fun r' hr' => by
      rw [← Option.some.inj (hroot.symm.trans hr')]
      exact hnode
    -- The view stands in the tree of the root that contains it, and its pair is new.
    refine ⟨⟨hseparated, ?_⟩, fun _ _ hhome => hhome.insertUnder _ _,
      fun q hq => ⟨n, Option.some.inj hq, hnkey, _, List.mem_map_of_mem hr, ?_, ?_⟩, ?_⟩
    · exact h.key_nodup_of_perm (Tree.nodesOf_map_insertUnder_perm _ _ _ _ hinv.ptr_nodup
        (List.mem_map_of_mem hvmem)) hnkey hnew
    · exact (Tree.mem_nodes_insertUnder _ _ _ _ _).2 (Or.inr ⟨rfl, List.mem_map_of_mem hv⟩)
    · unfold Contains
      rw [Tree.insertUnder_root]
      exact hin
    · refine iff_of_true (fun r' hr' hin' => Or.inr ⟨op, hop, u, hu, hskip, v, ?_, hkey⟩) (by simp)
      rwa [h.separated.eq_of_contains hlt hr' hr hin' hin]
  | @root n hroot hn =>
    subst hs₁
    have hnkey : n.key = t.key := by
      rw [hn]
      rfl
    have hrange : n.mem_block_range = (t.data_ptr, endAddress t) := by
      rw [hn]
      rfl
    have hnew := h.key_ne ht hinv.node_range fun r' hr' => by cases hroot.symm.trans hr'
    -- The tensor is a root of its own, and its pair is new.
    refine ⟨⟨hseparated, ?_⟩, fun _ _ hhome => hhome.insertRoot _ _,
      fun q hq => ⟨n, Option.some.inj hq, hnkey, ⟨n, .nil⟩, mem_insertRoot.2 (Or.inl rfl),
        Tree.root_mem_nodes _, ?_⟩, ?_⟩
    · exact h.key_nodup_of_perm (nodesOf_insertRoot_perm _ _ _) hnkey hnew
    · simp [Contains, hrange]
    · refine iff_of_true (fun r hr hin => ?_) (by simp)
      -- The search would have found a root that contains the tensor.
      have hsome := (findRootNodeOf_isSome_iff h.separated).2 ⟨r, hr, hin⟩
      rw [show findRootNodeOf s.roots t.data_ptr (endAddress t) = none from hroot] at hsome
      exact absurd hsome (by simp)

/-- A second update for a tensor whose node is at home returns the node and adds none. -/
theorem Tidy.update_again (h : Tidy s.roots) {n : ViewNode} (hlt : t.data_ptr < endAddress t)
    (hn : Home s.roots t n) : ∃ s', updateTensor env frames s t = some (some n.ptr, s') ∧
      s'.roots = s.roots := by
  obtain ⟨r, hroot, hnode⟩ := h.find hlt hn
  have hstep : updateTensor env frames s t = some (some n.ptr, { s with
      op_ids := s.op_ids + 1
      attribution := pushCallPath s.attribution n.view_id
        (callPathState { s with op_ids := s.op_ids + 1 } frames t.index) }) := by
    simp only [updateTensor, updateViewForest, hroot, hnode]
  exact ⟨_, hstep, rfl⟩

end Update

/-- A tensor at a position of the inputs has its node: it is cached at the position, no other node
has the tensor's pair, and a second update returns it and leaves the forest as it is. -/
def Captured (env : Env) (s : TorchView) (t : TensorData) (i : ℕ) : Prop :=
  ∃ n, s.input_viewnode_forest_ptrs.find? i = some (some n.ptr) ∧
    (Tree.nodesOf s.roots).filter (fun m => m.key = t.key) = [n] ∧
    ∀ frames, ∃ s', updateTensor env frames s t = some (some n.ptr, s') ∧ s'.roots = s.roots

/-- After an ENTER, every captured input has its node. -/
def CapturesInputs (env : Env) (s : TorchView) : Event → Prop
  | .enter op frames => ∃ s', onEnter env s op frames = some s' ∧
      ∀ input ∈ op.tensor_data.zipIdx, input.1.isSkipped = false → Captured env s' input.1 input.2
  | _ => True

/-- The tensors that an event handles are placed when their turn comes. -/
def PlacedEvent (env : Env) (s : TorchView) : Event → Prop
  | .enter op frames => AllSteps (enterInput env frames)
      (fun s input => input.1.isSkipped = false → Placed s.roots input.1) (pushOp s op)
      op.tensor_data.zipIdx
  | .exit op frames => s.op_stack ≠ [] → AllSteps (exitOutput env frames)
      (fun s t => t.isSkipped = false → Placed s.roots t) s op.tensor_data
  | _ => True

/-- The inputs of an ENTER have a node or a father when their turn comes. -/
def FatheredEvent (env : Env) (s : TorchView) : Event → Prop
  | .enter op frames => AllSteps (enterInput env frames)
      (fun s input => input.1.isSkipped = false → Fathered s input.1) (pushOp s op)
      op.tensor_data.zipIdx
  | _ => True

section Events

variable {env : Env} {s s' : TorchView} {frames : List PythonState}

/-- One turn of the loop at ENTER. -/
theorem Tidy.after_enterInput (h : Tidy s.roots) (hinv : Inv env s) {input : TensorData × ℕ}
    (hplaced : input.1.isSkipped = false → Placed s.roots input.1)
    (hstep : enterInput env frames s input = some s') :
    Tidy s'.roots ∧ (∀ u m, Home s.roots u m → Home s'.roots u m) ∧
      (input.1.isSkipped = false →
        (∀ q, s'.input_viewnode_forest_ptrs.find? input.2 = some (some q) →
          ∃ n, n.ptr = q ∧ Home s'.roots input.1 n) ∧
        (Fathered s input.1 ↔
          ∃ q, s'.input_viewnode_forest_ptrs.find? input.2 = some (some q))) := by
  unfold enterInput at hstep
  split_ifs at hstep with hskip
  · cases hstep
    exact ⟨h, fun _ _ h => h, fun hcaptured => absurd hskip (by simp [hcaptured])⟩
  · obtain ⟨⟨p, s₁⟩, h₁, rfl⟩ := Option.map_eq_some_iff.1 hstep
    have hcaptured : input.1.isSkipped = false := by simpa using hskip
    obtain ⟨htidy, hhome, hnode, hfathered⟩ := h.after_updateTensor hinv (hplaced hcaptured) h₁
    refine ⟨htidy, hhome, fun _ => ?_⟩
    simp only [OrderedMap.find?_set_self, Option.some.injEq]
    exact ⟨hnode, hfathered.trans (by rw [Option.ne_none_iff_exists'])⟩

/-- What the loop at ENTER does for placed inputs from a position on. -/
structure EnteredInputs (env : Env) (frames : List PythonState) (inputs : List TensorData) (k : ℕ)
    (s s' : TorchView) : Prop where
  tidy : Tidy s'.roots
  home : ∀ u m, Home s.roots u m → Home s'.roots u m
  kept : ∀ i < k,
    s'.input_viewnode_forest_ptrs.find? i = s.input_viewnode_forest_ptrs.find? i
  node : ∀ input ∈ inputs.zipIdx k, input.1.isSkipped = false →
    input.1.data_ptr < endAddress input.1 ∧
      ∀ q, s'.input_viewnode_forest_ptrs.find? input.2 = some (some q) →
        ∃ n, n.ptr = q ∧ Home s'.roots input.1 n
  fathered : AllSteps (enterInput env frames)
      (fun s input => input.1.isSkipped = false → Fathered s input.1) s (inputs.zipIdx k) ↔
    ∀ input ∈ inputs.zipIdx k, input.1.isSkipped = false →
      ∃ q, s'.input_viewnode_forest_ptrs.find? input.2 = some (some q)

/-- The loop at ENTER, by its turns. -/
theorem Tidy.after_enterInputs (hinj : Function.Injective env.update_op_id_func)
    {inputs : List TensorData} {k : ℕ} (h : Tidy s.roots) (hinv : Inv env s)
    (hempty : s.torchview_memory_snapshot = ∅)
    (hplaced : AllSteps (enterInput env frames)
      (fun s input => input.1.isSkipped = false → Placed s.roots input.1) s (inputs.zipIdx k))
    (hloop : (inputs.zipIdx k).foldlM (enterInput env frames) s = some s') :
    EnteredInputs env frames inputs k s s' := by
  induction inputs generalizing s k with
  | nil =>
    cases hloop
    exact ⟨h, fun _ _ h => h, fun _ _ => rfl, by simp, by simp [AllSteps]⟩
  | cons t inputs ih =>
    rw [List.zipIdx_cons] at hplaced hloop
    obtain ⟨s₁, h₁, hloop⟩ := Option.bind_eq_some_iff.1 hloop
    rw [allSteps_cons h₁] at hplaced
    obtain ⟨htidy, hhome, hturn⟩ := h.after_enterInput hinv hplaced.1 h₁
    obtain ⟨hinv₁, hempty₁⟩ := hinv.after_enterInput hinj hempty h₁
    have hrest := ih htidy hinv₁ hempty₁ hplaced.2 hloop
    -- The later turns leave the pointer of this one.
    have hfirst := hrest.kept k (Nat.lt_succ_self k)
    refine ⟨hrest.tidy, fun u m hm => hrest.home u m (hhome u m hm), fun i hi => ?_, ?_, ?_⟩
    · rw [hrest.kept i (hi.trans (Nat.lt_succ_self k)), (context_enterInput h₁).2.2,
        OrderedMap.find?_set_of_ne _ hi.ne]
    · rw [List.zipIdx_cons]
      refine List.forall_mem_cons.2 ⟨fun hcaptured => ⟨(hplaced.1 hcaptured).place.lt, ?_⟩,
        hrest.node⟩
      intro q hq
      rw [hfirst] at hq
      obtain ⟨n, hn, hat⟩ := (hturn hcaptured).1 q hq
      exact ⟨n, hn, hrest.home _ _ hat⟩
    · rw [List.zipIdx_cons, allSteps_cons h₁, hrest.fathered, List.forall_mem_cons, hfirst]
      exact and_congr_left' (forall_congr' fun hcaptured => (hturn hcaptured).2)

/-- The loop at EXIT keeps the forest tidy. -/
theorem Tidy.after_exitOutputs (hinj : Function.Injective env.update_op_id_func)
    {outputs : List TensorData} (h : Tidy s.roots) (hinv : Inv env s)
    (hplaced : AllSteps (exitOutput env frames)
      (fun s t => t.isSkipped = false → Placed s.roots t) s outputs)
    (hloop : outputs.foldlM (exitOutput env frames) s = some s') : Tidy s'.roots := by
  rw [← run_eq_foldlM] at hloop
  refine (run_invariant (I := fun s => Inv env s ∧ Tidy s.roots)
    (fun s t s' hI ht hstep => ?_) ⟨hinv, h⟩ hplaced hloop).2
  unfold exitOutput at hstep
  split_ifs at hstep with hskip
  · cases hstep
    exact hI
  · obtain ⟨⟨p, s₁⟩, h₁, rfl⟩ := Option.map_eq_some_iff.1 hstep
    exact ⟨hI.1.after_updateTensor hinj h₁,
      (hI.2.after_updateTensor hI.1 (ht (by simpa using hskip)) h₁).1⟩

/-- A tidy forest stays tidy when roots are taken away. -/
theorem Tidy.sublist {roots roots' : List (Tree ViewNode)} (h : Tidy roots)
    (hsub : roots'.Sublist roots) : Tidy roots' where
  separated := h.separated.sublist hsub
  key_nodup := h.key_nodup.sublist ((hsub.flatMap Tree.nodes).map ViewNode.key)

/-- An event whose tensors are placed keeps the forest tidy. -/
theorem Tidy.after_step (hinj : Function.Injective env.update_op_id_func) (h : Tidy s.roots)
    (hinv : Inv env s) {e : Event} (hplaced : PlacedEvent env s e)
    (hstep : step env s e = some s') : Tidy s'.roots := by
  cases e with
  | enter op frames =>
    exact (Tidy.after_enterInputs hinj (s := pushOp s op) h (hinv.after_pushOp op) rfl hplaced
      hstep).tidy
  | exit op frames =>
    obtain ⟨s₁, h₁, hstep⟩ := Option.bind_eq_some_iff.1 hstep
    obtain ⟨a, -, rfl⟩ := Option.map_eq_some_iff.1 hstep
    split_ifs at h₁ with hempty
    · cases h₁
      exact h
    · obtain ⟨s₂, h₂, rfl⟩ := Option.map_eq_some_iff.1 h₁
      have htidy : Tidy s₂.roots := h.after_exitOutputs hinj hinv (hplaced hempty) h₂
      exact htidy
  | free mem =>
    obtain ⟨s₁, h₁, rfl⟩ := Option.map_eq_some_iff.1 hstep
    obtain ⟨s₂, -, rfl⟩ := deleteForestTree_eq_some rfl h₁
    exact h.sublist (roots_sublist s.roots mem.ptr _)
  | _ =>
    obtain ⟨-, hroots⟩ := contextKept_step hstep id (by simp)
    rwa [hroots]

/-- In a tidy forest, an event whose tensors are placed captures its inputs exactly if they have a
node or a father. -/
theorem Tidy.capturesInputs_iff (hinj : Function.Injective env.update_op_id_func)
    (h : Tidy s.roots) (hinv : Inv env s) {e : Event} (hplaced : PlacedEvent env s e) :
    CapturesInputs env s e ↔ FatheredEvent env s e := by
  cases e with
  | enter op frames =>
    obtain ⟨s₁, h₁⟩ := Option.isSome_iff_exists.1 (onEnter_isSome env s op frames)
    have hloop := Tidy.after_enterInputs hinj (s := pushOp s op) h (hinv.after_pushOp op) rfl
      hplaced h₁
    refine Iff.trans ⟨?_, ?_⟩ hloop.fathered.symm
    · -- A captured input has a pointer that is not null.
      rintro ⟨s', h', hall⟩ input hin hcaptured
      obtain rfl : s₁ = s' := Option.some.inj (h₁.symm.trans h')
      obtain ⟨n, hn, -⟩ := hall input hin hcaptured
      exact ⟨n.ptr, hn⟩
    · -- The node that is cached is at home, so it is the one node with the pair.
      intro hall
      refine ⟨s₁, h₁, fun input hin hcaptured => ?_⟩
      obtain ⟨hlt, hnode⟩ := hloop.node input hin hcaptured
      obtain ⟨q, hq⟩ := hall input hin hcaptured
      obtain ⟨n, rfl, hhome⟩ := hnode q hq
      obtain ⟨r, hr, hnr, -⟩ := hhome.place
      refine ⟨n, hq, ?_, fun _ => hloop.tidy.update_again hlt hhome⟩
      rw [← hhome.key]
      exact filter_eq_singleton hloop.tidy.key_nodup (Tree.mem_nodesOf.2 ⟨r, hr, hnr⟩)
  | _ => exact Iff.rfl

/-- In a run whose tensors are all placed, every ENTER captures its inputs exactly if every input
has a node or a father when its turn comes. -/
theorem allCapturesInputs_iff (hinj : Function.Injective env.update_op_id_func) (ongpu : Bool)
    (es : List Event) (hplaced : AllSteps (step env) (PlacedEvent env) (initial ongpu) es) :
    AllSteps (step env) (CapturesInputs env) (initial ongpu) es ↔
      AllSteps (step env) (FatheredEvent env) (initial ongpu) es := by
  refine allSteps_iff (I := fun s => Inv env s ∧ Tidy s.roots)
    (fun s e hI hplaced => hI.2.capturesInputs_iff hinj hI.1 hplaced)
    (fun s e s' hI hplaced _ hstep => ⟨hI.1.after_step hinj hstep,
      hI.2.after_step hinj hI.1 hplaced hstep⟩) ⟨inv_initial env ongpu, ⟨⟨?_, ?_, ?_⟩, ?_⟩⟩ hplaced
  all_goals simp [initial]

/-- In every run whose tensors are placed and whose inputs have a node or a father when their turn
comes, every ENTER captures its inputs. -/
theorem capturesInputs_of_placed (hinj : Function.Injective env.update_op_id_func) (ongpu : Bool)
    (es : List Event) (h : AllSteps (step env)
      (fun s e => PlacedEvent env s e ∧ FatheredEvent env s e) (initial ongpu) es) :
    AllSteps (step env) (CapturesInputs env) (initial ongpu) es :=
  (allCapturesInputs_iff hinj ongpu es (h.imp fun _ _ hC => hC.1)).2 (h.imp fun _ _ hC => hC.2)

end Events

/-- An operation with a vector and a view of it. -/
def vectorAndView : OpData := ⟨[], [vector 0 1000 10, vector 1 1004 2]⟩

/-- After the turn of the vector, its node is the one root. -/
theorem roots_vectorAndView {s : TorchView} (hs : enterInput countingEnv []
    (pushOp (initial false) vectorAndView) (vector 0 1000 10, 0) = some s) :
    ∃ r, s.roots = [r] ∧ r.root = firstVector 10 ∧ r.nodes = [firstVector 10] := by
  have hnodes : (enterInput countingEnv [] (pushOp (initial false) vectorAndView)
      (vector 0 1000 10, 0)).map (fun s => s.roots.map Tree.nodes) = some [[firstVector 10]] := by
    decide +kernel
  rw [hs, Option.map_some, Option.some.injEq, List.map_eq_singleton_iff] at hnodes
  obtain ⟨r, hroots, hr⟩ := hnodes
  exact ⟨r, hroots, (List.cons.inj hr).1, hr⟩

/-- The ENTER of an operation with a vector and a view of it captures both. -/
theorem capturesInputs_vectorAndView : AllSteps (step countingEnv) (CapturesInputs countingEnv)
    (initial false) [.enter vectorAndView []] := by
  refine capturesInputs_of_placed countingEnv_injective false _
    ⟨⟨⟨fun _ => ⟨⟨by decide, by decide, Or.inr ?_⟩, ?_⟩,
        fun s hs => ⟨fun _ => ?_, fun _ _ => trivial⟩⟩,
      ⟨fun _ => ?_, fun s hs => ⟨fun _ => ?_, fun _ _ => trivial⟩⟩⟩, fun _ _ => trivial⟩
  · simp [initial, pushOp]
  · simp [initial, pushOp]
  · -- The view lies inside the vector's root, whose only node has another pair.
    obtain ⟨r, hroots, hroot, hr⟩ := roots_vectorAndView hs
    refine ⟨⟨by decide, by decide, Or.inl ⟨r, by simp [hroots], ?_⟩⟩, fun n hn hkey => ?_⟩
    · unfold Contains
      rw [hroot]
      decide
    · simp only [hroots, Tree.nodesOf_cons, Tree.nodesOf_nil, List.append_nil, hr,
        List.mem_singleton] at hn
      rw [hn] at hkey
      exact absurd hkey (by decide)
  · simp [Fathered, initial, pushOp]
  · -- The vector is an input with a node in the root's tree.
    obtain ⟨r, hroots, -, hr⟩ := roots_vectorAndView hs
    intro r' hr' _
    obtain rfl : r' = r := by simpa [hroots] using hr'
    refine Or.inr ⟨vectorAndView, ?_, vector 0 1000 10, List.mem_cons_self, by decide,
      firstVector 10, by simp [hr], by decide⟩
    rw [(context_enterInput hs).1]
    rfl

/-- A view of a vector that is no input of the operation gets no node. -/
theorem not_capturesInputs_view : ¬∀ (env : Env) (ongpu : Bool) (es : List Event),
    Function.Injective env.update_op_id_func →
    AllSteps (step env) (CapturesInputs env) (initial ongpu) es := by
  intro hall
  obtain ⟨s₁, h₁, hrest⟩ := Option.bind_eq_some_iff.1
    (show ((step countingEnv (initial false) (.enter ⟨[], [vector 0 1000 10]⟩ [])).bind fun s =>
      (onEnter countingEnv s ⟨[], [vector 0 1004 2]⟩ []).map fun s =>
        s.input_viewnode_forest_ptrs.find? 0) = some (some none) by decide +kernel)
  obtain ⟨s₂, h₂, hnull⟩ := Option.map_eq_some_iff.1 hrest
  obtain ⟨⟨s', h', hcaptured⟩, -⟩ := (hall countingEnv false
    [.enter ⟨[], [vector 0 1000 10]⟩ [], .enter ⟨[], [vector 0 1004 2]⟩ []]
    countingEnv_injective).2 s₁ h₁
  obtain rfl : s₂ = s' := Option.some.inj (h₂.symm.trans h')
  obtain ⟨n, hn, -⟩ := hcaptured (vector 0 1004 2, 0) (by simp) (by decide)
  rw [hnull] at hn
  cases hn

end TenProf.TorchView
