import TenProf.TorchView.Context

/-!
# The accesses of views in a run

Three loops process the accesses of views: those of `kernel_op_callback` in its two modes, and that
of `map_delayed_access`. `accessLog` lists the accesses of a run in the order in which they are
processed. It follows the loops turn by turn and changes nothing.
-/

namespace TenProf.TorchView

open GpuPatch

/-- The loops that process the accesses of a view. -/
inductive AccessLoop
  /-- `kernel_op_callback` in the CPU mode. -/
  | cpu
  /-- `kernel_op_callback` in the on-GPU mode. -/
  | gpu
  /-- `map_delayed_access`. -/
  | delayed
  deriving DecidableEq, Repr

/-- An access of a view, as a loop processes it. -/
structure ViewAccess where
  loop : AccessLoop
  view_id : ℕ
  write : Bool
  aten_copy_pystate_hash : ℕ
  pc : ℕ
  deriving DecidableEq, Repr

/-- The accesses of a view. -/
def accessesTo (view_id : ℕ) (log : List ViewAccess) : List ViewAccess :=
  log.filter fun b => b.view_id = view_id

theorem accessesTo_append (view_id : ℕ) (log log' : List ViewAccess) :
    accessesTo view_id (log ++ log') = accessesTo view_id log ++ accessesTo view_id log' :=
  List.filter_append _ _

/-- The loops of a mode. -/
def InMode (ongpu : Bool) (b : ViewAccess) : Prop := b.loop = .gpu ↔ ongpu = true

/-- The accesses of the views that a lookup hits. -/
def hitAccesses (loop : AccessLoop) (write : Bool) (hash pc : ℕ) (hits : List ViewNode) :
    List ViewAccess :=
  hits.map fun n => ⟨loop, n.view_id, write, hash, pc⟩

/-- The accesses that a turn of the loop of the CPU mode processes. -/
def kernelAccessLog (env : Env) (s : TorchView) (trace : Trace)
    (st : Attribution × OrderedMap ℕ (List ViewNode)) (access : ℕ × ℕ) : List ViewAccess :=
  match st.2.find? access.1 with
  | some _ => []
  | none => ((newGetViewNodesByMemAddr env s st.1.cells access.2 false).map fun res =>
      hitAccesses .cpu (access.1 ∈ trace.write_pcs) st.1.aten_copy_pystate_hash access.1
        res.1).getD []

/-- The delayed trace to which a kernel adds. -/
def delayedTraceOf (s : TorchView) (a : Attribution) (frames : List PythonState) :
    Option DelayedTrace :=
  match a.delayed_trace with
  | some d => some d
  | none => (delayedState s frames).map fun state => ⟨state, ∅, ∅⟩

/-- The accesses that `kernel_op_callback` processes in the CPU mode. -/
def kernelLogCpu (env : Env) (s : TorchView) (a : Attribution) (ctx_id : ℕ)
    (frames : List PythonState) : List ViewAccess :=
  match a.trace with
  | none => []
  | some trace =>
    let accesses := (accessesOf trace.access_memory).map fun access => (access.1, access.2.1)
    runLog (kernelAccess env s trace ctx_id) (kernelAccessLog env s trace)
      ({ a with delayed_trace := delayedTraceOf s a frames }, ∅) accesses

/-- The access of the view at a pointer in the on-GPU mode. -/
def gpuHitLog (roots : List (Tree ViewNode)) (flag pc : ℕ) (a : Attribution) (ptr : ℕ) :
    List ViewAccess :=
  match deref roots ptr with
  | none => []
  | some n =>
    if (a.call_path_map.find? n.view_id).isNone then []
    else [⟨.gpu, n.view_id, flag = WRITE, a.aten_copy_pystate_hash, pc⟩]

/-- The accesses that a turn of the loop over the rows of a bitmap processes. -/
def rowLog (s : TorchView) (dict : TorchviewDict) (flag ctx_id : ℕ) (a : Attribution) (r_i : ℕ) :
    List ViewAccess :=
  let pc := r_i * 8
  let hits := rowNodes s (bitMapOf flag dict) r_i
  ((updateNodeTotalAccess s.live_nodes a hits pc).map fun a =>
    runLog (recordGpuHit s.roots flag ctx_id pc) (gpuHitLog s.roots flag pc) a hits).getD []

/-- The accesses that `kernel_op_callback` processes in the on-GPU mode. -/
def kernelLogGpu (s : TorchView) (a : Attribution) (ctx_id : ℕ) : List ViewAccess :=
  match a.torchview_dict with
  | none => []
  | some dict =>
    if dict.view_range_size = 0 ∨ dict.view_range_size ≠ s.torchview_memory_snapshot.size then []
    else
      let rows := List.range (pcSizeOf READ dict)
      runLog (kernelRow s dict READ ctx_id) (rowLog s dict READ ctx_id) a rows ++
        ((rows.foldlM (kernelRow s dict READ ctx_id) a).map fun a =>
          runLog (kernelRow s dict WRITE ctx_id) (rowLog s dict WRITE ctx_id) a
            (List.range (pcSizeOf WRITE dict))).getD []

/-- The accesses that `kernel_op_callback` processes. -/
def kernelLog (env : Env) (s : TorchView) (ctx_id : ℕ) (frames : List PythonState) :
    List ViewAccess :=
  let a := { s.attribution with aten_copy_pystate_hash := env.hash (allStates frames) }
  if s.torch_view_ongpu then kernelLogGpu s a ctx_id else kernelLogCpu env s a ctx_id frames

/-- The accesses that a turn of the loop over the delayed accesses processes. -/
def delayedAccessLog (env : Env) (s : TorchView) (d : DelayedTrace)
    (st : Attribution × OrderedMap ℕ (List ViewNode)) (access : ℕ × ℕ × ℕ) : List ViewAccess :=
  match st.2.find? access.1 with
  | some _ => []
  | none => ((newGetViewNodesByMemAddr env s st.1.cells access.2.1 true).map fun res =>
      hitAccesses .delayed (access.1 ∈ d.write_pcs) st.1.aten_copy_pystate_hash access.1
        res.1).getD []

/-- The accesses that `map_delayed_access` processes. -/
def delayedLog (env : Env) (s : TorchView) : List ViewAccess :=
  match s.attribution.delayed_trace with
  | none => []
  | some d => runLog (delayedAccess env s d) (delayedAccessLog env s d) (s.attribution, ∅)
      (accessesOf d.access_memory)

/-- The state in which an EXIT maps the delayed accesses. -/
def exitState (env : Env) (s : TorchView) (op : OpData) (frames : List PythonState) :
    Option TorchView :=
  if s.op_stack = [] then some s
  else (op.tensor_data.foldlM (exitOutput env frames) s).map popOp

/-- The accesses that an event processes. -/
def eventLog (env : Env) (s : TorchView) : Event → List ViewAccess
  | .kernelOp ctx_id frames => kernelLog env s ctx_id frames
  | .exit op frames => ((exitState env s op frames).map (delayedLog env)).getD []
  | _ => []

/-- The accesses of a run, in the order in which they are processed. -/
def accessLog (env : Env) (ongpu : Bool) (es : List Event) : List ViewAccess :=
  runLog (step env) (eventLog env) (initial ongpu) es

section Logged

variable {env : Env} {s : TorchView}

/-- A lookup hits nodes of the forest. -/
theorem mem_nodesOf_of_lookup {cells cells' : OrderedMap ℕ NodeCell} {hits : List ViewNode}
    {addr : ℕ} {is_delay : Bool}
    (h : newGetViewNodesByMemAddr env s cells addr is_delay = some (hits, cells')) :
    ∀ n ∈ hits, n ∈ Tree.nodesOf s.roots := by
  obtain ⟨possible, hpossible, h⟩ := Option.bind_eq_some_iff.1 h
  obtain ⟨cells₁, -, h⟩ := Option.map_eq_some_iff.1 h
  cases h
  exact fun n hn => possibleNodes_subset hpossible n (List.mem_of_mem_filter hn)

/-- An access of a view in the forest, by a loop of the mode. -/
def OfForest (s : TorchView) (ongpu : Bool) (b : ViewAccess) : Prop :=
  (∃ n ∈ Tree.nodesOf s.roots, n.view_id = b.view_id) ∧ InMode ongpu b

theorem ofForest_hitAccesses {loop : AccessLoop} {ongpu write : Bool} {hash pc : ℕ}
    {hits : List ViewNode} (hhits : ∀ n ∈ hits, n ∈ Tree.nodesOf s.roots)
    (hmode : loop = .gpu ↔ ongpu = true) :
    ∀ b ∈ hitAccesses loop write hash pc hits, OfForest s ongpu b := by
  intro b hb
  obtain ⟨n, hn, rfl⟩ := List.mem_map.1 hb
  exact ⟨⟨n, hhits n hn, rfl⟩, hmode⟩

theorem ofForest_kernelLog (env : Env) (s : TorchView) (ctx_id : ℕ) (frames : List PythonState) :
    ∀ b ∈ kernelLog env s ctx_id frames, OfForest s s.torch_view_ongpu b := by
  unfold kernelLog
  simp only
  generalize ({ s.attribution with
    aten_copy_pystate_hash := env.hash (allStates frames) } : Attribution) = a
  split_ifs with hgpu
  · -- A row of a bitmap logs hits of pointers that can be read.
    have hrow : ∀ dict flag (a : Attribution) r_i, ∀ b ∈ rowLog s dict flag ctx_id a r_i,
        OfForest s s.torch_view_ongpu b := by
      intro dict flag a r_i
      unfold rowLog
      simp only
      cases updateNodeTotalAccess s.live_nodes a (rowNodes s (bitMapOf flag dict) r_i)
        (r_i * 8) with
      | none => simp
      | some a₁ =>
        rw [Option.map_some, Option.getD_some]
        refine forall_mem_runLog (fun a ptr b hb => ?_) _ _
        unfold gpuHitLog at hb
        cases hn : deref s.roots ptr with
        | none => simp [hn] at hb
        | some n =>
          simp only [hn] at hb
          split_ifs at hb
          · simp at hb
          all_goals
            rw [List.mem_singleton.1 hb]
            exact ⟨⟨n, (deref_eq_some hn).1, rfl⟩, iff_of_true rfl hgpu⟩
    unfold kernelLogGpu
    cases a.torchview_dict with
    | none => simp
    | some dict =>
      simp only
      split_ifs
      · simp
      · intro b hb
        rcases List.mem_append.1 hb with hb | hb
        · exact forall_mem_runLog (hrow dict READ) _ _ b hb
        · cases hread : (List.range (pcSizeOf READ dict)).foldlM (kernelRow s dict READ ctx_id)
            a with
          | none => simp [hread] at hb
          | some a₁ =>
            rw [hread, Option.map_some, Option.getD_some] at hb
            exact forall_mem_runLog (hrow dict WRITE) _ _ b hb
  · unfold kernelLogCpu
    cases a.trace with
    | none => simp
    | some trace =>
      refine forall_mem_runLog (fun st access => ?_) _ _
      unfold kernelAccessLog
      cases st.2.find? access.1 with
      | some ns => simp
      | none =>
        cases hlookup : newGetViewNodesByMemAddr env s st.1.cells access.2 false with
        | none => simp
        | some res =>
          exact ofForest_hitAccesses (mem_nodesOf_of_lookup hlookup)
            (iff_of_false (by simp) hgpu)

theorem ofForest_delayedLog (env : Env) (s : TorchView) :
    ∀ b ∈ delayedLog env s, OfForest s false b := by
  unfold delayedLog
  cases s.attribution.delayed_trace with
  | none => simp
  | some d =>
    refine forall_mem_runLog (fun st access => ?_) _ _
    unfold delayedAccessLog
    cases st.2.find? access.1 with
    | some ns => simp
    | none =>
      cases hlookup : newGetViewNodesByMemAddr env s st.1.cells access.2.1 true with
      | none => simp
      | some res =>
        exact ofForest_hitAccesses (mem_nodesOf_of_lookup hlookup) (by simp)

end Logged

/-! ## The rule for a kernel -/

/-- A step of a kernel callback that processes no access: it leaves what is logged as it is, and the
flags of the nodes. -/
structure Quiet (a a' : Attribution) : Prop where
  frame : a' = { a with
    cells := a'.cells
    trace := a'.trace
    delayed_trace := a'.delayed_trace }
  flag : ∀ p, (a'.cells.find? p).map NodeCell.is_memory_write_pc =
    (a.cells.find? p).map NodeCell.is_memory_write_pc

/-- `J` ties an attribution to the accesses that were processed so far, and survives what
`kernel_op_callback` does between two accesses and at an access. -/
structure KernelRule (s : TorchView) (ctx_id : ℕ) (J : Attribution → List ViewAccess → Prop) :
    Prop where
  quiet : ∀ {a a' log}, J a log → Quiet a a' → J a' log
  hit : ∀ {trace pc n a a' log}, n ∈ Tree.nodesOf s.roots → J a log →
    recordHit trace ctx_id pc a n = some a' →
    J a' (log ++ [⟨.cpu, n.view_id, pc ∈ trace.write_pcs, a.aten_copy_pystate_hash, pc⟩])
  gpuHit : ∀ {flag pc ptr n a a' log}, deref s.roots ptr = some n →
    ¬(a.call_path_map.find? n.view_id).isNone → J a log →
    recordGpuHit s.roots flag ctx_id pc a ptr = some a' →
    J a' (log ++ [⟨.gpu, n.view_id, flag = WRITE, a.aten_copy_pystate_hash, pc⟩])

section Rule

variable {env : Env} {s : TorchView} {ctx_id : ℕ} {J : Attribution → List ViewAccess → Prop}
  {a a' : Attribution} {log : List ViewAccess}

theorem Quiet.refl (a : Attribution) : Quiet a a := ⟨rfl, fun _ => rfl⟩

theorem Quiet.trans {a₁ a₂ a₃ : Attribution} (h : Quiet a₁ a₂) (h' : Quiet a₂ a₃) :
    Quiet a₁ a₃ :=
  ⟨by rw [h'.frame, h.frame], fun p => (h'.flag p).trans (h.flag p)⟩

/-- A change of one cell that keeps its flag. -/
theorem quiet_set {ptr : ℕ} {c c' : NodeCell} (h : a.cells.find? ptr = some c)
    (hflag : c'.is_memory_write_pc = c.is_memory_write_pc) :
    Quiet a { a with cells := a.cells.set ptr c' } := by
  refine ⟨rfl, fun p => ?_⟩
  rw [OrderedMap.find?_set]
  split_ifs with hp
  · rw [hp, h, Option.map_some, Option.map_some, hflag]
  · rfl

/-- The sort of a cell keeps its flag. -/
theorem is_memory_write_pc_sort (c : NodeCell) :
    c.sort.is_memory_write_pc = c.is_memory_write_pc := by
  unfold NodeCell.sort
  split_ifs <;> rfl

theorem quiet_sortCells {ns : List ViewNode} {cells : OrderedMap ℕ NodeCell}
    (h : sortCells a.cells ns = some cells) : Quiet a { a with cells := cells } := by
  refine foldlM_rel (R := fun m m' => Quiet { a with cells := m } { a with cells := m' })
    (fun _ => Quiet.refl _) Quiet.trans (fun m n m' _ hstep => ?_) h
  obtain ⟨c, hc, rfl⟩ := Option.map_eq_some_iff.1 hstep
  exact quiet_set (a := { a with cells := m }) hc (is_memory_write_pc_sort c)

theorem quiet_updateNodeTotalAccess {live : Finset ℕ} {ptrs : List ℕ} {pc : ℕ}
    (h : updateNodeTotalAccess live a ptrs pc = some a') : Quiet a a' := by
  refine foldlM_rel Quiet.refl Quiet.trans (fun a ptr a' _ hstep => ?_) h
  split_ifs at hstep
  · obtain ⟨c, hc, rfl⟩ := Option.map_eq_some_iff.1 hstep
    exact quiet_set hc rfl
  · cases hstep
    exact Quiet.refl a

/-- A lookup, and the count of the accesses of the nodes that it hits. -/
theorem quiet_lookup {cells : OrderedMap ℕ NodeCell} {hits : List ViewNode} {addr pc : ℕ}
    {is_delay : Bool}
    (h₁ : newGetViewNodesByMemAddr env s a.cells addr is_delay = some (hits, cells))
    (h₂ : updateNodeTotalAccess s.live_nodes { a with cells := cells } (hits.map ViewNode.ptr) pc =
      some a') : Quiet a a' := by
  obtain ⟨possible, -, h₁⟩ := Option.bind_eq_some_iff.1 h₁
  obtain ⟨cells₁, hsort, h₁⟩ := Option.map_eq_some_iff.1 h₁
  cases h₁
  exact (quiet_sortCells hsort).trans (quiet_updateNodeTotalAccess h₂)

/-- An access without a hit is delayed. -/
theorem quiet_delayAccess (trace : Trace) (ctx_id pc mem_start : ℕ) (a : Attribution) :
    Quiet a (delayAccess trace ctx_id pc mem_start a) := ⟨rfl, fun _ => rfl⟩

/-- No hit in the CPU mode changes the hash of the Python state. -/
theorem hash_recordHit {trace : Trace} {pc : ℕ} {n : ViewNode}
    (h : recordHit trace ctx_id pc a n = some a') :
    a'.aten_copy_pystate_hash = a.aten_copy_pystate_hash := by
  obtain ⟨a₁, h₁, h⟩ := Option.bind_eq_some_iff.1 h
  obtain ⟨a₂, h₂, h₃⟩ := Option.bind_eq_some_iff.1 h
  rw [recordAtenCopy_frame h₃]
  have hpush : a₁.aten_copy_pystate_hash = a.aten_copy_pystate_hash := by
    rw [(pushPc_eq_some h₁).1]
  refine Eq.trans ?_ hpush
  split_ifs at h₂
  · obtain ⟨c, -, rfl⟩ := Option.map_eq_some_iff.1 h₂
    split_ifs <;> rfl
  · rw [(onlyCells_setMemoryWritePc h₂).frame]

/-- A turn of the loop of the CPU mode. -/
theorem KernelRule.after_kernelAccess (hJ : KernelRule s ctx_id J) {trace : Trace}
    {access : ℕ × ℕ} {st st' : Attribution × OrderedMap ℕ (List ViewNode)} (h : J st.1 log)
    (hstep : kernelAccess env s trace ctx_id st access = some st') :
    J st'.1 (log ++ kernelAccessLog env s trace st access) := by
  obtain ⟨a, cache⟩ := st
  obtain ⟨pc, mem_start⟩ := access
  unfold kernelAccess at hstep
  unfold kernelAccessLog
  cases hcache : cache.find? pc with
  | some ns =>
    simp only [hcache, Option.map_eq_some_iff] at hstep
    obtain ⟨a₁, h₁, rfl⟩ := hstep
    simp only [List.append_nil]
    exact hJ.quiet h (quiet_updateNodeTotalAccess h₁)
  | none =>
    simp only [hcache, Option.bind_eq_some_iff, Option.map_eq_some_iff] at hstep
    obtain ⟨⟨hits, cells⟩, hlookup, a₁, h₁, a₂, h₂, rfl⟩ := hstep
    simp only [hlookup, Option.map_some, Option.getD_some]
    have hquiet := quiet_lookup hlookup h₁
    have hhash : a₁.aten_copy_pystate_hash = a.aten_copy_pystate_hash := by rw [hquiet.frame]
    -- The hits are logged one by one, under the same hash.
    have hall := foldlM_invariant_handled
      (I := fun before a₂ => J a₂ (log ++ hitAccesses .cpu (pc ∈ trace.write_pcs)
        a.aten_copy_pystate_hash pc before) ∧
          a₂.aten_copy_pystate_hash = a.aten_copy_pystate_hash)
      (fun before n a₂ a₃ hs hn hstep => ?_)
      ⟨by simpa [hitAccesses] using hJ.quiet h hquiet, hhash⟩ h₂
    · refine hJ.quiet hall.1 ?_
      split_ifs
      · exact quiet_delayAccess _ _ _ _ _
      · exact Quiet.refl _
    · have hnext := hJ.hit (mem_nodesOf_of_lookup hlookup n hn) hs.1 hstep
      rw [hs.2, List.append_assoc] at hnext
      refine ⟨?_, (hash_recordHit hstep).trans hs.2⟩
      rwa [hitAccesses, List.map_append, List.map_singleton]

/-- A turn of the loop over the nodes that a row of a bitmap hits. -/
theorem KernelRule.after_recordGpuHit (hJ : KernelRule s ctx_id J) {flag pc ptr : ℕ}
    (h : J a log) (hstep : recordGpuHit s.roots flag ctx_id pc a ptr = some a') :
    J a' (log ++ gpuHitLog s.roots flag pc a ptr) := by
  obtain ⟨n, hn, hrest⟩ := Option.bind_eq_some_iff.1 hstep
  unfold gpuHitLog
  simp only [hn]
  split_ifs at hrest ⊢ with hpath
  · cases hrest
    rwa [List.append_nil]
  all_goals exact hJ.gpuHit hn hpath h hstep

/-- A turn of the loop over the rows of a bitmap. -/
theorem KernelRule.after_kernelRow (hJ : KernelRule s ctx_id J) {dict : TorchviewDict}
    {flag r_i : ℕ} (h : J a log) (hstep : kernelRow s dict flag ctx_id a r_i = some a') :
    J a' (log ++ rowLog s dict flag ctx_id a r_i) := by
  obtain ⟨a₁, h₁, hstep⟩ := Option.bind_eq_some_iff.1 hstep
  unfold rowLog
  simp only [h₁, Option.map_some, Option.getD_some]
  rw [← run_eq_foldlM] at hstep
  exact runLog_invariant (J := J) (fun _ _ _ _ h hstep => hJ.after_recordGpuHit h hstep)
    (hJ.quiet h (quiet_updateNodeTotalAccess h₁)) hstep

/-- What holds when the hash of the Python state is set holds, with the accesses of the kernel, at
the end of `kernel_op_callback`. -/
theorem KernelRule.after_kernelOpCallback (hJ : KernelRule s ctx_id J) {frames : List PythonState}
    (h : J { s.attribution with aten_copy_pystate_hash := env.hash (allStates frames) } log)
    (hstep : kernelOpCallback env s ctx_id frames = some a') :
    J a' (log ++ kernelLog env s ctx_id frames) := by
  unfold kernelOpCallback at hstep
  unfold kernelLog
  generalize ({ s.attribution with
    aten_copy_pystate_hash := env.hash (allStates frames) } : Attribution) = a at h hstep ⊢
  simp only at hstep ⊢
  split_ifs at hstep ⊢ with hgpu
  · -- The rows of both bitmaps.
    obtain ⟨dict, hdict, hstep⟩ := Option.bind_eq_some_iff.1 hstep
    unfold kernelLogGpu
    simp only [hdict]
    split_ifs at hstep ⊢ with hskip
    · cases hstep
      rwa [List.append_nil]
    · obtain ⟨a₁, h₁, hstep⟩ := Option.bind_eq_some_iff.1 hstep
      rw [h₁, Option.map_some, Option.getD_some, ← List.append_assoc]
      rw [← run_eq_foldlM] at h₁ hstep
      have hread := runLog_invariant (J := J)
        (fun _ _ _ _ h hstep => hJ.after_kernelRow h hstep) h h₁
      exact runLog_invariant (J := J) (fun _ _ _ _ h hstep => hJ.after_kernelRow h hstep) hread
        hstep
  · -- The accesses of the trace.
    unfold kernelOpCallbackCpu at hstep
    unfold kernelLogCpu
    cases htrace : a.trace with
    | none =>
      simp only [htrace, Option.some.injEq] at hstep
      rw [← hstep, List.append_nil]
      exact h
    | some trace =>
      simp only [htrace] at hstep ⊢
      obtain ⟨delayed, hdelayed, hstep⟩ := Option.bind_eq_some_iff.1 hstep
      obtain ⟨st, hfold, rfl⟩ := Option.map_eq_some_iff.1 hstep
      change delayedTraceOf s a frames = some delayed at hdelayed
      rw [hdelayed]
      rw [← run_eq_foldlM] at hfold
      have hstart : J { a with trace := some trace, delayed_trace := some delayed } log :=
        hJ.quiet h ⟨rfl, fun _ => rfl⟩
      have hall := runLog_invariant (J := fun st log => J st.1 log)
        (fun _ _ _ _ h hstep => hJ.after_kernelAccess h hstep) hstart hfold
      exact hJ.quiet hall ⟨rfl, fun _ => rfl⟩

end Rule

end TenProf.TorchView
