import TenProf.TorchView.DeadWrites

/-!
# The flag of the last write

`is_memory_write_pc` is a member of the node, and `write_after_write_map` is keyed by its id. In
every run the flag of every node is the one that the accesses of its view so far make, and the pairs
of a view are those of the writes that found it set (`FlagInv`). So the pairs are those of the dead
writes exactly when every write finds the flag current (`deadWrites_iff`).
-/

namespace TenProf.TorchView

open GpuPatch

/-! ## The flags of the nodes -/

/-- `is_memory_write_pc` of a node. -/
def flagOf (a : Attribution) (ptr : ℕ) : Option Bool :=
  (a.cells.find? ptr).map NodeCell.is_memory_write_pc

/-- The pairs of a view. -/
def pairsOf (a : Attribution) (view_id : ℕ) : List (ℕ × ℕ) :=
  a.write_after_write_map.findD view_id []

/-- The flags, the pairs and the hash of the Python state are as they were. -/
structure SameFlags (a a' : Attribution) : Prop where
  flag : ∀ p, flagOf a' p = flagOf a p
  pairs : ∀ v, pairsOf a' v = pairsOf a v
  hash : a'.aten_copy_pystate_hash = a.aten_copy_pystate_hash

/-- What the processing of an access does to the flags and the pairs. -/
structure Accessed (b : ViewAccess) (ptr : ℕ) (a a' : Attribution) : Prop where
  flag : ∀ p, flagOf a' p = if p = ptr then (flagOf a p).map (updateFlag · b) else flagOf a p
  pairs : ∀ v, pairsOf a' v =
    if v = b.view_id ∧ b.IsKernelWrite ∧ flagOf a ptr = some true then
      pairsOf a v ++ [(b.aten_copy_pystate_hash, b.pc)]
    else pairsOf a v
  hash : a'.aten_copy_pystate_hash = a.aten_copy_pystate_hash

/-- The flags and the pairs are those that the accesses so far make. -/
structure Flagged (roots : List (Tree ViewNode)) (log : List ViewAccess) (a : Attribution) :
    Prop where
  flag : ∀ n ∈ Tree.nodesOf roots, flagOf a n.ptr = some (flagAfter (accessesTo n.view_id log))
  pairs : ∀ v, pairsOf a v = deadWrites flagAfter [] (accessesTo v log)

/-- The nodes differ in their pointers and in their ids. -/
structure Distinct (roots : List (Tree ViewNode)) : Prop where
  ptr : ((Tree.nodesOf roots).map ViewNode.ptr).Nodup
  id : ((Tree.nodesOf roots).map ViewNode.view_id).Nodup

section Flags

variable {env : Env} {s : TorchView} {a a' : Attribution} {roots : List (Tree ViewNode)}
  {log : List ViewAccess}

theorem SameFlags.refl (a : Attribution) : SameFlags a a := ⟨fun _ => rfl, fun _ => rfl, rfl⟩

theorem SameFlags.trans {a₁ a₂ a₃ : Attribution} (h : SameFlags a₁ a₂) (h' : SameFlags a₂ a₃) :
    SameFlags a₁ a₃ :=
  ⟨fun p => (h'.flag p).trans (h.flag p), fun v => (h'.pairs v).trans (h.pairs v),
    h'.hash.trans h.hash⟩

/-- An access in the middle of steps that change no flag. -/
theorem Accessed.of_same {b : ViewAccess} {ptr : ℕ} {a₁ a₂ : Attribution} (h₁ : SameFlags a a₁)
    (h : Accessed b ptr a₁ a₂) (h₂ : SameFlags a₂ a') : Accessed b ptr a a' where
  flag p := by rw [h₂.flag, h.flag, h₁.flag]
  pairs v := by rw [h₂.pairs, h.pairs, h₁.pairs, h₁.flag]
  hash := h₂.hash.trans (h.hash.trans h₁.hash)

theorem Flagged.same (h : Flagged roots log a) (hsame : SameFlags a a') : Flagged roots log a' :=
  ⟨fun n hn => (hsame.flag _).trans (h.flag n hn), fun v => (hsame.pairs v).trans (h.pairs v)⟩

/-- One more access of a node. -/
theorem Flagged.accessed (hdistinct : Distinct roots) (h : Flagged roots log a) {n : ViewNode}
    (hn : n ∈ Tree.nodesOf roots) {b : ViewAccess} (hb : b.view_id = n.view_id)
    (hstep : Accessed b n.ptr a a') : Flagged roots (log ++ [b]) a' := by
  have hone : ∀ v, accessesTo v (log ++ [b]) =
      if v = n.view_id then accessesTo v log ++ [b] else accessesTo v log := by
    intro v
    rw [accessesTo_append]
    by_cases hv : v = n.view_id
    · rw [if_pos hv]
      simp [accessesTo, hb, hv]
    · rw [if_neg hv]
      simp [accessesTo, hb, Ne.symm hv]
  constructor
  · intro m hm
    rw [hstep.flag, hone, h.flag m hm]
    by_cases hmn : m = n
    · rw [if_pos (by rw [hmn]), if_pos (by rw [hmn]), flagAfter_append_singleton]
      rfl
    · rw [if_neg fun heq => hmn (List.inj_on_of_nodup_map hdistinct.ptr hm hn heq),
        if_neg fun heq => hmn (List.inj_on_of_nodup_map hdistinct.id hm hn heq)]
  · intro v
    rw [hstep.pairs, hone, h.pairs, h.flag n hn, hb]
    by_cases hv : v = n.view_id
    · rw [if_pos hv, deadWrites_append_singleton, List.nil_append, hv]
      simp only [true_and, Option.some.injEq]
      split_ifs
      · rfl
      · rw [List.append_nil]
    · rw [if_neg hv, if_neg fun h => hv h.1]

theorem Quiet.sameFlags (h : Quiet a a') : SameFlags a a' :=
  ⟨h.flag, fun v => by rw [pairsOf, h.frame]; rfl, by rw [h.frame]⟩

theorem sameFlags_pushPc {view_id ctx_id pc : ℕ} (h : pushPc a view_id ctx_id pc = some a') :
    SameFlags a a' := by
  obtain ⟨hframe, -⟩ := pushPc_eq_some h
  rw [hframe]
  exact ⟨fun _ => rfl, fun _ => rfl, rfl⟩

theorem sameFlags_recordAtenCopy {view_id : ℕ} (h : recordAtenCopy a view_id = some a') :
    SameFlags a a' := by
  rw [recordAtenCopy_frame h]
  exact ⟨fun _ => rfl, fun _ => rfl, rfl⟩

theorem sameFlags_pushDelayed {d : DelayedTrace} {object_type : MemObject} {view_id c pc : ℕ}
    (h : pushDelayed a d object_type view_id c pc = some a') : SameFlags a a' := by
  have hpushed : SameFlags a
      (pushCallPath a view_id { d.python_state with object_type := object_type }) :=
    ⟨fun _ => rfl, fun _ => rfl, rfl⟩
  exact hpushed.trans (sameFlags_pushPc h)

/-- The flag of a node is set to a value. -/
theorem flagOf_setMemoryWritePc {ptr : ℕ} {value : Bool}
    (h : setMemoryWritePc a ptr value = some a') (p : ℕ) :
    flagOf a' p = if p = ptr then (flagOf a p).map fun _ => value else flagOf a p := by
  obtain ⟨c, hc, rfl⟩ := Option.map_eq_some_iff.1 h
  simp only [flagOf, OrderedMap.find?_set]
  split_ifs with hp
  · rw [hp, hc]
    rfl
  · rfl

theorem pairsOf_setMemoryWritePc {ptr : ℕ} {value : Bool}
    (h : setMemoryWritePc a ptr value = some a') (v : ℕ) : pairsOf a' v = pairsOf a v := by
  rw [pairsOf, (onlyCells_setMemoryWritePc h).frame]
  rfl

/-- A pair is appended. -/
theorem pairsOf_pushWriteAfterWrite (a : Attribution) (view_id pc v : ℕ) :
    pairsOf (pushWriteAfterWrite a view_id pc) v =
      if v = view_id then pairsOf a v ++ [(a.aten_copy_pystate_hash, pc)] else pairsOf a v := by
  simp only [pairsOf, pushWriteAfterWrite, OrderedMap.findD_set]
  split_ifs with hv
  · rw [hv]
  · rfl

/-- A pair is appended if a flag is set. -/
theorem pairsOf_pushIf (a : Attribution) (flag : Bool) (view_id pc v : ℕ) :
    pairsOf (if flag then pushWriteAfterWrite a view_id pc else a) v =
      if v = view_id ∧ flag = true then pairsOf a v ++ [(a.aten_copy_pystate_hash, pc)]
      else pairsOf a v := by
  split_ifs with hflag hv hv
  · rw [pairsOf_pushWriteAfterWrite, if_pos hv.1]
  · rw [pairsOf_pushWriteAfterWrite, if_neg fun h => hv ⟨h, hflag⟩]
  · exact absurd hv.2 hflag
  · rfl

/-- Whether a pair is appended or not, the flags of the nodes stay. -/
theorem flagOf_pushIf (a : Attribution) (flag : Bool) (view_id pc p : ℕ) :
    flagOf (if flag then pushWriteAfterWrite a view_id pc else a) p = flagOf a p := by
  split_ifs <;> rfl

/-! ## The loops -/

/-- A hit in the CPU mode. -/
theorem accessed_recordHit {trace : Trace} {ctx_id pc : ℕ} {n : ViewNode}
    (h : recordHit trace ctx_id pc a n = some a') :
    Accessed ⟨.cpu, n.view_id, pc ∈ trace.write_pcs, a.aten_copy_pystate_hash, pc⟩ n.ptr a a' := by
  obtain ⟨a₁, h₁, h⟩ := Option.bind_eq_some_iff.1 h
  obtain ⟨a₂, h₂, h₃⟩ := Option.bind_eq_some_iff.1 h
  have hsame := sameFlags_pushPc h₁
  refine Accessed.of_same hsame ?_ (sameFlags_recordAtenCopy h₃)
  rw [← hsame.hash]
  split_ifs at h₂ with hwrite
  · -- A write looks for a dead write, and leaves the flag.
    obtain ⟨c, hc, rfl⟩ := Option.map_eq_some_iff.1 h₂
    have hflag : flagOf a₁ n.ptr = some c.is_memory_write_pc := by
      rw [flagOf, hc]
      rfl
    refine ⟨fun p => ?_, fun v => ?_, by split_ifs <;> rfl⟩
    · rw [flagOf_pushIf]
      split_ifs with hp
      · simp [updateFlag, hwrite]
      · rfl
    · rw [hflag, pairsOf_pushIf]
      simp only [ViewAccess.IsKernelWrite, hwrite, decide_true, and_true, ne_eq, reduceCtorEq,
        not_false_eq_true, true_and, Option.some.injEq]
  · -- A read clears the flag.
    refine ⟨fun p => ?_, fun v => ?_, ?_⟩
    · rw [flagOf_setMemoryWritePc h₂]
      simp only [updateFlag, hwrite, decide_false, Bool.and_false]
    · rw [pairsOf_setMemoryWritePc h₂, if_neg]
      rintro ⟨-, hkernel, -⟩
      exact hwrite (of_decide_eq_true hkernel.2)
    · rw [(onlyCells_setMemoryWritePc h₂).frame]

/-- A hit in the on-GPU mode of a view with a call path. -/
theorem accessed_recordGpuHit {flag ctx_id pc ptr : ℕ} {n : ViewNode}
    (hn : deref roots ptr = some n) (hpath : ¬(a.call_path_map.find? n.view_id).isNone)
    (h : recordGpuHit roots flag ctx_id pc a ptr = some a') :
    Accessed ⟨.gpu, n.view_id, flag = WRITE, a.aten_copy_pystate_hash, pc⟩ n.ptr a a' := by
  simp only [recordGpuHit, hn, Option.bind_some] at h
  rw [if_neg hpath] at h
  obtain ⟨a₁, h₁, h⟩ := Option.bind_eq_some_iff.1 h
  obtain ⟨a₂, h₂, h₃⟩ := Option.bind_eq_some_iff.1 h
  have hsame := sameFlags_pushPc h₁
  refine Accessed.of_same hsame ?_ (sameFlags_recordAtenCopy h₃)
  rw [← hsame.hash]
  split_ifs at h₂ with hwrite
  · -- A write looks for a dead write, and sets the flag.
    obtain ⟨c, hc, h₂⟩ := Option.bind_eq_some_iff.1 h₂
    have hflag : flagOf a₁ n.ptr = some c.is_memory_write_pc := by
      rw [flagOf, hc]
      rfl
    refine ⟨fun p => ?_, fun v => ?_, ?_⟩
    · rw [flagOf_setMemoryWritePc h₂]
      rw [flagOf_pushIf]
      simp only [updateFlag, hwrite, decide_true, Bool.or_true]
    · rw [pairsOf_setMemoryWritePc h₂, hflag, pairsOf_pushIf]
      simp only [ViewAccess.IsKernelWrite, hwrite, decide_true, and_true, ne_eq, reduceCtorEq,
        not_false_eq_true, true_and, Option.some.injEq]
    · rw [(onlyCells_setMemoryWritePc h₂).frame]
      change (if c.is_memory_write_pc then pushWriteAfterWrite a₁ n.view_id pc
        else a₁).aten_copy_pystate_hash = _
      split_ifs <;> rfl
  · -- A read leaves it.
    cases h₂
    refine ⟨fun p => ?_, fun v => ?_, rfl⟩
    · split_ifs
      · simp [updateFlag, hwrite]
      · rfl
    · rw [if_neg]
      rintro ⟨-, hkernel, -⟩
      exact hwrite (of_decide_eq_true hkernel.2)

/-- A delayed access of a view. -/
theorem accessed_delayed {d : DelayedTrace} {c pc : ℕ} {n : ViewNode}
    (h : ((pushDelayed a d .VIEW_NODE n.view_id c pc).bind fun a =>
      setMemoryWritePc a n.ptr (pc ∈ d.write_pcs)) = some a') :
    Accessed ⟨.delayed, n.view_id, pc ∈ d.write_pcs, a.aten_copy_pystate_hash, pc⟩ n.ptr a a' := by
  obtain ⟨a₁, h₁, h₂⟩ := Option.bind_eq_some_iff.1 h
  have hsame := sameFlags_pushDelayed h₁
  refine Accessed.of_same hsame ?_ (SameFlags.refl a')
  refine ⟨fun p => ?_, fun v => ?_, ?_⟩
  · rw [flagOf_setMemoryWritePc h₂]
    rfl
  · rw [pairsOf_setMemoryWritePc h₂, if_neg]
    rintro ⟨-, hkernel, -⟩
    exact hkernel.1 rfl
  · rw [(onlyCells_setMemoryWritePc h₂).frame]

/-- The loop over the nodes that a lookup hits. -/
theorem Flagged.accessedHits {f : Attribution → ViewNode → Option Attribution} {loop : AccessLoop}
    {write : Bool} {pc : ℕ}
    (hstep : ∀ a n a', f a n = some a' →
      Accessed ⟨loop, n.view_id, write, a.aten_copy_pystate_hash, pc⟩ n.ptr a a')
    {hits : List ViewNode} (hhits : ∀ n ∈ hits, n ∈ Tree.nodesOf s.roots)
    (hdistinct : Distinct s.roots) (h : Flagged s.roots log a)
    (hfold : hits.foldlM f a = some a') :
    Flagged s.roots (log ++ hitAccesses loop write a.aten_copy_pystate_hash pc hits) a' ∧
      a'.aten_copy_pystate_hash = a.aten_copy_pystate_hash := by
  induction hits generalizing a log with
  | nil =>
    cases hfold
    rw [hitAccesses, List.map_nil, List.append_nil]
    exact ⟨h, rfl⟩
  | cons n hits ih =>
    obtain ⟨a₁, h₁, hfold⟩ := Option.bind_eq_some_iff.1 hfold
    obtain ⟨hn, hhits⟩ := List.forall_mem_cons.1 hhits
    have haccess := hstep a n a₁ h₁
    obtain ⟨hrest, hhash⟩ := ih hhits (h.accessed hdistinct hn rfl haccess) hfold
    rw [haccess.hash, List.append_assoc] at hrest
    exact ⟨hrest, hhash.trans haccess.hash⟩

/-- A turn of the loop over the delayed accesses. -/
theorem Flagged.after_delayedAccess {d : DelayedTrace} {access : ℕ × ℕ × ℕ}
    {st st' : Attribution × OrderedMap ℕ (List ViewNode)} (hdistinct : Distinct s.roots)
    (h : Flagged s.roots log st.1) (hstep : delayedAccess env s d st access = some st') :
    Flagged s.roots (log ++ delayedAccessLog env s d st access) st'.1 := by
  obtain ⟨a, cache⟩ := st
  obtain ⟨pc, mem_start, c⟩ := access
  unfold delayedAccess at hstep
  unfold delayedAccessLog
  cases hcache : cache.find? pc with
  | some ns =>
    simp only [hcache, Option.map_eq_some_iff] at hstep
    obtain ⟨a₁, h₁, rfl⟩ := hstep
    simp only [List.append_nil]
    exact h.same (quiet_updateNodeTotalAccess h₁).sameFlags
  | none =>
    simp only [hcache, Option.bind_eq_some_iff, Option.map_eq_some_iff] at hstep
    obtain ⟨⟨hits, cells⟩, hlookup, a₁, h₁, a₂, h₂, a₃, h₃, rfl⟩ := hstep
    simp only [hlookup, Option.map_some, Option.getD_some]
    have hsame := (quiet_lookup hlookup h₁).sameFlags
    have hall := ((h.same hsame).accessedHits (fun _ _ _ h => accessed_delayed h)
      (mem_nodesOf_of_lookup hlookup) hdistinct h₂).1
    rw [hsame.hash] at hall
    -- The blocks that hold an access without a hit have no flags.
    refine hall.same ?_
    split_ifs at h₃
    · exact foldlM_rel SameFlags.refl SameFlags.trans
        (fun _ _ _ _ h => sameFlags_pushDelayed h) h₃
    · cases h₃
      exact SameFlags.refl _

/-- The flags and the pairs follow the accesses of a kernel. -/
theorem flagged_kernelRule (hdistinct : Distinct s.roots) (ctx_id : ℕ) :
    KernelRule s ctx_id fun a log => Flagged s.roots log a where
  quiet h hquiet := h.same hquiet.sameFlags
  hit hn h hstep := h.accessed hdistinct hn rfl (accessed_recordHit hstep)
  gpuHit hn hpath h hstep :=
    h.accessed hdistinct (deref_eq_some hn).1 rfl (accessed_recordGpuHit hn hpath hstep)

/-- `kernel_op_callback`. -/
theorem Flagged.after_kernelOpCallback {ctx_id : ℕ} {frames : List PythonState}
    (hdistinct : Distinct s.roots) (h : Flagged s.roots log s.attribution)
    (hstep : kernelOpCallback env s ctx_id frames = some a') :
    Flagged s.roots (log ++ kernelLog env s ctx_id frames) a' :=
  (flagged_kernelRule hdistinct ctx_id).after_kernelOpCallback ⟨h.flag, h.pairs⟩ hstep

/-- `map_delayed_access`. -/
theorem Flagged.after_mapDelayedAccess (hdistinct : Distinct s.roots)
    (h : Flagged s.roots log s.attribution) (hstep : mapDelayedAccess env s = some a') :
    Flagged s.roots (log ++ delayedLog env s) a' := by
  unfold mapDelayedAccess at hstep
  unfold delayedLog
  cases hd : s.attribution.delayed_trace with
  | none =>
    simp only [hd, Option.some.injEq] at hstep
    rw [← hstep, List.append_nil]
    exact h
  | some d =>
    simp only [hd] at hstep ⊢
    obtain ⟨st, hfold, rfl⟩ := Option.map_eq_some_iff.1 hstep
    rw [← run_eq_foldlM] at hfold
    have hall := runLog_invariant (J := fun st log => Flagged s.roots log st.1)
      (fun _ _ _ _ h hstep => h.after_delayedAccess hdistinct hstep) h hfold
    exact ⟨hall.flag, hall.pairs⟩

end Flags

/-! ## The events -/

/-- No access is processed: the nodes keep their flags, and a node that is added has a new id and a
flag that is not set. -/
structure Untouched (env : Env) (s s' : TorchView) : Prop where
  node : ∀ n ∈ Tree.nodesOf s'.roots,
    n ∈ Tree.nodesOf s.roots ∧ flagOf s'.attribution n.ptr = flagOf s.attribution n.ptr ∨
      ¬Issued env s n.view_id ∧ flagOf s'.attribution n.ptr = some false
  pairs : ∀ v, pairsOf s'.attribution v = pairsOf s.attribution v
  op_ids : s.op_ids ≤ s'.op_ids
  ongpu : s'.torch_view_ongpu = s.torch_view_ongpu
  delayed : s'.attribution.delayed_trace = s.attribution.delayed_trace

/-- The accesses of a run make the flags and the pairs of the state that it reaches. -/
structure FlagInv (env : Env) (ongpu : Bool) (s : TorchView) (log : List ViewAccess) : Prop where
  inv : Inv env s
  flagged : Flagged s.roots log s.attribution
  issued : ∀ b ∈ log, Issued env s b.view_id
  mode : ∀ b ∈ log, InMode ongpu b
  torch_view_ongpu : s.torch_view_ongpu = ongpu
  delayed : ongpu = true → s.attribution.delayed_trace = none

section Events

variable {env : Env} {s s' : TorchView} {ongpu : Bool} {log : List ViewAccess}

/-- The forest stays, and with it the flags. -/
theorem Untouched.of_roots (hroots : s'.roots = s.roots)
    (hsame : SameFlags s.attribution s'.attribution) (hop : s.op_ids ≤ s'.op_ids)
    (hgpu : s'.torch_view_ongpu = s.torch_view_ongpu)
    (hdelayed : s'.attribution.delayed_trace = s.attribution.delayed_trace) :
    Untouched env s s' :=
  ⟨fun n hn => .inl ⟨hroots ▸ hn, hsame.flag n.ptr⟩, hsame.pairs, hop, hgpu, hdelayed⟩

theorem Untouched.refl (s : TorchView) : Untouched env s s :=
  Untouched.of_roots rfl (SameFlags.refl _) le_rfl rfl rfl

theorem Untouched.trans {s₁ s₂ s₃ : TorchView} (h : Untouched env s₁ s₂)
    (h' : Untouched env s₂ s₃) : Untouched env s₁ s₃ where
  node n hn := by
    rcases h'.node n hn with ⟨hn₂, hflag⟩ | ⟨hid, hflag⟩
    · rcases h.node n hn₂ with ⟨hn₁, hflag₁⟩ | ⟨hid, hflag₁⟩
      · exact .inl ⟨hn₁, hflag.trans hflag₁⟩
      · exact .inr ⟨hid, hflag.trans hflag₁⟩
    · exact .inr ⟨fun hold => hid (hold.mono h.op_ids), hflag⟩
  pairs v := (h'.pairs v).trans (h.pairs v)
  op_ids := h.op_ids.trans h'.op_ids
  ongpu := h'.ongpu.trans h.ongpu
  delayed := h'.delayed.trans h.delayed

/-- A node is added. -/
theorem untouched_newNode {n : ViewNode} {t : TensorData} {is_sorted : Bool} {state : PyStateCTX}
    {roots : List (Tree ViewNode)} (h : Inv env s) (hptr : n.ptr = s.next_ptr)
    (hid : ¬Issued env s n.view_id)
    (hnodes : ∀ m ∈ Tree.nodesOf roots, m = n ∨ m ∈ Tree.nodesOf s.roots) :
    Untouched env s
      { newNode s n t is_sorted state with op_ids := s.op_ids + 1, roots := roots } where
  node m hm := by
    simp only [flagOf, newNode, OrderedMap.find?_set]
    rcases hnodes m hm with rfl | hold
    · exact .inr ⟨hid, by simp⟩
    · rw [if_neg fun heq => absurd (h.ptr_lt m hold) (by rw [heq, hptr]; exact lt_irrefl _)]
      exact .inl ⟨hold, rfl⟩
  pairs v := rfl
  op_ids := Nat.le_succ _
  ongpu := rfl
  delayed := rfl

/-- The handling of a tensor. -/
theorem untouched_updateTensor (hinj : Function.Injective env.update_op_id_func) (h : Inv env s)
    {frames : List PythonState} {t : TensorData} {p : Option ℕ}
    (hstep : updateTensor env frames s t = some (p, s')) : Untouched env s s' := by
  have hupdated := updated_of_updateViewForest hstep
  generalize hs₁ : ({ s with op_ids := s.op_ids + 1 } : TorchView) = s₁ at hupdated
  cases hupdated with
  | found hroot hnode =>
    subst hs₁
    exact Untouched.of_roots rfl ⟨fun _ => rfl, fun _ => rfl, rfl⟩ (Nat.le_succ _) rfl rfl
  | orphan hroot hnode hop hfather =>
    subst hs₁
    exact Untouched.of_roots rfl (SameFlags.refl _) (Nat.le_succ _) rfl rfl
  | @view r op v n hroot hnode hop hfather hn =>
    subst hs₁
    have hid : ¬Issued env s n.view_id := by
      rw [hn]
      exact not_issued hinj
    refine untouched_newNode h (by rw [hn]; rfl) hid fun m hm => ?_
    obtain ⟨r', hr', hm⟩ := Tree.mem_nodesOf.1 hm
    obtain ⟨r₁, hr₁, rfl⟩ := List.mem_map.1 hr'
    rcases (Tree.mem_nodes_insertUnder _ _ _ _ _).1 hm with hm | ⟨rfl, -⟩
    · exact .inr (Tree.mem_nodesOf.2 ⟨r₁, hr₁, hm⟩)
    · exact .inl rfl
  | @root n hroot hn =>
    subst hs₁
    have hid : ¬Issued env s n.view_id := by
      rw [hn]
      exact not_issued hinj
    refine untouched_newNode h (by rw [hn]; rfl) hid fun m hm => ?_
    exact List.mem_cons.1 ((nodesOf_insertRoot_perm s.roots t.data_ptr n).mem_iff.1 hm)

/-- The loop at ENTER. -/
theorem untouched_onEnter (hinj : Function.Injective env.update_op_id_func) (h : Inv env s)
    {op : OpData} {frames : List PythonState} (hstep : onEnter env s op frames = some s') :
    Untouched env s s' := by
  have hpush : Untouched env s (pushOp s op) :=
    Untouched.of_roots rfl (SameFlags.refl _) le_rfl rfl rfl
  refine hpush.trans (foldlM_invariant (I := fun s₁ => (Inv env s₁ ∧
    s₁.torchview_memory_snapshot = ∅) ∧ Untouched env (pushOp s op) s₁)
    (fun s₁ input s₂ hs _ hstep => ?_) ⟨⟨h.after_pushOp op, rfl⟩, Untouched.refl _⟩ hstep).2
  refine ⟨hs.1.1.after_enterInput hinj hs.1.2 hstep, hs.2.trans ?_⟩
  unfold enterInput at hstep
  split_ifs at hstep
  · cases hstep
    exact Untouched.of_roots rfl (SameFlags.refl _) le_rfl rfl rfl
  · obtain ⟨⟨p, s₃⟩, h₃, rfl⟩ := Option.map_eq_some_iff.1 hstep
    exact (untouched_updateTensor hinj hs.1.1 h₃).trans
      (Untouched.of_roots rfl (SameFlags.refl _) le_rfl rfl rfl)

/-- The loop at EXIT, before the delayed accesses are mapped. -/
theorem untouched_exitState (hinj : Function.Injective env.update_op_id_func) (h : Inv env s)
    {op : OpData} {frames : List PythonState} (hstep : exitState env s op frames = some s') :
    Inv env s' ∧ Untouched env s s' := by
  unfold exitState at hstep
  split_ifs at hstep
  · cases hstep
    exact ⟨h, Untouched.refl _⟩
  · obtain ⟨s₁, h₁, rfl⟩ := Option.map_eq_some_iff.1 hstep
    refine ⟨h.after_exitOutputs hinj h₁, ?_⟩
    refine Untouched.trans (foldlM_invariant (I := fun s₁ => Inv env s₁ ∧ Untouched env s s₁)
      (fun s₁ t s₂ hs _ hstep => ?_) ⟨h, Untouched.refl _⟩ h₁).2
      (Untouched.of_roots rfl (SameFlags.refl _) le_rfl rfl rfl)
    unfold exitOutput at hstep
    split_ifs at hstep
    · cases hstep
      exact hs
    · obtain ⟨⟨p, s₃⟩, h₃, rfl⟩ := Option.map_eq_some_iff.1 hstep
      exact ⟨hs.1.after_updateTensor hinj h₃, hs.2.trans (untouched_updateTensor hinj hs.1 h₃)⟩

/-- A FREE. -/
theorem untouched_onFree (h : Inv env s) {mem : MemData} (hstep : onFree s mem = some s') :
    Untouched env s s' := by
  obtain ⟨s₁, h₁, rfl⟩ := Option.map_eq_some_iff.1 hstep
  obtain ⟨s₂, hdel, rfl⟩ := deleteForestTree_eq_some rfl h₁
  generalize u64 (mem.ptr + u64OfInt mem.total_allocated) = stop at hdel
  have hnodes : (Tree.nodesOf s.roots).Perm
      (Tree.nodesOf (removedRoots s.roots mem.ptr stop) ++
        Tree.nodesOf ((lowerBound s.roots mem.ptr).1 ++
          keptAbove mem.ptr stop (lowerBound s.roots mem.ptr).2)) := by
    rw [← Tree.nodesOf_append]
    exact (roots_perm_removed s.roots mem.ptr stop).flatMap_right _
  -- The nodes that are left share no identity with the deleted ones.
  obtain ⟨-, -, hptrs⟩ := List.nodup_append.1
    (List.map_append ▸ (hnodes.map ViewNode.ptr).nodup_iff.1 h.ptr_nodup)
  constructor
  · intro n hn
    refine .inl ⟨hnodes.mem_iff.2 (List.mem_append_right _ hn), ?_⟩
    have hcell := hdel.cells n.ptr fun hgone => hptrs _ hgone _ (List.mem_map_of_mem hn) rfl
    exact congrArg (Option.map NodeCell.is_memory_write_pc) hcell
  all_goals
    unfold unregisterMemoryBlock
    rw [hdel.frame]
  · exact fun _ => rfl
  · exact le_rfl
  · rfl
  · rfl

/-- The update of the snapshot only sorts dimensions. -/
theorem untouched_getRangeSize (hstep : getRangeSize s = some s') : Untouched env s s' := by
  unfold getRangeSize at hstep
  split_ifs at hstep
  · refine foldlM_rel Untouched.refl Untouched.trans (fun s₁ e s₂ _ hstep => ?_) hstep
    rcases updataTorchviewMemorySnapshot_eq_some hstep with rfl | ⟨ptr, n, c, hp, hn, hc, hdims⟩
    · exact Untouched.refl _
    · rw [hp] at hstep
      rw [updataTorchviewMemorySnapshot_of_dims hn hc hdims hstep]
      exact Untouched.of_roots rfl (quiet_set hc (is_memory_write_pc_sort c)).sameFlags le_rfl
        rfl rfl
  · cases hstep
    exact Untouched.refl _

/-- The accesses so far make the flags after an event that processes none. -/
theorem FlagInv.untouched (h : FlagInv env ongpu s log) (hinv : Inv env s')
    (hs : Untouched env s s') : FlagInv env ongpu s' log where
  inv := hinv
  flagged := by
    refine ⟨fun n hn => ?_, fun v => (hs.pairs v).trans (h.flagged.pairs v)⟩
    rcases hs.node n hn with ⟨hold, hflag⟩ | ⟨hid, hflag⟩
    · exact hflag.trans (h.flagged.flag n hold)
    · -- Nothing has accessed a view whose id is new.
      have hnone : accessesTo n.view_id log = [] := by
        refine List.filter_eq_nil_iff.2 fun b hb heq => hid ?_
        exact of_decide_eq_true heq ▸ h.issued b hb
      rw [hflag, hnone]
      rfl
  issued b hb := (h.issued b hb).mono hs.op_ids
  mode := h.mode
  torch_view_ongpu := hs.ongpu.trans h.torch_view_ongpu
  delayed hgpu := hs.delayed.trans (h.delayed hgpu)

/-- The accesses so far and those of an event that changes the attribution make the flags after
it. -/
theorem FlagInv.attribution (h : FlagInv env ongpu s log) {a : Attribution}
    {more : List ViewAccess} (hkept : Kept s.attribution a)
    (hflagged : Flagged s.roots (log ++ more) a) (hmore : ∀ b ∈ more, OfForest s ongpu b)
    (hdelayed : ongpu = true → a.delayed_trace = none) :
    FlagInv env ongpu { s with attribution := a } (log ++ more) where
  inv := h.inv.frame' rfl rfl rfl le_rfl hkept rfl rfl (List.Subset.refl _)
  flagged := hflagged
  issued b hb := by
    rcases List.mem_append.1 hb with hb | hb
    · exact h.issued b hb
    · obtain ⟨⟨n, hn, heq⟩, -⟩ := hmore b hb
      exact heq ▸ h.inv.id_issued n hn
  mode b hb := by
    rcases List.mem_append.1 hb with hb | hb
    · exact h.mode b hb
    · exact (hmore b hb).2
  torch_view_ongpu := h.torch_view_ongpu
  delayed := hdelayed

/-- The on-GPU mode delays nothing. -/
theorem delayed_trace_kernelOpCallbackGpu {a a' : Attribution} {ctx_id : ℕ}
    (h : kernelOpCallbackGpu s a ctx_id = some a') : a'.delayed_trace = a.delayed_trace := by
  have hhit : ∀ {roots flag pc ptr} {a a' : Attribution},
      recordGpuHit roots flag ctx_id pc a ptr = some a' → a'.delayed_trace = a.delayed_trace := by
    intro roots flag pc ptr a a' h
    obtain ⟨n, -, h⟩ := Option.bind_eq_some_iff.1 h
    split_ifs at h
    · cases h
      rfl
    all_goals
      obtain ⟨a₁, h₁, h⟩ := Option.bind_eq_some_iff.1 h
      obtain ⟨a₂, h₂, h₃⟩ := Option.bind_eq_some_iff.1 h
      rw [recordAtenCopy_frame h₃]
      rw [(pushPc_eq_some h₁).1] at h₂
    · obtain ⟨c, -, h₂⟩ := Option.bind_eq_some_iff.1 h₂
      rw [(onlyCells_setMemoryWritePc h₂).frame]
      split_ifs <;> rfl
    · cases h₂
      rfl
  have hrow : ∀ {dict flag r_i} {a a' : Attribution},
      kernelRow s dict flag ctx_id a r_i = some a' → a'.delayed_trace = a.delayed_trace := by
    intro dict flag r_i a a' h
    obtain ⟨a₁, h₁, h⟩ := Option.bind_eq_some_iff.1 h
    have hcells : a₁.delayed_trace = a.delayed_trace := by
      rw [(onlyCells_updateNodeTotalAccess h₁).frame]
    refine Eq.trans ?_ hcells
    exact foldlM_invariant (I := fun a₂ => a₂.delayed_trace = a₁.delayed_trace)
      (fun _ _ _ hs _ h => (hhit h).trans hs) rfl h
  obtain ⟨dict, -, h⟩ := Option.bind_eq_some_iff.1 h
  split_ifs at h
  · cases h
    rfl
  · obtain ⟨a₁, h₁, h₂⟩ := Option.bind_eq_some_iff.1 h
    have hread : a₁.delayed_trace = a.delayed_trace :=
      foldlM_invariant (I := fun a₁ => a₁.delayed_trace = a.delayed_trace)
        (fun _ _ _ hs _ h => (hrow h).trans hs) rfl h₁
    exact foldlM_invariant (I := fun a₂ => a₂.delayed_trace = a.delayed_trace)
      (fun _ _ _ hs _ h => (hrow h).trans hs) hread h₂

/-- The accesses so far and those of an event make the flags and the pairs after it. -/
theorem FlagInv.after_step (hinj : Function.Injective env.update_op_id_func)
    (h : FlagInv env ongpu s log) {e : Event} (hstep : step env s e = some s') :
    FlagInv env ongpu s' (log ++ eventLog env s e) := by
  have hinv := h.inv.after_step hinj hstep
  have hdistinct : Distinct s.roots := ⟨h.inv.ptr_nodup, h.inv.id_nodup⟩
  -- An event that processes no access.
  have hquiet : Untouched env s s' → FlagInv env ongpu s' (log ++ []) := fun hs => by
    rw [List.append_nil]
    exact h.untouched hinv hs
  cases e with
  | kernelOp ctx_id frames =>
    obtain ⟨a, ha, rfl⟩ := Option.map_eq_some_iff.1 hstep
    have hlog := ofForest_kernelLog env s ctx_id frames
    rw [h.torch_view_ongpu] at hlog
    refine h.attribution (kept_kernelOpCallback ha)
      (h.flagged.after_kernelOpCallback hdistinct ha) hlog fun hgpu => ?_
    simp only [kernelOpCallback, h.torch_view_ongpu, hgpu, if_true] at ha
    rw [delayed_trace_kernelOpCallbackGpu ha]
    exact h.delayed hgpu
  | exit op frames =>
    obtain ⟨s₁, h₁, hrest⟩ := Option.bind_eq_some_iff.1 hstep
    obtain ⟨a, ha, rfl⟩ := Option.map_eq_some_iff.1 hrest
    change exitState env s op frames = some s₁ at h₁
    obtain ⟨hinv₁, huntouched⟩ := untouched_exitState hinj h.inv h₁
    have hexit := h.untouched hinv₁ huntouched
    have hdistinct₁ : Distinct s₁.roots := ⟨hinv₁.ptr_nodup, hinv₁.id_nodup⟩
    simp only [eventLog, h₁, Option.map_some, Option.getD_some]
    refine hexit.attribution (kept_mapDelayedAccess ha)
      (hexit.flagged.after_mapDelayedAccess hdistinct₁ ha) (fun b hb => ?_) fun hgpu => ?_
    · -- The delayed accesses are those of the CPU mode.
      cases ongpu with
      | false => exact ofForest_delayedLog env s₁ b hb
      | true => simp [delayedLog, hexit.delayed rfl] at hb
    · simp only [mapDelayedAccess, hexit.delayed hgpu, Option.some.injEq] at ha
      rw [← ha]
      exact hexit.delayed hgpu
  | enter op frames => exact hquiet (untouched_onEnter hinj h.inv hstep)
  | free mem => exact hquiet (untouched_onFree h.inv hstep)
  | getRangeSize => exact hquiet (untouched_getRangeSize hstep)
  | alloc mem =>
    cases hstep
    exact hquiet (Untouched.of_roots rfl (SameFlags.refl _) (Nat.le_succ _) rfl rfl)
  | analysisBegin dict =>
    cases hstep
    refine hquiet ⟨fun n hn => .inl ⟨hn, ?_⟩, fun v => ?_, le_rfl, rfl, ?_⟩
    all_goals
      simp only [analysisBegin]
      split_ifs <;> rfl
  | analysisEnd =>
    cases hstep
    refine hquiet ⟨fun n hn => .inl ⟨hn, ?_⟩, fun v => ?_, le_rfl, rfl, ?_⟩
    all_goals
      simp only [analysisEnd]
      split_ifs <;> rfl
  | unitAccess pc addr flags =>
    obtain ⟨a, ha, rfl⟩ := Option.map_eq_some_iff.1 hstep
    obtain ⟨t, -, rfl⟩ := Option.map_eq_some_iff.1 ha
    refine hquiet ⟨fun n hn => .inl ⟨hn, ?_⟩, fun v => ?_, le_rfl, rfl, ?_⟩
    all_goals
      simp only
      split_ifs <;> rfl

/-- In every run the pairs of every view are those of its dead writes exactly if every write of a
kernel finds the flag current. -/
theorem deadWrites_iff (hinj : Function.Injective env.update_op_id_func) {es : List Event}
    (hrun : run (step env) (initial ongpu) es = some s) :
    (∀ v, s.attribution.write_after_write_map.findD v [] =
      deadWrites lastIsWrite [] (accessesTo v (accessLog env ongpu es))) ↔
        ∀ v, WritesCurrent ongpu (accessesTo v (accessLog env ongpu es)) := by
  have hstart : FlagInv env ongpu (initial ongpu) [] :=
    ⟨inv_initial env ongpu, ⟨by simp [initial], fun _ => rfl⟩, by simp, by simp, rfl, fun _ => rfl⟩
  have hend := runLog_invariant (fun _ _ _ _ h hstep => h.after_step hinj hstep) hstart hrun
  rw [List.nil_append] at hend
  change FlagInv env ongpu s (accessLog env ongpu es) at hend
  refine forall_congr' fun v => ?_
  have hmode : ∀ b ∈ accessesTo v (accessLog env ongpu es), InMode ongpu b := fun b hb =>
    hend.mode b (List.mem_of_mem_filter hb)
  rw [← deadWrites_flagAfter_iff hmode, ← hend.flagged.pairs v]
  rfl

end Events

/-- A dictionary of one range, hit by the first instruction that reads and by the first that
writes. -/
def oneRangeDict : TorchviewDict where
  function_pc_offset := 0
  view_range_size := 1
  start_end _ := ⟨1000, 1004⟩
  current_read_pc_size := 1
  current_write_pc_size := 1
  read_pc_range_bit_map i := if i = 0 then 1 else 0
  write_pc_range_bit_map i := if i = 0 then 1 else 0

/-- A kernel of the CPU mode on a vector: an access for each instruction. -/
def cpuKernel (accesses : List (ℕ × ℕ)) : List Event :=
  .enter ⟨[], [vector 0 1000 2]⟩ [] :: .analysisBegin oneRangeDict ::
    accesses.map (fun access => .unitAccess access.1 1000 access.2) ++ [.kernelOp 7 []]

/-- Between two writes of the vector is a read. -/
theorem deadWrites_cpuKernel : ∃ s, run (step countingEnv) (initial false)
      (cpuKernel [(8, WRITE), (16, READ), (24, WRITE)]) = some s ∧
    ∀ v, s.attribution.write_after_write_map.findD v [] =
      deadWrites lastIsWrite [] (accessesTo v (accessLog countingEnv false
        (cpuKernel [(8, WRITE), (16, READ), (24, WRITE)]))) := by
  have hsome : (run (step countingEnv) (initial false)
      (cpuKernel [(8, WRITE), (16, READ), (24, WRITE)])).isSome = true := by decide +kernel
  obtain ⟨s, hrun⟩ := Option.isSome_iff_exists.1 hsome
  refine ⟨s, hrun, (deadWrites_iff countingEnv_injective hrun).2 fun v => ?_⟩
  have hlog : accessLog countingEnv false (cpuKernel [(8, WRITE), (16, READ), (24, WRITE)]) =
      [⟨.cpu, 1, true, 0, 8⟩, ⟨.cpu, 1, false, 0, 16⟩, ⟨.cpu, 1, true, 0, 24⟩] := by
    decide +kernel
  rw [hlog]
  by_cases hv : v = 1
  · subst hv
    exact (deadWrites_flagAfter_iff (by simp [accessesTo, InMode])).1 (by decide)
  · have hnone : accessesTo v [⟨.cpu, 1, true, 0, 8⟩, ⟨.cpu, 1, false, 0, 16⟩,
        ⟨.cpu, 1, true, 0, 24⟩] = [] := by simp [accessesTo, Ne.symm hv]
    rw [hnone]
    exact fun before b later heq => absurd heq (by simp)

/-- Two kernels of the on-GPU mode, each of which reads the vector and then writes it. -/
def gpuKernels : List Event :=
  [.enter ⟨[], [vector 0 1000 2]⟩ [], .getRangeSize, .analysisBegin oneRangeDict, .kernelOp 7 [],
    .kernelOp 7 []]

/-- In the CPU mode a write after a write is not found, and in the on-GPU mode a write after a read
is found dead. -/
theorem not_deadWrites :
    (¬∀ (es : List Event) (s : TorchView) (v : ℕ),
      run (step countingEnv) (initial false) es = some s →
        s.attribution.write_after_write_map.findD v [] =
          deadWrites lastIsWrite [] (accessesTo v (accessLog countingEnv false es))) ∧
    ¬∀ (es : List Event) (s : TorchView) (v : ℕ),
      run (step countingEnv) (initial true) es = some s →
        s.attribution.write_after_write_map.findD v [] =
          deadWrites lastIsWrite [] (accessesTo v (accessLog countingEnv true es)) := by
  constructor
  · intro hall
    have hsome : (run (step countingEnv) (initial false)
        (cpuKernel [(8, WRITE), (16, WRITE)])).any
          (fun s => s.attribution.write_after_write_map.findD 1 [] = []) = true := by
      decide +kernel
    obtain ⟨s, hrun, hpairs⟩ := (Option.any_eq_true _ _).1 hsome
    have hdead : deadWrites lastIsWrite [] (accessesTo 1 (accessLog countingEnv false
        (cpuKernel [(8, WRITE), (16, WRITE)]))) = [(0, 16)] := by decide +kernel
    have heq := hall _ s 1 hrun
    rw [hdead, of_decide_eq_true hpairs] at heq
    cases heq
  · intro hall
    have hsome : (run (step countingEnv) (initial true) gpuKernels).any
        (fun s => s.attribution.write_after_write_map.findD 1 [] = [(0, 0)]) = true := by
      decide +kernel
    obtain ⟨s, hrun, hpairs⟩ := (Option.any_eq_true _ _).1 hsome
    have hdead : deadWrites lastIsWrite []
        (accessesTo 1 (accessLog countingEnv true gpuKernels)) = [] := by decide +kernel
    have heq := hall _ s 1 hrun
    rw [hdead, of_decide_eq_true hpairs] at heq
    cases heq

end TenProf.TorchView
