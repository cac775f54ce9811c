import TenProf.TorchView.AccessLog
import TenProf.TorchView.History

/-!
# The copies that are detected

`analysis_begin` turns the detection of a copy on when `aten::copy_` is the operation on top.
`kernel_op_callback` then looks for the target and the source among the views that the kernel
accesses, by the index of their last call paths, and `analysis_end` turns the detection off once
there is a source. A detection that stays on takes up the accesses of a later kernel. Every entry of
`device_view_copy_map` is right in a run whose kernels find no detection but their own
(`allRightCopies`).
-/

namespace TenProf.TorchView

open GpuPatch

/-! ## What a kernel detects -/

/-- The operation whose copies are detected. -/
def atenCopy : CString := "aten::copy_".toList

/-- The index of the last call path of a view. -/
def callIndex (a : Attribution) (view_id : ℕ) : Option ℤ :=
  (a.call_path_map.findD view_id []).getLast?.map PyStateCTX.index

/-- Target and source after an access of a view, from those before it; 0 stands for neither. -/
def notePair (index : ℕ → Option ℤ) (pair : ℕ × ℕ) (view_id : ℕ) : ℕ × ℕ :=
  if pair.1 = 0 ∨ pair.2 = 0 then
    (if index view_id = some 0 then view_id else pair.1,
      if index view_id = some 1 then view_id else pair.2)
  else pair

/-- An entry of `device_view_copy_map`. -/
def Copied (a : Attribution) (hash tar src : ℕ) : Prop :=
  (a.device_view_copy_map.findD hash ∅).find? tar = some src

/-- The detection is on, and has not found both views. -/
def Pending (a : Attribution) : Prop :=
  a.is_aten_copy_domain ∧ (a.aten_copy_tar = 0 ∨ a.aten_copy_src = 0)

instance (a : Attribution) : Decidable (Pending a) := by
  unfold Pending
  infer_instance

/-- The members that the detection reads and writes. -/
def copyMembers (a : Attribution) : OrderedMap ℕ (OrderedMap ℕ ℕ) × Bool × ℕ × ℕ :=
  (a.device_view_copy_map, a.is_aten_copy_domain, a.aten_copy_tar, a.aten_copy_src)

/-- The detection has seen nothing. -/
structure SameCopies (a a' : Attribution) : Prop where
  index : ∀ v, callIndex a' v = callIndex a v
  members : copyMembers a' = copyMembers a

/-- What the detection of a kernel has come to after some accesses. -/
structure Detection (a₀ a : Attribution) (log : List ViewAccess) : Prop where
  index : ∀ v, callIndex a v = callIndex a₀ v
  domain : a.is_aten_copy_domain = a₀.is_aten_copy_domain
  pair : (a.aten_copy_tar, a.aten_copy_src) =
    if a₀.is_aten_copy_domain then
      (log.map ViewAccess.view_id).foldl (notePair (callIndex a₀))
        (a₀.aten_copy_tar, a₀.aten_copy_src)
    else (a₀.aten_copy_tar, a₀.aten_copy_src)
  copied : ∀ {hash tar src}, Copied a hash tar src → Copied a₀ hash tar src ∨
    Pending a₀ ∧ tar ≠ 0 ∧ src ≠ 0 ∧ (a.aten_copy_tar, a.aten_copy_src) = (tar, src)

section Kernel

variable {env : Env} {s : TorchView} {a a' a₀ : Attribution} {log : List ViewAccess}

theorem SameCopies.refl (a : Attribution) : SameCopies a a := ⟨fun _ => rfl, rfl⟩

theorem SameCopies.trans {a₁ a₂ a₃ : Attribution} (h : SameCopies a₁ a₂)
    (h' : SameCopies a₂ a₃) : SameCopies a₁ a₃ :=
  ⟨fun v => (h'.index v).trans (h.index v), h'.members.trans h.members⟩

/-- A pair with both views stays. -/
theorem foldl_notePair_of_both {index : ℕ → Option ℤ} {pair : ℕ × ℕ}
    (h : ¬(pair.1 = 0 ∨ pair.2 = 0)) (views : List ℕ) :
    views.foldl (notePair index) pair = pair := by
  induction views with
  | nil => rfl
  | cons v views ih => rwa [List.foldl_cons, notePair, if_neg h]

/-- A view of the pair was in it before or is accessed, with the index of its side. -/
theorem mem_of_foldl_notePair (index : ℕ → Option ℤ) (pair : ℕ × ℕ) (views : List ℕ) :
    ((views.foldl (notePair index) pair).1 = pair.1 ∨
      (views.foldl (notePair index) pair).1 ∈ views ∧
        index (views.foldl (notePair index) pair).1 = some 0) ∧
      ((views.foldl (notePair index) pair).2 = pair.2 ∨
        (views.foldl (notePair index) pair).2 ∈ views ∧
          index (views.foldl (notePair index) pair).2 = some 1) := by
  induction views using List.reverseRecOn with
  | nil => exact ⟨.inl rfl, .inl rfl⟩
  | append_singleton views v ih =>
    -- The last access replaces a view or leaves it.
    rw [List.foldl_append, List.foldl_cons, List.foldl_nil]
    generalize views.foldl (notePair index) pair = p at ih ⊢
    obtain ⟨htar, hsrc⟩ := ih
    have htar' : p.1 = pair.1 ∨ p.1 ∈ views ++ [v] ∧ index p.1 = some 0 :=
      htar.imp_right fun h => ⟨List.mem_append_left _ h.1, h.2⟩
    have hsrc' : p.2 = pair.2 ∨ p.2 ∈ views ++ [v] ∧ index p.2 = some 1 :=
      hsrc.imp_right fun h => ⟨List.mem_append_left _ h.1, h.2⟩
    have hv : v ∈ views ++ [v] := List.mem_append_right _ List.mem_cons_self
    unfold notePair
    by_cases hopen : p.1 = 0 ∨ p.2 = 0
    · rw [if_pos hopen]
      constructor
      · by_cases hindex : index v = some 0
        · rw [if_pos hindex]
          exact .inr ⟨hv, hindex⟩
        · rwa [if_neg hindex]
      · by_cases hindex : index v = some 1
        · rw [if_pos hindex]
          exact .inr ⟨hv, hindex⟩
        · rwa [if_neg hindex]
    · rw [if_neg hopen]
      exact ⟨htar', hsrc'⟩

theorem sameCopies_pushPc {view_id ctx_id pc : ℕ} (h : pushPc a view_id ctx_id pc = some a') :
    SameCopies a a' := by
  obtain ⟨c, hc, rfl⟩ := Option.map_eq_some_iff.1 h
  refine ⟨fun v => ?_, rfl⟩
  simp only [callIndex, OrderedMap.findD_set]
  split_ifs with hv
  · rw [hv, hc, List.getLast?_append, List.getLast?_singleton]
    rfl
  · rfl

theorem sameCopies_setMemoryWritePc {ptr : ℕ} {value : Bool}
    (h : setMemoryWritePc a ptr value = some a') : SameCopies a a' := by
  rw [(onlyCells_setMemoryWritePc h).frame]
  exact ⟨fun _ => rfl, rfl⟩

theorem sameCopies_pushWriteAfterWrite (a : Attribution) (view_id pc : ℕ) :
    SameCopies a (pushWriteAfterWrite a view_id pc) := ⟨fun _ => rfl, rfl⟩

/-- The detection starts with what is on record. -/
theorem Detection.start (a₀ : Attribution) : Detection a₀ a₀ [] :=
  ⟨fun _ => rfl, rfl, by split_ifs <;> rfl, .inl⟩

theorem Detection.same (h : Detection a₀ a log) (hsame : SameCopies a a') :
    Detection a₀ a' log := by
  obtain ⟨hmap, hdomain, htar, hsrc⟩ : a'.device_view_copy_map = a.device_view_copy_map ∧
      a'.is_aten_copy_domain = a.is_aten_copy_domain ∧ a'.aten_copy_tar = a.aten_copy_tar ∧
      a'.aten_copy_src = a.aten_copy_src := by simpa [copyMembers] using hsame.members
  refine ⟨fun v => (hsame.index v).trans (h.index v), hdomain.trans h.domain, ?_, ?_⟩
  · rw [htar, hsrc]
    exact h.pair
  · intro hash tar src hcopied
    rw [htar, hsrc]
    rw [Copied, hmap] at hcopied
    exact h.copied hcopied

/-- A detection that is pending was pending at the start. -/
theorem Detection.pending (h : Detection a₀ a log) (hpending : Pending a) : Pending a₀ := by
  have hdomain : a₀.is_aten_copy_domain = true := h.domain ▸ hpending.1
  refine ⟨hdomain, ?_⟩
  by_contra hboth
  have hpair := h.pair
  rw [if_pos hdomain, foldl_notePair_of_both hboth, Prod.mk.injEq] at hpair
  exact hboth (hpair.1 ▸ hpair.2 ▸ hpending.2)

/-- A hit of a pending detection: its pair is the next one, and is entered if it is complete. -/
theorem recordAtenCopy_of_pending {view_id : ℕ} (hpending : Pending a)
    (h : recordAtenCopy a view_id = some a') :
    (∀ v, callIndex a' v = callIndex a v) ∧ a'.is_aten_copy_domain = a.is_aten_copy_domain ∧
      (a'.aten_copy_tar, a'.aten_copy_src) =
        notePair (callIndex a) (a.aten_copy_tar, a.aten_copy_src) view_id ∧
      ∀ {hash tar src}, Copied a' hash tar src → Copied a hash tar src ∨
        tar ≠ 0 ∧ src ≠ 0 ∧ (a'.aten_copy_tar, a'.aten_copy_src) = (tar, src) := by
  have hopen : a.is_aten_copy_domain ∧ (a.aten_copy_tar = 0 ∨ a.aten_copy_src = 0) := hpending
  unfold recordAtenCopy at h
  rw [if_pos hopen] at h
  obtain ⟨c, hc, rfl⟩ := Option.map_eq_some_iff.1 h
  have hindex : callIndex a view_id = some c.index := by
    rw [callIndex, hc]
    rfl
  simp only [notePair, if_pos hpending.2, hindex, Option.some.injEq]
  generalize (if c.index = 0 then view_id else a.aten_copy_tar) = tar'
  generalize (if c.index = 1 then view_id else a.aten_copy_src) = src'
  split_ifs with hboth
  · refine ⟨fun _ => rfl, rfl, rfl, fun {hash tar src} hcopied => ?_⟩
    -- The one entry that may be new is that of the pair.
    simp only [Copied, OrderedMap.findD_set] at hcopied
    split_ifs at hcopied with hhash
    · rw [OrderedMap.find?_set] at hcopied
      split_ifs at hcopied with htar
      · obtain rfl := Option.some.inj hcopied
        exact .inr ⟨htar ▸ hboth.1, hboth.2, by rw [htar]⟩
      · exact .inl (hhash ▸ hcopied)
    · exact .inl hcopied
  · exact ⟨fun _ => rfl, rfl, rfl, .inl⟩

/-- The detection sees an access. -/
theorem Detection.noted (h : Detection a₀ a log) {b : ViewAccess}
    (hstep : recordAtenCopy a b.view_id = some a') : Detection a₀ a' (log ++ [b]) := by
  have hviews : (log ++ [b]).map ViewAccess.view_id =
      log.map ViewAccess.view_id ++ [b.view_id] := List.map_append
  by_cases hpending : Pending a
  · obtain ⟨hindex, hdomain, hpair, hcopied⟩ := recordAtenCopy_of_pending hpending hstep
    have hstart := h.pending hpending
    have hbefore := h.pair
    rw [if_pos hstart.1] at hbefore
    refine ⟨fun v => (hindex v).trans (h.index v), hdomain.trans h.domain, ?_, fun hnew => ?_⟩
    · rw [hpair, hbefore, if_pos hstart.1, hviews, List.foldl_append, funext h.index]
      rfl
    · rcases hcopied hnew with hold | hfound
      · rcases h.copied hold with hold | ⟨-, htar, hsrc, heq⟩
        · exact .inl hold
        · -- A pair that was entered before is complete, and the detection is not pending.
          rw [Prod.mk.injEq] at heq
          exact absurd hpending.2 (by rw [heq.1, heq.2]; tauto)
      · exact .inr ⟨hstart, hfound⟩
  · have hclosed : ¬(a.is_aten_copy_domain ∧ (a.aten_copy_tar = 0 ∨ a.aten_copy_src = 0)) :=
      hpending
    unfold recordAtenCopy at hstep
    rw [if_neg hclosed] at hstep
    obtain rfl := Option.some.inj hstep
    refine ⟨h.index, h.domain, ?_, h.copied⟩
    have hbefore := h.pair
    split_ifs at hbefore ⊢ with hdomain
    · have hboth : ¬(a.aten_copy_tar = 0 ∨ a.aten_copy_src = 0) := fun hor =>
        hpending ⟨h.domain ▸ hdomain, hor⟩
      rw [hviews, List.foldl_append, ← hbefore, List.foldl_cons, List.foldl_nil, notePair,
        if_neg hboth]
    · exact hbefore

/-- The detection follows the accesses of a kernel. -/
theorem detection_kernelRule (a₀ : Attribution) (ctx_id : ℕ) :
    KernelRule s ctx_id (Detection a₀) where
  quiet h hquiet := h.same (by rw [hquiet.frame]; exact ⟨fun _ => rfl, rfl⟩)
  hit {trace pc n a a' log} _ h hstep := by
    obtain ⟨a₁, h₁, hstep⟩ := Option.bind_eq_some_iff.1 hstep
    obtain ⟨a₂, h₂, h₃⟩ := Option.bind_eq_some_iff.1 hstep
    have hwrite : SameCopies a₁ a₂ := by
      split_ifs at h₂
      · obtain ⟨c, -, rfl⟩ := Option.map_eq_some_iff.1 h₂
        split_ifs
        · exact sameCopies_pushWriteAfterWrite _ _ _
        · exact SameCopies.refl _
      · exact sameCopies_setMemoryWritePc h₂
    exact (h.same ((sameCopies_pushPc h₁).trans hwrite)).noted h₃
  gpuHit {flag pc ptr n a a' log} hn hpath h hstep := by
    simp only [recordGpuHit, hn, Option.bind_some] at hstep
    rw [if_neg hpath] at hstep
    obtain ⟨a₁, h₁, hstep⟩ := Option.bind_eq_some_iff.1 hstep
    obtain ⟨a₂, h₂, h₃⟩ := Option.bind_eq_some_iff.1 hstep
    have hwrite : SameCopies a₁ a₂ := by
      split_ifs at h₂
      · obtain ⟨c, -, h₂⟩ := Option.bind_eq_some_iff.1 h₂
        refine SameCopies.trans ?_ (sameCopies_setMemoryWritePc h₂)
        split_ifs
        · exact sameCopies_pushWriteAfterWrite _ _ _
        · exact SameCopies.refl _
      · cases h₂
        exact SameCopies.refl _
    exact (h.same ((sameCopies_pushPc h₁).trans hwrite)).noted h₃

/-- What `kernel_op_callback` detects. -/
theorem detection_kernelOpCallback {ctx_id : ℕ} {frames : List PythonState}
    (hstep : kernelOpCallback env s ctx_id frames = some a') :
    Detection { s.attribution with aten_copy_pystate_hash := env.hash (allStates frames) } a'
      (kernelLog env s ctx_id frames) :=
  (detection_kernelRule _ ctx_id).after_kernelOpCallback (Detection.start _) hstep

end Kernel

/-! ## The other events -/

section Events

variable {env : Env} {s s' : TorchView}

theorem copyMembers_updateTensor {frames : List PythonState} {t : TensorData} {p : Option ℕ}
    (hstep : updateTensor env frames s t = some (p, s')) :
    copyMembers s'.attribution = copyMembers s.attribution := by
  have hupdated := updated_of_updateViewForest hstep
  generalize hs₁ : ({ s with op_ids := s.op_ids + 1 } : TorchView) = s₁ at hupdated
  cases hupdated <;> subst hs₁ <;> rfl

theorem copyMembers_onEnter {op : OpData} {frames : List PythonState}
    (hstep : onEnter env s op frames = some s') :
    copyMembers s'.attribution = copyMembers s.attribution := by
  refine foldlM_invariant
    (I := fun s₁ => copyMembers s₁.attribution = copyMembers s.attribution)
    (fun s₁ input s₂ hs _ hstep => ?_) rfl hstep
  unfold enterInput at hstep
  split_ifs at hstep
  · cases hstep
    exact hs
  · obtain ⟨⟨p, s₃⟩, h₃, rfl⟩ := Option.map_eq_some_iff.1 hstep
    exact (copyMembers_updateTensor h₃).trans hs

/-- The delayed accesses are no part of a detection. -/
theorem copyMembers_delayedAccess {d : DelayedTrace} {access : ℕ × ℕ × ℕ}
    {st st' : Attribution × OrderedMap ℕ (List ViewNode)}
    (h : delayedAccess env s d st access = some st') :
    copyMembers st'.1 = copyMembers st.1 := by
  obtain ⟨a, cache⟩ := st
  obtain ⟨pc, mem_start, c⟩ := access
  unfold delayedAccess at h
  have hpush : ∀ {a a' : Attribution} {object_type view_id},
      pushDelayed a d object_type view_id c pc = some a' → copyMembers a' = copyMembers a :=
    fun h => (sameCopies_pushPc h).members
  cases hcache : cache.find? pc with
  | some ns =>
    simp only [hcache, Option.map_eq_some_iff] at h
    obtain ⟨a₁, h₁, rfl⟩ := h
    rw [(onlyCells_updateNodeTotalAccess h₁).frame]
    rfl
  | none =>
    simp only [hcache, Option.bind_eq_some_iff, Option.map_eq_some_iff] at h
    obtain ⟨⟨hits, cells⟩, hlookup, a₁, h₁, a₂, h₂, a₃, h₃, rfl⟩ := h
    have hcells : copyMembers a₁ = copyMembers a := by
      rw [(onlyCells_lookup hlookup h₁).frame]
      rfl
    have hnodes : copyMembers a₂ = copyMembers a₁ := by
      refine foldlM_invariant (I := fun a => copyMembers a = copyMembers a₁)
        (fun a n a' hs _ h => ?_) rfl h₂
      obtain ⟨a₁, h₁, h₂⟩ := Option.bind_eq_some_iff.1 h
      exact ((sameCopies_setMemoryWritePc h₂).members.trans (hpush h₁)).trans hs
    have hblocks : copyMembers a₃ = copyMembers a₂ := by
      split_ifs at h₃
      · exact foldlM_invariant (I := fun a => copyMembers a = copyMembers a₂)
          (fun _ _ _ hs _ h => (hpush h).trans hs) rfl h₃
      · cases h₃
        rfl
    exact (hblocks.trans hnodes).trans hcells

theorem copyMembers_onExit {op : OpData} {frames : List PythonState}
    (hstep : onExit env s op frames = some s') :
    copyMembers s'.attribution = copyMembers s.attribution := by
  obtain ⟨s₁, h₁, hstep⟩ := Option.bind_eq_some_iff.1 hstep
  obtain ⟨a, ha, rfl⟩ := Option.map_eq_some_iff.1 hstep
  have houtputs : copyMembers s₁.attribution = copyMembers s.attribution := by
    split_ifs at h₁
    · cases h₁
      rfl
    · obtain ⟨s₂, h₂, rfl⟩ := Option.map_eq_some_iff.1 h₁
      refine foldlM_invariant
        (I := fun s₁ => copyMembers s₁.attribution = copyMembers s.attribution)
        (fun s₁ t s₂ hs _ hstep => ?_) rfl h₂
      unfold exitOutput at hstep
      split_ifs at hstep
      · cases hstep
        exact hs
      · obtain ⟨⟨p, s₃⟩, h₃, rfl⟩ := Option.map_eq_some_iff.1 hstep
        exact (copyMembers_updateTensor h₃).trans hs
  refine Eq.trans ?_ houtputs
  unfold mapDelayedAccess at ha
  cases hd : s₁.attribution.delayed_trace with
  | none =>
    simp only [hd, Option.some.injEq] at ha
    rw [ha]
  | some d =>
    simp only [hd, Option.map_eq_some_iff] at ha
    obtain ⟨st, hfold, rfl⟩ := ha
    exact foldlM_invariant (I := fun st => copyMembers st.1 = copyMembers s₁.attribution)
      (fun _ _ _ hs _ h => (copyMembers_delayedAccess h).trans hs) rfl hfold

theorem copyMembers_getRangeSize (hstep : getRangeSize s = some s') :
    copyMembers s'.attribution = copyMembers s.attribution := by
  unfold getRangeSize at hstep
  split_ifs at hstep
  · refine foldlM_invariant
      (I := fun s₁ => copyMembers s₁.attribution = copyMembers s.attribution)
      (fun s₁ e s₂ hs _ hstep => ?_) rfl hstep
    rcases updataTorchviewMemorySnapshot_eq_some hstep with rfl | ⟨ptr, n, c, hp, hn, hc, hdims⟩
    · exact hs
    · rw [hp] at hstep
      rw [updataTorchviewMemorySnapshot_of_dims hn hc hdims hstep]
      exact hs
  · cases hstep
    rfl

theorem copyMembers_onFree {mem : MemData} (hstep : onFree s mem = some s') :
    copyMembers s'.attribution = copyMembers s.attribution := by
  obtain ⟨s₁, h₁, rfl⟩ := Option.map_eq_some_iff.1 hstep
  obtain ⟨s₂, hdel, rfl⟩ := deleteForestTree_eq_some rfl h₁
  unfold unregisterMemoryBlock
  rw [hdel.frame]
  rfl

/-- The events of a kernel. -/
def Event.IsKernel : Event → Prop
  | .analysisBegin _ => True
  | .kernelOp _ _ => True
  | .analysisEnd => True
  | _ => False

/-- No event but those of a kernel has a part in a detection. -/
theorem copyMembers_step {e : Event} (he : ¬e.IsKernel) (hstep : step env s e = some s') :
    copyMembers s'.attribution = copyMembers s.attribution := by
  cases e with
  | enter op frames => exact copyMembers_onEnter hstep
  | exit op frames => exact copyMembers_onExit hstep
  | free mem => exact copyMembers_onFree hstep
  | getRangeSize => exact copyMembers_getRangeSize hstep
  | alloc mem =>
    cases hstep
    rfl
  | unitAccess pc addr flags =>
    obtain ⟨a, ha, rfl⟩ := Option.map_eq_some_iff.1 hstep
    obtain ⟨t, -, rfl⟩ := Option.map_eq_some_iff.1 ha
    simp only
    split_ifs <;> rfl
  | analysisBegin dict => exact absurd trivial he
  | kernelOp ctx_id frames => exact absurd trivial he
  | analysisEnd => exact absurd trivial he

/-- The members decide whether a detection is pending, and what it has found. -/
theorem pending_congr {a a' : Attribution} (h : copyMembers a' = copyMembers a) :
    (Pending a' ↔ Pending a) ∧ a'.aten_copy_tar = a.aten_copy_tar ∧
      a'.aten_copy_src = a.aten_copy_src := by
  simp only [copyMembers, Prod.mk.injEq] at h
  obtain ⟨-, hdomain, htar, hsrc⟩ := h
  unfold Pending
  rw [hdomain, htar, hsrc]
  exact ⟨Iff.rfl, rfl, rfl⟩

/-- `analysis_begin` under `aten::copy_` forgets what was found. -/
theorem analysisBegin_of_copy (h : s.domain_name.head? = some atenCopy) (dict : TorchviewDict) :
    (analysisBegin s dict).aten_copy_tar = 0 ∧ (analysisBegin s dict).aten_copy_src = 0 := by
  have htop : s.domain_name.head? = some "aten::copy_".toList := h
  unfold analysisBegin
  simp only [if_pos htop, and_self]

/-- `analysis_begin` under another operation leaves the detection as it is. -/
theorem copyMembers_analysisBegin (h : s.domain_name.head? ≠ some atenCopy)
    (dict : TorchviewDict) : copyMembers (analysisBegin s dict) = copyMembers s.attribution := by
  have htop : ¬s.domain_name.head? = some "aten::copy_".toList := h
  unfold analysisBegin
  simp only [if_neg htop]
  split_ifs <;> rfl

/-- A detection that `analysis_end` leaves pending is left as it is. -/
theorem copyMembers_analysisEnd {a : Attribution} (h : Pending (analysisEnd a)) :
    copyMembers (analysisEnd a) = copyMembers a := by
  unfold analysisEnd at h ⊢
  split_ifs at h ⊢
  · exact absurd h.1 (by simp)
  · rfl

/-- Only `kernel_op_callback` enters a copy. -/
theorem device_view_copy_map_step {e : Event} (he : ∀ ctx_id frames, e ≠ .kernelOp ctx_id frames)
    (hstep : step env s e = some s') :
    s'.attribution.device_view_copy_map = s.attribution.device_view_copy_map := by
  by_cases hkernel : e.IsKernel
  · cases e with
    | analysisBegin dict =>
      cases hstep
      simp only [analysisBegin]
      split_ifs <;> rfl
    | analysisEnd =>
      cases hstep
      simp only [analysisEnd]
      split_ifs <;> rfl
    | kernelOp ctx_id frames => exact absurd rfl (he ctx_id frames)
    | _ => exact absurd hkernel id
  · exact congrArg Prod.fst (copyMembers_step hkernel hstep)

end Events

/-! ## Runs -/

deriving instance DecidableEq for Push

/-- A history, with the operation that was on top at the last `analysis_begin`, until a kernel is
handled. -/
structure LaunchHistory where
  history : History
  begun : Option Push

/-- The views of the arguments of an operation that have an index. -/
def argumentViews (roots : List (Tree ViewNode)) (p : Push) (index : ℤ) : List ℕ :=
  (p.op.tensor_data.zip p.nodes).filterMap fun input =>
    if input.1.index = index then (input.2.bind (deref roots)).map ViewNode.view_id else none

/-- The views that a kernel accesses. -/
def accessedViews (env : Env) (s : TorchView) (ctx_id : ℕ) (frames : List PythonState) : List ℕ :=
  (kernelLog env s ctx_id frames).map ViewAccess.view_id

/-- A copy that a kernel may enter: its operation is `aten::copy_`, target and source are the views
of the operation's arguments 0 and 1, and both are found in the accesses of the kernel alone. -/
structure RightCopy (env : Env) (h : History) (ctx_id : ℕ) (frames : List PythonState)
    (tar src : ℕ) : Prop where
  domain : h.state.domain_name.head? = some atenCopy
  arguments : ∃ p, h.stack.head? = some p ∧ p.op.name = atenCopy ∧
    tar ∈ argumentViews h.state.roots p 0 ∧ src ∈ argumentViews h.state.roots p 1
  accessed : tar ∈ accessedViews env h.state ctx_id frames ∧
    src ∈ accessedViews env h.state ctx_id frames
  own : (accessedViews env h.state ctx_id frames).foldl
    (notePair (callIndex h.state.attribution)) (0, 0) = (tar, src)

namespace LaunchHistory

/-- The start of a run. -/
def start (ongpu : Bool) : LaunchHistory := ⟨History.start ongpu, none⟩

/-- The handling of an event of a thread. -/
def step (env : Env) (l : LaunchHistory) (e : ℕ × Event) : Option LaunchHistory :=
  (History.step env l.history e).map fun h' =>
    { history := h'
      begun := match e.2 with
        | .analysisBegin _ => l.history.stack.head?
        | .kernelOp _ _ => none
        | _ => l.begun }

/-- An event enters only copies that a kernel may enter. -/
def RightCopies (env : Env) (l : LaunchHistory) (e : ℕ × Event) : Prop :=
  ∀ l', step env l e = some l' → ∀ hash tar src,
    Copied l'.history.state.attribution hash tar src →
    ¬Copied l.history.state.attribution hash tar src →
    ∃ ctx_id frames, e.2 = .kernelOp ctx_id frames ∧
      RightCopy env l.history ctx_id frames tar src

/-- A kernel of another operation begins when no detection is pending. When one is pending, a
kernel that accesses a view under the index of a target or a source was begun by the operation that
is on top, as the only one since, and the view is that argument of the operation. -/
def DetectsOwn (env : Env) (l : LaunchHistory) : ℕ × Event → Prop
  | (_, .analysisBegin _) =>
    l.history.state.domain_name.head? ≠ some atenCopy → ¬Pending l.history.state.attribution
  | (_, .kernelOp ctx_id frames) => Pending l.history.state.attribution →
    ∀ v ∈ accessedViews env l.history.state ctx_id frames, ∀ i ∈ [(0 : ℤ), 1],
      callIndex l.history.state.attribution v = some i →
      l.begun = l.history.stack.head? ∧
        ∃ p ∈ l.history.stack.head?, v ∈ argumentViews l.history.state.roots p i
  | _ => True

instance (env : Env) (l : LaunchHistory) (e : ℕ × Event) : Decidable (DetectsOwn env l e) := by
  obtain ⟨thread, e⟩ := e
  cases e <;> unfold DetectsOwn <;> infer_instance

/-- A detection that is pending when a kernel has begun is the kernel's own, and has found
nothing. -/
structure Fresh (l : LaunchHistory) : Prop where
  consistent : History.Consistent l.history
  own : ∀ p, l.begun = some p → Pending l.history.state.attribution →
    p.op.name = atenCopy ∧ l.history.state.attribution.aten_copy_tar = 0 ∧
      l.history.state.attribution.aten_copy_src = 0

variable {env : Env} {l l' : LaunchHistory} {e : ℕ × Event}

theorem fresh_start (ongpu : Bool) : Fresh (start ongpu) :=
  ⟨History.consistent_start ongpu, fun _ h => absurd h (by simp [start])⟩

/-- The name on top is that of the push on top. -/
theorem head_domain_name (hc : History.Consistent l.history) :
    l.history.state.domain_name.head? = l.history.stack.head?.map fun p => p.op.name := by
  rw [hc.domain_name, List.head?_map]

/-- The histories of a run are those without the operations that began its kernels. -/
theorem run_history (es : List (ℕ × Event)) :
    (run (step env) l es).map history = run (History.step env) l.history es := by
  induction es generalizing l with
  | nil => rfl
  | cons e es ih =>
    simp only [run_cons, step, Option.map_bind, Option.bind_map]
    congr 1
    funext h'
    exact ih

/-- A detection stays the kernel's own. -/
theorem Fresh.after_step (h : Fresh l) (hown : DetectsOwn env l e)
    (hstep : step env l e = some l') : Fresh l' := by
  obtain ⟨h', hh, rfl⟩ := Option.map_eq_some_iff.1 hstep
  have hconsistent := h.consistent.after_step hh
  refine ⟨hconsistent, ?_⟩
  obtain ⟨s', hs, rfl⟩ := Option.map_eq_some_iff.1 hh
  obtain ⟨thread, e⟩ := e
  -- What was so before stays so when the members stay.
  have hkept : copyMembers s'.attribution = copyMembers l.history.state.attribution →
      ∀ p, l.begun = some p → Pending s'.attribution →
        p.op.name = atenCopy ∧ s'.attribution.aten_copy_tar = 0 ∧
          s'.attribution.aten_copy_src = 0 := fun heq p hp hpending => by
    obtain ⟨hiff, htar, hsrc⟩ := pending_congr heq
    rw [htar, hsrc]
    exact h.own p hp (hiff.1 hpending)
  rw [History.record_state]
  by_cases hkernel : e.IsKernel
  · cases e with
    | analysisBegin dict =>
      cases hs
      intro p hp hpending
      have hdomain : l.history.state.domain_name.head? = some p.op.name := by
        rw [head_domain_name h.consistent]
        exact congrArg (Option.map fun p : Push => p.op.name) hp
      by_cases hcopy : l.history.state.domain_name.head? = some atenCopy
      · exact ⟨Option.some.inj (hdomain.symm.trans hcopy), analysisBegin_of_copy hcopy dict⟩
      · -- Nothing is pending under another operation, before and after.
        have heq := copyMembers_analysisBegin hcopy dict
        exact absurd ((pending_congr heq).1.1 hpending) (hown hcopy)
    | kernelOp ctx_id frames => exact fun p hp => absurd hp (by simp)
    | analysisEnd =>
      cases hs
      exact fun p hp hpending => hkept (copyMembers_analysisEnd hpending) p hp hpending
    | _ => exact absurd hkernel id
  · have hall := hkept (copyMembers_step hkernel hs)
    cases e with
    | analysisBegin dict => exact absurd trivial hkernel
    | kernelOp ctx_id frames => exact absurd trivial hkernel
    | _ => exact hall

/-- A kernel that detects nothing but its own copy enters no other. -/
theorem Fresh.rightCopies (h : Fresh l) (hown : DetectsOwn env l e) : RightCopies env l e := by
  intro l' hstep hash tar src hcopied hnew
  obtain ⟨h', hh, rfl⟩ := Option.map_eq_some_iff.1 hstep
  obtain ⟨s', hs, rfl⟩ := Option.map_eq_some_iff.1 hh
  rw [History.record_state] at hcopied
  obtain ⟨thread, e⟩ := e
  by_cases hkernel : ∃ ctx_id frames, e = .kernelOp ctx_id frames
  · obtain ⟨ctx_id, frames, rfl⟩ := hkernel
    obtain ⟨a, ha, rfl⟩ := Option.map_eq_some_iff.1 hs
    have hdetection := detection_kernelOpCallback ha
    refine ⟨ctx_id, frames, rfl, ?_⟩
    rcases hdetection.copied hcopied with hold | ⟨hpending, htar, hsrc, hpair⟩
    · exact absurd hold hnew
    · rw [hdetection.pair, if_pos hpending.1] at hpair
      change (accessedViews env l.history.state ctx_id frames).foldl
        (notePair (callIndex l.history.state.attribution))
          (l.history.state.attribution.aten_copy_tar,
            l.history.state.attribution.aten_copy_src) = (tar, src) at hpair
      obtain ⟨hfst, hsnd⟩ := mem_of_foldl_notePair (callIndex l.history.state.attribution)
        (l.history.state.attribution.aten_copy_tar, l.history.state.attribution.aten_copy_src)
        (accessedViews env l.history.state ctx_id frames)
      rw [hpair] at hfst hsnd
      simp only at hfst hsnd
      -- At least one of the two is found by this kernel, so the detection is its own.
      obtain ⟨v, hv, i, hi, hindex⟩ : ∃ v ∈ accessedViews env l.history.state ctx_id frames,
          ∃ i ∈ [(0 : ℤ), 1], callIndex l.history.state.attribution v = some i := by
        rcases hpending.2 with hzero | hzero
        · rcases hfst with heq | ⟨hmem, hindex⟩
          · exact absurd (heq.trans hzero) htar
          · exact ⟨tar, hmem, 0, by simp, hindex⟩
        · rcases hsnd with heq | ⟨hmem, hindex⟩
          · exact absurd (heq.trans hzero) hsrc
          · exact ⟨src, hmem, 1, by simp, hindex⟩
      obtain ⟨hbegun, p, hp, -⟩ := hown hpending v hv i hi hindex
      obtain ⟨hname, htar₀, hsrc₀⟩ := h.own p (hbegun.trans hp) hpending
      rw [htar₀] at hfst
      rw [hsrc₀] at hsnd
      obtain ⟨htarmem, htarindex⟩ := hfst.resolve_left htar
      obtain ⟨hsrcmem, hsrcindex⟩ := hsnd.resolve_left hsrc
      -- Both are the arguments of the one push on top.
      have hargument : ∀ {v i}, (∃ q ∈ l.history.stack.head?,
          v ∈ argumentViews l.history.state.roots q i) →
          v ∈ argumentViews l.history.state.roots p i := by
        rintro v i ⟨q, hq, hv⟩
        rwa [← Option.some.inj (hp.symm.trans hq)] at hv
      refine ⟨?_, ⟨p, hp, hname, hargument (hown hpending tar htarmem 0 (by simp) htarindex).2,
        hargument (hown hpending src hsrcmem 1 (by simp) hsrcindex).2⟩, ⟨htarmem, hsrcmem⟩, ?_⟩
      · rw [head_domain_name h.consistent, hp, Option.map_some, hname]
      · rw [← hpair, htar₀, hsrc₀]
  · rw [Copied, device_view_copy_map_step (fun ctx_id frames heq =>
      hkernel ⟨ctx_id, frames, heq⟩) hs] at hcopied
    exact absurd hcopied hnew

/-- In a run whose kernels detect nothing but their own copies, every copy that is entered is
right. -/
theorem allRightCopies {ongpu : Bool} {es : List (ℕ × Event)}
    (hown : AllSteps (step env) (DetectsOwn env) (start ongpu) es) :
    AllSteps (step env) (RightCopies env) (start ongpu) es :=
  hown.imp_of_invariant (fun _ _ => Fresh.rightCopies)
    (fun _ _ _ h hown hstep => h.after_step hown hstep) (fresh_start ongpu)

/-- A copy of the vector at 2000 to the vector at 1000. -/
def enterCopy : ℕ × Event := (0, .enter ⟨atenCopy, [vector 0 1000 2, vector 1 2000 2]⟩ [])

/-- A kernel with one access for each of its instructions. -/
def kernel (accesses : List (ℕ × ℕ × ℕ)) : List (ℕ × Event) :=
  (0, .analysisBegin emptyDict) :: accesses.map (fun access =>
    (0, .unitAccess access.1 access.2.1 access.2.2)) ++ [(0, .analysisEnd), (0, .kernelOp 7 [])]

/-- A kernel of the copy that reads the source and writes the target. -/
theorem rightCopies_copy : AllSteps (step countingEnv) (RightCopies countingEnv) (start false)
      (enterCopy :: kernel [(8, 2000, READ), (16, 1000, WRITE)]) ∧
    (run (step countingEnv) (start false)
      (enterCopy :: kernel [(8, 2000, READ), (16, 1000, WRITE)])).any (fun l =>
        (l.history.state.attribution.device_view_copy_map.findD 0 ∅).find? 1 = some 2) = true :=
  ⟨allRightCopies (by decide +kernel), by decide +kernel⟩

/-- A kernel of the copy that only writes the target, and the start of an addition after it. -/
def leaking : List (ℕ × Event) :=
  enterCopy :: kernel [(8, 1000, WRITE)] ++ [(0, .exit ⟨atenCopy, []⟩ []),
    (0, .enter ⟨"aten::add".toList, [vector 0 3000 2, vector 1 4000 2]⟩ []),
    (0, .analysisBegin emptyDict), (0, .unitAccess 8 4000 READ), (0, .analysisEnd)]

/-- The kernel of the addition enters its own argument as the source of the copy. -/
theorem not_rightCopies_leaking : ¬∀ (es : List (ℕ × Event)),
    AllSteps (step countingEnv) (RightCopies countingEnv) (start false) es := by
  intro hall
  have hsome : (run (step countingEnv) (start false) leaking).any (fun l =>
      l.history.state.domain_name.head? ≠ some atenCopy ∧
      (l.history.state.attribution.device_view_copy_map.findD 0 ∅).find? 1 = none ∧
      (step countingEnv l (0, .kernelOp 7 [])).any fun l' =>
        (l'.history.state.attribution.device_view_copy_map.findD 0 ∅).find? 1 = some 4) = true := by
    decide +kernel
  obtain ⟨l, hrun, hfacts⟩ := (Option.any_eq_true _ _).1 hsome
  obtain ⟨hdomain, hbefore, hnext⟩ := of_decide_eq_true hfacts
  obtain ⟨l', hstep, hafter⟩ := (Option.any_eq_true _ _).1 hnext
  have hcopied : (l'.history.state.attribution.device_view_copy_map.findD 0 ∅).find? 1 = some 4 :=
    of_decide_eq_true hafter
  obtain ⟨ctx_id, frames, -, hright⟩ := (hall (leaking ++ [(0, .kernelOp 7 [])])).last hrun l'
    hstep 0 1 4 hcopied (by simp [Copied, hbefore])
  exact hdomain hright.domain

end LaunchHistory

end TenProf.TorchView
