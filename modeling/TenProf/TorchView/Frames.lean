import TenProf.Library.Loops
import TenProf.TorchView.Callback

/-!
# What the kernel callbacks keep

The kernel callbacks never make or delete a cell, and they leave the dimensions of a node as they
are up to the sort (`CellsKept`). They only add to the call paths (`Kept`). Each function of
`TorchView/Kernel.lean` has one lemma here that says which members it changes.
-/

namespace TenProf.TorchView

open GpuPatch

/-- The same nodes have cells, with the same dimensions after the sort. -/
def CellsKept (m m' : OrderedMap ℕ NodeCell) : Prop :=
  ∀ p, (m'.find? p).map (fun c => c.sort.dims) = (m.find? p).map fun c => c.sort.dims

theorem CellsKept.refl (m : OrderedMap ℕ NodeCell) : CellsKept m m := fun _ => rfl

theorem CellsKept.trans {m₁ m₂ m₃ : OrderedMap ℕ NodeCell} (h₁ : CellsKept m₁ m₂)
    (h₂ : CellsKept m₂ m₃) : CellsKept m₁ m₃ := fun p => (h₂ p).trans (h₁ p)

theorem CellsKept.symm {m m' : OrderedMap ℕ NodeCell} (h : CellsKept m m') : CellsKept m' m :=
  fun p => (h p).symm

theorem CellsKept.isSome {m m' : OrderedMap ℕ NodeCell} (h : CellsKept m m') {p : ℕ}
    (hp : (m.find? p).isSome) : (m'.find? p).isSome := by
  have hmap := congrArg Option.isSome (h p)
  rw [Option.isSome_map, Option.isSome_map, hp] at hmap
  exact hmap

/-- A change of one cell that keeps its dimensions up to the sort. -/
theorem CellsKept.set {m : OrderedMap ℕ NodeCell} {p : ℕ} {c c' : NodeCell}
    (h : m.find? p = some c) (hdims : c'.sort.dims = c.sort.dims) : CellsKept m (m.set p c') := by
  intro q
  rw [OrderedMap.find?_set]
  split_ifs with hq
  · rw [hq, h, Option.map_some, Option.map_some, hdims]
  · rfl

/-- The sort of a cell whose dimensions and sort flag are those of another. -/
theorem NodeCell.sort_dims_congr {c c' : NodeCell} (hdims : c'.dims = c.dims)
    (hsorted : c'.is_sorted = c.is_sorted) : c'.sort.dims = c.sort.dims := by
  unfold NodeCell.sort
  rw [hsorted]
  split_ifs
  · exact hdims
  · rw [hdims]

/-- The cells are kept, and no call path becomes empty. -/
structure Kept (a a' : Attribution) : Prop where
  cells : CellsKept a.cells a'.cells
  call_path : ∀ id, a.call_path_map.findD id [] ≠ [] → a'.call_path_map.findD id [] ≠ []

theorem Kept.refl (a : Attribution) : Kept a a := ⟨CellsKept.refl _, fun _ h => h⟩

theorem Kept.trans {a₁ a₂ a₃ : Attribution} (h₁ : Kept a₁ a₂) (h₂ : Kept a₂ a₃) : Kept a₁ a₃ :=
  ⟨h₁.cells.trans h₂.cells, fun id h => h₂.call_path id (h₁.call_path id h)⟩

/-- A function that only changes cells. -/
structure OnlyCells (a a' : Attribution) : Prop where
  frame : a' = { a with cells := a'.cells }
  cells : CellsKept a.cells a'.cells

theorem OnlyCells.refl (a : Attribution) : OnlyCells a a := ⟨rfl, CellsKept.refl _⟩

theorem OnlyCells.trans {a₁ a₂ a₃ : Attribution} (h₁ : OnlyCells a₁ a₂) (h₂ : OnlyCells a₂ a₃) :
    OnlyCells a₁ a₃ := ⟨by rw [h₂.frame, h₁.frame], h₁.cells.trans h₂.cells⟩

theorem OnlyCells.kept {a a' : Attribution} (h : OnlyCells a a') : Kept a a' := by
  refine ⟨h.cells, fun id hid => ?_⟩
  rw [h.frame]
  exact hid

section Primitives

variable {a a' : Attribution} {view_id ctx_id pc ptr : ℕ}

/-- `sort_tensor_strides` keeps the cells. -/
theorem cellsKept_sortCells {cells cells' : OrderedMap ℕ NodeCell} {ns : List ViewNode}
    (h : sortCells cells ns = some cells') : CellsKept cells cells' := by
  refine foldlM_rel CellsKept.refl CellsKept.trans (fun m n m' _ hstep => ?_) h
  obtain ⟨c, hc, rfl⟩ := Option.map_eq_some_iff.1 hstep
  exact CellsKept.set hc (by rw [NodeCell.sort_sort])

/-- `update_node_total_access` only changes cells. -/
theorem onlyCells_updateNodeTotalAccess {live : Finset ℕ} {ptrs : List ℕ}
    (h : updateNodeTotalAccess live a ptrs pc = some a') : OnlyCells a a' := by
  refine foldlM_rel OnlyCells.refl OnlyCells.trans (fun a ptr a' _ hstep => ?_) h
  split_ifs at hstep
  · obtain ⟨c, hc, rfl⟩ := Option.map_eq_some_iff.1 hstep
    exact ⟨rfl, CellsKept.set hc (NodeCell.sort_dims_congr rfl rfl)⟩
  · cases hstep
    exact OnlyCells.refl a

/-- Setting `is_memory_write_pc` only changes cells. -/
theorem onlyCells_setMemoryWritePc {value : Bool} (h : setMemoryWritePc a ptr value = some a') :
    OnlyCells a a' := by
  obtain ⟨c, hc, rfl⟩ := Option.map_eq_some_iff.1 h
  exact ⟨rfl, CellsKept.set hc (NodeCell.sort_dims_congr rfl rfl)⟩

/-- Logging an aten copy leaves cells, call paths and traces as they are. -/
theorem recordAtenCopy_frame (h : recordAtenCopy a view_id = some a') :
    a' = { a with
      device_view_copy_map := a'.device_view_copy_map
      aten_copy_tar := a'.aten_copy_tar
      aten_copy_src := a'.aten_copy_src } := by
  unfold recordAtenCopy at h
  split_ifs at h with hcopy
  · obtain ⟨c, -, rfl⟩ := Option.map_eq_some_iff.1 h
    dsimp only
    split_ifs <;> rfl
  · cases h
    rfl

/-- The instructions that the last call path of an id has for a context. -/
def pcsOf (a : Attribution) (view_id ctx_id : ℕ) : List ℕ :=
  match (a.call_path_map.findD view_id []).getLast? with
  | some c => c.ctxid_pcs.findD ctx_id []
  | none => []

/-- Logging an instruction changes the call path of its id, which was not empty, and there adds the
instruction to its context. -/
theorem pushPc_eq_some (h : pushPc a view_id ctx_id pc = some a') :
    a' = { a with call_path_map := a'.call_path_map } ∧
      (∀ id, a.call_path_map.findD id [] ≠ [] → a'.call_path_map.findD id [] ≠ []) ∧
      ∀ id c, pcsOf a' id c =
        if id = view_id ∧ c = ctx_id then pcsOf a id c ++ [pc] else pcsOf a id c := by
  simp only [pushPc, Option.map_eq_some_iff] at h
  obtain ⟨x, hx, rfl⟩ := h
  refine ⟨rfl, fun id hid => ?_, fun id c => ?_⟩
  · simp only [OrderedMap.findD, OrderedMap.find?_set]
    split_ifs
    · simp
    · exact hid
  · simp only [pcsOf, OrderedMap.findD, OrderedMap.find?_set]
    by_cases hid : id = view_id
    · -- The last call path of the id is the one that is changed.
      subst hid
      simp only [OrderedMap.findD] at hx
      simp only [if_true, Option.getD_some, List.getLast?_append, List.getLast?_singleton,
        Option.some_or, true_and, hx]
      rw [OrderedMap.find?_set]
      split_ifs with hc
      · rw [hc]
        rfl
      · rfl
    · simp [hid]

theorem kept_pushPc (h : pushPc a view_id ctx_id pc = some a') : Kept a a' := by
  obtain ⟨hframe, hpath, -⟩ := pushPc_eq_some h
  refine ⟨?_, hpath⟩
  rw [hframe]
  exact CellsKept.refl _

/-- Logging a call path adds it to those of its id. -/
theorem kept_pushCallPath (a : Attribution) (view_id : ℕ) (state : PyStateCTX) :
    Kept a (pushCallPath a view_id state) := by
  refine ⟨CellsKept.refl _, fun id hid => ?_⟩
  simp only [pushCallPath, OrderedMap.findD, OrderedMap.find?_set] at hid ⊢
  split_ifs
  · simp
  · exact hid

/-- What logging an instruction at some ids does. -/
structure Logged (ctx_id pc : ℕ) (ids : List ℕ) (a a' : Attribution) : Prop where
  kept : Kept a a'
  delayed : a'.delayed_trace = a.delayed_trace
  pcs : ∀ id c x, x ∈ pcsOf a' id c ↔ x ∈ pcsOf a id c ∨ id ∈ ids ∧ c = ctx_id ∧ x = pc

theorem Logged.refl (a : Attribution) : Logged ctx_id pc [] a a :=
  ⟨Kept.refl a, rfl, fun _ _ _ => by simp⟩

theorem Logged.trans {ids ids' : List ℕ} {a₁ a₂ a₃ : Attribution}
    (h₁ : Logged ctx_id pc ids a₁ a₂) (h₂ : Logged ctx_id pc ids' a₂ a₃) :
    Logged ctx_id pc (ids ++ ids') a₁ a₃ where
  kept := h₁.kept.trans h₂.kept
  delayed := h₂.delayed.trans h₁.delayed
  pcs id c x := by
    rw [h₂.pcs, h₁.pcs, List.mem_append]
    tauto

/-- A change of cells logs nothing. -/
theorem OnlyCells.logged (h : OnlyCells a a') : Logged ctx_id pc [] a a' := by
  refine ⟨h.kept, by rw [h.frame], fun id c x => ?_⟩
  rw [h.frame]
  simp [pcsOf]

/-- The record of a dead write leaves cells, call paths and traces as they are. -/
theorem logged_pushWriteAfterWrite (a : Attribution) (id pc' : ℕ) :
    Logged ctx_id pc [] a (pushWriteAfterWrite a id pc') :=
  ⟨⟨CellsKept.refl _, fun _ h => h⟩, rfl, fun _ _ _ => by simp [pcsOf, pushWriteAfterWrite]⟩

theorem logged_recordAtenCopy (h : recordAtenCopy a view_id = some a') :
    Logged ctx_id pc [] a a' := by
  rw [recordAtenCopy_frame h]
  exact ⟨⟨CellsKept.refl _, fun _ h => h⟩, rfl, fun _ _ _ => by simp [pcsOf]⟩

theorem logged_pushPc (h : pushPc a view_id ctx_id pc = some a') :
    Logged ctx_id pc [view_id] a a' := by
  obtain ⟨hframe, -, hpcs⟩ := pushPc_eq_some h
  refine ⟨kept_pushPc h, by rw [hframe], fun id c x => ?_⟩
  rw [hpcs]
  split_ifs with hid
  · simp [hid]
  · simp only [List.mem_singleton]
    tauto

/-- A hit in the CPU mode logs the instruction at the node. -/
theorem logged_recordHit {trace : Trace} {n : ViewNode}
    (h : recordHit trace ctx_id pc a n = some a') : Logged ctx_id pc [n.view_id] a a' := by
  obtain ⟨a₁, h₁, h⟩ := Option.bind_eq_some_iff.1 h
  obtain ⟨a₂, h₂, h₃⟩ := Option.bind_eq_some_iff.1 h
  -- The detection of dead writes logs no instruction.
  have hwrite : Logged ctx_id pc [] a₁ a₂ := by
    split_ifs at h₂
    · obtain ⟨c, -, rfl⟩ := Option.map_eq_some_iff.1 h₂
      split_ifs
      · exact logged_pushWriteAfterWrite a₁ _ _
      · exact Logged.refl a₁
    · exact (onlyCells_setMemoryWritePc h₂).logged
  exact ((logged_pushPc h₁).trans hwrite).trans (logged_recordAtenCopy h₃)

/-- A hit in the on-GPU mode keeps cells and call paths. -/
theorem kept_recordGpuHit {roots : List (Tree ViewNode)} {flag : ℕ}
    (h : recordGpuHit roots flag ctx_id pc a ptr = some a') : Kept a a' := by
  have hcopy : ∀ {a a' : Attribution} {id : ℕ}, recordAtenCopy a id = some a' → Kept a a' :=
    fun h => (logged_recordAtenCopy h : Logged 0 0 [] _ _).kept
  obtain ⟨n, -, h⟩ := Option.bind_eq_some_iff.1 h
  split_ifs at h with hmissing hflag
  · -- The id has no call path.
    cases h
    exact Kept.refl a
  · -- A write also looks for a dead write, and marks the node as written.
    obtain ⟨a₁, h₁, h⟩ := Option.bind_eq_some_iff.1 h
    obtain ⟨a₂, h₂, h₃⟩ := Option.bind_eq_some_iff.1 h
    obtain ⟨c, -, h₂⟩ := Option.bind_eq_some_iff.1 h₂
    have hwrite : Kept a₁ (if c.is_memory_write_pc then pushWriteAfterWrite a₁ n.view_id pc
        else a₁) := by
      split_ifs
      · exact ⟨CellsKept.refl _, fun _ h => h⟩
      · exact Kept.refl a₁
    exact (((kept_pushPc h₁).trans hwrite).trans (onlyCells_setMemoryWritePc h₂).kept).trans
      (hcopy h₃)
  · -- A read.
    obtain ⟨a₁, h₁, h₃⟩ := Option.bind_eq_some_iff.1 h
    exact (kept_pushPc h₁).trans (hcopy h₃)

end Primitives

section Callbacks

variable {env : Env} {s : TorchView} {a a' : Attribution}

/-- A lookup keeps the cells. -/
theorem cellsKept_newGetViewNodesByMemAddr {cells cells' : OrderedMap ℕ NodeCell}
    {hits : List ViewNode} {addr : ℕ} {is_delay : Bool}
    (h : newGetViewNodesByMemAddr env s cells addr is_delay = some (hits, cells')) :
    CellsKept cells cells' := by
  obtain ⟨possible, -, h⟩ := Option.bind_eq_some_iff.1 h
  obtain ⟨cells₁, h₁, h⟩ := Option.map_eq_some_iff.1 h
  cases h
  exact cellsKept_sortCells h₁

/-- The state of the loop over the accesses starts a turn with a lookup: it changes only cells. -/
theorem onlyCells_lookup {cells : OrderedMap ℕ NodeCell} {hits : List ViewNode} {addr pc : ℕ}
    {is_delay : Bool}
    (h₁ : newGetViewNodesByMemAddr env s a.cells addr is_delay = some (hits, cells))
    (h₂ : updateNodeTotalAccess s.live_nodes { a with cells := cells } (hits.map ViewNode.ptr) pc =
      some a') : OnlyCells a a' :=
  OnlyCells.trans ⟨rfl, cellsKept_newGetViewNodesByMemAddr h₁⟩ (onlyCells_updateNodeTotalAccess h₂)

/-- Logging at all nodes that an access hits. -/
theorem logged_recordHits {trace : Trace} {ctx_id pc : ℕ} {hits : List ViewNode}
    (h : hits.foldlM (recordHit trace ctx_id pc) a = some a') :
    Logged ctx_id pc (hits.map ViewNode.view_id) a a' := by
  induction hits generalizing a with
  | nil =>
    cases h
    exact Logged.refl _
  | cons n hits ih =>
    obtain ⟨a₁, h₁, h⟩ := Option.bind_eq_some_iff.1 h
    exact (logged_recordHit h₁).trans (ih h)

/-- A turn of the loop of `kernel_op_callback` over the accesses: an instruction that was seen
before only counts, and the first access of an instruction is logged at the nodes that it hits, or
delayed if there are none. -/
theorem kernelAccess_eq_some {trace : Trace} {ctx_id pc mem_start : ℕ}
    {cache cache' : OrderedMap ℕ (List ViewNode)}
    (h : kernelAccess env s trace ctx_id (a, cache) (pc, mem_start) = some (a', cache')) :
    ((cache.find? pc).isSome ∧ OnlyCells a a' ∧ cache' = cache) ∨
      (cache.find? pc = none ∧ ∃ hits cells a₁,
        newGetViewNodesByMemAddr env s a.cells mem_start false = some (hits, cells) ∧
        Logged ctx_id pc (hits.map ViewNode.view_id) a a₁ ∧
        a' = (if hits = [] then delayAccess trace ctx_id pc mem_start a₁ else a₁) ∧
        cache' = cache.set pc hits) := by
  unfold kernelAccess at h
  cases hcache : cache.find? pc with
  | some ns =>
    simp only [hcache, Option.map_eq_some_iff, Prod.mk.injEq] at h
    obtain ⟨a₁, h₁, rfl, rfl⟩ := h
    exact Or.inl ⟨rfl, onlyCells_updateNodeTotalAccess h₁, rfl⟩
  | none =>
    simp only [hcache, Option.bind_eq_some_iff, Option.map_eq_some_iff, Prod.mk.injEq] at h
    obtain ⟨⟨hits, cells⟩, hlookup, a₁, h₁, a₂, h₂, rfl, rfl⟩ := h
    exact Or.inr ⟨rfl, hits, cells, a₂, hlookup,
      (onlyCells_lookup hlookup h₁).logged.trans (logged_recordHits h₂), rfl, rfl⟩

theorem kept_delayAccess (trace : Trace) (ctx_id pc mem_start : ℕ) (a : Attribution) :
    Kept a (delayAccess trace ctx_id pc mem_start a) := ⟨CellsKept.refl _, fun _ h => h⟩

theorem kept_kernelAccess {trace : Trace} {ctx_id : ℕ} {access : ℕ × ℕ}
    {st st' : Attribution × OrderedMap ℕ (List ViewNode)}
    (h : kernelAccess env s trace ctx_id st access = some st') : Kept st.1 st'.1 := by
  rcases kernelAccess_eq_some h with ⟨-, hcells, -⟩ | ⟨-, hits, cells, a₁, -, hlogged, heq, -⟩
  · exact hcells.kept
  · rw [heq]
    split_ifs
    · exact hlogged.kept.trans (kept_delayAccess _ _ _ _ _)
    · exact hlogged.kept

theorem kept_kernelOpCallbackCpu {ctx_id : ℕ} {frames : List PythonState}
    (h : kernelOpCallbackCpu env s a ctx_id frames = some a') : Kept a a' := by
  unfold kernelOpCallbackCpu at h
  cases htrace : a.trace with
  | none =>
    simp only [htrace, Option.some.injEq] at h
    rw [h]
    exact Kept.refl _
  | some trace =>
    simp only [htrace, Option.bind_eq_some_iff, Option.map_eq_some_iff] at h
    obtain ⟨delayed, -, st, hfold, rfl⟩ := h
    have hkept := foldlM_rel (R := fun st st' => Kept st.1 st'.1) (fun st => Kept.refl st.1)
      Kept.trans (fun _ _ _ _ h => kept_kernelAccess h) hfold
    exact ⟨hkept.cells, hkept.call_path⟩

theorem kept_kernelRow {dict : TorchviewDict} {flag ctx_id r_i : ℕ}
    (h : kernelRow s dict flag ctx_id a r_i = some a') : Kept a a' := by
  obtain ⟨a₁, h₁, h⟩ := Option.bind_eq_some_iff.1 h
  exact (onlyCells_updateNodeTotalAccess h₁).kept.trans
    (foldlM_rel Kept.refl Kept.trans (fun _ _ _ _ h => kept_recordGpuHit h) h)

theorem kept_kernelOpCallbackGpu {ctx_id : ℕ} (h : kernelOpCallbackGpu s a ctx_id = some a') :
    Kept a a' := by
  obtain ⟨dict, -, h⟩ := Option.bind_eq_some_iff.1 h
  split_ifs at h
  · cases h
    exact Kept.refl _
  · obtain ⟨a₁, h₁, h₂⟩ := Option.bind_eq_some_iff.1 h
    exact (foldlM_rel Kept.refl Kept.trans (fun _ _ _ _ h => kept_kernelRow h) h₁).trans
      (foldlM_rel Kept.refl Kept.trans (fun _ _ _ _ h => kept_kernelRow h) h₂)

/-- `kernel_op_callback` keeps cells and call paths. -/
theorem kept_kernelOpCallback {ctx_id : ℕ} {frames : List PythonState}
    (h : kernelOpCallback env s ctx_id frames = some a') : Kept s.attribution a' := by
  unfold kernelOpCallback at h
  have hhash : Kept s.attribution
      { s.attribution with aten_copy_pystate_hash := env.hash (allStates frames) } :=
    ⟨CellsKept.refl _, fun _ h => h⟩
  split_ifs at h
  · exact hhash.trans (kept_kernelOpCallbackGpu h)
  · exact hhash.trans (kept_kernelOpCallbackCpu h)

theorem kept_analysisBegin (s : TorchView) (dict : TorchviewDict) :
    Kept s.attribution (analysisBegin s dict) := by
  unfold analysisBegin
  split_ifs <;> exact ⟨CellsKept.refl _, fun _ h => h⟩

theorem kept_analysisEnd (a : Attribution) : Kept a (analysisEnd a) := by
  unfold analysisEnd
  split_ifs <;> exact ⟨CellsKept.refl _, fun _ h => h⟩

theorem kept_unitAccess {pc addr flags : ℕ} (h : unitAccess a pc addr flags = some a') :
    Kept a a' := by
  obtain ⟨t, -, rfl⟩ := Option.map_eq_some_iff.1 h
  by_cases hseen : (t.access_memory.find? pc).isSome
  · rw [if_pos hseen]
    exact Kept.refl a
  · rw [if_neg hseen]
    exact ⟨CellsKept.refl _, fun _ h => h⟩

theorem kept_pushDelayed {d : DelayedTrace} {object_type : MemObject} {view_id c pc : ℕ}
    (h : pushDelayed a d object_type view_id c pc = some a') : Kept a a' :=
  (kept_pushCallPath a view_id _).trans (kept_pushPc h)

theorem kept_delayedAccess {d : DelayedTrace} {access : ℕ × ℕ × ℕ}
    {st st' : Attribution × OrderedMap ℕ (List ViewNode)}
    (h : delayedAccess env s d st access = some st') : Kept st.1 st'.1 := by
  obtain ⟨a, cache⟩ := st
  obtain ⟨pc, mem_start, c⟩ := access
  unfold delayedAccess at h
  cases hcache : cache.find? pc with
  | some ns =>
    simp only [hcache, Option.map_eq_some_iff] at h
    obtain ⟨a₁, h₁, rfl⟩ := h
    exact (onlyCells_updateNodeTotalAccess h₁).kept
  | none =>
    simp only [hcache, Option.bind_eq_some_iff, Option.map_eq_some_iff] at h
    obtain ⟨⟨hits, cells⟩, hlookup, a₁, h₁, a₂, h₂, a₃, h₃, rfl⟩ := h
    -- First the nodes that are hit are logged, then the blocks if there are none.
    have hnodes : Kept a₁ a₂ := by
      refine foldlM_rel Kept.refl Kept.trans (fun a n a' _ h => ?_) h₂
      obtain ⟨a₁, h₁, h₂⟩ := Option.bind_eq_some_iff.1 h
      exact (kept_pushDelayed h₁).trans (onlyCells_setMemoryWritePc h₂).kept
    have hblocks : Kept a₂ a₃ := by
      split_ifs at h₃
      · exact foldlM_rel Kept.refl Kept.trans (fun _ _ _ _ h => kept_pushDelayed h) h₃
      · cases h₃
        exact Kept.refl _
    exact ((onlyCells_lookup hlookup h₁).kept.trans hnodes).trans hblocks

/-- `map_delayed_access` keeps cells and call paths. -/
theorem kept_mapDelayedAccess (h : mapDelayedAccess env s = some a') : Kept s.attribution a' := by
  unfold mapDelayedAccess at h
  cases hd : s.attribution.delayed_trace with
  | none =>
    simp only [hd, Option.some.injEq] at h
    rw [h]
    exact Kept.refl _
  | some d =>
    simp only [hd, Option.map_eq_some_iff] at h
    obtain ⟨st, hfold, rfl⟩ := h
    have hkept : Kept s.attribution st.1 :=
      foldlM_rel (R := fun st st' => Kept st.1 st'.1) (fun st => Kept.refl st.1)
        Kept.trans (fun _ _ _ _ h => kept_delayedAccess h) hfold
    exact ⟨hkept.cells, hkept.call_path⟩

end Callbacks

end TenProf.TorchView
