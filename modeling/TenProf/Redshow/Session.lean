import TenProf.Redshow.KernelPeak
import TenProf.Redshow.MemoryQuery

/-!
# Sessions

The interface in whole: blocks are registered and unregistered, copies and sets of memory look their
blocks up by `redshow_memory_query`, a trace of a kernel comes with the dictionary of the blocks it
accessed, and the end of a kernel is told to the analyses. In every session whose ids do not
decrease no callback fails (`session_run`): after every call both analyses keep exactly the blocks
of the latest snapshot, and the peak of the kernels is the largest number of live bytes that a
kernel accessed, and never above the peak of the memory.
-/

namespace TenProf

open GpuPatch (AddressDict AddressEntry)

/-- A call of the interface. -/
inductive SessionCall
  | memory (c : MemoryCall)
  | memcpy (memcpy_id : ℤ) (host_op_id : ℕ) (src_host : Bool) (src_stream_id src_start : ℕ)
      (dst_host : Bool) (dst_stream_id dst_start len : ℕ)
  | memset (stream_id : ℕ) (memset_id : ℤ) (host_op_id start value len : ℕ)
  | analyze (kernel_id : ℤ) (host_op_id stream_id : ℕ) (aux : Option AddressDict)
  | kernelEnd (cpu_thread stream_id : ℕ) (kernel_id : ℤ) (host_op_id : ℕ)

/-- The id of the call. -/
def SessionCall.host_op_id : SessionCall → ℕ
  | memory c => c.host_op_id
  | memcpy _ host_op_id _ _ _ _ _ _ _ => host_op_id
  | memset _ _ host_op_id _ _ _ => host_op_id
  | analyze _ host_op_id _ _ => host_op_id
  | kernelEnd _ _ _ host_op_id => host_op_id

/-- The store, the two analyses, and the members of `TorchMonitor` for the peak of the kernels. -/
structure Session where
  tools : Tools
  kernel_peak : KernelPeak

namespace Session

/-- Everything before the first call. -/
def empty : Session := ⟨Tools.empty, ⟨0, 0⟩⟩

/-- The callbacks of the liveness analysis. -/
def setLiveness (s : Session) (memory_liveness : MemoryLiveness) : Session :=
  { s with tools := { s.tools with memory_liveness := memory_liveness } }

/-- What a copy or a set looks up for one of its places; on the host nothing is looked up. -/
def queryPlace (memory_snapshot : MemorySnapshot) (host_op_id : ℕ) (host : Bool) (start : ℕ) :
    QueryArgs :=
  if host then ⟨REDSHOW_MEMORY_HOST, REDSHOW_MEMORY_HOST, start, 0⟩
  else (redshowMemoryQuery memory_snapshot host_op_id start ⟨0, 0, 0, 0⟩).1

/-- `redshow_memcpy_register`. -/
def memcpyRegister (s : Session) (memcpy_id : ℤ) (host_op_id : ℕ) (src_host : Bool)
    (src_stream_id src_start : ℕ) (dst_host : Bool) (dst_stream_id dst_start len : ℕ) :
    Option Session :=
  let src := queryPlace s.tools.memory_snapshot host_op_id src_host src_start
  let dst := queryPlace s.tools.memory_snapshot host_op_id dst_host dst_start
  if dst.shadow_start ≠ 0 ∧ src.shadow_start ≠ 0 then
    -- Avoid memcpy to symbol without allocation
    (s.tools.memory_liveness.memcpyOpCallback ⟨host_op_id, memcpy_id, src.memory_op_id,
      src_stream_id, src_start, dst.memory_op_id, dst_stream_id, dst_start, len⟩).map s.setLiveness
  else
    some s

/-- `redshow_memset_register`. -/
def memsetRegister (s : Session) (stream_id : ℕ) (memset_id : ℤ) (host_op_id start len : ℕ) :
    Option Session :=
  let place := queryPlace s.tools.memory_snapshot host_op_id false start
  if place.shadow_start ≠ 0 then
    (s.tools.memory_liveness.memsetOpCallback
      ⟨host_op_id, memset_id, place.memory_op_id, stream_id, start, len⟩).map s.setLiveness
  else
    some s

/-- `analysis_begin` of both analyses. -/
def analysisBegin (s : Session) (host_op_id stream_id : ℕ) (aux : Option AddressDict) :
    Option Session :=
  (s.tools.memory_liveness.analysisBegin host_op_id stream_id aux).bind fun memory_liveness =>
    match aux with
    | none => some (s.setLiveness memory_liveness)
    | some aux =>
      (s.tools.torch_monitor.updateAuxHit s.kernel_peak aux host_op_id).map fun kernel_peak =>
        { s.setLiveness memory_liveness with kernel_peak := kernel_peak }

/-- `trace_analyze` for a kernel whose code is known: without a snapshot it fails. -/
def traceAnalyze (s : Session) (host_op_id stream_id : ℕ) (aux : Option AddressDict) :
    Option Session :=
  match s.tools.memory_snapshot.prev host_op_id with
  | none => some s
  | some _ => s.analysisBegin host_op_id stream_id aux

/-- A call of the interface. -/
def step (s : Session) : SessionCall → Option Session
  | .memory c => (s.tools.step c).map fun tools => { s with tools := tools }
  | .memcpy memcpy_id host_op_id src_host src_stream_id src_start dst_host dst_stream_id dst_start
      len =>
    s.memcpyRegister memcpy_id host_op_id src_host src_stream_id src_start dst_host dst_stream_id
      dst_start len
  | .memset stream_id memset_id host_op_id start _ len =>
    s.memsetRegister stream_id memset_id host_op_id start len
  | .analyze _ host_op_id stream_id aux => s.traceAnalyze host_op_id stream_id aux
  | .kernelEnd cpu_thread stream_id kernel_id host_op_id =>
    some (s.setLiveness
      (s.tools.memory_liveness.kernelOpCallback ⟨host_op_id, kernel_id, cpu_thread, stream_id⟩))

end Session

/-- The call, when it registers or unregisters a block. -/
def SessionCall.memoryCall : SessionCall → Option MemoryCall
  | memory c => some c
  | _ => none

/-- The calls that register and unregister blocks. -/
def memoryCalls (calls : List SessionCall) : List MemoryCall :=
  calls.filterMap SessionCall.memoryCall

/-- The blocks that are live after calls. -/
def liveBlocks (calls : List SessionCall) : MemoryMap := latest (storeAfter (memoryCalls calls))

/-- The ids of the calls do not decrease, and a block is registered or unregistered under a new
id. -/
def InOrder (calls : List SessionCall) : Prop :=
  calls.Pairwise fun c c' => c.host_op_id ≤ c'.host_op_id ∧
    (c'.memoryCall.isSome → c.host_op_id < c'.host_op_id)

instance (calls : List SessionCall) : Decidable (InOrder calls) :=
  inferInstanceAs (Decidable (calls.Pairwise _))

/-- What a call is promised, after the calls before it: for a block what its registration and its
release are promised, and for a kernel a dictionary whose ranges are among those that
`redshow_memory_ranges_get` writes for its id. -/
def SessionCall.Promised (before : List SessionCall) : SessionCall → Prop
  | .memory c => TenProf.Promised (liveBlocks before) c
  | .analyze _ host_op_id _ (some aux) => ∀ entry ∈ aux.entries, ∃ limit,
      ∃ w ∈ (redshowMemoryRangesGet (storeAfter (memoryCalls before)) host_op_id limit).writes,
        w.2 = (entry.start_end.start, entry.start_end.stop)
  | _ => True

/-- The number of live bytes that a kernel accessed, with its id, after the calls before it. -/
def kernelUsage (before : List SessionCall) : SessionCall → List (ℕ × ℕ)
  | .analyze _ host_op_id _ (some aux) => [(host_op_id, hitBytes (liveBlocks before) aux)]
  | _ => []

/-- The numbers of live bytes that kernels accessed, when the calls come after others. -/
def kernelUsages : List SessionCall → List SessionCall → List (ℕ × ℕ)
  | _, [] => []
  | before, c :: calls => kernelUsage before c ++ kernelUsages (before ++ [c]) calls

variable {calls : List SessionCall} {c : SessionCall} {s : Session} {ids : List ℕ}
  {memory_map : MemoryMap}

/-! ## Accesses to live blocks -/

section Accesses

variable {op : ℕ} (stream_id : ℕ) (op_type : MemoryLiveness.MemoryOperation)
  (access_type : MemoryLiveness.AccessType) {d : MemoryLiveness.Dependencies}

/-- An access to a live block does not fail in the graph, and keeps it in order. -/
theorem Tracked.access (h : Tracked ids memory_map d) (hop : op ∈ ids) {e : ℕ × Memory}
    (he : e ∈ memory_map.toList) :
    ∃ d', d.updateGraphAtAccess op op_type stream_id e.2.op_id access_type = some d' ∧
      Tracked ids memory_map d' := by
  obtain ⟨d', hd'⟩ := MemoryLiveness.Dependencies.exists_updateGraphAtAccess (h.owner e he)
    (h.readers e he) op stream_id op_type access_type
  obtain ⟨owner, readers, haccess⟩ := MemoryLiveness.Dependencies.accessed_updateGraphAtAccess hd'
  refine ⟨d', hd', ?_, ?_, ?_⟩
  · intro i hi
    rcases (haccess.grows.hasNode_iff i).1 hi with rfl | hi
    · exact hop
    · exact h.node_mem i hi
  · intro e' he'
    rw [haccess.owner]
    split_ifs
    · rfl
    · exact h.owner e' he'
  · intro e' he'
    rw [haccess.readers]
    split_ifs
    · rfl
    · exact h.readers e' he'

/-- What changes in the liveness analysis by an access: not the live blocks, nor the peak of the
kernels. -/
structure SameObjects (l l' : MemoryLiveness) : Prop where
  liveObjects : l'.liveObjects = l.liveObjects
  kernelPeak : l'.kernelPeak = l.kernelPeak

/-- One of the two objects of a copy, which is on the host or live. -/
theorem exists_copyAccess {l : MemoryLiveness} (h : Tracked ids memory_map l.deps) (hop : op ∈ ids)
    {memory_op_id : ℕ} (hlive : memory_op_id ≠ REDSHOW_MEMORY_HOST →
      ∃ e ∈ memory_map.toList, e.2.op_id = memory_op_id) (ctx_id : ℤ) :
    ∃ l', l.copyAccess op ctx_id op_type stream_id memory_op_id access_type = some l' ∧
      SameObjects l l' ∧ Tracked ids memory_map l'.deps := by
  unfold MemoryLiveness.copyAccess
  split_ifs with hhost
  · obtain ⟨e, he, rfl⟩ := hlive hhost
    obtain ⟨d', hd', htracked⟩ := h.access stream_id op_type access_type hop he
    dsimp only [MemoryLiveness.updateCtxNode, MemoryLiveness.memoryOperationRegister]
    rw [hd', Option.map_some]
    exact ⟨_, rfl, ⟨rfl, rfl⟩, htracked⟩
  · exact ⟨l, rfl, ⟨rfl, rfl⟩, h⟩

/-- A copy between live blocks and the host. -/
theorem exists_memcpyOpCallback {l : MemoryLiveness} (h : Tracked ids memory_map l.deps)
    (o : Memcpy) (hop : o.op_id ∈ ids)
    (hsrc : o.src_memory_op_id ≠ REDSHOW_MEMORY_HOST →
      ∃ e ∈ memory_map.toList, e.2.op_id = o.src_memory_op_id)
    (hdst : o.dst_memory_op_id ≠ REDSHOW_MEMORY_HOST →
      ∃ e ∈ memory_map.toList, e.2.op_id = o.dst_memory_op_id) :
    ∃ l', l.memcpyOpCallback o = some l' ∧ SameObjects l l' ∧ Tracked ids memory_map l'.deps := by
  unfold MemoryLiveness.memcpyOpCallback
  dsimp only
  have h₀ : Tracked ids memory_map (l.updateOpNode o.op_id o.ctx_id).deps := h
  obtain ⟨l₁, hl₁, hsame₁, h₁⟩ := exists_copyAccess o.src_stream_id .REDSHOW_MEMORY_COPYF .READ h₀
    hop hsrc o.ctx_id
  obtain ⟨l₂, hl₂, hsame₂, h₂⟩ := exists_copyAccess o.dst_stream_id .REDSHOW_MEMORY_COPYT .WRITE h₁
    hop hdst o.ctx_id
  rw [hl₁, Option.bind_some, hl₂]
  exact ⟨l₂, rfl, ⟨hsame₂.1.trans hsame₁.1, hsame₂.2.trans hsame₁.2⟩, h₂⟩

/-- A set of a live block. -/
theorem exists_memsetOpCallback {l : MemoryLiveness} (h : Tracked ids memory_map l.deps)
    (o : Memset) (hop : o.op_id ∈ ids)
    (hlive : ∃ e ∈ memory_map.toList, e.2.op_id = o.memory_op_id) :
    ∃ l', l.memsetOpCallback o = some l' ∧ SameObjects l l' ∧ Tracked ids memory_map l'.deps := by
  obtain ⟨e, he, hid⟩ := hlive
  obtain ⟨d', hd', htracked⟩ := h.access o.stream_id .REDSHOW_MEMORY_SET .WRITE hop he
  unfold MemoryLiveness.memsetOpCallback
  dsimp only [MemoryLiveness.updateCtxNode, MemoryLiveness.updateOpNode]
  rw [← hid, hd', Option.map_some]
  exact ⟨_, rfl, ⟨rfl, rfl⟩, htracked⟩

/-- The marks of a dictionary, when every one of them is of a live block. -/
theorem exists_foldlM_graphAtEntry {addresses_map : OrderedMap ℕ ℕ} {entries : List AddressEntry}
    (h : Tracked ids memory_map d) (hop : op ∈ ids)
    (hfound : ∀ entry ∈ entries, entry.hit = 1 → ∃ e ∈ memory_map.toList,
      addresses_map.find? entry.start_end.start = some e.2.op_id) :
    ∃ d', entries.foldlM (MemoryLiveness.graphAtEntry addresses_map op stream_id) d = some d' ∧
      Tracked ids memory_map d' := by
  induction entries generalizing d with
  | nil => exact ⟨d, rfl, h⟩
  | cons entry entries ih =>
    have hturn : ∃ d₁, MemoryLiveness.graphAtEntry addresses_map op stream_id d entry = some d₁ ∧
        Tracked ids memory_map d₁ := by
      by_cases hmark : entry.hit = 1
      · obtain ⟨e, he, haddress⟩ := hfound entry List.mem_cons_self hmark
        unfold MemoryLiveness.graphAtEntry
        rw [if_pos hmark, haddress, Option.bind_some]
        split_ifs
        · exact h.access stream_id _ _ hop he
        · exact h.access stream_id _ _ hop he
        · exact ⟨d, rfl, h⟩
      · exact ⟨d, if_neg hmark, h⟩
    obtain ⟨d₁, hd₁, h₁⟩ := hturn
    obtain ⟨d', hd', h'⟩ := ih h₁ fun e he => hfound e (List.mem_cons_of_mem _ he)
    exact ⟨d', by rw [List.foldlM_cons, hd₁]; exact hd', h'⟩

end Accesses

/-! ## What the calls look up -/

/-- What a place on the device is found to be is a live block. -/
theorem queryPlace_found {memory_snapshot : MemorySnapshot} {host_op_id start : ℕ}
    (h : (Session.queryPlace memory_snapshot host_op_id false start).shadow_start ≠ 0) :
    ∃ e ∈ (contentAt memory_snapshot host_op_id).toList,
      e.2.op_id = (Session.queryPlace memory_snapshot host_op_id false start).memory_op_id := by
  unfold Session.queryPlace redshowMemoryQuery contentAt at *
  rw [if_neg Bool.false_ne_true] at *
  cases hsnapshot : memory_snapshot.prev host_op_id with
  | none =>
    rw [hsnapshot] at h
    exact absurd rfl h
  | some snapshot_iter =>
    rw [hsnapshot] at h
    dsimp only at h ⊢
    cases hblock : snapshot_iter.2.prev start with
    | none =>
      rw [hblock] at h
      exact absurd rfl h
    | some e =>
      rw [hblock] at h
      dsimp only at h ⊢
      split_ifs at h ⊢ with hstop
      · exact ⟨e, ((OrderedMap.prev_eq_some_iff _ _ _).1 hblock).1.1, rfl⟩
      · exact absurd rfl h

/-- What a place is found to be is the host or a live block. -/
theorem queryPlace_live {memory_snapshot : MemorySnapshot} {host_op_id start : ℕ} {host : Bool}
    (h : (Session.queryPlace memory_snapshot host_op_id host start).shadow_start ≠ 0)
    (hdevice : (Session.queryPlace memory_snapshot host_op_id host start).memory_op_id ≠
      REDSHOW_MEMORY_HOST) :
    ∃ e ∈ (contentAt memory_snapshot host_op_id).toList,
      e.2.op_id = (Session.queryPlace memory_snapshot host_op_id host start).memory_op_id := by
  cases host with
  | true => exact absurd rfl hdevice
  | false => exact queryPlace_found h

/-- What `redshow_memory_ranges_get` writes are starts of blocks. -/
theorem isSome_of_mem_writes {memory_snapshot : MemorySnapshot} {host_op_id limit : ℕ}
    {w : ℕ × ℕ × ℕ} (h : w ∈ (redshowMemoryRangesGet memory_snapshot host_op_id limit).writes) :
    ((contentAt memory_snapshot host_op_id).find? w.2.1).isSome := by
  unfold redshowMemoryRangesGet at h
  rw [(rangesGet_eq memory_snapshot host_op_id limit).1] at h
  obtain ⟨⟨e, i⟩, hmem, rfl⟩ := List.mem_map.1 h
  have hentry : e ∈ (contentAt memory_snapshot host_op_id).toList :=
    List.mem_of_getElem? (List.mem_zipIdx_iff_getElem?.1 hmem)
  rw [show (rangeEntry (e, i)).2.1 = e.1 from rfl, (OrderedMap.find?_eq_some_iff _ _ e.2).2 hentry]
  rfl

/-! ## Calls in order -/

@[simp] theorem memoryCalls_append_singleton (calls : List SessionCall) (c : SessionCall) :
    memoryCalls (calls ++ [c]) = memoryCalls calls ++ memoryCalls [c] :=
  List.filterMap_append

/-- One more call. -/
theorem kernelUsages_append_singleton (before calls : List SessionCall) (c : SessionCall) :
    kernelUsages before (calls ++ [c]) =
      kernelUsages before calls ++ kernelUsage (before ++ calls) c := by
  induction calls generalizing before with
  | nil =>
    rw [List.append_nil]
    exact List.append_nil _
  | cons c' calls ih =>
    have hrest := ih (before ++ [c'])
    rw [List.append_assoc] at hrest
    rw [List.cons_append, kernelUsages, kernelUsages, hrest, List.append_assoc]
    rfl

/-- The ids of the calls for blocks are among those of all calls. -/
theorem map_memoryCalls_subset (calls : List SessionCall) :
    (memoryCalls calls).map MemoryCall.host_op_id ⊆ calls.map SessionCall.host_op_id := by
  intro id hid
  obtain ⟨m, hm, rfl⟩ := List.mem_map.1 hid
  obtain ⟨c, hc, heq⟩ := List.mem_filterMap.1 hm
  cases c with
  | memory c =>
    obtain rfl := Option.some.inj heq
    exact List.mem_map.2 ⟨_, hc, rfl⟩
  | _ => cases heq

/-- A call looks up the live blocks. -/
theorem contentAt_eq_liveBlocks {id : ℕ} (h : ∀ k ∈ calls.map SessionCall.host_op_id, k ≤ id) :
    contentAt (storeAfter (memoryCalls calls)) id = liveBlocks calls := by
  refine contentAt_of_ge fun e he => h e.1 (map_memoryCalls_subset calls ?_)
  refine mem_of_find?_storeAfter ?_
  rw [(OrderedMap.find?_eq_some_iff _ e.1 e.2).2 he]
  rfl

/-! ## The state after calls -/

/-- The state after calls. -/
structure Session.Inv (calls : List SessionCall) (s : Session) : Prop where
  snapshot : s.tools.memory_snapshot = storeAfter (memoryCalls calls)
  blocks : Blocks ((memoryCalls calls).map MemoryCall.host_op_id) (liveBlocks calls)
  tracked : Tracked (calls.map SessionCall.host_op_id) (liveBlocks calls)
    s.tools.memory_liveness.deps
  liveness : Agrees (memoryCalls calls) s.tools.memory_liveness.liveObjects
  monitor : Agrees (memoryCalls calls) s.tools.torch_monitor.liveObjects
  liveness_peak : s.tools.memory_liveness.kernelPeak.IsFirstMax (kernelUsages [] calls)
  monitor_peak : s.kernel_peak.IsFirstMax (kernelUsages [] calls)
  usage_le : ∀ u ∈ kernelUsages [] calls, ∃ n ∈ usages (memoryCalls calls), u.2 ≤ n

/-- Before the first call. -/
theorem Session.inv_empty : Inv [] empty := by
  have htools := Tools.inv_empty
  have hpeak : (⟨0, 0⟩ : KernelPeak).IsFirstMax [] := ⟨by simp, .inl rfl⟩
  exact ⟨htools.snapshot, htools.blocks, htools.tracked, htools.liveness, htools.monitor, hpeak,
    hpeak, by simp [kernelUsages]⟩

namespace Session

/-- A call that does nothing to the blocks and has no dictionary. -/
theorem Inv.other (hs : Inv calls s) (hnone : memoryCalls [c] = [])
    (hkernel : kernelUsage calls c = []) {l : MemoryLiveness}
    (hsame : SameObjects s.tools.memory_liveness l)
    (htracked : Tracked (calls.map SessionCall.host_op_id ++ [c.host_op_id]) (liveBlocks calls)
      l.deps) : Inv (calls ++ [c]) (s.setLiveness l) := by
  have hcalls : memoryCalls (calls ++ [c]) = memoryCalls calls := by
    rw [memoryCalls_append_singleton, hnone, List.append_nil]
  have hblocks : liveBlocks (calls ++ [c]) = liveBlocks calls := by
    unfold liveBlocks
    rw [hcalls]
  have hkernels : kernelUsages [] (calls ++ [c]) = kernelUsages [] calls := by
    rw [kernelUsages_append_singleton, List.nil_append, hkernel, List.append_nil]
  constructor
  · rw [hcalls]
    exact hs.snapshot
  · rw [hcalls, hblocks]
    exact hs.blocks
  · rw [hblocks, List.map_append]
    exact htracked
  · rw [hcalls]
    exact hsame.liveObjects ▸ hs.liveness
  · rw [hcalls]
    exact hs.monitor
  · rw [hkernels]
    exact hsame.kernelPeak ▸ hs.liveness_peak
  · rw [hkernels]
    exact hs.monitor_peak
  · rw [hkernels, hcalls]
    exact hs.usage_le

/-- A call for a block, when everything else is in order. -/
theorem Inv.ofTools (hs : Inv calls s) {m : MemoryCall} {t : Tools}
    (hsnapshot : t.memory_snapshot = storeAfter (memoryCalls calls ++ [m]))
    (hblocks : Blocks ((memoryCalls calls).map MemoryCall.host_op_id ++ [m.host_op_id])
      (latest (storeAfter (memoryCalls calls ++ [m]))))
    (htracked : Tracked (calls.map SessionCall.host_op_id ++ [m.host_op_id])
      (latest (storeAfter (memoryCalls calls ++ [m]))) t.memory_liveness.deps)
    (hliveness : Agrees (memoryCalls calls ++ [m]) t.memory_liveness.liveObjects)
    (hmonitor : Agrees (memoryCalls calls ++ [m]) t.torch_monitor.liveObjects)
    (hpeak : t.memory_liveness.kernelPeak = s.tools.memory_liveness.kernelPeak) :
    Inv (calls ++ [.memory m]) { s with tools := t } := by
  have hcalls : memoryCalls (calls ++ [.memory m]) = memoryCalls calls ++ [m] :=
    memoryCalls_append_singleton calls (.memory m)
  have hkernels : kernelUsages [] (calls ++ [.memory m]) = kernelUsages [] calls := by
    rw [kernelUsages_append_singleton]
    exact List.append_nil _
  constructor
  · rw [hcalls]
    exact hsnapshot
  · unfold liveBlocks
    rw [hcalls, List.map_append]
    exact hblocks
  · unfold liveBlocks
    rw [hcalls, List.map_append]
    exact htracked
  · rw [hcalls]
    exact hliveness
  · rw [hcalls]
    exact hmonitor
  · rw [hkernels]
    exact hpeak ▸ hs.liveness_peak
  · rw [hkernels]
    exact hs.monitor_peak
  · intro u hu
    rw [hkernels] at hu
    obtain ⟨n, hn, hle⟩ := hs.usage_le u hu
    rw [hcalls, usages_append_singleton]
    exact ⟨n, .inr hn, hle⟩

/-- A release keeps the peak of the kernels. -/
theorem kernelPeak_memfreeOpCallback {l l' : MemoryLiveness} {u : Memfree}
    (h : l.memfreeOpCallback u = some l') : l'.kernelPeak = l.kernelPeak := by
  unfold MemoryLiveness.memfreeOpCallback at h
  obtain ⟨id, -, h⟩ := Option.bind_eq_some_iff.1 h
  obtain ⟨d, -, rfl⟩ := Option.map_eq_some_iff.1 h
  rfl

section Memory

variable {m : MemoryCall} {b : Memory} (hs : Inv calls s)
  (hids : ∀ id ∈ calls.map SessionCall.host_op_id, id < m.host_op_id)
  (hm : TenProf.Promised (liveBlocks calls) m)

include hs hids hm

/-- After an accepted register. -/
theorem Inv.register (hreg : m.registered = some b)
    (hnone : (liveBlocks calls).find? m.start = none)
    (hlatest : latest (storeAfter (memoryCalls calls ++ [m])) = m.apply (liveBlocks calls)) :
    ∃ t, Tools.opCallback { s.tools with memory_snapshot := storeAfter (memoryCalls calls ++ [m]) }
      m = some t ∧ Inv (calls ++ [.memory m]) { s with tools := t } := by
  cases m with
  | unregister stream_id memory_id host_op_id start stop =>
    exact absurd hreg (by simp [MemoryCall.registered])
  | register stream_id memory_id host_op_id start stop value value_cache =>
    let b := Memory.ofRange stream_id host_op_id memory_id ⟨start, stop⟩ value value_cache
    have hnew : b.op_id ∉ calls.map SessionCall.host_op_id := fun hmem => lt_irrefl _ (hids _ hmem)
    have hnew' : b.op_id ∉ (memoryCalls calls).map MemoryCall.host_op_id := fun hmem =>
      hnew (map_memoryCalls_subset calls hmem)
    have hblocks := hs.blocks.set hnone hnew' rfl (hm.bounded _ rfl) (hm.apart _ rfl)
    have hlt := hblocks.liveBytes_lt
    refine ⟨_, rfl, hs.ofTools rfl ?_ ?_ ?_ ?_ rfl⟩
    · rw [hlatest]
      exact hblocks
    · rw [hlatest]
      exact hs.tracked.allocate hnew
    · exact hs.liveness.allocate hs.blocks hnone hnew' hlatest (hlatest ▸ hlt)
    · exact hs.monitor.allocate hs.blocks hnone hnew' hlatest (hlatest ▸ hlt)

/-- After an accepted unregister. -/
theorem Inv.unregister (hreg : m.registered = none)
    (hfind : (liveBlocks calls).find? m.start = some b)
    (hlatest : latest (storeAfter (memoryCalls calls ++ [m])) = m.apply (liveBlocks calls)) :
    ∃ t, Tools.opCallback { s.tools with memory_snapshot := storeAfter (memoryCalls calls ++ [m]) }
      m = some t ∧ Inv (calls ++ [.memory m]) { s with tools := t } := by
  cases m with
  | register stream_id memory_id host_op_id start stop value value_cache =>
    exact absurd hreg (by simp [MemoryCall.registered])
  | unregister stream_id memory_id host_op_id start stop =>
    have hentry := ((liveBlocks calls).find?_eq_some_iff _ _).1 hfind
    have hrange : b.memory_range = ⟨start, stop⟩ := hm.range _ rfl b hfind
    have hlen : subU64 stop start = b.len := by rw [hs.blocks.len_eq _ hentry, hrange]
    let u := Memfree.ofRange stream_id host_op_id memory_id ⟨start, stop⟩
    obtain ⟨o, ho, hliveness⟩ := hs.liveness.release (u := u) hs.blocks hfind hlen hlatest
    obtain ⟨o', ho', hmonitor⟩ := hs.monitor.release (u := u) hs.blocks hfind hlen hlatest
    have haddress : s.tools.memory_liveness.addresses_map.find? start = some b.op_id :=
      (hs.liveness.mirrors.addresses start).trans (congrArg (Option.map Memory.op_id) hfind)
    obtain ⟨l, hl, rfl, htracked⟩ := hs.tracked.release ho hfind haddress
    obtain ⟨t, ht, rfl⟩ : ∃ t, s.tools.torch_monitor.memfreeOpCallback u = some t ∧
        t.liveObjects = o' := by
      obtain ⟨id, hid, rfl⟩ := Option.map_eq_some_iff.1 ho'
      refine ⟨_, Option.map_eq_some_iff.2 ⟨id, hid, rfl⟩, rfl⟩
    refine ⟨⟨storeAfter (memoryCalls calls ++
      [.unregister stream_id memory_id host_op_id start stop]), l, t⟩, ?_,
      hs.ofTools rfl ?_ ?_ hliveness hmonitor (kernelPeak_memfreeOpCallback hl)⟩
    · unfold Tools.opCallback
      dsimp only
      rw [hl, Option.bind_some, ht, Option.map_some]
    · rw [hlatest]
      exact hs.blocks.erase start host_op_id
    · rw [hlatest]
      exact htracked

/-- A call for a block, with a new id. -/
theorem Inv.memory : ∃ t, s.tools.step m = some t ∧
    Inv (calls ++ [.memory m]) { s with tools := t } := by
  have hafter := storeAfter_append_singleton (memoryCalls calls) m
  have hids' : ∀ id ∈ (memoryCalls calls).map MemoryCall.host_op_id, id < m.host_op_id :=
    fun id hid => hids id (map_memoryCalls_subset calls hid)
  unfold Tools.step
  dsimp only
  rw [hs.snapshot]
  rcases latest_storeStep (lt_of_mem_storeAfter hids') with ⟨hacc, hres, hlatest⟩ | ⟨hres, hsame⟩
  · rw [if_pos hres, ← hafter]
    rw [← hafter] at hlatest
    have hcontent := contentAt_of_ge fun e he => (lt_of_mem_storeAfter hids' e he).le
    unfold MemoryCall.Accepted at hacc
    rw [hcontent] at hacc
    cases hreg : m.registered with
    | some b =>
      rw [hreg] at hacc
      refine hs.register hids hm hreg ?_ hlatest
      rcases hacc with hsize | ⟨-, hnone⟩
      · unfold liveBlocks
        rw [← hcontent, contentAt_of_size hsize]
        rfl
      · exact hnone
    | none =>
      rw [hreg] at hacc
      obtain ⟨b, hb⟩ := Option.isSome_iff_exists.1 hacc.2
      exact hs.unregister hids hm hreg hb hlatest
  · have hsame' : storeAfter (memoryCalls calls ++ [m]) = storeAfter (memoryCalls calls) :=
      hafter.trans hsame
    rw [if_neg hres, ← hafter]
    refine ⟨_, rfl, hs.ofTools rfl ?_ ?_ (hs.liveness.reject hsame') (hs.monitor.reject hsame')
      rfl⟩
    · rw [hsame']
      exact hs.blocks.mono _
    · rw [hsame']
      exact hs.tracked.mono _

end Memory

/-- A trace of a kernel, when everything else is in order. -/
theorem Inv.kernel (hs : Inv calls s) {kernel_id : ℤ} {host_op_id stream_id : ℕ} {aux : AddressDict}
    {s' : MemoryLiveness} {p : KernelPeak}
    (htracked : Tracked (calls.map SessionCall.host_op_id ++ [host_op_id]) (liveBlocks calls)
      s'.deps) (hobjects : s'.liveObjects = s.tools.memory_liveness.liveObjects)
    (hpeak : s'.kernelPeak = s.tools.memory_liveness.kernelPeak.update host_op_id
      (hitBytes (liveBlocks calls) aux))
    (hpeak' : p = s.kernel_peak.update host_op_id (hitBytes (liveBlocks calls) aux)) :
    Inv (calls ++ [.analyze kernel_id host_op_id stream_id (some aux)])
      { s.setLiveness s' with kernel_peak := p } := by
  have hcalls : memoryCalls (calls ++ [.analyze kernel_id host_op_id stream_id (some aux)]) =
      memoryCalls calls := (memoryCalls_append_singleton calls _).trans (List.append_nil _)
  have hkernels : kernelUsages [] (calls ++ [.analyze kernel_id host_op_id stream_id (some aux)]) =
      kernelUsages [] calls ++ [(host_op_id, hitBytes (liveBlocks calls) aux)] :=
    kernelUsages_append_singleton [] calls _
  constructor
  · rw [hcalls]
    exact hs.snapshot
  · unfold liveBlocks
    rw [hcalls]
    exact hs.blocks
  · unfold liveBlocks
    rw [hcalls, List.map_append]
    exact htracked
  · rw [hcalls]
    exact hobjects ▸ hs.liveness
  · rw [hcalls]
    exact hs.monitor
  · rw [hkernels]
    exact hpeak ▸ hs.liveness_peak.update _ _
  · rw [hkernels]
    exact hpeak' ▸ hs.monitor_peak.update _ _
  · intro u hu
    rw [hkernels] at hu
    rw [hcalls]
    rcases List.mem_append.1 hu with hu | hu
    · exact hs.usage_le u hu
    · rw [List.mem_singleton.1 hu]
      exact ⟨_, mem_usages _, bytesAt_le _ _⟩

section Step

variable (hs : Inv calls s) (hids : ∀ id ∈ calls.map SessionCall.host_op_id, id ≤ c.host_op_id)

include hs hids

/-- A copy of memory. -/
theorem Inv.memcpy {memcpy_id : ℤ} {host_op_id : ℕ} {src_host : Bool} {src_stream_id src_start : ℕ}
    {dst_host : Bool} {dst_stream_id dst_start len : ℕ}
    (hc : c = .memcpy memcpy_id host_op_id src_host src_stream_id src_start dst_host dst_stream_id
      dst_start len) : ∃ s', s.step c = some s' ∧ Inv (calls ++ [c]) s' := by
  subst hc
  have hmono := hs.tracked.mono host_op_id
  have hop : host_op_id ∈ calls.map SessionCall.host_op_id ++ [host_op_id] := by simp
  have hlive : contentAt s.tools.memory_snapshot host_op_id = liveBlocks calls := by
    rw [hs.snapshot]
    exact contentAt_eq_liveBlocks hids
  unfold step memcpyRegister
  dsimp only
  split_ifs with hfound
  · obtain ⟨l, hl, hsame, htracked⟩ := exists_memcpyOpCallback hmono
      ⟨host_op_id, memcpy_id, _, src_stream_id, src_start, _, dst_stream_id, dst_start, len⟩ hop
      (fun hdevice => hlive ▸ queryPlace_live hfound.2 hdevice)
      (fun hdevice => hlive ▸ queryPlace_live hfound.1 hdevice)
    rw [hl, Option.map_some]
    exact ⟨_, rfl, hs.other rfl rfl hsame htracked⟩
  · exact ⟨s, rfl, hs.other rfl rfl ⟨rfl, rfl⟩ hmono⟩

/-- A set of memory. -/
theorem Inv.memset {stream_id : ℕ} {memset_id : ℤ} {host_op_id start value len : ℕ}
    (hc : c = .memset stream_id memset_id host_op_id start value len) :
    ∃ s', s.step c = some s' ∧ Inv (calls ++ [c]) s' := by
  subst hc
  have hmono := hs.tracked.mono host_op_id
  have hop : host_op_id ∈ calls.map SessionCall.host_op_id ++ [host_op_id] := by simp
  have hlive : contentAt s.tools.memory_snapshot host_op_id = liveBlocks calls := by
    rw [hs.snapshot]
    exact contentAt_eq_liveBlocks hids
  unfold step memsetRegister
  dsimp only
  split_ifs with hfound
  · -- The ids of live blocks stand for allocations, so that the place is not the host.
    obtain ⟨e, he, hid⟩ := queryPlace_found hfound
    rw [hlive] at he
    obtain ⟨l, hl, hsame, htracked⟩ := exists_memsetOpCallback hmono
      ⟨host_op_id, memset_id, _, stream_id, start, len⟩ hop ⟨e, he, hid⟩
    rw [hl, Option.map_some]
    exact ⟨_, rfl, hs.other rfl rfl hsame htracked⟩
  · exact ⟨s, rfl, hs.other rfl rfl ⟨rfl, rfl⟩ hmono⟩

/-- A trace of a kernel. -/
theorem Inv.analyze {kernel_id : ℤ} {host_op_id stream_id : ℕ} {aux : Option AddressDict}
    (hc : c = .analyze kernel_id host_op_id stream_id aux) (hpromised : c.Promised calls) :
    ∃ s', s.step c = some s' ∧ Inv (calls ++ [c]) s' := by
  subst hc
  have hmono := hs.tracked.mono host_op_id
  have hop : host_op_id ∈ calls.map SessionCall.host_op_id ++ [host_op_id] := by simp
  have hlive : contentAt (storeAfter (memoryCalls calls)) host_op_id = liveBlocks calls :=
    contentAt_eq_liveBlocks hids
  cases aux with
  | none =>
    refine ⟨s, ?_, hs.other rfl rfl ⟨rfl, rfl⟩ hmono⟩
    unfold step traceAnalyze
    cases hprev : s.tools.memory_snapshot.prev host_op_id with
    | none =>
      simp only [hprev]
    | some memory_map =>
      simp only [hprev]
      rfl
  | some aux =>
    have hcovers : Covers (liveBlocks calls) aux.entries := fun entry hentry _ => by
      obtain ⟨limit, w, hw, heq⟩ := hpromised entry hentry
      have hstart := isSome_of_mem_writes hw
      rwa [hlive, heq] at hstart
    unfold step traceAnalyze
    dsimp only
    cases hprev : s.tools.memory_snapshot.prev host_op_id with
    | none =>
      -- Without a snapshot there are no live blocks, and the kernel accessed nothing.
      have hnothing : hitBytes (liveBlocks calls) aux = 0 := by
        rw [← hlive, ← hs.snapshot]
        unfold contentAt
        rw [hprev]
        rfl
      refine ⟨s, rfl, hs.kernel hmono rfl ?_ ?_⟩
      · rw [hnothing]
        exact (KernelPeak.update_zero _ _).symm
      · rw [hnothing]
        exact (KernelPeak.update_zero _ _).symm
    | some snapshot_iter =>
      obtain ⟨l, hl, hobjects, hdeps, hpeak⟩ := MemoryLiveness.exists_updateAuxHit hs.blocks hcovers
        hs.liveness.mirrors host_op_id
      have hmonitor := TorchMonitor.updateAuxHit_eq hs.blocks hcovers hs.monitor.mirrors
        s.kernel_peak host_op_id
      have haddresses : l.addresses_map = s.tools.memory_liveness.addresses_map :=
        congrArg LiveObjects.addresses_map hobjects
      -- The marks are of live blocks.
      have hfound : ∀ entry ∈ aux.entries, entry.hit = 1 → ∃ e ∈ (liveBlocks calls).toList,
          l.addresses_map.find? entry.start_end.start = some e.2.op_id := by
        intro entry hentry hmark
        obtain ⟨b, hb⟩ := Option.isSome_iff_exists.1 (hcovers entry hentry hmark)
        refine ⟨_, ((liveBlocks calls).find?_eq_some_iff _ _).1 hb, ?_⟩
        rw [haddresses]
        exact (hs.liveness.mirrors.find? hs.blocks hb).1
      obtain ⟨d, hd, htracked⟩ := exists_foldlM_graphAtEntry stream_id (hdeps ▸ hmono) hop hfound
      unfold analysisBegin MemoryLiveness.analysisBegin
      dsimp only
      rw [hl, Option.bind_some]
      unfold MemoryLiveness.updateGraphAtKernel
      rw [hd, Option.map_some, Option.bind_some, hmonitor, Option.map_some]
      exact ⟨_, rfl, hs.kernel htracked hobjects hpeak rfl⟩

/-- The end of a kernel. -/
theorem Inv.kernelEnd {cpu_thread stream_id : ℕ} {kernel_id : ℤ} {host_op_id : ℕ}
    (hc : c = .kernelEnd cpu_thread stream_id kernel_id host_op_id) :
    ∃ s', s.step c = some s' ∧ Inv (calls ++ [c]) s' := by
  subst hc
  exact ⟨_, rfl, hs.other rfl rfl ⟨rfl, rfl⟩ (hs.tracked.mono host_op_id)⟩

/-- A call whose id is not below those before it, and new if it is one for a block. -/
theorem Inv.step (hnew : c.memoryCall.isSome → ∀ id ∈ calls.map SessionCall.host_op_id,
    id < c.host_op_id) (hpromised : c.Promised calls) :
    ∃ s', s.step c = some s' ∧ Inv (calls ++ [c]) s' := by
  cases hc : c with
  | memory m =>
    subst hc
    obtain ⟨t, ht, hinv⟩ := hs.memory (hnew rfl) hpromised
    exact ⟨_, Option.map_eq_some_iff.2 ⟨t, ht, rfl⟩, hinv⟩
  | memcpy => exact hc ▸ hs.memcpy hids hc
  | memset => exact hc ▸ hs.memset hids hc
  | analyze => exact hc ▸ hs.analyze hids hc hpromised
  | kernelEnd => exact hc ▸ hs.kernelEnd hids hc

end Step

/-- After calls in order, each with what it is promised, everything is in step. -/
theorem inv_run (horder : InOrder calls)
    (hcalls : ∀ before c later, calls = before ++ c :: later → c.Promised before) :
    ∃ s, run step empty calls = some s ∧ Inv calls s := by
  induction calls using List.reverseRecOn with
  | nil => exact ⟨_, rfl, inv_empty⟩
  | append_singleton calls c ih =>
    obtain ⟨horder, -, hlast⟩ := List.pairwise_append.1 horder
    obtain ⟨s, hrun, hs⟩ := ih horder fun before c' later heq => by
      refine hcalls before c' (later ++ [c]) ?_
      rw [heq, List.append_assoc, List.cons_append]
    -- The calls before are related to the last one.
    have hids : ∀ id ∈ calls.map SessionCall.host_op_id, id ≤ c.host_op_id := fun id hid => by
      obtain ⟨c', hc', rfl⟩ := List.mem_map.1 hid
      exact (hlast c' hc' c (List.mem_singleton_self c)).1
    have hnew : c.memoryCall.isSome → ∀ id ∈ calls.map SessionCall.host_op_id,
        id < c.host_op_id := fun hm id hid => by
      obtain ⟨c', hc', rfl⟩ := List.mem_map.1 hid
      exact (hlast c' hc' c (List.mem_singleton_self c)).2 hm
    obtain ⟨s', hstep, hs'⟩ := hs.step hids hnew (hcalls calls c [] rfl)
    exact ⟨s', run_append_singleton.2 ⟨s, hrun, hstep⟩, hs'⟩

/-- What holds after calls: the store is that of the calls for blocks alone, both analyses agree
with it, and both keep the largest number of live bytes that a kernel accessed, with the first
kernel that did, which is not above the peak of the memory. -/
structure InStep (calls : List SessionCall) (s : Session) : Prop where
  snapshot : s.tools.memory_snapshot = storeAfter (memoryCalls calls)
  liveness : Agrees (memoryCalls calls) s.tools.memory_liveness.liveObjects
  monitor : Agrees (memoryCalls calls) s.tools.torch_monitor.liveObjects
  liveness_peak : s.tools.memory_liveness.kernelPeak.IsFirstMax (kernelUsages [] calls)
  monitor_peak : s.kernel_peak.IsFirstMax (kernelUsages [] calls)
  liveness_peak_le : s.tools.memory_liveness.optimal_memory_peak ≤
    s.tools.memory_liveness.current_memory_peak
  monitor_peak_le : s.kernel_peak.optimal_memory_peak ≤ s.tools.torch_monitor.memory_peak

/-- The peak of the kernels is not above that of the memory. -/
theorem Inv.peak_le (hs : Inv calls s) {p : KernelPeak}
    (hp : p.IsFirstMax (kernelUsages [] calls)) {o : LiveObjects}
    (ho : Agrees (memoryCalls calls) o) : p.optimal_memory_peak ≤ o.peak := by
  rcases hp.first with rfl | ⟨before, after, heq, -⟩
  · exact Nat.zero_le _
  · obtain ⟨n, hn, hle⟩ := hs.usage_le (p.memory_peak_kernel, p.optimal_memory_peak)
      (heq ▸ List.mem_append_right _ List.mem_cons_self)
    exact hle.trans (ho.peak.2 hn)

/-- In every session whose ids do not decrease, no callback fails, and everything is in step after
every call. -/
theorem session_run (horder : InOrder calls)
    (hcalls : ∀ before c later, calls = before ++ c :: later → c.Promised before)
    {done : List SessionCall} (hdone : done <+: calls) :
    ∃ s, run step empty done = some s ∧ InStep done s := by
  obtain ⟨rest, rfl⟩ := hdone
  obtain ⟨s, hrun, hs⟩ := inv_run (List.pairwise_append.1 horder).1 fun before c later heq => by
    refine hcalls before c (later ++ rest) ?_
    rw [heq, List.append_assoc, List.cons_append]
  exact ⟨s, hrun, hs.snapshot, hs.liveness, hs.monitor, hs.liveness_peak, hs.monitor_peak,
    hs.peak_le hs.liveness_peak hs.liveness, hs.peak_le hs.monitor_peak hs.monitor⟩

/-- The dictionary of a kernel that wrote the first of two blocks. -/
def firstWritten : AddressDict :=
  ⟨[⟨⟨100, 110⟩, 1, 0, 1⟩, ⟨⟨200, 230⟩, 0, 0, 0⟩], by decide⟩

/-- Two blocks are registered, one is set, and copied to the host, a kernel writes it, and it is
released. -/
def setCopyWrite : List SessionCall :=
  [.memory (.register 0 1 7 100 110 1000 2000), .memory (.register 0 1 8 200 230 3000 4000),
    .memset 0 1 9 100 0 10, .memcpy 1 10 false 0 105 true 0 9999 5,
    .analyze 1 11 0 (some firstWritten), .kernelEnd 0 0 1 11,
    .memory (.unregister 0 1 12 100 110)]

/-- The statement about sessions applies to this one. -/
theorem session_run_setCopyWrite : ∃ s, run step empty setCopyWrite = some s ∧
    InStep setCopyWrite s := by
  refine @session_run setCopyWrite (by decide) (fun before c later heq => ?_) _ List.prefix_rfl
  rcases before with _ | ⟨c₁, _ | ⟨c₂, _ | ⟨c₃, _ | ⟨c₄, _ | ⟨c₅, _ | ⟨c₆, _ | ⟨c₇, rest⟩⟩⟩⟩⟩⟩⟩ <;>
    simp only [setCopyWrite, List.cons_append, List.nil_append, List.cons.injEq] at heq
  · obtain ⟨rfl, -⟩ := heq
    exact ⟨by decide, by decide, by decide⟩
  · obtain ⟨rfl, rfl, -⟩ := heq
    exact ⟨by decide, by decide, by decide⟩
  · obtain ⟨rfl, rfl, rfl, -⟩ := heq
    trivial
  · obtain ⟨rfl, rfl, rfl, rfl, -⟩ := heq
    trivial
  · obtain ⟨rfl, rfl, rfl, rfl, rfl, -⟩ := heq
    exact fun entry hentry => ⟨2, by revert entry; decide⟩
  · obtain ⟨rfl, rfl, rfl, rfl, rfl, rfl, -⟩ := heq
    trivial
  · obtain ⟨rfl, rfl, rfl, rfl, rfl, rfl, rfl, -⟩ := heq
    exact ⟨by decide, by decide, by decide⟩
  · exact absurd heq (by simp)

end Session

end TenProf
