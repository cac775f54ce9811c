import TenProf.Library.LockOrder
import TenProf.DataFlow.State
import TenProf.TorchMonitor.Profiler
import Mathlib.Data.Fin.VecNotation

/-!
# The locks of the tool

Two kinds of callbacks run in the tool, on any number of threads: those of the torch monitor, and
those of the sanitizer, which may hold the lock `entry->lock` of a CUDA context while it calls the
interface of redshow. Either may be entered with or without the GIL. The definitions here give for
each function the locks that it takes and releases, in the order of the source; what a function does
between them is modelled elsewhere. The branches on which the locks depend are arguments.

The comments in the source ask for the order GIL, `entry->lock`, the mutex of the torch view, and
then the others. `completes_iff` says when this keeps the threads from a deadlock: exactly when the
liveness analysis is not enabled. Its `op_callback` fetches the Python state, and so takes the GIL,
under its own lock.
-/

namespace TenProf.Locks

open DataFlow (OperationType)
open Profiler (CallbackSite Domain)

/-- The keys of `analysis_enabled`, from `redshow_analysis_type_t`. -/
inductive AnalysisType
  | REDSHOW_ANALYSIS_SPATIAL_REDUNDANCY
  | REDSHOW_ANALYSIS_TEMPORAL_REDUNDANCY
  | REDSHOW_ANALYSIS_VALUE_PATTERN
  | REDSHOW_ANALYSIS_DATA_FLOW
  | REDSHOW_ANALYSIS_MEMORY_PROFILE
  | REDSHOW_ANALYSIS_MEMORY_HEATMAP
  | REDSHOW_ANALYSIS_MEMORY_LIVENESS
  | REDSHOW_ANALYSIS_DATA_DEPENDENCY
  | REDSHOW_ANALYSIS_TORCH_MONITOR
  | REDSHOW_ANALYSIS_TORCH_VIEW
  deriving DecidableEq, Repr

/-- A lock. -/
inductive Lock
  /-- The lock of the Python interpreter. -/
  | gil
  /-- `entry->lock` of the sanitizer for a context. -/
  | entry (context : ℕ)
  /-- `mtx` of `redshow.cpp`. -/
  | mtx
  | memory_snapshot
  | sub_memory_snapshot
  | cubin_map
  | cubin_cache_map
  /-- `Analysis::_lock` of an analysis. -/
  | analysis (type : AnalysisType)
  deriving DecidableEq, Repr

/-- The order of the locks. `gil_scoped_acquire` may be entered again by the thread that holds the
GIL, and the others are plain mutexes. -/
def lockOrder : LockOrder Lock where
  reentrant
    | .gil => true
    | _ => false
  rank
    | .gil => 0
    | .entry _ => 1
    | .mtx => 2
    | _ => 3

/-! ## The analyses -/

/-- `get_states`. -/
def getStates (cached : Bool) : List (LockOp Lock) := if cached then [] else locked .gil []

/-- Whether an operation makes the liveness analysis fetch the Python state; `submemories` says
whether `_submemories` has an entry. -/
def livenessFetches (op : OperationType) (is_submemory submemories : Bool) : Bool :=
  match op with
  | .OPERATION_TYPE_KERNEL => submemories
  | .OPERATION_TYPE_MEMORY => is_submemory
  | .OPERATION_TYPE_MEMFREE => is_submemory
  | .OPERATION_TYPE_MEMCPY => false
  | .OPERATION_TYPE_MEMSET => false

/-- `TorchView::op_callback`. -/
def torchViewOpCallback : OperationType → List (LockOp Lock)
  | .OPERATION_TYPE_KERNEL => getStates true ++ locked .mtx []
  | .OPERATION_TYPE_MEMORY => []
  | .OPERATION_TYPE_MEMFREE => []
  | .OPERATION_TYPE_MEMCPY => locked .mtx []
  | .OPERATION_TYPE_MEMSET => locked .mtx []

/-- `op_callback` of an analysis. -/
def opCallback (op : OperationType) (is_submemory submemories : Bool) (type : AnalysisType) :
    List (LockOp Lock) :=
  match type with
  | .REDSHOW_ANALYSIS_SPATIAL_REDUNDANCY => []
  | .REDSHOW_ANALYSIS_TEMPORAL_REDUNDANCY => []
  | .REDSHOW_ANALYSIS_VALUE_PATTERN => []
  | .REDSHOW_ANALYSIS_MEMORY_LIVENESS =>
    locked (.analysis type)
      (if livenessFetches op is_submemory submemories then getStates false else [])
  | .REDSHOW_ANALYSIS_TORCH_VIEW => torchViewOpCallback op
  | _ => locked (.analysis type) []

/-- `analysis_begin` of an analysis. -/
def analysisBegin (type : AnalysisType) : List (LockOp Lock) :=
  match type with
  | .REDSHOW_ANALYSIS_MEMORY_HEATMAP => []
  | .REDSHOW_ANALYSIS_MEMORY_LIVENESS => []
  | _ => locked (.analysis type) []

/-- `flush_thread` of an analysis that has traced some kernels of the thread. -/
def flushThread (kernels : ℕ) (type : AnalysisType) : List (LockOp Lock) :=
  match type with
  | .REDSHOW_ANALYSIS_SPATIAL_REDUNDANCY =>
    locked (.analysis type) [] ++ (List.replicate kernels (locked .cubin_map [])).flatten
  | .REDSHOW_ANALYSIS_TEMPORAL_REDUNDANCY =>
    locked (.analysis type) [] ++ (List.replicate kernels (locked .cubin_map [])).flatten
  | .REDSHOW_ANALYSIS_VALUE_PATTERN => if kernels = 0 then [] else locked (.analysis type) []
  | _ => []

/-! ## The interface -/

/-- `redshow_cubin_register`; `analyzed` says that the file could be read or is missing. -/
def cubinRegister (analyzed : Bool) : List (LockOp Lock) :=
  if analyzed then locked .cubin_map [] else []

/-- What `trace_analyze` finds: the code in the map, or else in the cache, how its registration
ends, whether the map has it then, and the snapshot of the memory. -/
structure TraceLookups where
  found : Bool
  cached : Bool
  analyzed : Bool
  registered : Bool
  refound : Bool
  snapshot : Bool
  deriving DecidableEq, Repr

/-- The part of `trace_analyze` that looks for code which is not in the map. -/
def fetchCubin (lookups : TraceLookups) : List (LockOp Lock) :=
  locked .cubin_cache_map [] ++
    if lookups.cached then
      cubinRegister lookups.analyzed ++ if lookups.registered then locked .cubin_map [] else []
    else
      []

/-- The code is known in the end. -/
def TraceLookups.known (lookups : TraceLookups) : Bool :=
  lookups.found || (lookups.cached && lookups.registered && lookups.refound)

/-- `trace_analyze`. The analysis of the records takes no lock, nor does `analysis_end`. -/
def traceAnalyze (enabled : List AnalysisType) (lookups : TraceLookups) : List (LockOp Lock) :=
  locked .cubin_map [] ++ (if lookups.found then [] else fetchCubin lookups) ++
    if lookups.known then
      locked .memory_snapshot [] ++ if lookups.snapshot then enabled.flatMap analysisBegin else []
    else
      []

/-- A call of the interface with the outcomes on which its locks depend. -/
inductive InterfaceCall
  | memory_register (registered : Bool)
  | memory_unregister (unregistered : Bool)
  | submemory_register (registered submemories : Bool)
  | submemory_unregister (unregistered submemories : Bool)
  | memory_query
  | memory_ranges_get
  | submemory_ranges_get
  | memcpy_register (src_host dst_host found : Bool)
  | memset_register (found : Bool)
  | kernel_begin
  | kernel_end (submemories : Bool)
  | cubin_register (analyzed : Bool)
  | cubin_cache_register
  | cubin_unregister
  | analyze (lookups : TraceLookups)
  | analysis_begin
  | analysis_end (erases : Bool)
  | flush_thread (kernels : AnalysisType → ℕ)
  | flush
  | torchview_ongpu_get_range_size
  | torchview_assemble_patch_analysis_address

namespace InterfaceCall

/-- The locks of a call. -/
def locks (enabled : List AnalysisType) : InterfaceCall → List (LockOp Lock)
  | memory_register registered =>
    locked .memory_snapshot [] ++
      if registered then enabled.flatMap (opCallback .OPERATION_TYPE_MEMORY false false) else []
  | memory_unregister unregistered =>
    locked .memory_snapshot [] ++
      if unregistered then enabled.flatMap (opCallback .OPERATION_TYPE_MEMFREE false false) else []
  | submemory_register registered submemories =>
    locked .sub_memory_snapshot [] ++
      if registered then enabled.flatMap (opCallback .OPERATION_TYPE_MEMORY true submemories) else []
  | submemory_unregister unregistered submemories =>
    locked .sub_memory_snapshot [] ++
      if unregistered then enabled.flatMap (opCallback .OPERATION_TYPE_MEMFREE true submemories)
      else []
  | memory_query => locked .memory_snapshot []
  | memory_ranges_get => locked .memory_snapshot []
  | submemory_ranges_get => locked .sub_memory_snapshot []
  | memcpy_register src_host dst_host found =>
    (if src_host then [] else locked .memory_snapshot []) ++
      (if dst_host then [] else locked .memory_snapshot []) ++
      if found then enabled.flatMap (opCallback .OPERATION_TYPE_MEMCPY false false) else []
  | memset_register found =>
    locked .memory_snapshot [] ++
      if found then enabled.flatMap (opCallback .OPERATION_TYPE_MEMSET false false) else []
  | kernel_begin => []
  | kernel_end submemories =>
    enabled.flatMap (opCallback .OPERATION_TYPE_KERNEL false submemories)
  | cubin_register analyzed => cubinRegister analyzed
  | cubin_cache_register => locked .cubin_cache_map []
  | cubin_unregister => locked .cubin_map []
  | analyze lookups => traceAnalyze enabled lookups
  | analysis_begin => []
  | analysis_end erases => if erases then locked .memory_snapshot [] else []
  | flush_thread kernels => enabled.flatMap fun type => flushThread (kernels type) type
  | flush => []
  | torchview_ongpu_get_range_size => locked .mtx []
  | torchview_assemble_patch_analysis_address => locked .mtx []

end InterfaceCall

/-! ## The callbacks -/

/-- `torch_view_callback`; `updates` is how often it calls `update_view_forest` or
`delete_forest_tree`, which take the lock of the analysis. -/
def torchViewCallback (enabled : List AnalysisType) (site : CallbackSite) (domain : Domain)
    (updates : ℕ) : List (LockOp Lock) :=
  (if site = .ENTER ∧ domain ≠ .MEMORY then getStates false else []) ++
    locked .mtx (if .REDSHOW_ANALYSIS_TORCH_VIEW ∈ enabled then
      (List.replicate updates (locked (.analysis .REDSHOW_ANALYSIS_TORCH_VIEW) [])).flatten
    else
      [])

/-- `torch_memory_callback`; `gpu` and `alloc` are the type of the device and of the data. -/
def torchMemoryCallback (enabled : List AnalysisType) (site : CallbackSite) (domain : Domain)
    (gpu alloc success submemories : Bool) : List (LockOp Lock) :=
  if site = .ENTER ∧ domain = .MEMORY ∧ gpu = true then
    if alloc then (InterfaceCall.submemory_register success submemories).locks enabled
    else (InterfaceCall.submemory_unregister success submemories).locks enabled
  else
    []

/-- A callback into the tool. -/
inductive Callback
  /-- The torch monitor calls `torch_view_callback`. -/
  | torchView (gil : Bool) (site : CallbackSite) (domain : Domain) (updates : ℕ)
  /-- The torch monitor calls `torch_memory_callback`. -/
  | torchMemory (gil : Bool) (site : CallbackSite) (domain : Domain)
      (gpu alloc success submemories : Bool)
  /-- The sanitizer calls the interface, with the lock of a context or without. -/
  | sanitizer (gil : Bool) (entry : Option ℕ) (calls : List InterfaceCall)

/-- What a thread does that holds the GIL, if it does. -/
def underGil (gil : Bool) (ops : List (LockOp Lock)) : List (LockOp Lock) :=
  if gil then locked .gil ops else ops

/-- What a thread does that holds the lock of a context, if it does. -/
def underEntry (entry : Option ℕ) (ops : List (LockOp Lock)) : List (LockOp Lock) :=
  match entry with
  | none => ops
  | some context => locked (.entry context) ops

/-- The locks of a callback. -/
def Callback.locks (enabled : List AnalysisType) : Callback → List (LockOp Lock)
  | torchView gil site domain updates =>
    underGil gil (torchViewCallback enabled site domain updates)
  | torchMemory gil site domain gpu alloc success submemories =>
    underGil gil (torchMemoryCallback enabled site domain gpu alloc success submemories)
  | sanitizer gil entry calls =>
    underGil gil (underEntry entry (calls.flatMap (InterfaceCall.locks enabled)))

/-- Some threads with the callbacks that they will make, at the start. -/
def start (enabled : List AnalysisType) {ι : Type*} (threads : ι → List Callback) :
    LockState ι Lock :=
  LockState.start fun i => (threads i).flatMap (Callback.locks enabled)

/-! ## The order of each function -/

variable {enabled : List AnalysisType} {held : List Lock} {l : Lock} {ops : List (LockOp Lock)}

/-- The locks held are below those of the tool. -/
def Outer (held : List Lock) : Prop := ∀ k ∈ held, lockOrder.rank k < lockOrder.rank .mtx

/-- The liveness analysis is off, or its fetch finds the GIL held. -/
def Guarded (enabled : List AnalysisType) (held : List Lock) : Prop :=
  .REDSHOW_ANALYSIS_MEMORY_LIVENESS ∈ enabled → .gil ∈ held

/-- A lock of the tool is above the others that are held. -/
theorem Outer.above (h : Outer held) (hl : lockOrder.rank .mtx ≤ lockOrder.rank l) :
    ∀ k ∈ held, lockOrder.rank k < lockOrder.rank l := fun k hk => (h k hk).trans_le hl

/-- A section under a lock of the tool. -/
theorem Outer.locked (h : Outer held) (hl : lockOrder.rank .mtx ≤ lockOrder.rank l)
    (hops : lockOrder.Balanced (l :: held) ops) : lockOrder.Balanced held (locked l ops) :=
  .locked (.inr (h.above hl)) hops

/-- An empty section under a lock of the tool. -/
theorem Outer.locked_nil (h : Outer held) (hl : lockOrder.rank .mtx ≤ lockOrder.rank l := by decide) :
    lockOrder.Balanced held (TenProf.locked l []) := h.locked hl LockOrder.balanced_nil

/-- The lock of an analysis, with nothing under it. -/
theorem Outer.analysis (h : Outer held) (type : AnalysisType) :
    lockOrder.Balanced held (TenProf.locked (.analysis type) []) :=
  h.locked_nil (Nat.le_succ 2)

/-- A thread may take the GIL when it holds it or holds nothing. -/
theorem balanced_getStates (cached : Bool) (h : .gil ∈ held ∨ held = []) :
    lockOrder.Balanced held (getStates cached) := by
  unfold getStates
  refine .ite (fun _ => LockOrder.balanced_nil) fun _ => ?_
  refine .locked ?_ LockOrder.balanced_nil
  rcases h with h | rfl
  · exact .inl ⟨rfl, h⟩
  · exact .inr fun k hk => absurd hk List.not_mem_nil

/-- `op_callback` of an analysis that is on. -/
theorem balanced_opCallback (h : Outer held) (hguard : Guarded enabled held) (op : OperationType)
    (is_submemory submemories : Bool) {type : AnalysisType} (htype : type ∈ enabled) :
    lockOrder.Balanced held (opCallback op is_submemory submemories type) := by
  cases type with
  | REDSHOW_ANALYSIS_SPATIAL_REDUNDANCY => exact LockOrder.balanced_nil
  | REDSHOW_ANALYSIS_TEMPORAL_REDUNDANCY => exact LockOrder.balanced_nil
  | REDSHOW_ANALYSIS_VALUE_PATTERN => exact LockOrder.balanced_nil
  | REDSHOW_ANALYSIS_MEMORY_LIVENESS =>
    refine h.locked (Nat.le_succ 2) (.ite (fun _ => ?_) fun _ => LockOrder.balanced_nil)
    exact balanced_getStates false (.inl (List.mem_cons_of_mem _ (hguard htype)))
  | REDSHOW_ANALYSIS_TORCH_VIEW =>
    cases op with
    | OPERATION_TYPE_KERNEL => exact LockOrder.balanced_nil.append h.locked_nil
    | OPERATION_TYPE_MEMORY => exact LockOrder.balanced_nil
    | OPERATION_TYPE_MEMFREE => exact LockOrder.balanced_nil
    | OPERATION_TYPE_MEMCPY => exact h.locked_nil
    | OPERATION_TYPE_MEMSET => exact h.locked_nil
  | REDSHOW_ANALYSIS_DATA_FLOW => exact h.analysis _
  | REDSHOW_ANALYSIS_MEMORY_PROFILE => exact h.analysis _
  | REDSHOW_ANALYSIS_MEMORY_HEATMAP => exact h.analysis _
  | REDSHOW_ANALYSIS_DATA_DEPENDENCY => exact h.analysis _
  | REDSHOW_ANALYSIS_TORCH_MONITOR => exact h.analysis _

/-- `op_callback` of all analyses that are on. -/
theorem balanced_opCallbacks (h : Outer held) (hguard : Guarded enabled held) (op : OperationType)
    (is_submemory submemories : Bool) :
    lockOrder.Balanced held (enabled.flatMap (opCallback op is_submemory submemories)) :=
  LockOrder.balanced_flatMap fun _ htype =>
    balanced_opCallback h hguard op is_submemory submemories htype

/-- `analysis_begin` of an analysis. -/
theorem balanced_analysisBegin (h : Outer held) (type : AnalysisType) :
    lockOrder.Balanced held (analysisBegin type) := by
  cases type <;> first | exact LockOrder.balanced_nil | exact h.analysis _

/-- `flush_thread` of an analysis. -/
theorem balanced_flushThread (h : Outer held) (kernels : ℕ) (type : AnalysisType) :
    lockOrder.Balanced held (flushThread kernels type) := by
  have hkernels : lockOrder.Balanced held
      (List.replicate kernels (TenProf.locked Lock.cubin_map [])).flatten :=
    LockOrder.balanced_flatten fun ops hops => by
      rw [List.eq_of_mem_replicate hops]
      exact h.locked_nil
  cases type with
  | REDSHOW_ANALYSIS_SPATIAL_REDUNDANCY => exact (h.analysis _).append hkernels
  | REDSHOW_ANALYSIS_TEMPORAL_REDUNDANCY => exact (h.analysis _).append hkernels
  | REDSHOW_ANALYSIS_VALUE_PATTERN =>
    exact .ite (fun _ => LockOrder.balanced_nil) fun _ => h.analysis _
  | _ => exact LockOrder.balanced_nil

/-- `redshow_cubin_register`. -/
theorem balanced_cubinRegister (h : Outer held) (analyzed : Bool) :
    lockOrder.Balanced held (cubinRegister analyzed) :=
  .ite (fun _ => h.locked_nil) fun _ => LockOrder.balanced_nil

/-- `trace_analyze`. -/
theorem balanced_traceAnalyze (h : Outer held) (lookups : TraceLookups) :
    lockOrder.Balanced held (traceAnalyze enabled lookups) := by
  have hfetch : lockOrder.Balanced held (fetchCubin lookups) := by
    refine .append h.locked_nil (.ite (fun _ => ?_) fun _ => LockOrder.balanced_nil)
    exact (balanced_cubinRegister h _).append
      (.ite (fun _ => h.locked_nil) fun _ => LockOrder.balanced_nil)
  have hbegin : lockOrder.Balanced held (enabled.flatMap analysisBegin) :=
    LockOrder.balanced_flatMap fun type _ => balanced_analysisBegin h type
  unfold traceAnalyze
  refine .append (.append h.locked_nil ?_) (.ite (fun _ => ?_) fun _ => LockOrder.balanced_nil)
  · exact .ite (fun _ => LockOrder.balanced_nil) fun _ => hfetch
  · exact .append h.locked_nil (.ite (fun _ => hbegin) fun _ => LockOrder.balanced_nil)

/-- A call of the interface. -/
theorem InterfaceCall.balanced (h : Outer held) (hguard : Guarded enabled held)
    (call : InterfaceCall) : lockOrder.Balanced held (call.locks enabled) := by
  have hquery (host : Bool) : lockOrder.Balanced held
      (if host = true then [] else TenProf.locked Lock.memory_snapshot []) :=
    .ite (fun _ => LockOrder.balanced_nil) fun _ => h.locked_nil
  have hops (p : Bool) (op : OperationType) (is_submemory submemories : Bool) :
      lockOrder.Balanced held
        (if p = true then enabled.flatMap (opCallback op is_submemory submemories) else []) :=
    .ite (fun _ => balanced_opCallbacks h hguard op is_submemory submemories)
      fun _ => LockOrder.balanced_nil
  cases call with
  | memory_register registered => exact h.locked_nil.append (hops _ _ _ _)
  | memory_unregister unregistered => exact h.locked_nil.append (hops _ _ _ _)
  | submemory_register registered submemories => exact h.locked_nil.append (hops _ _ _ _)
  | submemory_unregister unregistered submemories => exact h.locked_nil.append (hops _ _ _ _)
  | memory_query => exact h.locked_nil
  | memory_ranges_get => exact h.locked_nil
  | submemory_ranges_get => exact h.locked_nil
  | memcpy_register src_host dst_host found =>
    exact ((hquery src_host).append (hquery dst_host)).append (hops _ _ _ _)
  | memset_register found => exact h.locked_nil.append (hops _ _ _ _)
  | kernel_begin => exact LockOrder.balanced_nil
  | kernel_end submemories => exact balanced_opCallbacks h hguard _ _ _
  | cubin_register analyzed => exact balanced_cubinRegister h analyzed
  | cubin_cache_register => exact h.locked_nil
  | cubin_unregister => exact h.locked_nil
  | analyze lookups => exact balanced_traceAnalyze h lookups
  | analysis_begin => exact LockOrder.balanced_nil
  | analysis_end erases => exact .ite (fun _ => h.locked_nil) fun _ => LockOrder.balanced_nil
  | flush_thread kernels =>
    exact LockOrder.balanced_flatMap fun type _ => balanced_flushThread h (kernels type) type
  | flush => exact LockOrder.balanced_nil
  | torchview_ongpu_get_range_size => exact h.locked_nil
  | torchview_assemble_patch_analysis_address => exact h.locked_nil

/-! ## The callbacks in order -/

/-- The locks of the context are below those of the tool. -/
theorem outer_cons (h : Outer held) (hl : lockOrder.rank l < lockOrder.rank .mtx) :
    Outer (l :: held) := by
  intro k hk
  rcases List.mem_cons.1 hk with rfl | hk
  · exact hl
  · exact h k hk

/-- Without locks. -/
theorem outer_nil : Outer [] := fun _ hk => absurd hk List.not_mem_nil

/-- What a thread does with the GIL or without it. -/
theorem balanced_underGil {gil : Bool} (h : gil = true → lockOrder.Balanced [.gil] ops)
    (h' : gil = false → lockOrder.Balanced [] ops) : lockOrder.Balanced [] (underGil gil ops) := by
  cases gil with
  | true => exact .locked (.inr fun k hk => absurd hk List.not_mem_nil) (h rfl)
  | false => exact h' rfl

/-- What a thread does with the lock of a context or without it. -/
theorem balanced_underEntry {entry : Option ℕ} (hheld : ∀ k ∈ held, k = .gil)
    (h : ∀ held', Outer held' → (∀ k ∈ held, k ∈ held') → lockOrder.Balanced held' ops) :
    lockOrder.Balanced held (underEntry entry ops) := by
  have houter : Outer held := fun k hk => by rw [hheld k hk]; decide
  cases entry with
  | none => exact h held houter fun _ hk => hk
  | some context =>
    have habove : ∀ k ∈ held, lockOrder.rank k < lockOrder.rank (.entry context) := by
      intro k hk
      rw [hheld k hk]
      exact Nat.zero_lt_one
    have hbelow : lockOrder.rank (.entry context) < lockOrder.rank .mtx := Nat.lt_succ_self 1
    exact .locked (.inr habove)
      (h _ (outer_cons houter hbelow) fun k hk => List.mem_cons_of_mem _ hk)

/-- `torch_view_callback`. -/
theorem balanced_torchViewCallback (hheld : held = [.gil] ∨ held = []) (site : CallbackSite)
    (domain : Domain) (updates : ℕ) :
    lockOrder.Balanced held (torchViewCallback enabled site domain updates) := by
  have houter : Outer held := by
    rcases hheld with rfl | rfl
    · exact outer_cons outer_nil (by decide)
    · exact outer_nil
  have hgil : .gil ∈ held ∨ held = [] := by
    rcases hheld with rfl | rfl
    · exact .inl (List.mem_singleton_self _)
    · exact .inr rfl
  -- The lock of the analysis is above the mutex.
  have habove : ∀ k ∈ Lock.mtx :: held,
      lockOrder.rank k < lockOrder.rank (.analysis .REDSHOW_ANALYSIS_TORCH_VIEW) := by
    intro k hk
    rcases List.mem_cons.1 hk with rfl | hk
    · decide
    · exact (houter k hk).trans (by decide)
  refine .append (.ite (fun _ => balanced_getStates false hgil) fun _ => LockOrder.balanced_nil) ?_
  refine houter.locked le_rfl (.ite (fun _ => ?_) fun _ => LockOrder.balanced_nil)
  refine LockOrder.balanced_flatten fun ops hops => ?_
  rw [List.eq_of_mem_replicate hops]
  exact .locked (.inr habove) LockOrder.balanced_nil

/-- `torch_memory_callback`. -/
theorem balanced_torchMemoryCallback (houter : Outer held) (hguard : Guarded enabled held)
    (site : CallbackSite) (domain : Domain) (gpu alloc success submemories : Bool) :
    lockOrder.Balanced held
      (torchMemoryCallback enabled site domain gpu alloc success submemories) :=
  .ite (fun _ => .ite (fun _ => InterfaceCall.balanced houter hguard _)
    fun _ => InterfaceCall.balanced houter hguard _) fun _ => LockOrder.balanced_nil

/-- Whether a callback is entered with the GIL. -/
def Callback.gil : Callback → Bool
  | torchView gil _ _ _ => gil
  | torchMemory gil _ _ _ _ _ _ => gil
  | sanitizer gil _ _ => gil

/-- A callback keeps the order when the liveness analysis is off, or the GIL is held. -/
theorem Callback.balanced (c : Callback)
    (hguard : .REDSHOW_ANALYSIS_MEMORY_LIVENESS ∈ enabled → c.gil = true) :
    lockOrder.Balanced [] (c.locks enabled) := by
  have hwith : Outer [.gil] := outer_cons outer_nil (by decide)
  have hguarded : Guarded enabled [.gil] := fun _ => List.mem_singleton_self _
  have hwithout (h : c.gil = false) : Guarded enabled [] := fun hon =>
    absurd (h.symm.trans (hguard hon)) Bool.false_ne_true
  cases c with
  | torchView gil site domain updates =>
    exact balanced_underGil (fun _ => balanced_torchViewCallback (.inl rfl) site domain updates)
      fun _ => balanced_torchViewCallback (.inr rfl) site domain updates
  | torchMemory gil site domain gpu alloc success submemories =>
    refine balanced_underGil (fun _ => ?_) fun h => ?_
    · exact balanced_torchMemoryCallback hwith hguarded site domain gpu alloc success submemories
    · exact balanced_torchMemoryCallback outer_nil (hwithout h) site domain gpu alloc success
        submemories
  | sanitizer gil entry calls =>
    refine balanced_underGil (fun _ => ?_) fun h => ?_
    · refine balanced_underEntry (fun k hk => List.mem_singleton.1 hk) fun held' houter hmem => ?_
      exact LockOrder.balanced_flatMap fun call _ =>
        call.balanced houter fun _ => hmem _ (List.mem_singleton_self _)
    · refine balanced_underEntry (fun k hk => absurd hk List.not_mem_nil) fun held' houter _ => ?_
      exact LockOrder.balanced_flatMap fun call _ =>
        call.balanced houter fun hon => absurd (hwithout h hon) List.not_mem_nil

-- Without the GIL, the end of a kernel does not keep the order.
example : run lockOrder.hold [] (Callback.locks [.REDSHOW_ANALYSIS_MEMORY_LIVENESS]
    (.sanitizer false (some 0) [.kernel_end true])) = none := by decide

/-- Threads whose callbacks all keep the order. -/
theorem completes_of_guarded {ι : Type*} [DecidableEq ι] [Fintype ι] {threads : ι → List Callback}
    (h : ∀ i, ∀ c ∈ threads i, .REDSHOW_ANALYSIS_MEMORY_LIVENESS ∈ enabled → c.gil = true) :
    (start enabled threads).Completes lockOrder.reentrant := by
  have hordered : (start enabled threads).Ordered lockOrder :=
    LockState.ordered_start fun i => LockOrder.balanced_flatMap fun c hc => c.balanced (h i c hc)
  have hrank : ∀ l, lockOrder.rank l ≤ 3 := by
    intro l
    cases l <;> simp only [lockOrder] <;> omega
  exact hordered.completes hrank

/-! ## The deadlock with the liveness analysis -/

/-- PyTorch registers a block, on a thread that has the GIL. -/
def allocWithGil : Callback := .torchMemory true .ENTER .MEMORY true true true true

/-- A thread that has registered a block ends a kernel without the GIL, and another one calls the
interface for the same context with the GIL. -/
def kernelEndWithoutGil : Fin 2 → List Callback :=
  ![[allocWithGil, .sanitizer false (some 0) [.kernel_end true]],
    [.sanitizer true (some 0) [.kernel_begin]]]

section Deadlock

variable {before after : List AnalysisType}

/-- The operations of the first thread until it wants the GIL, under the lock of the liveness
analysis. -/
def untilGil (enabled before : List AnalysisType) : List (LockOp Lock) :=
  allocWithGil.locks enabled ++ (.acquire (.entry 0) ::
    (before.flatMap (opCallback .OPERATION_TYPE_KERNEL false true) ++
      [.acquire (.analysis .REDSHOW_ANALYSIS_MEMORY_LIVENESS)]))

/-- Those after it. -/
def fromGil (after : List AnalysisType) : List (LockOp Lock) :=
  .acquire .gil :: .release .gil :: .release (.analysis .REDSHOW_ANALYSIS_MEMORY_LIVENESS) ::
    (after.flatMap (opCallback .OPERATION_TYPE_KERNEL false true) ++ [.release (.entry 0)])

/-- The second thread when it has the GIL. -/
def fromEntry : List (LockOp Lock) :=
  [.acquire (.entry 0), .release (.entry 0), .release .gil]

/-- The operations of the first thread. -/
theorem todo_kernelEndWithoutGil
    (henabled : enabled = before ++ .REDSHOW_ANALYSIS_MEMORY_LIVENESS :: after) :
    (start enabled kernelEndWithoutGil).todo 0 = untilGil enabled before ++ fromGil after := by
  have hend : Callback.locks enabled (.sanitizer false (some 0) [.kernel_end true]) =
      .acquire (.entry 0) :: (before.flatMap (opCallback .OPERATION_TYPE_KERNEL false true) ++
        .acquire (.analysis .REDSHOW_ANALYSIS_MEMORY_LIVENESS) :: fromGil after) := by
    subst henabled
    simp [Callback.locks, underGil, underEntry, InterfaceCall.locks, opCallback, getStates,
      livenessFetches, locked, fromGil]
  show Callback.locks enabled allocWithGil ++
    (Callback.locks enabled (.sanitizer false (some 0) [.kernel_end true]) ++ []) = _
  rw [hend]
  simp [untilGil]

/-- The first thread can come there alone. -/
theorem run_untilGil
    (hbefore : .REDSHOW_ANALYSIS_MEMORY_LIVENESS ∉ before) :
    run lockOrder.hold [] (untilGil enabled before) =
      some [.analysis .REDSHOW_ANALYSIS_MEMORY_LIVENESS, .entry 0] := by
  have hfirst : run lockOrder.hold [] (allocWithGil.locks enabled) = some [] :=
    allocWithGil.balanced fun _ => rfl
  have hentry : Outer [.entry 0] := outer_cons outer_nil (by decide)
  have hmiddle : run lockOrder.hold [.entry 0]
      (before.flatMap (opCallback .OPERATION_TYPE_KERNEL false true)) = some [.entry 0] :=
    balanced_opCallbacks hentry (fun h => absurd h hbefore) _ _ _
  have htake : lockOrder.hold [] (.acquire (.entry 0)) = some [.entry 0] := rfl
  unfold untilGil
  rw [run_append, hfirst, Option.bind_some, run_cons, htake, Option.bind_some, run_append, hmiddle,
    Option.bind_some]
  rfl

/-- The two threads come to wait for one another. -/
theorem not_completes_kernelEndWithoutGil
    (hon : .REDSHOW_ANALYSIS_MEMORY_LIVENESS ∈ enabled) :
    ¬(start enabled kernelEndWithoutGil).Completes lockOrder.reentrant := by
  obtain ⟨before, after, henabled, hbefore⟩ := List.eq_append_cons_of_mem hon
  let s := (start enabled kernelEndWithoutGil).turn 0
    [.analysis .REDSHOW_ANALYSIS_MEMORY_LIVENESS, .entry 0] (fromGil after)
  have hfirst : LockState.Steps lockOrder.reentrant (start enabled kernelEndWithoutGil) s :=
    LockState.steps_solo (todo_kernelEndWithoutGil henabled) (run_untilGil hbefore)
      fun l _ j _ => List.not_mem_nil
  have hsecond : LockState.Steps lockOrder.reentrant s (s.turn 1 [.gil] fromEntry) := by
    have htodo : s.todo 1 = [.acquire .gil] ++ fromEntry := rfl
    refine LockState.steps_solo htodo rfl fun l hl j hj => ?_
    obtain rfl := LockOp.acquire.inj (List.mem_singleton.1 hl)
    obtain rfl : j = 0 := by omega
    show Lock.gil ∉ [.analysis .REDSHOW_ANALYSIS_MEMORY_LIVENESS, .entry 0]
    decide
  -- The first thread wants the GIL of the second one, and this one the context of the first.
  refine LockState.not_completes (hfirst.trans hsecond) (i := 0) (List.cons_ne_nil _ _) ?_
  intro s' hstep
  cases hstep with
  | @acquire i l rest htodo hfree hown =>
    obtain rfl | rfl : i = 0 ∨ i = 1 := by omega
    · obtain rfl := LockOp.acquire.inj (List.cons.inj htodo).1
      exact hfree 1 (by decide) (List.mem_singleton_self _)
    · obtain rfl := LockOp.acquire.inj (List.cons.inj htodo).1
      exact hfree 0 (by decide) (List.mem_cons_of_mem _ (List.mem_singleton_self _))
  | @release i l rest htodo hown =>
    obtain rfl | rfl : i = 0 ∨ i = 1 := by omega
    · cases (List.cons.inj htodo).1
    · cases (List.cons.inj htodo).1

end Deadlock

/-- Any number of threads with any callbacks come to their end from whatever they have done, exactly
when the liveness analysis is not enabled. -/
theorem completes_iff (enabled : List AnalysisType) :
    (∀ (n : ℕ) (threads : Fin n → List Callback),
      (start enabled threads).Completes lockOrder.reentrant) ↔
    .REDSHOW_ANALYSIS_MEMORY_LIVENESS ∉ enabled := by
  refine ⟨fun h hon => ?_, fun hoff n threads => ?_⟩
  · exact not_completes_kernelEndWithoutGil hon (h 2 kernelEndWithoutGil)
  · exact completes_of_guarded fun i c _ hon => absurd hon hoff

end TenProf.Locks
