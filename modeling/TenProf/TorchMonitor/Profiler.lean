import TenProf.Words
import TenProf.TorchMonitor.Callback
import Mathlib.Data.Finset.Basic
import Mathlib.Logic.Function.Basic

/-!
# The profiler behind the torch monitor

`TorchProfiler` of `torch_profiler.cc` with the functions of `torch_monitor.cc` that set it up.
Before the start the tool subscribes its callback and enables domains; `torch_monitor_init` then
registers two callbacks with ATen, for the scopes of these domains. ATen runs the first one when an
op begins and the second one when it ends. Each of them fills the data of one op by
`init_callback_data`, which keeps the nesting level of the thread, and hands them to the tool.

What ATen does is the parameter `Aten`. A `RecordFunction` ends on the thread on which it began, the
innermost one first, so the state has for each thread the ops that have begun and not ended.
-/

namespace TenProf.Profiler

/-- `at::RecordScope`: the scopes that the source names, the others, and the count. -/
inductive RecordScope
  | FUNCTION
  | BACKWARD_FUNCTION
  | other (n : ℕ)
  | NUM_SCOPES
  deriving DecidableEq, Repr

/-- `torch_monitor_domain_t`. -/
inductive Domain
  | FUNCTION
  | BACKWARD_FUNCTION
  | TORCHSCRIPT_FUNCTION
  | KERNEL_FUNCTION_DTYPE
  | CUSTOM_CLASS
  | BUILD_FEATURE
  | LITE_INTERPRETER
  | USER_SCOPE
  | STATIC_RUNTIME_OP
  | STATIC_RUNTIME_MODEL
  | MEMORY
  | COUNT
  deriving DecidableEq, Repr

/-- `torch_monitor_callback_site_t`. -/
inductive CallbackSite
  | ENTER
  | EXIT
  deriving DecidableEq, Repr

/-- The members of `torch_monitor_status_t` that the functions below return. -/
inductive Status
  | SUCCESS
  | ENABLE_DOMAIN_OUT_RANGE
  | SUBSCRIBE_EXIST
  | SUBSCRIBE_SUBSCRIBER_NULL
  | FINALIZE_MEMORY_FAIL
  deriving DecidableEq, Repr

/-- `aten_scope_match`. -/
def atenScopeMatch : RecordScope → Domain
  | .FUNCTION => .FUNCTION
  | .BACKWARD_FUNCTION => .BACKWARD_FUNCTION
  | _ => .COUNT

/-- `torch_monitor_domain_match`. -/
def torchMonitorDomainMatch : Domain → RecordScope
  | .FUNCTION => .FUNCTION
  | .BACKWARD_FUNCTION => .BACKWARD_FUNCTION
  | _ => .NUM_SCOPES

/-- A tensor, as far as it is read. -/
structure Tensor where
  numel : ℕ
  dims : List Dim
  dtype : ℕ
  itemsize : ℕ
  storage_offset : ℕ
  data_ptr : ℕ
  intrusive_ptr : ℕ

/-- A `c10::IValue`: a tensor or anything else. -/
abbrev IValue := Option Tensor

/-- `at::RecordFunction`. -/
structure RecordFunction where
  name : CString
  scope : RecordScope
  seqNr : ℤ
  forwardThreadId : ℕ
  inputs : List IValue
  outputs : List IValue

/-- `torch_monitor_callback_tensor_data_t`, an entry of `tensor_data` as `store_tensor_info` leaves
it; `sizes` and `strides` stand side by side. -/
structure TensorEntry where
  index : ℤ
  numel : ℕ
  dim : ℕ
  dtype : ℕ
  itemsize : ℕ
  storage_offset : ℕ
  dims : List Dim
  data_ptr : ℕ
  metadata_ptr : ℕ

/-- `torch_monitor_input_output_data_t`, with the entries that are filled. -/
structure InputOutputData where
  size : ℕ
  tensor_data : List TensorEntry

/-- `torch_monitor_callback_data_t` with the data of an op. -/
structure CallbackData where
  domain : Domain
  current_thread_id : ℕ
  forward_thread_id : ℕ
  sequence_number : ℤ
  nested_level : ℕ
  name : CString
  input_output_data : InputOutputData

/-- `TORCH_MONITOR_MAX_INPUTS_OUTPUTS_SIZE`. -/
def TORCH_MONITOR_MAX_INPUTS_OUTPUTS_SIZE : ℕ := 128

/-- `store_tensor_info`, on the entry that is zero but for its index. -/
def storeTensorInfo (i : ℕ) (t : Tensor) : TensorEntry :=
  let empty : TensorEntry := ⟨-1, t.numel, t.dims.length, 0, 0, 0, [], 0, t.intrusive_ptr⟩
  if 0 < t.numel then
    { empty with
      index := i
      dtype := t.dtype
      itemsize := t.itemsize
      data_ptr := t.data_ptr
      storage_offset := t.storage_offset
      dims := t.dims.take TORCH_MONITOR_MAX_TENSOR_DIMENSION }
  else empty

/-- `store_inputs_outputs_info`, of the inputs or the outputs. -/
def storeInputsOutputsInfo (values : List IValue) : InputOutputData where
  size := values.length
  tensor_data := (values.take TORCH_MONITOR_MAX_INPUTS_OUTPUTS_SIZE).mapIdx fun i ele =>
    (ele.map (storeTensorInfo i)).getD ⟨-1, 0, 0, 0, 0, 0, [], 0, 0⟩

/-- `TorchProfiler` and `TorchProfilerState`, with the two flags of the capture. -/
structure TorchProfiler where
  scopes : Finset RecordScope
  handle : ℕ
  callback : Option ℕ
  is_memory_profiling_enabled : Bool
  inputs_capture_enable : Bool
  outputs_capture_enable : Bool

/-- The profiler when the process starts. `0` is `TORCH_PROFILER_HANDLE_NULL`. -/
def initial : TorchProfiler := ⟨∅, 0, none, false, false, false⟩

/-- `register_domain`, with its result. -/
def registerDomain (p : TorchProfiler) (domain : Domain) : Bool × TorchProfiler :=
  if domain = .MEMORY then (true, { p with is_memory_profiling_enabled := true })
  else
    let scope := torchMonitorDomainMatch domain
    if scope = .NUM_SCOPES then (false, p)
    else (true, { p with scopes := insert scope p.scopes })

/-- `torch_monitor_domain_enable`. -/
def torchMonitorDomainEnable (p : TorchProfiler) (domain : Domain) : Status × TorchProfiler :=
  if domain ≠ .COUNT then
    match registerDomain p domain with
    | (true, p) => (.SUCCESS, p)
    | (false, p) => (.ENABLE_DOMAIN_OUT_RANGE, p)
  else (.ENABLE_DOMAIN_OUT_RANGE, p)

/-- `torch_monitor_callback_subscribe`, through `register_callback`. -/
def torchMonitorCallbackSubscribe (p : TorchProfiler) (func : Option ℕ) : Status × TorchProfiler :=
  match func, p.callback with
  | none, _ => (.SUBSCRIBE_SUBSCRIBER_NULL, p)
  | some _, some _ => (.SUBSCRIBE_EXIST, p)
  | some f, none => (.SUCCESS, { p with callback := some f })

/-- `torch_monitor_finalize`, through `stop_profiling`. -/
def torchMonitorFinalize (p : TorchProfiler) : Status × TorchProfiler :=
  (.SUCCESS, { p with callback := none, handle := 0, scopes := ∅ })

/-- `torch_monitor_thread_finalize`, through `stop_memory_profiling`; `popped` says whether
`ThreadLocalDebugInfo::_pop` found a state. -/
def torchMonitorThreadFinalize (p : TorchProfiler) (popped : Bool) : Status × TorchProfiler :=
  if p.is_memory_profiling_enabled then
    if popped then (.SUCCESS, { p with is_memory_profiling_enabled := false })
    else (.FINALIZE_MEMORY_FAIL, p)
  else (.SUCCESS, p)

/-- A call that sets the profiler up. -/
inductive Setting
  | subscribe (func : Option ℕ)
  | enable (domain : Domain)
  | inputsCapture (val : Bool)
  | outputsCapture (val : Bool)
  | finalize
  | threadFinalize (popped : Bool)

/-- The profiler after a call that sets it up. -/
def TorchProfiler.apply (p : TorchProfiler) : Setting → TorchProfiler
  | .subscribe func => (torchMonitorCallbackSubscribe p func).2
  | .enable domain => (torchMonitorDomainEnable p domain).2
  | .inputsCapture val => { p with inputs_capture_enable := val }
  | .outputsCapture val => { p with outputs_capture_enable := val }
  | .finalize => (torchMonitorFinalize p).2
  | .threadFinalize popped => (torchMonitorThreadFinalize p popped).2

/-- `at::RecordFunctionCallback`, as `start_profiling` builds it. -/
structure RecordFunctionCallback where
  needsInputs : Bool
  needsOutputs : Bool
  scopes : Finset RecordScope

/-- What ATen does with a registered callback: the handle that it returns, and the ops for which it
runs the callback. -/
structure Aten where
  addGlobalCallback : RecordFunctionCallback → ℕ
  runs : RecordFunctionCallback → RecordScope → Bool
  /-- A callback with a set of scopes is run for the ops of these scopes. -/
  runs_iff : ∀ cb : RecordFunctionCallback, cb.scopes.Nonempty →
    ∀ scope, runs cb scope = true ↔ scope ∈ cb.scopes

/-- `start_profiling`: the profiler and the callback that is registered, if it succeeds. -/
def startProfiling (aten : Aten) (p : TorchProfiler) :
    Option (TorchProfiler × RecordFunctionCallback) :=
  if p.callback = none ∨ p.scopes = ∅ then none
  else
    let cb : RecordFunctionCallback :=
      ⟨p.inputs_capture_enable, p.outputs_capture_enable, p.scopes⟩
    let handle := aten.addGlobalCallback cb
    if handle ≠ 0 then some ({ p with handle := handle }, cb) else none

/-- `init_callback_data`: the data, unless the op is not reported, and the level after it. -/
def initCallbackData (p : TorchProfiler) (callback_site : CallbackSite) (fn : RecordFunction)
    (thread_id nested_level : ℕ) : Option CallbackData × ℕ :=
  let nested_level := if callback_site = .EXIT then subU32 nested_level 1 else nested_level
  let domain := atenScopeMatch fn.scope
  if domain = .COUNT then (none, nested_level)
  else
    let data : CallbackData :=
      { domain := domain
        current_thread_id := thread_id
        forward_thread_id := fn.forwardThreadId
        sequence_number := fn.seqNr
        nested_level := nested_level
        name := fn.name
        input_output_data := ⟨0, []⟩ }
    match callback_site with
    | .EXIT =>
      (some (if p.outputs_capture_enable then
        { data with input_output_data := storeInputsOutputsInfo fn.outputs } else data),
        nested_level)
    | .ENTER =>
      (some (if p.inputs_capture_enable then
        { data with input_output_data := storeInputsOutputsInfo fn.inputs } else data),
        u32 (nested_level + 1))

/-- An op that has begun and not ended, with what was reported when it began. -/
structure OpenOp where
  fn : RecordFunction
  report : Option CallbackData

/-- The state of one thread: its ops, the innermost first, and the thread-local variables. -/
structure Thread where
  ops : List OpenOp
  nested_level : ℕ
  mem_state_pushed : Bool
  /-- `start_memory_profiling` has pushed the memory state. -/
  has_mem_state : Bool

/-- A process whose profiler has been started. -/
structure Monitor where
  aten : Aten
  profiler : TorchProfiler
  registered : RecordFunctionCallback
  threads : ℕ → Thread

/-- The process right after the start. -/
def Monitor.start (aten : Aten) (p : TorchProfiler) : Option Monitor :=
  (startProfiling aten p).map fun (p, cb) => ⟨aten, p, cb, fun _ => ⟨[], 0, false, false⟩⟩

/-- An op begins or ends on a thread. -/
inductive Event
  | enter (thread_id : ℕ) (fn : RecordFunction)
  | exit (thread_id : ℕ)

/-- What an event hands to the tool. -/
def Monitor.report (m : Monitor) : Event → Option CallbackData
  | .enter t fn =>
    if m.aten.runs m.registered fn.scope then
      (initCallbackData m.profiler .ENTER fn t (m.threads t).nested_level).1
    else none
  | .exit t =>
    match (m.threads t).ops with
    | [] => none
    | op :: _ =>
      if m.aten.runs m.registered op.fn.scope then
        (initCallbackData m.profiler .EXIT op.fn t (m.threads t).nested_level).1
      else none

/-- The thread-local variables after an event: the callback changes them if ATen runs it. -/
def Monitor.afterCallback (m : Monitor) (site : CallbackSite) (fn : RecordFunction) (t : ℕ) :
    Thread :=
  let th := m.threads t
  if m.aten.runs m.registered fn.scope then
    let th := if site = .ENTER ∧ ¬th.mem_state_pushed then
        { th with
          mem_state_pushed := true
          has_mem_state := m.profiler.is_memory_profiling_enabled }
      else th
    { th with nested_level := (initCallbackData m.profiler site fn t th.nested_level).2 }
  else th

/-- The process after an event. An op that ends is the innermost one of its thread. -/
def Monitor.step (m : Monitor) : Event → Option Monitor
  | .enter t fn =>
    let ops := ⟨fn, m.report (.enter t fn)⟩ :: (m.threads t).ops
    let th := { m.afterCallback .ENTER fn t with ops := ops }
    some { m with threads := Function.update m.threads t th }
  | .exit t =>
    match (m.threads t).ops with
    | [] => none
    | op :: ops =>
      let th := { m.afterCallback .EXIT op.fn t with ops := ops }
      some { m with threads := Function.update m.threads t th }

end TenProf.Profiler
