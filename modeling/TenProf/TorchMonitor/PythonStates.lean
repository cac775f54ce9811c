import TenProf.TorchMonitor.Callback
import Mathlib.Data.List.Infix
import Mathlib.Logic.Function.Basic

/-!
# The Python states of a thread

`PythonStateMonitor` keeps the states of the stack that was fetched last on a thread.
`torch_monitor_python_state_get` fetches the stack and `torch_monitor_python_state_get_cached` does
not; both copy the first states to the caller. When there are none they return early and leave the
caller's array and `num_states` as they are. `python_states_fresh_iff` says for which runs every
call shows its caller the stack that was fetched last.

An entry of a caller's array points to the strings of the monitor, which live until the next fetch.
An array is only looked at here after the call that has filled it, so its entries hold the strings.
-/

namespace TenProf

/-- An object of Python as `unpack_pyobject` tells them apart: bytes, a string with its UTF-8 data
unless this cannot be had, and others. -/
inductive PyObject where
  | bytes (data : CString)
  | unicode (data : Option CString)
  | other
  deriving DecidableEq, Repr

/-- A frame of Python with what is read of its code object. -/
structure PyFrame where
  co_filename : PyObject
  co_name : PyObject
  co_firstlineno : ℕ
  lineno : ℕ
  deriving DecidableEq, Repr

/-- `torch_monitor_status_t`, as far as these calls return it. -/
inductive TorchMonitorStatus where
  | SUCCESS
  | PYTHON_STATES_NULL
  deriving DecidableEq, Repr

namespace PythonStateMonitor

/-- `unpack_pyobject`. -/
def unpackPyobject : PyObject → CString
  | .bytes data => data
  | .unicode data => data.getD []
  | .other => []

/-- The state of a frame. -/
def stateOf (frame : PyFrame) : PythonState :=
  ⟨unpackPyobject frame.co_filename, unpackPyobject frame.co_name, frame.co_firstlineno,
    frame.lineno⟩

/-- The loop of `get_states`: the states of a frame and those it was called from. -/
def collectStates : List PyFrame → List PythonState → List PythonState
  | [], states => states
  | frame :: back, states => collectStates back (states ++ [stateOf frame])

/-- `get_states`: the states that are kept after it and returned. -/
def getStates (cached : Bool) (stack : List PyFrame) (states : List PythonState) :
    List PythonState :=
  if cached then states else collectStates stack []

/-- The loop adds the states of the frames in order. -/
theorem collectStates_eq (stack : List PyFrame) (states : List PythonState) :
    collectStates stack states = states ++ stack.map stateOf := by
  induction stack generalizing states with
  | nil => exact (List.append_nil states).symm
  | cons frame back ih =>
    rw [collectStates, ih, List.append_assoc]
    rfl

end PythonStateMonitor

open PythonStateMonitor

/-- The memory of a thread: the monitor's states, and its callers' arrays and counts, which are zero
at first. -/
structure PythonStateMemory where
  _states : List PythonState
  states : ℕ → ℕ → Option PythonState
  num_states : ℕ → ℕ

namespace PythonStateMemory

/-- Nothing has been fetched. -/
def initial : PythonStateMemory := ⟨[], fun _ _ => none, fun _ => 0⟩

/-- The loop that fills a caller's array. -/
def copyStates (python_states : List PythonState) (num_states : ℕ)
    (states : ℕ → Option PythonState) : ℕ → Option PythonState :=
  (List.range num_states).foldl (fun states i => Function.update states i python_states[i]?) states

/-- What both functions do with the states of the monitor. -/
def copyOut (python_states : List PythonState) (max_num_states states num_states : ℕ)
    (m : PythonStateMemory) : PythonStateMemory × TorchMonitorStatus :=
  if python_states.isEmpty then ({ m with _states := python_states }, .PYTHON_STATES_NULL)
  else
    let num := min python_states.length max_num_states
    ({ _states := python_states
       states := Function.update m.states states (copyStates python_states num (m.states states))
       num_states := Function.update m.num_states num_states num }, .SUCCESS)

/-- `torch_monitor_python_state_get`. -/
def torchMonitorPythonStateGet (stack : List PyFrame) (max_num_states states num_states : ℕ)
    (m : PythonStateMemory) : PythonStateMemory × TorchMonitorStatus :=
  copyOut (getStates false stack m._states) max_num_states states num_states m

/-- `torch_monitor_python_state_get_cached`. -/
def torchMonitorPythonStateGetCached (stack : List PyFrame) (max_num_states states num_states : ℕ)
    (m : PythonStateMemory) : PythonStateMemory × TorchMonitorStatus :=
  copyOut (getStates true stack m._states) max_num_states states num_states m

/-- A call on a thread: whether it is the cached variant, the stack of Python at this time, the
limit, and which array and which count the caller passes. -/
structure Call where
  cached : Bool
  stack : List PyFrame
  max_num_states : ℕ
  states : ℕ
  num_states : ℕ
  deriving DecidableEq, Repr

/-- A call is made. -/
def step (m : PythonStateMemory) (call : Call) : PythonStateMemory :=
  match call with
  | ⟨false, stack, max_num_states, states, num_states⟩ =>
    (torchMonitorPythonStateGet stack max_num_states states num_states m).1
  | ⟨true, stack, max_num_states, states, num_states⟩ =>
    (torchMonitorPythonStateGetCached stack max_num_states states num_states m).1

/-- The memory after some calls. -/
def run (calls : List Call) : PythonStateMemory := calls.foldl step initial

/-- The stack that a call fetches. -/
def Call.fetched (call : Call) : Option (List PyFrame) :=
  if call.cached then none else some call.stack

/-- The stack that has been fetched last, without frames where none has been. -/
def lastFetched (calls : List Call) : List PyFrame :=
  (calls.filterMap Call.fetched).getLast?.getD []

/-- What the caller of a call sees is the top of a stack: as many frames as the limit allows, in
order. -/
structure Shows (m : PythonStateMemory) (call : Call) (stack : List PyFrame) : Prop where
  num_states : m.num_states call.num_states = min call.max_num_states stack.length
  states : ∀ i < m.num_states call.num_states,
    m.states call.states i = stack[i]?.map stateOf

/-- Every call of a run shows its caller the stack that has been fetched last. -/
def Fresh (calls : List Call) : Prop :=
  ∀ before call, before ++ [call] <+: calls →
    (run (before ++ [call])).Shows call (lastFetched (before ++ [call]))

/-! ## One call -/

/-- What a caller's array holds after the loop. -/
theorem copyStates_apply (python_states : List PythonState) (num_states : ℕ)
    (states : ℕ → Option PythonState) (i : ℕ) :
    copyStates python_states num_states states i =
      if i < num_states then python_states[i]? else states i := by
  induction num_states with
  | zero => rfl
  | succ n ih =>
    unfold copyStates at ih ⊢
    rw [List.range_succ, List.foldl_concat, Function.update_apply, ih]
    split_ifs with hi hlt hlt
    · rw [hi]
    · omega
    · rfl
    · omega
    · omega
    · rfl

/-- Either variant copies what `get_states` returns. -/
theorem step_eq (m : PythonStateMemory) (call : Call) :
    m.step call = (copyOut (getStates call.cached call.stack m._states) call.max_num_states
      call.states call.num_states m).1 := by
  obtain ⟨cached, stack, max_num_states, states, num_states⟩ := call
  cases cached <;> rfl

/-- The monitor keeps what `get_states` returns. -/
theorem step_states (m : PythonStateMemory) (call : Call) :
    (m.step call)._states = getStates call.cached call.stack m._states := by
  rw [step_eq]
  unfold copyOut
  split_ifs <;> rfl

/-- On an empty stack the caller's memory stays as it is. -/
theorem step_of_empty {m : PythonStateMemory} {call : Call}
    (hempty : getStates call.cached call.stack m._states = []) :
    (m.step call).num_states = m.num_states ∧ (m.step call).states = m.states := by
  rw [step_eq, hempty]
  exact ⟨rfl, rfl⟩

/-- On a stack with frames the caller sees its top. -/
theorem step_shows {m : PythonStateMemory} {call : Call} {stack : List PyFrame}
    (hstates : getStates call.cached call.stack m._states = stack.map stateOf)
    (hne : stack ≠ []) : (m.step call).Shows call stack := by
  have hmap : (stack.map stateOf).isEmpty = false := by
    rw [List.isEmpty_map, List.isEmpty_eq_false_iff]
    exact hne
  have hnum : (m.step call).num_states call.num_states = min call.max_num_states stack.length := by
    rw [step_eq, hstates]
    unfold copyOut
    rw [hmap, if_neg Bool.false_ne_true, List.length_map, min_comm]
    exact Function.update_self ..
  refine ⟨hnum, fun i hi => ?_⟩
  rw [hnum] at hi
  rw [step_eq, hstates]
  unfold copyOut
  rw [hmap, if_neg Bool.false_ne_true, List.length_map, min_comm]
  calc Function.update m.states call.states _ call.states i
      = copyStates (stack.map stateOf) (min call.max_num_states stack.length)
          (m.states call.states) i := by rw [Function.update_self]
    _ = (stack.map stateOf)[i]? := by rw [copyStates_apply, if_pos hi]
    _ = stack[i]?.map stateOf := List.getElem?_map ..

/-! ## Runs -/

/-- The last fetch after one more call. -/
theorem lastFetched_concat (before : List Call) (call : Call) :
    lastFetched (before ++ [call]) =
      if call.cached then lastFetched before else call.stack := by
  unfold lastFetched
  rw [List.filterMap_append]
  cases hcached : call.cached with
  | true => simp [Call.fetched, hcached]
  | false => simp [Call.fetched, hcached]

/-- The monitor's states are those of the stack that has been fetched last. -/
theorem run_states (calls : List Call) :
    (run calls)._states = (lastFetched calls).map stateOf := by
  induction calls using List.reverseRecOn with
  | nil => rfl
  | append_singleton before call ih =>
    have hrun : run (before ++ [call]) = (run before).step call := List.foldl_concat ..
    rw [hrun, step_states, lastFetched_concat]
    unfold getStates
    split_ifs with hcached
    · exact ih
    · rw [collectStates_eq, List.nil_append]

/-- A call shows the stack that has been fetched last exactly when this has frames or the caller's
count was zero. -/
theorem shows_iff (before : List Call) (call : Call) :
    (run (before ++ [call])).Shows call (lastFetched (before ++ [call])) ↔
      (lastFetched (before ++ [call]) = [] → (run before).num_states call.num_states = 0) := by
  have hrun : run (before ++ [call]) = (run before).step call := List.foldl_concat ..
  have hstates := run_states (before ++ [call])
  rw [hrun, step_states] at hstates
  rw [hrun]
  by_cases hempty : lastFetched (before ++ [call]) = []
  · rw [hempty] at hstates ⊢
    obtain ⟨hnum, -⟩ := step_of_empty hstates
    constructor
    · intro hshows _
      rw [← hnum, hshows.num_states, List.length_nil, Nat.min_zero]
    · intro hzero
      have hcount := (congrFun hnum call.num_states).trans (hzero rfl)
      refine ⟨by rw [hcount, List.length_nil, Nat.min_zero], fun i hi => ?_⟩
      rw [hcount] at hi
      exact absurd hi (Nat.not_lt_zero i)
  · exact iff_of_true (step_shows hstates hempty) fun h => absurd h hempty

/-- Every call of a run shows the stack that has been fetched last exactly when no call with an
empty one gets a count that is not zero. -/
theorem python_states_fresh_iff (calls : List Call) :
    Fresh calls ↔ ∀ before call, before ++ [call] <+: calls →
      lastFetched (before ++ [call]) = [] → (run before).num_states call.num_states = 0 :=
  forall_congr' fun before => forall_congr' fun call => imp_congr_right fun _ =>
    shows_iff before call

/-- A frame is fetched, and then an empty stack: the frame is still there. -/
theorem python_states_stale : ¬Fresh
    [⟨false, [⟨.other, .other, 1, 2⟩], 30, 0, 0⟩, ⟨false, [], 30, 0, 0⟩] := by
  intro h
  have hshows := h [⟨false, [⟨.other, .other, 1, 2⟩], 30, 0, 0⟩] ⟨false, [], 30, 0, 0⟩
    List.prefix_rfl
  exact absurd hshows.num_states (by decide)

end PythonStateMemory

end TenProf
