import TenProf.TorchView.Context

/-!
# Runs of several threads, with their history

The analysis has one stack of operations for all threads. `History` adds to its state what has
happened in a run: what each ENTER pushed, which pushes are on the stacks, and which operations
each thread is in. The history only observes: its states are those of the run (`run_state`).
-/

namespace TenProf.TorchView

/-- What an ENTER pushed: its number among the ENTERs, its thread, its operation, and the nodes of
the operation's inputs. -/
structure Push where
  serial : ℕ
  thread : ℕ
  op : OpData
  nodes : List (Option ℕ)

/-- A state with its history. -/
structure History where
  state : TorchView
  /-- The pushes that are on the stacks, the top first. -/
  stack : List Push
  /-- The operations that a thread has entered and not left, the innermost first. -/
  inside : ℕ → List Push
  /-- The ENTERs so far. -/
  entered : ℕ

namespace History

/-- The history at the start of a run. -/
def start (ongpu : Bool) : History where
  state := initial ongpu
  stack := []
  inside := fun _ => []
  entered := 0

/-- What the ENTER of an operation on a thread pushes. -/
def push (env : Env) (h : History) (thread : ℕ) (op : OpData) (frames : List PythonState) :
    Push where
  serial := h.entered
  thread := thread
  op := op
  nodes := inputNodes env frames (pushOp h.state op) op.tensor_data.zipIdx

/-- The history after an event of a thread that ends in a state. -/
def record (env : Env) (h : History) (s' : TorchView) : ℕ × Event → History
  | (thread, .enter op frames) =>
    let p := h.push env thread op frames
    { state := s'
      stack := p :: h.stack
      inside := Function.update h.inside thread (p :: h.inside thread)
      entered := h.entered + 1 }
  | (thread, .exit _ _) =>
    { h with
      state := s'
      stack := h.stack.tail
      inside := Function.update h.inside thread (h.inside thread).tail }
  | _ => { h with state := s' }

/-- The handling of an event of a thread. -/
def step (env : Env) (h : History) (e : ℕ × Event) : Option History :=
  (TorchView.step env h.state e.2).map fun s' => h.record env s' e

/-- The events of a thread are nested: it leaves the operation that it entered last. -/
def Nested (h : History) : ℕ × Event → Prop
  | (thread, .exit op _) => ∃ p, (h.inside thread).head? = some p ∧ p.op.name = op.name
  | _ => True

variable {env : Env} {h h' : History} {e : ℕ × Event}

@[simp] theorem record_state (s' : TorchView) : (h.record env s' e).state = s' := by
  obtain ⟨thread, e⟩ := e
  cases e <;> rfl

/-- The states of a run with history are those of the run. -/
theorem run_state (es : List (ℕ × Event)) :
    (run (step env) h es).map state = run (TorchView.step env) h.state (es.map Prod.snd) := by
  induction es generalizing h with
  | nil => rfl
  | cons e es ih =>
    simp only [List.map_cons, run_cons, step, Option.map_bind, Option.bind_map]
    congr 1
    funext s'
    simpa using ih (h := h.record env s' e)

/-- The history agrees with both stacks. -/
structure Consistent (h : History) : Prop where
  op_stack : h.state.op_stack = h.stack.map Push.op
  domain_name : h.state.domain_name = h.stack.map fun p => p.op.name

theorem consistent_start (ongpu : Bool) : Consistent (start ongpu) := ⟨rfl, rfl⟩

/-- The history agrees with the stacks after every event. -/
theorem Consistent.after_step (hc : Consistent h) (hstep : step env h e = some h') :
    Consistent h' := by
  obtain ⟨s', hs, rfl⟩ := Option.map_eq_some_iff.1 hstep
  obtain ⟨thread, e⟩ := e
  have hkept : ¬e.IsOperation → s'.op_stack = h.stack.map Push.op ∧
      s'.domain_name = h.stack.map fun p => p.op.name := fun he => by
    obtain ⟨hstack, hname, -⟩ := context_step he hs
    exact ⟨hstack.trans hc.op_stack, hname.trans hc.domain_name⟩
  cases e with
  | enter op frames =>
    obtain ⟨hstack, hname, -⟩ := context_onEnter hs
    exact ⟨hstack.trans (congrArg _ hc.op_stack), hname.trans (congrArg _ hc.domain_name)⟩
  | exit op frames =>
    obtain ⟨hstack, hname, -⟩ := context_onExit hs
    rw [hc.op_stack] at hstack hname
    rw [hc.domain_name] at hname
    -- With an empty stack both sides are empty, and stay so.
    refine ⟨by rw [record_state, hstack, record, List.map_tail], ?_⟩
    rw [record_state, hname, record]
    cases h.stack <;> simp
  | _ => exact ⟨(hkept id).1, (hkept id).2⟩

end History

end TenProf.TorchView
