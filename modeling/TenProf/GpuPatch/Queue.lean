import Mathlib.Logic.Function.Basic
import Mathlib.Data.Fin.Basic
import TenProf.Words
import TenProf.Library.Runs

/-!
# `gpu_queue_get` and `gpu_queue_push`

The warps of a kernel share a buffer of `size` records. A warp takes a slot by an atomic addition to
`tail_index`, stores its record there, and counts the record by an atomic addition to `head_index`.
The warp that finds the buffer full first is the leader: it waits until `size` records are counted,
raises a flag, waits until the consumer has cleared it, and sets `head_index` and then `tail_index`
back to zero. A warp that finds the buffer full later waits for a smaller `tail_index` and tries
again.

The model is a step function on the buffer, the positions of the warps in their code and the
position of the consumer. Every step is one atomic addition, one load or one store, and the steps of
the warps and of the consumer come in any order.
-/

namespace TenProf.GpuQueue

/-- The words of a record in memory. -/
abbrev Record (width : ℕ) := Fin width → ℕ

/-- What a callback stores into its record. It leaves the words of the lanes that it filters out
as they are. -/
abbrev Stores (width : ℕ) := Fin width → Option ℕ

/-- The record in memory has the words that the callback stored. -/
def Holds {width : ℕ} (r : Stores width) (record : Record width) : Prop :=
  ∀ i v, r i = some v → record i = v

/-- The fields of the buffer that the queue writes. -/
structure Buffer (width : ℕ) where
  full : ℕ
  analysis : ℕ
  head_index : ℕ
  tail_index : ℕ
  records : ℕ → Record width

/-- The flag that the leader raises: `analysis` for the consumer on the GPU, `full` for the one on
the CPU. -/
def Buffer.flag {width : ℕ} (analysis : Bool) (b : Buffer width) : ℕ :=
  if analysis then b.analysis else b.full

/-- The store to the flag. -/
def Buffer.setFlag {width : ℕ} (analysis : Bool) (b : Buffer width) (v : ℕ) : Buffer width :=
  if analysis then { b with analysis := v } else { b with full := v }

/-- The positions of the leader: before a load of `head_index`, before it raises the flag, before a
load of the flag, and before the stores to `head_index` and to `tail_index`. -/
inductive Lead where
  | loadHead
  | raiseFlag
  | loadFlag
  | resetHead
  | resetTail
  deriving DecidableEq, Repr

/-- The positions of a warp, with the stores of its record. -/
inductive Warp (width : ℕ) where
  /-- Outside of the callback. -/
  | idle
  /-- Before the atomic addition to `tail_index`. -/
  | add (r : Stores width)
  /-- The first warp that found the buffer full. -/
  | lead (r : Stores width) (l : Lead)
  /-- Another warp that found the buffer full, before a load of `tail_index`. -/
  | wait (r : Stores width)
  /-- With a slot, after the stores of the first `k` words. -/
  | write (r : Stores width) (slot k : ℕ)

/-- The positions of the consumer: before a load of the flag, or reading the first `n` records. Of
these it has read `done`, and the first `k` words of the next one, `record`. -/
inductive Consumer (width : ℕ) where
  | waiting
  | reading (n : ℕ) (done : List (Record width)) (record : Record width) (k : ℕ)

/-- A pushed record: the fill epoch, the slot and the stores. -/
structure Pushed (width : ℕ) where
  epoch : ℕ
  slot : ℕ
  stores : Stores width

/-- The state. No step reads the last four fields. They count the fills and the additions to
`tail_index` since its last reset, and record what was pushed and what the consumer read each
time. -/
structure State (W width : ℕ) where
  buffer : Buffer width
  warps : Fin W → Warp width
  consumer : Consumer width
  epoch : ℕ
  tickets : ℕ
  pushed : List (Pushed width)
  drains : List (List (Record width))

/-- The start of the kernel, with any contents of the records. -/
def start (W : ℕ) {width : ℕ} (records : ℕ → Record width) : State W width where
  buffer := { full := 0, analysis := 0, head_index := 0, tail_index := 0, records := records }
  warps := fun _ => .idle
  consumer := .waiting
  epoch := 0
  tickets := 0
  pushed := []
  drains := []

/-- A warp enters the callback, a warp takes its next step in it, or the consumer takes a step. -/
inductive Action (W width : ℕ) where
  | enter (w : Fin W) (r : Stores width)
  | warp (w : Fin W)
  | consumer

variable {W width : ℕ}

/-- The warp is at a new position. -/
def State.setWarp (s : State W width) (w : Fin W) (p : Warp width) : State W width :=
  { s with warps := Function.update s.warps w p }

/-- The position of a warp after the atomic addition to `tail_index` has returned `old`. -/
def afterAdd (size old : ℕ) (r : Stores width) : Warp width :=
  let tail_index := u32 (old + 1)
  if size ≤ subU32 tail_index 1 then
    if subU32 tail_index 1 = size then .lead r .loadHead else .wait r
  else if tail_index = 0 then .add r
  else .write r (subU32 tail_index 1) 0

/-- The atomic addition to `tail_index`. -/
def State.add (size : ℕ) (s : State W width) (w : Fin W) (r : Stores width) : State W width :=
  { s.setWarp w (afterAdd size s.buffer.tail_index r) with
    buffer := { s.buffer with tail_index := u32 (s.buffer.tail_index + 1) }
    tickets := s.tickets + 1 }

/-- The leader's step. -/
def State.lead (size : ℕ) (analysis : Bool) (s : State W width) (w : Fin W) (r : Stores width) :
    Lead → State W width
  | .loadHead => if s.buffer.head_index < size then s else s.setWarp w (.lead r .raiseFlag)
  | .raiseFlag =>
    { s.setWarp w (.lead r .loadFlag) with buffer := s.buffer.setFlag analysis 1 }
  | .loadFlag => if s.buffer.flag analysis = 1 then s else s.setWarp w (.lead r .resetHead)
  | .resetHead =>
    { s.setWarp w (.lead r .resetTail) with buffer := { s.buffer with head_index := 0 } }
  | .resetTail =>
    { s.setWarp w (.add r) with
      buffer := { s.buffer with tail_index := 0 }, tickets := 0, epoch := s.epoch + 1 }

/-- The step of another warp that found the buffer full. -/
def State.wait (size : ℕ) (s : State W width) (w : Fin W) (r : Stores width) : State W width :=
  if size ≤ s.buffer.tail_index then s else s.setWarp w (.add r)

/-- A record after the store of one word, if the callback stores it. -/
def storeWord (record : Record width) (r : Stores width) (i : Fin width) : Record width :=
  match r i with
  | none => record
  | some v => Function.update record i v

/-- The store of one word. -/
def State.store (s : State W width) (w : Fin W) (r : Stores width) (slot : ℕ) (i : Fin width) :
    State W width :=
  { s.setWarp w (.write r slot (i + 1)) with
    buffer := { s.buffer with
      records := Function.update s.buffer.records slot
        (storeWord (s.buffer.records slot) r i) } }

/-- `gpu_queue_push`: the atomic addition to `head_index`. -/
def State.push (s : State W width) (w : Fin W) (r : Stores width) (slot : ℕ) : State W width :=
  { s.setWarp w .idle with
    buffer := { s.buffer with head_index := u32 (s.buffer.head_index + 1) }
    pushed := s.pushed ++ [⟨s.epoch, slot, r⟩] }

/-- The consumer's step. -/
def State.consume (analysis : Bool) (s : State W width) : State W width :=
  match s.consumer with
  | .waiting =>
    if s.buffer.flag analysis = 0 then s
    else { s with consumer := .reading s.buffer.head_index [] (fun _ => 0) 0 }
  | .reading n done record k =>
    if done.length < n then
      if h : k < width then
        let word := s.buffer.records done.length ⟨k, h⟩
        { s with consumer := .reading n done (Function.update record ⟨k, h⟩ word) (k + 1) }
      else { s with consumer := .reading n (done ++ [record]) (fun _ => 0) 0 }
    else
      { s with
        buffer := s.buffer.setFlag analysis 0
        consumer := .waiting
        drains := s.drains ++ [done] }

/-- The step of a warp inside the callback. -/
def State.warp (size : ℕ) (analysis : Bool) (s : State W width) (w : Fin W) :
    Option (State W width) :=
  match s.warps w with
  | .idle => none
  | .add r => some (s.add size w r)
  | .lead r l => some (s.lead size analysis w r l)
  | .wait r => some (s.wait size w r)
  | .write r slot k =>
    if h : k < width then some (s.store w r slot ⟨k, h⟩) else some (s.push w r slot)

/-- One step of the system. Only a warp outside of the callback enters it. -/
def step (size : ℕ) (analysis : Bool) (s : State W width) :
    Action W width → Option (State W width)
  | .enter w r =>
    match s.warps w with
    | .idle => some (s.setWarp w (.add r))
    | _ => none
  | .warp w => s.warp size analysis w
  | .consumer => some (s.consume analysis)

end TenProf.GpuQueue
