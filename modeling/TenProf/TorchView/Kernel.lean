import TenProf.TorchView.Forest
import TenProf.TorchView.Snapshot
import TenProf.TorchView.PcRangeMap
import Mathlib.Data.List.Sort

/-!
# Attributing the accesses of a kernel

The lookup `new_get_view_nodes_by_mem_addr` and the callbacks around a kernel: `analysis_begin`,
`unit_access`, `kernel_op_callback`, `analysis_end`, and `map_delayed_access`, which the next exit
of an operation runs. Each of them maps an attribution to an attribution, and reads the rest of the
state from `s`.
-/

namespace TenProf.TorchView

open GpuPatch

/-- The nodes that a lookup tests: the nodes of the current inputs or, when it is delayed, the
roots from the lower bound of the address on, until one ends before the address. -/
def possibleNodes (s : TorchView) (mem_addr_hit : ℕ) (is_delay : Bool) : Option (List ViewNode) :=
  if !is_delay && s.op_stack ≠ [] then
    (s.input_viewnode_forest_ptrs.toList.filterMap Prod.snd).mapM (deref s.roots)
  else
    let above := (lowerBound s.roots mem_addr_hit).2
    let upto := above.takeWhile fun r => mem_addr_hit ≤ r.root.mem_block_range.2
    some ((upto.map Tree.root).filter fun n => n.mem_block_range.1 ≤ mem_addr_hit)

/-- `sort_tensor_strides` on each node. -/
def sortCells (cells : OrderedMap ℕ NodeCell) (ns : List ViewNode) :
    Option (OrderedMap ℕ NodeCell) :=
  ns.foldlM (fun cells n => (cells.find? n.ptr).map fun c => cells.set n.ptr c.sort) cells

/-- `new_get_view_nodes_by_mem_addr`, with the cells that it sorted. -/
def newGetViewNodesByMemAddr (env : Env) (s : TorchView) (cells : OrderedMap ℕ NodeCell)
    (mem_addr_hit : ℕ) (is_delay : Bool) : Option (List ViewNode × OrderedMap ℕ NodeCell) :=
  (possibleNodes s mem_addr_hit is_delay).bind fun possible =>
    (sortCells cells possible).map fun cells =>
      (possible.filter fun n => (cells.find? n.ptr).any fun c => isHit env n c.dims mem_addr_hit,
        cells)

/-- `update_node_total_access`, which skips nodes that are not live. -/
def updateNodeTotalAccess (live_nodes : Finset ℕ) (a : Attribution) (view_nodes : List ℕ)
    (pc : ℕ) : Option Attribution :=
  view_nodes.foldlM (fun a ptr =>
    if ptr ∈ live_nodes then
      (a.cells.find? ptr).map fun c =>
        let c := { c with pc_access := c.pc_access.set pc (c.pc_access.findD pc 0 + 1) }
        { a with cells := a.cells.set ptr c }
    else some a) a

/-- `call_path_map[view_id].back().ctxid_pcs[ctx_id].push_back(pc)`. -/
def pushPc (a : Attribution) (view_id ctx_id pc : ℕ) : Option Attribution :=
  let states := a.call_path_map.findD view_id []
  states.getLast?.map fun c =>
    let c := { c with ctxid_pcs := c.ctxid_pcs.set ctx_id (c.ctxid_pcs.findD ctx_id [] ++ [pc]) }
    { a with call_path_map := a.call_path_map.set view_id (states.dropLast ++ [c]) }

/-- The block under `if (is_aten_copy_domain)`: the target of the copy is its input 0, the source
its input 1. -/
def recordAtenCopy (a : Attribution) (view_id : ℕ) : Option Attribution :=
  if a.is_aten_copy_domain ∧ (a.aten_copy_tar = 0 ∨ a.aten_copy_src = 0) then
    (a.call_path_map.findD view_id []).getLast?.map fun c =>
      let tar := if c.index = 0 then view_id else a.aten_copy_tar
      let src := if c.index = 1 then view_id else a.aten_copy_src
      let a := { a with aten_copy_tar := tar, aten_copy_src := src }
      if tar ≠ 0 ∧ src ≠ 0 then
        let copies := a.device_view_copy_map.findD a.aten_copy_pystate_hash ∅
        { a with
          device_view_copy_map :=
            a.device_view_copy_map.set a.aten_copy_pystate_hash (copies.set tar src) }
      else a
  else some a

/-- `write_after_write_map[view_id].emplace_back(aten_copy_pystate_hash, pc)`. -/
def pushWriteAfterWrite (a : Attribution) (view_id pc : ℕ) : Attribution :=
  let pairs := a.write_after_write_map.findD view_id [] ++ [(a.aten_copy_pystate_hash, pc)]
  { a with write_after_write_map := a.write_after_write_map.set view_id pairs }

/-- `is_memory_write_pc` of a node, set to a value. -/
def setMemoryWritePc (a : Attribution) (ptr : ℕ) (value : Bool) : Option Attribution :=
  (a.cells.find? ptr).map fun c =>
    { a with cells := a.cells.set ptr { c with is_memory_write_pc := value } }

/-- What the CPU mode logs for a node that an access hits. -/
def recordHit (trace : Trace) (ctx_id pc : ℕ) (a : Attribution) (n : ViewNode) :
    Option Attribution :=
  (pushPc a n.view_id ctx_id pc).bind fun a =>
    (if pc ∈ trace.write_pcs then
      (a.cells.find? n.ptr).map fun c =>
        if c.is_memory_write_pc then pushWriteAfterWrite a n.view_id pc else a
    else setMemoryWritePc a n.ptr false).bind fun a =>
      recordAtenCopy a n.view_id

/-- What the CPU mode logs for an access that hits no node: it is delayed. -/
def delayAccess (trace : Trace) (ctx_id pc mem_start : ℕ) (a : Attribution) : Attribution :=
  { a with delayed_trace := a.delayed_trace.map fun d =>
      { d with
        access_memory := d.access_memory.set pc
          ((d.access_memory.findD pc ∅).emplace mem_start ctx_id)
        write_pcs := if pc ∈ trace.write_pcs then insert pc d.write_pcs else d.write_pcs } }

/-- One turn of the loop of `kernel_op_callback` over the accesses, with the cache of the nodes
that each instruction hit first. -/
def kernelAccess (env : Env) (s : TorchView) (trace : Trace) (ctx_id : ℕ)
    (st : Attribution × OrderedMap ℕ (List ViewNode)) (access : ℕ × ℕ) :
    Option (Attribution × OrderedMap ℕ (List ViewNode)) :=
  let (a, pc_node_cache) := st
  let (pc, mem_start) := access
  match pc_node_cache.find? pc with
  | some ns =>
    (updateNodeTotalAccess s.live_nodes a (ns.map ViewNode.ptr) pc).map fun a =>
      (a, pc_node_cache)
  | none =>
    (newGetViewNodesByMemAddr env s a.cells mem_start false).bind fun (hits, cells) =>
      (updateNodeTotalAccess s.live_nodes { a with cells := cells } (hits.map ViewNode.ptr)
        pc).bind fun a =>
        (hits.foldlM (recordHit trace ctx_id pc) a).map fun a =>
          (if hits = [] then delayAccess trace ctx_id pc mem_start a else a,
            pc_node_cache.set pc hits)

/-- The accesses of a trace, instruction by instruction. -/
def accessesOf (access_memory : OrderedMap ℕ (OrderedMap ℕ ℕ)) : List (ℕ × ℕ × ℕ) :=
  access_memory.toList.flatMap fun (pc, m_c) => m_c.toList.map fun (m, c) => (pc, m, c)

/-- `strcat` into a buffer of 512 bytes. -/
def strcat (dst src : CString) : Option CString :=
  if dst.length + src.length < 512 then some (dst ++ src) else none

/-- The Python state of a delayed trace: the launch's frames, with the current domain appended. -/
def delayedState (s : TorchView) (frames : List PythonState) : Option PyStateCTX :=
  let state := PyStateCTX.new (-1) frames
  match state.py_state, s.domain_name with
  | p :: ps, dom :: _ =>
    ((strcat p.function_name ['^']).bind fun name => strcat name dom).map fun name =>
      { state with py_state := { p with function_name := name } :: ps }
  | _, _ => some state

/-- `all_states`: the text of all frames, which is empty when there are too many. -/
def allStates (frames : List PythonState) : CString :=
  if frames.length ≤ MAX_NUM_STATES then
    frames.flatMap fun f => f.file_name ++ f.function_name ++
      (toString f.function_first_lineno).toList ++ (toString f.lineno).toList
  else []

/-- `kernel_op_callback` when `torch_view_ongpu` is not set. -/
def kernelOpCallbackCpu (env : Env) (s : TorchView) (a : Attribution) (ctx_id : ℕ)
    (frames : List PythonState) : Option Attribution :=
  match a.trace with
  | none => some a
  | some trace =>
    let delayed_trace := match a.delayed_trace with
      | some d => some d
      | none => (delayedState s frames).map fun state => (⟨state, ∅, ∅⟩ : DelayedTrace)
    delayed_trace.bind fun delayed =>
      let accesses := (accessesOf trace.access_memory).map fun access => (access.1, access.2.1)
      (accesses.foldlM (kernelAccess env s trace ctx_id)
        ({ a with delayed_trace := some delayed }, ∅)).map fun st =>
          { st.1 with
            delayed_trace := st.1.delayed_trace.filter fun d => d.access_memory ≠ ∅
            trace := none }

/-- What the on-GPU mode logs for a node in the set of an instruction. -/
def recordGpuHit (roots : List (Tree ViewNode)) (flag ctx_id pc : ℕ) (a : Attribution) (ptr : ℕ) :
    Option Attribution :=
  (deref roots ptr).bind fun n =>
    if (a.call_path_map.find? n.view_id).isNone then some a
    else (pushPc a n.view_id ctx_id pc).bind fun a =>
      (if flag = WRITE then
        (a.cells.find? n.ptr).bind fun c =>
          setMemoryWritePc (if c.is_memory_write_pc then pushWriteAfterWrite a n.view_id pc else a)
            n.ptr true
      else some a).bind fun a =>
        recordAtenCopy a n.view_id

/-- The nodes of a row of a bitmap, as a set of pointers. They are ordered by when they were
allocated, where the source orders them by address. -/
def rowNodes (s : TorchView) (bit_map : ℕ → BitVec 64) (r_i : ℕ) : List ℕ :=
  let entries := s.torchview_memory_snapshot.toList
  ((decodeRow bit_map entries.length r_i).filterMap fun adv =>
    (entries[adv]?).map fun e => e.2.2).dedup.insertionSort (· ≤ ·)

/-- One turn of the loop over the rows of a bitmap. -/
def kernelRow (s : TorchView) (dict : TorchviewDict) (flag ctx_id : ℕ) (a : Attribution)
    (r_i : ℕ) : Option Attribution :=
  let pc := r_i * 8
  let hits := rowNodes s (bitMapOf flag dict) r_i
  (updateNodeTotalAccess s.live_nodes a hits pc).bind fun a =>
    hits.foldlM (recordGpuHit s.roots flag ctx_id pc) a

/-- `kernel_op_callback` when `torch_view_ongpu` is set. -/
def kernelOpCallbackGpu (s : TorchView) (a : Attribution) (ctx_id : ℕ) : Option Attribution :=
  a.torchview_dict.bind fun dict =>
    if dict.view_range_size = 0 ∨ dict.view_range_size ≠ s.torchview_memory_snapshot.size then
      some a
    else
      ((List.range (pcSizeOf READ dict)).foldlM (kernelRow s dict READ ctx_id) a).bind fun a =>
        (List.range (pcSizeOf WRITE dict)).foldlM (kernelRow s dict WRITE ctx_id) a

/-- `kernel_op_callback`. -/
def kernelOpCallback (env : Env) (s : TorchView) (ctx_id : ℕ) (frames : List PythonState) :
    Option Attribution :=
  let a := { s.attribution with aten_copy_pystate_hash := env.hash (allStates frames) }
  if s.torch_view_ongpu then kernelOpCallbackGpu s a ctx_id
  else kernelOpCallbackCpu env s a ctx_id frames

/-- `analysis_begin`. -/
def analysisBegin (s : TorchView) (dict : TorchviewDict) : Attribution :=
  let a := s.attribution
  let a := if s.torch_view_ongpu then { a with torchview_dict := some dict }
    else { a with trace := some (a.trace.getD ⟨∅, ∅⟩) }
  if s.domain_name.head? = some "aten::copy_".toList then
    { a with
      is_aten_copy_domain := true
      aten_copy_pystate_hash := 0
      aten_copy_tar := 0
      aten_copy_src := 0 }
  else a

/-- `analysis_end`. The source tests `aten_copy_src` twice. -/
def analysisEnd (a : Attribution) : Attribution :=
  if a.is_aten_copy_domain ∧ a.aten_copy_src ≠ 0 ∧ a.aten_copy_src ≠ 0 then
    { a with
      is_aten_copy_domain := false
      aten_copy_pystate_hash := 0
      aten_copy_tar := 0
      aten_copy_src := 0 }
  else a

/-- `unit_access`: only the first access of an instruction is recorded. -/
def unitAccess (a : Attribution) (pc addr flags : ℕ) : Option Attribution :=
  a.trace.map fun t =>
    if (t.access_memory.find? pc).isSome then a
    else
      { a with
        trace := some
          { access_memory := t.access_memory.set pc ((∅ : OrderedMap ℕ ℕ).emplace addr 0)
            write_pcs := if flags = WRITE then insert pc t.write_pcs else t.write_pcs } }

/-- `get_mem_block_by_mem_addr`. -/
def getMemBlockByMemAddr (s : TorchView) (mem_addr_hit : ℕ) : List MemoryBlock :=
  s.allocated_mem_blocks.filter fun b =>
    b.ptr ≤ mem_addr_hit ∧ mem_addr_hit < u64 (b.ptr + b.size)

/-- The delayed Python state, logged for a view node or a memory block. -/
def pushDelayed (a : Attribution) (d : DelayedTrace) (object_type : MemObject) (view_id c pc : ℕ) :
    Option Attribution :=
  pushPc (pushCallPath a view_id { d.python_state with object_type := object_type }) view_id c pc

/-- One turn of the loop of `map_delayed_access` over the delayed accesses. -/
def delayedAccess (env : Env) (s : TorchView) (d : DelayedTrace)
    (st : Attribution × OrderedMap ℕ (List ViewNode)) (access : ℕ × ℕ × ℕ) :
    Option (Attribution × OrderedMap ℕ (List ViewNode)) :=
  let (a, pc_node_cache) := st
  let (pc, mem_start, c) := access
  match pc_node_cache.find? pc with
  | some ns =>
    (updateNodeTotalAccess s.live_nodes a (ns.map ViewNode.ptr) pc).map fun a =>
      (a, pc_node_cache)
  | none =>
    (newGetViewNodesByMemAddr env s a.cells mem_start true).bind fun (hits, cells) =>
      (updateNodeTotalAccess s.live_nodes { a with cells := cells } (hits.map ViewNode.ptr)
        pc).bind fun a =>
        (hits.foldlM (fun a n =>
          (pushDelayed a d .VIEW_NODE n.view_id c pc).bind fun a =>
            setMemoryWritePc a n.ptr (pc ∈ d.write_pcs)) a).bind fun a =>
          (if hits = [] then
            (getMemBlockByMemAddr s mem_start).foldlM
              (fun a b => pushDelayed a d .MEMORY_BLOCK b.block_id c pc) a
          else some a).map fun a => (a, pc_node_cache.set pc hits)

/-- `map_delayed_access`, then `clear_delayed_trace`. -/
def mapDelayedAccess (env : Env) (s : TorchView) : Option Attribution :=
  match s.attribution.delayed_trace with
  | none => some s.attribution
  | some d =>
    ((accessesOf d.access_memory).foldlM (delayedAccess env s d) (s.attribution, ∅)).map
      fun st => { st.1 with delayed_trace := none }

end TenProf.TorchView
