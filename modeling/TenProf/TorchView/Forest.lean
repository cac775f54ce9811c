import TenProf.Library.Bisect
import TenProf.Words
import TenProf.TorchView.State

/-!
# The view forest

`find_root_node`, `update_view_forest` and `delete_forest_tree`. The roots stand in a vector that
is sorted by `data_ptr`; `find_root_node` bisects it by the roots' ranges, a new root goes to the
lower bound of its `data_ptr`, and a FREE deletes from the lower bound of the freed pointer on,
until a root ends behind the freed bytes.
-/

namespace TenProf.TorchView

/-- What `find_root_node` does at the position `mid` of the roots. -/
def probeRoot (roots : List (Tree ViewNode)) (r_start r_end mid : ℕ) : Verdict :=
  match roots[mid]? with
  | none => .stop
  | some r =>
    if r.root.mem_block_range.1 ≤ r_start ∧ r_end ≤ r.root.mem_block_range.2 then .found
    else if r.root.mem_block_range.1 < r_start then .right
    else if r_start < r.root.mem_block_range.1 then .left
    else .stop

/-- `find_root_node`, for the bytes from `r_start` to `r_end`. -/
def findRootNodeOf (roots : List (Tree ViewNode)) (r_start r_end : ℕ) : Option (Tree ViewNode) :=
  if roots.length = 0 then none
  else (bisect (probeRoot roots r_start r_end) 0 (roots.length - 1)).bind fun i => roots[i]?

/-- `find_root_node` of a tensor. -/
def findRootNode (roots : List (Tree ViewNode)) (t : TensorData) : Option (Tree ViewNode) :=
  findRootNodeOf roots t.data_ptr (u64 (t.data_ptr + t.itemsize * t.numel))

/-- `find_node`, for a tensor, in the tree of a root. -/
def findNode (r : Tree ViewNode) (t : TensorData) : Option ViewNode :=
  r.find? fun n => n.key = t.key

/-- Where `std::lower_bound` splits the roots: before the first `data_ptr` that is not smaller. -/
def lowerBound (roots : List (Tree ViewNode)) (data_ptr : ℕ) :
    List (Tree ViewNode) × List (Tree ViewNode) :=
  roots.span fun r => r.root.data_ptr < data_ptr

/-- `tv_copy_cstr` into a buffer of 512 bytes. -/
def tv_copy_cstr (src : CString) : CString := src.take 511

/-- `tv_append_domain` into a buffer of 512 bytes. -/
def tv_append_domain (dst dom : CString) : CString :=
  if dst.length + 1 ≥ 512 then dst
  else
    let dst := dst ++ ['^']
    if dst.length + 1 ≥ 512 then dst
    else dst ++ dom.take (512 - dst.length - 1)

/-- The constructor of `PyStateCTX`. -/
def PyStateCTX.new (index : ℤ) (frames : List PythonState) : PyStateCTX where
  index := index
  num_states := frames.length
  py_state := (frames.take MAX_NUM_STATES).map fun f =>
    { f with file_name := tv_copy_cstr f.file_name, function_name := tv_copy_cstr f.function_name }
  object_type := .INIT_TYPE
  ctxid_pcs := ∅

/-- A change of the innermost frame's function name. -/
def PyStateCTX.mapFunctionName (c : PyStateCTX) (f : CString → CString) : PyStateCTX :=
  { c with
    py_state := match c.py_state with
      | [] => []
      | p :: ps => { p with function_name := f p.function_name } :: ps }

/-- The entry that `update_view_forest` logs for a tensor. -/
def callPathState (s : TorchView) (frames : List PythonState) (index : ℤ) : PyStateCTX :=
  let state := PyStateCTX.new index frames
  let state := match s.domain_name with
    | [] => state
    | dom :: _ => state.mapFunctionName fun name => tv_append_domain name dom
  { state with object_type := .VIEW_NODE }

/-- `call_path_map[view_id].push_back(state)`. -/
def pushCallPath (a : Attribution) (view_id : ℕ) (state : PyStateCTX) : Attribution :=
  { a with call_path_map :=
      a.call_path_map.set view_id (a.call_path_map.findD view_id [] ++ [state]) }

/-- The constructor of a root. -/
def ViewNode.ofRoot (ptr view_id : ℕ) (t : TensorData) : ViewNode where
  ptr := ptr
  view_id := view_id
  index := t.index
  numel := t.numel
  itemsize := t.itemsize
  data_ptr := t.data_ptr
  metadata_ptr := t.metadata_ptr
  mem_block_range := (t.data_ptr, u64 (t.data_ptr + t.itemsize * t.numel))
  itemsize_pos := t.itemsize_pos

/-- The constructor of any other node. -/
def ViewNode.ofView (ptr view_id : ℕ) (t : TensorData) (range : ℕ × ℕ) : ViewNode :=
  { ViewNode.ofRoot ptr view_id t with mem_block_range := range }

/-- The state with a new node, before it is put into the forest: the node is live, and its first
call path is logged. -/
def newNode (s : TorchView) (n : ViewNode) (t : TensorData) (is_sorted : Bool)
    (state : PyStateCTX) : TorchView :=
  let cell : NodeCell :=
    { dims := t.dims, is_sorted := is_sorted, is_memory_write_pc := false, pc_access := ∅ }
  { s with
    live_nodes := insert n.ptr s.live_nodes
    next_ptr := s.next_ptr + 1
    attribution :=
      { s.attribution with
        cells := s.attribution.cells.set n.ptr cell
        call_path_map := s.attribution.call_path_map.set n.view_id [state] } }

/-- The father of a new node: the first input whose node is in the tree and whose range holds the
tensor's first byte. -/
def findFather (r : Tree ViewNode) (t : TensorData) (inputs : List TensorData) : Option ViewNode :=
  inputs.findSome? fun u =>
    if u.isSkipped then none
    else (findNode r u).filter fun v =>
      v.mem_block_range.1 ≤ t.data_ptr ∧ t.data_ptr ≤ v.mem_block_range.2

/-- `update_view_forest`, with the pointer that it returns. -/
def updateViewForest (s : TorchView) (frames : List PythonState) (t : TensorData)
    (global_id : ℕ) : Option (Option ℕ × TorchView) :=
  let state := callPathState s frames t.index
  match findRootNode s.roots t with
  | some r =>
    match findNode r t with
    | some n => some (n.ptr, { s with attribution := pushCallPath s.attribution n.view_id state })
    | none =>
      match s.op_stack with
      | [] => none
      | op :: _ =>
        match findFather r t op.tensor_data with
        | none => some (none, s)
        | some v =>
          let n := ViewNode.ofView s.next_ptr global_id t v.mem_block_range
          let s := newNode s n t false state
          some (n.ptr, { s with roots := s.roots.map (Tree.insertUnder ViewNode.ptr v.ptr n) })
  | none =>
    let n := ViewNode.ofRoot s.next_ptr global_id t
    let s := newNode s n t true state
    let (below, above) := lowerBound s.roots t.data_ptr
    some (n.ptr, { s with roots := below ++ ⟨n, .nil⟩ :: above })

/-- `delete` of a list of nodes. -/
def deleteNodes (s : TorchView) (ns : List ViewNode) : TorchView :=
  ns.foldl (fun s n =>
    { s with
      live_nodes := s.live_nodes.erase n.ptr
      attribution := { s.attribution with cells := s.attribution.cells.erase n.ptr } }) s

/-- `viewnode_mem_range_map.erase` of each node. -/
def eraseRanges (s : TorchView) (ns : List ViewNode) : TorchView :=
  { s with viewnode_mem_range_map :=
      ns.foldl (fun m n => m.erase n.view_id) s.viewnode_mem_range_map }

/-- The deletion of one tree. A root that has no children and no attributed access loses its call
path; any other tree loses the ranges of its nodes. -/
def deleteTree (s : TorchView) (r : Tree ViewNode) : Option TorchView :=
  if r.children = .nil ∧ (s.attribution.call_path_map.findD r.root.view_id []).length ≤ 1 then
    match s.attribution.call_path_map.findD r.root.view_id [] with
    | [] => none
    | c :: _ =>
      if c.ctxid_pcs = ∅ then
        let a := { s.attribution with
          call_path_map := s.attribution.call_path_map.erase r.root.view_id }
        some (deleteNodes { s with attribution := a } [r.root])
      else some (deleteNodes (eraseRanges s r.nodes) r.nodes)
  else some (deleteNodes (eraseRanges s r.nodes) r.nodes)

/-- The loop of `delete_forest_tree` over the roots from the lower bound on, with the roots that it
leaves. -/
def deleteLoop (mem_start_addr stop : ℕ) :
    List (Tree ViewNode) → TorchView → Option (List (Tree ViewNode) × TorchView)
  | [], s => some ([], s)
  | r :: rs, s =>
    if stop < r.root.mem_block_range.2 then some (r :: rs, s)
    else if mem_start_addr ≤ r.root.mem_block_range.1 then
      (deleteTree s r).bind fun s => deleteLoop mem_start_addr stop rs s
    else (deleteLoop mem_start_addr stop rs s).map fun (kept, s) => (r :: kept, s)

/-- `delete_forest_tree`. -/
def deleteForestTree (s : TorchView) (mem_start_addr total_allocated : ℕ) : Option TorchView :=
  let stop := u64 (mem_start_addr + total_allocated)
  let snapshot := s.torchview_memory_snapshot.filter fun e =>
    ¬(mem_start_addr ≤ e.1 ∧ e.1 ≤ stop)
  let (below, above) := lowerBound s.roots mem_start_addr
  (deleteLoop mem_start_addr stop above { s with torchview_memory_snapshot := snapshot }).map
    fun (kept, s) => { s with roots := below ++ kept }

end TenProf.TorchView
