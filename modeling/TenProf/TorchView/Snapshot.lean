import TenProf.TorchView.Strides

/-!
# The on-GPU snapshot

`updata_torchview_memory_snapshot` and `redshow_torchview_ongpu_get_range_size`: the ranges of the
current inputs, which the device looks its addresses up in.
-/

namespace TenProf.TorchView

/-- The node that a pointer points to. -/
def deref (roots : List (Tree ViewNode)) (ptr : ℕ) : Option ViewNode :=
  (Tree.nodesOf roots).find? fun n => n.ptr = ptr

/-- The `last_ele` that the loop over the dimensions leaves: it computes an `offset_i` for each
dimension and uses none of them. -/
def lastEle (data_ptr : ℕ) (dims : List Dim) : ℕ :=
  dims.foldl (fun last_ele d =>
    let _offset_i := if 0 < d.size - 1 then d.size - 1 else 0
    last_ele) data_ptr

/-- `torchview_memory_snapshot[range] = ptr`. A key that starts at the same byte stays. -/
def insertSnapshot (ptr : ℕ) (m : OrderedMap ℕ (ℕ × ℕ)) (range : MemoryRange) :
    OrderedMap ℕ (ℕ × ℕ) :=
  m.set range.start (((m.find? range.start).map Prod.fst).getD range.stop, ptr)

/-- The ranges that `updata_torchview_memory_snapshot` records for a node: those of an earlier
call, or else one from the first element up to `last_ele + itemsize`. -/
def rangesOf (s : TorchView) (n : ViewNode) (dims : List Dim) : List MemoryRange :=
  match s.viewnode_mem_range_map.find? n.view_id with
  | some ranges => ranges
  | none => [⟨n.data_ptr, u64 (lastEle n.data_ptr dims + n.itemsize)⟩]

/-- `updata_torchview_memory_snapshot`. -/
def updataTorchviewMemorySnapshot (s : TorchView) : Option ℕ → Option TorchView
  | none => some s
  | some ptr =>
    match deref s.roots ptr, s.attribution.cells.find? ptr with
    | some n, some c =>
      if c.dims = [] then some s
      else if s.torch_view_ongpu then
        let ranges := rangesOf s n c.sort.dims
        some { s with
          attribution := { s.attribution with cells := s.attribution.cells.set ptr c.sort }
          viewnode_mem_range_map := s.viewnode_mem_range_map.set n.view_id ranges
          torchview_memory_snapshot :=
            ranges.foldl (insertSnapshot ptr) s.torchview_memory_snapshot }
      else none
    | _, _ => none

/-- `redshow_torchview_ongpu_get_range_size`, whose result is the number of ranges in the
snapshot. -/
def getRangeSize (s : TorchView) : Option TorchView :=
  if s.torchview_memory_snapshot = ∅ ∧ s.input_viewnode_forest_ptrs ≠ ∅ then
    s.input_viewnode_forest_ptrs.toList.foldlM
      (fun s e => updataTorchviewMemorySnapshot s e.2) s
  else some s

end TenProf.TorchView
