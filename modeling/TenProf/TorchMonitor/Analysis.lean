import TenProf.Library.OrderedMap
import TenProf.Operation.Memory

/-!
# The callbacks of the torch monitor

`TorchMonitor`, as far as its callbacks for allocations and releases go. Left out are the logs that
are only written to files, the members for sub-memories, which share nothing with the others, and
the two members for the peak of the kernels. A release has no result where the source fails in `at`.
-/

namespace TenProf

/-- `TorchMonitor`. -/
structure TorchMonitor where
  current_memories : OrderedMap ℕ Memory
  addresses_map : OrderedMap ℕ ℕ
  current_memory_usage : ℕ
  memory_peak : ℕ
  nums_cudamalloc : ℕ
  nums_cudafree : ℕ

namespace TorchMonitor

/-- The analysis before the first callback. -/
def empty : TorchMonitor := ⟨∅, ∅, 0, 0, 0, 0⟩

/-- `memory_op_callback`. -/
def memoryOpCallback (s : TorchMonitor) (op : Memory) : TorchMonitor :=
  let current_memory_usage := u64 (s.current_memory_usage + op.len)
  { s with
    current_memories := s.current_memories.emplace op.op_id op
    addresses_map := s.addresses_map.emplace op.memory_range.start op.op_id
    current_memory_usage := current_memory_usage
    nums_cudamalloc := u64 (s.nums_cudamalloc + 1)
    memory_peak :=
      if s.memory_peak < current_memory_usage then current_memory_usage else s.memory_peak }

/-- `memfree_op_callback`. -/
def memfreeOpCallback (s : TorchMonitor) (op : Memfree) : Option TorchMonitor :=
  let address := op.memory_range.start
  (s.addresses_map.find? address).map fun malloc_op_id =>
    { s with
      addresses_map := s.addresses_map.erase address
      current_memories := s.current_memories.erase malloc_op_id
      current_memory_usage := subU64 s.current_memory_usage op.len
      nums_cudafree := u64 (s.nums_cudafree + 1) }

end TorchMonitor

end TenProf
