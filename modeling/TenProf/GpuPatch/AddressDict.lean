import TenProf.Operation.Memory

/-!
# `gpu_patch_aux_address_dict_t`

The dictionary of memory objects that a kernel under analysis gets, with a mark for each object that
it has accessed. The host fills it from a snapshot of the memory, a map from starts to objects, so
that no start stands in it twice.
-/

namespace TenProf.GpuPatch

/-- The elements of the arrays of the dictionary at one index. -/
structure AddressEntry where
  start_end : MemoryRange
  hit : ℕ
  read : ℕ
  write : ℕ
  deriving DecidableEq, Repr

/-- The dictionary: its `size` first elements. -/
structure AddressDict where
  entries : List AddressEntry
  distinct : (entries.map fun entry => entry.start_end.start).Nodup

end TenProf.GpuPatch
