import TenProf.Binutils.Instruction
import TenProf.GpuPatch.AuxTorchview
import TenProf.Operation.Memory

/-!
# The access of a thread to a unit

What `unit_access` of an analysis is told about one unit of the access of a thread, less the kernel
and the operation, which the analyses modelled here do not look at. The address is the one where the
access starts; `unit_addr` is that of the unit.
-/

namespace TenProf

open Binutils

/-- `ThreadId`. -/
structure ThreadId where
  flat_block_id : ℕ
  flat_thread_id : ℕ
  deriving DecidableEq, Repr

/-- What the comparison of threads looks at, in that order. -/
def ThreadId.key (t : ThreadId) : ℕ ×ₗ ℕ := toLex (t.flat_block_id, t.flat_thread_id)

/-- The comparison looks at everything. -/
theorem ThreadId.key_injective : Function.Injective ThreadId.key := by
  rintro ⟨block, thread⟩ ⟨block', thread'⟩ h
  simpa [key] using h

instance : LinearOrder ThreadId := LinearOrder.lift' ThreadId.key ThreadId.key_injective

/-- `redshow_access_type_t`. -/
inductive RedshowAccessType
  | READ
  | WRITE
  deriving DecidableEq, Repr

/-- The flag of an access type. -/
def RedshowAccessType.flag : RedshowAccessType → ℕ
  | READ => GpuPatch.READ
  | WRITE => GpuPatch.WRITE

/-- The parameters of `unit_access`. -/
structure ThreadAccess where
  thread_id : ThreadId
  access_kind : AccessKind
  memory : Memory
  pc : ℕ
  value : ℕ
  addr : ℕ
  index : ℕ
  flags : ℕ
  deriving DecidableEq, Repr

namespace ThreadAccess

/-- The access has the flag of a type. -/
def has (a : ThreadAccess) (type : RedshowAccessType) : Bool := a.flags &&& type.flag ≠ 0

/-- The address of the unit: `addr += index * access_kind.unit_size / 8`. -/
def unit_addr (a : ThreadAccess) : ℕ := u64 (a.addr + u32 (a.index * a.access_kind.unit_size) / 8)

end ThreadAccess

end TenProf
