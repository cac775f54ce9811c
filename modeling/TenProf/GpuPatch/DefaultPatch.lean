import TenProf.GpuPatch.Queue
import TenProf.Library.Bytes
import TenProf.Redshow.DefaultTrace

/-!
# The callbacks that store full records

`memory_access_callback` and the callbacks for the start and the end of a block in `gpu-patch.cu`.
The lanes of a warp that are active together store one record into the slot that the queue hands
out, each active lane its address and the bytes of its access. The words of the other lanes, the
bytes behind the size, and, for the start and the end of a block, the size too, are left as they
are.
-/

namespace TenProf.GpuPatch

/-- `GPU_PATCH_MAX_ACCESS_SIZE`. -/
def MAX_ACCESS_SIZE : ℕ := 16

/-- `GPU_PATCH_WARP_SIZE`. -/
def WARP_SIZE : ℕ := 32

/-- `sample_callback`. -/
def sampleCallback (frequency offset flat_block_id : ℕ) : Bool :=
  -- 1: sample all blocks, more: a portion of them, 0: none
  frequency ≠ 0 && flat_block_id % frequency = offset

/-- The lanes of a warp that are in a callback together; the threads of a warp follow one another in
their block. -/
structure ActiveWarp where
  flat_block_id : ℕ
  warp : ℕ
  active_mask : BitVec 32
  thread_lt : warp * 32 + 32 ≤ 2^32 := by decide

namespace ActiveWarp

/-- `get_flat_thread_id` of a lane. -/
def flatThreadId (w : ActiveWarp) (laneid : ℕ) : ℕ := w.warp * 32 + laneid

/-- The thread of a lane. -/
def thread (w : ActiveWarp) (laneid : ℕ) : ThreadId := ⟨w.flat_block_id, w.flatThreadId laneid⟩

/-- `first_laneid`: the lowest active lane. -/
def firstLaneid (w : ActiveWarp) : ℕ :=
  ((List.range 32).find? fun laneid => w.active_mask.getLsbD laneid).getD 0

/-- The active lanes. -/
def lanes (w : ActiveWarp) : List ℕ :=
  (List.range 32).filter fun laneid => w.active_mask.getLsbD laneid

theorem firstLaneid_lt (w : ActiveWarp) : w.firstLaneid < 32 := by
  unfold firstLaneid
  cases h : (List.range 32).find? fun laneid => w.active_mask.getLsbD laneid with
  | none => decide
  | some laneid => exact List.mem_range.1 (List.mem_of_find?_eq_some h)

end ActiveWarp

/-- The memories of the device: the shared ones of the blocks, the local ones of the threads, and the
global one. -/
structure DeviceMemory where
  shared : ℕ → ByteMem
  local_memory : ThreadId → ByteMem
  global : ByteMem

/-- The memory of an access, by which its callback is chosen. -/
inductive Space
  | global
  | shared
  | local_memory
  deriving DecidableEq, Repr

/-- The arguments of a callback for a memory access in all lanes: `new_value` is zero for `NULL`,
`memory` is what is read, and `buf` what the array has before. -/
structure WarpAccess extends ActiveWarp where
  space : Space
  pc : ℕ
  address : ℕ → ℕ
  size : ℕ
  flags : ℕ
  new_value : ℕ → ℕ
  memory : DeviceMemory
  buf : ℕ → ℕ → UInt8
  size_le : size ≤ MAX_ACCESS_SIZE := by decide

namespace WarpAccess

/-- The flags that `sanitizer_global_memory_access_callback`,
`sanitizer_shared_memory_access_callback` and `sanitizer_local_memory_access_callback` pass on. -/
def callbackFlags (a : WarpAccess) : ℕ :=
  match a.space with
  | .global => a.flags
  | .shared => a.flags ||| SHARED
  | .local_memory => a.flags ||| LOCAL

/-- A byte of the array after the memory is read; `force_int` is
`SANITIZER_MEMORY_DEVICE_FLAG_FORCE_INT`. -/
def valueByte (force_int : ℕ) (a : WarpAccess) (laneid i : ℕ) : UInt8 :=
  if a.new_value laneid = 0 then
    -- Read operation, old value can be on local memory, shared memory, or global memory
    if a.callbackFlags &&& SHARED ≠ 0 then
      a.memory.shared a.flat_block_id (u32 (u32 (a.address laneid) + i))
    else if a.callbackFlags &&& LOCAL ≠ 0 then
      a.memory.local_memory (a.thread laneid) (u32 (u32 (a.address laneid) + i))
    else if a.callbackFlags ≠ force_int then a.memory.global (u64 (a.address laneid + i))
    else a.buf laneid i
  else
    -- Write operation, new value is on global memory
    a.memory.global (u64 (a.new_value laneid + i))

end WarpAccess

/-- A callback on the device. -/
inductive DeviceCall
  | memory_access (a : WarpAccess)
  | block_enter (w : ActiveWarp) (pc : ℕ)
  | block_exit (w : ActiveWarp) (pc : ℕ)

namespace DeviceCall

/-- The warp of a callback. -/
def activeWarp : DeviceCall → ActiveWarp
  | memory_access a => a.toActiveWarp
  | block_enter w _ => w
  | block_exit w _ => w

/-! ## The words of a record -/

/-- The number of words of a record: six fields, the addresses, and the bytes of the values. -/
abbrev recordWords : ℕ := 6 + 32 + 32 * 16

/-- The words that a callback stores: the fields that its first lane assigns, without the size where
it assigns none, then those of the lanes. -/
def headStores (w : ActiveWarp) (pc : ℕ) (size : Option ℕ) (flags : ℕ) (lanes : ℕ → Option ℕ) :
    ℕ → Option ℕ
  | 0 => some pc
  | 1 => size
  | 2 => some w.active_mask.toNat
  | 3 => some (w.flatThreadId w.firstLaneid)
  | 4 => some w.flat_block_id
  | 5 => some flags
  | n + 6 => lanes n

/-- The words that the lanes store for an access: first the addresses, then the bytes. -/
def laneStores (force_int : ℕ) (a : WarpAccess) (n : ℕ) : Option ℕ :=
  if n < WARP_SIZE then
    if a.active_mask.getLsbD n then some (a.address n) else none
  else
    let laneid := (n - WARP_SIZE) / MAX_ACCESS_SIZE
    let i := (n - WARP_SIZE) % MAX_ACCESS_SIZE
    if a.active_mask.getLsbD laneid && i < a.size then
      some (a.valueByte force_int laneid i).toNat
    else none

/-- The words that a callback stores. -/
def wordStores (force_int : ℕ) : DeviceCall → ℕ → Option ℕ
  | memory_access a =>
    headStores a.toActiveWarp a.pc (some a.size) a.callbackFlags (laneStores force_int a)
  | block_enter w pc => headStores w pc none BLOCK_ENTER_FLAG fun _ => none
  | block_exit w pc => headStores w pc none BLOCK_EXIT_FLAG fun _ => none

/-- What a callback stores into its slot. -/
def stores (force_int : ℕ) (call : DeviceCall) : GpuQueue.Stores recordWords := fun n =>
  call.wordStores force_int n

end DeviceCall

open DeviceCall (recordWords)

/-- A word of a record. -/
def wordAt (record : GpuQueue.Record recordWords) (n : ℕ) : ℕ :=
  if h : n < recordWords then record ⟨n, h⟩ else 0

/-- The record that some words are. -/
def Record.ofWords (record : GpuQueue.Record recordWords) : Record where
  pc := wordAt record 0
  size := wordAt record 1
  active := BitVec.ofNat 32 (wordAt record 2)
  flat_thread_id := wordAt record 3
  flat_block_id := wordAt record 4
  flags := wordAt record 5
  address j := wordAt record (6 + j)
  value j i := UInt8.ofNat (wordAt record (6 + WARP_SIZE + j * MAX_ACCESS_SIZE + i))

/-! ## What a record shows -/

/-- The fields of a record that the first lane assigns in every callback. -/
structure ShowsHead (w : ActiveWarp) (pc flags : ℕ) (record : Record) : Prop where
  pc : record.pc = pc
  active : record.active = w.active_mask
  flat_thread_id : record.flat_thread_id = w.flatThreadId w.firstLaneid
  flat_block_id : record.flat_block_id = w.flat_block_id
  flags : record.flags = flags

/-- A record of an access has what the active lanes stored. -/
structure ShowsAccess (force_int : ℕ) (a : WarpAccess) (record : Record) : Prop extends
    ShowsHead a.toActiveWarp a.pc a.callbackFlags record where
  size : record.size = a.size
  address : ∀ j ∈ a.lanes, record.address j = a.address j
  value : ∀ j ∈ a.lanes, ∀ i < a.size, record.value j i = a.valueByte force_int j i

/-- A record has what a callback stored. -/
def Shows (force_int : ℕ) (record : Record) : DeviceCall → Prop
  | .memory_access a => ShowsAccess force_int a record
  | .block_enter w pc => ShowsHead w pc BLOCK_ENTER_FLAG record
  | .block_exit w pc => ShowsHead w pc BLOCK_EXIT_FLAG record

section Shows

variable {force_int : ℕ} {call : DeviceCall} {words : GpuQueue.Record recordWords}

/-- A word that is stored is in memory. -/
theorem wordAt_of_holds (h : GpuQueue.Holds (call.stores force_int) words) {n v : ℕ}
    (hn : n < recordWords) (hv : call.wordStores force_int n = some v) : wordAt words n = v := by
  unfold wordAt
  rw [dif_pos hn]
  exact h ⟨n, hn⟩ v hv

/-- The fields of the first lane. -/
theorem showsHead_of_holds (h : GpuQueue.Holds (call.stores force_int) words) {w : ActiveWarp}
    {pc flags : ℕ} {size : Option ℕ} {lanes : ℕ → Option ℕ}
    (hstores : call.wordStores force_int = DeviceCall.headStores w pc size flags lanes) :
    ShowsHead w pc flags (Record.ofWords words) := by
  have hword : ∀ n v, n < recordWords → DeviceCall.headStores w pc size flags lanes n = some v →
      wordAt words n = v := fun n v hn hv => wordAt_of_holds h hn (hstores ▸ hv)
  refine ⟨hword 0 _ (by decide) rfl, ?_, hword 3 _ (by decide) rfl, hword 4 _ (by decide) rfl,
    hword 5 _ (by decide) rfl⟩
  show BitVec.ofNat 32 (wordAt words 2) = w.active_mask
  rw [hword 2 _ (by decide) rfl, BitVec.ofNat_toNat, BitVec.setWidth_eq]

/-- An active lane. -/
theorem ActiveWarp.mem_lanes_iff {w : ActiveWarp} {j : ℕ} :
    j ∈ w.lanes ↔ j < 32 ∧ w.active_mask.getLsbD j = true := by
  unfold lanes
  rw [List.mem_filter, List.mem_range]

/-- The address and the bytes of an active lane. -/
theorem laneStores_address {a : WarpAccess} {j : ℕ} (hj : j ∈ a.lanes) :
    DeviceCall.laneStores force_int a j = some (a.address j) := by
  obtain ⟨hlt, hactive⟩ := ActiveWarp.mem_lanes_iff.1 hj
  unfold DeviceCall.laneStores
  rw [if_pos (show j < WARP_SIZE from hlt), if_pos hactive]

theorem laneStores_value {a : WarpAccess} {j i : ℕ} (hj : j ∈ a.lanes) (hi : i < a.size) :
    DeviceCall.laneStores force_int a (WARP_SIZE + j * MAX_ACCESS_SIZE + i) =
      some (a.valueByte force_int j i).toNat := by
  obtain ⟨hlt, hactive⟩ := ActiveWarp.mem_lanes_iff.1 hj
  have hi16 : i < 16 := hi.trans_le a.size_le
  have hnot : ¬WARP_SIZE + j * MAX_ACCESS_SIZE + i < WARP_SIZE := by omega
  have hsub : WARP_SIZE + j * MAX_ACCESS_SIZE + i - WARP_SIZE = j * MAX_ACCESS_SIZE + i := by omega
  have hdiv : (j * MAX_ACCESS_SIZE + i) / MAX_ACCESS_SIZE = j := by
    show (j * 16 + i) / 16 = j
    omega
  have hmod : (j * MAX_ACCESS_SIZE + i) % MAX_ACCESS_SIZE = i := by
    show (j * 16 + i) % 16 = i
    omega
  unfold DeviceCall.laneStores
  rw [if_neg hnot]
  simp only [hsub, hdiv, hmod, hactive, hi, decide_true, Bool.and_self, if_true]

/-- Words that hold what a callback stored show it as a record, whatever the other words are. -/
theorem shows_of_holds (h : GpuQueue.Holds (call.stores force_int) words) :
    Shows force_int (Record.ofWords words) call := by
  cases call with
  | block_enter w pc => exact showsHead_of_holds h rfl
  | block_exit w pc => exact showsHead_of_holds h rfl
  | memory_access a =>
    have hhead : ShowsHead a.toActiveWarp a.pc a.callbackFlags (Record.ofWords words) :=
      showsHead_of_holds h rfl
    have hsize : wordAt words 1 = a.size := wordAt_of_holds h (by decide) rfl
    refine ⟨hhead, hsize, fun j hj => ?_, fun j hj i hi => ?_⟩
    · have hlt := (ActiveWarp.mem_lanes_iff.1 hj).1
      have hstore : DeviceCall.wordStores force_int (.memory_access a) (6 + j) =
          some (a.address j) := by
        rw [Nat.add_comm]
        exact laneStores_address hj
      exact wordAt_of_holds h (show 6 + j < 6 + 32 + 32 * 16 by omega) hstore
    · have hlt := (ActiveWarp.mem_lanes_iff.1 hj).1
      have hi16 : i < 16 := hi.trans_le a.size_le
      have hbound : 6 + WARP_SIZE + j * MAX_ACCESS_SIZE + i < recordWords := by
        show 6 + 32 + j * 16 + i < 6 + 32 + 32 * 16
        omega
      have hstore : DeviceCall.wordStores force_int (.memory_access a)
          (6 + WARP_SIZE + j * MAX_ACCESS_SIZE + i) =
          some (a.valueByte force_int j i).toNat := by
        rw [show 6 + WARP_SIZE + j * MAX_ACCESS_SIZE + i =
          (WARP_SIZE + j * MAX_ACCESS_SIZE + i) + 6 by omega]
        exact laneStores_value hj hi
      show UInt8.ofNat (wordAt words _) = _
      rw [wordAt_of_holds h hbound hstore, UInt8.ofNat_toNat]

end Shows

end TenProf.GpuPatch
