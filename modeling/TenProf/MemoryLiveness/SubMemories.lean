import TenProf.Library.Runs
import TenProf.MemoryLiveness.State

/-!
# The sub-memories that a copy or a set touches

The part of the callbacks of `MemoryLiveness` for the sub-memories of PyTorch. A copy or a set is
registered for the sub-memories from the one before the start of its range up to the one before its
end, both as `prev` finds them. For the source of a copy nothing is registered when the two are one.
Neither look-up asks whether the sub-memory ends before the range or starts behind it. Only the
first registration under an op id stays, so that a sub-memory on both sides of a copy is one of the
source only. `sub_registered_iff` says for which ranges the sub-memories that are registered after
the callback are those that the ranges touch.

Left out are the members that the walks do not use: the logs, the sizes, and the usage with its
peak.
-/

namespace TenProf.MemoryLiveness

/-! ## The members for sub-memories -/

/-- The members for sub-memories: the op id for each start, the live ones, and what has been
registered for each. -/
structure SubMemories where
  sub_addresses_map : OrderedMap ℕ ℕ := ∅
  current_submemories : OrderedMap ℕ Memory := ∅
  sub_operations : OrderedMap ℕ (OrderedMap ℕ MemoryOperation) := ∅

namespace SubMemories

/-- `memory_operation_register` for a sub-memory. -/
def memoryOperationRegister (s : SubMemories) (memory_op_id op_id : ℕ) (mem_op : MemoryOperation) :
    SubMemories :=
  let sub_op_list := (s.sub_operations.findD memory_op_id ∅).emplace op_id mem_op
  { s with sub_operations := s.sub_operations.set memory_op_id sub_op_list }

/-- `memory_op_callback` for a sub-memory. -/
def memoryOpCallback (s : SubMemories) (op : Memory) : SubMemories :=
  let s :=
    { s with
      current_submemories := s.current_submemories.emplace op.op_id op
      sub_addresses_map := s.sub_addresses_map.emplace op.memory_range.start op.op_id }
  if (s.sub_operations.find? op.op_id).isSome then s
  else s.memoryOperationRegister op.op_id op.op_id .REDSHOW_SUBMEMORY_ALLOC

/-- `memfree_op_callback` for a sub-memory. -/
def memfreeOpCallback (s : SubMemories) (op : Memfree) : Option SubMemories :=
  let address := op.memory_range.start
  (s.sub_addresses_map.find? address).map fun sub_alloc_id =>
    let s :=
      { s with
        sub_addresses_map := s.sub_addresses_map.erase address
        current_submemories := s.current_submemories.erase sub_alloc_id }
    s.memoryOperationRegister sub_alloc_id op.op_id .REDSHOW_SUBMEMORY_FREE

/-! ## The walks -/

/-- The loop from an iterator up to `riter`, over what is left of the map: the sub-memories for
which it registers. There is no result where it dereferences the end. -/
def walkLoop (riter : ℕ × ℕ) : List (ℕ × ℕ) → Option (List ℕ)
  | [] => none
  | iter :: rest => if iter = riter then some [] else (walkLoop riter rest).map (iter.2 :: ·)

/-- The walk for the source of a copy: the sub-memories for which it registers. There is no result
where the end is dereferenced. -/
def copyFromWalk (sub_addresses_map : OrderedMap ℕ ℕ) (src_start len : ℕ) : Option (List ℕ) :=
  match sub_addresses_map.prev src_start with
  | none => some []
  | some liter => (sub_addresses_map.prev (u64 (src_start + len))).bind fun riter =>
    if riter.2 ≠ liter.2 then
      (walkLoop riter (liter :: sub_addresses_map.after liter.1)).map (· ++ [riter.2])
    else some []

/-- The walk for the destination of a copy. -/
def copyToWalk (sub_addresses_map : OrderedMap ℕ ℕ) (dst_start len : ℕ) : Option (List ℕ) :=
  match sub_addresses_map.prev dst_start with
  | none => some []
  | some liter => (sub_addresses_map.prev (u64 (dst_start + len))).bind fun riter =>
    (if riter.2 ≠ liter.2 then
      walkLoop riter (liter :: sub_addresses_map.after liter.1)
    else some []).map (· ++ [riter.2])

/-- The walk for a set. -/
def setWalk (sub_addresses_map : OrderedMap ℕ ℕ) (start len : ℕ) : Option (List ℕ) :=
  copyToWalk sub_addresses_map start len

/-- What `memcpy_op_callback` registers: the sub-memories with the operation. -/
def memcpyWalks (s : SubMemories) (op : Memcpy) : Option (List (ℕ × MemoryOperation)) :=
  (if op.src_memory_op_id ≠ REDSHOW_MEMORY_HOST then
    copyFromWalk s.sub_addresses_map op.src_start op.len else some []).bind fun sources =>
  (if op.dst_memory_op_id ≠ REDSHOW_MEMORY_HOST then
    copyToWalk s.sub_addresses_map op.dst_start op.len else some []).map fun destinations =>
      (sources.map fun id => (id, MemoryOperation.REDSHOW_MEMORY_COPYF)) ++
        destinations.map fun id => (id, MemoryOperation.REDSHOW_MEMORY_COPYT)

/-- What `memset_op_callback` registers. -/
def memsetWalk (s : SubMemories) (op : Memset) : Option (List (ℕ × MemoryOperation)) :=
  (setWalk s.sub_addresses_map op.start op.len).map fun ids =>
    ids.map fun id => (id, MemoryOperation.REDSHOW_MEMORY_SET)

/-- The registrations of an operation. -/
def registerAll (s : SubMemories) (op_id : ℕ) (registered : List (ℕ × MemoryOperation)) :
    SubMemories :=
  registered.foldl (fun s r => s.memoryOperationRegister r.1 op_id r.2) s

/-- `memcpy_op_callback`. -/
def memcpyOpCallback (s : SubMemories) (op : Memcpy) : Option SubMemories :=
  (s.memcpyWalks op).map (s.registerAll op.op_id)

/-- `memset_op_callback`. -/
def memsetOpCallback (s : SubMemories) (op : Memset) : Option SubMemories :=
  (s.memsetWalk op).map (s.registerAll op.op_id)

/-- The callbacks as far as they concern sub-memories. -/
inductive SubCallback
  | memory (op : Memory)
  | memfree (op : Memfree)
  | memcpy (op : Memcpy)
  | memset (op : Memset)

/-- The id of the operation. -/
def SubCallback.op_id : SubCallback → ℕ
  | memory op => op.op_id
  | memfree op => op.op_id
  | memcpy op => op.op_id
  | memset op => op.op_id

/-- One callback. -/
def step (s : SubMemories) : SubCallback → Option SubMemories
  | .memory op => some (s.memoryOpCallback op)
  | .memfree op => s.memfreeOpCallback op
  | .memcpy op => s.memcpyOpCallback op
  | .memset op => s.memsetOpCallback op

/-! ## What should hold -/

/-- A sub-memory has a byte in a range. -/
def Touched (op : Memory) (start len : ℕ) : Prop :=
  ∃ x, op.memory_range.start ≤ x ∧ x < op.memory_range.stop ∧ start ≤ x ∧ x < start + len

instance (op : Memory) (start len : ℕ) : Decidable (Touched op start len) :=
  decidable_of_iff
    (max op.memory_range.start start < min op.memory_range.stop (start + len)) <| by
    unfold Touched
    constructor
    · exact fun h => ⟨max op.memory_range.start start, by omega⟩
    · rintro ⟨x, hx⟩
      omega

/-- What is registered for a sub-memory under an op id. -/
def registeredOp (s : SubMemories) (op_id id : ℕ) : Option MemoryOperation :=
  (s.sub_operations.findD id ∅).find? op_id

/-- Nothing is registered under an op id. -/
def Fresh (s : SubMemories) (op_id : ℕ) : Prop := ∀ id, s.registeredOp op_id id = none

/-- The sub-memories for which `s'` has an operation under an op id are the live ones of a kind. -/
def RegisteredRight (s s' : SubMemories) (op_id : ℕ) (mem_op : MemoryOperation)
    (kind : Memory → Prop) : Prop :=
  ∀ id, s'.registeredOp op_id id = some mem_op ↔
    ∃ op, (id, op) ∈ s.current_submemories.toList ∧ kind op

/-- The source of a copy is on the device and touches a sub-memory. -/
def FromSource (op : Memcpy) (memory : Memory) : Prop :=
  op.src_memory_op_id ≠ REDSHOW_MEMORY_HOST ∧ Touched memory op.src_start op.len

/-- The destination of a copy is on the device and touches a sub-memory. -/
def ToDestination (op : Memcpy) (memory : Memory) : Prop :=
  op.dst_memory_op_id ≠ REDSHOW_MEMORY_HOST ∧ Touched memory op.dst_start op.len

instance (op : Memcpy) : DecidablePred (FromSource op) := fun memory =>
  inferInstanceAs (Decidable (_ ∧ Touched memory op.src_start op.len))

instance (op : Memcpy) : DecidablePred (ToDestination op) := fun memory =>
  inferInstanceAs (Decidable (_ ∧ Touched memory op.dst_start op.len))

/-- A copy is registered as it should be: no end is dereferenced, no registration is made twice, and
after the callback the sub-memories that have the copy as a source or as a destination are those
that its range on this side touches. -/
def MemcpyRight (s : SubMemories) (op : Memcpy) : Prop :=
  ∃ registered s', s.memcpyWalks op = some registered ∧ registered.Nodup ∧
    s.memcpyOpCallback op = some s' ∧
    s.RegisteredRight s' op.op_id .REDSHOW_MEMORY_COPYF (FromSource op) ∧
    s.RegisteredRight s' op.op_id .REDSHOW_MEMORY_COPYT (ToDestination op)

/-- A set is registered as it should be. -/
def MemsetRight (s : SubMemories) (op : Memset) : Prop :=
  ∃ registered s', s.memsetWalk op = some registered ∧ registered.Nodup ∧
    s.memsetOpCallback op = some s' ∧
    s.RegisteredRight s' op.op_id .REDSHOW_MEMORY_SET fun memory => Touched memory op.start op.len

/-- The live sub-memories are disjoint ranges, and the map has the op id of each at its start. -/
structure Consistent (s : SubMemories) : Prop where
  addresses : ∀ start id, (start, id) ∈ s.sub_addresses_map.toList ↔
    ∃ op, (id, op) ∈ s.current_submemories.toList ∧ op.memory_range.start = start
  proper : ∀ e ∈ s.current_submemories.toList, e.2.memory_range.start ≤ e.2.memory_range.stop
  apart : ∀ e ∈ s.current_submemories.toList, ∀ d ∈ s.current_submemories.toList,
    e.2.memory_range.start < d.2.memory_range.start →
      e.2.memory_range.stop ≤ d.2.memory_range.start

/-- A callback that keeps the live sub-memories disjoint ranges: a new sub-memory has a new op id,
and its range is disjoint from the live ones. -/
def Allowed (s : SubMemories) : SubCallback → Prop
  | .memory op => op.memory_range.start ≤ op.memory_range.stop ∧
      ∀ e ∈ s.current_submemories.toList, e.1 ≠ op.op_id ∧
        (e.2.memory_range.start < op.memory_range.start ∧
            e.2.memory_range.stop ≤ op.memory_range.start ∨
          op.memory_range.start < e.2.memory_range.start ∧
            op.memory_range.stop ≤ e.2.memory_range.start)
  | _ => True

/-- The last live sub-memory that starts at an address or before it holds the address, or is
exempt. -/
def Holds (s : SubMemories) (exempt : Memory → Prop) (address : ℕ) : Prop :=
  ∃ e ∈ s.current_submemories.toList, e.2.memory_range.start ≤ address ∧
    (∀ d ∈ s.current_submemories.toList, d.2.memory_range.start ≤ address →
      d.2.memory_range.start ≤ e.2.memory_range.start) ∧
    (address < e.2.memory_range.stop ∨ exempt e.2)

/-- No live sub-memory starts at an address or before it. -/
def NoneBefore (s : SubMemories) (address : ℕ) : Prop :=
  ∀ e ∈ s.current_submemories.toList, address < e.2.memory_range.start

/-- No live sub-memory starts at the end of a range, and none that starts inside is empty, except
for those that are exempt. -/
def ClearEnd (s : SubMemories) (exempt : Memory → Prop) (start len : ℕ) : Prop :=
  ∀ e ∈ s.current_submemories.toList,
    (e.2.memory_range.start = start + len → exempt e.2) ∧
    (start < e.2.memory_range.start → e.2.memory_range.start < start + len →
      e.2.memory_range.start < e.2.memory_range.stop ∨ exempt e.2)

/-- The range touches no live sub-memory. -/
def Untouched (s : SubMemories) (start len : ℕ) : Prop :=
  ∀ e ∈ s.current_submemories.toList, ¬Touched e.2 start len

/-- The ranges for which the walk of a destination or a set is right, where their end is a word and
it does not matter whether the exempt sub-memories are walked. -/
def WalksTo (s : SubMemories) (exempt : Memory → Prop) (start len : ℕ) : Prop :=
  s.Holds exempt start ∧ s.ClearEnd exempt start len ∨ s.NoneBefore start ∧ s.Untouched start len

/-- No sub-memory is exempt. -/
def noneExempt (_ : Memory) : Prop := False

instance : DecidablePred noneExempt := fun _ => inferInstanceAs (Decidable False)

/-- A live sub-memory starts behind the start of a range and not behind its end. -/
def StartsIn (s : SubMemories) (start len : ℕ) : Prop :=
  ∃ e ∈ s.current_submemories.toList,
    start < e.2.memory_range.start ∧ e.2.memory_range.start ≤ start + len

/-- The ranges for which the walk of a source is right, where their end is a word. -/
def WalksFrom (s : SubMemories) (start len : ℕ) : Prop :=
  s.Holds noneExempt start ∧ s.StartsIn start len ∧ s.ClearEnd noneExempt start len ∨
    s.Untouched start len ∧ (s.NoneBefore start ∨ ¬s.StartsIn start len)

/-- The start of no live sub-memory lies behind the word for the end of a range and not behind its
start. -/
def EndFound (s : SubMemories) (start len : ℕ) : Prop :=
  ∀ e ∈ s.current_submemories.toList,
    e.2.memory_range.start ≤ u64 (start + len) ∨ start < e.2.memory_range.start

/-- As `WalksTo`, for a range whose end is no word. -/
def WrapsTo (s : SubMemories) (exempt : Memory → Prop) (start len : ℕ) : Prop :=
  s.Holds exempt start ∧ s.EndFound start len ∧
      (∀ e ∈ s.current_submemories.toList, Touched e.2 start len →
        e.2.memory_range.start ≤ start) ∨
    s.NoneBefore start ∧ s.Untouched start len

/-- As `WalksFrom`, for a range whose end is no word. -/
def WrapsFrom (s : SubMemories) (start len : ℕ) : Prop :=
  s.Untouched start len ∧ (s.NoneBefore start ∨ s.EndFound start len)

/-- The ranges for which the walk of a destination or a set is right, whether the end is a word or
not. -/
def RightTo (s : SubMemories) (exempt : Memory → Prop) (start len : ℕ) : Prop :=
  if start + len < 2^64 then s.WalksTo exempt start len else s.WrapsTo exempt start len

/-- The ranges for which the walk of a source is right, whether the end is a word or not. -/
def RightFrom (s : SubMemories) (start len : ℕ) : Prop :=
  if start + len < 2^64 then s.WalksFrom start len else s.WrapsFrom start len

/-- No live sub-memory is touched by both sides of a copy. -/
def SidesApart (s : SubMemories) (op : Memcpy) : Prop :=
  ∀ e ∈ s.current_submemories.toList, FromSource op e.2 → ¬ToDestination op e.2

instance (s : SubMemories) (exempt : Memory → Prop) [DecidablePred exempt] (address : ℕ) :
    Decidable (s.Holds exempt address) :=
  inferInstanceAs (Decidable (∃ e ∈ s.current_submemories.toList, _ ∧ (∀ d ∈ _, _ → _) ∧ (_ ∨ _)))

instance (s : SubMemories) (exempt : Memory → Prop) [DecidablePred exempt] (start len : ℕ) :
    Decidable (s.ClearEnd exempt start len) :=
  inferInstanceAs (Decidable (∀ e ∈ s.current_submemories.toList, (_ → _) ∧ (_ → _ → _ ∨ _)))

instance (s : SubMemories) (op : Memcpy) : Decidable (s.SidesApart op) :=
  inferInstanceAs (Decidable (∀ e ∈ s.current_submemories.toList, _ → ¬_))

instance (s : SubMemories) (start len : ℕ) : Decidable (s.StartsIn start len) :=
  inferInstanceAs (Decidable (∃ e ∈ s.current_submemories.toList, _ ∧ _))

/-! ## The walk between two entries -/

section Walk

variable {m : OrderedMap ℕ ℕ} {liter riter : ℕ × ℕ} {start stop : ℕ}

/-- The loop registers for the entries before `riter`. -/
theorem walkLoop_split {mid rest : List (ℕ × ℕ)} (hne : riter ∉ mid) :
    walkLoop riter (mid ++ riter :: rest) = some (mid.map Prod.snd) := by
  induction mid with
  | nil => exact if_pos rfl
  | cons e mid ih =>
    have hfirst : e ≠ riter := fun h => hne (h ▸ List.mem_cons_self)
    rw [List.cons_append, walkLoop, if_neg hfirst, ih fun h => hne (List.mem_cons_of_mem e h)]
    rfl

/-- The loop dereferences the end where `riter` does not stand before it. -/
theorem walkLoop_eq_none {l : List (ℕ × ℕ)} (hne : riter ∉ l) : walkLoop riter l = none := by
  induction l with
  | nil => rfl
  | cons e l ih =>
    have hfirst : e ≠ riter := fun h => hne (h ▸ List.mem_cons_self)
    rw [walkLoop, if_neg hfirst, ih fun h => hne (List.mem_cons_of_mem e h)]
    rfl

/-- Between the entries for the start and the end of a range stand those that start there. -/
theorem walkLoop_prev (hl : m.prev start = some liter) (hr : m.prev stop = some riter)
    (hle : start ≤ stop) :
    ∃ mid, walkLoop riter (liter :: m.after liter.1) = some (mid.map Prod.snd) ∧
      (mid ++ [riter]).Nodup ∧
      ∀ e, e ∈ mid ++ [riter] ↔ e ∈ m.toList ∧ liter.1 ≤ e.1 ∧ e.1 ≤ stop := by
  obtain ⟨⟨hlmem, hlle⟩, hllast⟩ := (m.prev_eq_some_iff _ _).1 hl
  obtain ⟨⟨hrmem, hrle⟩, hrlast⟩ := (m.prev_eq_some_iff _ _).1 hr
  have hmem := fun e => OrderedMap.mem_cons_after (b := e) hlmem
  -- The entry for the end is one of those from the entry for the start on.
  have hrl : liter.1 ≤ riter.1 := by
    rcases hrlast liter hlmem (hlle.trans hle) with rfl | hlt
    · exact le_rfl
    · exact hlt.le
  obtain ⟨mid, rest, hmid⟩ := List.append_of_mem ((hmem riter).2 ⟨hrmem, hrl⟩)
  -- The loop goes through `mid` and meets `riter` there and not before.
  have hsorted : (mid ++ riter :: rest).Pairwise fun a b => a.1 < b.1 :=
    hmid ▸ m.cons_after_sorted liter
  obtain ⟨-, hrest, hmidlt⟩ := List.pairwise_append.1 hsorted
  have hnodup : (mid ++ [riter]).Nodup := by
    have hall : (mid ++ riter :: rest).Nodup := hsorted.imp fun h => by
      rintro rfl
      exact lt_irrefl _ h
    exact hall.sublist ((List.singleton_sublist.2 List.mem_cons_self).append_left mid)
  refine ⟨mid, ?_, hnodup, fun e => ?_⟩
  · rw [hmid]
    exact walkLoop_split fun h => lt_irrefl _ (hmidlt riter h riter List.mem_cons_self)
  · rw [← and_assoc, ← hmem, hmid, List.mem_append, List.mem_singleton, List.mem_append,
      List.mem_cons]
    constructor
    · rintro (he | rfl)
      · exact ⟨.inl he, (hmidlt e he riter List.mem_cons_self).le.trans hrle⟩
      · exact ⟨.inr (.inl rfl), hrle⟩
    · rintro ⟨he | rfl | he, hestop⟩
      · exact .inl he
      · exact .inr rfl
      · -- Behind the entry for the end all entries start behind the end.
        have hlt := (List.pairwise_cons.1 hrest).1 e he
        have heM : e ∈ m.toList :=
          ((hmem e).1 (hmid ▸ List.mem_append_right _ (List.mem_cons_of_mem _ he))).1
        rcases hrlast e heM hestop with rfl | h
        · exact absurd hlt (lt_irrefl _)
        · exact absurd hlt h.asymm

end Walk

/-! ## One walk -/

section Consistent

variable {s : SubMemories} {exempt : Memory → Prop} {excluded : List ℕ} {start len : ℕ}

/-- Live sub-memories with one start are the same. -/
theorem Consistent.eq_of_start (h : Consistent s) {e d : ℕ × Memory}
    (he : e ∈ s.current_submemories.toList) (hd : d ∈ s.current_submemories.toList)
    (hstart : e.2.memory_range.start = d.2.memory_range.start) : e = d := by
  have he' := (h.addresses _ _).2 ⟨e.2, he, rfl⟩
  have hd' := (h.addresses _ _).2 ⟨d.2, hd, rfl⟩
  exact OrderedMap.eq_of_key he hd
    (congrArg Prod.snd (OrderedMap.eq_of_key he' hd' hstart) : e.1 = d.1)

/-- Entries of the map with one op id are the same. -/
theorem Consistent.eq_of_id (h : Consistent s) {a b : ℕ × ℕ}
    (ha : a ∈ s.sub_addresses_map.toList) (hb : b ∈ s.sub_addresses_map.toList)
    (hid : a.2 = b.2) : a = b := by
  obtain ⟨op, hop, hstart⟩ := (h.addresses a.1 a.2).1 ha
  obtain ⟨op', hop', hstart'⟩ := (h.addresses b.1 b.2).1 hb
  have heq : op = op' := congrArg Prod.snd (OrderedMap.eq_of_key hop hop' hid)
  exact Prod.ext (by rw [← hstart, ← hstart', heq]) hid

/-- There is no entry for an address exactly when no live sub-memory starts before it. -/
theorem Consistent.prev_eq_none_iff (h : Consistent s) :
    s.sub_addresses_map.prev start = none ↔ s.NoneBefore start := by
  rw [OrderedMap.prev_eq_none_iff]
  constructor
  · exact fun hall e he => hall _ ((h.addresses _ _).2 ⟨e.2, he, rfl⟩)
  · intro hall e he
    obtain ⟨op, hop, hstart⟩ := (h.addresses e.1 e.2).1 he
    exact hstart ▸ hall _ hop

/-- Where there is an entry for the start of a range there is one for its end. -/
theorem exists_prev_end {m : OrderedMap ℕ ℕ} {liter : ℕ × ℕ} {stop : ℕ}
    (hprev : m.prev start = some liter) (hle : start ≤ stop) :
    ∃ riter, m.prev stop = some riter := by
  obtain ⟨⟨hmem, hlle⟩, -⟩ := (m.prev_eq_some_iff _ _).1 hprev
  rw [← Option.isSome_iff_exists, ← Option.ne_none_iff_isSome, ne_eq, OrderedMap.prev_eq_none_iff]
  exact fun hall => absurd (hall liter hmem) (hlle.trans hle).not_gt

/-- Where there is an entry for an address some live sub-memory starts before it. -/
theorem Consistent.not_noneBefore (h : Consistent s) {liter : ℕ × ℕ}
    (hprev : s.sub_addresses_map.prev start = some liter) : ¬s.NoneBefore start := by
  rw [← h.prev_eq_none_iff, hprev]
  exact Option.some_ne_none liter

/-- Where no live sub-memory starts before an address none holds it. -/
theorem not_holds (hnone : s.NoneBefore start) : ¬s.Holds exempt start :=
  fun ⟨e, he, hle, _⟩ => (hnone e he).not_ge hle

/-- The walk of a destination registers for the sub-memories that start from the one before the
range on up to its end. -/
theorem Consistent.copyToWalk_eq (h : Consistent s) (hword : start + len < 2^64) {liter : ℕ × ℕ}
    (hprev : s.sub_addresses_map.prev start = some liter) :
    ∃ ids, copyToWalk s.sub_addresses_map start len = some ids ∧ ids.Nodup ∧
      ∀ id, id ∈ ids ↔ ∃ op, (id, op) ∈ s.current_submemories.toList ∧
        liter.1 ≤ op.memory_range.start ∧ op.memory_range.start ≤ start + len := by
  obtain ⟨riter, hr⟩ := exists_prev_end hprev (Nat.le_add_right start len)
  obtain ⟨mid, hwalk, hnodup, hmem⟩ := walkLoop_prev hprev hr (Nat.le_add_right start len)
  have hmap : ∀ e ∈ mid ++ [riter], e ∈ s.sub_addresses_map.toList := fun e he =>
    ((hmem e).1 he).1
  refine ⟨(mid ++ [riter]).map Prod.snd, ?_, ?_, fun id => ?_⟩
  · have hloop : (if riter.2 ≠ liter.2 then
        walkLoop riter (liter :: s.sub_addresses_map.after liter.1) else some []) =
        some (mid.map Prod.snd) := by
      split_ifs with hne
      · exact hwalk
      · -- Both are one entry, and the loop ends at once.
        have hsame : liter = riter := h.eq_of_id
          ((s.sub_addresses_map.prev_eq_some_iff _ _).1 hprev).1.1
          ((s.sub_addresses_map.prev_eq_some_iff _ _).1 hr).1.1 (not_not.1 hne).symm
        rw [← hwalk, walkLoop, if_pos hsame]
    unfold copyToWalk
    rw [hprev, u64_of_lt hword]
    dsimp only
    rw [hr, Option.bind_some, hloop, Option.map_some, List.map_append]
    rfl
  · exact hnodup.map_on fun a ha b hb hid => h.eq_of_id (hmap a ha) (hmap b hb) hid
  · rw [List.mem_map]
    constructor
    · rintro ⟨e, he, rfl⟩
      obtain ⟨hemap, hge, hle⟩ := (hmem e).1 he
      obtain ⟨op, hop, hstart⟩ := (h.addresses e.1 e.2).1 hemap
      exact ⟨op, hop, hstart ▸ hge, hstart ▸ hle⟩
    · rintro ⟨op, hop, hge, hle⟩
      exact ⟨(op.memory_range.start, id),
        (hmem _).2 ⟨(h.addresses _ _).2 ⟨op, hop, rfl⟩, hge, hle⟩, rfl⟩

/-- The entries for the start and the end of a range differ exactly when a sub-memory starts in the
range. -/
theorem Consistent.riter_ne_iff (h : Consistent s) {liter riter : ℕ × ℕ}
    (hl : s.sub_addresses_map.prev start = some liter)
    (hr : s.sub_addresses_map.prev (start + len) = some riter) :
    riter.2 ≠ liter.2 ↔ s.StartsIn start len := by
  obtain ⟨⟨hlmem, hlle⟩, hllast⟩ := (s.sub_addresses_map.prev_eq_some_iff _ _).1 hl
  obtain ⟨⟨hrmem, hrle⟩, hrlast⟩ := (s.sub_addresses_map.prev_eq_some_iff _ _).1 hr
  constructor
  · intro hne
    obtain ⟨op, hop, hstart⟩ := (h.addresses riter.1 riter.2).1 hrmem
    refine ⟨(riter.2, op), hop, ?_, hstart ▸ hrle⟩
    show start < op.memory_range.start
    by_contra hnot
    -- Both entries are the last one that is not behind the start.
    have hrl := hllast riter hrmem (hstart ▸ not_lt.1 hnot)
    have hlr := hrlast liter hlmem (hlle.trans (Nat.le_add_right start len))
    rcases hrl with rfl | hrl
    · exact hne rfl
    · rcases hlr with rfl | hlr
      · exact hne rfl
      · exact hrl.asymm hlr
  · rintro ⟨e, he, hlt, hle⟩ hid
    have hsame : riter = liter := h.eq_of_id hrmem hlmem hid
    have hentry := (h.addresses _ _).2 ⟨e.2, he, rfl⟩
    rcases hrlast _ hentry hle with heq | hlt'
    · have hkey : e.2.memory_range.start = riter.1 := congrArg Prod.fst heq
      rw [hkey, hsame] at hlt
      exact hlt.not_ge hlle
    · rw [hsame] at hlt'
      exact (hlt.trans hlt').not_ge hlle

/-- The walk of a source is that of a destination where a sub-memory starts in the range, and
registers for none where not. -/
theorem Consistent.copyFromWalk_eq (h : Consistent s) (hword : start + len < 2^64) :
    (s.StartsIn start len →
      copyFromWalk s.sub_addresses_map start len = copyToWalk s.sub_addresses_map start len) ∧
    (¬s.StartsIn start len → copyFromWalk s.sub_addresses_map start len = some []) := by
  unfold copyFromWalk copyToWalk
  rw [u64_of_lt hword]
  cases hl : s.sub_addresses_map.prev start with
  | none => exact ⟨fun _ => rfl, fun _ => rfl⟩
  | some liter =>
    obtain ⟨riter, hr⟩ := exists_prev_end hl (Nat.le_add_right start len)
    have hne := h.riter_ne_iff hl hr
    dsimp only
    rw [hr, Option.bind_some, Option.bind_some]
    constructor
    · intro hin
      rw [if_pos (hne.2 hin), if_pos (hne.2 hin)]
    · intro hnot
      rw [if_neg (mt hne.1 hnot)]

/-- The sub-memories for which a walk registers, less those that are excluded, are those that the
range touches, and it registers for each of them once. -/
def IdsRight (s : SubMemories) (excluded ids : List ℕ) (start len : ℕ) : Prop :=
  ids.Nodup ∧ ∀ id, (id ∈ ids ∧ id ∉ excluded) ↔
    ∃ op, (id, op) ∈ s.current_submemories.toList ∧ Touched op start len

/-- The excluded op ids are those of the live sub-memories that are exempt, of which the range
touches none. -/
structure Exempts (s : SubMemories) (exempt : Memory → Prop) (excluded : List ℕ) (start len : ℕ) :
    Prop where
  mem_iff : ∀ e ∈ s.current_submemories.toList, e.1 ∈ excluded ↔ exempt e.2
  apart : ∀ e ∈ s.current_submemories.toList, exempt e.2 → ¬Touched e.2 start len

/-- Without exempt sub-memories none is excluded. -/
theorem exempts_none : Exempts s noneExempt [] start len where
  mem_iff _ _ := iff_of_false List.not_mem_nil id
  apart _ _ h := absurd h id

/-- No registration is right where the range touches nothing. -/
theorem idsRight_nil : s.IdsRight excluded [] start len ↔ s.Untouched start len := by
  unfold IdsRight Untouched
  rw [and_iff_right List.nodup_nil]
  constructor
  · exact fun hids e he htouched => List.not_mem_nil ((hids e.1).2 ⟨e.2, he, htouched⟩).1
  · exact fun hnone id => iff_of_false (fun h => List.not_mem_nil h.1) fun ⟨op, hop, htouched⟩ =>
      hnone _ hop htouched

/-- A range touches a sub-memory when both have a byte, and neither ends before the other starts. -/
theorem touched_iff (hlen : 1 ≤ len) (op : Memory) :
    Touched op start len ↔ op.memory_range.start < op.memory_range.stop ∧
      op.memory_range.start < start + len ∧ start < op.memory_range.stop := by
  constructor
  · rintro ⟨x, hge, hlt, hge', hlt'⟩
    exact ⟨hge.trans_lt hlt, hge.trans_lt hlt', hge'.trans_lt hlt⟩
  · rintro ⟨hproper, hend, hstart⟩
    exact ⟨max op.memory_range.start start, le_max_left _ _, max_lt hproper hstart,
      le_max_right _ _, max_lt hend (Nat.lt_add_of_pos_right hlen)⟩

/-- Where no live sub-memory starts before a range the walks register for none. -/
theorem Consistent.walks_eq_nil (h : Consistent s) (hnone : s.NoneBefore start) :
    copyToWalk s.sub_addresses_map start len = some [] ∧
      copyFromWalk s.sub_addresses_map start len = some [] := by
  unfold copyToWalk copyFromWalk
  rw [h.prev_eq_none_iff.2 hnone]
  exact ⟨rfl, rfl⟩

section First

variable {liter : ℕ × ℕ}

/-- Before an entry that is looked up no other live sub-memory starts later. -/
theorem Consistent.start_le (h : Consistent s)
    (hprev : s.sub_addresses_map.prev start = some liter) {e : ℕ × Memory}
    (he : e ∈ s.current_submemories.toList) (hle : e.2.memory_range.start ≤ start) :
    e.2.memory_range.start ≤ liter.1 := by
  rcases ((s.sub_addresses_map.prev_eq_some_iff _ _).1 hprev).2 _
    ((h.addresses _ _).2 ⟨e.2, he, rfl⟩) hle with heq | hlt
  · exact (congrArg Prod.fst heq).le
  · exact hlt.le

/-- The entry that is looked up is that of a live sub-memory. -/
theorem Consistent.exists_first (h : Consistent s)
    (hprev : s.sub_addresses_map.prev start = some liter) :
    ∃ first, (liter.2, first) ∈ s.current_submemories.toList ∧
      first.memory_range.start = liter.1 ∧ liter.1 ≤ start := by
  obtain ⟨⟨hlmem, hlle⟩, -⟩ := (s.sub_addresses_map.prev_eq_some_iff _ _).1 hprev
  obtain ⟨first, hfirst, hstart⟩ := (h.addresses liter.1 liter.2).1 hlmem
  exact ⟨first, hfirst, hstart, hlle⟩

/-- The last live sub-memory that starts before the range is the one that is looked up. -/
theorem Consistent.holds_iff (h : Consistent s)
    (hprev : s.sub_addresses_map.prev start = some liter) {first : Memory}
    (hfirst : (liter.2, first) ∈ s.current_submemories.toList)
    (hstart : first.memory_range.start = liter.1) :
    s.Holds exempt start ↔ start < first.memory_range.stop ∨ exempt first := by
  have hlle := ((s.sub_addresses_map.prev_eq_some_iff _ _).1 hprev).1.2
  have hlast : ∀ d ∈ s.current_submemories.toList, d.2.memory_range.start ≤ start →
      d.2.memory_range.start ≤ first.memory_range.start := fun d hd hle =>
    (h.start_le hprev hd hle).trans hstart.ge
  constructor
  · rintro ⟨d, hd, hdstart, hdlast, hdstop⟩
    have hle : first.memory_range.start ≤ d.2.memory_range.start :=
      hdlast _ hfirst (hstart.trans_le hlle)
    have hsame : d = (liter.2, first) :=
      h.eq_of_start hd hfirst (le_antisymm (hlast d hd hdstart) hle)
    rwa [hsame] at hdstop
  · exact fun hstop => ⟨_, hfirst, hstart.trans_le hlle, hlast, hstop⟩

/-- What starts before the entry that is looked up ends before the range. -/
theorem Consistent.not_touched (h : Consistent s)
    (hprev : s.sub_addresses_map.prev start = some liter) {e : ℕ × Memory}
    (he : e ∈ s.current_submemories.toList) (hlt : e.2.memory_range.start < liter.1) :
    ¬Touched e.2 start len := by
  obtain ⟨first, hfirst, hstart, hlle⟩ := h.exists_first hprev
  rintro ⟨x, -, hstop, hge, -⟩
  have hapart : e.2.memory_range.stop ≤ first.memory_range.start :=
    h.apart e he _ hfirst (hlt.trans_eq hstart.symm)
  omega

/-- The sub-memories from the one before a range on up to its end, less the exempt ones, are those
that the range touches exactly when the first holds the start and the end is clear. -/
theorem Consistent.walked_iff (h : Consistent s) (hexempts : Exempts s exempt excluded start len)
    (hlen : 1 ≤ len) (hprev : s.sub_addresses_map.prev start = some liter) :
    (∀ e ∈ s.current_submemories.toList,
      ((liter.1 ≤ e.2.memory_range.start ∧ e.2.memory_range.start ≤ start + len) ∧ ¬exempt e.2) ↔
        Touched e.2 start len) ↔ s.Holds exempt start ∧ s.ClearEnd exempt start len := by
  obtain ⟨first, hfirst, hstart, hlle⟩ := h.exists_first hprev
  rw [h.holds_iff hprev hfirst hstart]
  constructor
  · intro hall
    -- What is walked is touched, or it is exempt.
    have hwalked : ∀ e ∈ s.current_submemories.toList, liter.1 ≤ e.2.memory_range.start →
        e.2.memory_range.start ≤ start + len → exempt e.2 ∨ e.2.memory_range.start <
          e.2.memory_range.stop ∧ e.2.memory_range.start < start + len ∧
            start < e.2.memory_range.stop := fun e he hge hle => by
      by_cases hexempt : exempt e.2
      · exact .inl hexempt
      · exact .inr ((touched_iff hlen e.2).1 ((hall e he).1 ⟨⟨hge, hle⟩, hexempt⟩))
    refine ⟨?_, fun e he => ⟨fun hend => ?_, fun hlt hlt' => ?_⟩⟩
    · have hle : first.memory_range.start ≤ start + len := by omega
      exact ((hwalked _ hfirst hstart.ge hle).imp_right fun htouched => htouched.2.2).symm
    · refine (hwalked e he (by omega) hend.le).resolve_right fun htouched => ?_
      exact hend.not_lt htouched.2.1
    · exact ((hwalked e he (hlle.trans hlt.le) hlt'.le).imp_right And.left).symm
  · rintro ⟨hholds, hclear⟩ e he
    constructor
    · rintro ⟨⟨hge, hle⟩, hexempt⟩
      rw [touched_iff hlen]
      by_cases hbehind : start < e.2.memory_range.start
      · have hlt : e.2.memory_range.start < start + len :=
          lt_of_le_of_ne hle fun heq => hexempt ((hclear e he).1 heq)
        have hproper := ((hclear e he).2 hbehind hlt).resolve_right hexempt
        exact ⟨hproper, hlt, hbehind.trans hproper⟩
      · -- What does not start behind the start is the first one, which holds it.
        have hkey : e.2.memory_range.start = first.memory_range.start :=
          (le_antisymm (h.start_le hprev he (not_lt.1 hbehind)) hge).trans hstart.symm
        have hsame : e = (liter.2, first) := h.eq_of_start he hfirst hkey
        rw [hsame] at hexempt ⊢
        have hstop := hholds.resolve_right hexempt
        show first.memory_range.start < first.memory_range.stop ∧
          first.memory_range.start < start + len ∧ start < first.memory_range.stop
        omega
    · intro htouched
      exact ⟨⟨not_lt.1 fun hlt => h.not_touched hprev he hlt htouched,
        ((touched_iff hlen e.2).1 htouched).2.1.le⟩, fun hexempt =>
          hexempts.apart e he hexempt htouched⟩

end First

/-- The ranges of words for which the walk of a destination is right. -/
theorem Consistent.walksTo_iff (h : Consistent s) (hexempts : Exempts s exempt excluded start len)
    (hlen : 1 ≤ len) (hword : start + len < 2^64) :
    (∃ ids, copyToWalk s.sub_addresses_map start len = some ids ∧
      s.IdsRight excluded ids start len) ↔ s.WalksTo exempt start len := by
  unfold WalksTo
  cases hprev : s.sub_addresses_map.prev start with
  | none =>
    have hnone := h.prev_eq_none_iff.1 hprev
    simp only [(h.walks_eq_nil hnone).1, Option.some.injEq, exists_eq_left', idsRight_nil,
      not_holds hnone, hnone, false_and, true_and, false_or]
  | some liter =>
    have hbefore := h.not_noneBefore hprev
    obtain ⟨ids, hwalk, hnodup, hids⟩ := h.copyToWalk_eq hword hprev
    rw [or_iff_left fun hnone => hbefore hnone.1, ← h.walked_iff hexempts hlen hprev]
    simp only [hwalk, Option.some.injEq, exists_eq_left', IdsRight, hnodup, true_and]
    -- A live sub-memory is walked and not excluded when it starts there and is not exempt.
    have hwalked : ∀ e ∈ s.current_submemories.toList, (e.1 ∈ ids ∧ e.1 ∉ excluded) ↔
        (liter.1 ≤ e.2.memory_range.start ∧ e.2.memory_range.start ≤ start + len) ∧
          ¬exempt e.2 := fun e he => by
      rw [hids, hexempts.mem_iff e he]
      refine and_congr_left fun _ => ⟨?_, fun hstarts => ⟨e.2, he, hstarts⟩⟩
      rintro ⟨op, hop, hstarts⟩
      rwa [OrderedMap.eq_of_entries he hop]
    constructor
    · intro hall e he
      rw [← hwalked e he, hall e.1]
      refine ⟨?_, fun htouched => ⟨e.2, he, htouched⟩⟩
      rintro ⟨op, hop, htouched⟩
      rwa [OrderedMap.eq_of_entries he hop]
    · intro hall id
      constructor
      · intro hid
        obtain ⟨op, hop, -⟩ := (hids id).1 hid.1
        exact ⟨op, hop, (hall _ hop).1 ((hwalked _ hop).1 hid)⟩
      · rintro ⟨op, hop, htouched⟩
        exact (hwalked (id, op) hop).2 ((hall _ hop).2 htouched)

/-- The ranges of words for which the walk of a source is right. -/
theorem Consistent.walksFrom_iff (h : Consistent s) (hlen : 1 ≤ len)
    (hword : start + len < 2^64) :
    (∃ ids, copyFromWalk s.sub_addresses_map start len = some ids ∧ s.IdsRight [] ids start len) ↔
      s.WalksFrom start len := by
  unfold WalksFrom
  by_cases hin : s.StartsIn start len
  · -- Two sub-memories or more: the walk of a source is that of a destination.
    rw [(h.copyFromWalk_eq hword).1 hin, h.walksTo_iff exempts_none hlen hword]
    unfold WalksTo
    tauto
  · -- Only one: the source is registered for none.
    simp only [(h.copyFromWalk_eq hword).2 hin, Option.some.injEq, exists_eq_left', idsRight_nil,
      hin, false_and, and_false, false_or, not_false_eq_true, or_true, and_true]

/-! ## A range whose end is no word -/

section Wrap

variable {liter : ℕ × ℕ}

/-- The end of such a range comes to lie before its start. -/
theorem u64_lt_start (hstart : start < 2^64) (hlen : len < 2^64) (hwrap : ¬start + len < 2^64) :
    u64 (start + len) < start := by
  unfold u64
  omega

/-- The two look-ups find the same sub-memory exactly when none starts between them. -/
theorem Consistent.prev_end_iff (h : Consistent s) (hwrap : u64 (start + len) < start)
    (hprev : s.sub_addresses_map.prev start = some liter) :
    s.sub_addresses_map.prev (u64 (start + len)) = some liter ↔ s.EndFound start len := by
  obtain ⟨⟨hlmem, hlle⟩, hllast⟩ := (s.sub_addresses_map.prev_eq_some_iff _ _).1 hprev
  obtain ⟨first, hfirst, hstart, -⟩ := h.exists_first hprev
  rw [OrderedMap.prev_eq_some_iff]
  constructor
  · rintro ⟨⟨-, hle⟩, -⟩ e he
    by_cases hbehind : start < e.2.memory_range.start
    · exact .inr hbehind
    · exact .inl ((h.start_le hprev he (not_lt.1 hbehind)).trans hle)
  · intro hfound
    have hle : liter.1 ≤ u64 (start + len) := by
      rcases hfound _ hfirst with hle | hlt
      · exact hstart.ge.trans hle
      · exact absurd hlt (hstart ▸ hlle).not_gt
    exact ⟨⟨hlmem, hle⟩, fun e he hele => hllast e he (hele.trans hwrap.le)⟩

/-- Where a sub-memory starts before such a range, the walks end only when both look-ups find that
sub-memory. -/
theorem Consistent.walks_wrap (h : Consistent s) (hwrap : u64 (start + len) < start)
    (hprev : s.sub_addresses_map.prev start = some liter) :
    (s.EndFound start len → copyToWalk s.sub_addresses_map start len = some [liter.2] ∧
      copyFromWalk s.sub_addresses_map start len = some []) ∧
    (¬s.EndFound start len → copyToWalk s.sub_addresses_map start len = none ∧
      copyFromWalk s.sub_addresses_map start len = none) := by
  have hend := h.prev_end_iff hwrap hprev
  obtain ⟨⟨hlmem, -⟩, hllast⟩ := (s.sub_addresses_map.prev_eq_some_iff _ _).1 hprev
  unfold copyToWalk copyFromWalk
  rw [hprev]
  dsimp only
  rw [← hend]
  constructor
  · intro hsame
    rw [hsame]
    simp
  · intro hne
    cases hr : s.sub_addresses_map.prev (u64 (start + len)) with
    | none => exact ⟨rfl, rfl⟩
    | some riter =>
      obtain ⟨⟨hrmem, hrle⟩, -⟩ := (s.sub_addresses_map.prev_eq_some_iff _ _).1 hr
      have hdiff : riter ≠ liter := fun heq => hne (heq ▸ hr)
      have hlt : riter.1 < liter.1 :=
        (hllast riter hrmem (hrle.trans hwrap.le)).resolve_left hdiff
      -- The loop starts behind `riter` and does not meet it.
      have hloop : walkLoop riter (liter :: s.sub_addresses_map.after liter.1) = none := by
        refine walkLoop_eq_none fun hmem => ?_
        rcases List.mem_cons.1 hmem with heq | hmem
        · exact hdiff heq
        · exact ((OrderedMap.mem_after _ _ _).1 hmem).2.asymm hlt
      have hid : riter.2 ≠ liter.2 := fun hid => hdiff (h.eq_of_id hrmem hlmem hid)
      rw [Option.bind_some, Option.bind_some, if_pos hid, if_pos hid, hloop]
      exact ⟨rfl, rfl⟩

/-- The sub-memory that is looked up is the only one that such a range touches exactly when it holds
the start, or is exempt, and the range touches none that starts behind. -/
theorem Consistent.single_iff (h : Consistent s) (hexempts : Exempts s exempt excluded start len)
    (hlen : 1 ≤ len) (hprev : s.sub_addresses_map.prev start = some liter) :
    s.IdsRight excluded [liter.2] start len ↔ s.Holds exempt start ∧
      ∀ e ∈ s.current_submemories.toList, Touched e.2 start len →
        e.2.memory_range.start ≤ start := by
  obtain ⟨first, hfirst, hstart, hlle⟩ := h.exists_first hprev
  rw [h.holds_iff hprev hfirst hstart]
  unfold IdsRight
  rw [and_iff_right (List.nodup_singleton _)]
  simp only [List.mem_singleton]
  have hexcluded : liter.2 ∈ excluded ↔ exempt first := hexempts.mem_iff _ hfirst
  constructor
  · intro hids
    constructor
    · by_cases hexempt : exempt first
      · exact .inr hexempt
      · obtain ⟨op, hop, htouched⟩ := (hids liter.2).1 ⟨rfl, mt hexcluded.1 hexempt⟩
        have hsame : op = first := OrderedMap.eq_of_entries hop hfirst
        exact .inl (hsame ▸ ((touched_iff hlen op).1 htouched).2.2)
    · intro e he htouched
      have hid : e.1 = liter.2 := ((hids e.1).2 ⟨e.2, he, htouched⟩).1
      have hsame : e = (liter.2, first) := OrderedMap.eq_of_key he hfirst hid
      rw [hsame]
      exact hstart.trans_le hlle
  · rintro ⟨hholds, hbehind⟩ id
    constructor
    · rintro ⟨rfl, hnot⟩
      have hstop := hholds.resolve_right (mt hexcluded.2 hnot)
      exact ⟨first, hfirst, (touched_iff hlen first).2 ⟨by omega, by omega, hstop⟩⟩
    · rintro ⟨op, hop, htouched⟩
      have hle := h.start_le hprev hop (hbehind _ hop htouched)
      have hge : liter.1 ≤ op.memory_range.start :=
        not_lt.1 fun hlt => h.not_touched hprev hop hlt htouched
      have hsame : (id, op) = (liter.2, first) :=
        h.eq_of_start hop hfirst ((le_antisymm hle hge).trans hstart.symm)
      refine ⟨congrArg Prod.fst hsame, fun hmem => ?_⟩
      exact hexempts.apart _ hop ((hexempts.mem_iff _ hop).1 hmem) htouched

/-- The ranges whose end is no word for which the walk of a destination is right. -/
theorem Consistent.wrapsTo_iff (h : Consistent s) (hexempts : Exempts s exempt excluded start len)
    (hlen : 1 ≤ len) (hwrap : u64 (start + len) < start) :
    (∃ ids, copyToWalk s.sub_addresses_map start len = some ids ∧
      s.IdsRight excluded ids start len) ↔ s.WrapsTo exempt start len := by
  unfold WrapsTo
  cases hprev : s.sub_addresses_map.prev start with
  | none =>
    have hnone := h.prev_eq_none_iff.1 hprev
    simp only [(h.walks_eq_nil hnone).1, Option.some.injEq, exists_eq_left', idsRight_nil,
      not_holds hnone, hnone, false_and, true_and, false_or]
  | some liter =>
    have hbefore := h.not_noneBefore hprev
    by_cases hfound : s.EndFound start len
    · -- Both look-ups find one entry, which is registered.
      simp only [((h.walks_wrap hwrap hprev).1 hfound).1, Option.some.injEq, exists_eq_left',
        h.single_iff hexempts hlen hprev, hbefore, hfound, false_and, true_and, or_false]
    · simp only [((h.walks_wrap hwrap hprev).2 hfound).1, hbefore, hfound, false_and, and_false,
        or_self, reduceCtorEq, exists_false]

/-- The ranges whose end is no word for which the walk of a source is right. -/
theorem Consistent.wrapsFrom_iff (h : Consistent s) (hwrap : u64 (start + len) < start) :
    (∃ ids, copyFromWalk s.sub_addresses_map start len = some ids ∧ s.IdsRight [] ids start len) ↔
      s.WrapsFrom start len := by
  unfold WrapsFrom
  cases hprev : s.sub_addresses_map.prev start with
  | none =>
    have hnone := h.prev_eq_none_iff.1 hprev
    simp only [(h.walks_eq_nil hnone).2, Option.some.injEq, exists_eq_left', idsRight_nil, hnone,
      true_or, and_true]
  | some liter =>
    have hbefore := h.not_noneBefore hprev
    by_cases hfound : s.EndFound start len
    · -- Both look-ups find one entry, which is not registered.
      simp only [((h.walks_wrap hwrap hprev).1 hfound).2, Option.some.injEq, exists_eq_left',
        idsRight_nil, hfound, or_true, and_true]
    · simp only [((h.walks_wrap hwrap hprev).2 hfound).2, hbefore, hfound, and_false, or_self,
        reduceCtorEq, false_and, exists_false]

end Wrap

/-- The ranges for which the walk of a destination is right. -/
theorem Consistent.rightTo_iff (h : Consistent s) (hexempts : Exempts s exempt excluded start len)
    (hstart : start < 2^64) (hlen : 1 ≤ len) (hlen' : len < 2^64) :
    (∃ ids, copyToWalk s.sub_addresses_map start len = some ids ∧
      s.IdsRight excluded ids start len) ↔ s.RightTo exempt start len := by
  unfold RightTo
  split_ifs with hword
  · exact h.walksTo_iff hexempts hlen hword
  · exact h.wrapsTo_iff hexempts hlen (u64_lt_start hstart hlen' hword)

/-- The ranges for which the walk of a source is right. -/
theorem Consistent.rightFrom_iff (h : Consistent s) (hstart : start < 2^64) (hlen : 1 ≤ len)
    (hlen' : len < 2^64) :
    (∃ ids, copyFromWalk s.sub_addresses_map start len = some ids ∧ s.IdsRight [] ids start len) ↔
      s.RightFrom start len := by
  unfold RightFrom
  split_ifs with hword
  · exact h.walksFrom_iff hlen hword
  · exact h.wrapsFrom_iff (u64_lt_start hstart hlen' hword)

end Consistent

/-! ## What is registered -/

section Registered

variable {s : SubMemories} {sources destinations ids : List ℕ} {op_id : ℕ}

/-- With one operation each sub-memory is registered as often as it is walked. -/
theorem nodup_registered (mem_op : MemoryOperation) :
    (ids.map fun id => (id, mem_op)).Nodup ↔ ids.Nodup :=
  List.nodup_map_iff fun _ _ h => congrArg Prod.fst h

/-- Both parts of a copy are registered at most once when the sub-memories of each are. -/
theorem nodup_copied :
    ((sources.map fun id => (id, MemoryOperation.REDSHOW_MEMORY_COPYF)) ++
        destinations.map fun id => (id, MemoryOperation.REDSHOW_MEMORY_COPYT)).Nodup ↔
      sources.Nodup ∧ destinations.Nodup := by
  rw [List.nodup_append, nodup_registered, nodup_registered]
  refine and_congr_right fun _ => and_iff_left fun r hr r' hr' heq => ?_
  obtain ⟨id, -, rfl⟩ := List.mem_map.1 hr
  obtain ⟨id', -, rfl⟩ := List.mem_map.1 hr'
  cases congrArg Prod.snd heq

/-- A registration under an op id, for a sub-memory and an op id: the first one stays. -/
theorem registeredOp_register (memory_op_id op_id op_id' id : ℕ) (mem_op : MemoryOperation) :
    (s.memoryOperationRegister memory_op_id op_id mem_op).registeredOp op_id' id =
      if id = memory_op_id ∧ op_id' = op_id then
        some ((s.registeredOp op_id' id).getD mem_op) else s.registeredOp op_id' id := by
  unfold registeredOp memoryOperationRegister
  dsimp only
  rw [OrderedMap.findD_set]
  by_cases hid : id = memory_op_id
  · rw [if_pos hid, OrderedMap.find?_emplace, hid]
    by_cases hop : op_id' = op_id
    · rw [if_pos hop, if_pos ⟨rfl, hop⟩, hop]
    · rw [if_neg hop, if_neg fun h => hop h.2]
  · rw [if_neg hid, if_neg fun h => hid h.1]

/-- What the registrations of an operation leave for a sub-memory: the first one with the op id
stays. -/
theorem registeredOp_registerAll (registered : List (ℕ × MemoryOperation)) (id : ℕ) :
    (s.registerAll op_id registered).registeredOp op_id id =
      (s.registeredOp op_id id <|> (registered.find? fun r => r.1 = id).map Prod.snd) := by
  induction registered generalizing s with
  | nil =>
    show s.registeredOp op_id id = (s.registeredOp op_id id <|> none)
    exact (Option.or_none).symm.trans Option.or_eq_orElse
  | cons r registered ih =>
    show ((s.memoryOperationRegister r.1 op_id r.2).registerAll op_id
      registered).registeredOp op_id id = _
    rw [ih, registeredOp_register]
    by_cases hid : id = r.1
    · rw [if_pos ⟨hid, rfl⟩, List.find?_cons_of_pos (by simpa using hid.symm)]
      cases s.registeredOp op_id id <;> rfl
    · rw [if_neg fun h => hid h.1, List.find?_cons_of_neg (by simpa using Ne.symm hid)]

/-- The registrations of a walk for a sub-memory. -/
theorem find?_registered (mem_op : MemoryOperation) (id : ℕ) :
    ((ids.map fun id => (id, mem_op)).find? fun r => r.1 = id).map Prod.snd =
      if id ∈ ids then some mem_op else none := by
  induction ids with
  | nil => rfl
  | cons i ids ih =>
    rw [List.map_cons]
    by_cases hid : i = id
    · rw [List.find?_cons_of_pos (by simpa using hid), if_pos (by simp [hid])]
      rfl
    · rw [List.find?_cons_of_neg (by simpa using hid), ih]
      simp [Ne.symm hid]

/-- After a copy under a new op id, what is walked for the destination only is registered for it. -/
theorem registeredOp_copied (hnew : s.Fresh op_id) (id : ℕ) :
    let s' := s.registerAll op_id
      ((sources.map fun id => (id, MemoryOperation.REDSHOW_MEMORY_COPYF)) ++
        destinations.map fun id => (id, MemoryOperation.REDSHOW_MEMORY_COPYT))
    (s'.registeredOp op_id id = some .REDSHOW_MEMORY_COPYF ↔ id ∈ sources) ∧
      (s'.registeredOp op_id id = some .REDSHOW_MEMORY_COPYT ↔
        id ∈ destinations ∧ id ∉ sources) := by
  intro s'
  have hfind : s'.registeredOp op_id id =
      (if id ∈ sources then some MemoryOperation.REDSHOW_MEMORY_COPYF else none).or
        (if id ∈ destinations then some .REDSHOW_MEMORY_COPYT else none) := by
    rw [registeredOp_registerAll, hnew id, List.find?_append, Option.map_or, find?_registered,
      find?_registered]
    rfl
  rw [hfind]
  by_cases hsource : id ∈ sources <;> by_cases hdestination : id ∈ destinations <;>
    simp [hsource, hdestination]

/-- After a set under a new op id, what is walked is registered for it. -/
theorem registeredOp_set (hnew : s.Fresh op_id) (mem_op : MemoryOperation) (id : ℕ) :
    (s.registerAll op_id (ids.map fun id => (id, mem_op))).registeredOp op_id id = some mem_op ↔
      id ∈ ids := by
  rw [registeredOp_registerAll, hnew id, find?_registered]
  by_cases hid : id ∈ ids
  · simp [hid]
  · simp [hid]

/-- The sub-memories that are walked for the source of a copy are those that it touches. -/
def SourcesRight (s : SubMemories) (op : Memcpy) (sources : List ℕ) : Prop :=
  (if op.src_memory_op_id ≠ REDSHOW_MEMORY_HOST then
    copyFromWalk s.sub_addresses_map op.src_start op.len else some []) = some sources ∧
    sources.Nodup ∧ ∀ id, id ∈ sources ↔
      ∃ memory, (id, memory) ∈ s.current_submemories.toList ∧ FromSource op memory

/-- Those that are walked for the destination, less those for the source, are those that the
destination touches. -/
def DestinationsRight (s : SubMemories) (op : Memcpy) (sources destinations : List ℕ) : Prop :=
  (if op.dst_memory_op_id ≠ REDSHOW_MEMORY_HOST then
    copyToWalk s.sub_addresses_map op.dst_start op.len else some []) = some destinations ∧
    destinations.Nodup ∧ ∀ id, (id ∈ destinations ∧ id ∉ sources) ↔
      ∃ memory, (id, memory) ∈ s.current_submemories.toList ∧ ToDestination op memory

/-- A copy is registered as it should be exactly when both walks are right. -/
theorem memcpyRight_iff_walks {op : Memcpy} (hnew : s.Fresh op.op_id) :
    s.MemcpyRight op ↔ ∃ sources, s.SourcesRight op sources ∧
      ∃ destinations, s.DestinationsRight op sources destinations := by
  unfold MemcpyRight memcpyOpCallback
  constructor
  · rintro ⟨registered, s', hwalks, hnodup, hcallback, hfrom, hto⟩
    rw [hwalks, Option.map_some, Option.some.injEq] at hcallback
    obtain ⟨sources, hsources, hrest⟩ := Option.bind_eq_some_iff.1 hwalks
    obtain ⟨destinations, hdestinations, rfl⟩ := Option.map_eq_some_iff.1 hrest
    obtain ⟨hsnodup, hdnodup⟩ := nodup_copied.1 hnodup
    subst hcallback
    exact ⟨sources, ⟨hsources, hsnodup, fun id =>
        (registeredOp_copied hnew id).1.symm.trans (hfrom id)⟩,
      destinations, hdestinations, hdnodup, fun id =>
        (registeredOp_copied hnew id).2.symm.trans (hto id)⟩
  · rintro ⟨sources, ⟨hsources, hsnodup, hfrom⟩, destinations, hdestinations, hdnodup, hto⟩
    have hwalks : s.memcpyWalks op =
        some ((sources.map fun id => (id, MemoryOperation.REDSHOW_MEMORY_COPYF)) ++
          destinations.map fun id => (id, MemoryOperation.REDSHOW_MEMORY_COPYT)) := by
      unfold memcpyWalks
      rw [hsources, Option.bind_some, hdestinations, Option.map_some]
    refine ⟨_, _, hwalks, nodup_copied.2 ⟨hsnodup, hdnodup⟩,
      congrArg (Option.map (s.registerAll op.op_id)) hwalks, fun id => ?_, fun id => ?_⟩
    · exact (registeredOp_copied hnew id).1.trans (hfrom id)
    · exact (registeredOp_copied hnew id).2.trans (hto id)

/-- The ranges for which the walk of the source is right. -/
theorem Consistent.exists_sources_iff (h : Consistent s) {op : Memcpy}
    (hsrc : op.src_start < 2^64) (hlen : 1 ≤ op.len) (hword : op.len < 2^64) :
    (∃ sources, s.SourcesRight op sources) ↔
      (op.src_memory_op_id ≠ REDSHOW_MEMORY_HOST → s.RightFrom op.src_start op.len) := by
  unfold SourcesRight FromSource
  by_cases hdevice : op.src_memory_op_id ≠ REDSHOW_MEMORY_HOST
  · rw [if_pos hdevice, ← h.rightFrom_iff hsrc hlen hword]
    unfold IdsRight
    simp only [ne_eq, hdevice, not_false_eq_true, true_imp_iff, List.not_mem_nil, and_true,
      true_and]
  · refine iff_of_true ⟨[], if_neg hdevice, List.nodup_nil, fun id => ?_⟩
      fun hne => absurd hne hdevice
    exact iff_of_false List.not_mem_nil fun ⟨_, _, hne, _⟩ => hdevice hne

/-- What the source touches is excluded, where the sides touch nothing in common. -/
theorem SourcesRight.exempts {op : Memcpy} (hsources : s.SourcesRight op sources)
    (hapart : s.SidesApart op) (hdevice : op.dst_memory_op_id ≠ REDSHOW_MEMORY_HOST) :
    Exempts s (FromSource op) sources op.dst_start op.len where
  mem_iff e he := by
    rw [hsources.2.2 e.1]
    refine ⟨?_, fun hfrom => ⟨e.2, he, hfrom⟩⟩
    rintro ⟨memory, hmemory, hfrom⟩
    rwa [OrderedMap.eq_of_entries he hmemory]
  apart e he hfrom htouched := hapart e he hfrom ⟨hdevice, htouched⟩

/-- The ranges for which the walk of the destination is right. -/
theorem Consistent.exists_destinations_iff (h : Consistent s) {op : Memcpy}
    (hsources : s.SourcesRight op sources) (hapart : s.SidesApart op)
    (hdst : op.dst_start < 2^64) (hlen : 1 ≤ op.len) (hword : op.len < 2^64) :
    (∃ destinations, s.DestinationsRight op sources destinations) ↔
      (op.dst_memory_op_id ≠ REDSHOW_MEMORY_HOST →
        s.RightTo (FromSource op) op.dst_start op.len) := by
  by_cases hdevice : op.dst_memory_op_id ≠ REDSHOW_MEMORY_HOST
  · rw [← h.rightTo_iff (hsources.exempts hapart hdevice) hdst hlen hword]
    unfold DestinationsRight ToDestination IdsRight
    simp only [ne_eq, hdevice, not_false_eq_true, if_true, true_imp_iff, true_and]
  · refine iff_of_true ⟨[], if_neg hdevice, List.nodup_nil, fun id => ?_⟩
      fun hne => absurd hne hdevice
    exact iff_of_false (fun hid => List.not_mem_nil hid.1) fun ⟨_, _, hne, _⟩ => hdevice hne

/-- Where the walks are right no sub-memory is on both sides. -/
theorem DestinationsRight.sidesApart {op : Memcpy} (hsources : s.SourcesRight op sources)
    (hdestinations : s.DestinationsRight op sources destinations) : s.SidesApart op :=
  fun e he hfrom hto => ((hdestinations.2.2 e.1).2 ⟨e.2, he, hto⟩).2
    ((hsources.2.2 e.1).2 ⟨e.2, he, hfrom⟩)

/-- A set is registered as it should be exactly when its walk is right. -/
theorem memsetRight_iff {op : Memset} (hnew : s.Fresh op.op_id) :
    s.MemsetRight op ↔ ∃ ids, copyToWalk s.sub_addresses_map op.start op.len = some ids ∧
      s.IdsRight [] ids op.start op.len := by
  unfold MemsetRight memsetOpCallback memsetWalk setWalk RegisteredRight IdsRight
  simp only [List.not_mem_nil, not_false_eq_true, and_true]
  constructor
  · rintro ⟨registered, s', hwalk, hnodup, hcallback, hids⟩
    rw [hwalk, Option.map_some, Option.some.injEq] at hcallback
    obtain ⟨ids, hids', rfl⟩ := Option.map_eq_some_iff.1 hwalk
    subst hcallback
    exact ⟨ids, hids', (nodup_registered _).1 hnodup, fun id =>
      (registeredOp_set hnew _ id).symm.trans (hids id)⟩
  · rintro ⟨ids, hwalk, hnodup, hids⟩
    refine ⟨_, s.registerAll op.op_id (ids.map fun id => (id, .REDSHOW_MEMORY_SET)),
      by rw [hwalk, Option.map_some], (nodup_registered _).2 hnodup,
      by rw [hwalk, Option.map_some, Option.map_some], fun id => ?_⟩
    exact (registeredOp_set hnew _ id).trans (hids id)

end Registered

/-! ## Runs

Every run in which new sub-memories are disjoint from the live ones reaches a consistent state, in
which nothing is registered under a new op id. -/

section Runs

variable {s s' : SubMemories}

/-- A registration leaves the ranges as they are. -/
theorem registerAll_eq (op_id : ℕ) (registered : List (ℕ × MemoryOperation)) :
    (s.registerAll op_id registered).sub_addresses_map = s.sub_addresses_map ∧
      (s.registerAll op_id registered).current_submemories = s.current_submemories := by
  unfold registerAll
  induction registered generalizing s with
  | nil => exact ⟨rfl, rfl⟩
  | cons r registered ih =>
    rw [List.foldl_cons]
    exact ih

/-- Consistency is about the ranges only. -/
theorem Consistent.of_eq (h : Consistent s)
    (haddresses : s'.sub_addresses_map = s.sub_addresses_map)
    (hcurrent : s'.current_submemories = s.current_submemories) : Consistent s' := by
  constructor
  · rw [haddresses, hcurrent]
    exact h.addresses
  · rw [hcurrent]
    exact h.proper
  · rw [hcurrent]
    exact h.apart

/-- A new sub-memory. -/
theorem Consistent.memoryOpCallback (h : Consistent s) {op : Memory}
    (hop : s.Allowed (.memory op)) : Consistent (s.memoryOpCallback op) := by
  obtain ⟨hproper, hlive⟩ := hop
  have hnewid : s.current_submemories.find? op.op_id = none :=
    (OrderedMap.find?_eq_none_iff _ _).2 fun e he => (hlive e he).1
  have hnewstart : s.sub_addresses_map.find? op.memory_range.start = none := by
    refine (OrderedMap.find?_eq_none_iff _ _).2 fun e he hstart => ?_
    obtain ⟨d, hd, hdstart⟩ := (h.addresses e.1 e.2).1 he
    have hdlive : d.memory_range.start < op.memory_range.start ∧
        d.memory_range.stop ≤ op.memory_range.start ∨
          op.memory_range.start < d.memory_range.start ∧
            op.memory_range.stop ≤ d.memory_range.start := (hlive _ hd).2
    omega
  have hmem : ∀ e, e ∈ (s.current_submemories.set op.op_id op).toList ↔
      e = (op.op_id, op) ∨ e ∈ s.current_submemories.toList := fun e => by
    rw [OrderedMap.mem_set, and_iff_left_of_imp fun he => (hlive e he).1]
  -- Whether the sub-memory has been registered before does not matter to the ranges.
  suffices hnew : Consistent
      { s with
        current_submemories := s.current_submemories.emplace op.op_id op
        sub_addresses_map := s.sub_addresses_map.emplace op.memory_range.start op.op_id } by
    unfold SubMemories.memoryOpCallback
    dsimp only
    split_ifs
    · exact hnew
    · exact hnew.of_eq rfl rfl
  rw [OrderedMap.emplace_of_none hnewid, OrderedMap.emplace_of_none hnewstart]
  constructor
  · intro start id
    simp only [hmem, OrderedMap.mem_set, h.addresses]
    constructor
    · rintro (heq | ⟨⟨d, hd, hstart⟩, -⟩)
      · exact ⟨op, .inl (congrArg (fun e => (e.2, op)) heq), (congrArg Prod.fst heq).symm⟩
      · exact ⟨d, .inr hd, hstart⟩
    · rintro ⟨d, heq | hd, rfl⟩
      · obtain ⟨rfl, rfl⟩ := Prod.mk.inj heq
        exact .inl rfl
      · refine .inr ⟨⟨d, hd, rfl⟩, fun hstart => ?_⟩
        rcases (hlive _ hd).2 with hlt | hlt
        · exact hlt.1.ne hstart
        · exact hlt.1.ne' hstart
  · intro e he
    rcases (hmem e).1 he with rfl | he
    · exact hproper
    · exact h.proper e he
  · intro e he d hd hlt
    rcases (hmem e).1 he with rfl | he <;> rcases (hmem d).1 hd with rfl | hd
    · exact absurd hlt (lt_irrefl _)
    · exact ((hlive d hd).2.resolve_left fun hbefore => hlt.asymm hbefore.1).2
    · exact ((hlive e he).2.resolve_right fun hbehind => hlt.asymm hbehind.1).2
    · exact h.apart e he d hd hlt

/-- The release of a sub-memory. -/
theorem Consistent.memfreeOpCallback (h : Consistent s) {op : Memfree}
    (hs' : s.memfreeOpCallback op = some s') : Consistent s' := by
  obtain ⟨sub_alloc_id, hfind, rfl⟩ := Option.map_eq_some_iff.1 hs'
  have hentry := (OrderedMap.find?_eq_some_iff _ _ _).1 hfind
  have hlive : ∀ e ∈ (s.current_submemories.erase sub_alloc_id).toList,
      e ∈ s.current_submemories.toList := fun e he => ((OrderedMap.mem_erase _ _ _).1 he).1
  suffices hfreed : Consistent
      { s with
        sub_addresses_map := s.sub_addresses_map.erase op.memory_range.start
        current_submemories := s.current_submemories.erase sub_alloc_id } from
    hfreed.of_eq rfl rfl
  constructor
  · intro start id
    simp only [OrderedMap.mem_erase, h.addresses]
    constructor
    · -- The freed op id has no other start, and the freed start no other op id.
      rintro ⟨⟨d, hd, hstart⟩, hne⟩
      refine ⟨d, ⟨hd, fun hid => hne ?_⟩, hstart⟩
      have hsame := h.eq_of_id ((h.addresses _ _).2 ⟨d, hd, rfl⟩) hentry hid
      exact hstart.symm.trans (congrArg Prod.fst hsame)
    · rintro ⟨d, ⟨hd, hne⟩, hstart⟩
      refine ⟨⟨d, hd, hstart⟩, fun heq => hne ?_⟩
      have hmem := (h.addresses _ _).2 ⟨d, hd, hstart.trans heq⟩
      exact OrderedMap.eq_of_entries hmem hentry
  · exact fun e he => h.proper e (hlive e he)
  · exact fun e he d hd => h.apart e (hlive e he) d (hlive d hd)

/-- Every callback keeps the live sub-memories disjoint and the map with them. -/
theorem Consistent.step (h : Consistent s) {c : SubCallback} (hc : s.Allowed c)
    (hs' : s.step c = some s') : Consistent s' := by
  cases c with
  | memory op =>
    obtain rfl := Option.some.inj hs'
    exact h.memoryOpCallback hc
  | memfree op => exact h.memfreeOpCallback hs'
  | memcpy op =>
    obtain ⟨registered, -, rfl⟩ := Option.map_eq_some_iff.1 hs'
    exact h.of_eq (registerAll_eq _ _).1 (registerAll_eq _ _).2
  | memset op =>
    obtain ⟨registered, -, rfl⟩ := Option.map_eq_some_iff.1 hs'
    exact h.of_eq (registerAll_eq _ _).1 (registerAll_eq _ _).2

/-- Without sub-memories the state is consistent. -/
theorem consistent_empty : Consistent {} where
  addresses _ _ := iff_of_false List.not_mem_nil fun ⟨_, hop, _⟩ => List.not_mem_nil hop
  proper _ he := absurd he List.not_mem_nil
  apart _ he := absurd he List.not_mem_nil

/-- Every run of callbacks reaches a consistent state. -/
theorem consistent_run {callbacks : List SubCallback}
    (hallowed : AllSteps SubMemories.step Allowed {} callbacks)
    (hrun : run SubMemories.step {} callbacks = some s) : Consistent s :=
  run_invariant (fun _ _ _ h hc hs' => h.step hc hs') consistent_empty hallowed hrun

/-- Nothing is registered under other op ids. -/
theorem registeredOp_registerAll_of_ne {op_id op_id' : ℕ} (hne : op_id' ≠ op_id)
    (registered : List (ℕ × MemoryOperation)) (id : ℕ) :
    (s.registerAll op_id registered).registeredOp op_id' id = s.registeredOp op_id' id := by
  unfold registerAll
  induction registered generalizing s with
  | nil => rfl
  | cons r registered ih =>
    rw [List.foldl_cons, ih, registeredOp_register, if_neg fun h => hne h.2]

/-- A callback registers under its op id. -/
theorem registeredOp_step {c : SubCallback} (hs' : s.step c = some s') {op_id : ℕ}
    (hne : op_id ≠ c.op_id) (id : ℕ) : s'.registeredOp op_id id = s.registeredOp op_id id := by
  cases c with
  | memory op =>
    obtain rfl := Option.some.inj hs'
    unfold SubMemories.memoryOpCallback
    dsimp only
    split_ifs
    · rfl
    · exact (registeredOp_register _ _ _ _ _).trans (if_neg fun h => hne h.2)
  | memfree op =>
    obtain ⟨sub_alloc_id, -, rfl⟩ := Option.map_eq_some_iff.1 hs'
    exact (registeredOp_register _ _ _ _ _).trans (if_neg fun h => hne h.2)
  | memcpy op =>
    obtain ⟨registered, -, rfl⟩ := Option.map_eq_some_iff.1 hs'
    exact registeredOp_registerAll_of_ne hne registered id
  | memset op =>
    obtain ⟨registered, -, rfl⟩ := Option.map_eq_some_iff.1 hs'
    exact registeredOp_registerAll_of_ne hne registered id

/-- After every run nothing is registered under an op id that no callback has had. -/
theorem fresh_run {callbacks : List SubCallback} (hrun : run SubMemories.step {} callbacks = some s)
    {op_id : ℕ} (hnew : ∀ c ∈ callbacks, op_id ≠ c.op_id) : s.Fresh op_id := by
  rw [run_eq_foldlM] at hrun
  refine foldlM_invariant (I := fun s : SubMemories => s.Fresh op_id)
    (fun s c s' hs hc hs' id => ?_) (fun id => rfl) hrun
  rw [registeredOp_step hs' (hnew c hc), hs id]

end Runs

/-! ## When the registered sub-memories are the touched ones -/

/-- A copy from one range to another, or a set, of at least one byte and with a new op id is
registered for exactly the live sub-memories that it touches if and only if its ranges are right,
and none is on both sides of the copy. -/
theorem sub_registered_iff {s : SubMemories} (h : Consistent s) :
    (∀ op : Memcpy, s.Fresh op.op_id → op.src_start < 2^64 → op.dst_start < 2^64 → 1 ≤ op.len →
      op.len < 2^64 → (s.MemcpyRight op ↔
        (op.src_memory_op_id ≠ REDSHOW_MEMORY_HOST → s.RightFrom op.src_start op.len) ∧
        (op.dst_memory_op_id ≠ REDSHOW_MEMORY_HOST →
          s.RightTo (FromSource op) op.dst_start op.len) ∧ s.SidesApart op)) ∧
    ∀ op : Memset, s.Fresh op.op_id → op.start < 2^64 → 1 ≤ op.len → op.len < 2^64 →
      (s.MemsetRight op ↔ s.RightTo noneExempt op.start op.len) := by
  constructor
  · intro op hnew hsrc hdst hlen hword
    rw [memcpyRight_iff_walks hnew, ← h.exists_sources_iff hsrc hlen hword]
    constructor
    · rintro ⟨sources, hsources, destinations, hdestinations⟩
      have hapart := DestinationsRight.sidesApart hsources hdestinations
      exact ⟨⟨sources, hsources⟩, (h.exists_destinations_iff hsources hapart hdst hlen hword).1
        ⟨destinations, hdestinations⟩, hapart⟩
    · rintro ⟨⟨sources, hsources⟩, hto, hapart⟩
      exact ⟨sources, hsources, (h.exists_destinations_iff hsources hapart hdst hlen hword).2 hto⟩
  · intro op hnew hstart hlen hword
    rw [memsetRight_iff hnew, h.rightTo_iff exempts_none hstart hlen hword]

/-- Two sub-memories side by side, from 100 to 200 and from 200 to 300, and one apart from them. -/
def threeAllocations : List SubCallback :=
  [.memory (Memory.ofRange 0 1 0 ⟨100, 200⟩ 0 0), .memory (Memory.ofRange 0 2 0 ⟨200, 300⟩ 0 0),
    .memory (Memory.ofRange 0 3 0 ⟨400, 500⟩ 0 0)]

/-- The state after the allocations. -/
def neighbours : SubMemories :=
  ((({} : SubMemories).memoryOpCallback (Memory.ofRange 0 1 0 ⟨100, 200⟩ 0 0)).memoryOpCallback
    (Memory.ofRange 0 2 0 ⟨200, 300⟩ 0 0)).memoryOpCallback (Memory.ofRange 0 3 0 ⟨400, 500⟩ 0 0)

/-- The sub-memories are disjoint. -/
theorem neighbours_consistent : Consistent neighbours :=
  ((consistent_empty.memoryOpCallback ⟨by decide, by decide⟩).memoryOpCallback
    ⟨by decide, by decide⟩).memoryOpCallback ⟨by decide, by decide⟩

/-- Only the allocations have been registered. -/
theorem neighbours_fresh {op_id : ℕ} (hnew : ∀ c ∈ threeAllocations, op_id ≠ c.op_id) :
    neighbours.Fresh op_id :=
  fresh_run (show run SubMemories.step {} threeAllocations = some neighbours from rfl) hnew

/-- A copy from the middle of the first to the middle of the second, into the third, and a set of
what is copied. -/
theorem sub_registered_both :
    neighbours.MemcpyRight ⟨4, 0, 9, 0, 150, 9, 0, 410, 70⟩ ∧
      neighbours.MemsetRight ⟨5, 0, 9, 0, 150, 70⟩ := by
  have hfrom : neighbours.RightFrom 150 70 := by
    unfold RightFrom
    rw [if_pos (by decide)]
    exact .inl ⟨by decide, by decide, by decide⟩
  have hto : neighbours.RightTo (FromSource ⟨4, 0, 9, 0, 150, 9, 0, 410, 70⟩) 410 70 := by
    unfold RightTo
    rw [if_pos (by decide)]
    exact .inl ⟨by decide, by decide⟩
  have hset : neighbours.RightTo noneExempt 150 70 := by
    unfold RightTo
    rw [if_pos (by decide)]
    exact .inl ⟨by decide, by decide⟩
  have hboth := sub_registered_iff neighbours_consistent
  exact ⟨(hboth.1 ⟨4, 0, 9, 0, 150, 9, 0, 410, 70⟩ (neighbours_fresh (by decide)) (by decide)
      (by decide) (by decide) (by decide)).2 ⟨fun _ => hfrom, fun _ => hto, by decide⟩,
    (hboth.2 ⟨5, 0, 9, 0, 150, 70⟩ (neighbours_fresh (by decide)) (by decide) (by decide)
      (by decide)).2 hset⟩

/-- A copy from inside the first is not registered for it, a set up to the end of the first is
registered for the second, and a copy inside the first two is registered for the first as a source
only. -/
theorem sub_registered_wrong :
    ¬neighbours.MemcpyRight ⟨4, 0, 9, 0, 110, REDSHOW_MEMORY_HOST, 0, 0, 70⟩ ∧
      ¬neighbours.MemsetRight ⟨5, 0, 9, 0, 110, 90⟩ ∧
      ¬neighbours.MemcpyRight ⟨6, 0, 9, 0, 150, 9, 0, 110, 70⟩ := by
  have hcopy : (neighbours.memcpyOpCallback
      ⟨4, 0, 9, 0, 110, REDSHOW_MEMORY_HOST, 0, 0, 70⟩).bind
        (fun s => s.registeredOp 4 1) = none := by decide
  have hset : (neighbours.memsetOpCallback ⟨5, 0, 9, 0, 110, 90⟩).bind
      (fun s => s.registeredOp 5 2) = some .REDSHOW_MEMORY_SET := by decide
  have hself : (neighbours.memcpyOpCallback ⟨6, 0, 9, 0, 150, 9, 0, 110, 70⟩).bind
      (fun s => s.registeredOp 6 1) = some .REDSHOW_MEMORY_COPYF := by decide
  -- The first sub-memory has the byte at 110.
  have hfirst : (1, Memory.ofRange 0 1 0 ⟨100, 200⟩ 0 0) ∈ neighbours.current_submemories.toList :=
    by decide
  refine ⟨?_, ?_, ?_⟩
  · rintro ⟨registered, s', -, -, hcallback, hfrom, -⟩
    rw [hcallback, Option.bind_some] at hcopy
    have hright := (hfrom 1).2 ⟨_, hfirst, by decide⟩
    cases hcopy.symm.trans hright
  · rintro ⟨registered, s', -, -, hcallback, hids⟩
    rw [hcallback, Option.bind_some] at hset
    obtain ⟨op, hop, htouched⟩ := (hids 2).1 hset
    have hop' : op = Memory.ofRange 0 2 0 ⟨200, 300⟩ 0 0 :=
      OrderedMap.eq_of_entries hop (by decide)
    rw [hop'] at htouched
    exact absurd htouched (by decide)
  · rintro ⟨registered, s', -, -, hcallback, -, hto⟩
    rw [hcallback, Option.bind_some] at hself
    have hright := (hto 1).2 ⟨_, hfirst, by decide⟩
    cases hself.symm.trans hright

end SubMemories

end TenProf.MemoryLiveness
