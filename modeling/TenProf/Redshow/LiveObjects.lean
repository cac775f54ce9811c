import TenProf.Library.Intervals
import TenProf.MemoryLiveness.Builders
import TenProf.Redshow.MemorySnapshot
import TenProf.TorchMonitor.Analysis

/-!
# What the analyses keep about the live blocks

`MemoryLiveness` and `TorchMonitor` each keep the live blocks by their op ids, the op ids by the
starts, and a counter of the bytes with its peak. They change these four members in the same way:
`LiveObjects.allocate` and `LiveObjects.release`. The blocks that they are to keep are those of a
snapshot of the store.
-/

namespace TenProf

/-- The members of an analysis that are about the live blocks. -/
structure LiveObjects where
  current_memories : OrderedMap ℕ Memory
  addresses_map : OrderedMap ℕ ℕ
  usage : ℕ
  peak : ℕ

namespace LiveObjects

/-- What the callback for an allocation does. -/
def allocate (o : LiveObjects) (op : Memory) : LiveObjects :=
  let usage := u64 (o.usage + op.len)
  { current_memories := o.current_memories.emplace op.op_id op
    addresses_map := o.addresses_map.emplace op.memory_range.start op.op_id
    usage := usage
    peak := if o.peak < usage then usage else o.peak }

/-- What the callback for a release does. -/
def release (o : LiveObjects) (op : Memfree) : Option LiveObjects :=
  (o.addresses_map.find? op.memory_range.start).map fun malloc_op_id =>
    { current_memories := o.current_memories.erase malloc_op_id
      addresses_map := o.addresses_map.erase op.memory_range.start
      usage := subU64 o.usage op.len
      peak := o.peak }

end LiveObjects

/-- The live blocks of the liveness analysis. -/
def MemoryLiveness.liveObjects (s : MemoryLiveness) : LiveObjects :=
  ⟨s.current_memories, s.addresses_map, s.current_memory_usage, s.current_memory_peak⟩

/-- The live blocks of the torch monitor. -/
def TorchMonitor.liveObjects (s : TorchMonitor) : LiveObjects :=
  ⟨s.current_memories, s.addresses_map, s.current_memory_usage, s.memory_peak⟩

/-- The lengths of the blocks of a snapshot together. -/
def liveBytes (memory_map : MemoryMap) : ℕ := (memory_map.toList.map fun e => e.2.len).sum

/-- The buffers of two blocks share no byte. -/
def BuffersApart (m m' : Memory) : Prop :=
  m.value + m.len ≤ m'.value ∨ m'.value + m'.len ≤ m.value

instance (m m' : Memory) : Decidable (BuffersApart m m') :=
  inferInstanceAs (Decidable (_ ∨ _))

/-- The blocks of a snapshot whose op ids are among those of `ids`. Each stands at its start, no two
have the same op id, and their buffers lie apart in the address space. -/
structure Blocks (ids : List ℕ) (memory_map : MemoryMap) : Prop where
  start_eq : ∀ e ∈ memory_map.toList, e.2.memory_range.start = e.1
  len_eq : ∀ e ∈ memory_map.toList,
    e.2.len = subU64 e.2.memory_range.stop e.2.memory_range.start
  mem_ids : ∀ e ∈ memory_map.toList, e.2.op_id ∈ ids
  unique : ∀ e ∈ memory_map.toList, ∀ e' ∈ memory_map.toList, e.2.op_id = e'.2.op_id → e = e'
  bounded : ∀ e ∈ memory_map.toList, 0 < e.2.value ∧ e.2.value + e.2.len ≤ 2^64
  apart : memory_map.toList.Pairwise fun e e' => BuffersApart e.2 e'.2

/-- The members of an analysis mirror a snapshot: it keeps exactly the blocks of the snapshot, under
their op ids, exactly their starts, with the op ids, and the number of their bytes. -/
structure Mirrors (o : LiveObjects) (memory_map : MemoryMap) : Prop where
  memories : ∀ id m, o.current_memories.find? id = some m ↔
    m.op_id = id ∧ (m.memory_range.start, m) ∈ memory_map.toList
  addresses : ∀ a, o.addresses_map.find? a = (memory_map.find? a).map Memory.op_id
  usage : o.usage = liveBytes memory_map

variable {ids : List ℕ} {memory_map : MemoryMap} {m : Memory} {start : ℕ}

/-! ## The blocks of a snapshot -/

/-- The lengths after a block is put into a snapshot. -/
theorem liveBytes_set (h : memory_map.find? start = none) (m : Memory) :
    liveBytes (memory_map.set start m) = m.len + liveBytes memory_map := by
  have hperm := (OrderedMap.perm_set h m).map fun e => e.2.len
  unfold liveBytes
  rw [hperm.sum_eq]
  rfl

/-- The lengths before a block is taken from a snapshot. -/
theorem liveBytes_erase (h : memory_map.find? start = some m) :
    liveBytes memory_map = m.len + liveBytes (memory_map.erase start) := by
  have hperm := (OrderedMap.perm_erase h).map fun e => e.2.len
  unfold liveBytes
  rw [hperm.sum_eq]
  rfl

/-- The buffers of the blocks fit into the address space together. -/
theorem Blocks.liveBytes_lt (h : Blocks ids memory_map) : liveBytes memory_map < 2^64 := by
  let buffers := memory_map.toList.map fun e => (e.2.value, e.2.value + e.2.len)
  have hapart : buffers.Pairwise fun a b => ∀ x, ¬((a.1 ≤ x ∧ x < a.2) ∧ b.1 ≤ x ∧ x < b.2) := by
    refine List.pairwise_map.2 (h.apart.imp fun {e e'} hee' x hx => ?_)
    unfold BuffersApart at hee'
    omega
  have hlength : totalLength buffers = liveBytes memory_map := by
    unfold totalLength liveBytes
    rw [List.map_map]
    congr 1
    refine List.map_congr_left fun e _ => ?_
    show e.2.value + e.2.len - e.2.value = e.2.len
    omega
  -- No buffer starts at the address 0.
  have hsub : points buffers ⊆ Finset.Ico 1 (2^64) := by
    intro x hx
    rw [mem_points] at hx
    obtain ⟨b, hb, hge, hlt⟩ := hx
    obtain ⟨e, he, rfl⟩ := List.mem_map.1 hb
    have hbound := h.bounded e he
    rw [Finset.mem_Ico]
    dsimp only at hge hlt
    omega
  have hcard := Finset.card_le_card hsub
  rw [card_points_eq_totalLength hapart, hlength, Nat.card_Ico] at hcard
  omega

/-- A block with a new op id is put at its start, where no block is. -/
theorem Blocks.set (h : Blocks ids memory_map)
    (hnone : memory_map.find? m.memory_range.start = none) (hnew : m.op_id ∉ ids)
    (hlen : m.len = subU64 m.memory_range.stop m.memory_range.start)
    (hbounded : 0 < m.value ∧ m.value + m.len ≤ 2^64)
    (hapart : ∀ e ∈ memory_map.toList, BuffersApart m e.2) :
    Blocks (ids ++ [m.op_id]) (memory_map.set m.memory_range.start m) := by
  have hperm := OrderedMap.perm_set hnone m
  have hmem : ∀ e, e ∈ (memory_map.set m.memory_range.start m).toList ↔
      e = (m.memory_range.start, m) ∨ e ∈ memory_map.toList := by
    intro e
    rw [hperm.mem_iff, List.mem_cons]
  constructor
  · intro e he
    rcases (hmem e).1 he with rfl | he
    · rfl
    · exact h.start_eq e he
  · intro e he
    rcases (hmem e).1 he with rfl | he
    · exact hlen
    · exact h.len_eq e he
  · intro e he
    rw [List.mem_append, List.mem_singleton]
    rcases (hmem e).1 he with rfl | he
    · exact .inr rfl
    · exact .inl (h.mem_ids e he)
  · intro e he e' he' hid
    rcases (hmem e).1 he with rfl | he
    · rcases (hmem e').1 he' with rfl | he'
      · rfl
      · exact absurd (hid ▸ h.mem_ids e' he') hnew
    · rcases (hmem e').1 he' with rfl | he'
      · exact absurd (hid ▸ h.mem_ids e he) hnew
      · exact h.unique e he e' he' hid
  · intro e he
    rcases (hmem e).1 he with rfl | he
    · exact hbounded
    · exact h.bounded e he
  · have hcons : ((m.memory_range.start, m) :: memory_map.toList).Pairwise
        fun e e' => BuffersApart e.2 e'.2 := List.pairwise_cons.2 ⟨hapart, h.apart⟩
    exact hcons.perm hperm.symm Or.symm

/-- A block is taken away. -/
theorem Blocks.erase (h : Blocks ids memory_map) (start id : ℕ) :
    Blocks (ids ++ [id]) (memory_map.erase start) := by
  have hmem : ∀ e ∈ (memory_map.erase start).toList, e ∈ memory_map.toList := fun e he =>
    ((OrderedMap.mem_erase _ _ _).1 he).1
  constructor
  · exact fun e he => h.start_eq e (hmem e he)
  · exact fun e he => h.len_eq e (hmem e he)
  · exact fun e he => List.mem_append_left _ (h.mem_ids e (hmem e he))
  · exact fun e he e' he' => h.unique e (hmem e he) e' (hmem e' he')
  · exact fun e he => h.bounded e (hmem e he)
  · exact h.apart.filter _

/-- More op ids. -/
theorem Blocks.mono (h : Blocks ids memory_map) (id : ℕ) : Blocks (ids ++ [id]) memory_map :=
  { h with mem_ids := fun e he => List.mem_append_left _ (h.mem_ids e he) }

/-! ## The two callbacks -/

/-- An allocation keeps an analysis in step with the snapshots. -/
theorem Mirrors.allocate {o : LiveObjects} (h : Mirrors o memory_map)
    (hblocks : Blocks ids memory_map) (hnone : memory_map.find? m.memory_range.start = none)
    (hnew : m.op_id ∉ ids) (hlt : liveBytes (memory_map.set m.memory_range.start m) < 2^64) :
    Mirrors (o.allocate m) (memory_map.set m.memory_range.start m) := by
  have hid : o.current_memories.find? m.op_id = none := by
    rw [Option.eq_none_iff_forall_ne_some]
    intro m' hm'
    obtain ⟨hop, hmem⟩ := (h.memories _ _).1 hm'
    exact hnew (hop ▸ hblocks.mem_ids _ hmem)
  have haddress : o.addresses_map.find? m.memory_range.start = none := by
    rw [h.addresses, hnone]
    rfl
  have husage := liveBytes_set hnone m
  unfold LiveObjects.allocate
  constructor
  · intro id m'
    dsimp only
    rw [OrderedMap.emplace_of_none hid, OrderedMap.find?_set, (OrderedMap.perm_set hnone m).mem_iff,
      List.mem_cons]
    split_ifs with heq
    · rw [Option.some.injEq]
      constructor
      · rintro rfl
        exact ⟨heq.symm, .inl rfl⟩
      · rintro ⟨hop, hm' | hm'⟩
        · exact (Prod.mk.inj hm').2.symm
        · exact absurd (heq ▸ hop ▸ hblocks.mem_ids _ hm') hnew
    · rw [h.memories]
      constructor
      · exact fun hm' => ⟨hm'.1, .inr hm'.2⟩
      · rintro ⟨hop, hm' | hm'⟩
        · exact absurd ((Prod.mk.inj hm').2 ▸ hop).symm heq
        · exact ⟨hop, hm'⟩
  · intro a
    dsimp only
    rw [OrderedMap.emplace_of_none haddress, OrderedMap.find?_set, OrderedMap.find?_set]
    split_ifs
    · rfl
    · exact h.addresses a
  · show u64 (o.usage + m.len) = _
    rw [h.usage, add_comm, ← husage, u64_of_lt hlt]

/-- A release of the range of a live block finds it, and keeps an analysis in step with the
snapshots. -/
theorem Mirrors.release {o : LiveObjects} (h : Mirrors o memory_map)
    (hblocks : Blocks ids memory_map) {u : Memfree}
    (hfind : memory_map.find? u.memory_range.start = some m) (hlen : u.len = m.len) :
    ∃ o', o.release u = some o' ∧ o'.peak = o.peak ∧
      Mirrors o' (memory_map.erase u.memory_range.start) := by
  have haddress : o.addresses_map.find? u.memory_range.start = some m.op_id := by
    rw [h.addresses, hfind]
    rfl
  have hentry := (memory_map.find?_eq_some_iff _ _).1 hfind
  have husage := liveBytes_erase hfind
  have hlt := hblocks.liveBytes_lt
  unfold LiveObjects.release
  rw [haddress]
  refine ⟨_, rfl, rfl, ?_⟩
  constructor
  · intro id m'
    dsimp only
    rw [OrderedMap.find?_erase, OrderedMap.mem_erase]
    split_ifs with heq
    · refine iff_of_false (by simp) ?_
      rintro ⟨hop, hmem, hne⟩
      exact hne (congrArg Prod.fst (hblocks.unique _ hmem _ hentry (hop.trans heq)))
    · rw [h.memories]
      refine and_congr_right fun hop => (and_iff_left_of_imp fun hmem hstart => heq ?_).symm
      rw [← hop, (Prod.mk.inj (OrderedMap.eq_of_key hmem hentry hstart)).2]
  · intro a
    dsimp only
    rw [OrderedMap.find?_erase, OrderedMap.find?_erase]
    split_ifs
    · rfl
    · exact h.addresses a
  · show subU64 o.usage u.len = _
    rw [h.usage, hlen, subU64_of_le hlt (by omega)]
    omega

end TenProf
