import TenProf.DataFlow.LastWriter
import TenProf.DataFlow.Shadow

/-!
# The hashes of a calling context

With `REDSHOW_ANALYSIS_DATA_FLOW_HASH` an operation that writes an object leaves a hash in
`_node_hash` of its calling context. It is to be the hash of the content of the object, which is the
buffer `value`. A memset and a memcpy hash that buffer. A kernel hashes the buffer `value_cache`,
into which nothing but its own copy from the device is ever written, so that the bytes which it did
not write are those of some copy before, or those that `new` left there. The length narrows to 32
bits on the way to the hash function (`hashesContent_iff`).
-/

namespace TenProf.DataFlow

/-- Some bytes of the host. -/
def bytesAt (host : ByteMem) (start len : ℕ) : List UInt8 :=
  (List.range len).map fun i => host (start + i)

/-- The content of an object, `memory->value`. -/
def content (host : ByteMem) (memory : Memory) : List UInt8 :=
  bytesAt host memory.value memory.len

/-- The operation hashes bytes for a memory. -/
def Operation.Hashes : Operation → ℕ → Prop
  | .memcpy op, m => op.dst_memory_op_id = m
  | op, m => op.Writes m

/-- The bytes that an operation hashes for a memory, when it has updated the host. -/
def Operation.hashed (host : ByteMem) (memory : Memory) : Operation → List UInt8
  | .kernel _ _ => bytesAt host memory.value_cache (u32 memory.len)
  | .memcpy op =>
    bytesAt host (if op.IsSink then op.dst_shadow_start else memory.value) (u32 (lenOf memory op))
  | _ => bytesAt host memory.value (u32 memory.len)

/-- The hashes of all calling contexts after an operation: those from before, and in its own context
the hash of the bytes that it hashes for each memory. -/
def HashesBytes (env : Env) (op : Operation) (s s' : DataFlow) : Prop :=
  ∀ ctx_id hash, hash ∈ (s'.node_hash.findD ctx_id ∅).elems ↔
    hash ∈ (s.node_hash.findD ctx_id ∅).elems ∨ ctx_id = op.ctx_id ∧ ∃ m memory,
      op.Hashes m ∧ s.memories.find? m = some memory ∧ hash = env.sha256 (op.hashed s'.host memory)

/-- For every object that an operation writes, the bytes that it hashes are the content of the
object right after it. -/
def HashesContent (op : Operation) (s' : DataFlow) : Prop :=
  ∀ m memory, op.Writes m → REDSHOW_MEMORY_HOST < m → s'.memories.find? m = some memory →
    op.hashed s'.host memory = content s'.host memory

/-- Two operations that leave objects with the same content have the same hash for them. -/
def SameHash (env : Env) (op : Operation) (s : DataFlow) (op' : Operation) (s' : DataFlow) : Prop :=
  ∀ m memory m' memory', op.Writes m → REDSHOW_MEMORY_HOST < m → s.memories.find? m = some memory →
    op'.Writes m' → REDSHOW_MEMORY_HOST < m' → s'.memories.find? m' = some memory' →
    content s.host memory = content s'.host memory' →
    env.sha256 (op.hashed s.host memory) = env.sha256 (op'.hashed s'.host memory')

/-- A place of the host in one of the two buffers of an object. -/
def InBuffers (memory : Memory) (x : ℕ) : Prop :=
  memory.value ≤ x ∧ x < memory.value + memory.len ∨
    memory.value_cache ≤ x ∧ x < memory.value_cache + memory.len

/-- An operation finds the objects as the allocator and the device left them: a new object has
buffers of its own, and a kernel writes inside the objects. -/
def Operation.Placed (memories : OrderedMap ℕ Memory) : Operation → Prop
  | .memory op => (∃ memory : AllocatedMemory, memory.toMemory = op) ∧
      ∀ m memory, memories.find? m = some memory → REDSHOW_MEMORY_HOST < m →
        ∀ x, InBuffers memory x → ¬InBuffers op x
  | .kernel _ (some trace) => ∀ m ranges memory, trace.write_memory.find? m = some ranges →
      memories.find? m = some memory → REDSHOW_MEMORY_HOST < m →
        ∃ written : WrittenRanges memory, written.ranges = ranges
  | _ => True

/-- The byte behind the last one written. -/
def endMax (ranges : RangeSet) : ℕ := (ranges.toList.getLast?.map Prod.snd).getD 0

/-- A byte of the cache after the copy from the device, by the policy. -/
def cachedByte (env : Env) (device_mem host : ByteMem) (memory : Memory) (ranges : RangeSet)
    (a : ℕ) : UInt8 :=
  match copyType env memory ranges with
  | .MIN_MAX_FRAGMENT =>
    if startMin ranges ≤ a ∧ a < endMax ranges then
      device_mem (memory.memory_range.start + (a - startMin ranges))
    else bufferByte host memory.value_cache memory a
  | .NON_CONTINOUS_FRAGMENT =>
    if Covered ranges.toList a then device_mem a else bufferByte host memory.value_cache memory a

/-- An operation hashes the content of what it writes, if that has fewer than `2^32` bytes: a
kernel, if each byte that it did not write is the same in the cache, after the copy from the device,
as in the buffer `value`; a memcpy, if the length for an object without bytes narrows to zero. -/
def CacheCurrent (env : Env) (device_mem : ByteMem) (s : DataFlow) : Operation → Prop
  | .kernel _ (some trace) => ∀ m ranges memory, trace.write_memory.find? m = some ranges →
      s.memories.find? m = some memory → REDSHOW_MEMORY_HOST < m → memory.len < 2^32 ∧
        ∀ a, memory.memory_range.start ≤ a → a < memory.memory_range.stop →
          ¬Covered ranges.toList a → cachedByte env device_mem s.host memory ranges a =
            bufferByte s.host memory.value memory a
  | .memcpy op => ∀ memory, s.memories.find? op.dst_memory_op_id = some memory →
      REDSHOW_MEMORY_HOST < op.dst_memory_op_id →
        memory.len < 2^32 ∧ (memory.len = 0 → u32 op.len = 0)
  | .memset op => ∀ memory, s.memories.find? op.memory_op_id = some memory →
      REDSHOW_MEMORY_HOST < op.memory_op_id → memory.len < 2^32
  | _ => True

/-! ## The turn for an object -/

section Turn

variable {env : Env} {device_mem host : ByteMem} {memory : AllocatedMemory}

/-- The comparison leaves the cache as it is. -/
theorem cache_compareRanges {l : List (ℕ × ℕ)} (hproper : Proper l)
    (hinside : ∀ e ∈ l, memory.memory_range.start ≤ e.1 ∧ e.2 ≤ memory.memory_range.stop)
    (host : ByteMem) (same : ℤ) {a : ℕ} (ha : memory.memory_range.start ≤ a)
    (ha' : a < memory.memory_range.stop) :
    bufferByte (l.foldl (compareRange memory.toMemory) (host, same)).1 memory.value_cache
      memory.toMemory a = bufferByte host memory.value_cache memory.toMemory a := by
  induction l generalizing host same with
  | nil => rfl
  | cons e l ih =>
    obtain ⟨he, hl⟩ := List.forall_mem_cons.1 hinside
    obtain ⟨hpos, hproper⟩ := List.forall_mem_cons.1 hproper
    rw [List.foldl_cons, compareRange_eq host same he hpos, ih hproper hl]
    exact bufferByte_copyBytes_apart memory.buffers he.1 he.2 ha ha'

/-- The comparison changes nothing outside the buffers of the object. -/
theorem outside_compareRanges {l : List (ℕ × ℕ)} (hproper : Proper l)
    (hinside : ∀ e ∈ l, memory.memory_range.start ≤ e.1 ∧ e.2 ≤ memory.memory_range.stop)
    (host : ByteMem) (same : ℤ) {x : ℕ} (hx : ¬InBuffers memory.toMemory x) :
    (l.foldl (compareRange memory.toMemory) (host, same)).1 x = host x := by
  induction l generalizing host same with
  | nil => rfl
  | cons e l ih =>
    obtain ⟨he, hl⟩ := List.forall_mem_cons.1 hinside
    obtain ⟨hpos, hproper⟩ := List.forall_mem_cons.1 hproper
    have hlen := memory.len_eq
    rw [List.foldl_cons, compareRange_eq host same he hpos, ih hproper hl]
    refine copyBytes_of_outside ?_
    unfold InBuffers at hx
    omega

/-- The copy to the cache changes nothing outside the buffers of the object. -/
theorem outside_copyFragments {l : List (ℕ × ℕ)}
    (hinside : ∀ e ∈ l, memory.memory_range.start ≤ e.1 ∧ e.2 ≤ memory.memory_range.stop)
    (host : ByteMem) {x : ℕ} (hx : ¬InBuffers memory.toMemory x) :
    l.foldl (fun host_mem range_iter =>
      dtoh host_mem device_mem (memory.value_cache + range_iter.1 - memory.memory_range.start)
        range_iter.1 (range_iter.2 - range_iter.1)) host x = host x := by
  induction l generalizing host with
  | nil => rfl
  | cons e l ih =>
    obtain ⟨he, hl⟩ := List.forall_mem_cons.1 hinside
    have hlen := memory.len_eq
    rw [List.foldl_cons, ih hl]
    unfold dtoh
    rcases lt_or_ge e.1 e.2 with hlt | hge
    · refine copyBytes_of_outside ?_
      unfold InBuffers at hx
      omega
    · rw [Nat.sub_eq_zero_of_le hge, copyBytes_zero]

/-- What the turn for an object makes of the host: the cache is as the policy says, the written
bytes of the buffer `value` are those of the cache, and nothing else changes. -/
theorem host_updateHost (written : WrittenRanges memory.toMemory) {res : ByteMem × ℤ}
    (h : updateHost env device_mem host memory.toMemory written.ranges = some res) :
    (∀ a, memory.memory_range.start ≤ a → a < memory.memory_range.stop →
      bufferByte res.1 memory.value_cache memory.toMemory a =
        cachedByte env device_mem host memory.toMemory written.ranges a ∧
      bufferByte res.1 memory.value memory.toMemory a =
        if Covered written.ranges.toList a then
          cachedByte env device_mem host memory.toMemory written.ranges a
        else bufferByte host memory.value memory.toMemory a) ∧
    ∀ x, ¬InBuffers memory.toMemory x → res.1 x = host x := by
  obtain ⟨first, last, hfirst, hlast, hmin, hge, hle, hends⟩ := written.exists_ends
  have hmax : endMax written.ranges = last.2 := by
    unfold endMax
    rw [hlast]
    rfl
  unfold updateHost at h
  rw [hfirst, hlast] at h
  simp only [Option.some.injEq] at h
  subst h
  have hcopied : ∀ a, memory.memory_range.start ≤ a → a < memory.memory_range.stop →
      bufferByte (copyToCache env device_mem host memory.toMemory written.ranges first.1 last.2)
        memory.value_cache memory.toMemory a =
      cachedByte env device_mem host memory.toMemory written.ranges a := by
    intro a ha _
    unfold copyToCache cachedByte
    cases copyType env memory.toMemory written.ranges with
    | MIN_MAX_FRAGMENT =>
      simp only
      unfold dtoh
      rw [bufferByte_copyBytes hge ha, hmin, hmax]
    | NON_CONTINOUS_FRAGMENT =>
      simp only
      rw [cache_copyFragments written.inside ha]
  unfold compareWithCache
  refine ⟨fun a ha ha' => ⟨?_, ?_⟩, fun x hx => ?_⟩
  · rw [cache_compareRanges written.proper written.inside _ _ ha ha', hcopied a ha ha']
  · rw [shadow_compareRanges written.proper written.inside _ _ ha ha', hcopied a ha ha',
      value_copyToCache written hge hle ha ha']
  · rw [outside_compareRanges written.proper written.inside _ _ hx]
    unfold copyToCache
    cases copyType env memory.toMemory written.ranges with
    | MIN_MAX_FRAGMENT =>
      have hlen := memory.len_eq
      simp only
      unfold dtoh
      rcases lt_or_ge first.1 last.2 with hlt | hge'
      · refine copyBytes_of_outside ?_
        unfold InBuffers at hx
        omega
      · rw [Nat.sub_eq_zero_of_le hge', copyBytes_zero]
    | NON_CONTINOUS_FRAGMENT => exact outside_copyFragments written.inside _ hx

end Turn

/-! ## The callbacks -/

section Callbacks

variable {env : Env} {device_mem : ByteMem} {s s' : DataFlow}

/-- The links and the metrics concern neither the host nor the hashes. -/
structure SameHost (s s' : DataFlow) : Prop where
  host : s'.host = s.host
  node_hash : s'.node_hash = s.node_hash
  memories : s'.memories = s.memories
  data_flow_hash : s'.data_flow_hash = s.data_flow_hash

theorem SameHost.refl (s : DataFlow) : SameHost s s := ⟨rfl, rfl, rfl, rfl⟩

theorem SameHost.trans {s₁ s₂ s₃ : DataFlow} (h : SameHost s₁ s₂) (h' : SameHost s₂ s₃) :
    SameHost s₁ s₃ :=
  ⟨h'.host.trans h.host, h'.node_hash.trans h.node_hash, h'.memories.trans h.memories,
    h'.data_flow_hash.trans h.data_flow_hash⟩

theorem sameHost_linkCtxNode (src dst mem_ctx_id : ℤ) (type : EdgeType) :
    SameHost s (linkCtxNode s src dst mem_ctx_id type) := ⟨rfl, rfl, rfl, rfl⟩

theorem sameHost_linkOpNode (op_id : ℕ) (ctx_id mem_ctx_id : ℤ) :
    SameHost s (linkOpNode s op_id ctx_id mem_ctx_id) := by
  unfold linkOpNode
  split
  · exact sameHost_linkCtxNode _ _ _ _
  · exact SameHost.refl s

theorem sameHost_updateEdgeMetrics (src dst mem_ctx_id : ℤ) (redundancy overwrite count : ℕ)
    (type : EdgeType) :
    SameHost s (updateEdgeMetrics s src dst mem_ctx_id redundancy overwrite count type) := by
  unfold updateEdgeMetrics
  simp only
  split
  · exact ⟨rfl, rfl, rfl, rfl⟩
  · exact SameHost.refl s

theorem sameHost_updateOpMetrics (op_id : ℕ) (ctx_id mem_ctx_id : ℤ)
    (redundancy overwrite count : ℕ) (type : EdgeType) :
    SameHost s (updateOpMetrics s op_id ctx_id mem_ctx_id redundancy overwrite count type) := by
  unfold updateOpMetrics
  split
  · exact sameHost_updateEdgeMetrics _ _ _ _ _ _ _
  · exact SameHost.refl s

theorem sameHost_updateOpNode (op_id : ℕ) (ctx_id : ℤ) :
    SameHost s (updateOpNode s op_id ctx_id) := by
  unfold updateOpNode
  split_ifs
  · exact ⟨rfl, rfl, rfl, rfl⟩
  · exact SameHost.refl s

theorem sameHost_addCtxNode (op : Operation) : SameHost s (addCtxNode s op) := by
  unfold addCtxNode
  split_ifs
  · exact SameHost.refl s
  · exact ⟨rfl, rfl, rfl, rfl⟩

/-- A turn of the first loop of a kernel. -/
theorem sameHost_readMemory {op : Kernel} {mem_iter : ℕ × RangeSet}
    (h : readMemory op s mem_iter = some s') : SameHost s s' := by
  obtain ⟨memory, -, h⟩ := Option.bind_eq_some_iff.1 h
  by_cases htracked : REDSHOW_MEMORY_HOST < memory.op_id
  · rw [if_pos htracked] at h
    obtain ⟨src, -, rfl⟩ := Option.map_eq_some_iff.1 h
    exact (sameHost_linkCtxNode _ _ _ _).trans (sameHost_updateOpMetrics _ _ _ _ _ _ _)
  · rw [if_neg htracked] at h
    cases h
    exact SameHost.refl s

/-- The first loop of a kernel. -/
theorem sameHost_readMemories {op : Kernel} {l : List (ℕ × RangeSet)}
    (h : l.foldlM (readMemory op) s = some s') : SameHost s s' := by
  induction l generalizing s with
  | nil =>
    cases h
    exact SameHost.refl _
  | cons mem_iter l ih =>
    obtain ⟨s₁, h₁, h⟩ := Option.bind_eq_some_iff.1 h
    exact (sameHost_readMemory h₁).trans (ih h)

/-- A hash of the bytes at a place is put to those of a calling context. -/
theorem mem_hashNode (hhash : s.data_flow_hash = true) (ctx_id : ℤ) (start len : ℕ) (ctx_id' : ℤ)
    (hash : String) :
    hash ∈ ((hashNode env s ctx_id start len).node_hash.findD ctx_id' ∅).elems ↔
      hash ∈ (s.node_hash.findD ctx_id' ∅).elems ∨
        ctx_id' = ctx_id ∧ hash = env.sha256 (bytesAt s.host start (u32 len)) := by
  unfold hashNode
  rw [if_pos hhash, OrderedMap.findD_set]
  split_ifs with hctx
  · subst hctx
    rw [OrderedSet.mem_insert]
    simp only [true_and]
    exact or_comm
  · simp [hctx]

/-- Hashes are put where nothing else is kept. -/
theorem sameBut_hashNode (ctx_id : ℤ) (start len : ℕ) :
    (hashNode env s ctx_id start len).host = s.host ∧
      (hashNode env s ctx_id start len).memories = s.memories ∧
      (hashNode env s ctx_id start len).data_flow_hash = s.data_flow_hash := by
  unfold hashNode
  split_ifs
  · exact ⟨rfl, rfl, rfl⟩
  · exact ⟨rfl, rfl, rfl⟩

/-- The objects stand under their ids and have buffers of their own. -/
structure Buffers (memories : OrderedMap ℕ Memory) : Prop where
  keyed : ∀ m memory, memories.find? m = some memory → memory.op_id = m
  allocated : ∀ m memory, memories.find? m = some memory → REDSHOW_MEMORY_HOST < m →
    ∃ allocated : AllocatedMemory, allocated.toMemory = memory
  apart : ∀ m memory m' memory', memories.find? m = some memory → REDSHOW_MEMORY_HOST < m →
    memories.find? m' = some memory' → REDSHOW_MEMORY_HOST < m' → m ≠ m' →
      ∀ x, InBuffers memory x → ¬InBuffers memory' x

/-- The places of the bytes of an object in its buffers. -/
theorem inBuffers_add {memory : AllocatedMemory} {a : ℕ} (ha : memory.memory_range.start ≤ a)
    (ha' : a < memory.memory_range.stop) :
    InBuffers memory.toMemory (memory.value + a - memory.memory_range.start) ∧
      InBuffers memory.toMemory (memory.value_cache + a - memory.memory_range.start) := by
  have hlen := memory.len_eq
  unfold InBuffers
  omega

/-- The same bytes in the buffers of an object. -/
def SameBuffers (memory : Memory) (host host' : ByteMem) : Prop :=
  ∀ x, InBuffers memory x → host' x = host x

/-- Bytes in the buffers of an object are those of the same buffers elsewhere. -/
theorem SameBuffers.bufferByte_eq {memory : AllocatedMemory} {host host' : ByteMem}
    (h : SameBuffers memory.toMemory host host') {a : ℕ} (ha : memory.memory_range.start ≤ a)
    (ha' : a < memory.memory_range.stop) :
    bufferByte host' memory.value memory.toMemory a =
        bufferByte host memory.value memory.toMemory a ∧
      bufferByte host' memory.value_cache memory.toMemory a =
        bufferByte host memory.value_cache memory.toMemory a :=
  ⟨h _ (inBuffers_add ha ha').1, h _ (inBuffers_add ha ha').2⟩

/-- The policy copies the same bytes over the same buffers. -/
theorem SameBuffers.cachedByte_eq {memory : AllocatedMemory} {host host' : ByteMem}
    (h : SameBuffers memory.toMemory host host') (ranges : RangeSet) {a : ℕ}
    (ha : memory.memory_range.start ≤ a) (ha' : a < memory.memory_range.stop) :
    cachedByte env device_mem host' memory.toMemory ranges a =
      cachedByte env device_mem host memory.toMemory ranges a := by
  unfold cachedByte
  rw [(h.bufferByte_eq ha ha').2]

/-- What the second loop of a kernel does to the host and to the hashes. -/
structure Updated (env : Env) (device_mem : ByteMem) (ctx_id : ℤ) (l : List (ℕ × RangeSet))
    (s s' : DataFlow) : Prop where
  memories : s'.memories = s.memories
  data_flow_hash : s'.data_flow_hash = s.data_flow_hash
  buffers : ∀ e ∈ l, ∀ memory, s.memories.find? e.1 = some memory → REDSHOW_MEMORY_HOST < e.1 →
    ∀ a, memory.memory_range.start ≤ a → a < memory.memory_range.stop →
      bufferByte s'.host memory.value_cache memory a =
          cachedByte env device_mem s.host memory e.2 a ∧
        bufferByte s'.host memory.value memory a =
          if Covered e.2.toList a then cachedByte env device_mem s.host memory e.2 a
          else bufferByte s.host memory.value memory a
  outside : ∀ x, (∀ e ∈ l, ∀ memory, s.memories.find? e.1 = some memory →
    REDSHOW_MEMORY_HOST < e.1 → ¬InBuffers memory x) → s'.host x = s.host x
  node_hash : s.data_flow_hash = true → ∀ ctx_id' hash,
    hash ∈ (s'.node_hash.findD ctx_id' ∅).elems ↔
      hash ∈ (s.node_hash.findD ctx_id' ∅).elems ∨ ctx_id' = ctx_id ∧ ∃ e ∈ l, ∃ memory,
        s.memories.find? e.1 = some memory ∧ REDSHOW_MEMORY_HOST < e.1 ∧
          hash = env.sha256 (bytesAt s'.host memory.value_cache (u32 memory.len))

/-- A turn of the second loop of a kernel. -/
theorem updated_writeMemory {op : Kernel} {mem_iter : ℕ × RangeSet} (hbuffers : Buffers s.memories)
    (hwritten : ∀ memory, s.memories.find? mem_iter.1 = some memory →
      REDSHOW_MEMORY_HOST < mem_iter.1 →
        ∃ written : WrittenRanges memory, written.ranges = mem_iter.2)
    (h : writeMemory env device_mem op s mem_iter = some s') :
    Updated env device_mem op.ctx_id [mem_iter] s s' := by
  obtain ⟨memory, hmemory, h⟩ := Option.bind_eq_some_iff.1 h
  have hkey := hbuffers.keyed _ _ hmemory
  have honly : ∀ memory', s.memories.find? mem_iter.1 = some memory' → memory' = memory :=
    fun memory' hm => Option.some.inj (hm.symm.trans hmemory)
  by_cases htracked : REDSHOW_MEMORY_HOST < memory.op_id
  · rw [if_pos htracked] at h
    rw [hkey] at htracked
    obtain ⟨res, hres, h⟩ := Option.map_eq_some_iff.1 h
    obtain ⟨allocated, rfl⟩ := hbuffers.allocated _ _ hmemory htracked
    obtain ⟨written, hranges⟩ := hwritten _ hmemory htracked
    rw [← hranges] at hres
    obtain ⟨hcopied, houtside⟩ := host_updateHost written hres
    rw [hranges] at hcopied
    -- The links and the metrics come between the update of the host and the hash.
    have hsame : SameHost { s with host := res.1 } (updateOpNode (updateOpMetrics (linkOpNode
        { s with host := res.1 } allocated.op_id op.ctx_id allocated.ctx_id) allocated.op_id
        op.ctx_id allocated.ctx_id (u64OfInt res.2) (u64OfInt (rangesLen mem_iter.2))
        allocated.len .DATA_FLOW_EDGE_ORDER) allocated.op_id op.ctx_id) :=
      ((sameHost_linkOpNode _ _ _).trans (sameHost_updateOpMetrics _ _ _ _ _ _ _)).trans
        (sameHost_updateOpNode _ _)
    generalize hs₀ : updateOpNode _ _ _ = s₀ at hsame h
    have hlinked : s' = hashNode env s₀ op.ctx_id allocated.value_cache allocated.len := by
      rw [← h, ← hs₀]
      rfl
    obtain ⟨hhost, hmemories, hconfig⟩ :=
      @sameBut_hashNode env s₀ op.ctx_id allocated.value_cache allocated.len
    rw [← hlinked] at hhost hmemories hconfig
    rw [hsame.host] at hhost
    refine ⟨hmemories.trans hsame.memories, hconfig.trans hsame.data_flow_hash,
      fun e he memory hm _ a ha ha' => ?_, fun x hx => ?_, fun hhash ctx_id' hash => ?_⟩
    · rw [List.mem_singleton.1 he] at hm ⊢
      obtain rfl := honly _ hm
      rw [hhost]
      exact hcopied a ha ha'
    · rw [hhost]
      exact houtside x (hx mem_iter (List.mem_singleton.2 rfl) _ hmemory htracked)
    · rw [hlinked, mem_hashNode (hsame.data_flow_hash.trans hhash), hsame.node_hash, ← hlinked,
        hsame.host, hhost]
      refine or_congr_right (and_congr_right fun _ => ⟨fun heq => ?_, ?_⟩)
      · exact ⟨mem_iter, List.mem_singleton.2 rfl, _, hmemory, htracked, heq⟩
      · rintro ⟨e, he, memory, hm, -, heq⟩
        rw [List.mem_singleton.1 he] at hm
        rw [heq, honly _ hm]
  · rw [if_neg htracked] at h
    cases h
    have huntracked : ¬REDSHOW_MEMORY_HOST < mem_iter.1 := hkey ▸ htracked
    refine ⟨rfl, rfl, fun e he _ _ hlt => ?_, fun _ _ => rfl, fun _ ctx_id' hash => ?_⟩
    · rw [List.mem_singleton] at he
      exact absurd (he ▸ hlt) huntracked
    · refine (or_iff_left ?_).symm
      rintro ⟨-, e, he, _, -, hlt, -⟩
      rw [List.mem_singleton] at he
      exact huntracked (he ▸ hlt)

/-- The bytes hashed are those of the same buffers elsewhere. -/
theorem SameBuffers.bytesAt_eq {memory : Memory} {host host' : ByteMem}
    (h : SameBuffers memory host host') :
    bytesAt host' memory.value_cache (u32 memory.len) =
      bytesAt host memory.value_cache (u32 memory.len) := by
  unfold bytesAt
  refine List.map_congr_left fun i hi => h _ (.inr ?_)
  have hlt := List.mem_range.1 hi
  have hle := u32_le memory.len
  omega

/-- One more object, which is none of the others. -/
theorem Updated.cons {ctx_id : ℤ} {e : ℕ × RangeSet} {l : List (ℕ × RangeSet)} {s₁ : DataFlow}
    (hbuffers : Buffers s.memories) (hnew : e.1 ∉ l.map Prod.fst)
    (h₁ : Updated env device_mem ctx_id [e] s s₁) (h₂ : Updated env device_mem ctx_id l s₁ s') :
    Updated env device_mem ctx_id (e :: l) s s' := by
  have hne : ∀ e' ∈ l, e.1 ≠ e'.1 := fun e' he' heq => hnew (heq ▸ List.mem_map_of_mem he')
  -- The later turns leave the buffers of the first object, and the first turn those of the others.
  have hfirst : ∀ memory, s.memories.find? e.1 = some memory → REDSHOW_MEMORY_HOST < e.1 →
      SameBuffers memory s₁.host s'.host := by
    intro memory hm hlt x hx
    refine h₂.outside x fun e' he' memory' hm' hlt' => ?_
    rw [h₁.memories] at hm'
    exact hbuffers.apart _ _ _ _ hm hlt hm' hlt' (hne e' he') x hx
  have hothers : ∀ e' ∈ l, ∀ memory, s.memories.find? e'.1 = some memory →
      REDSHOW_MEMORY_HOST < e'.1 → SameBuffers memory s.host s₁.host := by
    intro e' he' memory hm hlt x hx
    refine h₁.outside x fun e₁ he₁ memory' hm' hlt' => ?_
    rw [List.mem_singleton.1 he₁] at hm' hlt'
    exact hbuffers.apart _ _ _ _ hm hlt hm' hlt' (hne e' he').symm x hx
  refine ⟨h₂.memories.trans h₁.memories, h₂.data_flow_hash.trans h₁.data_flow_hash,
    fun e' he' memory hm hlt a ha ha' => ?_, fun x hx => ?_, fun hhash ctx_id' hash => ?_⟩
  · rcases List.mem_cons.1 he' with rfl | hl
    · obtain ⟨allocated, rfl⟩ := hbuffers.allocated _ _ hm hlt
      have hlater := (hfirst _ hm hlt).bufferByte_eq ha ha'
      rw [hlater.1, hlater.2]
      exact h₁.buffers _ (List.mem_singleton.2 rfl) _ hm hlt a ha ha'
    · obtain ⟨allocated, rfl⟩ := hbuffers.allocated _ _ hm hlt
      have hbefore := hothers e' hl _ hm hlt
      have hupdated := h₂.buffers e' hl _ (h₁.memories ▸ hm) hlt a ha ha'
      rw [hbefore.cachedByte_eq _ ha ha', (hbefore.bufferByte_eq ha ha').1] at hupdated
      exact hupdated
  · rw [h₂.outside x fun e' he' memory hm => hx e' (List.mem_cons_of_mem _ he') memory
      (h₁.memories ▸ hm)]
    refine h₁.outside x fun e' he' => hx e' ?_
    rw [List.mem_singleton.1 he']
    exact List.mem_cons_self
  · rw [h₂.node_hash (h₁.data_flow_hash.trans hhash), h₁.node_hash hhash, h₁.memories, or_assoc,
      ← and_or_left]
    refine or_congr_right (and_congr_right fun _ => ?_)
    simp only [List.mem_cons, List.not_mem_nil, or_false, exists_eq_left, or_and_right, exists_or]
    refine or_congr_left (exists_congr fun memory => and_congr_right fun hm =>
      and_congr_right fun hlt => ?_)
    rw [(hfirst memory hm hlt).bytesAt_eq]

/-- The second loop of a kernel. -/
theorem updated_writeMemories {op : Kernel} {l : List (ℕ × RangeSet)}
    (hbuffers : Buffers s.memories) (hnodup : (l.map Prod.fst).Nodup)
    (hwritten : ∀ e ∈ l, ∀ memory, s.memories.find? e.1 = some memory →
      REDSHOW_MEMORY_HOST < e.1 → ∃ written : WrittenRanges memory, written.ranges = e.2)
    (h : l.foldlM (writeMemory env device_mem op) s = some s') :
    Updated env device_mem op.ctx_id l s s' := by
  induction l generalizing s with
  | nil =>
    cases h
    exact ⟨rfl, rfl, by simp, fun _ _ => rfl, by simp⟩
  | cons e l ih =>
    obtain ⟨s₁, h₁, h⟩ := Option.bind_eq_some_iff.1 h
    obtain ⟨hnew, hnodup⟩ := List.nodup_cons.1 hnodup
    have hfirst := updated_writeMemory hbuffers (hwritten e List.mem_cons_self) h₁
    refine hfirst.cons hbuffers hnew (ih (hfirst.memories ▸ hbuffers) hnodup ?_ h)
    intro e' he' memory hm
    exact hwritten e' (List.mem_cons_of_mem e he') memory (hfirst.memories ▸ hm)

/-- The part of a memcpy for the destination. -/
theorem sameHost_linkDst {op : ShadowMemcpy} {src_memory dst_memory : Memory} {redundancy : ℕ}
    (h : linkDst s op src_memory dst_memory redundancy = some s') : SameHost s s' := by
  unfold linkDst at h
  simp only at h
  split_ifs at h
  · obtain ⟨_, -, rfl⟩ := Option.map_eq_some_iff.1 h
    exact (sameHost_linkCtxNode _ _ _ _).trans (sameHost_updateEdgeMetrics _ _ _ _ _ _ _)
  · cases h
    exact ((sameHost_linkOpNode _ _ _).trans (sameHost_updateOpMetrics _ _ _ _ _ _ _)).trans
      (sameHost_updateOpNode _ _)

/-- The part of a memcpy for the source. -/
theorem sameHost_linkSrc {op : ShadowMemcpy} {src_memory : Memory}
    (h : linkSrc s op src_memory = some s') : SameHost s s' := by
  obtain ⟨_, -, h⟩ := Option.bind_eq_some_iff.1 h
  obtain ⟨_, -, rfl⟩ := Option.map_eq_some_iff.1 h
  exact (sameHost_linkCtxNode _ _ _ _).trans (sameHost_updateOpMetrics _ _ _ _ _ _ _)

/-- The memories stay, and the bytes at a place of the host are hashed. -/
structure HashedAt (env : Env) (ctx_id : ℤ) (start len : ℕ) (s s' : DataFlow) : Prop where
  memories : s'.memories = s.memories
  data_flow_hash : s'.data_flow_hash = s.data_flow_hash
  node_hash : s.data_flow_hash = true → ∀ ctx_id' hash,
    hash ∈ (s'.node_hash.findD ctx_id' ∅).elems ↔
      hash ∈ (s.node_hash.findD ctx_id' ∅).elems ∨
        ctx_id' = ctx_id ∧ hash = env.sha256 (bytesAt s'.host start (u32 len))

/-- A hash after links and an update of the host. -/
theorem hashedAt_hashNode {s₁ : DataFlow} (hsame : SameHost s s₁) (host : ByteMem) (ctx_id : ℤ)
    (start len : ℕ) :
    HashedAt env ctx_id start len s (hashNode env { s₁ with host := host } ctx_id start len) := by
  obtain ⟨hhost, hmemories, hconfig⟩ :=
    @sameBut_hashNode env { s₁ with host := host } ctx_id start len
  refine ⟨hmemories.trans hsame.memories, hconfig.trans hsame.data_flow_hash,
    fun hhash ctx_id' hash => ?_⟩
  have hon : ({ s₁ with host := host } : DataFlow).data_flow_hash = true :=
    hsame.data_flow_hash.trans hhash
  refine (mem_hashNode hon _ _ _ _ _).trans ?_
  rw [hhost, hsame.node_hash]

/-- A memset hashes the buffer `value`. -/
theorem hashedAt_memsetOpCallback {op : ShadowMemset} (h : memsetOpCallback env s op = some s') :
    ∃ memory, s.memories.find? op.memory_op_id = some memory ∧
      HashedAt env op.ctx_id memory.value memory.len s s' := by
  obtain ⟨memory, hmemory, rfl⟩ := Option.map_eq_some_iff.1 h
  refine ⟨memory, hmemory, hashedAt_hashNode ?_ _ _ _ _⟩
  exact ((sameHost_linkOpNode _ _ _).trans (sameHost_updateOpMetrics _ _ _ _ _ _ _)).trans
    (sameHost_updateOpNode _ _)

/-- A memcpy hashes the destination. -/
theorem hashedAt_memcpyOpCallback {op : ShadowMemcpy} (h : memcpyOpCallback env s op = some s') :
    ∃ memory, s.memories.find? op.dst_memory_op_id = some memory ∧
      HashedAt env op.ctx_id (if op.IsSink then op.dst_shadow_start else memory.value)
        (lenOf memory op) s s' := by
  obtain ⟨src_memory, -, h⟩ := Option.bind_eq_some_iff.1 h
  obtain ⟨dst_memory, hmemory, h⟩ := Option.bind_eq_some_iff.1 h
  obtain ⟨s₁, hdst, h⟩ := Option.bind_eq_some_iff.1 h
  obtain ⟨s₂, hsrc, rfl⟩ := Option.map_eq_some_iff.1 h
  exact ⟨dst_memory, hmemory,
    hashedAt_hashNode ((sameHost_linkDst hdst).trans (sameHost_linkSrc hsrc)) _ _ _ _⟩

/-- A kernel updates the objects that it writes. -/
theorem updated_kernelOpCallback {op : Kernel} {trace : DataFlowTrace}
    (hbuffers : Buffers s.memories)
    (hwritten : (Operation.kernel op (some trace)).Placed s.memories)
    (h : kernelOpCallback env device_mem { s with trace := some trace } op = some s') :
    Updated env device_mem op.ctx_id trace.write_memory.toList s s' := by
  obtain ⟨s₁, hread, h⟩ := Option.bind_eq_some_iff.1 h
  obtain ⟨s₂, hwrite, rfl⟩ := Option.map_eq_some_iff.1 h
  have hreads := sameHost_readMemories hread
  have hsame : SameHost s s₁ :=
    ⟨hreads.host, hreads.node_hash, hreads.memories, hreads.data_flow_hash⟩
  have hupdated := updated_writeMemories (hsame.memories ▸ hbuffers)
    trace.write_memory.nodup_keys (fun e he memory hm hlt => hwritten e.1 e.2 memory
      ((OrderedMap.find?_eq_some_iff _ _ _).2 he) (hsame.memories ▸ hm) hlt) hwrite
  obtain ⟨hmemories, hconfig, hbytes, houtside, hhash⟩ := hupdated
  rw [hsame.memories] at hmemories hbytes houtside hhash
  rw [hsame.host] at hbytes houtside
  rw [hsame.data_flow_hash] at hconfig hhash
  rw [hsame.node_hash] at hhash
  exact ⟨hmemories, hconfig, hbytes, houtside, hhash⟩

/-- What is hashed of the cache of an object is its content: the length does not narrow, and the
bytes of the two buffers are the same. -/
theorem bytesAt_eq_content_iff {memory : AllocatedMemory} {host : ByteMem} :
    bytesAt host memory.value_cache (u32 memory.len) = content host memory.toMemory ↔
      memory.len < 2^32 ∧ ∀ a, memory.memory_range.start ≤ a → a < memory.memory_range.stop →
        bufferByte host memory.value_cache memory.toMemory a =
          bufferByte host memory.value memory.toMemory a := by
  have hlen := memory.len_eq
  by_cases hshort : memory.len < 2^32
  · rw [u32_of_lt hshort, and_iff_right hshort]
    unfold content bytesAt bufferByte
    rw [List.map_inj_left]
    constructor
    · intro h a ha ha'
      have hat := h (a - memory.memory_range.start) (List.mem_range.2 (by omega))
      rwa [← Nat.add_sub_assoc ha, ← Nat.add_sub_assoc ha] at hat
    · intro h i hi
      have hlt := List.mem_range.1 hi
      have hat := h (memory.memory_range.start + i) (by omega) (by omega)
      rwa [Nat.add_left_comm, Nat.add_sub_cancel_left, Nat.add_left_comm,
        Nat.add_sub_cancel_left] at hat
  · refine iff_of_false (fun h => hshort ?_) fun h => hshort h.1
    -- There are not as many bytes.
    have hlength := congrArg List.length h
    unfold content bytesAt at hlength
    rw [List.length_map, List.length_map, List.length_range, List.length_range] at hlength
    exact u32_eq_self_iff.1 hlength

/-- Bytes from the same place on are the same if there are as many. -/
theorem bytesAt_inj {host : ByteMem} {start len len' : ℕ} :
    bytesAt host start len = bytesAt host start len' ↔ len = len' := by
  refine ⟨fun h => ?_, congrArg _⟩
  simpa [bytesAt] using congrArg List.length h

/-- An operation that finds its objects placed leaves them placed. -/
theorem Buffers.after_opCallback (h : Buffers s.memories) {e : ByteMem × Operation}
    (hplaced : e.2.Placed s.memories) (hstep : opCallback env s e = some s') :
    Buffers s'.memories := by
  obtain ⟨device_mem, op⟩ := e
  have hsame : (addCtxNode s op).memories = s.memories := (sameHost_addCtxNode op).memories
  rw [← hsame] at h hplaced
  change typeCallback env device_mem (addCtxNode s op) op = some s' at hstep
  generalize addCtxNode s op = s₀ at h hplaced hstep
  rcases linked_typeCallback h.keyed hstep with ⟨memory, rfl, rfl⟩ | ⟨copy, rfl, s₁, h₁, h₂⟩ |
    ⟨-, -, hlinked⟩
  · -- The new object has buffers of its own.
    obtain ⟨⟨allocated, rfl⟩, hapart⟩ := hplaced
    have hfind : ∀ m memory, (memoryOpCallback device_mem s₀ allocated.toMemory).memories.find? m =
        some memory → s₀.memories.find? m = some memory ∨
          m = allocated.op_id ∧ memory = allocated.toMemory := by
      intro m memory hm
      simp only [memoryOpCallback, memories_updateOpNode, OrderedMap.find?_emplace] at hm
      split_ifs at hm with hid
      · cases hold : s₀.memories.find? allocated.op_id with
        | none =>
          rw [hold, Option.getD_none, Option.some.injEq] at hm
          exact .inr ⟨hid, hm.symm⟩
        | some old =>
          rw [hold, Option.getD_some, Option.some.injEq] at hm
          rw [hid, hold, hm]
          exact .inl rfl
      · exact .inl hm
    refine ⟨fun m memory hm => ?_, fun m memory hm hlt => ?_, ?_⟩
    · rcases hfind m memory hm with hm | ⟨rfl, rfl⟩
      · exact h.keyed m memory hm
      · rfl
    · rcases hfind m memory hm with hm | ⟨-, rfl⟩
      · exact h.allocated m memory hm hlt
      · exact ⟨allocated, rfl⟩
    · intro m memory m' memory' hm hlt hm' hlt' hne x hx hx'
      rcases hfind m memory hm with hm | ⟨rfl, rfl⟩
      · rcases hfind m' memory' hm' with hm' | ⟨rfl, rfl⟩
        · exact h.apart m memory m' memory' hm hlt hm' hlt' hne x hx hx'
        · exact hapart m memory hm hlt x hx hx'
      · rcases hfind m' memory' hm' with hm' | ⟨rfl, rfl⟩
        · exact hapart m' memory' hm' hlt' x hx' hx
        · exact hne rfl
  · rw [h₂.memories, h₁.memories]
    exact h
  · rw [hlinked.memories]
    exact h

/-- No memory is tracked at the start. -/
theorem untracked_init {host : ByteMem} {read_trace_ignore data_flow_hash : Bool} {m : ℕ}
    {memory : Memory}
    (h : (init host read_trace_ignore data_flow_hash).memories.find? m = some memory) :
    ¬REDSHOW_MEMORY_HOST < m := by
  have hmem := (OrderedMap.find?_eq_some_iff _ _ _).1 h
  have hall : ∀ e ∈ (init (fun _ => 0) false false).memories.toList,
      ¬REDSHOW_MEMORY_HOST < e.1 := by decide +kernel
  exact hall (m, memory) hmem

theorem buffers_init (host : ByteMem) (read_trace_ignore data_flow_hash : Bool) :
    Buffers (init host read_trace_ignore data_flow_hash).memories :=
  ⟨(tracked_init host read_trace_ignore data_flow_hash).keyed,
    fun _ _ hm hlt => absurd hlt (untracked_init hm),
    fun _ _ _ _ hm hlt => absurd hlt (untracked_init hm)⟩

/-- What is hashed for a kernel. -/
theorem hashesContent_kernel {op : Kernel} {trace : DataFlowTrace} (hbuffers : Buffers s.memories)
    (hupdated : Updated env device_mem op.ctx_id trace.write_memory.toList s s')
    (hhash : s.data_flow_hash = true) :
    HashesBytes env (.kernel op (some trace)) s s' ∧
      (HashesContent (.kernel op (some trace)) s' ↔
        CacheCurrent env device_mem s (.kernel op (some trace))) := by
  constructor
  · intro ctx_id hash
    rw [hupdated.node_hash hhash]
    refine or_congr_right (and_congr_right fun _ => ⟨?_, ?_⟩)
    · rintro ⟨e, he, memory, hm, hlt, heq⟩
      have hsome := (OrderedMap.find?_eq_some_iff _ _ _).2 he
      exact ⟨e.1, memory, ⟨by rw [hsome]; rfl, hlt⟩, hm, heq⟩
    · rintro ⟨m, memory, ⟨hsome, hlt⟩, hm, heq⟩
      obtain ⟨ranges, hranges⟩ := Option.isSome_iff_exists.1 hsome
      exact ⟨(m, ranges), (OrderedMap.find?_eq_some_iff _ _ _).1 hranges, memory, hm, hlt, heq⟩
  · -- The two buffers agree on the bytes written, and elsewhere the buffer `value` is unchanged.
    have hobject : ∀ m ranges memory, trace.write_memory.find? m = some ranges →
        s.memories.find? m = some memory → REDSHOW_MEMORY_HOST < m →
        (bytesAt s'.host memory.value_cache (u32 memory.len) = content s'.host memory ↔
          memory.len < 2^32 ∧ ∀ a, memory.memory_range.start ≤ a → a < memory.memory_range.stop →
            ¬Covered ranges.toList a → cachedByte env device_mem s.host memory ranges a =
              bufferByte s.host memory.value memory a) := by
      intro m ranges memory hranges hm hlt
      obtain ⟨allocated, rfl⟩ := hbuffers.allocated m memory hm hlt
      have hbytes := hupdated.buffers (m, ranges)
        ((OrderedMap.find?_eq_some_iff _ _ _).1 hranges) _ hm hlt
      refine bytesAt_eq_content_iff.trans (and_congr_right fun _ =>
        forall₃_congr fun a ha ha' => ?_)
      obtain ⟨hcache, hvalue⟩ := hbytes a ha ha'
      rw [hcache, hvalue]
      by_cases hcovered : Covered ranges.toList a
      · simp [hcovered]
      · simp [hcovered]
    constructor
    · intro h m ranges memory hranges hm hlt
      refine (hobject m ranges memory hranges hm hlt).1 (h m memory ⟨?_, hlt⟩ hlt ?_)
      · rw [hranges]
        rfl
      · rw [hupdated.memories, hm]
    · rintro h m memory ⟨hsome, -⟩ hlt hm
      obtain ⟨ranges, hranges⟩ := Option.isSome_iff_exists.1 hsome
      rw [hupdated.memories] at hm
      exact (hobject m ranges memory hranges hm hlt).2 (h m ranges memory hranges hm hlt)

/-- A memcpy hashes as many bytes as the object has, if it has any and they are not too many. -/
theorem hashesContent_memcpy {op : ShadowMemcpy} (hmemories : s'.memories = s.memories) :
    HashesContent (.memcpy op) s' ↔ CacheCurrent env device_mem s (.memcpy op) := by
  have hlen : ∀ memory : Memory, u32 (lenOf memory op) = memory.len ↔
      memory.len < 2^32 ∧ (memory.len = 0 → u32 op.len = 0) := by
    intro memory
    unfold lenOf
    split_ifs with hzero
    · rw [hzero]
      exact ⟨fun h => ⟨by decide, fun _ => h⟩, fun h => h.2 rfl⟩
    · rw [u32_eq_self_iff]
      exact ⟨fun h => ⟨h, fun hz => absurd hz hzero⟩, And.left⟩
  have hsink : REDSHOW_MEMORY_HOST < op.dst_memory_op_id → ¬op.IsSink := by
    intro hlt
    unfold ShadowMemcpy.IsSink REDSHOW_MEMORY_UVM
    unfold REDSHOW_MEMORY_HOST at hlt ⊢
    omega
  constructor
  · intro h memory hmemory hlt
    have hcontent := h _ memory ⟨rfl, hsink hlt⟩ hlt (by rw [hmemories, hmemory])
    simp only [Operation.hashed, if_neg (hsink hlt)] at hcontent
    exact (hlen memory).1 (bytesAt_inj.1 hcontent)
  · rintro h m memory ⟨rfl, hsink⟩ hlt hmemory
    rw [hmemories] at hmemory
    simp only [Operation.hashed, if_neg hsink]
    exact bytesAt_inj.2 ((hlen memory).2 (h memory hmemory hlt))

/-- A memset hashes the whole object if its length does not narrow. -/
theorem hashesContent_memset {op : ShadowMemset} (hmemories : s'.memories = s.memories) :
    HashesContent (.memset op) s' ↔ CacheCurrent env device_mem s (.memset op) := by
  constructor
  · intro h memory hmemory hlt
    have hcontent := h _ memory rfl hlt (by rw [hmemories, hmemory])
    exact u32_eq_self_iff.1 (bytesAt_inj.1 hcontent)
  · rintro h m memory rfl hlt hmemory
    rw [hmemories] at hmemory
    exact bytesAt_inj.2 (u32_of_lt (h memory hmemory hlt))

/-- What is hashed at the place of a memory. -/
theorem HashedAt.hashesBytes {op : Operation} {m start len : ℕ} {memory : Memory}
    (h : HashedAt env op.ctx_id start len s s') (hhash : s.data_flow_hash = true)
    (hmemory : s.memories.find? m = some memory) (honly : ∀ m', op.Hashes m' ↔ m' = m)
    (hbytes : op.hashed s'.host memory = bytesAt s'.host start (u32 len)) :
    HashesBytes env op s s' := by
  intro ctx_id hash
  rw [h.node_hash hhash]
  refine or_congr_right (and_congr_right fun _ => ⟨fun heq => ?_, ?_⟩)
  · exact ⟨m, memory, (honly m).2 rfl, hmemory, by rw [heq, hbytes]⟩
  · rintro ⟨m', memory', hm', hmemory', heq⟩
    rw [(honly m').1 hm', hmemory, Option.some.injEq] at hmemory'
    rw [heq, ← hmemory', hbytes]

/-- The hashes of one operation. -/
theorem hashesContent_of_step (hbuffers : Buffers s.memories) {e : ByteMem × Operation}
    (hplaced : e.2.Placed s.memories) (hhash : s.data_flow_hash = true)
    (hstep : opCallback env s e = some s') :
    s'.data_flow_hash = true ∧ HashesBytes env e.2 s s' ∧
      (HashesContent e.2 s' ↔ CacheCurrent env e.1 s e.2) := by
  obtain ⟨device_mem, op⟩ := e
  have hsame := @sameHost_addCtxNode s op
  change typeCallback env device_mem (addCtxNode s op) op = some s' at hstep
  have hcurrent : CacheCurrent env device_mem s op ↔
      CacheCurrent env device_mem (addCtxNode s op) op := by
    unfold CacheCurrent
    rw [hsame.memories, hsame.host]
  have hbytes : HashesBytes env op s s' ↔ HashesBytes env op (addCtxNode s op) s' := by
    unfold HashesBytes
    rw [hsame.node_hash, hsame.memories]
  rw [hcurrent, hbytes]
  rw [← hsame.memories] at hbuffers hplaced
  rw [← hsame.data_flow_hash] at hhash
  generalize addCtxNode s op = s₀ at hbuffers hplaced hhash hstep
  cases op with
  | memory memory =>
    cases hstep
    refine ⟨(sameHost_updateOpNode _ _).data_flow_hash.trans hhash, fun ctx_id hash => ?_,
      iff_of_true (fun m _ hm => absurd hm id) trivial⟩
    refine (iff_of_eq ?_).trans (or_iff_left ?_).symm
    · exact congrArg (fun hashes => hash ∈ (OrderedMap.findD hashes ctx_id ∅).elems)
        (sameHost_updateOpNode _ _).node_hash
    · rintro ⟨-, m, _, hm, -⟩
      exact hm
  | kernel op trace =>
    cases trace with
    | none =>
      cases hstep
      refine ⟨hhash, fun ctx_id hash => (or_iff_left ?_).symm,
        iff_of_true (fun m _ hm => absurd hm id) trivial⟩
      rintro ⟨-, m, _, hm, -⟩
      exact hm
    | some trace =>
      have hupdated := updated_kernelOpCallback hbuffers hplaced hstep
      exact ⟨hupdated.data_flow_hash.trans hhash, hashesContent_kernel hbuffers hupdated hhash⟩
  | memcpy op =>
    obtain ⟨memory, hmemory, hat⟩ := hashedAt_memcpyOpCallback hstep
    refine ⟨hat.data_flow_hash.trans hhash,
      HashedAt.hashesBytes hat hhash hmemory (fun _ => eq_comm) rfl,
      hashesContent_memcpy hat.memories⟩
  | memset op =>
    obtain ⟨memory, hmemory, hat⟩ := hashedAt_memsetOpCallback hstep
    exact ⟨hat.data_flow_hash.trans hhash,
      HashedAt.hashesBytes hat hhash hmemory (fun _ => eq_comm) rfl,
      hashesContent_memset hat.memories⟩
  | memfree op =>
    cases hstep
    refine ⟨hhash, fun ctx_id hash => (or_iff_left ?_).symm,
      iff_of_true (fun m _ hm => absurd hm id) trivial⟩
    rintro ⟨-, m, _, hm, -⟩
    exact hm

/-- In every run, an operation hashes the content of every object that it writes exactly if that has
fewer than `2^32` bytes and each byte which a kernel did not write is in the cache as it is in the
buffer `value`, and then objects with the same content have the same hash. -/
theorem hashesContent_iff {host : ByteMem} {read_trace_ignore : Bool}
    {es : List (ByteMem × Operation)} {e : ByteMem × Operation}
    (hplaced : AllSteps (opCallback env) (fun s e => e.2.Placed s.memories)
      (init host read_trace_ignore true) es)
    (hrun : run (opCallback env) (init host read_trace_ignore true) es = some s)
    (he : e.2.Placed s.memories) (hstep : opCallback env s e = some s') :
    HashesBytes env e.2 s s' ∧ (HashesContent e.2 s' ↔ CacheCurrent env e.1 s e.2) ∧
      (CacheCurrent env e.1 s e.2 → ∀ op s₁, HashesContent op s₁ → SameHash env e.2 s' op s₁) := by
  have hinv : Buffers s.memories ∧ s.data_flow_hash = true := by
    refine run_invariant (I := fun s => Buffers s.memories ∧ s.data_flow_hash = true)
      (fun s e s' hI hC h => ?_) ⟨buffers_init _ _ _, rfl⟩ hplaced hrun
    exact ⟨hI.1.after_opCallback hC h, (hashesContent_of_step hI.1 hC hI.2 h).1⟩
  obtain ⟨-, hbytes, hiff⟩ := hashesContent_of_step hinv.1 he hinv.2 hstep
  refine ⟨hbytes, hiff, fun hcurrent op s₁ hother => ?_⟩
  intro m memory m' memory' hw hlt hm hw' hlt' hm' hcontent
  rw [hiff.2 hcurrent m memory hw hlt hm, hother m' memory' hw' hlt' hm', hcontent]

end Callbacks

/-- A kernel that writes some bytes of the object of `smallObject`. -/
def writeKernel (start stop : ℕ) : Operation :=
  .kernel ⟨8, 2, 0, 0⟩ (some ⟨∅, OrderedMap.set ∅ 7 (OrderedMap.set ∅ start stop)⟩)

/-- The kernel finds the object placed. -/
theorem placed_writeKernel {memories : OrderedMap ℕ Memory} {start stop : ℕ}
    (hmemories : memories.find? 7 = some (smallObject 7 1)) (hstart : 7000 ≤ start)
    (hlt : start < stop) (hstop : stop ≤ 7008) : (writeKernel start stop).Placed memories := by
  intro m ranges memory hranges hmemory _
  rw [OrderedMap.find?_set] at hranges
  split_ifs at hranges with hm
  · subst hm
    obtain rfl := Option.some.inj hranges
    obtain rfl := Option.some.inj (hmemories.symm.trans hmemory)
    refine ⟨⟨OrderedMap.set ∅ start stop, by simp [OrderedMap.set], ?_, ?_, ?_⟩, rfl⟩
    · exact fun e he => by
        rw [List.mem_singleton.1 he]
        exact hlt
    · exact List.pairwise_singleton _ _
    · exact fun e he => by
        rw [List.mem_singleton.1 he]
        exact ⟨hstart, hstop⟩
  · simp at hranges

/-- The allocation of the object in the first context. -/
theorem placed_smallObject : AllSteps (opCallback plainEnv) (fun s e => e.2.Placed s.memories)
    (init (fun _ => 0) false true) [(fun _ => 1, .memory (smallObject 7 1))] :=
  ⟨⟨⟨⟨smallObject 7 1, by decide, by decide, by decide, by decide⟩, rfl⟩,
    fun _ _ hm hlt => absurd hlt (untracked_init hm)⟩, fun _ _ => trivial⟩

/-- A kernel that writes the whole object. -/
theorem hashesContent_wholeObject : ∃ s s',
    run (opCallback plainEnv) (init (fun _ => 0) false true)
        [(fun _ => 1, .memory (smallObject 7 1))] = some s ∧
      opCallback plainEnv s (fun _ => 2, writeKernel 7000 7008) = some s' ∧
      HashesContent (writeKernel 7000 7008) s' := by
  have hsome : ((run (opCallback plainEnv) (init (fun _ => 0) false true)
      [(fun _ => 1, .memory (smallObject 7 1))]).bind fun s =>
        if s.memories.find? 7 = some (smallObject 7 1) then
          opCallback plainEnv s (fun _ => 2, writeKernel 7000 7008) else none).isSome := by
    decide +kernel
  obtain ⟨s', hs'⟩ := Option.isSome_iff_exists.1 hsome
  obtain ⟨s, hrun, hs'⟩ := Option.bind_eq_some_iff.1 hs'
  split_ifs at hs' with hmemories
  have hkernel := placed_writeKernel hmemories le_rfl (by decide) le_rfl
  refine ⟨s, s', hrun, hs', ((hashesContent_iff placed_smallObject hrun hkernel hs').2.1).2 ?_⟩
  intro m ranges memory hranges hmemory _
  rw [OrderedMap.find?_set] at hranges
  split_ifs at hranges with hm
  · subst hm
    obtain rfl := Option.some.inj hranges
    obtain rfl := Option.some.inj (hmemories.symm.trans hmemory)
    -- No byte of the object is left out.
    refine ⟨by decide, fun a ha ha' hcovered => absurd ?_ hcovered⟩
    exact ⟨_, List.mem_singleton.2 rfl, ha, ha'⟩
  · simp at hranges

/-- The kernel writes half of an object of ones, and hashes what `new` left in the other half. -/
theorem not_hashesContent_half : ¬∀ (es : List (ByteMem × Operation)) (e : ByteMem × Operation)
    (s s' : DataFlow), AllSteps (opCallback plainEnv) (fun s e => e.2.Placed s.memories)
        (init (fun _ => 0) false true) es →
      run (opCallback plainEnv) (init (fun _ => 0) false true) es = some s →
      e.2.Placed s.memories → opCallback plainEnv s e = some s' → HashesContent e.2 s' := by
  intro hall
  have hsome : ((run (opCallback plainEnv) (init (fun _ => 0) false true)
      [(fun _ => 1, .memory (smallObject 7 1))]).bind fun s =>
        if s.memories.find? 7 = some (smallObject 7 1) then
          (opCallback plainEnv s (fun _ => 1, writeKernel 7000 7004)).bind fun s' =>
            if s'.memories.find? 7 = some (smallObject 7 1) then
              if (writeKernel 7000 7004).hashed s'.host (smallObject 7 1) =
                content s'.host (smallObject 7 1) then none else some ()
            else none
        else none).isSome := by
    decide +kernel
  obtain ⟨_, hs⟩ := Option.isSome_iff_exists.1 hsome
  obtain ⟨s, hrun, hs⟩ := Option.bind_eq_some_iff.1 hs
  split_ifs at hs with hmemories
  obtain ⟨s', hstep, hs⟩ := Option.bind_eq_some_iff.1 hs
  split_ifs at hs with hafter hcontent
  have hkernel := placed_writeKernel hmemories le_rfl (show 7000 < 7004 by decide) (by decide)
  exact hcontent (hall _ _ _ _ placed_smallObject hrun hkernel hstep 7 _ ⟨rfl, by decide⟩
    (by decide) hafter)

end TenProf.DataFlow
