import TenProf.MemoryLiveness.Accesses

/-!
# What the callbacks do

A callback other than that of an allocation accesses some objects one after the other
(`accesses_opCallback`), each of them once, unless it copies an object to itself: then it reads the
object and follows its own read (`hasEdge_of_selfCopy`). `Performed` says what every callback does
to the maps from which its operation is written.
-/

namespace TenProf.MemoryLiveness

open Dependencies
open GpuPatch (AddressDict AddressEntry)

variable {s s' : MemoryLiveness} {e : Callback}

/-- A copy of bytes of an object on the device to the same object. -/
def Callback.SelfCopy : Callback → Prop
  | .memcpy op =>
    op.src_memory_op_id = op.dst_memory_op_id ∧ op.src_memory_op_id ≠ REDSHOW_MEMORY_HOST
  | _ => False

instance : DecidablePred Callback.SelfCopy := fun e => by
  cases e <;> unfold Callback.SelfCopy <;> infer_instance

/-- The dictionary says that the object was accessed. -/
def accessedEntry (entry : AddressEntry) : Prop :=
  entry.hit = 1 ∧ (entry.write = 1 ∨ entry.read = 1)

instance : DecidablePred accessedEntry := fun entry =>
  inferInstanceAs (Decidable (entry.hit = 1 ∧ (entry.write = 1 ∨ entry.read = 1)))

/-- The operation accesses an object, so that it has a node in the dependency graph. -/
def Callback.InGraph : Callback → Prop
  | .memory _ => True
  | .memfree _ => True
  | .kernel _ none => False
  | .kernel _ (some aux) => ∃ entry ∈ aux.entries, accessedEntry entry
  | .memcpy op =>
    op.src_memory_op_id ≠ REDSHOW_MEMORY_HOST ∨ op.dst_memory_op_id ≠ REDSHOW_MEMORY_HOST
  | .memset _ => True

instance : DecidablePred Callback.InGraph := fun e => by
  rcases e with _ | _ | ⟨_, _ | _⟩ | _ | _ <;> unfold Callback.InGraph <;> infer_instance

/-- The calling context of the operation. -/
def Callback.ctx_id : Callback → ℤ
  | memory op => op.ctx_id
  | memfree op => op.ctx_id
  | kernel op _ => op.ctx_id
  | memcpy op => op.ctx_id
  | memset op => op.ctx_id

/-! ## The members that the callbacks keep -/

/-- The maps from addresses to objects, from operations to contexts, and from contexts to types are
the same. -/
structure SameMaps (s s' : MemoryLiveness) : Prop where
  addresses_map : s'.addresses_map = s.addresses_map
  op_node : s'.op_node = s.op_node
  ctx_node : s'.ctx_node = s.ctx_node

/-- `update_aux_hit` registers operations, and keeps the graph and the maps. -/
theorem updateAuxHit_frame {aux : AddressDict} {op_id : ℕ}
    (h : s.updateAuxHit aux op_id = some s') : s'.deps = s.deps ∧ SameMaps s s' := by
  unfold updateAuxHit at h
  obtain ⟨res, hres, rfl⟩ := Option.map_eq_some_iff.1 h
  -- Every turn of the loop keeps them.
  have hloop : res.1.deps = s.deps ∧ SameMaps s res.1 := by
    refine foldlM_invariant (I := fun r => r.1.deps = s.deps ∧ SameMaps s r.1) ?_
      ⟨rfl, rfl, rfl, rfl⟩ hres
    rintro r entry r' ⟨hdeps, hmaps⟩ _ hturn
    unfold auxHit at hturn
    split_ifs at hturn with hhit
    · simp only [Option.bind_eq_some_iff, Option.map_eq_some_iff] at hturn
      obtain ⟨memory_op_id, -, memory, -, rfl⟩ := hturn
      exact ⟨hdeps, hmaps.addresses_map, hmaps.op_node, hmaps.ctx_node⟩
    · rw [← Option.some.inj hturn]
      exact ⟨hdeps, hmaps⟩
  obtain ⟨hdeps, hmaps⟩ := hloop
  split_ifs
  · exact ⟨hdeps, hmaps.addresses_map, hmaps.op_node, hmaps.ctx_node⟩
  · exact ⟨hdeps, hmaps⟩

/-- `analysis_begin` keeps the maps, and the graph is that of `update_graph_at_kernel`. -/
theorem analysisBegin_cases {aux : Option AddressDict} {op_id stream_id : ℕ}
    (h : s.analysisBegin op_id stream_id aux = some s') : SameMaps s s' ∧
      (aux = none ∧ s'.deps = s.deps ∨ ∃ dict, aux = some dict ∧
        dict.entries.foldlM (graphAtEntry s.addresses_map op_id stream_id) s.deps =
          some s'.deps) := by
  unfold analysisBegin at h
  cases aux with
  | none =>
    rw [← Option.some.inj h]
    exact ⟨⟨rfl, rfl, rfl⟩, .inl ⟨rfl, rfl⟩⟩
  | some dict =>
    obtain ⟨s₁, h₁, h₂⟩ := Option.bind_eq_some_iff.1 h
    obtain ⟨hdeps, hmaps⟩ := updateAuxHit_frame h₁
    unfold updateGraphAtKernel at h₂
    obtain ⟨deps, hfold, rfl⟩ := Option.map_eq_some_iff.1 h₂
    rw [hdeps, hmaps.addresses_map] at hfold
    exact ⟨⟨hmaps.addresses_map, hmaps.op_node, hmaps.ctx_node⟩, .inr ⟨dict, rfl, hfold⟩⟩

/-! ## The accesses of a callback -/

/-- The map from addresses to objects has no object twice. -/
def AddressesInjective (s : MemoryLiveness) : Prop :=
  ∀ a a' obj, s.addresses_map.find? a = some obj → s.addresses_map.find? a' = some obj → a = a'

/-- The access builder makes one access. -/
theorem accesses_updateGraphAtAccess {d d' : Dependencies} {op stream_id obj : ℕ}
    {op_type : MemoryOperation} {access_type : AccessType}
    (h : d.updateGraphAtAccess op op_type stream_id obj access_type = some d') :
    Accesses op d [obj] d' := by
  obtain ⟨owner, readers, haccess⟩ := accessed_updateGraphAtAccess h
  exact .single haccess fun i hne _ => hne

/-- A kernel accesses the objects that its dictionary marks, each once. -/
theorem accesses_foldlM_graphAtEntry {addresses_map : OrderedMap ℕ ℕ} {op stream_id : ℕ}
    (hinj : ∀ a a' obj, addresses_map.find? a = some obj → addresses_map.find? a' = some obj →
      a = a') {entries : List AddressEntry} {d d' : Dependencies}
    (hnodup : (entries.map fun entry => entry.start_end.start).Nodup)
    (h : entries.foldlM (graphAtEntry addresses_map op stream_id) d = some d') :
    ∃ objs, Accesses op d objs d' ∧ objs.Nodup ∧
      (∀ obj ∈ objs, ∃ entry ∈ entries, addresses_map.find? entry.start_end.start = some obj) ∧
      (objs ≠ [] ↔ ∃ entry ∈ entries, accessedEntry entry) := by
  induction entries generalizing d with
  | nil =>
    cases h
    exact ⟨[], .nil _, List.nodup_nil, by simp, by simp⟩
  | cons entry entries ih =>
    obtain ⟨d₁, h₁, hrest⟩ := Option.bind_eq_some_iff.1 h
    obtain ⟨hfirst, hnodup⟩ := List.nodup_cons.1 hnodup
    obtain ⟨objs, haccesses, hobjs, hfound, hne⟩ := ih hnodup hrest
    have hlater : ∀ obj ∈ objs, ∃ entry' ∈ entry :: entries,
        addresses_map.find? entry'.start_end.start = some obj := fun obj hobj => by
      obtain ⟨entry', hmem, hat⟩ := hfound obj hobj
      exact ⟨entry', List.mem_cons_of_mem _ hmem, hat⟩
    -- Either the entry makes an access to an object of its own, or it makes none.
    have hturn : (∃ obj, addresses_map.find? entry.start_end.start = some obj ∧
        Accesses op d [obj] d₁ ∧ accessedEntry entry) ∨ d₁ = d ∧ ¬accessedEntry entry := by
      unfold graphAtEntry at h₁
      split_ifs at h₁ with hhit hwrite hread
      · obtain ⟨obj, hat, h₁⟩ := Option.bind_eq_some_iff.1 h₁
        exact .inl ⟨obj, hat, accesses_updateGraphAtAccess h₁, hhit, .inl hwrite⟩
      · obtain ⟨obj, hat, h₁⟩ := Option.bind_eq_some_iff.1 h₁
        exact .inl ⟨obj, hat, accesses_updateGraphAtAccess h₁, hhit, .inr hread⟩
      · obtain ⟨obj, -, h₁⟩ := Option.bind_eq_some_iff.1 h₁
        exact .inr ⟨(Option.some.inj h₁).symm, fun hacc => hacc.2.elim hwrite hread⟩
      · exact .inr ⟨(Option.some.inj h₁).symm, fun hacc => hhit hacc.1⟩
    rcases hturn with ⟨obj, hat, haccess, hentry⟩ | ⟨rfl, hentry⟩
    · refine ⟨obj :: objs, haccess.append haccesses, ?_, ?_, ?_⟩
      · refine List.nodup_cons.2 ⟨fun hobj => hfirst ?_, hobjs⟩
        obtain ⟨entry', hmem, hat'⟩ := hfound obj hobj
        exact List.mem_map.2 ⟨entry', hmem, hinj _ _ obj hat' hat⟩
      · exact List.forall_mem_cons.2 ⟨⟨entry, List.mem_cons_self, hat⟩, hlater⟩
      · exact iff_of_true (by simp) ⟨entry, List.mem_cons_self, hentry⟩
    · refine ⟨objs, haccesses, hobjs, hlater, ?_⟩
      rw [hne]
      simp [hentry]

/-- The contexts that have a type keep one, and types that are new have a name. -/
structure Typed (m m' : OrderedMap ℤ MemoryOperation) : Prop where
  kept : ∀ ctx_id, (m.find? ctx_id).isSome → (m'.find? ctx_id).isSome
  named : ∀ ctx_id op_type, m'.find? ctx_id = some op_type →
    m.find? ctx_id = some op_type ∨ (opName op_type).isSome

/-- Nothing changes. -/
theorem Typed.refl (m : OrderedMap ℤ MemoryOperation) : Typed m m :=
  ⟨fun _ h => h, fun _ _ h => .inl h⟩

/-- Two steps one after the other. -/
theorem Typed.trans {m₁ m₂ m₃ : OrderedMap ℤ MemoryOperation} (h : Typed m₁ m₂)
    (h' : Typed m₂ m₃) : Typed m₁ m₃ := by
  constructor
  · exact fun k hk => h'.kept k (h.kept k hk)
  · intro k t hk
    rcases h'.named k t hk with hk | hname
    · exact h.named k t hk
    · exact .inr hname

/-- A context that gets a type. -/
theorem typed_emplace (m : OrderedMap ℤ MemoryOperation) (ctx_id : ℤ) {op_type : MemoryOperation}
    (hname : (opName op_type).isSome) :
    Typed m (m.emplace ctx_id op_type) ∧ ((m.emplace ctx_id op_type).find? ctx_id).isSome := by
  refine ⟨⟨fun k hk => ?_, fun k t hk => ?_⟩, ?_⟩
  · rw [OrderedMap.find?_emplace]
    split_ifs
    · rfl
    · exact hk
  · rw [OrderedMap.find?_emplace] at hk
    split_ifs at hk with heq
    · rw [heq]
      cases hm : m.find? ctx_id with
      | none =>
        rw [hm, Option.getD_none, Option.some.injEq] at hk
        exact .inr (by rwa [← hk])
      | some t' =>
        rw [hm, Option.getD_some] at hk
        exact .inl hk
    · exact .inl hk
  · rw [OrderedMap.find?_emplace, if_pos rfl]
    rfl

/-- What a part of a copy does: it accesses its object and gives the context a type, unless the
object is the host. -/
structure Copied (s : MemoryLiveness) (op_id : ℕ) (ctx_id : ℤ) (obj : ℕ)
    (access : Dependencies → Option Dependencies) (s' : MemoryLiveness) : Prop where
  addresses_map : s'.addresses_map = s.addresses_map
  op_node : s'.op_node = s.op_node
  typed : Typed s.ctx_node s'.ctx_node
  cases : obj = REDSHOW_MEMORY_HOST ∧ s'.deps = s.deps ∨ obj ≠ REDSHOW_MEMORY_HOST ∧
    access s.deps = some s'.deps ∧ (s'.ctx_node.find? ctx_id).isSome

/-- A part of a copy. -/
theorem copied_copyAccess {op_id stream_id obj : ℕ} {ctx_id : ℤ} {op_type : MemoryOperation}
    {access_type : AccessType} (hname : (opName op_type).isSome)
    (h : s.copyAccess op_id ctx_id op_type stream_id obj access_type = some s') :
    Copied s op_id ctx_id obj
      (fun d => d.updateGraphAtAccess op_id op_type stream_id obj access_type) s' := by
  unfold copyAccess at h
  split_ifs at h with hhost
  · obtain ⟨htyped, hself⟩ := typed_emplace s.ctx_node ctx_id hname
    obtain ⟨deps, hdeps, rfl⟩ := Option.map_eq_some_iff.1 h
    exact ⟨rfl, rfl, htyped, .inr ⟨hhost, hdeps, hself⟩⟩
  · rw [← Option.some.inj h]
    exact ⟨rfl, rfl, Typed.refl _, .inl ⟨not_not.1 hhost, rfl⟩⟩

/-- What a callback does to the maps: the operation gets its calling context, which gets a type, and
the only address that may be new is that of an allocation. -/
structure Performed (s : MemoryLiveness) (e : Callback) (s' : MemoryLiveness) : Prop where
  op_node : s'.op_node = (s.updateOpNode e.op_id e.ctx_id).op_node
  typed : Typed s.ctx_node s'.ctx_node
  ctx_inGraph : e.InGraph → (s'.ctx_node.find? e.ctx_id).isSome
  address : ∀ a obj, s'.addresses_map.find? a = some obj → s.addresses_map.find? a = some obj ∨
    ∃ op, e = .memory op ∧ a = op.memory_range.start ∧ obj = op.op_id

/-- A callback that gives its context one type. -/
theorem performed_of_emplace (op_type : MemoryOperation) (hname : (opName op_type).isSome)
    (hop : s'.op_node = (s.updateOpNode e.op_id e.ctx_id).op_node)
    (hctx : s'.ctx_node = s.ctx_node.emplace e.ctx_id op_type)
    (haddress : ∀ a obj, s'.addresses_map.find? a = some obj →
      s.addresses_map.find? a = some obj ∨
        ∃ op, e = .memory op ∧ a = op.memory_range.start ∧ obj = op.op_id) :
    Performed s e s' := by
  obtain ⟨htyped, hself⟩ := typed_emplace s.ctx_node e.ctx_id hname
  rw [← hctx] at htyped hself
  exact ⟨hop, htyped, fun _ => hself, haddress⟩

/-- `memory_op_callback`. -/
theorem performed_memory (op : Memory) : Performed s (.memory op) (s.memoryOpCallback op) := by
  refine performed_of_emplace .REDSHOW_MEMORY_ALLOC rfl rfl rfl fun a obj ha => ?_
  -- The address of the allocation may be new.
  have hmap : (s.memoryOpCallback op).addresses_map =
      s.addresses_map.emplace op.memory_range.start op.op_id := rfl
  rw [hmap, OrderedMap.find?_emplace] at ha
  split_ifs at ha with heq
  · rw [heq]
    cases hm : s.addresses_map.find? op.memory_range.start with
    | none =>
      rw [hm, Option.getD_none, Option.some.injEq] at ha
      exact .inr ⟨op, rfl, rfl, ha.symm⟩
    | some obj' =>
      rw [hm, Option.getD_some] at ha
      exact .inl ha
  · exact .inl ha

/-- `memfree_op_callback`. -/
theorem performed_memfree {op : Memfree} (h : s.memfreeOpCallback op = some s') :
    Performed s (.memfree op) s' := by
  unfold memfreeOpCallback at h
  simp only [Option.bind_eq_some_iff, Option.map_eq_some_iff] at h
  obtain ⟨malloc_op_id, -, deps, -, rfl⟩ := h
  refine performed_of_emplace .REDSHOW_MEMORY_FREE rfl rfl rfl fun a obj ha => .inl ?_
  have ha : (s.addresses_map.erase op.memory_range.start).find? a = some obj := ha
  rw [OrderedMap.find?_erase] at ha
  split_ifs at ha
  exact ha

/-- The callback of a kernel, after `analysis_begin`. -/
theorem performed_kernel {op : Kernel} {aux : Option AddressDict}
    (h : (s.analysisBegin op.op_id op.stream_id aux).map (·.kernelOpCallback op) = some s') :
    Performed s (.kernel op aux) s' := by
  obtain ⟨s₁, h₁, rfl⟩ := Option.map_eq_some_iff.1 h
  obtain ⟨hmaps, -⟩ := analysisBegin_cases h₁
  refine performed_of_emplace .REDSHOW_MEMORY_ACCESS rfl ?_ ?_ fun a obj ha => .inl ?_
  · unfold kernelOpCallback updateCtxNode updateOpNode
    simp only [hmaps.op_node]
    rfl
  · unfold kernelOpCallback updateCtxNode updateOpNode
    simp only [hmaps.ctx_node]
    rfl
  · rw [← hmaps.addresses_map]
    exact ha

/-- `memcpy_op_callback`. -/
theorem performed_memcpy {op : Memcpy} (h : s.memcpyOpCallback op = some s') :
    Performed s (.memcpy op) s' := by
  obtain ⟨s₁, h₁, h₂⟩ := Option.bind_eq_some_iff.1 h
  have hsrc := copied_copyAccess rfl h₁
  have hdst := copied_copyAccess rfl h₂
  constructor
  · rw [hdst.op_node, hsrc.op_node]
    rfl
  · exact hsrc.typed.trans hdst.typed
  · rintro (hhost | hhost)
    · rcases hsrc.cases with ⟨hobj, -⟩ | ⟨-, -, hself⟩
      · exact absurd hobj hhost
      · exact hdst.typed.kept _ hself
    · rcases hdst.cases with ⟨hobj, -⟩ | ⟨-, -, hself⟩
      · exact absurd hobj hhost
      · exact hself
  · intro a obj ha
    rw [hdst.addresses_map, hsrc.addresses_map] at ha
    exact .inl ha

/-- `memset_op_callback`. -/
theorem performed_memset {op : Memset} (h : s.memsetOpCallback op = some s') :
    Performed s (.memset op) s' := by
  obtain ⟨deps, -, rfl⟩ := Option.map_eq_some_iff.1 h
  exact performed_of_emplace .REDSHOW_MEMORY_SET rfl rfl rfl fun a obj ha => .inl ha

/-- Every callback keeps the contexts, the types and the addresses in step. -/
theorem performed_opCallback (h : s.opCallback e = some s') : Performed s e s' := by
  cases e with
  | memory op =>
    rw [← Option.some.inj h]
    exact performed_memory op
  | memfree op => exact performed_memfree h
  | kernel op aux => exact performed_kernel h
  | memcpy op => exact performed_memcpy h
  | memset op => exact performed_memset h

/-- Every callback but that of an allocation makes accesses, to pairwise different objects unless it
copies an object to itself. -/
theorem accesses_opCallback (hfresh : ∀ st, s.deps.stream_ownership_map.find? st ≠ some e.op_id)
    (hinj : s.AddressesInjective) (hmem : ∀ op, e ≠ .memory op) (h : s.opCallback e = some s') :
    ∃ objs, Accesses e.op_id s.deps objs s'.deps ∧ (¬e.SelfCopy → objs.Nodup) ∧
      (objs ≠ [] ↔ e.InGraph) := by
  cases e with
  | memory op => exact absurd rfl (hmem op)
  | memfree op =>
    unfold opCallback memfreeOpCallback at h
    simp only [Option.bind_eq_some_iff, Option.map_eq_some_iff] at h
    obtain ⟨malloc_op_id, -, deps, hdeps, rfl⟩ := h
    obtain ⟨owner, readers, haccess⟩ := accessed_updateGraphAtFree hdeps
    refine ⟨[malloc_op_id], .single haccess ?_, fun _ => List.nodup_singleton _,
      iff_of_true (by simp) trivial⟩
    rintro i - hi rfl
    exact hfresh _ hi
  | kernel op aux =>
    obtain ⟨s₁, h₁, rfl⟩ := Option.map_eq_some_iff.1 h
    obtain ⟨-, ⟨rfl, hdeps⟩ | ⟨dict, rfl, hfold⟩⟩ := analysisBegin_cases h₁
    · refine ⟨[], ?_, fun _ => List.nodup_nil, iff_of_false (by simp) id⟩
      have hsame : (s₁.kernelOpCallback op).deps = s.deps := hdeps
      rw [hsame]
      exact .nil _
    · obtain ⟨objs, haccesses, hnodup, -, hne⟩ :=
        accesses_foldlM_graphAtEntry hinj dict.distinct hfold
      exact ⟨objs, haccesses, fun _ => hnodup, hne⟩
  | memcpy op =>
    obtain ⟨s₁, h₁, h₂⟩ := Option.bind_eq_some_iff.1 h
    have hsrc := (copied_copyAccess rfl h₁).cases
    have hdst := (copied_copyAccess rfl h₂).cases
    rcases hsrc with ⟨hsrc, hdeps₁⟩ | ⟨hsrc, hdeps₁, -⟩ <;>
      rcases hdst with ⟨hdst, hdeps₂⟩ | ⟨hdst, hdeps₂, -⟩
    · refine ⟨[], ?_, fun _ => List.nodup_nil, iff_of_false (by simp) ?_⟩
      · rw [hdeps₂, hdeps₁]
        exact .nil _
      · exact not_or.2 ⟨not_not.2 hsrc, not_not.2 hdst⟩
    · rw [hdeps₁] at hdeps₂
      exact ⟨_, accesses_updateGraphAtAccess hdeps₂, fun _ => List.nodup_singleton _,
        iff_of_true (by simp) (.inr hdst)⟩
    · rw [← hdeps₂] at hdeps₁
      exact ⟨_, accesses_updateGraphAtAccess hdeps₁, fun _ => List.nodup_singleton _,
        iff_of_true (by simp) (.inl hsrc)⟩
    · refine ⟨_, (accesses_updateGraphAtAccess hdeps₁).append
        (accesses_updateGraphAtAccess hdeps₂), fun hself => ?_, iff_of_true (by simp) (.inl hsrc)⟩
      have hne : op.src_memory_op_id ≠ op.dst_memory_op_id := fun heq => hself ⟨heq, hsrc⟩
      simp [hne]
  | memset op =>
    obtain ⟨deps, hdeps, rfl⟩ := Option.map_eq_some_iff.1 h
    exact ⟨_, accesses_updateGraphAtAccess hdeps, fun _ => List.nodup_singleton _,
      iff_of_true (by simp) trivial⟩

/-- A copy from an object to itself makes an edge from the operation to itself. -/
theorem hasEdge_of_selfCopy (hself : e.SelfCopy) (h : s.opCallback e = some s') :
    s'.deps.graph.hasEdge ⟨e.op_id, e.op_id, .DATA_DEPENDENCY⟩ := by
  cases e with
  | memcpy op =>
    obtain ⟨s₁, h₁, h₂⟩ := Option.bind_eq_some_iff.1 h
    obtain ⟨hobj, hsrc⟩ := hself
    have hdst : op.dst_memory_op_id ≠ REDSHOW_MEMORY_HOST := hobj ▸ hsrc
    rcases (copied_copyAccess rfl h₁).cases with ⟨hhost, -⟩ | ⟨-, hdeps₁, -⟩
    · exact absurd hhost hsrc
    rcases (copied_copyAccess rfl h₂).cases with ⟨hhost, -⟩ | ⟨-, hdeps₂, -⟩
    · exact absurd hhost hdst
    -- The read puts the operation into the list of readers, which the write follows.
    obtain ⟨owner₁, readers₁, hread⟩ := accessed_updateGraphAtAccess hdeps₁
    obtain ⟨owner₂, readers₂, hwrite⟩ := accessed_updateGraphAtAccess hdeps₂
    have hreaders : readers₂ = readers₁ ++ [op.op_id] := by
      have hfind := hwrite.readers_eq
      rw [hread.readers, if_pos hobj.symm, Option.some.injEq] at hfind
      exact hfind.symm
    refine (hwrite.grows.hasEdge_iff _).2 (.inr ⟨rfl, .inr ⟨rfl, ?_⟩⟩)
    rw [hreaders]
    simp [followed, Callback.op_id]
  | _ => exact absurd hself id

end TenProf.MemoryLiveness
