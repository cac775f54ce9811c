import TenProf.Library.Runs
import TenProf.MemoryLiveness.Builders

/-!
# The data dependencies order the operations on every object

The builders of the dependency graph remember, for each object, its owner, which is the last
operation that wrote it, and the operations that have read it since. A read follows the owner; a
write follows the readers, or the owner when there are none, and takes its place. The invariant
`History` says what this means for everything that has been done to the object: each of its
operations is the owner, leads to the owner, or is one of the readers, which the owner leads to. So
two operations of which one writes are joined by a path of data dependencies
(`pairwise_dataPath`).
-/

namespace TenProf.MemoryLiveness

/-- A call of one of the builders, for an operation and an object. -/
inductive GraphUpdate
  | malloc (op_id stream_id : ℕ)
  | access (op_id : ℕ) (op_type : MemoryOperation) (stream_id obj_op_id : ℕ)
    (access_type : AccessType)
  | free (op_id stream_id memory_op_id : ℕ)
  deriving DecidableEq, Repr

namespace GraphUpdate

/-- The operation. -/
def op_id : GraphUpdate → ℕ
  | malloc op_id _ => op_id
  | access op_id _ _ _ _ => op_id
  | free op_id _ _ => op_id

/-- The object, which an allocation makes under its own id. -/
def obj_op_id : GraphUpdate → ℕ
  | malloc op_id _ => op_id
  | access _ _ _ obj_op_id _ => obj_op_id
  | free _ _ memory_op_id => memory_op_id

/-- The operation is the allocation, a write, or the release of the object. -/
def Writes : GraphUpdate → Prop
  | malloc _ _ => True
  | access _ _ _ _ access_type => access_type = .WRITE
  | free _ _ _ => True

end GraphUpdate

namespace Dependencies

/-- The members after a call of a builder. An allocation also gets its list of readers, as in its
callback. -/
def update (d : Dependencies) : GraphUpdate → Option Dependencies
  | .malloc op_id stream_id =>
    let d := d.updateGraphAtMalloc op_id stream_id .REDSHOW_MEMORY_ALLOC
    some { d with read_nodes := d.read_nodes.emplace op_id [] }
  | .access op_id op_type stream_id obj_op_id access_type =>
    d.updateGraphAtAccess op_id op_type stream_id obj_op_id access_type
  | .free op_id stream_id memory_op_id =>
    d.updateGraphAtFree op_id stream_id memory_op_id .REDSHOW_MEMORY_FREE

/-- A directed path of data dependencies leads from one operation to another. -/
def DataPath (d : Dependencies) : ℕ → ℕ → Prop :=
  Relation.TransGen fun a b => d.graph.hasEdge ⟨a, b, .DATA_DEPENDENCY⟩

variable {d d' : Dependencies} {op stream_id obj : ℕ} {access_type : AccessType}
  {link : ℕ → Prop} {owner : ℕ} {readers : List ℕ} {us : List GraphUpdate} {u : GraphUpdate}

/-- Paths stay when the graph grows. -/
theorem DataPath.grows {P : EdgeType → ℕ → Prop} (hg : Grows d.graph op P d'.graph) {a b : ℕ}
    (h : d.DataPath a b) : d'.DataPath a b :=
  h.lift id fun _ _ he => hg.hasEdge he

/-- An access is reached from the operations that it follows. -/
theorem Accessed.dataPath (h : Accessed d op stream_id obj access_type link owner readers d')
    {i : ℕ} (hi : i ∈ followed access_type owner readers) : d'.DataPath i op :=
  .single ((h.grows.hasEdge_iff _).2 (.inr ⟨rfl, .inr ⟨rfl, hi⟩⟩))

/-- How the operations `us` on an object, in their order, stand to its owner and its readers. -/
structure History (d : Dependencies) (obj : ℕ) (us : List GraphUpdate) : Prop where
  ordered : us.Pairwise fun a b => a.Writes ∨ b.Writes → d.DataPath a.op_id b.op_id
  reaches_owner : ∀ owner readers, d.obj_ownership_map.find? obj = some owner →
    d.read_nodes.find? obj = some readers → ∀ a ∈ us,
      a.op_id = owner ∨ d.DataPath a.op_id owner ∨ a.op_id ∈ readers ∧ ¬a.Writes
  owner_reaches : ∀ owner readers, d.obj_ownership_map.find? obj = some owner →
    d.read_nodes.find? obj = some readers → ∀ r ∈ readers, d.DataPath owner r
  allocated : us = [] ∧ d.obj_ownership_map.find? obj = none ∧ d.read_nodes.find? obj = none ∨
    ∃ a ∈ us, a.op_id = obj

namespace History

/-- An update for another object leaves the history as it is. -/
theorem frame {P : EdgeType → ℕ → Prop} (h : History d obj us) (hg : Grows d.graph op P d'.graph)
    (howner : d'.obj_ownership_map.find? obj = d.obj_ownership_map.find? obj)
    (hreaders : d'.read_nodes.find? obj = d.read_nodes.find? obj) : History d' obj us := by
  constructor
  · exact h.ordered.imp fun hab hw => (hab hw).grows hg
  · intro owner readers ho hr a ha
    rw [howner] at ho
    rw [hreaders] at hr
    rcases h.reaches_owner owner readers ho hr a ha with hown | hpath | hread
    · exact .inl hown
    · exact .inr (.inl (hpath.grows hg))
    · exact .inr (.inr hread)
  · intro owner readers ho hr r hmem
    rw [howner] at ho
    rw [hreaders] at hr
    exact (h.owner_reaches owner readers ho hr r hmem).grows hg
  · rw [howner, hreaders]
    exact h.allocated

/-- All operations on an object lead to an operation that writes it next. -/
theorem dataPath_write (h : History d obj us)
    (hacc : Accessed d op stream_id obj .WRITE link owner readers d') {a : GraphUpdate}
    (ha : a ∈ us) : d'.DataPath a.op_id op := by
  -- The owner leads to the operation, directly or through any of the readers.
  have howner : d'.DataPath owner op := by
    cases readers with
    | nil => exact hacc.dataPath List.mem_cons_self
    | cons r rs =>
      have hfirst := h.owner_reaches owner _ hacc.owner_eq hacc.readers_eq r List.mem_cons_self
      exact (hfirst.grows hacc.grows).trans (hacc.dataPath List.mem_cons_self)
  rcases h.reaches_owner owner readers hacc.owner_eq hacc.readers_eq a ha with hown | hpath | hread
  · rw [hown]
    exact howner
  · exact (hpath.grows hacc.grows).trans howner
  · apply hacc.dataPath
    unfold followed
    split_ifs with hempty
    · rw [List.isEmpty_iff.1 hempty] at hread
      exact absurd hread.1 List.not_mem_nil
    · exact hread.1

/-- All operations that wrote an object lead to an operation that reads it next. -/
theorem dataPath_read (h : History d obj us)
    (hacc : Accessed d op stream_id obj .READ link owner readers d') {a : GraphUpdate}
    (ha : a ∈ us) (hw : a.Writes) : d'.DataPath a.op_id op := by
  have howner : d'.DataPath owner op := hacc.dataPath List.mem_cons_self
  rcases h.reaches_owner owner readers hacc.owner_eq hacc.readers_eq a ha with hown | hpath | hread
  · rw [hown]
    exact howner
  · exact (hpath.grows hacc.grows).trans howner
  · exact absurd hw hread.2

/-- An object with an owner has been allocated. -/
theorem allocated_of_accessed (h : History d obj us)
    (hacc : Accessed d op stream_id obj access_type link owner readers d') :
    ∃ a ∈ us, a.op_id = obj := by
  rcases h.allocated with ⟨-, hnone, -⟩ | hmem
  · rw [hacc.owner_eq] at hnone
    exact absurd hnone (by simp)
  · exact hmem

/-- The owner of an object after an access is the one that the access makes. -/
theorem eq_ownerAfter {access_type : AccessType}
    (hacc : Accessed d op stream_id obj access_type link owner readers d') {owner' : ℕ}
    (ho : d'.obj_ownership_map.find? obj = some owner') :
    owner' = ownerAfter access_type owner op := by
  rw [hacc.owner, if_pos rfl, Option.some.injEq] at ho
  exact ho.symm

/-- The readers of an object after an access are those that the access leaves. -/
theorem eq_readersAfter {access_type : AccessType}
    (hacc : Accessed d op stream_id obj access_type link owner readers d') {readers' : List ℕ}
    (hr : d'.read_nodes.find? obj = some readers') :
    readers' = readersAfter access_type readers op := by
  rw [hacc.readers, if_pos rfl, Option.some.injEq] at hr
  exact hr.symm

/-- The history after a write or a release. -/
theorem write (h : History d obj us) (hop : u.op_id = op)
    (hacc : Accessed d op stream_id obj .WRITE link owner readers d') :
    History d' obj (us ++ [u]) := by
  have hpath : ∀ a ∈ us, d'.DataPath a.op_id u.op_id := fun a ha => by
    rw [hop]
    exact h.dataPath_write hacc ha
  have howner : ∀ owner', d'.obj_ownership_map.find? obj = some owner' → owner' = op :=
    fun _ ho => eq_ownerAfter hacc ho
  have hreaders : ∀ readers', d'.read_nodes.find? obj = some readers' → readers' = [] :=
    fun _ hr => eq_readersAfter hacc hr
  constructor
  · refine List.pairwise_append.2 ⟨?_, List.pairwise_singleton _ _, ?_⟩
    · exact h.ordered.imp fun hab hw => (hab hw).grows hacc.grows
    · rintro a ha b hb -
      rw [List.mem_singleton.1 hb]
      exact hpath a ha
  · intro owner' readers' ho hr a ha
    rw [howner owner' ho]
    rcases List.mem_append.1 ha with ha | ha
    · rw [← hop]
      exact .inr (.inl (hpath a ha))
    · rw [List.mem_singleton.1 ha]
      exact .inl hop
  · intro owner' readers' ho hr r hmem
    rw [hreaders readers' hr] at hmem
    exact absurd hmem List.not_mem_nil
  · obtain ⟨a, ha, hobj⟩ := h.allocated_of_accessed hacc
    exact .inr ⟨a, List.mem_append_left _ ha, hobj⟩

/-- The history after a read. -/
theorem read (h : History d obj us) (hop : u.op_id = op) (hw : ¬u.Writes)
    (hacc : Accessed d op stream_id obj .READ link owner readers d') :
    History d' obj (us ++ [u]) := by
  have howner : ∀ owner', d'.obj_ownership_map.find? obj = some owner' → owner' = owner :=
    fun _ ho => eq_ownerAfter hacc ho
  have hreaders : ∀ readers', d'.read_nodes.find? obj = some readers' →
      readers' = readers ++ [op] := fun _ hr => eq_readersAfter hacc hr
  constructor
  · refine List.pairwise_append.2 ⟨?_, List.pairwise_singleton _ _, ?_⟩
    · exact h.ordered.imp fun hab hw => (hab hw).grows hacc.grows
    · rintro a ha b hb hwrites
      rw [List.mem_singleton.1 hb, hop]
      rw [List.mem_singleton.1 hb] at hwrites
      exact h.dataPath_read hacc ha (hwrites.resolve_right hw)
  · intro owner' readers' ho hr a ha
    rw [howner owner' ho, hreaders readers' hr]
    rcases List.mem_append.1 ha with ha | ha
    · rcases h.reaches_owner owner readers hacc.owner_eq hacc.readers_eq a ha with
        hown | hpath | ⟨hmem, hread⟩
      · exact .inl hown
      · exact .inr (.inl (hpath.grows hacc.grows))
      · exact .inr (.inr ⟨List.mem_append_left _ hmem, hread⟩)
    · rw [List.mem_singleton.1 ha, hop]
      exact .inr (.inr ⟨List.mem_append_right _ List.mem_cons_self, hw⟩)
  · intro owner' readers' ho hr r hmem
    rw [howner owner' ho]
    rw [hreaders readers' hr] at hmem
    rcases List.mem_append.1 hmem with hmem | hmem
    · exact (h.owner_reaches owner readers hacc.owner_eq hacc.readers_eq r hmem).grows hacc.grows
    · rw [List.mem_singleton.1 hmem]
      exact hacc.dataPath List.mem_cons_self
  · obtain ⟨a, ha, hobj⟩ := h.allocated_of_accessed hacc
    exact .inr ⟨a, List.mem_append_left _ ha, hobj⟩

/-- The history of an object that is allocated for the first time. -/
theorem malloc (h : History d op []) (hop : u.op_id = op)
    (halloc : Allocated d op stream_id d') :
    History { d' with read_nodes := d'.read_nodes.emplace op [] } op [u] := by
  have hnone : d.obj_ownership_map.find? op = none ∧ d.read_nodes.find? op = none := by
    rcases h.allocated with ⟨-, hnone⟩ | ⟨a, ha, -⟩
    · exact hnone
    · exact absurd ha List.not_mem_nil
  have hreaders : ∀ readers, (d'.read_nodes.emplace op []).find? op = some readers →
      readers = [] := by
    intro readers hr
    rw [OrderedMap.find?_emplace, if_pos rfl, halloc.readers, hnone.2, Option.getD_none,
      Option.some.injEq] at hr
    exact hr.symm
  -- The allocation owns the object, unless its node was there: then the object has no owner.
  have howner : ∀ owner, d'.obj_ownership_map.find? op = some owner → owner = op := by
    intro owner ho
    rw [halloc.owner] at ho
    split_ifs at ho with hnode
    · rw [hnone.1] at ho
      exact absurd ho (by simp)
    · rw [OrderedMap.find?_emplace, if_pos rfl, hnone.1, Option.getD_none,
        Option.some.injEq] at ho
      exact ho.symm
  constructor
  · exact List.pairwise_singleton _ _
  · intro owner readers ho hr a ha
    rw [List.mem_singleton.1 ha, howner owner ho]
    exact .inl hop
  · intro owner readers ho hr r hmem
    rw [hreaders readers hr] at hmem
    exact absurd hmem List.not_mem_nil
  · exact .inr ⟨u, List.mem_cons_self, hop⟩

end History

/-- The operations of a list on an object. -/
def onObject (us : List GraphUpdate) (obj : ℕ) : List GraphUpdate :=
  us.filter fun u => u.obj_op_id = obj

@[simp] theorem onObject_append (us us' : List GraphUpdate) (obj : ℕ) :
    onObject (us ++ us') obj = onObject us obj ++ onObject us' obj := List.filter_append ..

theorem onObject_self (u : GraphUpdate) : onObject [u] u.obj_op_id = [u] := by simp [onObject]

theorem onObject_of_ne {u : GraphUpdate} {obj : ℕ} (h : obj ≠ u.obj_op_id) :
    onObject [u] obj = [] := by simp [onObject, h.symm]

/-- The histories of all objects after an access or a release. -/
theorem history_accessed (hall : ∀ obj, History d obj (onObject us obj))
    (hacc : Accessed d u.op_id stream_id u.obj_op_id access_type link owner readers d')
    (hw : u.Writes ↔ access_type = .WRITE) (obj : ℕ) :
    History d' obj (onObject (us ++ [u]) obj) := by
  rw [onObject_append]
  by_cases hobj : obj = u.obj_op_id
  · rw [hobj, onObject_self]
    cases access_type with
    | READ => exact (hall _).read rfl (by simp [hw]) hacc
    | WRITE => exact (hall _).write rfl hacc
  · rw [onObject_of_ne hobj, List.append_nil]
    apply (hall obj).frame hacc.grows
    · rw [hacc.owner, if_neg hobj]
    · rw [hacc.readers, if_neg hobj]

/-- The histories of all objects after an update by an operation that has not touched its object
before. -/
theorem history_update (hall : ∀ obj, History d obj (onObject us obj))
    (hnew : ∀ a ∈ us, a.obj_op_id = u.obj_op_id → a.op_id ≠ u.op_id) (h : d.update u = some d')
    (obj : ℕ) : History d' obj (onObject (us ++ [u]) obj) := by
  cases u with
  | malloc op_id stream_id =>
    have halloc := allocated_updateGraphAtMalloc d op_id stream_id .REDSHOW_MEMORY_ALLOC
    rw [← Option.some.inj h, onObject_append]
    by_cases hobj : obj = op_id
    · subst hobj
      -- Nothing has been done to the object: that begins with its allocation.
      have hnil : onObject us obj = [] := by
        rcases (hall obj).allocated with ⟨hnil, -⟩ | ⟨a, ha, hop⟩
        · exact hnil
        · obtain ⟨ha, hobj⟩ := List.mem_filter.1 ha
          exact absurd hop (hnew a ha (of_decide_eq_true hobj))
      have hself : onObject [.malloc obj stream_id] obj = [.malloc obj stream_id] :=
        onObject_self (.malloc obj stream_id)
      have hstart := hall obj
      rw [hnil] at hstart
      rw [hnil, hself]
      exact hstart.malloc rfl halloc
    · rw [onObject_of_ne (u := .malloc op_id stream_id) hobj, List.append_nil]
      refine (hall obj).frame halloc.grows ?_ ?_
      · dsimp only
        rw [halloc.owner]
        split_ifs
        · rfl
        · rw [OrderedMap.find?_emplace, if_neg hobj]
      · dsimp only
        rw [OrderedMap.find?_emplace, if_neg hobj, halloc.readers]
  | access op_id op_type stream_id obj_op_id access_type =>
    obtain ⟨owner, readers, hacc⟩ := accessed_updateGraphAtAccess h
    exact history_accessed (u := .access op_id op_type stream_id obj_op_id access_type) hall hacc
      Iff.rfl obj
  | free op_id stream_id memory_op_id =>
    obtain ⟨owner, readers, hacc⟩ := accessed_updateGraphAtFree h
    have hw : (GraphUpdate.free op_id stream_id memory_op_id).Writes ↔ AccessType.WRITE = .WRITE :=
      iff_of_true trivial rfl
    exact history_accessed (u := .free op_id stream_id memory_op_id) hall hacc hw obj

/-- The histories of all objects after a run in which no operation touches an object twice. -/
theorem history_run (hnodup : (us.map fun u => (u.op_id, u.obj_op_id)).Nodup)
    (hrun : run update empty us = some d) (obj : ℕ) : History d obj (onObject us obj) := by
  induction us using List.reverseRecOn generalizing d obj with
  | nil =>
    cases hrun
    have hnone : ∀ owner, empty.obj_ownership_map.find? obj ≠ some owner := by simp [empty]
    exact ⟨.nil, fun _ _ ho => absurd ho (hnone _), fun _ _ ho => absurd ho (hnone _),
      .inl ⟨rfl, rfl, rfl⟩⟩
  | append_singleton us u ih =>
    rw [run_append] at hrun
    obtain ⟨d₁, h₁, hlast⟩ := Option.bind_eq_some_iff.1 hrun
    rw [run_cons, Option.bind_eq_some_iff] at hlast
    obtain ⟨d₂, hstep, hdone⟩ := hlast
    rw [← Option.some.inj hdone]
    rw [List.map_append, List.nodup_append'] at hnodup
    obtain ⟨hnodup, -, hdisj⟩ := hnodup
    refine history_update (fun obj => ih hnodup h₁ obj) (fun a ha hobj hop => ?_) hstep obj
    have hmem : (u.op_id, u.obj_op_id) ∈ us.map fun u => (u.op_id, u.obj_op_id) :=
      List.mem_map.2 ⟨a, ha, by rw [hobj, hop]⟩
    exact hdisj hmem (by simp)

/-- In every run of the builders in which no operation touches an object twice, two operations on
an object of which at least one is the allocation, a write or the release are joined by a path of
data dependencies from the earlier to the later one. -/
theorem pairwise_dataPath (hnodup : (us.map fun u => (u.op_id, u.obj_op_id)).Nodup)
    (hrun : run update empty us = some d) :
    us.Pairwise fun a b => a.obj_op_id = b.obj_op_id → a.Writes ∨ b.Writes →
      d.DataPath a.op_id b.op_id := by
  -- The operations on each object are ordered by its history.
  have hobj : ∀ obj, us.Pairwise fun a b => a.obj_op_id = obj → b.obj_op_id = obj →
      a.Writes ∨ b.Writes → d.DataPath a.op_id b.op_id := by
    intro obj
    have hordered := (history_run hnodup hrun obj).ordered
    unfold onObject at hordered
    rw [List.pairwise_filter] at hordered
    exact hordered.imp fun hab ha hb =>
      hab (decide_eq_true ha) (decide_eq_true hb)
  rw [List.pairwise_iff_forall_sublist] at *
  intro a b hsub hab hw
  have hpair := hobj b.obj_op_id
  rw [List.pairwise_iff_forall_sublist] at hpair
  exact hpair hsub hab rfl hw

/-- An object is allocated, read twice, written by one of the readers of another object, and
released. -/
def updates : List GraphUpdate :=
  [.malloc 7 0, .malloc 8 0, .access 9 .REDSHOW_MEMORY_ACCESS 0 7 .READ,
    .access 10 .REDSHOW_MEMORY_COPYF 1 8 .READ, .access 10 .REDSHOW_MEMORY_COPYT 1 7 .WRITE,
    .access 11 .REDSHOW_MEMORY_ACCESS 0 7 .READ, .free 12 0 7]

/-- The statement about runs applies to a run with all kinds of updates. -/
theorem pairwise_dataPath_updates : ∃ d, run update empty updates = some d ∧
    updates.Pairwise fun a b => a.obj_op_id = b.obj_op_id → a.Writes ∨ b.Writes →
      d.DataPath a.op_id b.op_id := by
  have hsome : (run update empty updates).isSome := by rfl
  obtain ⟨d, hrun⟩ := Option.isSome_iff_exists.1 hsome
  exact ⟨d, hrun, pairwise_dataPath (by decide) hrun⟩

end Dependencies

end TenProf.MemoryLiveness
