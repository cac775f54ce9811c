import TenProf.MemoryLiveness.Acyclic
import TenProf.MemoryLiveness.Ordering
import TenProf.MemoryLiveness.Rounds

/-!
# The schedule that the topological order gives

What the callbacks of a run do to the dependency graph is a run of its builders (`run_updates`). So
the operations on a stream are joined by a path of its edges, and those on an object, of which one
writes, by a path of data dependencies. `dump_topological_order` writes each operation with the
number of edges of the longest path to it, so that it keeps the order of every stream and that of
the conflicting operations on every object, and no operation is later than these orders ask for
(`schedule_run`).
-/

namespace TenProf.MemoryLiveness

open Dependencies
open GpuPatch (AddressDict AddressEntry)

/-- The stream of a call of a builder. -/
def GraphUpdate.stream_id : GraphUpdate → ℕ
  | malloc _ stream_id => stream_id
  | access _ _ stream_id _ _ => stream_id
  | free _ stream_id _ => stream_id

/-- The call of a builder for an entry of a dictionary. -/
def entryUpdates (addresses_map : OrderedMap ℕ ℕ) (op_id stream_id : ℕ) (entry : AddressEntry) :
    List GraphUpdate :=
  if entry.hit = 1 then
    (addresses_map.find? entry.start_end.start).toList.flatMap fun memory_op_id =>
      if entry.write = 1 then
        [.access op_id .REDSHOW_MEMORY_ACCESS stream_id memory_op_id .WRITE]
      else if entry.read = 1 then
        [.access op_id .REDSHOW_MEMORY_ACCESS stream_id memory_op_id .READ]
      else
        []
  else
    []

/-- The call of a builder for one of the two objects of a copy. -/
def copyUpdates (op_id : ℕ) (op_type : MemoryOperation) (stream_id memory_op_id : ℕ)
    (access_type : AccessType) : List GraphUpdate :=
  if memory_op_id ≠ REDSHOW_MEMORY_HOST then
    [.access op_id op_type stream_id memory_op_id access_type]
  else
    []

/-- The calls of the builders in a callback. -/
def Callback.updates (s : MemoryLiveness) : Callback → List GraphUpdate
  | memory op => [.malloc op.op_id op.stream_id]
  | memfree op =>
    (s.addresses_map.find? op.memory_range.start).toList.map fun malloc_op_id =>
      .free op.op_id op.stream_id malloc_op_id
  | kernel _ none => []
  | kernel op (some aux) =>
    aux.entries.flatMap (entryUpdates s.addresses_map op.op_id op.stream_id)
  | memcpy op =>
    copyUpdates op.op_id .REDSHOW_MEMORY_COPYF op.src_stream_id op.src_memory_op_id .READ ++
      copyUpdates op.op_id .REDSHOW_MEMORY_COPYT op.dst_stream_id op.dst_memory_op_id .WRITE
  | memset op =>
    [.access op.op_id .REDSHOW_MEMORY_SET op.stream_id op.memory_op_id .WRITE]

/-- The calls of the builders in a run. -/
def updatesOf (es : List Callback) : List GraphUpdate :=
  runLog opCallback (fun s e => e.updates s) empty es

variable {s s' : MemoryLiveness} {e : Callback} {es : List Callback} {d d' : Dependencies}
  {us : List GraphUpdate} {u : GraphUpdate}

/-! ## The callbacks as calls of the builders -/

/-- The turn of the loop over a dictionary. -/
theorem run_entryUpdates {addresses_map : OrderedMap ℕ ℕ} {op_id stream_id : ℕ}
    {entry : AddressEntry} (h : graphAtEntry addresses_map op_id stream_id d entry = some d') :
    run update d (entryUpdates addresses_map op_id stream_id entry) = some d' := by
  unfold graphAtEntry at h
  unfold entryUpdates
  split_ifs at h ⊢ with hhit hwrite hread
  · obtain ⟨obj, hobj, h⟩ := Option.bind_eq_some_iff.1 h
    rw [hobj]
    exact (run_singleton d _).trans h
  · obtain ⟨obj, hobj, h⟩ := Option.bind_eq_some_iff.1 h
    rw [hobj]
    exact (run_singleton d _).trans h
  · obtain ⟨obj, hobj, h⟩ := Option.bind_eq_some_iff.1 h
    rw [hobj]
    exact h
  · exact h

/-- The loop over a dictionary. -/
theorem run_flatMap_entryUpdates {addresses_map : OrderedMap ℕ ℕ} {op_id stream_id : ℕ}
    {entries : List AddressEntry}
    (h : entries.foldlM (graphAtEntry addresses_map op_id stream_id) d = some d') :
    run update d (entries.flatMap (entryUpdates addresses_map op_id stream_id)) = some d' := by
  induction entries generalizing d with
  | nil => exact h
  | cons entry entries ih =>
    obtain ⟨d₁, h₁, hrest⟩ := Option.bind_eq_some_iff.1 h
    rw [List.flatMap_cons, run_append, run_entryUpdates h₁, Option.bind_some]
    exact ih hrest

/-- One of the two objects of a copy. -/
theorem run_copyUpdates {op_id stream_id memory_op_id : ℕ} {ctx_id : ℤ} {op_type : MemoryOperation}
    {access_type : AccessType}
    (h : s.copyAccess op_id ctx_id op_type stream_id memory_op_id access_type = some s') :
    run update s.deps (copyUpdates op_id op_type stream_id memory_op_id access_type) =
      some s'.deps := by
  unfold copyAccess at h
  unfold copyUpdates
  split_ifs at h ⊢ with hhost
  · obtain ⟨d, hd, rfl⟩ := Option.map_eq_some_iff.1 h
    exact (run_singleton s.deps _).trans hd
  · rw [← Option.some.inj h]
    rfl

/-- A callback calls the builders. -/
theorem run_updates (h : s.opCallback e = some s') :
    run update s.deps (e.updates s) = some s'.deps := by
  unfold opCallback at h
  unfold Callback.updates
  rcases e with op | op | ⟨op, _ | aux⟩ | op | op <;> dsimp only at h ⊢
  · rw [← Option.some.inj h]
    rfl
  · obtain ⟨id, hid, h⟩ := Option.bind_eq_some_iff.1 h
    obtain ⟨d, hd, rfl⟩ := Option.map_eq_some_iff.1 h
    rw [show s.addresses_map.find? op.memory_range.start = some id from hid]
    exact (run_singleton s.deps _).trans hd
  · obtain ⟨s₁, h₁, rfl⟩ := Option.map_eq_some_iff.1 h
    rw [← Option.some.inj h₁]
    rfl
  · obtain ⟨s₁, h₁, rfl⟩ := Option.map_eq_some_iff.1 h
    obtain ⟨-, ⟨hnone, -⟩ | ⟨dict, hdict, hfold⟩⟩ := analysisBegin_cases h₁
    · cases hnone
    · obtain rfl := Option.some.inj hdict
      exact run_flatMap_entryUpdates hfold
  · obtain ⟨s₁, h₁, h₂⟩ := Option.bind_eq_some_iff.1 h
    have hfirst := run_copyUpdates h₁
    rw [run_append, show run update s.deps _ = some s₁.deps from hfirst, Option.bind_some]
    exact run_copyUpdates h₂
  · obtain ⟨d, hd, rfl⟩ := Option.map_eq_some_iff.1 h
    exact (run_singleton s.deps _).trans hd

/-- The graph after a run is that of the calls of the builders in it. -/
theorem run_updatesOf (h : run opCallback empty es = some s) :
    run update Dependencies.empty (updatesOf es) = some s.deps := by
  have hstep : ∀ s e s' us, run update Dependencies.empty us = some s.deps →
      opCallback s e = some s' →
      run update Dependencies.empty (us ++ e.updates s) = some s'.deps := by
    intro s e s' us hus he
    rw [run_append, hus, Option.bind_some]
    exact run_updates he
  have hnil : run update Dependencies.empty [] = some (empty : MemoryLiveness).deps := rfl
  have hlog := runLog_invariant
    (J := fun s us => run update Dependencies.empty us = some s.deps) hstep hnil h
  exact hlog

/-! ## No operation touches an object twice -/

/-- What the calls of the builders in a callback touch, and for which operation. -/
theorem mem_entryUpdates {addresses_map : OrderedMap ℕ ℕ} {op_id stream_id : ℕ}
    {entry : AddressEntry} (h : u ∈ entryUpdates addresses_map op_id stream_id entry) :
    addresses_map.find? entry.start_end.start = some u.obj_op_id ∧ u.op_id = op_id := by
  unfold entryUpdates at h
  split_ifs at h with hhit hwrite hread
  · obtain ⟨obj, hobj, hu⟩ := List.mem_flatMap.1 h
    rw [List.mem_singleton.1 hu]
    exact ⟨Option.mem_toList.1 hobj, rfl⟩
  · obtain ⟨obj, hobj, hu⟩ := List.mem_flatMap.1 h
    rw [List.mem_singleton.1 hu]
    exact ⟨Option.mem_toList.1 hobj, rfl⟩
  · obtain ⟨obj, -, hu⟩ := List.mem_flatMap.1 h
    exact absurd hu List.not_mem_nil
  · exact absurd h List.not_mem_nil

/-- An entry makes no more than one call. -/
theorem nodup_entryUpdates (addresses_map : OrderedMap ℕ ℕ) (op_id stream_id : ℕ)
    (entry : AddressEntry) :
    ((entryUpdates addresses_map op_id stream_id entry).map GraphUpdate.obj_op_id).Nodup := by
  unfold entryUpdates
  cases addresses_map.find? entry.start_end.start <;> split_ifs <;> simp

/-- The calls in a callback are for its operation. -/
theorem op_id_of_mem_updates (h : u ∈ e.updates s) : u.op_id = e.op_id := by
  unfold Callback.updates at h
  rcases e with op | op | ⟨op, _ | aux⟩ | op | op <;> dsimp only at h
  · rw [List.mem_singleton.1 h]
    rfl
  · obtain ⟨id, -, rfl⟩ := List.mem_map.1 h
    rfl
  · exact absurd h List.not_mem_nil
  · obtain ⟨entry, -, hu⟩ := List.mem_flatMap.1 h
    exact (mem_entryUpdates hu).2
  · unfold copyUpdates at h
    rcases List.mem_append.1 h with h | h <;> split_ifs at h
    · rw [List.mem_singleton.1 h]
      rfl
    · exact absurd h List.not_mem_nil
    · rw [List.mem_singleton.1 h]
      rfl
    · exact absurd h List.not_mem_nil
  · rw [List.mem_singleton.1 h]
    rfl

/-- The calls in a callback are for different objects, unless it copies an object to itself. -/
theorem nodup_updates (hinj : s.AddressesInjective) (hself : ¬e.SelfCopy) :
    ((e.updates s).map GraphUpdate.obj_op_id).Nodup := by
  unfold Callback.updates
  rcases e with op | op | ⟨op, _ | aux⟩ | op | op <;> dsimp only
  · exact List.nodup_singleton _
  · cases s.addresses_map.find? op.memory_range.start with
    | none => exact List.nodup_nil
    | some id => exact List.nodup_singleton _
  · exact List.nodup_nil
  · rw [List.map_flatMap, List.nodup_flatMap]
    refine ⟨fun entry _ => nodup_entryUpdates _ _ _ entry, ?_⟩
    -- Different entries have different starts, and so different objects.
    refine (List.pairwise_map.1 aux.distinct).imp fun {a b} hne => ?_
    rw [Function.onFun, List.disjoint_left]
    rintro obj ha hb
    obtain ⟨u, hu, rfl⟩ := List.mem_map.1 ha
    obtain ⟨u', hu', heq⟩ := List.mem_map.1 hb
    exact hne (hinj _ _ _ (mem_entryUpdates hu).1 (heq ▸ (mem_entryUpdates hu').1))
  · unfold copyUpdates
    split_ifs with hsrc hdst
    · have hne : op.src_memory_op_id ≠ op.dst_memory_op_id := fun heq => hself ⟨heq, hsrc⟩
      simpa [GraphUpdate.obj_op_id] using hne
    · exact List.nodup_singleton _
    · exact List.nodup_singleton _
    · exact List.nodup_nil
  · exact List.nodup_singleton _

/-- In a run with increasing ids, no operation touches an object twice. -/
theorem nodup_runLog {b : ℕ} {ids : List ℕ} (hs : Inv s b ids)
    (hids : (b :: es.map Callback.op_id).Pairwise (· < ·)) (hself : ∀ e ∈ es, ¬e.SelfCopy)
    (h : run opCallback s es = some s') :
    ((runLog opCallback (fun s e => e.updates s) s es).map
        fun u => (u.op_id, u.obj_op_id)).Nodup ∧
      ∀ u ∈ runLog opCallback (fun s e => e.updates s) s es, b < u.op_id := by
  induction es generalizing s b ids with
  | nil => exact ⟨List.nodup_nil, fun u hu => absurd hu List.not_mem_nil⟩
  | cons e es ih =>
    obtain ⟨s₁, h₁, hrest⟩ := Option.bind_eq_some_iff.1 h
    obtain ⟨hb, hids⟩ := List.pairwise_cons.1 hids
    have hlt : b < e.op_id := hb e.op_id List.mem_cons_self
    obtain ⟨hfirst, hself⟩ := List.forall_mem_cons.1 hself
    obtain ⟨hnodup, hlater⟩ := ih (hs.step hlt h₁) hids hself hrest
    rw [runLog, h₁, Option.map_some, Option.getD_some]
    constructor
    · rw [List.map_append, List.nodup_append']
      refine ⟨?_, hnodup, ?_⟩
      · have hobjs := nodup_updates hs.injective hfirst
        refine List.Nodup.of_map Prod.snd ?_
        rw [List.map_map]
        exact hobjs
      · rintro x hx hx'
        obtain ⟨u, hu, rfl⟩ := List.mem_map.1 hx
        obtain ⟨u', hu', heq⟩ := List.mem_map.1 hx'
        have hop : u'.op_id = u.op_id := congrArg Prod.fst heq
        have hgt := hlater u' hu'
        rw [hop, op_id_of_mem_updates hu] at hgt
        exact lt_irrefl _ hgt
    · intro u hu
      rcases List.mem_append.1 hu with hu | hu
      · rw [op_id_of_mem_updates hu]
        exact hlt
      · exact hlt.trans (hlater u hu)

/-! ## The operations on a stream -/

/-- A directed path of stream dependencies leads from one operation to another. -/
def StreamPath (d : Dependencies) : ℕ → ℕ → Prop :=
  Relation.TransGen fun a b => d.graph.hasEdge ⟨a, b, .STREAM_DEPENDENCY⟩

/-- What a call of a builder does for its stream: its operation follows the last one, unless it is
the same one, and is the last one then. -/
structure Streamed (d : Dependencies) (u : GraphUpdate) (d' : Dependencies) : Prop where
  hasEdge : ∀ edge, d.graph.hasEdge edge → d'.graph.hasEdge edge
  last : ∀ st, d'.stream_ownership_map.find? st =
    if st = u.stream_id then some u.op_id else d.stream_ownership_map.find? st
  follows : ∀ i, d.stream_ownership_map.find? u.stream_id = some i → i ≠ u.op_id →
    d'.graph.hasEdge ⟨i, u.op_id, .STREAM_DEPENDENCY⟩

/-- An access or a release. -/
theorem streamed_of_accessed {link : ℕ → Prop} {obj owner : ℕ} {readers : List ℕ}
    {access_type : AccessType}
    (h : Accessed d u.op_id u.stream_id obj access_type link owner readers d')
    (hlink : ∀ i, i ≠ u.op_id → link i) : Streamed d u d' := by
  refine ⟨fun edge he => h.grows.hasEdge he, h.stream, fun i hi hne => ?_⟩
  exact (h.grows.hasEdge_iff _).2 (.inr ⟨rfl, .inl ⟨rfl, hlink i hne, hi⟩⟩)

/-- Every call of a builder. -/
theorem streamed_update (h : d.update u = some d') : Streamed d u d' := by
  cases u with
  | malloc op_id stream_id =>
    rw [← Option.some.inj h]
    have halloc := allocated_updateGraphAtMalloc d op_id stream_id .REDSHOW_MEMORY_ALLOC
    refine ⟨fun edge he => halloc.grows.hasEdge he, halloc.stream, fun i hi _ => ?_⟩
    exact (halloc.grows.hasEdge_iff _).2 (.inr ⟨rfl, rfl, hi⟩)
  | access op_id op_type stream_id obj_op_id access_type =>
    obtain ⟨owner, readers, haccess⟩ := accessed_updateGraphAtAccess h
    exact streamed_of_accessed haccess fun i hne => hne
  | free op_id stream_id memory_op_id =>
    obtain ⟨owner, readers, haccess⟩ := accessed_updateGraphAtFree h
    exact streamed_of_accessed haccess fun i _ => trivial

/-- How the calls so far stand to the last operations of their streams. -/
structure StreamHistory (d : Dependencies) (us : List GraphUpdate) : Prop where
  ordered : us.Pairwise fun a b => a.op_id ≠ b.op_id → a.stream_id = b.stream_id →
    StreamPath d a.op_id b.op_id
  reaches_last : ∀ a ∈ us, ∃ i, d.stream_ownership_map.find? a.stream_id = some i ∧
    (a.op_id = i ∨ StreamPath d a.op_id i)

/-- One more call. -/
theorem StreamHistory.update (h : StreamHistory d us) (hu : Streamed d u d') :
    StreamHistory d' (us ++ [u]) := by
  have hgrows : ∀ {a b}, StreamPath d a b → StreamPath d' a b := fun hpath =>
    hpath.lift id fun _ _ he => hu.hasEdge _ he
  -- The operations on the stream lead to the new one.
  have hreach : ∀ a ∈ us, a.stream_id = u.stream_id →
      a.op_id = u.op_id ∨ StreamPath d' a.op_id u.op_id := fun a ha hst => by
    obtain ⟨i, hi, hpath⟩ := h.reaches_last a ha
    rw [hst] at hi
    by_cases hlast : i = u.op_id
    · rw [← hlast]
      exact hpath.imp_right hgrows
    · have hedge : StreamPath d' i u.op_id := .single (hu.follows i hi hlast)
      rcases hpath with rfl | hpath
      · exact .inr hedge
      · exact .inr ((hgrows hpath).trans hedge)
  constructor
  · refine List.pairwise_append.2 ⟨h.ordered.imp fun hab hne hst => hgrows (hab hne hst),
      List.pairwise_singleton _ _, fun a ha b hb hne hst => ?_⟩
    rw [List.mem_singleton.1 hb] at hne hst ⊢
    exact (hreach a ha hst).resolve_left hne
  · intro a ha
    rw [hu.last]
    rcases List.mem_append.1 ha with ha | ha
    · split_ifs with hst
      · exact ⟨u.op_id, rfl, hreach a ha hst⟩
      · obtain ⟨i, hi, hpath⟩ := h.reaches_last a ha
        exact ⟨i, hi, hpath.imp_right hgrows⟩
    · rw [List.mem_singleton.1 ha, if_pos rfl]
      exact ⟨u.op_id, rfl, .inl rfl⟩

/-- The calls of a run. -/
theorem streamHistory_run (h : run update Dependencies.empty us = some d) : StreamHistory d us := by
  induction us using List.reverseRecOn generalizing d with
  | nil => exact ⟨.nil, fun a ha => absurd ha List.not_mem_nil⟩
  | append_singleton us u ih =>
    obtain ⟨d₁, h₁, hlast⟩ := run_append_singleton.1 h
    exact (ih h₁).update (streamed_update hlast)

/-! ## The conflicts on an object -/

/-- Two operations on an object, of which one writes, are joined by a path of data dependencies. -/
theorem conflict_path (hnodup : (us.map fun u => (u.op_id, u.obj_op_id)).Nodup)
    (h : run update Dependencies.empty us = some d) :
    us.Pairwise fun a b => a.obj_op_id = b.obj_op_id ∧ (a.Writes ∨ b.Writes) →
      d.DataPath a.op_id b.op_id := by
  rw [List.pairwise_iff_forall_sublist]
  rintro a b hsub ⟨hobj, hw⟩
  have hordered := (history_run hnodup h b.obj_op_id).ordered
  rw [List.pairwise_iff_forall_sublist] at hordered
  refine hordered ?_ hw
  -- Both calls are in the history of the object.
  have hfilter : onObject [a, b] b.obj_op_id = [a, b] := by
    unfold onObject
    rw [List.filter_cons_of_pos (by simpa using hobj), List.filter_cons_of_pos (by simp)]
    rfl
  rw [← hfilter]
  exact hsub.filter _

/-! ## The output -/

/-- The lines that are written, of all rounds. -/
def linesOf (out : List (ℕ × List OrderLine)) : List OrderLine := out.flatMap Prod.snd

/-- Every line that is written is for an operation of its round. -/
theorem inRound_of_mem_lines {fuel : ℕ} {out : List (ℕ × List OrderLine)}
    (h : s.dumpTopologicalOrder fuel = some out) : ∃ rounds,
      s.deps.graph.peel fuel = some rounds ∧
        ∀ l ∈ linesOf out, DependencyGraph.InRound rounds l.top_index l.op_id := by
  obtain ⟨rounds, hpeel, hlines⟩ := line_of_dump h
  refine ⟨rounds, hpeel, fun l hl => ?_⟩
  obtain ⟨round, hround, hl⟩ := List.mem_flatMap.1 hl
  obtain ⟨r, hr, htop, hop, -⟩ := hlines round hround l hl
  exact ⟨r, hr, htop.symm, hop⟩

/-- The topological order is a schedule for the calls of the builders: every operation is written in
the round whose number is that of the steps of the longest chain of dependencies that leads to it,
and two operations on a stream, or on an object that one of them writes, in the order in which they
were made. -/
structure Scheduled (s : MemoryLiveness) (us : List GraphUpdate) (lines : List OrderLine) :
    Prop where
  earliest : ∀ l ∈ lines, IsLevel s.deps.graph.Adj l.top_index l.op_id
  ordered : us.Pairwise fun a b => a.op_id ≠ b.op_id →
    a.stream_id = b.stream_id ∨ a.obj_op_id = b.obj_op_id ∧ (a.Writes ∨ b.Writes) →
      ∀ l ∈ lines, ∀ l' ∈ lines, l.op_id = a.op_id → l'.op_id = b.op_id →
        l.top_index < l'.top_index

/-- In every run with increasing ids in which no object is copied to itself,
`dump_topological_order` ends and writes a schedule of all operations of the graph. -/
theorem schedule_run (hids : (REDSHOW_MEMORY_HOST :: es.map Callback.op_id).Pairwise (· < ·))
    (hself : ∀ e ∈ es, ¬e.SelfCopy) (hrun : run opCallback empty es = some s) :
    ∃ fuel out, s.dumpTopologicalOrder fuel = some out ∧ (written out).Perm (inGraph es) ∧
      Scheduled s (updatesOf es) (linesOf out) := by
  obtain ⟨⟨b, hs⟩, hgraph⟩ := inv_empty.run hids hrun
  rw [List.nil_append] at hs
  have hacyc : s.deps.graph.Acyclic := by
    apply DependencyGraph.acyclic_of_lt
    exact hgraph.increasing hself fun edge he => absurd he (by simp [empty, Dependencies.empty])
  have hnodup : (inGraph es).Nodup :=
    ((List.pairwise_cons.1 hids).2.imp ne_of_lt).sublist (List.filter_sublist.map _)
  obtain ⟨fuel, out, hout, hperm⟩ := hs.dumpTopologicalOrder hnodup hacyc
  obtain ⟨rounds, hpeel, hlines⟩ := inRound_of_mem_lines hout
  have hlevel : ∀ l ∈ linesOf out, IsLevel s.deps.graph.Adj l.top_index l.op_id := fun l hl =>
    DependencyGraph.peel_levels hs.linked.wellFormed hpeel (hlines l hl)
  refine ⟨fuel, out, hout, hperm, hlevel, ?_⟩
  have hupdates := run_updatesOf hrun
  have hstream := (streamHistory_run hupdates).ordered
  have hdata := conflict_path (nodup_runLog inv_empty hids hself hrun).1 hupdates
  refine (hstream.and hdata).imp ?_
  rintro a b ⟨hst, hobj⟩ hne hconflict l hl l' hl' hla hlb
  -- Either way a path leads from the one to the other.
  have hpath : Relation.TransGen s.deps.graph.Adj a.op_id b.op_id := by
    rcases hconflict with hsame | hsame
    · exact (hst hne hsame).lift id fun x y he => ⟨_, he, rfl, rfl⟩
    · exact (hobj hsame).lift id fun x y he => ⟨_, he, rfl, rfl⟩
  rw [← hla, ← hlb] at hpath
  exact (hlevel l hl).lt_of_transGen hpath (hlevel l' hl')

/-- Two objects are allocated on different streams, one is copied to the other, and a kernel on the
first stream writes the first. -/
def twoStreams : List Callback :=
  [.memory (Memory.ofRange 0 7 1 ⟨1000, 1016⟩ 0 0),
    .memory (Memory.ofRange 1 8 1 ⟨2000, 2016⟩ 0 0),
    .memcpy ⟨9, 2, 7, 0, 1000, 8, 1, 2000, 16⟩,
    .kernel ⟨10, 3, 0, 0⟩ (some ⟨[⟨⟨1000, 1016⟩, 1, 0, 1⟩], by decide⟩)]

/-- The statement about schedules applies to this run. -/
theorem schedule_run_twoStreams : ∃ s, run opCallback empty twoStreams = some s ∧
    ∃ fuel out, s.dumpTopologicalOrder fuel = some out ∧ (written out).Perm [7, 8, 9, 10] ∧
      Scheduled s (updatesOf twoStreams) (linesOf out) := by
  have hsome : (run opCallback empty twoStreams).isSome := by rfl
  obtain ⟨s, hrun⟩ := Option.isSome_iff_exists.1 hsome
  exact ⟨s, hrun, schedule_run (by decide) (by decide) hrun⟩

end TenProf.MemoryLiveness
