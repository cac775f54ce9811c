import Mathlib.Order.Bounds.Basic
import TenProf.Library.Runs
import TenProf.Redshow.LiveObjects

/-!
# The analyses agree with the store

`redshow_memory_register` and `redshow_memory_unregister` with what they tell the analyses: the
callbacks of `MemoryLiveness` and `TorchMonitor` are called when the store accepts the call, and
only then. When the ids of the calls increase, both analyses mirror the latest snapshot after every
call, and no callback fails (`agrees_run`).
-/

namespace TenProf

/-- The store, and the two analyses. -/
structure Tools where
  memory_snapshot : MemorySnapshot
  memory_liveness : MemoryLiveness
  torch_monitor : TorchMonitor

namespace Tools

/-- Everything before the first call. -/
def empty : Tools := ⟨∅, MemoryLiveness.empty, TorchMonitor.empty⟩

/-- The callbacks of an accepted call. -/
def opCallback (s : Tools) : MemoryCall → Option Tools
  | .register stream_id memory_id host_op_id start stop value value_cache =>
    let memory := Memory.ofRange stream_id host_op_id memory_id ⟨start, stop⟩ value value_cache
    some
      { s with
        memory_liveness := s.memory_liveness.memoryOpCallback memory
        torch_monitor := s.torch_monitor.memoryOpCallback memory }
  | .unregister stream_id memory_id host_op_id start stop =>
    let memfree := Memfree.ofRange stream_id host_op_id memory_id ⟨start, stop⟩
    (s.memory_liveness.memfreeOpCallback memfree).bind fun memory_liveness =>
      (s.torch_monitor.memfreeOpCallback memfree).map fun torch_monitor =>
        { s with memory_liveness := memory_liveness, torch_monitor := torch_monitor }

/-- A call of one of the two functions. -/
def step (s : Tools) (c : MemoryCall) : Option Tools :=
  let res := storeStep s.memory_snapshot c
  let s := { s with memory_snapshot := res.1 }
  if res.2 = .REDSHOW_SUCCESS then s.opCallback c else some s

end Tools

/-- The blocks of the snapshot with the largest id. -/
def latest (memory_snapshot : MemorySnapshot) : MemoryMap :=
  match memory_snapshot.toList.getLast? with
  | some iter => iter.2
  | none => ∅

/-- What a call is promised, with the blocks that are live before it. A release passes the range
that the block was registered with, and the buffer that a block gets from `new` lies in the address
space, not at its start, and apart from those of the live blocks. -/
structure Promised (memory_map : MemoryMap) (c : MemoryCall) : Prop where
  range : ∀ u ∈ c.released, ∀ m ∈ memory_map.find? c.start, m.memory_range = u.memory_range
  bounded : ∀ m ∈ c.registered, 0 < m.value ∧ m.value + m.len ≤ 2^64
  apart : ∀ m ∈ c.registered, ∀ e ∈ memory_map.toList, BuffersApart m e.2

/-- The numbers of live bytes after the first calls, for every number of them. -/
def usages (calls : List MemoryCall) : Set ℕ :=
  {n | ∃ before, before <+: calls ∧ n = liveBytes (latest (storeAfter before))}

/-- An analysis agrees with the store after calls: it mirrors the latest snapshot, and its peak is
the largest number of live bytes so far. -/
structure Agrees (calls : List MemoryCall) (o : LiveObjects) : Prop where
  mirrors : Mirrors o (latest (storeAfter calls))
  peak : IsGreatest (usages calls) o.peak

variable {calls : List MemoryCall} {c : MemoryCall} {m : Memory} {memory_snapshot : MemorySnapshot}

/-! ## The latest snapshot -/

/-- A call whose id is not below that of any snapshot looks the latest one up. -/
theorem contentAt_of_ge {k : ℕ} (h : ∀ e ∈ memory_snapshot.toList, e.1 ≤ k) :
    contentAt memory_snapshot k = latest memory_snapshot := by
  have hprev := OrderedMap.prev_of_ge _ h
  unfold contentAt latest
  cases hlast : memory_snapshot.toList.getLast? with
  | none => simp only [hprev, hlast]
  | some iter => simp only [hprev, hlast]

/-- What a call with the largest id does to the latest snapshot. -/
theorem latest_storeStep (h : ∀ e ∈ memory_snapshot.toList, e.1 < c.host_op_id) :
    (c.Accepted memory_snapshot ∧ (storeStep memory_snapshot c).2 = .REDSHOW_SUCCESS ∧
      latest (storeStep memory_snapshot c).1 = c.apply (latest memory_snapshot)) ∨
    (storeStep memory_snapshot c).2 ≠ .REDSHOW_SUCCESS ∧
      (storeStep memory_snapshot c).1 = memory_snapshot := by
  have hcontent := contentAt_of_ge fun e he => (h e he).le
  rcases storeStep_cases memory_snapshot c with ⟨hacc, hstep⟩ | ⟨-, hsame, hres⟩
  · refine .inl ⟨hacc, by rw [hstep], ?_⟩
    rw [hstep, hcontent]
    unfold latest
    rw [OrderedMap.toList_set_of_gt _ h, List.getLast?_concat]
  · exact .inr ⟨hres, hsame⟩

/-- The ids of the snapshots are those of calls. -/
theorem lt_of_mem_storeAfter {k : ℕ} (h : ∀ id ∈ calls.map MemoryCall.host_op_id, id < k) :
    ∀ e ∈ (storeAfter calls).toList, e.1 < k := by
  intro e he
  refine h e.1 (mem_of_find?_storeAfter ?_)
  rw [((storeAfter calls).find?_eq_some_iff e.1 e.2).2 he]
  rfl

/-- One more call adds the number of live bytes after it. -/
theorem usages_append_singleton (calls : List MemoryCall) (c : MemoryCall) :
    usages (calls ++ [c]) =
      insert (liveBytes (latest (storeAfter (calls ++ [c])))) (usages calls) := by
  ext n
  unfold usages
  rw [Set.mem_insert_iff]
  constructor
  · rintro ⟨before, hpre, hn⟩
    rcases List.prefix_concat_iff.1 hpre with rfl | hpre
    · exact .inl hn
    · exact .inr ⟨before, hpre, hn⟩
  · rintro (hn | ⟨before, hpre, hn⟩)
    · exact ⟨_, List.prefix_rfl, hn⟩
    · exact ⟨before, hpre.trans (List.prefix_append calls [c]), hn⟩

/-- The number of live bytes after all calls is among them. -/
theorem mem_usages (calls : List MemoryCall) :
    liveBytes (latest (storeAfter calls)) ∈ usages calls := ⟨calls, List.prefix_rfl, rfl⟩

/-! ## An analysis in step with the store -/

/-- An accepted register keeps an analysis in agreement. -/
theorem Agrees.allocate {o : LiveObjects} (h : Agrees calls o)
    (hblocks : Blocks (calls.map MemoryCall.host_op_id) (latest (storeAfter calls)))
    (hnone : (latest (storeAfter calls)).find? m.memory_range.start = none)
    (hnew : m.op_id ∉ calls.map MemoryCall.host_op_id)
    (hlatest : latest (storeAfter (calls ++ [c])) =
      (latest (storeAfter calls)).set m.memory_range.start m)
    (hlt : liveBytes (latest (storeAfter (calls ++ [c]))) < 2^64) :
    Agrees (calls ++ [c]) (o.allocate m) := by
  have hmirrors : Mirrors (o.allocate m) (latest (storeAfter (calls ++ [c]))) := by
    rw [hlatest] at hlt ⊢
    exact h.mirrors.allocate hblocks hnone hnew hlt
  refine ⟨hmirrors, ?_⟩
  have hpeak : (o.allocate m).peak = max (o.allocate m).usage o.peak := by
    rw [max_comm, max_def_lt]
    rfl
  rw [usages_append_singleton, hpeak, hmirrors.usage]
  exact h.peak.insert _

/-- An accepted unregister keeps an analysis in agreement. -/
theorem Agrees.release {o : LiveObjects} (h : Agrees calls o)
    (hblocks : Blocks (calls.map MemoryCall.host_op_id) (latest (storeAfter calls))) {u : Memfree}
    (hfind : (latest (storeAfter calls)).find? u.memory_range.start = some m)
    (hlen : u.len = m.len)
    (hlatest : latest (storeAfter (calls ++ [c])) =
      (latest (storeAfter calls)).erase u.memory_range.start) :
    ∃ o', o.release u = some o' ∧ Agrees (calls ++ [c]) o' := by
  obtain ⟨o', ho', hpeak, hmirrors⟩ := h.mirrors.release hblocks hfind hlen
  rw [← hlatest] at hmirrors
  refine ⟨o', ho', hmirrors, ?_⟩
  -- The number of live bytes gets smaller.
  have hle : liveBytes (latest (storeAfter (calls ++ [c]))) ≤ o.peak :=
    calc liveBytes (latest (storeAfter (calls ++ [c])))
      _ ≤ liveBytes (latest (storeAfter calls)) := by
        rw [hlatest, liveBytes_erase hfind]
        omega
      _ ≤ o.peak := h.peak.2 (mem_usages calls)
  have hinsert := h.peak.insert (liveBytes (latest (storeAfter (calls ++ [c]))))
  rw [max_eq_right hle] at hinsert
  rw [usages_append_singleton, hpeak]
  exact hinsert

/-- A rejected call keeps an analysis in agreement. -/
theorem Agrees.reject {o : LiveObjects} (h : Agrees calls o)
    (hsame : storeAfter (calls ++ [c]) = storeAfter calls) : Agrees (calls ++ [c]) o := by
  constructor
  · rw [hsame]
    exact h.mirrors
  · rw [usages_append_singleton, hsame, Set.insert_eq_of_mem (mem_usages calls)]
    exact h.peak

/-! ## The dependency graph does not stop a release -/

/-- What the dependency graph holds for the blocks of a snapshot: an owner and a list of readers for
each, and nodes of earlier operations only. -/
structure Tracked (ids : List ℕ) (memory_map : MemoryMap) (d : MemoryLiveness.Dependencies) :
    Prop where
  node_mem : ∀ i, d.graph.hasNode i → i ∈ ids
  owner : ∀ e ∈ memory_map.toList, (d.obj_ownership_map.find? e.2.op_id).isSome
  readers : ∀ e ∈ memory_map.toList, (d.read_nodes.find? e.2.op_id).isSome

section Tracked

variable {ids : List ℕ} {memory_map : MemoryMap} {s : MemoryLiveness}

/-- More op ids. -/
theorem Tracked.mono {d : MemoryLiveness.Dependencies} (h : Tracked ids memory_map d) (id : ℕ) :
    Tracked (ids ++ [id]) memory_map d :=
  { h with node_mem := fun i hi => List.mem_append_left _ (h.node_mem i hi) }

/-- The graph after an allocation. -/
theorem Tracked.allocate (h : Tracked ids memory_map s.deps) (hnew : m.op_id ∉ ids) :
    Tracked (ids ++ [m.op_id]) (memory_map.set m.memory_range.start m)
      (s.memoryOpCallback m).deps := by
  have hdeps : (s.memoryOpCallback m).deps =
      { s.deps.updateGraphAtMalloc m.op_id m.stream_id .REDSHOW_MEMORY_ALLOC with
        read_nodes := (s.deps.updateGraphAtMalloc m.op_id m.stream_id
          .REDSHOW_MEMORY_ALLOC).read_nodes.emplace m.op_id [] } := rfl
  have halloc := MemoryLiveness.Dependencies.allocated_updateGraphAtMalloc s.deps m.op_id
    m.stream_id .REDSHOW_MEMORY_ALLOC
  generalize s.deps.updateGraphAtMalloc m.op_id m.stream_id .REDSHOW_MEMORY_ALLOC = d at *
  have hnode : ¬s.deps.graph.hasNode m.op_id := fun hnode => hnew (h.node_mem _ hnode)
  have howner := halloc.owner
  rw [if_neg hnode] at howner
  rw [hdeps]
  constructor
  · intro i hi
    rw [List.mem_append, List.mem_singleton]
    rcases (halloc.grows.hasNode_iff i).1 hi with rfl | hi
    · exact .inr rfl
    · exact .inl (h.node_mem i hi)
  · intro e he
    dsimp only
    rw [howner, OrderedMap.find?_emplace]
    split_ifs with hid
    · rfl
    · rcases (OrderedMap.mem_set _ _ _ e).1 he with rfl | ⟨he, -⟩
      · exact absurd rfl hid
      · exact h.owner e he
  · intro e he
    dsimp only
    rw [halloc.readers, OrderedMap.find?_emplace]
    split_ifs with hid
    · rfl
    · rcases (OrderedMap.mem_set _ _ _ e).1 he with rfl | ⟨he, -⟩
      · exact absurd rfl hid
      · exact h.readers e he

/-- A release of a live block does not fail in the graph, and keeps it in order. -/
theorem Tracked.release (h : Tracked ids memory_map s.deps) {u : Memfree} {o : LiveObjects}
    (hrelease : s.liveObjects.release u = some o)
    (hfind : memory_map.find? u.memory_range.start = some m)
    (haddress : s.addresses_map.find? u.memory_range.start = some m.op_id) :
    ∃ s', s.memfreeOpCallback u = some s' ∧ s'.liveObjects = o ∧
      Tracked (ids ++ [u.op_id]) (memory_map.erase u.memory_range.start) s'.deps := by
  have hentry := (memory_map.find?_eq_some_iff _ _).1 hfind
  obtain ⟨d, hd⟩ := MemoryLiveness.Dependencies.exists_updateGraphAtFree (h.owner _ hentry)
    (h.readers _ hentry) u.op_id u.stream_id .REDSHOW_MEMORY_FREE
  obtain ⟨owner, readers, haccess⟩ :=
    MemoryLiveness.Dependencies.accessed_updateGraphAtFree hd
  unfold LiveObjects.release MemoryLiveness.liveObjects at hrelease
  rw [haddress, Option.map_some, Option.some.injEq] at hrelease
  unfold MemoryLiveness.memfreeOpCallback
  dsimp only [MemoryLiveness.updateOpNode, MemoryLiveness.updateCtxNode,
    MemoryLiveness.memoryOperationRegister]
  rw [haddress, Option.bind_some, hd, Option.map_some]
  refine ⟨_, rfl, hrelease, ?_⟩
  have hmem : ∀ e ∈ (memory_map.erase u.memory_range.start).toList, e ∈ memory_map.toList :=
    fun e he => ((OrderedMap.mem_erase _ _ _).1 he).1
  constructor
  · intro i hi
    rw [List.mem_append, List.mem_singleton]
    rcases (haccess.grows.hasNode_iff i).1 hi with rfl | hi
    · exact .inr rfl
    · exact .inl (h.node_mem i hi)
  · intro e he
    dsimp only
    rw [haccess.owner]
    split_ifs
    · rfl
    · exact h.owner e (hmem e he)
  · intro e he
    dsimp only
    rw [haccess.readers]
    split_ifs
    · rfl
    · exact h.readers e (hmem e he)

end Tracked

/-! ## Runs -/

/-- The state after calls. -/
structure Tools.Inv (calls : List MemoryCall) (s : Tools) : Prop where
  snapshot : s.memory_snapshot = storeAfter calls
  blocks : Blocks (calls.map MemoryCall.host_op_id) (latest (storeAfter calls))
  tracked : Tracked (calls.map MemoryCall.host_op_id) (latest (storeAfter calls))
    s.memory_liveness.deps
  liveness : Agrees calls s.memory_liveness.liveObjects
  monitor : Agrees calls s.torch_monitor.liveObjects

/-- Before the first call there is nothing to agree on. -/
theorem Tools.inv_empty : Inv [] empty := by
  have hagrees : Agrees [] ⟨∅, ∅, 0, 0⟩ := by
    refine ⟨⟨by simp [storeAfter, latest], fun a => rfl, rfl⟩, mem_usages [], ?_⟩
    rintro n ⟨before, hpre, rfl⟩
    rw [List.prefix_nil.1 hpre]
    exact le_rfl
  constructor
  · rfl
  · constructor <;> simp [storeAfter, latest]
  · constructor <;>
      simp [storeAfter, latest, empty, MemoryLiveness.empty, MemoryLiveness.Dependencies.empty]
  · exact hagrees
  · exact hagrees

namespace Tools

variable {s : Tools} (hs : Inv calls s)
  (hids : ∀ id ∈ calls.map MemoryCall.host_op_id, id < c.host_op_id)
  (hc : Promised (latest (storeAfter calls)) c)

include hs hids hc

/-- After an accepted register. -/
theorem Inv.opCallback_register (hreg : c.registered = some m)
    (hnone : (latest (storeAfter calls)).find? c.start = none)
    (hlatest : latest (storeAfter (calls ++ [c])) = c.apply (latest (storeAfter calls))) :
    ∃ s', opCallback { s with memory_snapshot := storeAfter (calls ++ [c]) } c = some s' ∧
      Inv (calls ++ [c]) s' := by
  cases c with
  | unregister stream_id memory_id host_op_id start stop =>
    exact absurd hreg (by simp [MemoryCall.registered])
  | register stream_id memory_id host_op_id start stop value value_cache =>
    let m := Memory.ofRange stream_id host_op_id memory_id ⟨start, stop⟩ value value_cache
    have hnew : m.op_id ∉ calls.map MemoryCall.host_op_id := fun hmem => lt_irrefl _ (hids _ hmem)
    have hblocks := hs.blocks.set hnone hnew rfl (hc.bounded _ rfl) (hc.apart _ rfl)
    have hlt := hblocks.liveBytes_lt
    refine ⟨_, rfl, rfl, ?_, ?_, ?_, ?_⟩
    · rw [List.map_append, hlatest]
      exact hblocks
    · rw [List.map_append, hlatest]
      exact hs.tracked.allocate hnew
    · exact hs.liveness.allocate hs.blocks hnone hnew hlatest (hlatest ▸ hlt)
    · exact hs.monitor.allocate hs.blocks hnone hnew hlatest (hlatest ▸ hlt)

/-- After an accepted unregister. -/
theorem Inv.opCallback_unregister (hreg : c.registered = none)
    (hfind : (latest (storeAfter calls)).find? c.start = some m)
    (hlatest : latest (storeAfter (calls ++ [c])) = c.apply (latest (storeAfter calls))) :
    ∃ s', opCallback { s with memory_snapshot := storeAfter (calls ++ [c]) } c = some s' ∧
      Inv (calls ++ [c]) s' := by
  cases c with
  | register stream_id memory_id host_op_id start stop value value_cache =>
    exact absurd hreg (by simp [MemoryCall.registered])
  | unregister stream_id memory_id host_op_id start stop =>
    have hentry := ((latest (storeAfter calls)).find?_eq_some_iff _ _).1 hfind
    have hrange : m.memory_range = ⟨start, stop⟩ := hc.range _ rfl m hfind
    have hlen : subU64 stop start = m.len := by rw [hs.blocks.len_eq _ hentry, hrange]
    let u := Memfree.ofRange stream_id host_op_id memory_id ⟨start, stop⟩
    obtain ⟨o, ho, hliveness⟩ := hs.liveness.release (u := u) hs.blocks hfind hlen hlatest
    obtain ⟨o', ho', hmonitor⟩ := hs.monitor.release (u := u) hs.blocks hfind hlen hlatest
    have haddress : s.memory_liveness.addresses_map.find? start = some m.op_id :=
      (hs.liveness.mirrors.addresses start).trans (congrArg (Option.map Memory.op_id) hfind)
    obtain ⟨l, hl, rfl, htracked⟩ := hs.tracked.release ho hfind haddress
    obtain ⟨t, ht, rfl⟩ : ∃ t, s.torch_monitor.memfreeOpCallback u = some t ∧
        t.liveObjects = o' := by
      obtain ⟨id, hid, rfl⟩ := Option.map_eq_some_iff.1 ho'
      refine ⟨_, Option.map_eq_some_iff.2 ⟨id, hid, rfl⟩, rfl⟩
    refine ⟨⟨storeAfter (calls ++ [.unregister stream_id memory_id host_op_id start stop]), l, t⟩,
      ?_, rfl, ?_, ?_, hliveness, hmonitor⟩
    · unfold opCallback
      dsimp only
      rw [hl, Option.bind_some, ht, Option.map_some]
    · rw [List.map_append, hlatest]
      exact hs.blocks.erase start host_op_id
    · rw [List.map_append, hlatest]
      exact htracked

/-- A call with a larger id than those before it. -/
theorem Inv.step : ∃ s', Tools.step s c = some s' ∧ Inv (calls ++ [c]) s' := by
  have hafter := storeAfter_append_singleton calls c
  unfold Tools.step
  dsimp only
  rw [hs.snapshot]
  rcases latest_storeStep (lt_of_mem_storeAfter hids) with ⟨hacc, hres, hlatest⟩ | ⟨hres, hsame⟩
  · rw [if_pos hres, ← hafter]
    rw [← hafter] at hlatest
    have hcontent := contentAt_of_ge fun e he => (lt_of_mem_storeAfter hids e he).le
    unfold MemoryCall.Accepted at hacc
    rw [hcontent] at hacc
    cases hreg : c.registered with
    | some m =>
      rw [hreg] at hacc
      refine hs.opCallback_register hids hc hreg ?_ hlatest
      rcases hacc with hsize | ⟨-, hnone⟩
      · rw [← hcontent, contentAt_of_size hsize]
        rfl
      · exact hnone
    | none =>
      rw [hreg] at hacc
      obtain ⟨m, hm⟩ := Option.isSome_iff_exists.1 hacc.2
      exact hs.opCallback_unregister hids hc hreg hm hlatest
  · have hsame' : storeAfter (calls ++ [c]) = storeAfter calls := hafter.trans hsame
    rw [if_neg hres, ← hafter]
    refine ⟨_, rfl, rfl, ?_, ?_, hs.liveness.reject hsame', hs.monitor.reject hsame'⟩
    · rw [List.map_append, hsame']
      exact hs.blocks.mono _
    · rw [List.map_append, hsame']
      exact hs.tracked.mono _

end Tools

/-- After calls with increasing ids, which are promised what they rely on, everything is in step. -/
theorem Tools.inv_run (hids : (calls.map MemoryCall.host_op_id).Pairwise (· < ·))
    (hcalls : ∀ before c later, calls = before ++ c :: later →
      Promised (latest (storeAfter before)) c) :
    ∃ s, run Tools.step Tools.empty calls = some s ∧ Tools.Inv calls s := by
  induction calls using List.reverseRecOn with
  | nil => exact ⟨_, rfl, Tools.inv_empty⟩
  | append_singleton calls c ih =>
    rw [List.map_append, List.pairwise_append] at hids
    obtain ⟨s, hrun, hs⟩ := ih hids.1 fun before c' later heq => by
      refine hcalls before c' (later ++ [c]) ?_
      rw [heq, List.append_assoc, List.cons_append]
    obtain ⟨s', hstep, hs'⟩ := hs.step (fun id hid => hids.2.2 id hid _ (by simp))
      (hcalls calls c [] rfl)
    refine ⟨s', ?_, hs'⟩
    rw [run_append, hrun, Option.bind_some, run_cons, hstep]
    rfl

/-- For all calls with increasing ids: after every one of them no callback has failed, the store is
that of the calls alone, and both analyses agree with it. -/
theorem agrees_run (hids : (calls.map MemoryCall.host_op_id).Pairwise (· < ·))
    (hcalls : ∀ before c later, calls = before ++ c :: later →
      Promised (latest (storeAfter before)) c) {done : List MemoryCall} (hdone : done <+: calls) :
    ∃ s, run Tools.step Tools.empty done = some s ∧ s.memory_snapshot = storeAfter done ∧
      Agrees done s.memory_liveness.liveObjects ∧ Agrees done s.torch_monitor.liveObjects := by
  obtain ⟨rest, rfl⟩ := hdone
  rw [List.map_append, List.pairwise_append] at hids
  obtain ⟨s, hrun, hs⟩ := Tools.inv_run hids.1 fun before c later heq => by
    refine hcalls before c (later ++ rest) ?_
    rw [heq, List.append_assoc, List.cons_append]
  exact ⟨s, hrun, hs.snapshot, hs.liveness, hs.monitor⟩

/-- A block is registered, registered again in vain, released, and its address used again. -/
def reusedAddress : List MemoryCall :=
  [.register 0 1 1 100 110 1000 2000, .register 0 1 2 100 120 3000 4000,
    .register 0 1 3 200 230 5000 6000, .unregister 0 1 4 100 110, .unregister 0 1 5 100 110,
    .register 0 1 6 100 105 1000 2000]

/-- The statement about the agreement of the analyses with the store applies to calls two of which
are rejected. -/
theorem agrees_run_reusedAddress : ∃ s, run Tools.step Tools.empty reusedAddress = some s ∧
    s.memory_snapshot = storeAfter reusedAddress ∧
      Agrees reusedAddress s.memory_liveness.liveObjects ∧
        Agrees reusedAddress s.torch_monitor.liveObjects := by
  refine @agrees_run reusedAddress (by decide) (fun before c later heq => ?_) _ List.prefix_rfl
  rcases before with _ | ⟨c₁, _ | ⟨c₂, _ | ⟨c₃, _ | ⟨c₄, _ | ⟨c₅, _ | ⟨c₆, rest⟩⟩⟩⟩⟩⟩ <;>
    simp only [reusedAddress, List.cons_append, List.nil_append, List.cons.injEq] at heq
  · obtain ⟨rfl, -⟩ := heq
    exact ⟨by decide, by decide, by decide⟩
  · obtain ⟨rfl, rfl, -⟩ := heq
    exact ⟨by decide, by decide, by decide⟩
  · obtain ⟨rfl, rfl, rfl, -⟩ := heq
    exact ⟨by decide, by decide, by decide⟩
  · obtain ⟨rfl, rfl, rfl, rfl, -⟩ := heq
    exact ⟨by decide, by decide, by decide⟩
  · obtain ⟨rfl, rfl, rfl, rfl, rfl, -⟩ := heq
    exact ⟨by decide, by decide, by decide⟩
  · obtain ⟨rfl, rfl, rfl, rfl, rfl, rfl, -⟩ := heq
    exact ⟨by decide, by decide, by decide⟩
  · exact absurd heq (by simp)

end TenProf
