import TenProf.GpuPatch.AddressPatch

/-!
# The accounts of the callbacks that store addresses

A step of the system is one of a few moves (`patchStep_move`). Every move keeps what the queue has
taken equal to what was recorded, and as long as threads are left `num_threads` is not zero
(`Running`). A lane that has decided to keep its read does so for ever, and a lane drops its read
only when the mark of its object is set, which was there at the start or was made by a lane that
keeps its read (`Filtering`). When `num_threads` is zero, all callbacks have ended: each access is
recorded as it is, or the reads that are dropped have objects whose marks are set
(`Accounts.finished`).
-/

namespace TenProf.GpuPatch

open Warp (ballot getLsbD_ballot)

variable (dict : Option AddressDict) (frequency offset size : ℕ) (analysis : Bool) {W : ℕ}

/-! ## The moves -/

/-- What a step does to the state. -/
inductive PatchMove (s : PatchState W) : PatchState W → Prop
  -- A callback in a block that is not sampled.
  | skip : PatchMove s s
  | filter (w : Fin W) (a : AddressAccess) (hfiltered : isFiltered dict a = true)
      (hthreads : s.threads w ≠ 0) (hfilter : s.filters w = none) :
      PatchMove s { s with
        accesses := s.accesses ++ [a]
        filters := Function.update s.filters w (some ⟨a, fun _ => .start⟩) }
  | access (w : Fin W) (a : AddressAccess) (queue : GpuQueue.State W addressWords)
      (hunfiltered : isFiltered dict a = false) (hthreads : s.threads w ≠ 0)
      (hfilter : s.filters w = none)
      (hqueue : GpuQueue.step size analysis s.queue (.enter w (a.stores a.active_mask)) =
        some queue) :
      PatchMove s { s with
        queue := queue
        filters := Function.update s.filters w none
        accesses := s.accesses ++ [a]
        recorded := s.recorded ++ [(a, a.active_mask)] }
  | lane (w : Fin W) (f : Filter) (laneid : ℕ) (d : AddressDict) (s' : PatchState W)
      (hdict : dict = some d) (hfilter : s.filters w = some f) (hlane : laneid ∈ f.access.lanes)
      (hstep : s.lane d w f laneid = some s') : PatchMove s s'
  -- All lanes drop their reads: the callback returns without a record.
  | drop (w : Fin W) (f : Filter) (hfilter : s.filters w = some f) (hsettled : f.Settled)
      (hzero : f.allKeep = 0) :
      PatchMove s { s with filters := Function.update s.filters w none }
  | keep (w : Fin W) (f : Filter) (queue : GpuQueue.State W addressWords)
      (hfilter : s.filters w = some f) (hsettled : f.Settled)
      (hqueue : GpuQueue.step size analysis s.queue (.enter w (f.access.stores f.allKeep)) =
        some queue) :
      PatchMove s { s with
        queue := queue
        filters := Function.update s.filters w none
        recorded := s.recorded ++ [(f.access, f.allKeep)] }
  -- A warp goes on inside of the queue, or the consumer does.
  | queue (a : GpuQueue.Action W addressWords) (queue : GpuQueue.State W addressWords)
      (hentering : a.entering = 0) (henter : ∀ v r, a ≠ .enter v r)
      (hqueue : GpuQueue.step size analysis s.queue a = some queue) :
      PatchMove s { s with queue := queue }
  | exit (w : Fin W) (e : ActiveWarp) (hidle : s.isIdle w = true)
      (hle : e.lanes.length ≤ s.threads w) : PatchMove s (blockExit frequency offset s w e)

variable {dict frequency offset size analysis} {s s' : PatchState W} {a : PatchAction W}

/-- A warp outside of the callbacks. -/
theorem PatchState.isIdle_iff {w : Fin W} :
    s.isIdle w = true ↔ s.queue.warps w = .idle ∧ s.filters w = none := by
  unfold isIdle
  cases s.queue.warps w <;> cases s.filters w <;> simp

/-- The record of a warp comes into the queue. -/
theorem PatchState.record_eq {w : Fin W} {b : AddressAccess} {all_keep : BitVec 32}
    (h : s.record size analysis w b all_keep = some s') :
    ∃ queue, GpuQueue.step size analysis s.queue (.enter w (b.stores all_keep)) = some queue ∧
      s' = { s with
        queue := queue
        filters := Function.update s.filters w none
        recorded := s.recorded ++ [(b, all_keep)] } := by
  obtain ⟨queue, hqueue, rfl⟩ := Option.map_eq_some_iff.1 h
  exact ⟨queue, hqueue, rfl⟩

/-- A step is one of the moves. -/
theorem patchStep_move (h : patchStep dict frequency offset size analysis s a = some s') :
    PatchMove dict frequency offset size analysis s s' := by
  cases a with
  | callback w b =>
    unfold patchStep at h
    dsimp only at h
    split_ifs at h with hw
    obtain ⟨hidle, hthreads⟩ := hw
    have hfilter := (PatchState.isIdle_iff.1 hidle).2
    unfold accessCallback at h
    dsimp only at h
    split_ifs at h with hsampled hfiltered
    · obtain rfl := Option.some.inj h
      exact .filter w b hfiltered hthreads hfilter
    · obtain ⟨queue, hqueue, rfl⟩ := PatchState.record_eq h
      exact .access w b queue (Bool.eq_false_iff.2 hfiltered) hthreads hfilter hqueue
    · obtain rfl := Option.some.inj h
      exact .skip
  | lane w laneid =>
    obtain ⟨d, hdict, h⟩ := Option.bind_eq_some_iff.1 h
    obtain ⟨f, hfilter, h⟩ := Option.bind_eq_some_iff.1 h
    split_ifs at h with hlane
    exact .lane w f laneid d s' hdict hfilter hlane h
  | join w =>
    obtain ⟨f, hfilter, h⟩ := Option.bind_eq_some_iff.1 h
    unfold PatchState.join at h
    split_ifs at h with hsettled hzero
    · obtain rfl := Option.some.inj h
      exact .drop w f hfilter hsettled hzero
    · obtain ⟨queue, hqueue, rfl⟩ := PatchState.record_eq h
      exact .keep w f queue hfilter hsettled hqueue
  | warp w =>
    obtain ⟨queue, hqueue, rfl⟩ := Option.map_eq_some_iff.1 h
    exact .queue (.warp w) queue rfl (fun _ _ => nofun) hqueue
  | block_exit w e =>
    unfold patchStep at h
    dsimp only at h
    split_ifs at h with hw
    obtain rfl := Option.some.inj h
    exact .exit w e hw.1 hw.2
  | consumer =>
    obtain rfl := Option.some.inj h
    exact .queue .consumer _ rfl (fun _ _ => nofun) rfl

/-- A lane takes a step in its own filter, and sets at most a mark. -/
theorem PatchState.lane_eq {d : AddressDict} {w : Fin W} {f : Filter} {laneid : ℕ}
    (h : s.lane d w f laneid = some s') :
    ∃ v hit, (∀ keep, f.lanes laneid ≠ .done keep) ∧
      s' = { s with
        filters := Function.update s.filters w (some (f.setLane laneid v))
        hit := hit } ∧
      (f.lanes laneid = .start ∧ hit = s.hit ∧
          (d.findPrev (f.access.address laneid) ≠ d.size ∧
              (s.hit (d.findPrev (f.access.address laneid)) = 0 ∧
                v = .first (d.findPrev (f.access.address laneid)) ∨
              s.hit (d.findPrev (f.access.address laneid)) ≠ 0 ∧ v = .done false) ∨
            d.findPrev (f.access.address laneid) = d.size ∧ v = .done true) ∨
        ∃ pos, f.lanes laneid = .first pos ∧ v = .done true ∧
          hit = Function.update s.hit pos 1) := by
  unfold lane at h
  dsimp only at h
  cases hlane : f.lanes laneid with
  | start =>
    rw [hlane] at h
    dsimp only at h
    split_ifs at h with hpos hhit
    · obtain rfl := Option.some.inj h
      exact ⟨_, s.hit, fun _ => nofun, rfl, .inl ⟨rfl, rfl, .inl ⟨hpos, .inl ⟨hhit, rfl⟩⟩⟩⟩
    · obtain rfl := Option.some.inj h
      exact ⟨_, s.hit, fun _ => nofun, rfl, .inl ⟨rfl, rfl, .inl ⟨hpos, .inr ⟨hhit, rfl⟩⟩⟩⟩
    · obtain rfl := Option.some.inj h
      exact ⟨_, s.hit, fun _ => nofun, rfl, .inl ⟨rfl, rfl, .inr ⟨not_not.1 hpos, rfl⟩⟩⟩
  | first pos =>
    rw [hlane] at h
    obtain rfl := Option.some.inj h
    exact ⟨_, _, fun _ => nofun, rfl, .inr ⟨pos, rfl, rfl, rfl⟩⟩
  | done keep =>
    rw [hlane] at h
    cases h

/-! ## The queue and the threads -/

/-- A difference that is not negative does not wrap around. -/
theorem subU32_of_le {n k : ℕ} (hle : k ≤ n) (hlt : n < 2^32) : subU32 n k = n - k := by
  unfold subU32
  rw [Nat.sub_add_comm hle, Nat.add_mod_right, Nat.mod_eq_of_lt ((Nat.sub_le _ _).trans_lt hlt)]

/-- Some of the threads of a warp leave. -/
theorem sum_update_sub (threads : Fin W → ℕ) {w : Fin W} {n : ℕ} (hle : n ≤ threads w) :
    ∑ v, Function.update threads w (threads w - n) v + n = ∑ v, threads v := by
  have hrest : ∑ v ∈ Finset.univ.erase w, Function.update threads w (threads w - n) v =
      ∑ v ∈ Finset.univ.erase w, threads v :=
    Finset.sum_congr rfl fun v hv => Function.update_of_ne (Finset.ne_of_mem_erase hv) _ _
  rw [← Finset.add_sum_erase _ _ (Finset.mem_univ w), hrest, Function.update_self,
    ← Finset.add_sum_erase Finset.univ threads (Finset.mem_univ w)]
  omega

/-- What the queue has taken is what was recorded. A warp in a callback has threads, and
`num_threads` counts all threads. -/
structure Running (size : ℕ) (analysis : Bool) (s : PatchState W) : Prop where
  inv : GpuQueue.Inv size analysis s.queue
  taken : s.queue.taken =
    (s.recorded.map fun p => p.1.stores p.2 : List (GpuQueue.Stores addressWords))
  threads_le : ∑ w, s.threads w ≤ s.num_threads
  num_threads_lt : s.num_threads < 2^32
  idle : ∀ w, s.threads w = 0 → s.queue.warps w = .idle ∧ s.filters w = none

namespace Running

/-- At the start no warp is in a callback. -/
theorem start {threads : Fin W → ℕ} {num_threads : ℕ} (hit : ℕ → ℕ)
    (records : ℕ → GpuQueue.Record addressWords) (hthreads : ∑ w, threads w ≤ num_threads)
    (hlt : num_threads < 2^32) :
    Running size analysis (PatchState.start threads num_threads hit records) where
  inv := GpuQueue.inv_start records
  taken := GpuQueue.taken_start records
  threads_le := hthreads
  num_threads_lt := hlt
  idle _ _ := ⟨rfl, rfl⟩

variable (h : Running size analysis s)

include h

/-- A warp that has threads brings a record into the queue. -/
theorem enter (hfits : GpuQueue.Fits size W) {w : Fin W} {queue : GpuQueue.State W addressWords}
    {b : AddressAccess} {all_keep : BitVec 32} (accesses : List AddressAccess)
    (hthreads : s.threads w ≠ 0)
    (hqueue : GpuQueue.step size analysis s.queue (.enter w (b.stores all_keep)) = some queue) :
    Running size analysis { s with
      queue := queue
      filters := Function.update s.filters w none
      accesses := accesses
      recorded := s.recorded ++ [(b, all_keep)] } where
  inv := h.inv.step hfits hqueue
  taken := by
    rw [GpuQueue.taken_step hqueue, h.taken, List.map_append, ← Multiset.coe_add]
    rfl
  threads_le := h.threads_le
  num_threads_lt := h.num_threads_lt
  idle v hv := by
    -- A warp without threads is not the one that enters, so it stays where it is.
    have hne : v ≠ w := fun heq => hthreads (heq ▸ hv)
    obtain ⟨hwarp, hfilter⟩ := h.idle v hv
    refine ⟨GpuQueue.idle_step hqueue (fun r heq => ?_) hwarp, ?_⟩
    · cases heq
      exact hne rfl
    · exact (Function.update_of_ne hne _ _).trans hfilter

/-- A warp that has threads changes its filter. -/
theorem setFilter {w : Fin W} (filter : Option Filter) (hit : ℕ → ℕ)
    (accesses : List AddressAccess) (hthreads : filter = none ∨ s.threads w ≠ 0) :
    Running size analysis { s with
      filters := Function.update s.filters w filter
      hit := hit
      accesses := accesses } :=
  { h with
    idle := fun v hv => by
      obtain ⟨hwarp, hfilter⟩ := h.idle v hv
      refine ⟨hwarp, ?_⟩
      by_cases heq : v = w
      · subst heq
        exact (Function.update_self _ _ _).trans (hthreads.resolve_right fun hne => hne hv)
      · exact (Function.update_of_ne heq _ _).trans hfilter }

/-- A warp with a filter has threads. -/
theorem threads_ne {w : Fin W} {f : Filter} (hfilter : s.filters w = some f) :
    s.threads w ≠ 0 := by
  intro hzero
  cases hfilter.symm.trans (h.idle w hzero).2

/-- Threads exit. -/
theorem exit {w : Fin W} {e : ActiveWarp} (hidle : s.isIdle w = true)
    (hle : e.lanes.length ≤ s.threads w) :
    Running size analysis (blockExit frequency offset s w e) := by
  have hsum := sum_update_sub s.threads hle
  have hthreads := h.threads_le
  have hidle' : ∀ v, Function.update s.threads w (s.threads w - e.lanes.length) v = 0 →
      s.queue.warps v = .idle ∧ s.filters v = none := by
    intro v hv
    by_cases heq : v = w
    · exact heq ▸ PatchState.isIdle_iff.1 hidle
    · exact h.idle v ((Function.update_of_ne heq _ _).symm.trans hv)
  unfold blockExit
  dsimp only
  -- In a block that is not sampled only the threads of the warp get fewer, not `num_threads`.
  generalize e.lanes.length = n at *
  have hrest : ∑ v, Function.update s.threads w (s.threads w - n) v ≤ s.num_threads - n := by
    omega
  split_ifs
  · have hle' : n ≤ s.num_threads := (Nat.le_add_left _ _).trans (hsum.le.trans hthreads)
    have hsub := subU32_of_le hle' h.num_threads_lt
    refine ⟨h.inv, h.taken, ?_, ?_, hidle'⟩
    · exact hrest.trans_eq hsub.symm
    · exact hsub.trans_lt ((Nat.sub_le _ _).trans_lt h.num_threads_lt)
  · exact ⟨h.inv, h.taken, hrest.trans (Nat.sub_le _ _), h.num_threads_lt, hidle'⟩

/-- A move of the system. -/
theorem move (hfits : GpuQueue.Fits size W)
    (hmove : PatchMove dict frequency offset size analysis s s') :
    Running size analysis s' := by
  cases hmove with
  | skip => exact h
  | filter w b hfiltered hthreads hfilter => exact h.setFilter _ _ _ (.inr hthreads)
  | access w b queue hunfiltered hthreads hfilter hqueue =>
    exact h.enter hfits _ hthreads hqueue
  | lane w f laneid d s' hdict hfilter hlane hstep =>
    obtain ⟨v, hit, -, rfl, -⟩ := PatchState.lane_eq hstep
    exact h.setFilter _ _ _ (.inr (h.threads_ne hfilter))
  | drop w f hfilter hsettled hzero => exact h.setFilter _ _ _ (.inl rfl)
  | keep w f queue hfilter hsettled hqueue =>
    exact h.enter hfits _ (h.threads_ne hfilter) hqueue
  | queue action queue hentering henter hqueue =>
    refine ⟨h.inv.step hfits hqueue, ?_, h.threads_le, h.num_threads_lt, fun v hv => ?_⟩
    · show queue.taken = _
      rw [GpuQueue.taken_step hqueue, hentering, add_zero, h.taken]
    · obtain ⟨hwarp, hfilter⟩ := h.idle v hv
      exact ⟨GpuQueue.idle_step hqueue (henter v) hwarp, hfilter⟩
  | exit w e hidle hle => exact h.exit hidle hle

/-- When no threads are left, all warps are outside of the callbacks. -/
theorem idle_of_zero (hzero : s.num_threads = 0) (w : Fin W) :
    s.queue.warps w = .idle ∧ s.filters w = none := by
  have hsum := h.threads_le
  rw [hzero, Nat.le_zero, Finset.sum_eq_zero_iff] at hsum
  exact h.idle w (hsum w (Finset.mem_univ w))

end Running

/-! ## The accesses that are recorded -/

/-- Only accesses of callbacks are recorded, and those whose reads are not filtered are, with all
active lanes. -/
structure Recorded (dict : Option AddressDict) (s : PatchState W) : Prop where
  accesses : ∀ p ∈ s.recorded, p.1 ∈ s.accesses
  mask : ∀ p ∈ s.recorded, isFiltered dict p.1 = false → p.2 = p.1.active_mask
  filters : ∀ w f, s.filters w = some f → f.access ∈ s.accesses ∧ isFiltered dict f.access = true
  unfiltered : ∀ b ∈ s.accesses, isFiltered dict b = false → (b, b.active_mask) ∈ s.recorded

/-- The exit of threads changes their numbers only. -/
theorem blockExit_frame (s : PatchState W) (w : Fin W) (e : ActiveWarp) :
    (blockExit frequency offset s w e).filters = s.filters ∧
      (blockExit frequency offset s w e).hit = s.hit ∧
      (blockExit frequency offset s w e).accesses = s.accesses ∧
      (blockExit frequency offset s w e).recorded = s.recorded := by
  unfold blockExit
  dsimp only
  split_ifs <;> exact ⟨rfl, rfl, rfl, rfl⟩

/-- The filters after one of them is set. -/
theorem filters_update {filters : Fin W → Option Filter} {w v : Fin W} {filter : Option Filter}
    {f : Filter} (h : Function.update filters w filter v = some f) :
    v = w ∧ filter = some f ∨ v ≠ w ∧ filters v = some f := by
  by_cases heq : v = w
  · subst heq
    rw [Function.update_self] at h
    exact .inl ⟨rfl, h⟩
  · rw [Function.update_of_ne heq] at h
    exact .inr ⟨heq, h⟩

namespace Recorded

/-- At the start nothing is recorded. -/
theorem start (threads : Fin W → ℕ) (num_threads : ℕ) (hit : ℕ → ℕ)
    (records : ℕ → GpuQueue.Record addressWords) :
    Recorded dict (PatchState.start threads num_threads hit records) where
  accesses := nofun
  mask := nofun
  filters _ _ := nofun
  unfiltered := nofun

variable (h : Recorded dict s)

include h

/-- What the accounts depend on. -/
theorem congr (hfilters : s'.filters = s.filters) (haccesses : s'.accesses = s.accesses)
    (hrecorded : s'.recorded = s.recorded) : Recorded dict s' := by
  constructor
  · rw [hrecorded, haccesses]
    exact h.accesses
  · rw [hrecorded]
    exact h.mask
  · rw [hfilters, haccesses]
    exact h.filters
  · rw [hrecorded, haccesses]
    exact h.unfiltered

/-- An access of a callback, recorded with some of its lanes, and with all active ones if its reads
are not filtered. -/
theorem record {w : Fin W} {b : AddressAccess} {all_keep : BitVec 32}
    {accesses : List AddressAccess} (queue : GpuQueue.State W addressWords)
    (hsub : ∀ b' ∈ s.accesses, b' ∈ accesses) (hmem : b ∈ accesses)
    (hnew : ∀ b' ∈ accesses, b' ∈ s.accesses ∨ b' = b)
    (hmask : isFiltered dict b = false → all_keep = b.active_mask) :
    Recorded dict { s with
      queue := queue
      filters := Function.update s.filters w none
      accesses := accesses
      recorded := s.recorded ++ [(b, all_keep)] } where
  accesses p hp := by
    rcases List.mem_append.1 hp with hp | hp
    · exact hsub _ (h.accesses p hp)
    · obtain rfl := List.mem_singleton.1 hp
      exact hmem
  mask p hp hunfiltered := by
    rcases List.mem_append.1 hp with hp | hp
    · exact h.mask p hp hunfiltered
    · obtain rfl := List.mem_singleton.1 hp
      exact hmask hunfiltered
  filters v f hf := by
    obtain ⟨-, hnone⟩ | ⟨-, hf⟩ := filters_update hf
    · cases hnone
    · exact ⟨hsub _ (h.filters v f hf).1, (h.filters v f hf).2⟩
  unfiltered b' hb' hunfiltered := by
    -- The access itself is the one that was just recorded.
    rcases hnew b' hb' with hold | rfl
    · exact List.mem_append_left _ (h.unfiltered b' hold hunfiltered)
    · exact List.mem_append_right _ (List.mem_singleton.2 (by rw [hmask hunfiltered]))

/-- A move of the system. -/
theorem move (hmove : PatchMove dict frequency offset size analysis s s') : Recorded dict s' := by
  cases hmove with
  | skip => exact h
  | filter w b hfiltered hthreads hfilter =>
    refine ⟨fun p hp => List.mem_append_left _ (h.accesses p hp), h.mask, fun v f hf => ?_,
      fun b' hb' hunfiltered => ?_⟩
    · obtain ⟨-, hf⟩ | ⟨-, hf⟩ := filters_update hf
      · obtain rfl := Option.some.inj hf
        exact ⟨List.mem_append_right _ (List.mem_singleton.2 rfl), hfiltered⟩
      · exact ⟨List.mem_append_left _ (h.filters v f hf).1, (h.filters v f hf).2⟩
    · rcases List.mem_append.1 hb' with hb' | hb'
      · exact h.unfiltered b' hb' hunfiltered
      · rw [List.mem_singleton.1 hb', hfiltered] at hunfiltered
        cases hunfiltered
  | access w b queue hunfiltered hthreads hfilter hqueue =>
    exact h.record queue (fun _ => List.mem_append_left _)
      (List.mem_append_right _ (List.mem_singleton.2 rfl))
      (fun b' hb' => (List.mem_append.1 hb').imp id List.mem_singleton.1) fun _ => rfl
  | lane w f laneid d s' hdict hfilter hlane hstep =>
    obtain ⟨v, hit, -, rfl, -⟩ := PatchState.lane_eq hstep
    refine ⟨h.accesses, h.mask, fun v' f' hf' => ?_, h.unfiltered⟩
    obtain ⟨-, hf'⟩ | ⟨-, hf'⟩ := filters_update hf'
    · obtain rfl := Option.some.inj hf'
      exact h.filters w f hfilter
    · exact h.filters v' f' hf'
  | drop w f hfilter hsettled hzero =>
    refine ⟨h.accesses, h.mask, fun v' f' hf' => ?_, h.unfiltered⟩
    obtain ⟨-, hf'⟩ | ⟨-, hf'⟩ := filters_update hf'
    · cases hf'
    · exact h.filters v' f' hf'
  | keep w f queue hfilter hsettled hqueue =>
    obtain ⟨hmem, hfiltered⟩ := h.filters w f hfilter
    refine h.record queue (fun _ => id) hmem (fun _ => .inl) fun hunfiltered => ?_
    rw [hfiltered] at hunfiltered
    cases hunfiltered
  | queue action queue hentering henter hqueue => exact h.congr rfl rfl rfl
  | exit w e hidle hle =>
    obtain ⟨hfilters, -, haccesses, hrecorded⟩ := blockExit_frame s w e
    exact h.congr hfilters haccesses hrecorded

end Recorded

/-! ## The reads that are dropped -/

/-- A lane that has decided to keep its read is in the ballot. -/
theorem Filter.getLsbD_allKeep {f : Filter} {l : ℕ} (hl : l ∈ f.access.lanes)
    (hkeep : f.lanes l = .done true) : f.allKeep.getLsbD l = true := by
  obtain ⟨hlt, hactive⟩ := ActiveWarp.mem_lanes_iff.1 hl
  unfold allKeep
  rw [getLsbD_ballot _ hlt, hactive, hkeep]
  rfl

/-- A lane keeps its read: it is recorded, or the lane has decided so. -/
def PatchState.Keeps (s : PatchState W) (b : AddressAccess) (l : ℕ) : Prop :=
  (∃ all_keep : BitVec 32, (b, all_keep) ∈ s.recorded ∧ all_keep.getLsbD l = true) ∨
    ∃ w f, s.filters w = some f ∧ f.access = b ∧ f.lanes l = .done true

/-- The mark of the object that starts last at an address or before is set. -/
def PatchState.Marked (d : AddressDict) (s : PatchState W) (address : ℕ) : Prop :=
  d.findPrev address ≠ d.size ∧ s.hit (d.findPrev address) ≠ 0

/-- A lane drops its read only if the mark of its object is set, and a mark was set at the start or
is set by a lane that keeps its read. -/
structure Filtering (d : AddressDict) (hit : ℕ → ℕ) (s : PatchState W) : Prop where
  first : ∀ w f l pos, s.filters w = some f → f.lanes l = .first pos →
    pos = d.findPrev (f.access.address l)
  done : ∀ w f l, s.filters w = some f → f.lanes l = .done false →
    s.Marked d (f.access.address l)
  marks : ∀ pos, s.hit pos ≠ 0 → hit pos ≠ 0 ∨ ∃ b l, b ∈ s.accesses ∧
    isFiltered (some d) b = true ∧ l ∈ b.lanes ∧ d.findPrev (b.address l) = pos ∧ s.Keeps b l
  settled : ∀ b ∈ s.accesses, isFiltered (some d) b = true →
    (∃ w f, s.filters w = some f ∧ f.access = b) ∨
      ∀ l ∈ b.lanes, s.Keeps b l ∨ s.Marked d (b.address l)

namespace Filtering

variable {d : AddressDict} {hit : ℕ → ℕ}

/-- At the start there are no filters. -/
theorem start (threads : Fin W → ℕ) (num_threads : ℕ) (records : ℕ → GpuQueue.Record addressWords) :
    Filtering d hit (PatchState.start threads num_threads hit records) where
  first _ _ _ _ := nofun
  done _ _ _ := nofun
  marks _ hpos := .inl hpos
  settled := nofun

variable (h : Filtering d hit s)

include h

/-- What the accounts depend on. -/
theorem congr (hfilters : s'.filters = s.filters) (hhit : s'.hit = s.hit)
    (haccesses : s'.accesses = s.accesses) (hrecorded : s'.recorded = s.recorded) :
    Filtering d hit s' := by
  have hkeeps : s'.Keeps = s.Keeps := by
    unfold PatchState.Keeps
    rw [hfilters, hrecorded]
  have hmarked : s'.Marked d = s.Marked d := by
    unfold PatchState.Marked
    rw [hhit]
  constructor
  · rw [hfilters]
    exact h.first
  · rw [hfilters, hmarked]
    exact h.done
  · rw [hhit, haccesses, hkeeps]
    exact h.marks
  · rw [hfilters, haccesses, hkeeps, hmarked]
    exact h.settled

/-- A warp begins to look for its objects. -/
theorem filter {w : Fin W} {b : AddressAccess} (hfilter : s.filters w = none) :
    Filtering d hit { s with
      accesses := s.accesses ++ [b]
      filters := Function.update s.filters w (some ⟨b, fun _ => .start⟩) } := by
  -- The warp had no filter, so the others are still there.
  have hold : ∀ v f, s.filters v = some f →
      Function.update s.filters w (some ⟨b, fun _ => .start⟩) v = some f := by
    intro v f hf
    have hne : v ≠ w := by
      rintro rfl
      cases hf.symm.trans hfilter
    rw [Function.update_of_ne hne, hf]
  refine ⟨fun v f l pos hf hl => ?_, fun v f l hf hl => ?_, fun pos hpos => ?_,
    fun b' hb' hfiltered => ?_⟩
  · obtain ⟨-, hf⟩ | ⟨-, hf⟩ := filters_update hf
    · obtain rfl := Option.some.inj hf
      cases hl
    · exact h.first v f l pos hf hl
  · obtain ⟨-, hf⟩ | ⟨-, hf⟩ := filters_update hf
    · obtain rfl := Option.some.inj hf
      cases hl
    · exact h.done v f l hf hl
  · refine (h.marks pos hpos).imp_right ?_
    rintro ⟨b', l, hb', hfiltered, hl, hfind, hkeeps⟩
    exact ⟨b', l, List.mem_append_left _ hb', hfiltered, hl, hfind,
      hkeeps.imp_right fun ⟨v, f, hf, hrest⟩ => ⟨v, f, hold v f hf, hrest⟩⟩
  · rcases List.mem_append.1 hb' with hb' | hb'
    · refine (h.settled b' hb' hfiltered).imp (fun ⟨v, f, hf, hrest⟩ => ⟨v, f, hold v f hf, hrest⟩)
        fun hall l hl => ?_
      exact (hall l hl).imp_left (Or.imp_right fun ⟨v, f, hf, hrest⟩ => ⟨v, f, hold v f hf, hrest⟩)
    · exact .inl ⟨w, _, Function.update_self _ _ _, (List.mem_singleton.1 hb').symm⟩

/-- A warp without a filter records an access whose reads are not filtered. -/
theorem access {w : Fin W} {b : AddressAccess} {all_keep : BitVec 32}
    (queue : GpuQueue.State W addressWords) (hunfiltered : isFiltered (some d) b = false)
    (hfilter : s.filters w = none) :
    Filtering d hit { s with
      queue := queue
      filters := Function.update s.filters w none
      accesses := s.accesses ++ [b]
      recorded := s.recorded ++ [(b, all_keep)] } := by
  -- The warp had no filter that the record could end.
  have hsame : Function.update s.filters w none = s.filters := by
    rw [← hfilter, Function.update_eq_self]
  rw [hsame]
  have hkeeps : ∀ {b' l}, s.Keeps b' l → PatchState.Keeps { s with
      queue := queue
      accesses := s.accesses ++ [b]
      recorded := s.recorded ++ [(b, all_keep)] } b' l := fun hkeeps =>
    hkeeps.imp_left fun ⟨keep, hmem, hbit⟩ => ⟨keep, List.mem_append_left _ hmem, hbit⟩
  refine ⟨h.first, h.done, fun pos hpos => ?_, fun b' hb' hfiltered => ?_⟩
  · refine (h.marks pos hpos).imp_right ?_
    rintro ⟨b', l, hb', hrest, hl, hfind, hkept⟩
    exact ⟨b', l, List.mem_append_left _ hb', hrest, hl, hfind, hkeeps hkept⟩
  · rcases List.mem_append.1 hb' with hb' | hb'
    · exact (h.settled b' hb' hfiltered).imp_right fun hall l hl => (hall l hl).imp_left hkeeps
    · rw [List.mem_singleton.1 hb', hunfiltered] at hfiltered
      cases hfiltered

/-- A lane takes a step. -/
theorem lane {w : Fin W} {f : Filter} {laneid : ℕ} (hrecorded : Recorded (some d) s)
    (hfilter : s.filters w = some f) (hlane : laneid ∈ f.access.lanes)
    (hstep : s.lane d w f laneid = some s') : Filtering d hit s' := by
  obtain ⟨v, hit', hundone, rfl, hcases⟩ := PatchState.lane_eq hstep
  have hlanes : ∀ l, l ≠ laneid → (f.setLane laneid v).lanes l = f.lanes l := fun l hl =>
    Function.update_of_ne hl _ _
  have hself : (f.setLane laneid v).lanes laneid = v := Function.update_self _ _ _
  -- Marks stay set, and lanes that have decided keep their decision.
  have hhit : ∀ pos, s.hit pos ≠ 0 → hit' pos ≠ 0 := by
    intro pos hpos
    obtain ⟨-, rfl, -⟩ | ⟨pos', -, -, rfl⟩ := hcases
    · exact hpos
    · by_cases heq : pos = pos'
      · rw [heq, Function.update_self]
        exact one_ne_zero
      · rwa [Function.update_of_ne heq]
  have hmarked : ∀ {address}, s.Marked d address → PatchState.Marked d { s with
      filters := Function.update s.filters w (some (f.setLane laneid v)), hit := hit' } address :=
    fun hm => ⟨hm.1, hhit _ hm.2⟩
  have hkeeps : ∀ {b l}, s.Keeps b l → PatchState.Keeps { s with
      filters := Function.update s.filters w (some (f.setLane laneid v)), hit := hit' } b l := by
    intro b l hkeeps
    refine hkeeps.imp_right ?_
    rintro ⟨u, g, hg, haccess, hdone⟩
    by_cases heq : u = w
    · obtain rfl : f = g := Option.some.inj (hfilter.symm.trans (heq ▸ hg))
      have hne : l ≠ laneid := fun hl => hundone true (hl ▸ hdone)
      exact ⟨w, _, Function.update_self _ _ _, haccess, (hlanes l hne).trans hdone⟩
    · exact ⟨u, g, (Function.update_of_ne heq _ _).trans hg, haccess, hdone⟩
  have hfirst : ∀ pos, f.lanes laneid = .first pos →
      pos = d.findPrev (f.access.address laneid) := fun pos => h.first w f laneid pos hfilter
  obtain ⟨hmem, hfiltered⟩ := hrecorded.filters w f hfilter
  refine ⟨fun u g l pos hg hl => ?_, fun u g l hg hl => ?_, fun pos hpos => ?_,
    fun b hb hb' => ?_⟩
  · obtain ⟨-, hg⟩ | ⟨-, hg⟩ := filters_update hg
    · obtain rfl := Option.some.inj hg
      by_cases heq : l = laneid
      · subst heq
        rw [hself] at hl
        obtain ⟨-, -, (⟨-, ⟨-, hv⟩ | ⟨-, hv⟩⟩ | ⟨-, hv⟩)⟩ | ⟨pos', -, hv, -⟩ := hcases <;>
          rw [hv] at hl <;> cases hl
        rfl
      · exact h.first w f l pos hfilter ((hlanes l heq).symm.trans hl)
    · exact h.first u g l pos hg hl
  · obtain ⟨-, hg⟩ | ⟨-, hg⟩ := filters_update hg
    · obtain rfl := Option.some.inj hg
      by_cases heq : l = laneid
      · subst heq
        rw [hself] at hl
        obtain ⟨-, hsame, (⟨hne, ⟨-, hv⟩ | ⟨hset, -⟩⟩ | ⟨-, hv⟩)⟩ | ⟨pos', -, hv, -⟩ := hcases
        · rw [hv] at hl
          cases hl
        · exact hmarked ⟨hne, hset⟩
        · rw [hv] at hl
          cases hl
        · rw [hv] at hl
          cases hl
      · exact hmarked (h.done w f l hfilter ((hlanes l heq).symm.trans hl))
    · exact hmarked (h.done u g l hg hl)
  · have hold : s.hit pos ≠ 0 → hit pos ≠ 0 ∨ ∃ b l, b ∈ s.accesses ∧
        isFiltered (some d) b = true ∧ l ∈ b.lanes ∧ d.findPrev (b.address l) = pos ∧
        PatchState.Keeps { s with
          filters := Function.update s.filters w (some (f.setLane laneid v)), hit := hit' } b l :=
      fun hset => (h.marks pos hset).imp_right fun ⟨b, l, hb, hb', hl, hfind, hkept⟩ =>
        ⟨b, l, hb, hb', hl, hfind, hkeeps hkept⟩
    obtain ⟨-, hsame, -⟩ | ⟨pos', hpos', hv, hupdate⟩ := hcases
    · exact hold (hsame ▸ hpos)
    · by_cases heq : pos = pos'
      · -- The mark is that of the lane's own object, and the lane keeps its read.
        refine .inr ⟨f.access, laneid, hmem, hfiltered, hlane, ?_,
          .inr ⟨w, _, Function.update_self _ _ _, rfl, hself.trans hv⟩⟩
        rw [heq, hfirst pos' hpos']
      · refine hold ?_
        have hpos : hit' pos ≠ 0 := hpos
        rwa [hupdate, Function.update_of_ne heq] at hpos
  · refine (h.settled b hb hb').imp ?_ fun hall l hl => (hall l hl).imp hkeeps hmarked
    rintro ⟨u, g, hg, haccess⟩
    by_cases heq : u = w
    · obtain rfl : f = g := Option.some.inj (hfilter.symm.trans (heq ▸ hg))
      exact ⟨w, _, Function.update_self _ _ _, haccess⟩
    · exact ⟨u, g, (Function.update_of_ne heq _ _).trans hg, haccess⟩

/-- The lanes of a warp come together. Those that keep their reads are recorded. -/
theorem finish {w : Fin W} {f : Filter} {recorded : List (AddressAccess × BitVec 32)}
    (queue : GpuQueue.State W addressWords) (hfilter : s.filters w = some f)
    (hsettled : f.Settled) (hsub : ∀ p ∈ s.recorded, p ∈ recorded)
    (hkept : ∀ l ∈ f.access.lanes, f.lanes l = .done true →
      ∃ all_keep : BitVec 32, (f.access, all_keep) ∈ recorded ∧ all_keep.getLsbD l = true) :
    Filtering d hit { s with
      queue := queue
      filters := Function.update s.filters w none
      recorded := recorded } := by
  -- A decision of this warp's lanes is now in the record.
  have hkeeps : ∀ {b l}, l ∈ b.lanes → s.Keeps b l → PatchState.Keeps { s with
      queue := queue
      filters := Function.update s.filters w none
      recorded := recorded } b l := by
    rintro b l hl (⟨keep, hmem, hbit⟩ | ⟨u, g, hg, rfl, hdone⟩)
    · exact .inl ⟨keep, hsub _ hmem, hbit⟩
    · by_cases heq : u = w
      · obtain rfl : f = g := Option.some.inj (hfilter.symm.trans (heq ▸ hg))
        exact .inl (hkept l hl hdone)
      · exact .inr ⟨u, g, (Function.update_of_ne heq _ _).trans hg, rfl, hdone⟩
  refine ⟨fun u g l pos hg hl => ?_, fun u g l hg hl => ?_, fun pos hpos => ?_,
    fun b hb hb' => ?_⟩
  · obtain ⟨-, hg⟩ | ⟨-, hg⟩ := filters_update hg
    · cases hg
    · exact h.first u g l pos hg hl
  · obtain ⟨-, hg⟩ | ⟨-, hg⟩ := filters_update hg
    · cases hg
    · exact h.done u g l hg hl
  · exact (h.marks pos hpos).imp_right fun ⟨b, l, hb, hb', hl, hfind, hkept⟩ =>
      ⟨b, l, hb, hb', hl, hfind, hkeeps hl hkept⟩
  · obtain ⟨u, g, hg, rfl⟩ | hall := h.settled b hb hb'
    · by_cases heq : u = w
      · obtain rfl : f = g := Option.some.inj (hfilter.symm.trans (heq ▸ hg))
        refine .inr fun l hl => (hsettled l hl).imp (fun hdone => .inl (hkept l hl hdone)) ?_
        exact h.done w f l hfilter
      · exact .inl ⟨u, g, (Function.update_of_ne heq _ _).trans hg, rfl⟩
    · exact .inr fun l hl => (hall l hl).imp_left (hkeeps hl)

/-- A move of the system. -/
theorem move (hrecorded : Recorded (some d) s)
    (hmove : PatchMove (some d) frequency offset size analysis s s') : Filtering d hit s' := by
  cases hmove with
  | skip => exact h
  | filter w b hfiltered hthreads hfilter => exact h.filter hfilter
  | access w b queue hunfiltered hthreads hfilter hqueue =>
    exact h.access queue hunfiltered hfilter
  | lane w f laneid d' s' hdict hfilter hlane hstep =>
    obtain rfl := Option.some.inj hdict
    exact h.lane hrecorded hfilter hlane hstep
  | drop w f hfilter hsettled hzero =>
    refine h.finish s.queue hfilter hsettled (fun _ => id) fun l hl hdone => ?_
    -- No lane has kept its read, or the ballot would not be zero.
    have hbit := Filter.getLsbD_allKeep hl hdone
    rw [hzero] at hbit
    simp at hbit
  | keep w f queue hfilter hsettled hqueue =>
    exact h.finish queue hfilter hsettled (fun _ => List.mem_append_left _) fun l hl hdone =>
      ⟨f.allKeep, List.mem_append_right _ (List.mem_singleton.2 rfl),
        Filter.getLsbD_allKeep hl hdone⟩
  | queue action queue hentering henter hqueue => exact h.congr rfl rfl rfl rfl
  | exit w e hidle hle =>
    obtain ⟨hfilters, hhit, haccesses, hrecorded⟩ := blockExit_frame s w e
    exact h.congr hfilters hhit haccesses hrecorded

/-- When no warp has a filter, each read is recorded or the mark of its object is set. -/
theorem keeps_or_marked (hnone : ∀ w, s.filters w = none) {b : AddressAccess}
    (hb : b ∈ s.accesses) (hfiltered : isFiltered (some d) b = true) {l : ℕ} (hl : l ∈ b.lanes) :
    (∃ all_keep : BitVec 32, (b, all_keep) ∈ s.recorded ∧ all_keep.getLsbD l = true) ∨
      s.Marked d (b.address l) := by
  obtain ⟨w, f, hf, -⟩ | hall := h.settled b hb hfiltered
  · cases hf.symm.trans (hnone w)
  · refine (hall l hl).imp_left fun hkeeps => hkeeps.resolve_right ?_
    rintro ⟨w, f, hf, -⟩
    cases hf.symm.trans (hnone w)

end Filtering

end TenProf.GpuPatch
