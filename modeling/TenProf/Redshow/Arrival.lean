import Mathlib.Data.List.Nodup
import TenProf.Redshow.MemorySnapshot
import TenProf.Library.Runs

/-!
# Calls that arrive out of order

Threads obtain the ids of their calls first and call later, so that calls arrive in any order.
`LiveBefore` says which blocks are live at an id when the calls take effect in the order of their
ids. A call is reflected in the snapshots with smaller ids that it copies, but never in those with
larger ids that are there already. So the snapshots are right for every id exactly when no call
misses anything: the calls below it that have not arrived yet cancel out (`snapshots_iff`).
-/

namespace TenProf

/-- A block is live just before an id: it is registered at a smaller one, and not released in
between. -/
def LiveBefore (calls : List MemoryCall) (t : ℕ) (m : Memory) : Prop :=
  (∃ r ∈ calls, r.registered = some m ∧ r.host_op_id < t) ∧
    ∀ u ∈ calls, u.registered = none → u.start = m.memory_range.start →
      m.op_id < u.host_op_id → t ≤ u.host_op_id

/-- A block is live at an id: it is registered at an id that is not above it, and not released at
such an id. -/
def LiveAt (calls : List MemoryCall) (t : ℕ) (m : Memory) : Prop := LiveBefore calls (t + 1) m

/-- Calls with distinct ids that are consistent in the order of their ids: a block starts at another
address than those that are live then, as a block does that shares no byte with them, and a release
names the range of a live block. -/
structure Consistent (calls : List MemoryCall) : Prop where
  distinct : (calls.map MemoryCall.host_op_id).Nodup
  apart : ∀ c ∈ calls, ∀ m, c.registered = some m → ∀ m', LiveBefore calls c.host_op_id m' →
    m'.memory_range.start ≠ m.memory_range.start
  matching : ∀ c ∈ calls, ∀ u, c.released = some u →
    ∃ m, LiveBefore calls c.host_op_id m ∧ m.memory_range = u.memory_range

/-- A map holds exactly the blocks with a property, each at its start. -/
def Holds (memory_map : MemoryMap) (P : Memory → Prop) : Prop :=
  ∀ start m, memory_map.find? start = some m ↔ P m ∧ m.memory_range.start = start

/-- An id is the largest one below that of a call among the calls that arrived before. -/
def Prior (arrived : List MemoryCall) (c : MemoryCall) (p : ℕ) : Prop :=
  p ∈ arrived.map MemoryCall.host_op_id ∧ p < c.host_op_id ∧
    ∀ q ∈ arrived.map MemoryCall.host_op_id, q < c.host_op_id → q ≤ p

instance (arrived : List MemoryCall) (c : MemoryCall) (p : ℕ) : Decidable (Prior arrived c p) :=
  inferInstanceAs (Decidable (_ ∧ _ ∧ _))

/-- Nothing is missed when a call arrives. Either the blocks that are live at the largest id below
it that has arrived are those that are live just before it, up to one at its own start; or it is the
first call of all, registers a block, and no block is live before it. -/
def Reflected (calls arrived : List MemoryCall) (c : MemoryCall) : Prop :=
  (∃ p, Prior arrived c p ∧
    (∀ m, m.memory_range.start ≠ c.start → (LiveAt calls p m ↔ LiveBefore calls c.host_op_id m)) ∧
    ((∃ m, LiveAt calls p m ∧ m.memory_range.start = c.start) ↔
      ∃ m, LiveBefore calls c.host_op_id m ∧ m.memory_range.start = c.start)) ∨
  arrived = [] ∧ c.registered.isSome ∧ ∀ m, ¬LiveBefore calls c.host_op_id m

variable {calls arrived : List MemoryCall} {c : MemoryCall} {m : Memory} {t t' : ℕ}

/-! ## The live blocks -/

namespace MemoryCall

/-- The block of a call has its id and its start. -/
theorem of_registered (h : c.registered = some m) :
    m.op_id = c.host_op_id ∧ m.memory_range.start = c.start := by
  cases c with
  | register stream_id memory_id host_op_id start stop value value_cache =>
    rw [← Option.some.inj h]
    exact ⟨rfl, rfl⟩
  | unregister stream_id memory_id host_op_id start stop => exact absurd h (by simp [registered])

/-- A call that registers no block releases one, at its start. -/
theorem exists_released (h : c.registered = none) :
    ∃ u, c.released = some u ∧ u.memory_range.start = c.start := by
  cases c with
  | register stream_id memory_id host_op_id start stop value value_cache =>
    exact absurd h (by simp [registered])
  | unregister stream_id memory_id host_op_id start stop => exact ⟨_, rfl, rfl⟩

end MemoryCall

/-- Calls with the same id are the same. -/
theorem Consistent.eq_of_id (h : Consistent calls) {c c' : MemoryCall} (hc : c ∈ calls)
    (hc' : c' ∈ calls) (hid : c.host_op_id = c'.host_op_id) : c = c' :=
  List.inj_on_of_nodup_map h.distinct hc hc' hid

/-- Without a call in between, the same blocks are live. -/
theorem liveBefore_congr (hle : t ≤ t')
    (hnone : ∀ c ∈ calls, t ≤ c.host_op_id → t' ≤ c.host_op_id) :
    LiveBefore calls t m ↔ LiveBefore calls t' m := by
  constructor
  · rintro ⟨⟨r, hr, hreg, hlt⟩, hrel⟩
    exact ⟨⟨r, hr, hreg, hlt.trans_le hle⟩, fun u hu hnreg hstart hop =>
      hnone u hu (hrel u hu hnreg hstart hop)⟩
  · rintro ⟨⟨r, hr, hreg, hlt⟩, hrel⟩
    refine ⟨⟨r, hr, hreg, ?_⟩, fun u hu hnreg hstart hop => hle.trans (hrel u hu hnreg hstart hop)⟩
    by_contra hnot
    exact absurd (hnone r hr (not_lt.1 hnot)) (not_le.2 hlt)

/-- The live blocks after a block is registered. -/
theorem Consistent.liveAt_register (h : Consistent calls) (hc : c ∈ calls) {memory : Memory}
    (hreg : c.registered = some memory) (m : Memory) :
    LiveAt calls c.host_op_id m ↔ LiveBefore calls c.host_op_id m ∨ m = memory := by
  obtain ⟨hop, -⟩ := MemoryCall.of_registered hreg
  unfold LiveAt LiveBefore
  constructor
  · rintro ⟨⟨r, hr, hregr, hlt⟩, hrel⟩
    by_cases hid : r.host_op_id = c.host_op_id
    · rw [h.eq_of_id hr hc hid, hreg, Option.some.injEq] at hregr
      exact .inr hregr.symm
    · exact .inl ⟨⟨r, hr, hregr, by omega⟩, fun u hu hnreg hstart hopu => by
        have := hrel u hu hnreg hstart hopu
        omega⟩
  · rintro (⟨⟨r, hr, hregr, hlt⟩, hrel⟩ | rfl)
    · refine ⟨⟨r, hr, hregr, by omega⟩, fun u hu hnreg hstart hopu => ?_⟩
      have hle := hrel u hu hnreg hstart hopu
      -- The call itself releases nothing.
      have hne : u.host_op_id ≠ c.host_op_id := by
        intro hid
        rw [h.eq_of_id hu hc hid, hreg] at hnreg
        exact absurd hnreg (by simp)
      omega
    · exact ⟨⟨c, hc, hreg, by omega⟩, fun u _ _ _ hopu => by omega⟩

/-- The live blocks after a block is released. -/
theorem Consistent.liveAt_unregister (h : Consistent calls) (hc : c ∈ calls)
    (hreg : c.registered = none) (m : Memory) :
    LiveAt calls c.host_op_id m ↔
      LiveBefore calls c.host_op_id m ∧ m.memory_range.start ≠ c.start := by
  unfold LiveAt LiveBefore
  constructor
  · rintro ⟨⟨r, hr, hregr, hlt⟩, hrel⟩
    have hne : r.host_op_id ≠ c.host_op_id := by
      intro hid
      rw [h.eq_of_id hr hc hid, hreg] at hregr
      exact absurd hregr (by simp)
    obtain ⟨hop, -⟩ := MemoryCall.of_registered hregr
    refine ⟨⟨⟨r, hr, hregr, by omega⟩, fun u hu hnreg hstart hopu => ?_⟩, fun hstart => ?_⟩
    · have := hrel u hu hnreg hstart hopu
      omega
    · have := hrel c hc hreg hstart.symm (by omega)
      omega
  · rintro ⟨⟨⟨r, hr, hregr, hlt⟩, hrel⟩, hstart⟩
    refine ⟨⟨r, hr, hregr, by omega⟩, fun u hu hnreg hstartu hopu => ?_⟩
    have hle := hrel u hu hnreg hstartu hopu
    have hne : u.host_op_id ≠ c.host_op_id := by
      intro hid
      rw [h.eq_of_id hu hc hid] at hstartu
      exact hstart hstartu.symm
    omega

/-! ## The snapshot of a call -/

/-- The blocks after a call: one at another start stays, and at the start of the call its own block
is all that may be live. -/
theorem Consistent.liveAt_iff (h : Consistent calls) (hc : c ∈ calls) (m : Memory) :
    LiveAt calls c.host_op_id m ↔ LiveBefore calls c.host_op_id m ∧
      m.memory_range.start ≠ c.start ∨ c.registered = some m := by
  cases hreg : c.registered with
  | none =>
    rw [h.liveAt_unregister hc hreg]
    simp
  | some memory =>
    obtain ⟨-, hstart⟩ := MemoryCall.of_registered hreg
    rw [h.liveAt_register hc hreg, Option.some.injEq, eq_comm (a := memory)]
    refine or_congr_left (and_iff_left_of_imp fun hm => ?_).symm
    rw [← hstart]
    exact h.apart c hc memory hreg m hm

/-- The blocks of a call's own snapshot. -/
theorem find?_apply (c : MemoryCall) (memory_map : MemoryMap) (start : ℕ) :
    (c.apply memory_map).find? start =
      if start = c.start then c.registered else memory_map.find? start := by
  unfold MemoryCall.apply
  cases hreg : c.registered with
  | none => exact OrderedMap.find?_erase _ _ _
  | some memory => exact OrderedMap.find?_set _ _ _ _

/-- A call's own snapshot holds the blocks that are live at its id exactly if the snapshot it was
made from holds those that are live before it, up to one at the call's start. -/
theorem Consistent.holds_apply_iff (h : Consistent calls) (hc : c ∈ calls) {memory_map : MemoryMap}
    {P : Memory → Prop} (hmap : Holds memory_map P) :
    Holds (c.apply memory_map) (LiveAt calls c.host_op_id) ↔
      ∀ m, m.memory_range.start ≠ c.start → (P m ↔ LiveBefore calls c.host_op_id m) := by
  have hown : ∀ m, c.registered = some m → m.memory_range.start = c.start := fun m hreg =>
    (MemoryCall.of_registered hreg).2
  constructor
  · intro hholds m hm
    have hfind := hholds m.memory_range.start m
    rw [find?_apply, if_neg hm, hmap, h.liveAt_iff hc] at hfind
    constructor
    · intro hP
      rcases (hfind.1 ⟨hP, rfl⟩).1 with hlive | hreg
      · exact hlive.1
      · exact absurd (hown m hreg) hm
    · exact fun hlive => (hfind.2 ⟨.inl ⟨hlive, hm⟩, rfl⟩).1
  · intro hagree start m
    rw [find?_apply, h.liveAt_iff hc]
    split_ifs with hstart
    · rw [hstart]
      constructor
      · exact fun hreg => ⟨.inr hreg, hown m hreg⟩
      · rintro ⟨hlive | hreg, hm⟩
        · exact absurd hm hlive.2
        · exact hreg
    · rw [hmap]
      constructor
      · rintro ⟨hP, rfl⟩
        exact ⟨.inl ⟨(hagree m hstart).1 hP, hstart⟩, rfl⟩
      · rintro ⟨hlive | hreg, rfl⟩
        · exact ⟨(hagree m hlive.2).2 hlive.1, rfl⟩
        · exact absurd (hown m hreg) hstart

/-- A map has a block at a start. -/
theorem Holds.isSome_iff {memory_map : MemoryMap} {P : Memory → Prop} (h : Holds memory_map P)
    (start : ℕ) : (memory_map.find? start).isSome ↔ ∃ m, P m ∧ m.memory_range.start = start := by
  rw [Option.isSome_iff_exists]
  exact exists_congr fun m => h start m

/-- A block is live at the start of a call exactly if the call releases one. -/
theorem Consistent.exists_live_iff (h : Consistent calls) (hc : c ∈ calls) :
    (∃ m, LiveBefore calls c.host_op_id m ∧ m.memory_range.start = c.start) ↔
      c.registered = none := by
  cases hreg : c.registered with
  | none =>
    obtain ⟨u, hu, hstart⟩ := MemoryCall.exists_released hreg
    obtain ⟨m, hm, hrange⟩ := h.matching c hc u hu
    exact iff_of_true ⟨m, hm, by rw [hrange, hstart]⟩ rfl
  | some memory =>
    refine iff_of_false ?_ (by simp)
    rintro ⟨m, hm, hstart⟩
    exact h.apart c hc memory hreg m hm (hstart.trans (MemoryCall.of_registered hreg).2.symm)

/-- The store has a snapshot for each call that has arrived, with the blocks that are live at its
id. -/
structure Faithful (calls arrived : List MemoryCall) (memory_snapshot : MemorySnapshot) : Prop where
  key_iff : ∀ k, (memory_snapshot.find? k).isSome ↔ k ∈ arrived.map MemoryCall.host_op_id
  holds : ∀ k memory_map, memory_snapshot.find? k = some memory_map →
    Holds memory_map (LiveAt calls k)

namespace Faithful

variable {memory_snapshot : MemorySnapshot} (hs : Faithful calls arrived memory_snapshot)

include hs

/-- The snapshot that a call looks up is that of the largest smaller id. -/
theorem prev_eq {p : ℕ} (hnew : c.host_op_id ∉ arrived.map MemoryCall.host_op_id)
    (hp : Prior arrived c p) :
    ∃ memory_map, memory_snapshot.prev c.host_op_id = some (p, memory_map) ∧
      Holds memory_map (LiveAt calls p) := by
  obtain ⟨hmem, hlt, hmax⟩ := hp
  obtain ⟨memory_map, hfind⟩ := Option.isSome_iff_exists.1 ((hs.key_iff p).2 hmem)
  have hentry := (memory_snapshot.find?_eq_some_iff p memory_map).1 hfind
  refine ⟨memory_map, ?_, hs.holds p memory_map hfind⟩
  rw [OrderedMap.prev_eq_some_iff]
  refine ⟨⟨hentry, hlt.le⟩, fun e he hle => ?_⟩
  have hfind' := (memory_snapshot.find?_eq_some_iff e.1 e.2).2 he
  have hmem' := (hs.key_iff e.1).1 (by rw [hfind']; rfl)
  have hne : e.1 ≠ c.host_op_id := fun heq => hnew (heq ▸ hmem')
  rcases (hmax e.1 hmem' (lt_of_le_of_ne hle hne)).eq_or_lt with heq | hlt'
  · exact .inl (OrderedMap.eq_of_key he hentry heq)
  · exact .inr hlt'

/-- There is no snapshot to look up when no smaller id has arrived. -/
theorem prev_eq_none (hnew : c.host_op_id ∉ arrived.map MemoryCall.host_op_id)
    (hp : ∀ p, ¬Prior arrived c p) : memory_snapshot.prev c.host_op_id = none := by
  cases hprev : memory_snapshot.prev c.host_op_id with
  | none => rfl
  | some e =>
    obtain ⟨⟨he, hle⟩, hlast⟩ := (OrderedMap.prev_eq_some_iff _ _ _).1 hprev
    have hmem : ∀ e ∈ memory_snapshot.toList, e.1 ∈ arrived.map MemoryCall.host_op_id := by
      intro e he
      rw [← hs.key_iff, (memory_snapshot.find?_eq_some_iff e.1 e.2).2 he]
      rfl
    have hne : e.1 ≠ c.host_op_id := fun heq => hnew (heq ▸ hmem e he)
    refine absurd ⟨hmem e he, lt_of_le_of_ne hle hne, fun q hq hlt => ?_⟩ (hp e.1)
    obtain ⟨memory_map, hfind⟩ := Option.isSome_iff_exists.1 ((hs.key_iff q).2 hq)
    rcases hlast _ ((memory_snapshot.find?_eq_some_iff q memory_map).1 hfind) hlt.le with heq | hlt
    · rw [← heq]
    · exact hlt.le

/-- The store is empty exactly before the first call. -/
theorem size_eq_zero_iff : memory_snapshot.size = 0 ↔ arrived = [] := by
  unfold OrderedMap.size
  rw [List.length_eq_zero_iff]
  constructor
  · intro hnil
    rw [← List.map_eq_nil_iff (f := MemoryCall.host_op_id), List.eq_nil_iff_forall_not_mem]
    intro k hk
    rw [← hs.key_iff, Option.isSome_iff_exists] at hk
    obtain ⟨memory_map, hfind⟩ := hk
    rw [memory_snapshot.find?_eq_some_iff, hnil] at hfind
    exact absurd hfind List.not_mem_nil
  · rintro rfl
    refine List.eq_nil_iff_forall_not_mem.2 fun e he => ?_
    have hfind := (memory_snapshot.find?_eq_some_iff e.1 e.2).2 he
    have hmem := (hs.key_iff e.1).1 (by rw [hfind]; rfl)
    exact absurd hmem (by simp)

/-- The store is right after a call exactly if the call is accepted and its snapshot is right. -/
theorem storeStep_iff (hnew : c.host_op_id ∉ arrived.map MemoryCall.host_op_id) :
    Faithful calls (arrived ++ [c]) (storeStep memory_snapshot c).1 ↔
      c.Accepted memory_snapshot ∧
        Holds (c.apply (contentAt memory_snapshot c.host_op_id)) (LiveAt calls c.host_op_id) := by
  have hmem : ∀ k, k ∈ (arrived ++ [c]).map MemoryCall.host_op_id ↔
      k ∈ arrived.map MemoryCall.host_op_id ∨ k = c.host_op_id := by simp
  rcases storeStep_cases memory_snapshot c with ⟨hacc, hstep⟩ | ⟨hrej, hstep, -⟩
  · rw [hstep]
    constructor
    · exact fun hf => ⟨hacc, hf.holds _ _ (OrderedMap.find?_set_self _ _ _)⟩
    · rintro ⟨-, hholds⟩
      constructor
      · intro k
        rw [hmem, OrderedMap.find?_set, ← hs.key_iff]
        split_ifs with hk <;> simp [hk]
      · intro k memory_map hfind
        rw [OrderedMap.find?_set] at hfind
        split_ifs at hfind with hk
        · rw [hk, ← Option.some.inj hfind]
          exact hholds
        · exact hs.holds k memory_map hfind
  · -- A rejected call has no snapshot.
    refine iff_of_false (fun hf => hnew ?_) fun hacc => hrej hacc.1
    rw [← hs.key_iff, ← hstep, hf.key_iff, hmem]
    exact .inr rfl

/-- The store is right after a call exactly if nothing is missed when it arrives. -/
theorem step_iff (h : Consistent calls) (hc : c ∈ calls)
    (hnew : c.host_op_id ∉ arrived.map MemoryCall.host_op_id) :
    Faithful calls (arrived ++ [c]) (storeStep memory_snapshot c).1 ↔
      Reflected calls arrived c := by
  rw [hs.storeStep_iff hnew]
  by_cases hprior : ∃ p, Prior arrived c p
  · obtain ⟨p, hp⟩ := hprior
    obtain ⟨memory_map, hprev, hholds⟩ := hs.prev_eq hnew hp
    have hcontent : contentAt memory_snapshot c.host_op_id = memory_map := by
      unfold contentAt
      rw [hprev]
    have harrived : arrived ≠ [] := by
      rintro rfl
      exact absurd hp.1 (by simp)
    -- The snapshot has a block at the start of the call exactly if the call releases one.
    have hacc : c.Accepted memory_snapshot ↔
        ((memory_map.find? c.start).isSome ↔ c.registered = none) := by
      unfold MemoryCall.Accepted
      rw [hprev, hcontent, hs.size_eq_zero_iff]
      cases c.registered <;> simp [harrived]
    have hunique : ∀ q, Prior arrived c q → q = p := fun q hq =>
      le_antisymm (hp.2.2 q hq.1 hq.2.1) (hq.2.2 p hp.1 hp.2.1)
    rw [hacc, hcontent, h.holds_apply_iff hc hholds, hholds.isSome_iff, ← h.exists_live_iff hc]
    constructor
    · rintro ⟨hstart, houtside⟩
      exact .inl ⟨p, hp, houtside, hstart⟩
    · rintro (⟨q, hq, houtside, hstart⟩ | ⟨hnil, -⟩)
      · rw [hunique q hq] at houtside hstart
        exact ⟨hstart, houtside⟩
      · exact absurd hnil harrived
  · have hnone := hs.prev_eq_none hnew (not_exists.1 hprior)
    have hcontent : contentAt memory_snapshot c.host_op_id = ∅ := by
      unfold contentAt
      rw [hnone]
    have hempty : Holds ∅ fun _ => False := fun start m => by simp
    have hacc : c.Accepted memory_snapshot ↔ c.registered.isSome ∧ arrived = [] := by
      unfold MemoryCall.Accepted
      rw [hnone, hs.size_eq_zero_iff]
      cases c.registered <;> simp
    rw [hacc, hcontent, h.holds_apply_iff hc hempty]
    constructor
    · rintro ⟨⟨hreg, hnil⟩, houtside⟩
      refine .inr ⟨hnil, hreg, fun m hm => ?_⟩
      by_cases hstart : m.memory_range.start = c.start
      · rw [(h.exists_live_iff hc).1 ⟨m, hm, hstart⟩] at hreg
        exact absurd hreg (by simp)
      · exact (houtside m hstart).2 hm
    · rintro (⟨p, hp, -⟩ | ⟨hnil, hreg, hlive⟩)
      · exact absurd ⟨p, hp⟩ hprior
      · exact ⟨⟨hreg, hnil⟩, fun m _ => iff_of_false id (hlive m)⟩

end Faithful

/-! ## Runs -/

/-- The store after calls is right only if it was so before the last of them. -/
theorem Faithful.of_append (h : (arrived ++ [c]).map MemoryCall.host_op_id |>.Nodup)
    (hf : Faithful calls (arrived ++ [c]) (storeAfter (arrived ++ [c]))) :
    Faithful calls arrived (storeAfter arrived) := by
  rw [List.map_append, List.nodup_append'] at h
  obtain ⟨-, -, hdisj⟩ := h
  have hnew : c.host_op_id ∉ arrived.map MemoryCall.host_op_id := fun hmem =>
    hdisj hmem (by simp)
  -- The snapshots of the earlier calls have not changed.
  have hsame : ∀ k, k ≠ c.host_op_id →
      (storeAfter (arrived ++ [c])).find? k = (storeAfter arrived).find? k := by
    intro k hk
    rw [storeAfter_append_singleton]
    exact find?_storeStep_of_ne hk
  constructor
  · intro k
    constructor
    · exact mem_of_find?_storeAfter
    · intro hk
      have hne : k ≠ c.host_op_id := fun heq => hnew (heq ▸ hk)
      rw [← hsame k hne, hf.key_iff, List.map_append]
      exact List.mem_append_left _ hk
  · intro k memory_map hfind
    have hne : k ≠ c.host_op_id := by
      rintro rfl
      exact hnew (mem_of_find?_storeAfter (by rw [hfind]; rfl))
    exact hf.holds k memory_map (by rw [hsame k hne, hfind])

/-- The store is right after calls exactly if none of them missed anything. -/
theorem Consistent.faithful_iff (h : Consistent calls) (hsub : ∀ c ∈ arrived, c ∈ calls)
    (hnodup : (arrived.map MemoryCall.host_op_id).Nodup) :
    Faithful calls arrived (storeAfter arrived) ↔
      ∀ before c later, arrived = before ++ c :: later → Reflected calls before c := by
  induction arrived using List.reverseRecOn with
  | nil =>
    refine iff_of_true ⟨by simp [storeAfter], by simp [storeAfter]⟩ fun before c later heq => ?_
    exact absurd heq (by simp)
  | append_singleton arrived c ih =>
    have hnodup' := hnodup
    rw [List.map_append, List.nodup_append'] at hnodup'
    have hih := ih (fun c' hc' => hsub c' (List.mem_append_left _ hc')) hnodup'.1
    have hnew : c.host_op_id ∉ arrived.map MemoryCall.host_op_id := fun hmem =>
      hnodup'.2.2 hmem (by simp)
    have hc : c ∈ calls := hsub c (by simp)
    constructor
    · intro hf before c' later heq
      have hbefore := hf.of_append hnodup
      rcases split_append_singleton heq with ⟨rfl, rfl, -⟩ | ⟨later', -, heq'⟩
      · rw [storeAfter_append_singleton] at hf
        exact (hbefore.step_iff h hc hnew).1 hf
      · exact hih.1 hbefore before c' later' heq'
    · intro hall
      have hbefore := hih.2 fun before c' later heq => by
        refine hall before c' (later ++ [c]) ?_
        rw [heq]
        simp
      rw [storeAfter_append_singleton]
      exact (hbefore.step_iff h hc hnew).2 (hall arrived c [] rfl)

/-- A call changes the live blocks. -/
theorem Consistent.changes (h : Consistent calls) (hc : c ∈ calls) :
    ¬∀ m, LiveAt calls c.host_op_id m ↔ LiveBefore calls c.host_op_id m := by
  intro hsame
  cases hreg : c.registered with
  | none =>
    obtain ⟨m, hm, hstart⟩ := (h.exists_live_iff hc).2 hreg
    exact ((h.liveAt_unregister hc hreg m).1 ((hsame m).2 hm)).2 hstart
  | some m =>
    have hm := (hsame m).1 ((h.liveAt_register hc hreg m).2 (.inr rfl))
    exact h.apart c hc m hreg m hm rfl

/-- A snapshot is found for its own id. -/
theorem contentAt_of_find? {memory_snapshot : MemorySnapshot} {k : ℕ} {memory_map : MemoryMap}
    (h : memory_snapshot.find? k = some memory_map) : contentAt memory_snapshot k = memory_map := by
  have hentry := (memory_snapshot.find?_eq_some_iff k memory_map).1 h
  have hprev : memory_snapshot.prev k = some (k, memory_map) := by
    rw [OrderedMap.prev_eq_some_iff]
    refine ⟨⟨hentry, le_rfl⟩, fun e he hle => ?_⟩
    rcases hle.eq_or_lt with heq | hlt
    · exact .inl (OrderedMap.eq_of_key he hentry heq)
    · exact .inr hlt
  unfold contentAt
  rw [hprev]

/-- An id without a snapshot finds the one of the id before it. -/
theorem contentAt_succ {memory_snapshot : MemorySnapshot} {t : ℕ}
    (h : memory_snapshot.find? (t + 1) = none) :
    contentAt memory_snapshot (t + 1) = contentAt memory_snapshot t := by
  have hprev : memory_snapshot.prev (t + 1) = memory_snapshot.prev t := by
    unfold OrderedMap.prev
    congr 1
    refine List.filter_congr fun e he => ?_
    have hne := (OrderedMap.find?_eq_none_iff _ _).1 h e he
    rw [decide_eq_decide]
    omega
  unfold contentAt
  rw [hprev]

/-- When the blocks that are found are right for every id, each call has a snapshot. -/
theorem Consistent.isSome_of_holds (h : Consistent calls) {memory_snapshot : MemorySnapshot}
    (hall : ∀ t, Holds (contentAt memory_snapshot t) (LiveAt calls t)) (hc : c ∈ calls) :
    (memory_snapshot.find? c.host_op_id).isSome := by
  by_contra hnone
  rw [Option.not_isSome_iff_eq_none] at hnone
  -- Without a snapshot of its own, the call would leave the blocks as they are before it.
  apply h.changes hc
  intro m
  have hat := hall c.host_op_id m.memory_range.start m
  cases hid : c.host_op_id with
  | zero =>
    rw [hid] at hnone hat
    have hprev : memory_snapshot.prev 0 = none := by
      rw [OrderedMap.prev_eq_none_iff]
      intro e he
      exact Nat.pos_of_ne_zero ((OrderedMap.find?_eq_none_iff _ _).1 hnone e he)
    unfold contentAt at hat
    rw [hprev] at hat
    refine iff_of_false (fun hm => absurd (hat.2 ⟨hm, rfl⟩) (by simp)) ?_
    rintro ⟨⟨r, -, -, hlt⟩, -⟩
    exact absurd hlt (Nat.not_lt_zero _)
  | succ t =>
    rw [hid] at hnone hat
    rw [contentAt_succ hnone, hall t] at hat
    have hiff : LiveAt calls t m ↔ LiveAt calls (t + 1) m := by simpa using hat
    exact hiff.symm

/-- The blocks that are found for every id are those that are live at it exactly if the store has
the right snapshots. -/
theorem Consistent.holds_iff_faithful (h : Consistent calls) :
    (∀ t, Holds (contentAt (storeAfter calls) t) (LiveAt calls t)) ↔
      Faithful calls calls (storeAfter calls) := by
  constructor
  · intro hall
    constructor
    · refine fun k => ⟨mem_of_find?_storeAfter, fun hk => ?_⟩
      obtain ⟨c, hc, rfl⟩ := List.mem_map.1 hk
      exact h.isSome_of_holds hall hc
    · intro k memory_map hfind
      rw [← contentAt_of_find? hfind]
      exact hall k
  · intro hf t
    have hkey : ∀ c ∈ calls, ∃ memory_map,
        (c.host_op_id, memory_map) ∈ (storeAfter calls).toList := by
      intro c hc
      obtain ⟨memory_map, hfind⟩ :=
        Option.isSome_iff_exists.1 ((hf.key_iff c.host_op_id).2 (List.mem_map_of_mem hc))
      exact ⟨memory_map, ((storeAfter calls).find?_eq_some_iff _ _).1 hfind⟩
    unfold contentAt
    cases hprev : (storeAfter calls).prev t with
    | none =>
      rw [OrderedMap.prev_eq_none_iff] at hprev
      refine fun start m => iff_of_false (by simp) ?_
      rintro ⟨⟨⟨r, hr, -, hlt⟩, -⟩, -⟩
      obtain ⟨memory_map, hentry⟩ := hkey r hr
      exact absurd (hprev _ hentry) (by simpa using Nat.lt_succ_iff.1 hlt)
    | some e =>
      obtain ⟨⟨he, hle⟩, hlast⟩ := (OrderedMap.prev_eq_some_iff _ _ _).1 hprev
      have hholds := hf.holds e.1 e.2 (((storeAfter calls).find?_eq_some_iff _ _).2 he)
      -- No call has an id between the snapshot's and the one looked up.
      have hsame : ∀ m, LiveAt calls e.1 m ↔ LiveAt calls t m := by
        refine fun m => liveBefore_congr (Nat.succ_le_succ hle) fun c hc hge => ?_
        by_contra hnot
        obtain ⟨memory_map, hentry⟩ := hkey c hc
        rcases hlast _ hentry (by simp only; omega) with heq | hlt
        · rw [← heq] at hge
          exact absurd hge (by simp)
        · simp only at hlt
          omega
      intro start m
      rw [← hsame]
      exact hholds start m

/-- For all calls that are consistent in the order of their ids, and in whatever order they arrive:
the blocks of the snapshot that is found for any id are those that are live at it if and only if no
call missed anything when it arrived. -/
theorem snapshots_iff (h : Consistent calls) :
    (∀ t, Holds (contentAt (storeAfter calls) t) (LiveAt calls t)) ↔
      ∀ arrived c later, calls = arrived ++ c :: later → Reflected calls arrived c := by
  rw [h.holds_iff_faithful]
  exact h.faithful_iff (fun _ => id) h.distinct

/-- A block is registered with the id 2 and released with the id 3, and both calls arrive after one
with the id 4. -/
def cancellingCalls : List MemoryCall :=
  [.register 0 0 1 0 10 0 0, .register 0 0 4 20 30 0 0, .register 0 0 2 40 50 0 0,
    .unregister 0 0 3 40 50]

/-- The calls are consistent in the order of their ids. -/
theorem consistent_cancellingCalls : Consistent cancellingCalls := by
  constructor
  · decide
  · rintro c hc m hreg m' ⟨⟨r, hr, hregr, hlt⟩, -⟩
    simp only [cancellingCalls, List.mem_cons, List.not_mem_nil, or_false] at hc hr
    rcases hc with rfl | rfl | rfl | rfl <;> rcases hr with rfl | rfl | rfl | rfl <;>
      simp_all [MemoryCall.registered, MemoryCall.host_op_id, Memory.ofRange] <;> grind
  · intro c hc u hu
    simp only [cancellingCalls, List.mem_cons, List.not_mem_nil, or_false] at hc
    rcases hc with rfl | rfl | rfl | rfl
    · exact absurd hu (by simp [MemoryCall.released])
    · exact absurd hu (by simp [MemoryCall.released])
    · exact absurd hu (by simp [MemoryCall.released])
    · rw [← Option.some.inj hu]
      refine ⟨Memory.ofRange 0 2 0 ⟨40, 50⟩ 0 0, ⟨⟨.register 0 0 2 40 50 0 0, ?_⟩, ?_⟩, rfl⟩
      · exact ⟨by decide, rfl, by decide⟩
      · intro u hu hnreg _ _
        simp only [cancellingCalls, List.mem_cons, List.not_mem_nil, or_false] at hu
        rcases hu with rfl | rfl | rfl | rfl
        · exact absurd hnreg (by simp [MemoryCall.registered])
        · exact absurd hnreg (by simp [MemoryCall.registered])
        · exact absurd hnreg (by simp [MemoryCall.registered])
        · exact le_rfl

/-- The statement about calls that arrive in any order applies to calls that miss a block which is
released again. -/
theorem snapshots_cancellingCalls : Consistent cancellingCalls ∧
    ∀ t, Holds (contentAt (storeAfter cancellingCalls) t) (LiveAt cancellingCalls t) := by
  have h := consistent_cancellingCalls
  -- The two calls in between leave the live blocks as they are.
  have hsame : ∀ m, LiveAt cancellingCalls 1 m ↔ LiveBefore cancellingCalls 4 m := by
    intro m
    have hreg : LiveAt cancellingCalls 2 m ↔ LiveAt cancellingCalls 1 m ∧
        m.memory_range.start ≠ 40 ∨ some (Memory.ofRange 0 2 0 ⟨40, 50⟩ 0 0) = some m :=
      h.liveAt_iff (c := .register 0 0 2 40 50 0 0) (by decide) m
    have hunreg : LiveBefore cancellingCalls 4 m ↔ LiveAt cancellingCalls 2 m ∧
        m.memory_range.start ≠ 40 ∨ none = some m :=
      h.liveAt_iff (c := .unregister 0 0 3 40 50) (by decide) m
    have hne : LiveAt cancellingCalls 1 m → m.memory_range.start ≠ 40 :=
      h.apart (.register 0 0 2 40 50 0 0) (by decide) _ rfl m
    have hblock : some (Memory.ofRange 0 2 0 ⟨40, 50⟩ 0 0) = some m →
        m.memory_range.start = 40 := by
      intro heq
      rw [← Option.some.inj heq]
      rfl
    rw [hunreg, hreg]
    constructor
    · exact fun hm => .inl ⟨.inl ⟨hm, hne hm⟩, hne hm⟩
    · rintro (⟨⟨hm, -⟩ | heq, hstart⟩ | hnone)
      · exact hm
      · exact absurd (hblock heq) hstart
      · exact absurd hnone (by simp)
  refine ⟨h, (snapshots_iff h).2 fun arrived c later heq => ?_⟩
  rcases arrived with _ | ⟨c₁, _ | ⟨c₂, _ | ⟨c₃, _ | ⟨c₄, rest⟩⟩⟩⟩ <;>
    simp only [cancellingCalls, List.cons_append, List.nil_append, List.cons.injEq] at heq
  · obtain ⟨rfl, -⟩ := heq
    refine .inr ⟨rfl, rfl, ?_⟩
    rintro m ⟨⟨r, hr, -, hlt⟩, -⟩
    have hpos : ∀ r ∈ cancellingCalls, 1 ≤ r.host_op_id := by decide
    exact absurd hlt (not_lt.2 (hpos r hr))
  · obtain ⟨rfl, rfl, -⟩ := heq
    exact .inl ⟨1, by decide, fun m _ => hsame m, exists_congr fun m => and_congr_left' (hsame m)⟩
  · obtain ⟨rfl, rfl, rfl, -⟩ := heq
    exact .inl ⟨1, by decide, fun m _ => Iff.rfl, Iff.rfl⟩
  · obtain ⟨rfl, rfl, rfl, rfl, -⟩ := heq
    exact .inl ⟨2, by decide, fun m _ => Iff.rfl, Iff.rfl⟩
  · exact absurd heq (by simp)

/-- Three blocks are registered, and the call with the second id arrives last. -/
def lateCall : List MemoryCall :=
  [.register 0 0 1 0 10 0 0, .register 0 0 3 20 30 0 0, .register 0 0 2 40 50 0 0]

/-- The calls are consistent in the order of their ids, but the snapshot for the largest id misses
the block of the call that arrives last. -/
theorem not_snapshots_lateCall : Consistent lateCall ∧
    ¬∀ t, Holds (contentAt (storeAfter lateCall) t) (LiveAt lateCall t) := by
  constructor
  · constructor
    · decide
    · rintro c hc m hreg m' ⟨⟨r, hr, hregr, hlt⟩, -⟩
      simp only [lateCall, List.mem_cons, List.not_mem_nil, or_false] at hc hr
      rcases hc with rfl | rfl | rfl <;> rcases hr with rfl | rfl | rfl <;>
        simp_all [MemoryCall.registered, MemoryCall.host_op_id, Memory.ofRange] <;> grind
    · intro c hc u hu
      simp only [lateCall, List.mem_cons, List.not_mem_nil, or_false] at hc
      rcases hc with rfl | rfl | rfl <;> exact absurd hu (by simp [MemoryCall.released])
  · intro hall
    have hlive : LiveAt lateCall 3 (Memory.ofRange 0 2 0 ⟨40, 50⟩ 0 0) := by
      refine ⟨⟨.register 0 0 2 40 50 0 0, by decide, rfl, by decide⟩, fun u hu hnreg => ?_⟩
      simp only [lateCall, List.mem_cons, List.not_mem_nil, or_false] at hu
      rcases hu with rfl | rfl | rfl <;> exact absurd hnreg (by simp [MemoryCall.registered])
    have hfind := (hall 3 40 _).2 ⟨hlive, rfl⟩
    have hnone : (contentAt (storeAfter lateCall) 3).find? 40 = none := by rfl
    rw [hnone] at hfind
    exact absurd hfind (by simp)

end TenProf
