import TenProf.GpuPatch.QueueSafety
import TenProf.Library.Matching
import Mathlib.Algebra.BigOperators.Group.Finset.Basic
import Mathlib.Algebra.Order.Group.Multiset

/-!
# The accounts of the record queue

What the warps have brought into the queue is what is pushed and what they still have to store
(`taken_step`), and what is pushed is what the consumer has read, drain by drain, and the rest
(`Inv.exists_drained`), which is in the buffer when all warps are done (`Inv.exists_drained_left`).
-/

namespace TenProf.GpuQueue

variable {W width size : ℕ} {analysis : Bool}

/-- The stores of a warp that is inside of the callback. -/
def Warp.pending : Warp width → Multiset (Stores width)
  | .idle => 0
  | .add r => {r}
  | .lead r _ => {r}
  | .wait r => {r}
  | .write r _ _ => {r}

/-- The stores of all warps inside of the callback. -/
def State.pending (s : State W width) : Multiset (Stores width) := ∑ w, (s.warps w).pending

/-- What an action brings into the queue. -/
def Action.entering : Action W width → Multiset (Stores width)
  | .enter _ r => {r}
  | .warp _ => 0
  | .consumer => 0

/-- All that was brought into the queue and is pushed, or inside of the callback. -/
def State.taken (s : State W width) : Multiset (Stores width) :=
  (s.pushed.map Pushed.stores : List (Stores width)) + s.pending

/-- At the start there is nothing. -/
theorem taken_start (records : ℕ → Record width) : (start W records).taken = 0 := by
  have hpending : (start W records).pending = 0 := Finset.sum_eq_zero fun _ _ => rfl
  unfold State.taken
  rw [hpending]
  rfl

/-- A warp at a new position. -/
theorem pending_setWarp (s : State W width) (w : Fin W) (p : Warp width) :
    (s.warps w).pending + (s.setWarp w p).pending = p.pending + s.pending := by
  have hrest : ∑ v ∈ Finset.univ.erase w, ((s.setWarp w p).warps v).pending =
      ∑ v ∈ Finset.univ.erase w, (s.warps v).pending :=
    Finset.sum_congr rfl fun v hv => by
      show (Function.update s.warps w p v).pending = _
      rw [Function.update_of_ne (Finset.ne_of_mem_erase hv)]
  have hself : ((s.setWarp w p).warps w).pending = p.pending := by
    show (Function.update s.warps w p w).pending = _
    rw [Function.update_self]
  unfold State.pending
  rw [← Finset.add_sum_erase _ _ (Finset.mem_univ w), hself, hrest,
    ← Finset.add_sum_erase Finset.univ (fun v => (s.warps v).pending) (Finset.mem_univ w)]
  exact add_left_comm _ _ _

/-- A warp that stays in the callback keeps what it stores. -/
theorem pending_setWarp_of_eq {s : State W width} {w : Fin W} {p : Warp width}
    (h : p.pending = (s.warps w).pending) : (s.setWarp w p).pending = s.pending :=
  add_left_cancel ((pending_setWarp s w p).trans (by rw [h]))

/-- The addition to `tail_index` keeps what the warp stores. -/
theorem pending_afterAdd (size old : ℕ) (r : Stores width) :
    (afterAdd size old r).pending = {r} := by
  unfold afterAdd
  dsimp only
  split_ifs <;> rfl

/-- A step in which a warp stays in the callback and nothing is pushed. -/
theorem taken_eq_of_move {s s' : State W width} {w : Fin W} {p : Warp width}
    (hwarps : s'.warps = (s.setWarp w p).warps) (hpushed : s'.pushed = s.pushed)
    (hp : p.pending = (s.warps w).pending) : s'.taken = s.taken := by
  have hpending : s'.pending = (s.setWarp w p).pending := by
    unfold State.pending
    rw [hwarps]
  unfold State.taken
  rw [hpushed, hpending, pending_setWarp_of_eq hp]

/-- The leader stays in the callback. -/
theorem taken_lead (s : State W width) {w : Fin W} {r : Stores width} {l : Lead}
    (hw : s.warps w = .lead r l) : (s.lead size analysis w r l).taken = s.taken := by
  have hsame : Warp.pending (s.warps w) = {r} := by rw [hw]; rfl
  cases l with
  | loadHead =>
    unfold State.lead
    dsimp only
    split_ifs
    · rfl
    · exact taken_eq_of_move rfl rfl hsame.symm
  | raiseFlag => exact taken_eq_of_move rfl rfl hsame.symm
  | loadFlag =>
    unfold State.lead
    dsimp only
    split_ifs
    · rfl
    · exact taken_eq_of_move rfl rfl hsame.symm
  | resetHead => exact taken_eq_of_move rfl rfl hsame.symm
  | resetTail => exact taken_eq_of_move rfl rfl hsame.symm

/-- A push moves what the warp stores. -/
theorem taken_push (s : State W width) {w : Fin W} {r : Stores width} {slot k : ℕ}
    (hw : s.warps w = .write r slot k) : (s.push w r slot).taken = s.taken := by
  have hpending : {r} + (s.push w r slot).pending = s.pending := by
    have h := pending_setWarp s w .idle
    rw [hw] at h
    exact h.trans (zero_add _)
  have hpushed : ((s.push w r slot).pushed.map Pushed.stores : Multiset (Stores width)) =
      (s.pushed.map Pushed.stores : List (Stores width)) + {r} := by
    show ((s.pushed ++ [_]).map Pushed.stores : Multiset (Stores width)) = _
    rw [List.map_append, ← Multiset.coe_add]
    rfl
  unfold State.taken
  rw [hpushed, add_assoc, hpending]

/-- A step of a warp inside of the callback. -/
theorem taken_warp {s s' : State W width} {w : Fin W} (h : s.warp size analysis w = some s') :
    s'.taken = s.taken := by
  unfold State.warp at h
  cases hw : s.warps w with
  | idle =>
    rw [hw] at h
    cases h
  | add r =>
    rw [hw] at h
    obtain rfl := Option.some.inj h
    exact taken_eq_of_move rfl rfl (by rw [hw, pending_afterAdd]; rfl)
  | lead r l =>
    rw [hw] at h
    obtain rfl := Option.some.inj h
    exact taken_lead s hw
  | wait r =>
    rw [hw] at h
    obtain rfl := Option.some.inj h
    unfold State.wait
    split_ifs
    · rfl
    · exact taken_eq_of_move rfl rfl (by rw [hw]; rfl)
  | write r slot k =>
    rw [hw] at h
    dsimp only at h
    split_ifs at h with hk
    · obtain rfl := Option.some.inj h
      exact taken_eq_of_move rfl rfl (by rw [hw]; rfl)
    · obtain rfl := Option.some.inj h
      exact taken_push s hw

/-- The consumer leaves the warps and what is pushed. -/
theorem frame_consume (s : State W width) :
    (s.consume analysis).warps = s.warps ∧ (s.consume analysis).pushed = s.pushed := by
  unfold State.consume
  cases s.consumer with
  | waiting =>
    dsimp only
    split_ifs <;> exact ⟨rfl, rfl⟩
  | reading n done record k =>
    dsimp only
    split_ifs <;> exact ⟨rfl, rfl⟩

/-- The consumer only reads. -/
theorem taken_consume (s : State W width) : (s.consume analysis).taken = s.taken := by
  unfold State.taken State.pending
  rw [(frame_consume s).1, (frame_consume s).2]

/-- Nothing gets lost in the queue or appears in it. -/
theorem taken_step {s s' : State W width} {a : Action W width}
    (h : step size analysis s a = some s') : s'.taken = s.taken + a.entering := by
  cases a with
  | enter w r =>
    unfold step at h
    dsimp only at h
    split at h
    · next hw =>
      obtain rfl := Option.some.inj h
      have hpending := pending_setWarp s w (.add r)
      rw [hw] at hpending
      have hadd : (s.setWarp w (.add r)).pending = s.pending + {r} := by
        calc (s.setWarp w (.add r)).pending = 0 + (s.setWarp w (.add r)).pending :=
              (zero_add _).symm
          _ = {r} + s.pending := hpending
          _ = s.pending + {r} := add_comm _ _
      unfold State.taken
      rw [hadd, ← add_assoc]
      rfl
    · cases h
  | warp w => exact (taken_warp h).trans (add_zero _).symm
  | consumer =>
    obtain rfl := Option.some.inj h
    exact (taken_consume s).trans (add_zero _).symm

/-- A step of a warp leaves the positions of the others. -/
theorem warps_warp_of_ne {s s' : State W width} {w v : Fin W}
    (h : s.warp size analysis w = some s') (hv : v ≠ w) : s'.warps v = s.warps v := by
  have hset : ∀ p, (s.setWarp w p).warps v = s.warps v := fun _ => Function.update_of_ne hv _ _
  unfold State.warp at h
  cases hw : s.warps w with
  | idle =>
    rw [hw] at h
    cases h
  | add r =>
    rw [hw] at h
    obtain rfl := Option.some.inj h
    exact hset _
  | lead r l =>
    rw [hw] at h
    obtain rfl := Option.some.inj h
    unfold State.lead
    cases l <;> dsimp only <;> (try split_ifs) <;> first | rfl | exact hset _
  | wait r =>
    rw [hw] at h
    obtain rfl := Option.some.inj h
    unfold State.wait
    split_ifs
    · rfl
    · exact hset _
  | write r slot k =>
    rw [hw] at h
    dsimp only at h
    split_ifs at h
    · obtain rfl := Option.some.inj h
      exact hset _
    · obtain rfl := Option.some.inj h
      exact hset _

/-- Only a warp that enters the callback gets into it. -/
theorem idle_step {s s' : State W width} {a : Action W width}
    (h : step size analysis s a = some s') {v : Fin W} (hv : ∀ r, a ≠ .enter v r)
    (hidle : s.warps v = .idle) : s'.warps v = .idle := by
  cases a with
  | enter w r =>
    have hne : v ≠ w := fun heq => hv r (by rw [heq])
    unfold step at h
    dsimp only at h
    split at h
    · obtain rfl := Option.some.inj h
      exact (Function.update_of_ne hne _ _).trans hidle
    · cases h
  | warp w =>
    have hne : v ≠ w := by
      rintro rfl
      have hnone : s.warp size analysis v = none := by
        unfold State.warp
        rw [hidle]
      cases hnone.symm.trans h
    exact (warps_warp_of_ne h hne).trans hidle
  | consumer =>
    obtain rfl := Option.some.inj h
    exact (frame_consume s).1 ▸ hidle

/-! ## What the consumer has read -/

section Drained

variable {s : State W width}

/-- The pushes that a drain has read. -/
theorem Inv.exists_drain (h : Inv size analysis s) {e : ℕ} {d : List (Record width)}
    (hd : s.drains[e]? = some d) :
    ∃ ps : List (Pushed width), (∀ p ∈ ps, p ∈ s.pushed) ∧
      ps.map (fun p => (p.epoch, p.slot)) = (List.range size).map (fun n => (e, n)) ∧
      List.Forall₂ (fun p record => Holds p.stores record) ps d := by
  have hlen : d.length = size := h.drained.length d (List.mem_of_getElem? hd)
  have hread : ∀ x ∈ d.zipIdx, ∃ p, p ∈ s.pushed ∧ (p.epoch, p.slot) = (e, x.2) ∧
      Holds p.stores x.1 := by
    rintro ⟨record, n⟩ hx
    have hrecord : d[n]? = some record := List.mem_zipIdx_iff_getElem?.1 hx
    have hn : n < size := hlen ▸ (List.getElem?_eq_some_iff.1 hrecord).1
    obtain ⟨p, hp, rfl, rfl⟩ := mem_current.1 (h.drained.sound e d hd n hn)
    obtain ⟨record', hrecord', hholds⟩ := h.drained.kept p hp d hd
    rw [hrecord] at hrecord'
    rw [← Option.some.inj hrecord'] at hholds
    exact ⟨p, hp, rfl, hholds⟩
  obtain ⟨ps, hps⟩ := exists_forall₂ hread
  have hflip : List.Forall₂ (fun p x => p ∈ s.pushed ∧ (p.epoch, p.slot) = (e, x.2) ∧
      Holds p.stores x.1) ps d.zipIdx := hps.flip
  obtain ⟨hmem, hmatch⟩ := (List.forall₂_and_left _ _).1 hflip
  refine ⟨ps, hmem, ?_, ?_⟩
  · have hkeys : List.Forall₂ Eq (ps.map fun p => (p.epoch, p.slot))
        (d.zipIdx.map fun x => (e, x.2)) :=
      List.forall₂_map_left_iff.2 (List.forall₂_map_right_iff.2 (hmatch.imp fun _ _ hx => hx.1))
    rw [List.forall₂_eq_eq_eq] at hkeys
    have hindices : d.zipIdx.map Prod.snd = List.range size := by
      rw [List.zipIdx_map_snd, hlen, List.range_eq_range']
    rw [hkeys, ← hindices, List.map_map]
    rfl
  · have hholds := List.forall₂_map_right_iff.2
      (hmatch.imp (S := fun p (x : Record width × ℕ) => Holds p.stores x.1) fun _ _ hx => hx.2)
    rwa [List.zipIdx_map_fst] at hholds

/-- What is pushed is what the drains have read, in the order of the epochs and slots, and the
rest. -/
theorem Inv.exists_drained (h : Inv size analysis s) :
    ∃ (drained : List (List (Pushed width))) (rest : List (Pushed width)),
      s.pushed.Perm (drained.flatten ++ rest) ∧
      List.Forall₂ (List.Forall₂ fun p record => Holds p.stores record) drained s.drains ∧
      drained.flatten.map (fun p => (p.epoch, p.slot)) =
        (List.range s.drains.length).flatMap fun e => (List.range size).map fun n => (e, n) := by
  have hdrain : ∀ x ∈ s.drains.zipIdx, ∃ ps : List (Pushed width), (∀ p ∈ ps, p ∈ s.pushed) ∧
      ps.map (fun p => (p.epoch, p.slot)) = (List.range size).map (fun n => (x.2, n)) ∧
      List.Forall₂ (fun p record => Holds p.stores record) ps x.1 :=
    fun x hx => h.exists_drain (List.mem_zipIdx_iff_getElem?.1 hx)
  obtain ⟨drained, hdrained⟩ := exists_forall₂ hdrain
  have hflip : List.Forall₂ (fun (ps : List (Pushed width)) x => (∀ p ∈ ps, p ∈ s.pushed) ∧
      ps.map (fun p => (p.epoch, p.slot)) = (List.range size).map (fun n => (x.2, n)) ∧
      List.Forall₂ (fun p record => Holds p.stores record) ps x.1) drained s.drains.zipIdx :=
    hdrained.flip
  obtain ⟨hmem, hmatch⟩ := (List.forall₂_and_left _ _).1 hflip
  have hkeys : drained.flatten.map (fun p => (p.epoch, p.slot)) =
      (List.range s.drains.length).flatMap fun e => (List.range size).map fun n => (e, n) := by
    have hlists : List.Forall₂ Eq (drained.map (List.map fun p => (p.epoch, p.slot)))
        (s.drains.zipIdx.map fun x => (List.range size).map fun n => (x.2, n)) :=
      List.forall₂_map_left_iff.2 (List.forall₂_map_right_iff.2 (hmatch.imp fun _ _ hx => hx.1))
    rw [List.forall₂_eq_eq_eq] at hlists
    have hindices : s.drains.zipIdx.map Prod.snd = List.range s.drains.length := by
      rw [List.zipIdx_map_snd, List.range_eq_range']
    rw [List.map_flatten, hlists, List.flatMap_def, ← hindices, List.map_map]
    rfl
  have hnodup : (drained.flatten.map fun p => (p.epoch, p.slot)).Nodup := by
    rw [hkeys]
    exact List.nodup_range.product List.nodup_range
  have hpushed : ∀ p ∈ drained.flatten, p ∈ s.pushed := by
    intro p hp
    obtain ⟨ps, hps, hp⟩ := List.mem_flatten.1 hp
    exact hmem ps hps p hp
  obtain ⟨rest, hrest⟩ := exists_perm_append hnodup hpushed
  refine ⟨drained, rest, hrest, ?_, hkeys⟩
  have hholds := List.forall₂_map_right_iff.2
    (hmatch.imp (S := fun ps (x : List (Record width) × ℕ) =>
      List.Forall₂ (fun p record => Holds p.stores record) ps x.1) fun _ _ hx => hx.2)
  rwa [List.zipIdx_map_fst] at hholds

/-- The records that are pushed when the consumer looks at them outside of a drain. -/
def State.left (s : State W width) : List (Record width) :=
  (List.range s.buffer.head_index).map s.buffer.records

/-- When no warp is in the callback, the buffer is not full, and no slot is held. -/
theorem Inv.filling_of_idle (h : Inv size analysis s) (hidle : ∀ w, s.warps w = .idle) :
    s.buffer.flag analysis = 0 ∧ s.drains.length = s.epoch ∧
      s.buffer.head_index = (current s.epoch s.pushed).length ∧ s.holders = ∅ := by
  have hlead : ∀ w l, s.leads w ≠ some l := by
    intro w l hl
    unfold State.leads at hl
    rw [hidle w] at hl
    exact absurd hl (by simp [Warp.lead?])
  have hholders : s.holders = ∅ := by
    refine Finset.filter_eq_empty_iff.2 fun w _ => ?_
    unfold State.held
    rw [hidle w]
    simp [Warp.slot?]
  cases h.stage with
  | filling _ hflag _ hdrains hhead => exact ⟨hflag, hdrains, hhead, hholders⟩
  | raised w hw => exact absurd hw (hlead w _)
  | lowered w hw => exact hw.elim (fun hw => absurd hw (hlead w _)) fun hw => absurd hw (hlead w _)
  | emptied w hw => exact absurd hw (hlead w _)

/-- What is pushed when no warp is in the callback is what the drains have read and the records that
are left, in the order of the slots. -/
theorem Inv.exists_drained_left (h : Inv size analysis s) (hidle : ∀ w, s.warps w = .idle) :
    ∃ (drained : List (List (Pushed width))) (rest : List (Pushed width)),
      s.pushed.Perm (drained.flatten ++ rest) ∧
      List.Forall₂ (List.Forall₂ fun p record => Holds p.stores record) drained s.drains ∧
      List.Forall₂ (fun p record => Holds p.stores record) rest s.left := by
  obtain ⟨-, hdrains, hhead, hholders⟩ := h.filling_of_idle hidle
  obtain ⟨drained, rest, hperm, hdrained, hkeys⟩ := h.exists_drained
  have hpushed : ∀ p ∈ rest, p ∈ s.pushed := fun p hp =>
    hperm.symm.subset (List.mem_append_right _ hp)
  -- The drains have read all earlier epochs, so the rest is of the current one.
  have hmem : ∀ p : Pushed width,
      (p.epoch, p.slot) ∈ drained.flatten.map (fun p => (p.epoch, p.slot)) ↔
      p.epoch < s.epoch ∧ p.slot < size := by
    intro p
    rw [hkeys, hdrains]
    simp
  have hepoch : ∀ p ∈ rest, p.epoch = s.epoch := by
    intro p hp
    have hnodup := (hperm.map fun p => (p.epoch, p.slot)).nodup_iff.1 h.slots.nodup
    rw [List.map_append, List.nodup_append'] at hnodup
    by_contra hne
    refine hnodup.2.2 ((hmem p).2 ⟨?_, h.slots.pushed_lt p (hpushed p hp)⟩) (List.mem_map_of_mem hp)
    exact lt_of_le_of_ne (h.slots.epoch_le p (hpushed p hp)) hne
  have hcurrent : (current s.epoch s.pushed).Perm (rest.map Pushed.slot) := by
    have hearlier : drained.flatten.filter (fun p => p.epoch = s.epoch) = [] := by
      refine List.filter_eq_nil_iff.2 fun p hp heq => ?_
      have hlt := ((hmem p).1 (List.mem_map_of_mem hp)).1
      have heq' : p.epoch = s.epoch := by simpa using heq
      omega
    have hrest : rest.filter (fun p => p.epoch = s.epoch) = rest :=
      List.filter_eq_self.2 fun p hp => by simpa using hepoch p hp
    have hfilter := hperm.filter fun p => p.epoch = s.epoch
    rw [List.filter_append, hearlier, hrest, List.nil_append] at hfilter
    exact hfilter.map Pushed.slot
  have hrange : (rest.map Pushed.slot).Perm (List.range s.buffer.head_index) := by
    refine (List.subperm_of_subset (hcurrent.nodup_iff.1 h.slots.nodup_current)
      fun n hn => ?_).perm_of_length_le ?_
    · obtain ⟨p, hp, rfl⟩ := List.mem_map.1 hn
      obtain ⟨-, -, -, hlt⟩ := h.kept (hpushed p hp) (by rw [hepoch p hp, hdrains])
      rw [hholders, Finset.card_empty, Nat.add_zero] at hlt
      exact List.mem_range.2 hlt
    · rw [List.length_range, hhead, hcurrent.length_eq]
  obtain ⟨rest', hrest', hslots⟩ := exists_perm_of_map_perm hrange
  refine ⟨drained, rest', hperm.trans (hrest'.symm.append_left _), hdrained, ?_⟩
  unfold State.left
  rw [← hslots, List.map_map, List.forall₂_map_right_iff, List.forall₂_same]
  intro p hp
  have hp' := hrest'.subset hp
  exact h.stored.pushed p (hpushed p hp') (hepoch p hp')

/-- When no warp is in the callback, all that was brought into the queue is pushed. -/
theorem taken_of_idle (hidle : ∀ w, s.warps w = .idle) :
    s.taken = (s.pushed.map Pushed.stores : List (Stores width)) := by
  have hpending : s.pending = 0 := by
    refine Finset.sum_eq_zero fun w _ => ?_
    rw [hidle w]
    rfl
  unfold State.taken
  rw [hpending, add_zero]

end Drained

end TenProf.GpuQueue
