import TenProf.GpuPatch.QueueInvariant

/-!
# The safety of the record queue

Every step keeps the invariant (`Inv.step`), so it holds in every state of every run. The results
are that a slot is held by one warp at most and pushed once in its epoch, that the flag is up only
when all records of the epoch are stored, and that a pushed record is read once or still in its
slot.
-/

namespace TenProf.GpuQueue

variable {W width : ℕ}

/-! ## The stages of an epoch -/

/-- What the consumer has read so far are the first records. -/
def Consumer.Reads (size : ℕ) (records : ℕ → Record width) : Consumer width → Prop
  | .waiting => True
  | .reading n done record k => n = size ∧ done.length ≤ size ∧
      done = (List.range done.length).map records ∧
      ∀ i : Fin width, i < k → record i = records done.length i

/-- The stages of an epoch. The buffer fills, with at most a leader that has not raised the flag.
The flag is up, and the consumer reads all records. The consumer has lowered the flag, and the
leader has not reset `head_index`. The leader has reset `head_index` and not `tail_index`. -/
inductive Stage (size flag head : ℕ) (consumer : Consumer width) (leads : Fin W → Option Lead)
    (epoch : ℕ) (pushed : List (Pushed width)) (drains : List (List (Record width)))
    (records : ℕ → Record width) : Prop where
  | filling
      (hlead : ∀ w l, leads w = some l → l = .loadHead ∨ l = .raiseFlag ∧ head = size)
      (hflag : flag = 0) (hwait : consumer = .waiting) (hdrains : drains.length = epoch)
      (hhead : head = (current epoch pushed).length)
  | raised (w : Fin W) (hlead : leads w = some .loadFlag) (hflag : flag = 1)
      (hreads : consumer.Reads size records) (hdrains : drains.length = epoch)
      (hhead : head = size) (hfull : (current epoch pushed).length = size)
  | lowered (w : Fin W) (hlead : leads w = some .loadFlag ∨ leads w = some .resetHead)
      (hflag : flag = 0) (hwait : consumer = .waiting) (hdrains : drains.length = epoch + 1)
      (hfull : (current epoch pushed).length = size)
  | emptied (w : Fin W) (hlead : leads w = some .resetTail) (hflag : flag = 0)
      (hwait : consumer = .waiting) (hdrains : drains.length = epoch + 1) (hhead : head = 0)
      (hfull : (current epoch pushed).length = size)

/-- The invariant of the queue. -/
structure Inv (size : ℕ) (analysis : Bool) (s : State W width) : Prop where
  tail : s.buffer.tail_index = u32 s.tickets
  tickets : Tickets size s.tickets s.leads s.waits
  slots : Slots size s.epoch s.tickets s.held s.pushed
  stored : Stored s.epoch s.warps s.pushed s.buffer.records
  drained : Drained size s.pushed s.drains
  stage : Stage size (s.buffer.flag analysis) s.buffer.head_index s.consumer s.leads s.epoch
    s.pushed s.drains s.buffer.records

section Buffer

variable (analysis : Bool) (b : Buffer width) (v : ℕ)

@[simp] theorem flag_setFlag : (b.setFlag analysis v).flag analysis = v := by
  cases analysis <;> rfl

@[simp] theorem head_index_setFlag : (b.setFlag analysis v).head_index = b.head_index := by
  cases analysis <;> rfl

@[simp] theorem tail_index_setFlag : (b.setFlag analysis v).tail_index = b.tail_index := by
  cases analysis <;> rfl

@[simp] theorem records_setFlag : (b.setFlag analysis v).records = b.records := by
  cases analysis <;> rfl

end Buffer

/-! ## The steps -/

section Steps

variable {size : ℕ} {analysis : Bool} {s : State W width} {w : Fin W} {r : Stores width}

/-- Before the first step nothing is handed out. -/
theorem inv_start (records : ℕ → Record width) : Inv size analysis (start W records) where
  tail := rfl
  tickets :=
    { le := Nat.zero_le _
      lt_of_leads := fun _ _ h => absurd h (by simp [State.leads, start, Warp.lead?])
      one_lt := fun _ h => absurd h (by simp [State.waits, start, Warp.waits])
      unique := fun _ _ _ _ h => absurd h (by simp [State.leads, start, Warp.lead?]) }
  slots :=
    { held_lt := fun _ _ h => absurd h (by simp [State.held, start, Warp.slot?])
      held_inj := fun _ _ _ h => absurd h (by simp [State.held, start, Warp.slot?])
      held_fresh := fun _ _ h => absurd h (by simp [State.held, start, Warp.slot?])
      pushed_lt := fun p h => absurd h (by simp [start])
      epoch_le := fun p h => absurd h (by simp [start])
      current_lt := fun n h => absurd h (by simp [start, current])
      nodup := List.nodup_nil
      taken := fun n _ h => absurd h (Nat.not_lt_zero n) }
  stored :=
    { written := fun _ _ _ _ h => absurd h (by simp [start])
      pushed := fun p h => absurd h (by simp [start]) }
  drained :=
    { length := fun d h => absurd h (by simp [start])
      kept := fun p h => absurd h (by simp [start])
      sound := fun e d h => absurd h (by simp [start]) }
  stage := by
    apply Stage.filling
    · intro w l h
      exact absurd h (by simp [State.leads, start, Warp.lead?])
    · cases analysis <;> rfl
    · rfl
    · rfl
    · rfl

/-- The additions to `tail_index` return the slots in order. -/
theorem afterAdd_eq {old : ℕ} (hsize : size < 2^32) (hold : old < 2^32) (r : Stores width) :
    afterAdd size old r =
      if old < size then .write r old 0
      else if old = size then .lead r .loadHead else .wait r := by
  unfold afterAdd
  simp only [subU32_u32_add_one hold]
  by_cases hlt : old < size
  · have hne : u32 (old + 1) ≠ 0 := by
      rw [u32_of_lt (by omega)]
      omega
    simp [hlt, hne]
  · simp [hlt, Nat.le_of_not_lt hlt]

/-- A step that changes no role and has nothing stored. -/
theorem Inv.setWarp (h : Inv size analysis s) {p : Warp width} (hlead : p.lead? = s.leads w)
    (hwaits : p.waits = s.waits w) (hheld : p.slot? = s.held w)
    (hp : ∀ r n k, p = .write r n k → k = 0) : Inv size analysis (s.setWarp w p) where
  tail := h.tail
  tickets := by
    rw [leads_setWarp_of_eq hlead, waits_setWarp_of_eq hwaits]
    exact h.tickets
  slots := by
    rw [held_setWarp_of_eq hheld]
    exact h.slots
  stored := h.stored.setWarp hp
  drained := h.drained
  stage := by
    rw [leads_setWarp_of_eq hlead]
    exact h.stage

/-- A warp enters the callback. -/
theorem Inv.enter (h : Inv size analysis s) (hw : s.warps w = .idle) (r : Stores width) :
    Inv size analysis (s.setWarp w (.add r)) := by
  apply h.setWarp
  · simp [State.leads, hw, Warp.lead?]
  · simp [State.waits, hw, Warp.waits]
  · simp [State.held, hw, Warp.slot?]
  · intro r' n k heq
    exact absurd heq (by simp)

/-- The addition to `tail_index`, after which the warp is at the position `p`. -/
theorem Inv.add_of_eq (h : Inv size analysis s) {p : Warp width}
    (hafter : afterAdd size s.buffer.tail_index r = p) (htail : s.buffer.tail_index = s.tickets)
    (hp : ∀ r n k, p = .write r n k → k = 0)
    (htickets : Tickets size (s.tickets + 1) (Function.update s.leads w p.lead?)
      (Function.update s.waits w p.waits))
    (hslots : Slots size s.epoch (s.tickets + 1) (Function.update s.held w p.slot?) s.pushed)
    (hstage : Stage size (s.buffer.flag analysis) s.buffer.head_index s.consumer
      (Function.update s.leads w p.lead?) s.epoch s.pushed s.drains s.buffer.records) :
    Inv size analysis (s.add size w r) := by
  have hwarps : (s.add size w r).warps = (s.setWarp w p).warps := by rw [← hafter]; rfl
  have hleads : (s.add size w r).leads = Function.update s.leads w p.lead? := by
    rw [← leads_setWarp, ← hafter]
    rfl
  have hwaits : (s.add size w r).waits = Function.update s.waits w p.waits := by
    rw [← waits_setWarp, ← hafter]
    rfl
  have hheld : (s.add size w r).held = Function.update s.held w p.slot? := by
    rw [← held_setWarp, ← hafter]
    rfl
  refine ⟨?_, ?_, ?_, ?_, h.drained, ?_⟩
  · show u32 (s.buffer.tail_index + 1) = u32 (s.tickets + 1)
    rw [htail]
  · rw [hleads, hwaits]
    exact htickets
  · rw [hheld]
    exact hslots
  · rw [hwarps]
    exact h.stored.setWarp hp
  · rw [hleads]
    exact hstage

/-- When no warp leads, the buffer is filling. -/
theorem Inv.filling (h : Inv size analysis s) (hnone : ∀ v, s.leads v = none) :
    s.buffer.flag analysis = 0 ∧ s.consumer = .waiting ∧ s.drains.length = s.epoch ∧
      s.buffer.head_index = (current s.epoch s.pushed).length := by
  cases h.stage with
  | filling _ hflag hwait hdrains hhead => exact ⟨hflag, hwait, hdrains, hhead⟩
  | raised v hlead => exact absurd hlead (by simp [hnone v])
  | lowered v hlead => exact absurd hlead (by simp [hnone v])
  | emptied v hlead => exact absurd hlead (by simp [hnone v])

/-- The addition to `tail_index`. -/
theorem Inv.add (h : Inv size analysis s) (hfits : Fits size W) (hw : s.warps w = .add r) :
    Inv size analysis (s.add size w r) := by
  have hlead : s.leads w = none := by simp [State.leads, hw, Warp.lead?]
  have hwaits : s.waits w = false := by simp [State.waits, hw, Warp.waits]
  have hheld : s.held w = none := by simp [State.held, hw, Warp.slot?]
  have hmem : w ∉ blocked s.leads s.waits := by simp [blocked, hlead, hwaits]
  have hlt := h.tickets.lt_of_notMem hfits hmem
  have htail : s.buffer.tail_index = s.tickets := by rw [h.tail, u32_of_lt hlt]
  have hafter := afterAdd_eq hfits.size_lt hlt r
  rw [← htail] at hafter
  -- The roles that the step does not change.
  have hleads : Function.update s.leads w none = s.leads := by rw [← hlead, Function.update_eq_self]
  have hslots : Function.update s.held w none = s.held := by rw [← hheld, Function.update_eq_self]
  rcases lt_trichotomy s.tickets size with htake | heq | hfull
  · -- A slot.
    rw [if_pos (htail ▸ htake)] at hafter
    apply h.add_of_eq hafter htail
    · intro r' n k heq
      exact (Warp.write.inj heq).2.2.symm
    · have hupdate : Function.update s.waits w false = s.waits := by
        rw [← hwaits, Function.update_eq_self]
      show Tickets size (s.tickets + 1) (Function.update s.leads w none)
        (Function.update s.waits w false)
      rw [hleads, hupdate]
      exact h.tickets.take htake
    · rw [htail]
      exact h.slots.take htake hheld
    · show Stage size _ _ _ (Function.update s.leads w none) _ _ _ _
      rw [hleads]
      exact h.stage
  · -- The first warp that finds the buffer full.
    rw [if_neg (by omega), if_pos (htail.trans heq)] at hafter
    apply h.add_of_eq hafter htail
    · intro r' n k heq'
      exact absurd heq' (by simp)
    · exact h.tickets.lead heq hmem .loadHead false hwaits.symm
    · show Slots size s.epoch (s.tickets + 1) (Function.update s.held w none) s.pushed
      rw [hslots]
      exact h.slots.overshoot heq.ge
    · have hnone : ∀ v, s.leads v = none := fun v => by
        cases hv : s.leads v with
        | none => rfl
        | some l => exact absurd (h.tickets.lt_of_leads v l hv) (by omega)
      obtain ⟨hflag, hwait, hdrains, hhead⟩ := h.filling hnone
      refine Stage.filling ?_ hflag hwait hdrains hhead
      intro v l hv
      rcases eq_or_ne v w with rfl | hne
      · rw [Function.update_self] at hv
        exact .inl (Option.some.inj hv).symm
      · rw [Function.update_of_ne hne, hnone v] at hv
        exact absurd hv (by simp)
  · -- A later one.
    rw [if_neg (by omega), if_neg (by omega)] at hafter
    apply h.add_of_eq hafter htail
    · intro r' n k heq
      exact absurd heq (by simp)
    · exact h.tickets.wait hfull hmem none hlead.symm
    · show Slots size s.epoch (s.tickets + 1) (Function.update s.held w none) s.pushed
      rw [hslots]
      exact h.slots.overshoot hfull.le
    · show Stage size _ _ _ (Function.update s.leads w none) _ _ _ _
      rw [hleads]
      exact h.stage

/-- The leader goes on to its next position, with a store to `head_index` or the flag. -/
theorem Inv.move (h : Inv size analysis s) {l : Lead} (hw : s.warps w = .lead r l) (l' : Lead)
    {b : Buffer width} (htail : b.tail_index = s.buffer.tail_index)
    (hrecords : b.records = s.buffer.records)
    (hstage : Stage size (b.flag analysis) b.head_index s.consumer
      (Function.update s.leads w (some l')) s.epoch s.pushed s.drains s.buffer.records) :
    Inv size analysis { s.setWarp w (.lead r l') with buffer := b } := by
  have hlead : s.leads w = some l := by simp [State.leads, hw, Warp.lead?]
  have hwaits : s.waits w = false := by simp [State.waits, hw, Warp.waits]
  have hheld : s.held w = none := by simp [State.held, hw, Warp.slot?]
  have htickets := h.tickets.move hlead l' false hwaits.symm
  have hstored : Stored s.epoch (s.setWarp w (.lead r l')).warps s.pushed s.buffer.records := by
    apply h.stored.setWarp
    intro r' n k heq
    exact absurd heq (by simp)
  have hslots : (s.setWarp w (.lead r l')).held = s.held := held_setWarp_of_eq hheld.symm
  refine ⟨htail.trans h.tail, ?_, ?_, ?_, h.drained, ?_⟩
  · show Tickets size s.tickets (s.setWarp w (.lead r l')).leads (s.setWarp w (.lead r l')).waits
    rw [leads_setWarp, waits_setWarp]
    exact htickets
  · show Slots size s.epoch s.tickets (s.setWarp w (.lead r l')).held s.pushed
    rw [hslots]
    exact h.slots
  · show Stored s.epoch (s.setWarp w (.lead r l')).warps s.pushed b.records
    rw [hrecords]
    exact hstored
  · show Stage size (b.flag analysis) b.head_index s.consumer (s.setWarp w (.lead r l')).leads
      s.epoch s.pushed s.drains b.records
    rw [hrecords, leads_setWarp]
    exact hstage

/-- The leader at a load of `head_index` or before it raises the flag: the buffer is filling. -/
theorem Inv.filling_of_lead (h : Inv size analysis s) {l : Lead} (hlead : s.leads w = some l)
    (hl : l = .loadHead ∨ l = .raiseFlag) :
    (l = .raiseFlag → s.buffer.head_index = size) ∧ s.buffer.flag analysis = 0 ∧
      s.consumer = .waiting ∧ s.drains.length = s.epoch ∧
      s.buffer.head_index = (current s.epoch s.pushed).length := by
  cases h.stage with
  | filling hlead' hflag hwait hdrains hhead =>
    refine ⟨?_, hflag, hwait, hdrains, hhead⟩
    rintro rfl
    rcases hlead' w _ hlead with heq | ⟨-, heq⟩
    · exact absurd heq (by simp)
    · exact heq
  | raised v hv =>
    have := h.tickets.lead_eq hlead hv
    rcases hl with rfl | rfl <;> simp at this
  | lowered v hv =>
    rcases hv with hv | hv <;>
    · have := h.tickets.lead_eq hlead hv
      rcases hl with rfl | rfl <;> simp at this
  | emptied v hv =>
    have := h.tickets.lead_eq hlead hv
    rcases hl with rfl | rfl <;> simp at this

/-- The leader at a load of `head_index`. -/
theorem Inv.loadHead (h : Inv size analysis s) (hw : s.warps w = .lead r .loadHead) :
    Inv size analysis (s.lead size analysis w r .loadHead) := by
  have hlead : s.leads w = some .loadHead := by simp [State.leads, hw, Warp.lead?]
  obtain ⟨-, hflag, hwait, hdrains, hhead⟩ := h.filling_of_lead hlead (.inl rfl)
  unfold State.lead
  dsimp only
  split_ifs with hlt
  · exact h
  · have hsize : s.buffer.head_index = size := by
      have := h.slots.length_le
      omega
    refine h.move hw .raiseFlag rfl rfl (Stage.filling ?_ hflag hwait hdrains hhead)
    intro v l hv
    rcases eq_or_ne v w with rfl | hne
    · rw [Function.update_self] at hv
      exact .inr ⟨(Option.some.inj hv).symm, hsize⟩
    · rw [Function.update_of_ne hne] at hv
      exact absurd (h.tickets.unique v w _ _ hv hlead) hne

/-- The leader raises the flag. -/
theorem Inv.raiseFlag (h : Inv size analysis s) (hw : s.warps w = .lead r .raiseFlag) :
    Inv size analysis (s.lead size analysis w r .raiseFlag) := by
  have hlead : s.leads w = some .raiseFlag := by simp [State.leads, hw, Warp.lead?]
  obtain ⟨hsize, hflag, hwait, hdrains, hhead⟩ := h.filling_of_lead hlead (.inr rfl)
  apply h.move hw .loadFlag (tail_index_setFlag analysis s.buffer 1)
    (records_setFlag analysis s.buffer 1)
  rw [flag_setFlag, head_index_setFlag, hwait]
  exact .raised w (Function.update_self w _ _) rfl trivial hdrains (hsize rfl)
    (hhead.symm.trans (hsize rfl))

/-- The leader at a load of the flag. -/
theorem Inv.loadFlag (h : Inv size analysis s) (hw : s.warps w = .lead r .loadFlag) :
    Inv size analysis (s.lead size analysis w r .loadFlag) := by
  have hlead : s.leads w = some .loadFlag := by simp [State.leads, hw, Warp.lead?]
  unfold State.lead
  dsimp only
  split_ifs with hone
  · exact h
  · refine h.move hw .resetHead rfl rfl ?_
    have hself : Function.update s.leads w (some .resetHead) w = some .resetHead :=
      Function.update_self w _ _
    cases h.stage with
    | filling hlead' =>
      rcases hlead' w _ hlead with heq | ⟨heq, -⟩ <;> simp at heq
    | raised v hv hflag => exact absurd hflag hone
    | lowered v hv hflag hwait hdrains hfull =>
      exact .lowered w (.inr hself) hflag hwait hdrains hfull
    | emptied v hv => exact absurd (h.tickets.lead_eq hlead hv) (by simp)

/-- The leader resets `head_index`. -/
theorem Inv.resetHead (h : Inv size analysis s) (hw : s.warps w = .lead r .resetHead) :
    Inv size analysis (s.lead size analysis w r .resetHead) := by
  have hlead : s.leads w = some .resetHead := by simp [State.leads, hw, Warp.lead?]
  refine h.move hw .resetTail rfl rfl ?_
  have hself : Function.update s.leads w (some .resetTail) w = some .resetTail :=
    Function.update_self w _ _
  cases h.stage with
  | filling hlead' => rcases hlead' w _ hlead with heq | ⟨heq, -⟩ <;> simp at heq
  | raised v hv => exact absurd (h.tickets.lead_eq hlead hv) (by simp)
  | lowered v hv hflag hwait hdrains hfull =>
    exact .emptied w hself hflag hwait hdrains rfl hfull
  | emptied v hv => exact absurd (h.tickets.lead_eq hlead hv) (by simp)

/-- The leader resets `tail_index`, and the next epoch begins. -/
theorem Inv.resetTail (h : Inv size analysis s) (hw : s.warps w = .lead r .resetTail) :
    Inv size analysis (s.lead size analysis w r .resetTail) := by
  have hlead : s.leads w = some .resetTail := by simp [State.leads, hw, Warp.lead?]
  have hwaits : s.waits w = false := by simp [State.waits, hw, Warp.waits]
  have hheld : s.held w = none := by simp [State.held, hw, Warp.slot?]
  have hslots : (s.setWarp w (.add r)).held = s.held := held_setWarp_of_eq hheld.symm
  have hstored : Stored s.epoch (s.setWarp w (.add r)).warps s.pushed s.buffer.records := by
    apply h.stored.setWarp
    intro r' n k heq
    exact absurd heq (by simp)
  cases h.stage with
  | filling hlead' => rcases hlead' w _ hlead with heq | ⟨heq, -⟩ <;> simp at heq
  | raised v hv => exact absurd (h.tickets.lead_eq hlead hv) (by simp)
  | lowered v hv =>
    rcases hv with hv | hv <;> exact absurd (h.tickets.lead_eq hlead hv) (by simp)
  | emptied v hv hflag hwait hdrains hhead hfull =>
    have hempty : (current (s.epoch + 1) s.pushed).length = 0 := by
      have hnone := (h.slots.reset hfull).current_lt
      rw [List.length_eq_zero_iff, List.eq_nil_iff_forall_not_mem]
      intro n hn
      exact absurd (hnone n hn) (Nat.not_lt_zero n)
    refine ⟨rfl, ?_, ?_, hstored.reset h.slots.epoch_le, h.drained, ?_⟩
    · show Tickets size 0 (s.setWarp w (.add r)).leads (s.setWarp w (.add r)).waits
      rw [leads_setWarp, waits_setWarp]
      exact h.tickets.reset hlead false hwaits.symm
    · show Slots size (s.epoch + 1) 0 (s.setWarp w (.add r)).held s.pushed
      rw [hslots]
      exact h.slots.reset hfull
    · show Stage size (s.buffer.flag analysis) s.buffer.head_index s.consumer
        (s.setWarp w (.add r)).leads (s.epoch + 1) s.pushed s.drains s.buffer.records
      refine .filling ?_ hflag hwait hdrains (hhead.trans hempty.symm)
      intro u l hu
      rw [leads_setWarp] at hu
      exact absurd ((h.tickets.reset hlead false hwaits.symm).lt_of_leads u l hu)
        (Nat.not_lt_zero size)

/-- The leader's step. -/
theorem Inv.lead (h : Inv size analysis s) {l : Lead} (hw : s.warps w = .lead r l) :
    Inv size analysis (s.lead size analysis w r l) := by
  cases l with
  | loadHead => exact h.loadHead hw
  | raiseFlag => exact h.raiseFlag hw
  | loadFlag => exact h.loadFlag hw
  | resetHead => exact h.resetHead hw
  | resetTail => exact h.resetTail hw

/-- The step of another warp that found the buffer full. -/
theorem Inv.wait (h : Inv size analysis s) (hfits : Fits size W) (hw : s.warps w = .wait r) :
    Inv size analysis (s.wait size w r) := by
  have hlead : s.leads w = none := by simp [State.leads, hw, Warp.lead?]
  have hwaits : s.waits w = true := by simp [State.waits, hw, Warp.waits]
  have hheld : s.held w = none := by simp [State.held, hw, Warp.slot?]
  have htail : s.buffer.tail_index = s.tickets := by
    rw [h.tail, u32_of_lt (h.tickets.lt_of_waits hfits hwaits)]
  have hsame : (s.setWarp w (.add r)).leads = s.leads := leads_setWarp_of_eq hlead.symm
  have hslots : (s.setWarp w (.add r)).held = s.held := held_setWarp_of_eq hheld.symm
  unfold State.wait
  split_ifs with hle
  · exact h
  · refine ⟨h.tail, ?_, ?_, h.stored.setWarp ?_, h.drained, ?_⟩
    · rw [leads_setWarp, waits_setWarp]
      exact h.tickets.retry (by omega) none hlead.symm
    · rw [hslots]
      exact h.slots
    · intro r' n k heq
      exact absurd heq (by simp)
    · rw [hsame]
      exact h.stage

/-- While a warp holds a slot, the buffer is filling. -/
theorem Inv.filling_of_held (h : Inv size analysis s) {n : ℕ} (hheld : s.held w = some n) :
    (∀ v l, s.leads v = some l → l = .loadHead) ∧ s.buffer.flag analysis = 0 ∧
      s.consumer = .waiting ∧ s.drains.length = s.epoch ∧
      s.buffer.head_index = (current s.epoch s.pushed).length := by
  have hlt := h.slots.length_lt hheld
  cases h.stage with
  | filling hlead hflag hwait hdrains hhead =>
    refine ⟨?_, hflag, hwait, hdrains, hhead⟩
    intro v l hv
    rcases hlead v l hv with heq | ⟨-, hsize⟩
    · exact heq
    · omega
  | raised v hlead hflag hreads hdrains hhead hfull => omega
  | lowered v hlead hflag hwait hdrains hfull => omega
  | emptied v hlead hflag hwait hdrains hhead hfull => omega

/-- A warp stores a word of its record. -/
theorem Inv.store (h : Inv size analysis s) {n k : ℕ} (hw : s.warps w = .write r n k)
    (hk : k < width) : Inv size analysis (s.store w r n ⟨k, hk⟩) := by
  have hlead : s.leads w = none := by simp [State.leads, hw, Warp.lead?]
  have hwaits : s.waits w = false := by simp [State.waits, hw, Warp.waits]
  have hheld : s.held w = some n := by simp [State.held, hw, Warp.slot?]
  obtain ⟨hleads, hflag, hwait, hdrains, hhead⟩ := h.filling_of_held hheld
  have hother : ∀ v, v ≠ w → (s.warps v).slot? ≠ some n := fun v hne hv =>
    hne (h.slots.held_inj v w n hv hheld)
  have hstored := h.stored.store hw hk hother (h.slots.held_fresh w n hheld)
  have hstage : Stage size (s.buffer.flag analysis) s.buffer.head_index s.consumer s.leads
      s.epoch s.pushed s.drains (s.store w r n ⟨k, hk⟩).buffer.records :=
    .filling (fun v l hv => .inl (hleads v l hv)) hflag hwait hdrains hhead
  have hsame : (s.setWarp w (.write r n (k + 1))).leads = s.leads :=
    leads_setWarp_of_eq hlead.symm
  have hwaiting : (s.setWarp w (.write r n (k + 1))).waits = s.waits :=
    waits_setWarp_of_eq hwaits.symm
  have hslots : (s.setWarp w (.write r n (k + 1))).held = s.held :=
    held_setWarp_of_eq hheld.symm
  refine ⟨h.tail, ?_, ?_, hstored, h.drained, ?_⟩
  · show Tickets size s.tickets (s.setWarp w (.write r n (k + 1))).leads
      (s.setWarp w (.write r n (k + 1))).waits
    rw [hsame, hwaiting]
    exact h.tickets
  · show Slots size s.epoch s.tickets (s.setWarp w (.write r n (k + 1))).held s.pushed
    rw [hslots]
    exact h.slots
  · show Stage size (s.buffer.flag analysis) s.buffer.head_index s.consumer
      (s.setWarp w (.write r n (k + 1))).leads s.epoch s.pushed s.drains
      (s.store w r n ⟨k, hk⟩).buffer.records
    rw [hsame]
    exact hstage

/-- A warp pushes its record. -/
theorem Inv.push (h : Inv size analysis s) (hfits : Fits size W) {n k : ℕ}
    (hw : s.warps w = .write r n k) (hk : width ≤ k) :
    Inv size analysis (s.push w r n) := by
  have hlead : s.leads w = none := by simp [State.leads, hw, Warp.lead?]
  have hwaits : s.waits w = false := by simp [State.waits, hw, Warp.waits]
  have hheld : s.held w = some n := by simp [State.held, hw, Warp.slot?]
  obtain ⟨hleads, hflag, hwait, hdrains, hhead⟩ := h.filling_of_held hheld
  have hcount : (current s.epoch (s.pushed ++ [⟨s.epoch, n, r⟩])).length =
      (current s.epoch s.pushed).length + 1 := by
    rw [current_append, List.length_append, List.length_singleton]
  have hhead' : u32 (s.buffer.head_index + 1) =
      (current s.epoch (s.pushed ++ [⟨s.epoch, n, r⟩])).length := by
    have hlt := h.slots.length_lt hheld
    have hsize := hfits.size_lt
    rw [hcount, hhead, u32_of_lt (by omega)]
  have hsame : (s.setWarp w .idle).leads = s.leads := leads_setWarp_of_eq hlead.symm
  have hwaiting : (s.setWarp w .idle).waits = s.waits := waits_setWarp_of_eq hwaits.symm
  refine ⟨h.tail, ?_, ?_, h.stored.push hw hk, h.drained.push hdrains.le r, ?_⟩
  · show Tickets size s.tickets (s.setWarp w .idle).leads (s.setWarp w .idle).waits
    rw [hsame, hwaiting]
    exact h.tickets
  · show Slots size s.epoch s.tickets (s.setWarp w .idle).held
      (s.pushed ++ [⟨s.epoch, n, r⟩])
    rw [held_setWarp]
    exact h.slots.push hheld r
  · show Stage size (s.buffer.flag analysis) (u32 (s.buffer.head_index + 1)) s.consumer
      (s.setWarp w .idle).leads s.epoch (s.pushed ++ [⟨s.epoch, n, r⟩]) s.drains
      s.buffer.records
    rw [hsame]
    exact .filling (fun v l hv => .inl (hleads v l hv)) hflag hwait hdrains hhead'

/-- A step of the consumer in which it reads. -/
theorem Inv.setConsumer (h : Inv size analysis s) {v : Fin W}
    (hlead : s.leads v = some .loadFlag) (hflag : s.buffer.flag analysis = 1)
    (hdrains : s.drains.length = s.epoch) (hhead : s.buffer.head_index = size)
    (hfull : (current s.epoch s.pushed).length = size) {c : Consumer width}
    (hc : c.Reads size s.buffer.records) : Inv size analysis { s with consumer := c } :=
  ⟨h.tail, h.tickets, h.slots, h.stored, h.drained,
    .raised v hlead hflag hc hdrains hhead hfull⟩

/-- The consumer's step. -/
theorem Inv.consume (h : Inv size analysis s) : Inv size analysis (s.consume analysis) := by
  have hzero : s.buffer.flag analysis = 0 ∧ s.consumer = .waiting → s.consume analysis = s := by
    rintro ⟨hflag, hwait⟩
    unfold State.consume
    rw [hwait]
    simp [hflag]
  cases h.stage with
  | filling _ hflag hwait =>
    rw [hzero ⟨hflag, hwait⟩]
    exact h
  | lowered _ _ hflag hwait =>
    rw [hzero ⟨hflag, hwait⟩]
    exact h
  | emptied _ _ hflag hwait =>
    rw [hzero ⟨hflag, hwait⟩]
    exact h
  | raised v hlead hflag hreads hdrains hhead hfull =>
    cases hc : s.consumer with
    | waiting =>
      have heq : s.consume analysis =
          { s with consumer := .reading s.buffer.head_index [] (fun _ => 0) 0 } := by
        unfold State.consume
        rw [hc]
        simp [hflag]
      rw [heq]
      refine h.setConsumer hlead hflag hdrains hhead hfull ⟨hhead, Nat.zero_le _, rfl, ?_⟩
      intro i hi
      exact absurd hi (Nat.not_lt_zero _)
    | reading n done record k =>
      rw [hc] at hreads
      obtain ⟨rfl, hle, hdone, hrecord⟩ := hreads
      unfold State.consume
      rw [hc]
      dsimp only
      split_ifs with hlt hk
      · -- The next word of a record.
        refine h.setConsumer hlead hflag hdrains hhead hfull ⟨rfl, hle, hdone, ?_⟩
        intro i hi
        rcases eq_or_ne i ⟨k, hk⟩ with rfl | hne
        · rw [Function.update_self]
        · rw [Function.update_of_ne hne]
          exact hrecord i (lt_of_le_of_ne (Nat.lt_succ_iff.1 hi) fun heq => hne (Fin.ext heq))
      · -- The record is complete.
        have hall : record = s.buffer.records done.length :=
          funext fun i => hrecord i (lt_of_lt_of_le i.isLt (Nat.le_of_not_lt hk))
        refine h.setConsumer hlead hflag hdrains hhead hfull ⟨rfl, ?_, ?_, ?_⟩
        · rw [List.length_append, List.length_singleton]
          exact hlt
        · rw [List.length_append, List.length_singleton, List.range_succ, List.map_append,
            ← hdone, hall]
          rfl
        · intro i hi
          exact absurd hi (Nat.not_lt_zero _)
      · -- All records are read, and the consumer lowers the flag.
        have hlen : done.length = n := by omega
        rw [hlen] at hdone
        have hdrained := h.drained.drain hdrains h.slots.pushed_lt h.slots.epoch_le
          (fun m hm => h.slots.mem_of_full hfull hm) h.stored.pushed
        rw [← hdone] at hdrained
        refine ⟨?_, h.tickets, h.slots, ?_, hdrained, ?_⟩
        · show (s.buffer.setFlag analysis 0).tail_index = u32 s.tickets
          rw [tail_index_setFlag, h.tail]
        · show Stored s.epoch s.warps s.pushed (s.buffer.setFlag analysis 0).records
          rw [records_setFlag]
          exact h.stored
        · refine .lowered v (.inl hlead) (flag_setFlag analysis s.buffer 0) rfl ?_ hfull
          rw [List.length_append, List.length_singleton, hdrains]

/-- Every step keeps the invariant. -/
theorem Inv.step (h : Inv size analysis s) (hfits : Fits size W) {a : Action W width}
    {s' : State W width} (hstep : GpuQueue.step size analysis s a = some s') :
    Inv size analysis s' := by
  cases a with
  | enter w r =>
    unfold GpuQueue.step at hstep
    dsimp only at hstep
    split at hstep
    · next hw =>
      rw [← Option.some.inj hstep]
      exact h.enter hw r
    · exact absurd hstep (by simp)
  | warp w =>
    have hstep : s.warp size analysis w = some s' := hstep
    unfold State.warp at hstep
    split at hstep
    · exact absurd hstep (by simp)
    · next r hw =>
      rw [← Option.some.inj hstep]
      exact h.add hfits hw
    · next r l hw =>
      rw [← Option.some.inj hstep]
      exact h.lead hw
    · next r hw =>
      rw [← Option.some.inj hstep]
      exact h.wait hfits hw
    · next r n k hw =>
      split_ifs at hstep with hk
      · rw [← Option.some.inj hstep]
        exact h.store hw hk
      · rw [← Option.some.inj hstep]
        exact h.push hfits hw (Nat.le_of_not_lt hk)
  | consumer =>
    rw [← Option.some.inj hstep]
    exact h.consume

end Steps

/-! ## Safety -/

/-- The warps that hold a slot. -/
def State.holders (s : State W width) : Finset (Fin W) :=
  Finset.univ.filter fun w => (s.held w).isSome

/-- The record is read in the drain of its epoch, at its slot. -/
def State.Read (s : State W width) (p : Pushed width) : Prop :=
  ∃ d record, s.drains[p.epoch]? = some d ∧ d[p.slot]? = some record ∧ Holds p.stores record

/-- The record belongs to the current epoch, which is not yet read, and is still stored at its slot,
one of the first `head_index` and those that warps hold. -/
def State.Kept (s : State W width) (p : Pushed width) : Prop :=
  s.drains.length ≤ p.epoch ∧ p.epoch = s.epoch ∧ Holds p.stores (s.buffer.records p.slot) ∧
    p.slot < s.buffer.head_index + s.holders.card

/-- What holds in every state: no two warps hold a slot, nor one that is pushed in this epoch; slots
are below the size; the flag is up only when all records of the epoch are stored; each pushed
record is read once or kept; and what was read is what was pushed. -/
structure Safe (size : ℕ) (analysis : Bool) (s : State W width) : Prop where
  unique : ∀ w v n, s.held w = some n → s.held v = some n → w = v
  fresh : ∀ w n, s.held w = some n → ∀ p ∈ s.pushed, p.epoch = s.epoch → p.slot ≠ n
  in_bounds : ∀ w n, s.held w = some n → n < size
  raised : s.buffer.flag analysis ≠ 0 → (∀ w, s.held w = none) ∧
    ∀ n < size, ∃ p ∈ s.pushed, p.epoch = s.epoch ∧ p.slot = n ∧
      Holds p.stores (s.buffer.records n)
  kept : ∀ p ∈ s.pushed, s.Read p ∨ s.Kept p
  once : (s.pushed.map fun p => (p.epoch, p.slot)).Nodup
  sound : ∀ e d, s.drains[e]? = some d → d.length = size ∧
    ∀ n < size, ∃ p ∈ s.pushed, p.epoch = e ∧ p.slot = n

section Safe

variable {size : ℕ} {analysis : Bool} {s : State W width}

/-- The slots below the size and the counter are at most as many as those pushed in the epoch and
those that warps hold. -/
theorem Inv.min_le (h : Inv size analysis s) :
    min size s.tickets ≤ (current s.epoch s.pushed).length + s.holders.card := by
  have hsub : Finset.range (min size s.tickets) ⊆
      (current s.epoch s.pushed).toFinset ∪ s.holders.image fun w => (s.held w).getD 0 := by
    intro n hn
    have hn := lt_min_iff.1 (Finset.mem_range.1 hn)
    rw [Finset.mem_union, List.mem_toFinset, Finset.mem_image]
    rcases h.slots.taken n hn.1 hn.2 with ⟨w, hw⟩ | hmem
    · exact .inr ⟨w, by simp [State.holders, hw], by rw [hw]; rfl⟩
    · exact .inl hmem
  calc min size s.tickets = (Finset.range (min size s.tickets)).card :=
        (Finset.card_range _).symm
    _ ≤ ((current s.epoch s.pushed).toFinset ∪
          s.holders.image fun w => (s.held w).getD 0).card := Finset.card_le_card hsub
    _ ≤ (current s.epoch s.pushed).toFinset.card +
          (s.holders.image fun w => (s.held w).getD 0).card := Finset.card_union_le _ _
    _ ≤ (current s.epoch s.pushed).length + s.holders.card :=
        Nat.add_le_add (List.toFinset_card_le _) Finset.card_image_le

/-- A record that is pushed in the current epoch is stored among the first `head_index` records and
those that warps hold, until the consumer has read the epoch. -/
theorem Inv.kept (h : Inv size analysis s) {p : Pushed width} (hp : p ∈ s.pushed)
    (hlen : s.drains.length ≤ p.epoch) : s.Kept p := by
  have hle := h.slots.epoch_le p hp
  have hmem : p.epoch = s.epoch → p.slot ∈ current s.epoch s.pushed := fun heq =>
    mem_current.2 ⟨p, hp, heq, rfl⟩
  have hhead : s.drains.length = s.epoch ∧
      s.buffer.head_index = (current s.epoch s.pushed).length := by
    cases h.stage with
    | filling _ _ _ hdrains hhead => exact ⟨hdrains, hhead⟩
    | raised _ _ _ _ hdrains hhead hfull => exact ⟨hdrains, hhead.trans hfull.symm⟩
    | lowered _ _ _ _ hdrains => omega
    | emptied _ _ _ _ hdrains => omega
  have hepoch : p.epoch = s.epoch := by omega
  refine ⟨hlen, hepoch, h.stored.pushed p hp hepoch, ?_⟩
  calc p.slot < min size s.tickets :=
        lt_min (h.slots.pushed_lt p hp) (h.slots.current_lt _ (hmem hepoch))
    _ ≤ (current s.epoch s.pushed).length + s.holders.card := h.min_le
    _ = s.buffer.head_index + s.holders.card := by rw [hhead.2]

/-- The invariant gives the safety. -/
theorem Inv.safe (h : Inv size analysis s) : Safe size analysis s where
  unique := h.slots.held_inj
  fresh w n hw p hp hpe hpn := h.slots.held_fresh w n hw (mem_current.2 ⟨p, hp, hpe, hpn⟩)
  in_bounds w n hw := (h.slots.held_lt w n hw).1
  raised hflag := by
    cases h.stage with
    | filling _ hzero => exact absurd hzero hflag
    | lowered _ _ hzero => exact absurd hzero hflag
    | emptied _ _ hzero => exact absurd hzero hflag
    | raised _ _ _ _ _ _ hfull =>
      refine ⟨h.slots.held_of_full hfull, ?_⟩
      intro n hn
      obtain ⟨p, hp, hpe, rfl⟩ := mem_current.1 (h.slots.mem_of_full hfull hn)
      exact ⟨p, hp, hpe, rfl, h.stored.pushed p hp hpe⟩
  kept p hp := by
    cases hd : s.drains[p.epoch]? with
    | none => exact .inr (h.kept hp (List.getElem?_eq_none_iff.1 hd))
    | some d =>
      obtain ⟨record, hrecord, hholds⟩ := h.drained.kept p hp d hd
      exact .inl ⟨d, record, hd, hrecord, hholds⟩
  once := h.slots.nodup
  sound e d hd := ⟨h.drained.length d (List.mem_of_getElem? hd), fun n hn =>
    mem_current.1 (h.drained.sound e d hd n hn)⟩

/-- The queue is safe in every state that the warps and the consumer reach from the start, in any
order of their steps, when the additions to `tail_index` do not wrap. -/
theorem safe_of_run {records : ℕ → Record width} {as : List (Action W width)}
    (hfits : size + W < 2^32 ∨ size < 2^32 ∧ W ≤ 1)
    (hrun : run (step size analysis) (start W records) as = some s) : Safe size analysis s := by
  have hinv : Inv size analysis s :=
    run_invariant' (fun s a s' h hstep => h.step hfits hstep) (inv_start records) hrun
  exact hinv.safe

end Safe

/-- Two warps fill a buffer of two records, the first one finds it full, and the consumer reads
it. -/
def fillAndDrain : List (Action 2 1) :=
  [.enter 0 fun _ => some 5, .enter 1 fun _ => some 6, .warp 0, .warp 1, .warp 1, .warp 1, .warp 0,
    .warp 0, .enter 0 fun _ => some 7, .warp 0, .warp 0, .warp 0, .consumer, .consumer, .consumer,
    .consumer, .consumer, .consumer, .warp 0, .warp 0, .warp 0]

/-- The queue is safe after a buffer was filled and read. -/
theorem safe_of_run_fillAndDrain : ∃ s, run (step 2 false) (start 2 fun _ _ => 0) fillAndDrain =
    some s ∧ s.drains.length = 1 ∧ s.epoch = 1 ∧ Safe 2 false s := by
  have hany : (run (step 2 false) (start 2 fun _ _ => 0) fillAndDrain).any
      (fun s => s.drains.length = 1 ∧ s.epoch = 1) = true := by decide
  obtain ⟨s, hrun, hs⟩ := (Option.any_eq_true _ _).1 hany
  obtain ⟨hlen, hepoch⟩ := of_decide_eq_true hs
  have hfits : 2 + 2 < 2^32 ∨ 2 < 2^32 ∧ 2 ≤ 1 := .inl (by norm_num)
  exact ⟨s, hrun, hlen, hepoch, safe_of_run hfits hrun⟩

/-! ## Beyond the safety -/

/-- Two warps take the slots of a buffer, and the one with the second slot pushes first. -/
def pushSecondFirst : List (Action 2 1) :=
  [.enter 0 fun _ => some 5, .enter 1 fun _ => some 6, .warp 0, .warp 1, .warp 1, .warp 1]

/-- A state in which `n` records were pushed and nothing else goes on. -/
structure Filled (n : ℕ) (s : State 2 1) : Prop where
  warps : s.warps = fun _ => .idle
  head : s.buffer.head_index = n
  tail : s.buffer.tail_index = n

/-- The callback of one warp in a buffer that is not full. -/
theorem Filled.callback {size n : ℕ} {s : State 2 1} (h : Filled n s) (hlt : n < size)
    (hsize : size < 2^32) : ∃ s', run (step size false) s
      [.enter 0 fun _ => some 5, .warp 0, .warp 0, .warp 0] = some s' ∧ Filled (n + 1) s' := by
  let r : Stores 1 := fun _ => some 5
  let s₁ := s.setWarp 0 (.add r)
  let s₂ := s₁.add size 0 r
  let s₃ := s₂.store 0 r n 0
  have hword : u32 (n + 1) = n + 1 := u32_of_lt (by omega)
  have hafter : afterAdd size s.buffer.tail_index r = .write r n 0 := by
    rw [h.tail, afterAdd_eq hsize (by omega), if_pos hlt]
  have h₁ : step size false s (.enter 0 r) = some s₁ := by simp [step, h.warps, s₁]
  have h₂ : step size false s₁ (.warp 0) = some s₂ := by
    simp [step, State.warp, State.setWarp, s₁, s₂]
  have hw₂ : s₂.warps 0 = .write r n 0 := by simp [s₂, s₁, State.add, State.setWarp, hafter]
  have h₃ : step size false s₂ (.warp 0) = some s₃ := by
    simp [step, State.warp, hw₂, s₃]
  have hw₃ : s₃.warps 0 = .write r n 1 := by simp [s₃, State.store, State.setWarp]
  have h₄ : step size false s₃ (.warp 0) = some (s₃.push 0 r n) := by
    simp [step, State.warp, hw₃]
  refine ⟨s₃.push 0 r n, ?_, ?_, ?_, ?_⟩
  · simp only [run_cons, run_nil, h₁, h₂, h₃, h₄, Option.bind_some, r]
  · funext v
    rcases eq_or_ne v 0 with rfl | hne
    · simp [State.push, State.setWarp]
    · simp [State.push, State.store, State.add, State.setWarp, s₃, s₂, s₁, h.warps]
  · show u32 (s.buffer.head_index + 1) = n + 1
    rw [h.head, hword]
  · show u32 (s.buffer.tail_index + 1) = n + 1
    rw [h.tail, hword]

/-- Any number of records up to the size are pushed. -/
theorem exists_filled (size : ℕ) (hsize : size < 2^32) {n : ℕ} (hn : n ≤ size) :
    ∃ as s, run (step size false) (start 2 fun _ _ => 0) as = some s ∧ Filled n s := by
  induction n with
  | zero => exact ⟨[], _, rfl, rfl, rfl, rfl⟩
  | succ n ih =>
    obtain ⟨as, s, hrun, hfilled⟩ := ih (Nat.le_of_succ_le hn)
    obtain ⟨s', hrun', hfilled'⟩ := hfilled.callback hn hsize
    refine ⟨as ++ [.enter 0 fun _ => some 5, .warp 0, .warp 0, .warp 0], s', ?_, hfilled'⟩
    rw [run_append, hrun]
    exact hrun'

/-- When a full buffer has the largest size, the counter wraps: the first warp that finds the buffer
full becomes the leader, another one gets the first slot again, and the leader raises the flag. -/
theorem Filled.wrap {size : ℕ} {s : State 2 1} (h : Filled size s) (hsize : size + 1 = 2^32) :
    ∃ as s', run (step size false) s as = some s' ∧ s'.buffer.flag false = 1 ∧
      ∃ r, s'.warps 1 = .write r 0 0 := by
  let r : Stores 1 := fun _ => some 5
  let r' : Stores 1 := fun _ => some 6
  let s₁ := s.setWarp 0 (.add r)
  let s₂ := s₁.setWarp 1 (.add r')
  let s₃ := s₂.add size 0 r
  let s₄ := s₃.add size 1 r'
  let s₅ := s₄.setWarp 0 (.lead r .raiseFlag)
  let s₆ := s₅.lead size false 0 r .raiseFlag
  have hlead : afterAdd size s.buffer.tail_index r = .lead r .loadHead := by
    rw [h.tail, afterAdd_eq (by omega) (by omega), if_neg (lt_irrefl size), if_pos rfl]
  have htail : s₃.buffer.tail_index = 0 := by
    show u32 (s.buffer.tail_index + 1) = 0
    rw [h.tail, hsize]
    rfl
  have hslot : afterAdd size s₃.buffer.tail_index r' = .write r' 0 0 := by
    rw [htail, afterAdd_eq (by omega) (by omega), if_pos (by omega)]
  have h₁ : step size false s (.enter 0 r) = some s₁ := by simp [step, h.warps, s₁]
  have h₂ : step size false s₁ (.enter 1 r') = some s₂ := by
    simp [step, h.warps, s₁, s₂, State.setWarp]
  have h₃ : step size false s₂ (.warp 0) = some s₃ := by
    simp [step, State.warp, State.setWarp, s₁, s₂, s₃]
  have h₄ : step size false s₃ (.warp 1) = some s₄ := by
    simp [step, State.warp, State.setWarp, State.add, s₁, s₂, s₃, s₄]
  have hw₄ : s₄.warps 0 = .lead r .loadHead := by
    simp [s₄, s₃, s₂, s₁, State.add, State.setWarp, hlead]
  have hhead : ¬ s₄.buffer.head_index < size := by
    show ¬ s.buffer.head_index < size
    rw [h.head]
    exact lt_irrefl size
  have h₅ : step size false s₄ (.warp 0) = some s₅ := by
    simp [step, State.warp, hw₄, State.lead, hhead, s₅]
  have h₆ : step size false s₅ (.warp 0) = some s₆ := by
    simp [step, State.warp, State.setWarp, s₅, s₆]
  refine ⟨[.enter 0 r, .enter 1 r', .warp 0, .warp 1, .warp 0, .warp 0], s₆, ?_, rfl, r', ?_⟩
  · simp only [run_cons, run_nil, h₁, h₂, h₃, h₄, h₅, h₆, Option.bind_some]
  · simp [s₆, s₅, s₄, State.lead, State.add, State.setWarp, hslot]

/-- A pushed record need not be among the first `head_index` records while a warp holds an earlier
slot, and with the largest size the flag is raised while a warp writes a record. -/
theorem not_safe_of_run :
    (∃ s, run (step 2 false) (start 2 fun _ _ => 0) pushSecondFirst = some s ∧ s.drains = [] ∧
      ∃ p ∈ s.pushed, ¬ p.slot < s.buffer.head_index) ∧
    ∃ as, ∃ s : State 2 1, run (step (2^32 - 1) false) (start 2 fun _ _ => 0) as = some s ∧
      s.buffer.flag false = 1 ∧ ∃ r, s.warps 1 = .write r 0 0 := by
  constructor
  · exact ⟨_, rfl, rfl, _, List.mem_singleton.2 rfl, by decide⟩
  · obtain ⟨as, s, hrun, hfilled⟩ := exists_filled (2^32 - 1) (by norm_num) le_rfl
    obtain ⟨as', s', hrun', hflag, hheld⟩ := hfilled.wrap (by norm_num)
    refine ⟨as ++ as', s', ?_, hflag, hheld⟩
    rw [run_append, hrun]
    exact hrun'

end TenProf.GpuQueue
