import TenProf.GpuPatch.QueueAccounts
import Mathlib.Logic.Relation

/-!
# When the callbacks end

Without further callbacks, the warps inside of `gpu_queue_get` and `gpu_queue_push` and the consumer
go on by themselves (`Goes`). All callbacks can end unless the queue is stuck: a warp waits for a
smaller `tail_index`, the buffer has been filled again before the warp has looked at it, and there
is no leader and nobody who would become one (`ends_iff`). A stuck queue stays so.
-/

namespace TenProf.GpuQueue

variable {W width size : ℕ} {analysis : Bool}

/-- A step of a warp inside of the callback, or of the consumer. -/
def Goes (size : ℕ) (analysis : Bool) (s s' : State W width) : Prop :=
  (∃ w, s.warp size analysis w = some s') ∨ s' = s.consume analysis

/-- A run without further callbacks. -/
def Continues (size : ℕ) (analysis : Bool) : State W width → State W width → Prop :=
  Relation.ReflTransGen (Goes size analysis)

/-- A warp waits for a smaller `tail_index`, and nobody will reset it. -/
structure Stuck (size : ℕ) (s : State W width) : Prop where
  full : size ≤ s.buffer.tail_index
  waits : ∃ w r, s.warps w = .wait r
  not_lead : ∀ w r l, s.warps w ≠ .lead r l
  not_add : ∀ w r, s.warps w ≠ .add r

/-- A leader is there as soon as a warp found the buffer full. -/
def State.Led (size : ℕ) (s : State W width) : Prop :=
  size < s.tickets → ∃ w r l, s.warps w = .lead r l

/-! ## A stuck queue -/

/-- The consumer leaves `tail_index`. -/
theorem tail_index_consume (s : State W width) :
    (s.consume analysis).buffer.tail_index = s.buffer.tail_index := by
  unfold State.consume
  cases s.consumer with
  | waiting =>
    dsimp only
    split_ifs <;> rfl
  | reading n done record k =>
    dsimp only
    split_ifs
    · rfl
    · rfl
    · exact tail_index_setFlag analysis s.buffer 0

/-- The consumer leaves the count of the additions. -/
theorem tickets_consume (s : State W width) : (s.consume analysis).tickets = s.tickets := by
  unfold State.consume
  cases s.consumer with
  | waiting =>
    dsimp only
    split_ifs <;> rfl
  | reading n done record k =>
    dsimp only
    split_ifs <;> rfl

/-- A stuck queue stays so. -/
theorem Stuck.goes {s s' : State W width} (h : Stuck size s) (hgoes : Goes size analysis s s') :
    Stuck size s' := by
  obtain ⟨w, hw⟩ | rfl := hgoes
  · unfold State.warp at hw
    cases hpos : s.warps w with
    | idle =>
      rw [hpos] at hw
      cases hw
    | add r => exact absurd hpos (h.not_add w r)
    | lead r l => exact absurd hpos (h.not_lead w r l)
    | wait r =>
      rw [hpos] at hw
      obtain rfl := Option.some.inj hw
      unfold State.wait
      rwa [if_pos h.full]
    | write r slot k =>
      -- A warp with a slot stores or pushes, and leaves `tail_index` and the others.
      have hset : ∀ p : Warp width, (∀ r, p ≠ .wait r) → (∀ r l, p ≠ .lead r l) →
          (∀ r, p ≠ .add r) → ∀ t : State W width, t.warps = Function.update s.warps w p →
          t.buffer.tail_index = s.buffer.tail_index → Stuck size t := by
        intro p hwait hlead hadd t hwarps htail
        obtain ⟨v, r', hv⟩ := h.waits
        have hne : v ≠ w := by
          rintro rfl
          cases hpos.symm.trans hv
        refine ⟨htail ▸ h.full, ⟨v, r', ?_⟩, fun u r' l => ?_, fun u r' => ?_⟩
        · rw [hwarps, Function.update_of_ne hne, hv]
        · rw [hwarps]
          by_cases heq : u = w
          · rw [heq, Function.update_self]
            exact hlead r' l
          · rw [Function.update_of_ne heq]
            exact h.not_lead u r' l
        · rw [hwarps]
          by_cases heq : u = w
          · rw [heq, Function.update_self]
            exact hadd r'
          · rw [Function.update_of_ne heq]
            exact h.not_add u r'
      rw [hpos] at hw
      dsimp only at hw
      split_ifs at hw
      · obtain rfl := Option.some.inj hw
        exact hset (.write r slot (k + 1)) (fun _ => nofun) (fun _ _ => nofun) (fun _ => nofun) _
          rfl rfl
      · obtain rfl := Option.some.inj hw
        exact hset .idle (fun _ => nofun) (fun _ _ => nofun) (fun _ => nofun) _ rfl rfl
  · have hwarps : (s.consume analysis).warps = s.warps := (frame_consume s).1
    exact ⟨(tail_index_consume s).symm ▸ h.full, hwarps.symm ▸ h.waits, hwarps.symm ▸ h.not_lead,
      hwarps.symm ▸ h.not_add⟩

/-- In no continuation of a stuck queue all callbacks end. -/
theorem Stuck.not_ends {s s' : State W width} (h : Stuck size s)
    (hcontinues : Continues size analysis s s') : ¬∀ w, s'.warps w = .idle := by
  have hstuck : Stuck size s' := by
    induction hcontinues with
    | refl => exact h
    | tail _ hgoes ih => exact ih.goes hgoes
  obtain ⟨w, r, hw⟩ := hstuck.waits
  intro hidle
  cases hw.symm.trans (hidle w)

/-! ## The leader -/

/-- The leader of a state, after a step of a warp that is not the leader. -/
theorem State.Led.of_update {s s' : State W width} (h : s.Led size) {w : Fin W} {p : Warp width}
    (hnot : ∀ r l, s.warps w ≠ .lead r l) (hwarps : s'.warps = Function.update s.warps w p)
    (htickets : s'.tickets = s.tickets) : s'.Led size := by
  intro hlt
  obtain ⟨v, r, l, hv⟩ := h (htickets ▸ hlt)
  have hne : v ≠ w := fun heq => hnot r l (heq ▸ hv)
  exact ⟨v, r, l, by rw [hwarps, Function.update_of_ne hne, hv]⟩

variable {s s' : State W width} {w : Fin W} {r : Stores width}

/-- A warp that adds to `tail_index` is not blocked. -/
theorem notMem_blocked_of_add (hw : s.warps w = .add r) : w ∉ blocked s.leads s.waits := by
  intro hmem
  have hblocked := (Finset.mem_filter.1 hmem).2
  unfold State.leads State.waits at hblocked
  rw [hw] at hblocked
  simp [Warp.lead?, Warp.waits] at hblocked

/-- `tail_index` counts the additions, as long as a warp is about to add. -/
theorem Inv.tail_eq (h : Inv size analysis s) (hfits : Fits size W) (hw : s.warps w = .add r) :
    s.buffer.tail_index = s.tickets ∧ s.tickets < 2^32 := by
  have hlt := h.tickets.lt_of_notMem hfits (notMem_blocked_of_add hw)
  exact ⟨h.tail.trans (u32_of_lt hlt), hlt⟩

/-- There is a leader after the addition that finds the buffer full. -/
theorem State.Led.add (hled : s.Led size) (h : Inv size analysis s) (hfits : Fits size W)
    (hw : s.warps w = .add r) : (s.add size w r).Led size := by
  obtain ⟨htail, hlt⟩ := h.tail_eq hfits hw
  have hafter := afterAdd_eq hfits.size_lt hlt r
  intro hfull
  have hfull : size < s.tickets + 1 := hfull
  rcases eq_or_ne s.tickets size with heq | hne
  · refine ⟨w, r, .loadHead, ?_⟩
    show Function.update s.warps w (afterAdd size s.buffer.tail_index r) w = _
    rw [Function.update_self, htail, hafter, if_neg (by omega), if_pos heq]
  · obtain ⟨v, r', l, hv⟩ := hled (by omega)
    have hvw : v ≠ w := by
      rintro rfl
      cases hw.symm.trans hv
    exact ⟨v, r', l, (Function.update_of_ne hvw _ _).trans hv⟩

/-- Every step keeps a leader. -/
theorem State.Led.step (hled : s.Led size) (h : Inv size analysis s) (hfits : Fits size W)
    {a : Action W width} (hstep : GpuQueue.step size analysis s a = some s') : s'.Led size := by
  cases a with
  | enter w r =>
    unfold GpuQueue.step at hstep
    dsimp only at hstep
    split at hstep
    · next hw =>
      obtain rfl := Option.some.inj hstep
      exact hled.of_update (w := w) (p := .add r) (fun _ _ => by rw [hw]; nofun) rfl rfl
    · cases hstep
  | warp w =>
    have hstep : s.warp size analysis w = some s' := hstep
    unfold State.warp at hstep
    cases hw : s.warps w with
    | idle =>
      rw [hw] at hstep
      cases hstep
    | add r =>
      rw [hw] at hstep
      obtain rfl := Option.some.inj hstep
      exact hled.add h hfits hw
    | lead r l =>
      rw [hw] at hstep
      obtain rfl := Option.some.inj hstep
      have hself : ∀ l', (s.setWarp w (.lead r l')).warps w = .lead r l' := fun _ =>
        Function.update_self _ _ _
      unfold State.lead
      cases l with
      | loadHead =>
        dsimp only
        split_ifs
        · exact hled
        · exact fun _ => ⟨w, r, _, hself _⟩
      | raiseFlag => exact fun _ => ⟨w, r, _, hself _⟩
      | loadFlag =>
        dsimp only
        split_ifs
        · exact hled
        · exact fun _ => ⟨w, r, _, hself _⟩
      | resetHead => exact fun _ => ⟨w, r, _, hself _⟩
      | resetTail => exact fun hlt => absurd hlt (Nat.not_lt_zero _)
    | wait r =>
      rw [hw] at hstep
      obtain rfl := Option.some.inj hstep
      unfold State.wait
      split_ifs
      · exact hled
      · exact hled.of_update (w := w) (p := .add r) (fun _ _ => by rw [hw]; nofun) rfl rfl
    | write r slot k =>
      rw [hw] at hstep
      dsimp only at hstep
      split_ifs at hstep
      · obtain rfl := Option.some.inj hstep
        exact hled.of_update (w := w) (p := .write r slot (k + 1))
          (fun _ _ => by rw [hw]; nofun) rfl rfl
      · obtain rfl := Option.some.inj hstep
        exact hled.of_update (w := w) (p := .idle) (fun _ _ => by rw [hw]; nofun) rfl rfl
  | consumer =>
    obtain rfl := Option.some.inj hstep
    intro hlt
    rw [(frame_consume s).1]
    exact hled (tickets_consume s ▸ hlt)

/-- What the steps without callbacks keep. -/
structure Good (size : ℕ) (analysis : Bool) (s : State W width) : Prop where
  inv : Inv size analysis s
  led : s.Led size

/-- Every step keeps it. -/
theorem Good.step (h : Good size analysis s) (hfits : Fits size W) {a : Action W width}
    (hstep : GpuQueue.step size analysis s a = some s') : Good size analysis s' :=
  ⟨h.inv.step hfits hstep, h.led.step h.inv hfits hstep⟩

/-- A continuation keeps it. -/
theorem Good.continues (h : Good size analysis s) (hfits : Fits size W)
    (hcontinues : Continues size analysis s s') : Good size analysis s' := by
  induction hcontinues with
  | refl => exact h
  | tail _ hgoes ih =>
    obtain ⟨w, hw⟩ | rfl := hgoes
    · exact ih.step hfits (a := .warp w) hw
    · exact ih.step hfits (a := .consumer) rfl

/-! ## What ends by itself -/

/-- A step of a warp. -/
theorem Continues.warp (h : s.warp size analysis w = some s') : Continues size analysis s s' :=
  Relation.ReflTransGen.single (.inl ⟨w, h⟩)

/-- A step of the consumer. -/
theorem continues_consume (s : State W width) : Continues size analysis s (s.consume analysis) :=
  Relation.ReflTransGen.single (.inr rfl)

/-- A warp with a slot stores the rest of its record and pushes it. -/
theorem exists_pushed (size : ℕ) (analysis : Bool) {slot k : ℕ} (hw : s.warps w = .write r slot k) :
    ∃ s', Continues size analysis s s' ∧ s'.warps = Function.update s.warps w .idle ∧
      s'.buffer.tail_index = s.buffer.tail_index := by
  obtain ⟨n, hn⟩ : ∃ n, n = width - k := ⟨_, rfl⟩
  induction n generalizing s k with
  | zero =>
    have hk : ¬k < width := by omega
    have hstep : s.warp size analysis w = some (s.push w r slot) := by
      unfold State.warp
      rw [hw]
      exact dif_neg hk
    exact ⟨_, Continues.warp hstep, rfl, rfl⟩
  | succ n ih =>
    have hk : k < width := by omega
    have hstep : s.warp size analysis w = some (s.store w r slot ⟨k, hk⟩) := by
      unfold State.warp
      rw [hw]
      exact dif_pos hk
    have hself : (s.store w r slot ⟨k, hk⟩).warps w = .write r slot (k + 1) :=
      Function.update_self _ _ _
    obtain ⟨s', hcontinues, hwarps, htail⟩ := ih hself (by omega)
    refine ⟨s', (Continues.warp hstep).trans hcontinues, hwarps.trans ?_, htail⟩
    exact Function.update_idem _ _ _

/-- The consumer reads the rest of a record. -/
theorem exists_read (size : ℕ) (analysis : Bool) {n k : ℕ} {done : List (Record width)}
    {record : Record width} (hc : s.consumer = .reading n done record k) (hlt : done.length < n) :
    ∃ s' record', Continues size analysis s s' ∧ s'.warps = s.warps ∧
      s'.buffer.tail_index = s.buffer.tail_index ∧
      s'.consumer = .reading n (done ++ [record']) (fun _ => 0) 0 := by
  -- By induction on the number of words that are left.
  obtain ⟨m, hm⟩ : ∃ m, m = width - k := ⟨_, rfl⟩
  induction m generalizing s k record with
  | zero =>
    have hk : ¬k < width := by omega
    refine ⟨s.consume analysis, record, continues_consume s, (frame_consume s).1,
      tail_index_consume s, ?_⟩
    unfold State.consume
    rw [hc]
    dsimp only
    rw [if_pos hlt, dif_neg hk]
  | succ m ih =>
    have hk : k < width := by omega
    have hnext : (s.consume analysis).consumer = .reading n done
        (Function.update record ⟨k, hk⟩ (s.buffer.records done.length ⟨k, hk⟩)) (k + 1) := by
      unfold State.consume
      rw [hc]
      dsimp only
      rw [if_pos hlt, dif_pos hk]
    obtain ⟨s', record', hcontinues, hwarps, htail, hconsumer⟩ := ih hnext (by omega)
    exact ⟨s', record', (continues_consume s).trans hcontinues, hwarps.trans (frame_consume s).1,
      htail.trans (tail_index_consume s), hconsumer⟩

/-- The consumer reads the rest of the buffer, and lowers the flag. -/
theorem exists_drained (size : ℕ) (analysis : Bool) {n k : ℕ} {done : List (Record width)}
    {record : Record width} (hc : s.consumer = .reading n done record k) :
    ∃ s', Continues size analysis s s' ∧ s'.warps = s.warps ∧
      s'.buffer.tail_index = s.buffer.tail_index ∧ s'.buffer.flag analysis = 0 := by
  -- By induction on the number of records that are left.
  obtain ⟨m, hm⟩ : ∃ m, m = n - done.length := ⟨_, rfl⟩
  induction m generalizing s done record k with
  | zero =>
    have hlen : ¬done.length < n := by omega
    refine ⟨s.consume analysis, continues_consume s, (frame_consume s).1, tail_index_consume s, ?_⟩
    unfold State.consume
    rw [hc]
    dsimp only
    rw [if_neg hlen]
    exact flag_setFlag analysis s.buffer 0
  | succ m ih =>
    obtain ⟨s₁, record', hcontinues, hwarps, htail, hconsumer⟩ :=
      exists_read size analysis hc (by omega)
    obtain ⟨s', hrest, hwarps', htail', hflag⟩ := ih hconsumer (by
      rw [List.length_append, List.length_singleton]
      omega)
    exact ⟨s', hcontinues.trans hrest, hwarps'.trans hwarps, htail'.trans htail, hflag⟩

/-- The consumer lowers a flag that is up. -/
theorem exists_lowered (size : ℕ) (analysis : Bool) (s : State W width) :
    ∃ s', Continues size analysis s s' ∧ s'.warps = s.warps ∧ s'.buffer.flag analysis = 0 := by
  cases hc : s.consumer with
  | reading n done record k =>
    obtain ⟨s', hcontinues, hwarps, -, hflag⟩ := exists_drained size analysis hc
    exact ⟨s', hcontinues, hwarps, hflag⟩
  | waiting =>
    by_cases hflag : s.buffer.flag analysis = 0
    · exact ⟨s, Relation.ReflTransGen.refl, rfl, hflag⟩
    · have hnext : (s.consume analysis).consumer =
          .reading s.buffer.head_index [] (fun _ => 0) 0 := by
        unfold State.consume
        rw [hc]
        dsimp only
        rw [if_neg hflag]
      obtain ⟨s', hcontinues, hwarps, -, hlow⟩ := exists_drained size analysis hnext
      exact ⟨s', (continues_consume s).trans hcontinues, hwarps.trans (frame_consume s).1, hlow⟩

/-- The leader's step. -/
theorem warp_lead {l : Lead} (hw : s.warps w = .lead r l) :
    s.warp size analysis w = some (s.lead size analysis w r l) := by
  unfold State.warp
  rw [hw]

/-- The leader goes on from a next position. -/
theorem exists_reset_of_step {l : Lead} (l' : Lead) (hw : s.warps w = .lead r l)
    (hstep : (s.lead size analysis w r l).warps = Function.update s.warps w (.lead r l'))
    (hrest : ∃ s', Continues size analysis (s.lead size analysis w r l) s' ∧
      s'.warps = Function.update (s.lead size analysis w r l).warps w (.add r) ∧
      s'.buffer.tail_index = 0) :
    ∃ s', Continues size analysis s s' ∧ s'.warps = Function.update s.warps w (.add r) ∧
      s'.buffer.tail_index = 0 := by
  obtain ⟨s', hcontinues, hwarps, htail⟩ := hrest
  refine ⟨s', (Continues.warp (warp_lead hw)).trans hcontinues, hwarps.trans ?_, htail⟩
  rw [hstep, Function.update_idem]

/-- The leader resets `head_index` and `tail_index`. -/
theorem exists_reset_of_resetHead (hw : s.warps w = .lead r .resetHead) :
    ∃ s', Continues size analysis s s' ∧ s'.warps = Function.update s.warps w (.add r) ∧
      s'.buffer.tail_index = 0 :=
  exists_reset_of_step .resetTail hw rfl
    ⟨_, Continues.warp (warp_lead (Function.update_self _ _ _)), rfl, rfl⟩

/-- The leader waits for the flag. -/
theorem exists_reset_of_loadFlag (hw : s.warps w = .lead r .loadFlag) :
    ∃ s', Continues size analysis s s' ∧ s'.warps = Function.update s.warps w (.add r) ∧
      s'.buffer.tail_index = 0 := by
  -- The leader waits while the consumer reads.
  obtain ⟨s₁, hlowered, hwarps, hflag⟩ := exists_lowered size analysis s
  have hw₁ : s₁.warps w = .lead r .loadFlag := by rw [hwarps, hw]
  have hlead : s₁.lead size analysis w r .loadFlag = s₁.setWarp w (.lead r .resetHead) :=
    if_neg (by rw [hflag]; exact zero_ne_one)
  obtain ⟨s', hcontinues, hwarps', htail⟩ := exists_reset_of_step .resetHead hw₁
    (by rw [hlead]; rfl)
    (exists_reset_of_resetHead (by rw [hlead]; exact Function.update_self _ _ _))
  exact ⟨s', hlowered.trans hcontinues, hwarps'.trans (by rw [hwarps]), htail⟩

/-- The leader raises the flag. -/
theorem exists_reset_of_raiseFlag (hw : s.warps w = .lead r .raiseFlag) :
    ∃ s', Continues size analysis s s' ∧ s'.warps = Function.update s.warps w (.add r) ∧
      s'.buffer.tail_index = 0 :=
  exists_reset_of_step .loadFlag hw rfl (exists_reset_of_loadFlag (Function.update_self _ _ _))

/-- When no warp holds a slot, the leader gets through to the reset. -/
theorem exists_reset (h : Inv size analysis s) {l : Lead} (hw : s.warps w = .lead r l)
    (hnone : ∀ v r slot k, s.warps v ≠ .write r slot k) :
    ∃ s', Continues size analysis s s' ∧ s'.warps = Function.update s.warps w (.add r) ∧
      s'.buffer.tail_index = 0 := by
  cases l with
  | loadHead =>
    -- All slots are taken and none is held, so all of them are pushed.
    have hlead : s.leads w = some .loadHead := by
      unfold State.leads
      rw [hw]
      rfl
    have hholders : s.holders = ∅ := by
      refine Finset.filter_eq_empty_iff.2 fun v _ => ?_
      unfold State.held
      cases hv : s.warps v with
      | write r' slot k => exact absurd hv (hnone v r' slot k)
      | idle => simp [Warp.slot?]
      | add r' => simp [Warp.slot?]
      | lead r' l => simp [Warp.slot?]
      | wait r' => simp [Warp.slot?]
    have hhead : ¬s.buffer.head_index < size := by
      have hmin := h.min_le
      have hlt := h.tickets.lt_of_leads w _ hlead
      obtain ⟨-, -, -, -, hhead⟩ := h.filling_of_lead hlead (.inl rfl)
      rw [hholders, Finset.card_empty, ← hhead] at hmin
      omega
    have hstep : s.lead size analysis w r .loadHead = s.setWarp w (.lead r .raiseFlag) :=
      if_neg hhead
    exact exists_reset_of_step .raiseFlag hw (by rw [hstep]; rfl)
      (exists_reset_of_raiseFlag (by rw [hstep]; exact Function.update_self _ _ _))
  | raiseFlag => exact exists_reset_of_raiseFlag hw
  | loadFlag => exact exists_reset_of_loadFlag hw
  | resetHead => exact exists_reset_of_resetHead hw
  | resetTail => exact ⟨_, Continues.warp (warp_lead hw), rfl, rfl⟩

/-! ## What is left to do -/

/-- How far a warp is from the end of its callback. -/
def Warp.weight : Warp width → ℕ
  | .idle => 0
  | .write _ _ _ => 1
  | .add _ => 2
  | .lead _ _ => 3
  | .wait _ => 4

/-- How far all warps are from the end. -/
def State.weight (s : State W width) : ℕ := ∑ w, (s.warps w).weight

/-- A warp at a new position. -/
theorem weight_update {p : Warp width} (hwarps : s'.warps = Function.update s.warps w p) :
    s'.weight + (s.warps w).weight = s.weight + p.weight := by
  have hrest : ∑ v ∈ Finset.univ.erase w, (s'.warps v).weight =
      ∑ v ∈ Finset.univ.erase w, (s.warps v).weight :=
    Finset.sum_congr rfl fun v hv => by
      rw [hwarps, Function.update_of_ne (Finset.ne_of_mem_erase hv)]
  have hself : s'.warps w = p := by rw [hwarps, Function.update_self]
  unfold State.weight
  rw [← Finset.add_sum_erase _ _ (Finset.mem_univ w), hrest, hself,
    ← Finset.add_sum_erase Finset.univ (fun v => (s.warps v).weight) (Finset.mem_univ w)]
  omega

/-- The buffer has a slot, and no warp holds one or leads: a waiting warp tries again, or a warp
takes the slot and ends its callback. -/
theorem exists_lighter_of_lt (h : Inv size analysis s) (hfits : Fits size W)
    (htail : s.buffer.tail_index < size) (hlead : ∀ v r l, s.warps v ≠ .lead r l)
    (hwrite : ∀ v r slot k, s.warps v ≠ .write r slot k) (hbusy : ∃ v, s.warps v ≠ .idle) :
    ∃ s', Continues size analysis s s' ∧ ¬Stuck size s' ∧ s'.weight < s.weight := by
  by_cases hwaits : ∃ v r, s.warps v = .wait r
  · obtain ⟨v, r, hv⟩ := hwaits
    have hstep : s.warp size analysis v = some (s.setWarp v (.add r)) := by
      unfold State.warp State.wait
      rw [hv]
      dsimp only
      rw [if_neg (by omega)]
    have hweight : (s.setWarp v (.add r)).weight + (s.warps v).weight =
        s.weight + (Warp.add r).weight := weight_update rfl
    rw [hv] at hweight
    refine ⟨_, Continues.warp hstep, fun hstuck => hstuck.not_add v r (Function.update_self _ _ _),
      ?_⟩
    simp only [Warp.weight] at hweight
    omega
  · obtain ⟨v, hv⟩ := hbusy
    cases hpos : s.warps v with
    | idle => exact absurd hpos hv
    | lead r l => exact absurd hpos (hlead v r l)
    | wait r => exact absurd ⟨v, r, hpos⟩ hwaits
    | write r slot k => exact absurd hpos (hwrite v r slot k)
    | add r =>
      obtain ⟨heq, hlt⟩ := h.tail_eq hfits hpos
      have hstep : s.warp size analysis v = some (s.add size v r) := by
        unfold State.warp
        rw [hpos]
      have hadd : (s.add size v r).warps = Function.update s.warps v (.write r s.tickets 0) := by
        show Function.update s.warps v (afterAdd size s.buffer.tail_index r) = _
        rw [heq, afterAdd_eq hfits.size_lt hlt, if_pos (heq ▸ htail)]
      obtain ⟨s', hcontinues, hwarps, -⟩ := exists_pushed size analysis
        (s := s.add size v r) (w := v) (by rw [hadd, Function.update_self])
      rw [hadd, Function.update_idem] at hwarps
      have hweight := weight_update hwarps
      rw [hpos] at hweight
      refine ⟨s', (Continues.warp hstep).trans hcontinues, fun hstuck => ?_, ?_⟩
      · -- No warp waits, so that none waits now.
        obtain ⟨u, r', hu⟩ := hstuck.waits
        rw [hwarps] at hu
        rcases eq_or_ne u v with rfl | hne
        · rw [Function.update_self] at hu
          cases hu
        · exact hwaits ⟨u, r', (Function.update_of_ne hne _ _).symm.trans hu⟩
      · simp only [Warp.weight] at hweight
        omega

/-- A queue that is not stuck gets closer to the end, and does not get stuck, if the warps take
their steps in the right order. -/
theorem exists_lighter (h : Good size analysis s) (hfits : Fits size W) (hpos : 0 < size)
    (hstuck : ¬Stuck size s) (hbusy : ∃ v, s.warps v ≠ .idle) :
    ∃ s', Continues size analysis s s' ∧ ¬Stuck size s' ∧ s'.weight < s.weight := by
  by_cases hwrite : ∃ v r slot k, s.warps v = .write r slot k
  · -- First the warps with slots end.
    obtain ⟨v, r, slot, k, hv⟩ := hwrite
    obtain ⟨s', hcontinues, hwarps, htail⟩ := exists_pushed size analysis hv
    have hweight := weight_update hwarps
    rw [hv] at hweight
    have hother : ∀ u, u ≠ v → s'.warps u = s.warps u := fun u hu => by
      rw [hwarps, Function.update_of_ne hu]
    refine ⟨s', hcontinues, fun hstuck' => hstuck ⟨htail ▸ hstuck'.full, ?_, ?_, ?_⟩, ?_⟩
    · obtain ⟨u, r', hu⟩ := hstuck'.waits
      have hne : u ≠ v := by
        rintro rfl
        rw [hwarps, Function.update_self] at hu
        cases hu
      exact ⟨u, r', (hother u hne).symm.trans hu⟩
    · intro u r' l hu
      have hne : u ≠ v := by
        rintro rfl
        cases hv.symm.trans hu
      exact hstuck'.not_lead u r' l ((hother u hne).trans hu)
    · intro u r' hu
      have hne : u ≠ v := by
        rintro rfl
        cases hv.symm.trans hu
      exact hstuck'.not_add u r' ((hother u hne).trans hu)
    · simp only [Warp.weight] at hweight
      omega
  have hwrite : ∀ v r slot k, s.warps v ≠ .write r slot k := fun v r slot k hv =>
    hwrite ⟨v, r, slot, k, hv⟩
  by_cases hlead : ∃ v r l, s.warps v = .lead r l
  · -- Then the leader does, up to its next addition.
    obtain ⟨v, r, l, hv⟩ := hlead
    obtain ⟨s', hcontinues, hwarps, -⟩ := exists_reset h.inv hv hwrite
    have hweight := weight_update hwarps
    rw [hv] at hweight
    refine ⟨s', hcontinues, fun hstuck' => ?_, ?_⟩
    · exact hstuck'.not_add v r (by rw [hwarps, Function.update_self])
    · simp only [Warp.weight] at hweight
      omega
  have hlead : ∀ v r l, s.warps v ≠ .lead r l := fun v r l hv => hlead ⟨v, r, l, hv⟩
  rcases Nat.lt_or_ge s.buffer.tail_index size with htail | htail
  · exact exists_lighter_of_lt h.inv hfits htail hlead hwrite hbusy
  · -- The buffer is full: a warp that adds becomes the leader, and there is one.
    have hadd : ∃ v r, s.warps v = .add r := by
      by_contra hnone
      have hnone : ∀ v r, s.warps v ≠ .add r := fun v r hv => hnone ⟨v, r, hv⟩
      obtain ⟨v, hv⟩ := hbusy
      cases hcase : s.warps v with
      | idle => exact hv hcase
      | add r => exact hnone v r hcase
      | lead r l => exact hlead v r l hcase
      | wait r => exact hstuck ⟨htail, ⟨v, r, hcase⟩, hlead, hnone⟩
      | write r slot k => exact hwrite v r slot k hcase
    obtain ⟨v, r, hv⟩ := hadd
    obtain ⟨heq, hlt⟩ := h.inv.tail_eq hfits hv
    have htickets : s.tickets = size := by
      by_contra hne
      obtain ⟨u, r', l, hu⟩ := h.led (by omega)
      exact hlead u r' l hu
    have hstep : s.warp size analysis v = some (s.add size v r) := by
      unfold State.warp
      rw [hv]
    have hleads : (s.add size v r).warps = Function.update s.warps v (.lead r .loadHead) := by
      show Function.update s.warps v (afterAdd size s.buffer.tail_index r) = _
      rw [heq, afterAdd_eq hfits.size_lt hlt, if_neg (by omega), if_pos htickets]
    have hgood := h.continues hfits (Continues.warp hstep)
    obtain ⟨s₂, hcontinues, hwarps, hzero⟩ := exists_reset hgood.inv (w := v) (r := r)
      (l := .loadHead) (by rw [hleads, Function.update_self]) fun u r' slot k hu => by
        rw [hleads] at hu
        rcases eq_or_ne u v with rfl | hne
        · rw [Function.update_self] at hu
          cases hu
        · rw [Function.update_of_ne hne] at hu
          exact hwrite u r' slot k hu
    -- After the reset the warp is where it was, and the buffer is empty.
    have hsame : s₂.warps = s.warps := by
      rw [hwarps, hleads, Function.update_idem, ← hv, Function.update_eq_self]
    have hgood₂ := hgood.continues hfits hcontinues
    obtain ⟨s', hrest, hnot, hweight⟩ := exists_lighter_of_lt hgood₂.inv hfits (hzero ▸ hpos)
      (hsame ▸ hlead) (hsame ▸ hwrite) (hsame ▸ hbusy)
    have hequal : s₂.weight = s.weight := by
      unfold State.weight
      rw [hsame]
    exact ⟨s', ((Continues.warp hstep).trans hcontinues).trans hrest, hnot, hequal ▸ hweight⟩

/-- A queue that is not stuck can end all callbacks. -/
theorem exists_ended (h : Good size analysis s) (hfits : Fits size W) (hpos : 0 < size)
    (hstuck : ¬Stuck size s) :
    ∃ s', Continues size analysis s s' ∧ ∀ w, s'.warps w = .idle := by
  -- By induction on how far the warps are from the end.
  obtain ⟨n, hn⟩ : ∃ n, n = s.weight := ⟨_, rfl⟩
  induction n using Nat.strong_induction_on generalizing s with
  | _ n ih =>
    by_cases hidle : ∀ w, s.warps w = .idle
    · exact ⟨s, Relation.ReflTransGen.refl, hidle⟩
    · obtain ⟨s₁, hcontinues, hnot, hweight⟩ :=
        exists_lighter h hfits hpos hstuck (not_forall.1 hidle)
      obtain ⟨s', hrest, hended⟩ :=
        ih s₁.weight (hn ▸ hweight) (h.continues hfits hcontinues) hnot rfl
      exact ⟨s', hcontinues.trans hrest, hended⟩

/-- At the start there is nobody. -/
theorem good_start (records : ℕ → Record width) : Good size analysis (start W records) :=
  ⟨inv_start records, fun hlt => absurd hlt (Nat.not_lt_zero _)⟩

/-- In every reachable state, all callbacks can end without further ones exactly if the queue is not
stuck. -/
theorem ends_iff {records : ℕ → Record width} {as : List (Action W width)}
    (hfits : size + W < 2^32 ∨ size < 2^32 ∧ W ≤ 1) (hpos : 0 < size)
    (hrun : run (step size analysis) (start W records) as = some s) :
    (∃ s', Continues size analysis s s' ∧ ∀ w, s'.warps w = .idle) ↔ ¬Stuck size s := by
  have hgood : Good size analysis s :=
    run_invariant' (fun _ _ _ h hstep => h.step hfits hstep) (good_start records) hrun
  constructor
  · rintro ⟨s', hcontinues, hidle⟩ hstuck
    exact hstuck.not_ends hcontinues hidle
  · exact exists_ended hgood hfits hpos

/-- The first of two warps. -/
def firstWarp : Fin 2 := ⟨0, Nat.two_pos⟩

/-- The second of two warps. -/
def secondWarp : Fin 2 := ⟨1, Nat.one_lt_two⟩

/-- The second warp finds the buffer full while the first one leads, and the first one fills it
again before the second one looks. -/
def refilled : List (Action 2 1) :=
  .enter firstWarp (fun _ => some 0) :: (List.replicate 3 (.warp firstWarp) ++
    .enter firstWarp (fun _ => some 1) :: .warp firstWarp ::
    .enter secondWarp (fun _ => some 2) :: .warp secondWarp ::
      (List.replicate 2 (.warp firstWarp) ++ (List.replicate 4 .consumer ++
        List.replicate 6 (.warp firstWarp))))

/-- The second warp waits for ever. -/
theorem ends_iff_refilled : ∃ s, run (step 1 true) (start 2 fun _ _ => 0) refilled = some s ∧
    Stuck 1 s ∧ ¬∃ s', Continues 1 true s s' ∧ ∀ w, s'.warps w = .idle := by
  have hmap : (run (step 1 true) (start 2 fun _ _ => 0) refilled).map
      (fun s => (s.buffer.tail_index, (s.warps firstWarp).weight, (s.warps secondWarp).weight)) =
      some (1, 0, 4) := by decide +kernel
  obtain ⟨s, hrun, hend⟩ := Option.map_eq_some_iff.1 hmap
  obtain ⟨htail, hend⟩ := Prod.mk.inj hend
  obtain ⟨hfirst, hsecond⟩ := Prod.mk.inj hend
  have hweights : ∀ w, (s.warps w).weight = 0 ∨ (s.warps w).weight = 4 :=
    Fin.forall_fin_two.2 ⟨.inl hfirst, .inr hsecond⟩
  have hstuck : Stuck 1 s := by
    refine ⟨htail.ge, ⟨secondWarp, ?_⟩, fun w r l hw => ?_, fun w r hw => ?_⟩
    · cases hpos : s.warps secondWarp with
      | wait r => exact ⟨r, rfl⟩
      | idle => simp [hpos, Warp.weight] at hsecond
      | add r => simp [hpos, Warp.weight] at hsecond
      | lead r l => simp [hpos, Warp.weight] at hsecond
      | write r slot k => simp [hpos, Warp.weight] at hsecond
    · have hweight := hweights w
      simp [hw, Warp.weight] at hweight
    · have hweight := hweights w
      simp [hw, Warp.weight] at hweight
  exact ⟨s, hrun, hstuck, fun hends =>
    (ends_iff (.inl (by decide)) (by decide) hrun).1 hends hstuck⟩

end TenProf.GpuQueue
