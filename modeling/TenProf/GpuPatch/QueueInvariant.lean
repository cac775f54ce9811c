import Mathlib.Data.Fintype.Card
import Mathlib.Data.List.Range
import Mathlib.Data.List.Perm.Subperm
import TenProf.GpuPatch.Queue

/-!
# The invariant of the record queue

The invariant has four parts, each about the components that it names. `Tickets` bounds the number
of additions to `tail_index` by the warps that found the buffer full, so that the counter does not
wrap, and says that there is one leader. `Slots` says that the slots below the counter are held by
one warp each or pushed once in the fill epoch, and `Stored` what the records then contain.
`Drained` relates the records that were read to those that were pushed. `Stage` follows the leader:
the buffer fills, the flag is up, the flag is down again, `head_index` is zero again.

A warp enters the first two only by its role (`Warp.lead?`, `Warp.waits`, `Warp.slot?`), so that a
step which changes no role keeps them as they are.
-/

namespace TenProf.GpuQueue

variable {W width : ℕ}

/-- The position of the leader. -/
def Warp.lead? : Warp width → Option Lead
  | .lead _ l => some l
  | _ => none

/-- The warp waits for a smaller `tail_index`. -/
def Warp.waits : Warp width → Bool
  | .wait _ => true
  | _ => false

/-- The slot that the warp holds. -/
def Warp.slot? : Warp width → Option ℕ
  | .write _ slot _ => some slot
  | _ => none

/-- The positions of the leaders. -/
def State.leads (s : State W width) (w : Fin W) : Option Lead := (s.warps w).lead?

/-- The warps that wait for a smaller `tail_index`. -/
def State.waits (s : State W width) (w : Fin W) : Bool := (s.warps w).waits

/-- The slots that the warps hold. -/
def State.held (s : State W width) (w : Fin W) : Option ℕ := (s.warps w).slot?

/-- The positions of the leaders after a step of one warp. -/
theorem leads_setWarp (s : State W width) (w : Fin W) (p : Warp width) :
    (s.setWarp w p).leads = Function.update s.leads w p.lead? :=
  Function.comp_update Warp.lead? s.warps w p

/-- The waiting warps after a step of one warp. -/
theorem waits_setWarp (s : State W width) (w : Fin W) (p : Warp width) :
    (s.setWarp w p).waits = Function.update s.waits w p.waits :=
  Function.comp_update Warp.waits s.warps w p

/-- The slots that are held after a step of one warp. -/
theorem held_setWarp (s : State W width) (w : Fin W) (p : Warp width) :
    (s.setWarp w p).held = Function.update s.held w p.slot? :=
  Function.comp_update Warp.slot? s.warps w p

/-- A step that does not change whether the warp leads. -/
theorem leads_setWarp_of_eq {s : State W width} {w : Fin W} {p : Warp width}
    (h : p.lead? = s.leads w) : (s.setWarp w p).leads = s.leads := by
  rw [leads_setWarp, h, Function.update_eq_self]

/-- A step that does not change whether the warp waits. -/
theorem waits_setWarp_of_eq {s : State W width} {w : Fin W} {p : Warp width}
    (h : p.waits = s.waits w) : (s.setWarp w p).waits = s.waits := by
  rw [waits_setWarp, h, Function.update_eq_self]

/-- A step that does not change which slot the warp holds. -/
theorem held_setWarp_of_eq {s : State W width} {w : Fin W} {p : Warp width}
    (h : p.slot? = s.held w) : (s.setWarp w p).held = s.held := by
  rw [held_setWarp, h, Function.update_eq_self]

/-- The slots pushed in a fill epoch. -/
def current (epoch : ℕ) (pushed : List (Pushed width)) : List ℕ :=
  (pushed.filter fun p => p.epoch = epoch).map Pushed.slot

/-! ## The counter `tail_index` -/

/-- The warps that found the buffer full and have not yet tried again. -/
def blocked (leads : Fin W → Option Lead) (waits : Fin W → Bool) : Finset (Fin W) :=
  Finset.univ.filter fun w => (leads w).isSome ∨ waits w = true

/-- The additions to `tail_index` since its last reset, and the warps that found the buffer
full. -/
structure Tickets (size tickets : ℕ) (leads : Fin W → Option Lead) (waits : Fin W → Bool) :
    Prop where
  le : tickets ≤ size + (blocked leads waits).card
  lt_of_leads : ∀ w l, leads w = some l → size < tickets
  one_lt : ∀ w, waits w = true → 1 < W
  unique : ∀ w v l l', leads w = some l → leads v = some l' → w = v

/-- The warps that are blocked after one of them takes a step, outside of the warp itself. -/
theorem mem_blocked_update {leads : Fin W → Option Lead} {waits : Fin W → Bool} {w v : Fin W}
    (a : Option Lead) (b : Bool) (hne : v ≠ w) :
    v ∈ blocked (Function.update leads w a) (Function.update waits w b) ↔
      v ∈ blocked leads waits := by
  unfold blocked
  rw [Finset.mem_filter, Finset.mem_filter, Function.update_of_ne hne, Function.update_of_ne hne]

/-- A warp that becomes blocked adds one to their number. -/
theorem card_blocked_update {leads : Fin W → Option Lead} {waits : Fin W → Bool} {w : Fin W}
    {a : Option Lead} {b : Bool} (hw : w ∉ blocked leads waits) (h : a.isSome ∨ b = true) :
    (blocked (Function.update leads w a) (Function.update waits w b)).card =
      (blocked leads waits).card + 1 := by
  have heq : blocked (Function.update leads w a) (Function.update waits w b) =
      insert w (blocked leads waits) := by
    ext v
    rcases eq_or_ne v w with rfl | hne
    · have hmem : v ∈ blocked (Function.update leads v a) (Function.update waits v b) := by
        unfold blocked
        simpa using h
      exact iff_of_true hmem (Finset.mem_insert_self _ _)
    · rw [mem_blocked_update a b hne, Finset.mem_insert]
      exact ⟨.inr, fun h' => h'.resolve_left hne⟩
  rw [heq, Finset.card_insert_of_notMem hw]

/-- A warp that stays blocked leaves their number as it is. -/
theorem blocked_update_of_mem {leads : Fin W → Option Lead} {waits : Fin W → Bool} {w : Fin W}
    {a : Option Lead} {b : Bool} (hw : w ∈ blocked leads waits) (h : a.isSome ∨ b = true) :
    blocked (Function.update leads w a) (Function.update waits w b) = blocked leads waits := by
  ext v
  rcases eq_or_ne v w with rfl | hne
  · have hmem : v ∈ blocked (Function.update leads v a) (Function.update waits v b) := by
      unfold blocked
      simpa using h
    exact iff_of_true hmem hw
  · exact mem_blocked_update a b hne

/-- The counter below which the additions to `tail_index` do not wrap. -/
def Fits (size W : ℕ) : Prop := size + W < 2^32 ∨ size < 2^32 ∧ W ≤ 1

/-- The size is a 32-bit number. -/
theorem Fits.size_lt {size : ℕ} (h : Fits size W) : size < 2^32 := by
  rcases h with h | ⟨h, -⟩ <;> omega

section Tickets

variable {size tickets : ℕ} {leads : Fin W → Option Lead} {waits : Fin W → Bool} {w : Fin W}

/-- A warp that is not blocked is another one than those that are. -/
theorem card_blocked_lt (hw : w ∉ blocked leads waits) : (blocked leads waits).card < W := by
  calc (blocked leads waits).card < (Finset.univ : Finset (Fin W)).card :=
        Finset.card_lt_card (Finset.ssubset_univ_iff.2 fun h => hw (h ▸ Finset.mem_univ w))
    _ = W := Finset.card_fin W

/-- When a warp is not blocked, the counter has not wrapped. -/
theorem Tickets.lt_of_notMem (h : Tickets size tickets leads waits) (hfits : Fits size W)
    (hw : w ∉ blocked leads waits) : tickets < 2^32 := by
  have hle := h.le
  have hlt := card_blocked_lt hw
  rcases hfits with hfits | ⟨hsize, hW⟩ <;> omega

/-- When a warp waits for a smaller counter, the counter has not wrapped. -/
theorem Tickets.lt_of_waits (h : Tickets size tickets leads waits) (hfits : Fits size W)
    (hw : waits w = true) : tickets < 2^32 := by
  have hle := h.le
  have hone := h.one_lt w hw
  have hcard : (blocked leads waits).card ≤ W := by
    simpa using Finset.card_le_univ (blocked leads waits)
  rcases hfits with hfits | ⟨-, hW⟩ <;> omega

/-- There is one leader, at one position. -/
theorem Tickets.lead_eq (h : Tickets size tickets leads waits) {v : Fin W} {l l' : Lead}
    (hw : leads w = some l) (hv : leads v = some l') : l = l' := by
  rw [h.unique w v l l' hw hv, hv] at hw
  exact (Option.some.inj hw).symm

/-- An addition that returns a slot. -/
theorem Tickets.take (h : Tickets size tickets leads waits) (hlt : tickets < size) :
    Tickets size (tickets + 1) leads waits where
  le := Nat.le_add_right_of_le hlt
  lt_of_leads v l hv := Nat.lt_succ_of_lt (h.lt_of_leads v l hv)
  one_lt := h.one_lt
  unique := h.unique

/-- The first addition that finds the buffer full. There is no other leader, since a leader has
counted an addition before. -/
theorem Tickets.lead (h : Tickets size tickets leads waits) (heq : tickets = size)
    (hw : w ∉ blocked leads waits) (l : Lead) (b : Bool) (hb : b = waits w) :
    Tickets size (tickets + 1) (Function.update leads w (some l)) (Function.update waits w b) := by
  have hnone : ∀ v l', leads v ≠ some l' := fun v l' hv => by
    have := h.lt_of_leads v l' hv
    omega
  have honly : ∀ v l', Function.update leads w (some l) v = some l' → v = w := fun v l' hv => by
    by_contra hne
    rw [Function.update_of_ne hne] at hv
    exact hnone v l' hv
  refine ⟨?_, ?_, ?_, ?_⟩
  · rw [card_blocked_update hw (.inl rfl)]
    omega
  · intro v l' hv
    omega
  · rw [hb, Function.update_eq_self]
    exact h.one_lt
  · intro v u l₁ l₂ hv hu
    rw [honly v l₁ hv, honly u l₂ hu]

/-- A later addition that finds the buffer full. -/
theorem Tickets.wait (h : Tickets size tickets leads waits) (hlt : size < tickets)
    (hw : w ∉ blocked leads waits) (a : Option Lead) (ha : a = leads w) :
    Tickets size (tickets + 1) (Function.update leads w a) (Function.update waits w true) := by
  -- The additions beyond the size were made by warps that are blocked, so this is not the only
  -- warp.
  have hone : 1 < W := by
    have hle := h.le
    have := card_blocked_lt hw
    omega
  have hleads : Function.update leads w a = leads := by rw [ha, Function.update_eq_self]
  refine ⟨?_, ?_, fun v _ => hone, ?_⟩
  · rw [card_blocked_update hw (.inr rfl)]
    have hle := h.le
    omega
  · intro v l hv
    omega
  · rw [hleads]
    exact h.unique

/-- A step of the leader to another of its positions. -/
theorem Tickets.move (h : Tickets size tickets leads waits) {l : Lead} (hw : leads w = some l)
    (l' : Lead) (b : Bool) (hb : b = waits w) :
    Tickets size tickets (Function.update leads w (some l')) (Function.update waits w b) := by
  have hmem : w ∈ blocked leads waits := by simp [blocked, hw]
  have honly : ∀ v l₁, Function.update leads w (some l') v = some l₁ → v = w := fun v l₁ hv => by
    by_contra hne
    rw [Function.update_of_ne hne] at hv
    exact hne (h.unique v w l₁ l hv hw)
  refine ⟨?_, ?_, ?_, ?_⟩
  · rw [blocked_update_of_mem hmem (.inl rfl)]
    exact h.le
  · intro v _ _
    exact h.lt_of_leads w l hw
  · rw [hb, Function.update_eq_self]
    exact h.one_lt
  · intro v u l₁ l₂ hv hu
    rw [honly v l₁ hv, honly u l₂ hu]

/-- The leader's reset of the counter. -/
theorem Tickets.reset (h : Tickets size tickets leads waits) {l : Lead} (hw : leads w = some l)
    (b : Bool) (hb : b = waits w) :
    Tickets size 0 (Function.update leads w none) (Function.update waits w b) := by
  have hnone : ∀ v l', Function.update leads w none v ≠ some l' := fun v l' hv => by
    rcases eq_or_ne v w with rfl | hne
    · rw [Function.update_self] at hv
      exact absurd hv (by simp)
    · rw [Function.update_of_ne hne] at hv
      exact hne (h.unique v w l' l hv hw)
  refine ⟨Nat.zero_le _, fun v l' hv => absurd hv (hnone v l'), ?_, ?_⟩
  · rw [hb, Function.update_eq_self]
    exact h.one_lt
  · intro v u l₁ l₂ hv
    exact absurd hv (hnone v l₁)

/-- A waiting warp tries again, after the counter was reset. -/
theorem Tickets.retry (h : Tickets size tickets leads waits) (hlt : tickets < size)
    (a : Option Lead) (ha : a = leads w) :
    Tickets size tickets (Function.update leads w a) (Function.update waits w false) := by
  have hleads : Function.update leads w a = leads := by rw [ha, Function.update_eq_self]
  refine ⟨Nat.le_add_right_of_le hlt.le, ?_, ?_, ?_⟩
  · rw [hleads]
    exact h.lt_of_leads
  · intro v hv
    rcases eq_or_ne v w with rfl | hne
    · simp at hv
    · rw [Function.update_of_ne hne] at hv
      exact h.one_lt v hv
  · rw [hleads]
    exact h.unique

end Tickets

/-! ## The slots -/

/-- The slots pushed in a fill epoch. -/
theorem mem_current {epoch n : ℕ} {pushed : List (Pushed width)} :
    n ∈ current epoch pushed ↔ ∃ p ∈ pushed, p.epoch = epoch ∧ p.slot = n := by
  simp [current, and_assoc]

/-- A push of the fill epoch adds its slot. -/
theorem current_append (epoch n : ℕ) (r : Stores width) (pushed : List (Pushed width)) :
    current epoch (pushed ++ [⟨epoch, n, r⟩]) = current epoch pushed ++ [n] := by
  simp [current]

/-- Different numbers below a bound are at most as many as the bound. -/
theorem length_le_of_nodup {n : ℕ} {l : List ℕ} (hl : l.Nodup) (hlt : ∀ i ∈ l, i < n) :
    l.length ≤ n := by
  have hsub : l ⊆ List.range n := fun i hi => List.mem_range.2 (hlt i hi)
  simpa using (hl.subperm hsub).length_le

/-- As many different numbers below a bound as the bound says are all of them. -/
theorem mem_of_nodup {n : ℕ} {l : List ℕ} (hl : l.Nodup) (hlt : ∀ i ∈ l, i < n)
    (hn : l.length = n) {i : ℕ} (hi : i < n) : i ∈ l := by
  have hsub : l ⊆ List.range n := fun i hi => List.mem_range.2 (hlt i hi)
  have hperm := (hl.subperm hsub).perm_of_length_le (by simp [hn])
  exact hperm.mem_iff.2 (List.mem_range.2 hi)

/-- The slots below the size and the counter are held by one warp each or pushed once. -/
structure Slots (size epoch tickets : ℕ) (held : Fin W → Option ℕ)
    (pushed : List (Pushed width)) : Prop where
  held_lt : ∀ w n, held w = some n → n < size ∧ n < tickets
  held_inj : ∀ w v n, held w = some n → held v = some n → w = v
  held_fresh : ∀ w n, held w = some n → n ∉ current epoch pushed
  pushed_lt : ∀ p ∈ pushed, p.slot < size
  epoch_le : ∀ p ∈ pushed, p.epoch ≤ epoch
  current_lt : ∀ n ∈ current epoch pushed, n < tickets
  nodup : (pushed.map fun p => (p.epoch, p.slot)).Nodup
  taken : ∀ n, n < size → n < tickets → (∃ w, held w = some n) ∨ n ∈ current epoch pushed

section Slots

variable {size epoch tickets : ℕ} {held : Fin W → Option ℕ} {pushed : List (Pushed width)}
  {w : Fin W}

/-- The slots pushed in one epoch are different. -/
theorem Slots.nodup_current (h : Slots size epoch tickets held pushed) :
    (current epoch pushed).Nodup := by
  have hpair : pushed.Pairwise fun p q => (p.epoch, p.slot) ≠ (q.epoch, q.slot) :=
    List.pairwise_map.1 h.nodup
  unfold current
  rw [List.Nodup, List.pairwise_map]
  refine (hpair.filter _).imp_of_mem fun {p q} hp hq hne heq => hne ?_
  have hp' : p.epoch = epoch := by simpa using (List.mem_filter.1 hp).2
  have hq' : q.epoch = epoch := by simpa using (List.mem_filter.1 hq).2
  rw [hp', hq', heq]

/-- The slots pushed in one epoch are below the size. -/
theorem Slots.lt_of_mem_current (h : Slots size epoch tickets held pushed) {n : ℕ}
    (hn : n ∈ current epoch pushed) : n < size := by
  obtain ⟨p, hp, -, rfl⟩ := mem_current.1 hn
  exact h.pushed_lt p hp

/-- At most `size` slots are pushed in one epoch. -/
theorem Slots.length_le (h : Slots size epoch tickets held pushed) :
    (current epoch pushed).length ≤ size :=
  length_le_of_nodup h.nodup_current fun _ => h.lt_of_mem_current

/-- When `size` slots are pushed in the epoch, these are all slots. -/
theorem Slots.mem_of_full (h : Slots size epoch tickets held pushed)
    (hfull : (current epoch pushed).length = size) {n : ℕ} (hn : n < size) :
    n ∈ current epoch pushed :=
  mem_of_nodup h.nodup_current (fun _ => h.lt_of_mem_current) hfull hn

/-- When `size` slots are pushed in the epoch, no warp holds one. -/
theorem Slots.held_of_full (h : Slots size epoch tickets held pushed)
    (hfull : (current epoch pushed).length = size) (w : Fin W) : held w = none := by
  cases hw : held w with
  | none => rfl
  | some n => exact absurd (h.mem_of_full hfull (h.held_lt w n hw).1) (h.held_fresh w n hw)

/-- While a warp holds a slot, less than `size` slots are pushed in the epoch. -/
theorem Slots.length_lt (h : Slots size epoch tickets held pushed) {n : ℕ}
    (hw : held w = some n) : (current epoch pushed).length < size := by
  apply lt_of_le_of_ne h.length_le
  intro hfull
  rw [h.held_of_full hfull w] at hw
  exact absurd hw (by simp)

/-- A warp takes the next slot. -/
theorem Slots.take (h : Slots size epoch tickets held pushed) (hlt : tickets < size)
    (hw : held w = none) :
    Slots size epoch (tickets + 1) (Function.update held w (some tickets)) pushed := by
  have hcases : ∀ v n, Function.update held w (some tickets) v = some n →
      v = w ∧ n = tickets ∨ v ≠ w ∧ held v = some n := fun v n hv => by
    rcases eq_or_ne v w with rfl | hne
    · rw [Function.update_self] at hv
      exact .inl ⟨rfl, (Option.some.inj hv).symm⟩
    · rw [Function.update_of_ne hne] at hv
      exact .inr ⟨hne, hv⟩
  refine ⟨?_, ?_, ?_, h.pushed_lt, h.epoch_le, ?_, h.nodup, ?_⟩
  · intro v n hv
    rcases hcases v n hv with ⟨-, rfl⟩ | ⟨-, hv⟩
    · exact ⟨hlt, Nat.lt_succ_self n⟩
    · exact ⟨(h.held_lt v n hv).1, Nat.lt_succ_of_lt (h.held_lt v n hv).2⟩
  · intro v u n hv hu
    rcases hcases v n hv with ⟨rfl, rfl⟩ | ⟨-, hv'⟩
    · rcases hcases u n hu with ⟨rfl, -⟩ | ⟨-, hu'⟩
      · rfl
      · exact absurd (h.held_lt u n hu').2 (lt_irrefl n)
    · rcases hcases u n hu with ⟨rfl, rfl⟩ | ⟨-, hu'⟩
      · exact absurd (h.held_lt v n hv').2 (lt_irrefl n)
      · exact h.held_inj v u n hv' hu'
  · intro v n hv hn
    rcases hcases v n hv with ⟨-, rfl⟩ | ⟨-, hv⟩
    · exact absurd (h.current_lt n hn) (lt_irrefl n)
    · exact h.held_fresh v n hv hn
  · intro n hn
    exact Nat.lt_succ_of_lt (h.current_lt n hn)
  · intro n hn hn'
    rcases eq_or_ne n tickets with rfl | hne
    · exact .inl ⟨w, Function.update_self w _ held⟩
    · rcases h.taken n hn (by omega) with ⟨v, hv⟩ | hmem
      · have hvw : v ≠ w := by
          rintro rfl
          rw [hw] at hv
          exact absurd hv (by simp)
        exact .inl ⟨v, by rw [Function.update_of_ne hvw, hv]⟩
      · exact .inr hmem

/-- An addition that finds the buffer full. -/
theorem Slots.overshoot (h : Slots size epoch tickets held pushed) (hle : size ≤ tickets) :
    Slots size epoch (tickets + 1) held pushed where
  held_lt v n hv := ⟨(h.held_lt v n hv).1, Nat.lt_succ_of_lt (h.held_lt v n hv).2⟩
  held_inj := h.held_inj
  held_fresh := h.held_fresh
  pushed_lt := h.pushed_lt
  epoch_le := h.epoch_le
  current_lt n hn := Nat.lt_succ_of_lt (h.current_lt n hn)
  nodup := h.nodup
  taken n hn _ := h.taken n hn (by omega)

/-- A warp pushes the record in its slot. -/
theorem Slots.push (h : Slots size epoch tickets held pushed) {n : ℕ} (hw : held w = some n)
    (r : Stores width) :
    Slots size epoch tickets (Function.update held w none) (pushed ++ [⟨epoch, n, r⟩]) := by
  have hother : ∀ v m, Function.update held w none v = some m → v ≠ w ∧ held v = some m :=
    fun v m hv => by
      rcases eq_or_ne v w with rfl | hne
      · rw [Function.update_self] at hv
        exact absurd hv (by simp)
      · rw [Function.update_of_ne hne] at hv
        exact ⟨hne, hv⟩
  have hfresh := h.held_fresh w n hw
  refine ⟨?_, ?_, ?_, ?_, ?_, ?_, ?_, ?_⟩
  · intro v m hv
    exact h.held_lt v m (hother v m hv).2
  · intro v u m hv hu
    exact h.held_inj v u m (hother v m hv).2 (hother u m hu).2
  · intro v m hv
    obtain ⟨hne, hv⟩ := hother v m hv
    rw [current_append, List.mem_append, List.mem_singleton]
    rintro (hmem | rfl)
    · exact h.held_fresh v m hv hmem
    · exact hne (h.held_inj v w m hv hw)
  · intro p hp
    rcases List.mem_append.1 hp with hp | hp
    · exact h.pushed_lt p hp
    · rw [List.mem_singleton.1 hp]
      exact (h.held_lt w n hw).1
  · intro p hp
    rcases List.mem_append.1 hp with hp | hp
    · exact h.epoch_le p hp
    · rw [List.mem_singleton.1 hp]
  · intro m hm
    rw [current_append, List.mem_append, List.mem_singleton] at hm
    rcases hm with hm | rfl
    · exact h.current_lt m hm
    · exact (h.held_lt w m hw).2
  · rw [List.map_append, List.nodup_append]
    refine ⟨h.nodup, by simp, ?_⟩
    intro a ha b hb heq
    rw [List.map_singleton, List.mem_singleton] at hb
    obtain ⟨p, hp, hpa⟩ := List.mem_map.1 ha
    have hpair : (p.epoch, p.slot) = (epoch, n) := by rw [hpa, heq, hb]
    exact hfresh (mem_current.2 ⟨p, hp, (Prod.mk.inj hpair).1, (Prod.mk.inj hpair).2⟩)
  · intro m hm hm'
    rw [current_append, List.mem_append, List.mem_singleton]
    rcases h.taken m hm hm' with ⟨v, hv⟩ | hmem
    · rcases eq_or_ne v w with rfl | hne
      · exact .inr (.inr (Option.some.inj (hv.symm.trans hw)))
      · exact .inl ⟨v, by rw [Function.update_of_ne hne, hv]⟩
    · exact .inr (.inl hmem)

/-- The counter is reset when all slots of the epoch are pushed. The next epoch has no slots
yet. -/
theorem Slots.reset (h : Slots size epoch tickets held pushed)
    (hfull : (current epoch pushed).length = size) :
    Slots size (epoch + 1) 0 held pushed := by
  have hnone := h.held_of_full hfull
  have hempty : ∀ n, n ∉ current (epoch + 1) pushed := fun n hn => by
    obtain ⟨p, hp, hpe, -⟩ := mem_current.1 hn
    have := h.epoch_le p hp
    omega
  refine ⟨?_, ?_, ?_, h.pushed_lt, ?_, ?_, h.nodup, ?_⟩
  · intro v n hv
    rw [hnone v] at hv
    exact absurd hv (by simp)
  · intro v u n hv
    rw [hnone v] at hv
    exact absurd hv (by simp)
  · intro v n _
    exact hempty n
  · intro p hp
    exact Nat.le_succ_of_le (h.epoch_le p hp)
  · intro n hn
    exact absurd hn (hempty n)
  · intro n _ hn
    exact absurd hn (Nat.not_lt_zero n)

end Slots

/-! ## The records in memory -/

/-- What the records contain: the words that were stored into a slot that is held, and the whole
record in a slot pushed in this epoch. -/
structure Stored (epoch : ℕ) (warps : Fin W → Warp width) (pushed : List (Pushed width))
    (records : ℕ → Record width) : Prop where
  written : ∀ w r n k, warps w = .write r n k → ∀ i : Fin width, i < k →
    ∀ v, r i = some v → records n i = v
  pushed : ∀ p ∈ pushed, p.epoch = epoch → Holds p.stores (records p.slot)

/-- The word after its store. -/
theorem storeWord_self {record : Record width} {r : Stores width} {i : Fin width} {v : ℕ}
    (h : r i = some v) : storeWord record r i i = v := by
  unfold storeWord
  rw [h]
  exact Function.update_self i v record

/-- The store of a word leaves the other words as they are. -/
theorem storeWord_of_ne {record : Record width} {r : Stores width} {i j : Fin width}
    (h : j ≠ i) : storeWord record r i j = record j := by
  unfold storeWord
  cases r i with
  | none => rfl
  | some v => exact Function.update_of_ne h v record

section Stored

variable {epoch n k : ℕ} {warps : Fin W → Warp width} {pushed : List (Pushed width)}
  {records : ℕ → Record width} {w : Fin W} {r : Stores width}

/-- A warp is at a position where it has not stored anything. -/
theorem Stored.setWarp (h : Stored epoch warps pushed records) {p : Warp width}
    (hp : ∀ r n k, p = .write r n k → k = 0) :
    Stored epoch (Function.update warps w p) pushed records := by
  refine ⟨?_, h.pushed⟩
  intro v r n k hv i hi x hx
  rcases eq_or_ne v w with rfl | hne
  · rw [Function.update_self] at hv
    rw [hp r n k hv] at hi
    exact absurd hi (Nat.not_lt_zero _)
  · rw [Function.update_of_ne hne] at hv
    exact h.written v r n k hv i hi x hx

/-- A warp stores a word into its slot, which no other warp holds and which is not pushed. -/
theorem Stored.store (h : Stored epoch warps pushed records) (hw : warps w = .write r n k)
    (hk : k < width) (hother : ∀ v, v ≠ w → (warps v).slot? ≠ some n)
    (hfresh : n ∉ current epoch pushed) :
    Stored epoch (Function.update warps w (.write r n (k + 1))) pushed
      (Function.update records n (storeWord (records n) r ⟨k, hk⟩)) := by
  refine ⟨?_, ?_⟩
  · intro v r' m k' hv i hi x hx
    rcases eq_or_ne v w with rfl | hne
    · rw [Function.update_self] at hv
      obtain ⟨rfl, rfl, rfl⟩ := Warp.write.inj hv
      rw [Function.update_self]
      rcases eq_or_ne i ⟨k, hk⟩ with rfl | hi'
      · exact storeWord_self hx
      · rw [storeWord_of_ne hi']
        have hlt : i.val < k := lt_of_le_of_ne (Nat.lt_succ_iff.1 hi) fun heq => hi' (Fin.ext heq)
        exact h.written v r n k hw i hlt x hx
    · rw [Function.update_of_ne hne] at hv
      have hm : m ≠ n := by
        rintro rfl
        exact hother v hne (by rw [hv]; rfl)
      rw [Function.update_of_ne hm]
      exact h.written v r' m k' hv i hi x hx
  · intro p hp hpe
    have hm : p.slot ≠ n := fun heq => hfresh (mem_current.2 ⟨p, hp, hpe, heq⟩)
    rw [Function.update_of_ne hm]
    exact h.pushed p hp hpe

/-- A warp pushes its record when it has stored all words. -/
theorem Stored.push (h : Stored epoch warps pushed records) (hw : warps w = .write r n k)
    (hk : width ≤ k) :
    Stored epoch (Function.update warps w .idle) (pushed ++ [⟨epoch, n, r⟩]) records := by
  have hidle : Stored epoch (Function.update warps w .idle) pushed records := by
    apply h.setWarp
    intro r n k heq
    exact absurd heq (by simp)
  refine ⟨hidle.written, ?_⟩
  intro p hp hpe
  rcases List.mem_append.1 hp with hp | hp
  · exact h.pushed p hp hpe
  · rw [List.mem_singleton.1 hp]
    intro i v hv
    exact h.written w r n k hw i (lt_of_lt_of_le i.isLt hk) v hv

/-- The next epoch starts with nothing pushed. -/
theorem Stored.reset (h : Stored epoch warps pushed records)
    (hle : ∀ p ∈ pushed, p.epoch ≤ epoch) : Stored (epoch + 1) warps pushed records where
  written := h.written
  pushed p hp hpe := by
    have := hle p hp
    omega

end Stored

/-! ## What the consumer has read -/

/-- The records that the consumer read. The drain with the number of an epoch has the records
pushed in this epoch, at their slots, and no others. -/
structure Drained (size : ℕ) (pushed : List (Pushed width)) (drains : List (List (Record width))) :
    Prop where
  length : ∀ d ∈ drains, d.length = size
  kept : ∀ p ∈ pushed, ∀ d, drains[p.epoch]? = some d →
    ∃ record, d[p.slot]? = some record ∧ Holds p.stores record
  sound : ∀ e d, drains[e]? = some d → ∀ n < size, n ∈ current e pushed

section Drained

variable {size epoch n : ℕ} {pushed : List (Pushed width)} {drains : List (List (Record width))}
  {records : ℕ → Record width}

/-- A push in an epoch that is not yet read. -/
theorem Drained.push (h : Drained size pushed drains) (hlen : drains.length ≤ epoch)
    (r : Stores width) : Drained size (pushed ++ [⟨epoch, n, r⟩]) drains := by
  refine ⟨h.length, ?_, ?_⟩
  · intro p hp d hd
    rcases List.mem_append.1 hp with hp | hp
    · exact h.kept p hp d hd
    · rw [List.mem_singleton.1 hp, List.getElem?_eq_none hlen] at hd
      exact absurd hd (by simp)
  · intro e d hd m hm
    obtain ⟨p, hp, heq⟩ := mem_current.1 (h.sound e d hd m hm)
    exact mem_current.2 ⟨p, List.mem_append_left _ hp, heq⟩

/-- The consumer has read all records of the epoch. -/
theorem Drained.drain (h : Drained size pushed drains) (hlen : drains.length = epoch)
    (hlt : ∀ p ∈ pushed, p.slot < size) (hle : ∀ p ∈ pushed, p.epoch ≤ epoch)
    (hfull : ∀ n < size, n ∈ current epoch pushed)
    (hstored : ∀ p ∈ pushed, p.epoch = epoch → Holds p.stores (records p.slot)) :
    Drained size pushed (drains ++ [(List.range size).map records]) := by
  have hlast : (drains ++ [(List.range size).map records])[epoch]? =
      some ((List.range size).map records) := by
    rw [← hlen]
    exact List.getElem?_concat_length
  have hprev : ∀ e, e < epoch → (drains ++ [(List.range size).map records])[e]? = drains[e]? :=
    fun e he => List.getElem?_append_left (hlen ▸ he)
  refine ⟨?_, ?_, ?_⟩
  · intro d hd
    rcases List.mem_append.1 hd with hd | hd
    · exact h.length d hd
    · rw [List.mem_singleton.1 hd, List.length_map, List.length_range]
  · intro p hp d hd
    rcases (hle p hp).lt_or_eq with hlt' | heq
    · rw [hprev _ hlt'] at hd
      exact h.kept p hp d hd
    · rw [heq, hlast] at hd
      rw [← Option.some.inj hd]
      refine ⟨records p.slot, ?_, hstored p hp heq⟩
      rw [List.getElem?_map, List.getElem?_range (hlt p hp)]
      rfl
  · intro e d hd m hm
    rcases lt_trichotomy e epoch with he | rfl | he
    · rw [hprev e he] at hd
      exact h.sound e d hd m hm
    · exact hfull m hm
    · rw [List.getElem?_eq_none (by simp; omega)] at hd
      exact absurd hd (by simp)

end Drained

end TenProf.GpuQueue
