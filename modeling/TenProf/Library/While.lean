import Mathlib.Data.Option.Basic
import Mathlib.Tactic.Common

/-!
# Loops with a bound on the turns

A loop whose number of turns is not known in advance is a function `turn : σ → σ ⊕ β` that either
goes on with a new state or leaves the loop with a result. `loop turn fuel s` performs at most
`fuel` turns from `s`; it is `none` while the loop has not ended. The rule `loop_total` gives the
end of a loop from a measure, `loop_invariant` what holds at an end, and `loop_diverges` that there
is none.

A computation with such loops in it takes the bound as an argument. It `Settles` on a result when it
gives this result under every bound that is large enough; computations that settle compose.
-/

namespace TenProf

variable {σ β : Type*}

/-- The result of a loop that ends within `fuel` turns. -/
def loop (turn : σ → σ ⊕ β) : ℕ → σ → Option β
  | 0, _ => none
  | fuel + 1, s =>
    match turn s with
    | .inl s' => loop turn fuel s'
    | .inr b => some b

variable {turn : σ → σ ⊕ β} {I : σ → Prop} {Q : β → Prop}

/-- A turn that goes on leaves the rest to the other turns. -/
theorem loop_of_inl {s s' : σ} (h : turn s = .inl s') (fuel : ℕ) :
    loop turn (fuel + 1) s = loop turn fuel s' := by
  rw [loop, h]

/-- A turn that leaves the loop gives its result. -/
theorem loop_of_inr {s : σ} {b : β} (h : turn s = .inr b) (fuel : ℕ) :
    loop turn (fuel + 1) s = some b := by
  rw [loop, h]

/-- A loop whose turns keep an invariant and make a measure smaller ends, within one turn more than
the measure says, with a result that the last turn gives. -/
theorem loop_total (measure : σ → ℕ)
    (hstep : ∀ s s', I s → turn s = .inl s' → I s' ∧ measure s' < measure s)
    (hdone : ∀ s b, I s → turn s = .inr b → Q b) {fuel : ℕ} {s : σ} (h0 : I s)
    (hfuel : measure s < fuel) : ∃ b, loop turn fuel s = some b ∧ Q b := by
  induction fuel generalizing s with
  | zero => exact absurd hfuel (Nat.not_lt_zero _)
  | succ fuel ih =>
    cases h : turn s with
    | inl s' =>
      obtain ⟨h1, hlt⟩ := hstep s s' h0 h
      rw [loop_of_inl h]
      exact ih h1 (by omega)
    | inr b => exact ⟨b, loop_of_inr h fuel, hdone s b h0 h⟩

/-- What the result of a loop that has ended has, when its turns keep an invariant. -/
theorem loop_invariant (hstep : ∀ s s', I s → turn s = .inl s' → I s')
    (hdone : ∀ s b, I s → turn s = .inr b → Q b) {fuel : ℕ} {s : σ} {b : β} (h0 : I s)
    (h : loop turn fuel s = some b) : Q b := by
  induction fuel generalizing s with
  | zero => exact absurd h (by simp [loop])
  | succ fuel ih =>
    cases hturn : turn s with
    | inl s' =>
      rw [loop_of_inl hturn] at h
      exact ih (hstep s s' h0 hturn) h
    | inr b' =>
      rw [loop_of_inr hturn, Option.some.injEq] at h
      exact h ▸ hdone s b' h0 hturn

/-- A loop that has ended is not changed by a larger bound. -/
theorem loop_mono {fuel fuel' : ℕ} (hle : fuel ≤ fuel') {s : σ} {b : β}
    (h : loop turn fuel s = some b) : loop turn fuel' s = some b := by
  induction fuel generalizing s fuel' with
  | zero => exact absurd h (by simp [loop])
  | succ fuel ih =>
    obtain ⟨n, rfl⟩ : ∃ n, fuel' = n + 1 := ⟨fuel' - 1, by omega⟩
    cases hturn : turn s with
    | inl s' =>
      rw [loop_of_inl hturn] at h ⊢
      exact ih (by omega) h
    | inr b' =>
      rw [loop_of_inr hturn] at h ⊢
      exact h

/-- A loop that never leaves under an invariant does not end. -/
theorem loop_diverges (hstep : ∀ s, I s → ∃ s', turn s = .inl s' ∧ I s') {s : σ} (h0 : I s)
    (fuel : ℕ) : loop turn fuel s = none := by
  induction fuel generalizing s with
  | zero => rfl
  | succ fuel ih =>
    obtain ⟨s', h, h1⟩ := hstep s h0
    rw [loop_of_inl h]
    exact ih h1

/-! ## Computations with loops in them -/

/-- A computation gives a result under every bound on the turns that is large enough. -/
def Settles (f : ℕ → Option β) (b : β) : Prop := ∃ n, ∀ fuel, n ≤ fuel → f fuel = some b

/-- A computation without loops. -/
theorem settles_const {x : Option β} {b : β} (h : x = some b) : Settles (fun _ => x) b :=
  ⟨0, fun _ _ => h⟩

/-- A computation settles on one result only. -/
theorem Settles.unique {f : ℕ → Option β} {b b' : β} (h : Settles f b) (h' : Settles f b') :
    b = b' := by
  obtain ⟨n, hn⟩ := h
  obtain ⟨n', hn'⟩ := h'
  have hb := hn (max n n') (Nat.le_max_left _ _)
  have hb' := hn' (max n n') (Nat.le_max_right _ _)
  rw [hb, Option.some.injEq] at hb'
  exact hb'

/-- One computation after the other. -/
theorem Settles.bind {γ : Type*} {f : ℕ → Option β} {g : ℕ → β → Option γ} {b : β} {c : γ}
    (hf : Settles f b) (hg : Settles (fun fuel => g fuel b) c) :
    Settles (fun fuel => (f fuel).bind (g fuel)) c := by
  obtain ⟨n, hn⟩ := hf
  obtain ⟨n', hn'⟩ := hg
  refine ⟨max n n', fun fuel hfuel => ?_⟩
  show (f fuel).bind (g fuel) = some c
  rw [hn fuel (by omega)]
  exact hn' fuel (by omega)

/-- A function of the result. -/
theorem Settles.map {γ : Type*} {f : ℕ → Option β} {b : β} (hf : Settles f b) (g : β → γ) :
    Settles (fun fuel => (f fuel).map g) (g b) := by
  obtain ⟨n, hn⟩ := hf
  refine ⟨n, fun fuel hfuel => ?_⟩
  show (f fuel).map g = some (g b)
  rw [hn fuel hfuel, Option.map_some]

/-- A loop whose first turn goes on settles as what is left of it. -/
theorem Settles.of_inl {s s' : σ} {b : β} (h : turn s = .inl s')
    (hrest : Settles (fun fuel => loop turn fuel s') b) :
    Settles (fun fuel => loop turn fuel s) b := by
  obtain ⟨n, hn⟩ := hrest
  refine ⟨n + 1, fun fuel hfuel => ?_⟩
  obtain ⟨k, rfl⟩ : ∃ k, fuel = k + 1 := ⟨fuel - 1, by omega⟩
  exact (loop_of_inl h k).trans (hn k (by omega))

/-- A loop whose first turn leaves it settles. -/
theorem settles_of_inr {s : σ} {b : β} (h : turn s = .inr b) :
    Settles (fun fuel => loop turn fuel s) b := by
  refine ⟨1, fun fuel hfuel => ?_⟩
  obtain ⟨k, rfl⟩ : ∃ k, fuel = k + 1 := ⟨fuel - 1, by omega⟩
  exact loop_of_inr h k

/-- A loop under the rule of `loop_total`. -/
theorem exists_settles_loop (measure : σ → ℕ)
    (hstep : ∀ s s', I s → turn s = .inl s' → I s' ∧ measure s' < measure s)
    (hdone : ∀ s b, I s → turn s = .inr b → Q b) {s : σ} (h0 : I s) :
    ∃ b, Settles (fun fuel => loop turn fuel s) b ∧ Q b := by
  obtain ⟨b, hb, hQ⟩ := loop_total measure hstep hdone h0 (Nat.lt_succ_self (measure s))
  exact ⟨b, ⟨measure s + 1, fun fuel hfuel => loop_mono hfuel hb⟩, hQ⟩

/-- Computations on the elements of a list, one after the other, settle when each does. -/
theorem exists_settles_mapM {α : Type*} {f : ℕ → α → Option β} {R : α → β → Prop} {as : List α}
    (h : ∀ a ∈ as, ∃ b, Settles (fun fuel => f fuel a) b ∧ R a b) :
    ∃ bs, Settles (fun fuel => as.mapM (f fuel)) bs ∧ List.Forall₂ R as bs := by
  induction as with
  | nil => exact ⟨[], settles_const rfl, List.Forall₂.nil⟩
  | cons a as ih =>
    obtain ⟨ha, has⟩ := List.forall_mem_cons.1 h
    obtain ⟨b, hb, hR⟩ := ha
    obtain ⟨bs, hbs, hall⟩ := ih has
    have hcons : ∀ fuel, (a :: as).mapM (f fuel) =
        (f fuel a).bind fun b => (as.mapM (f fuel)).map fun bs => b :: bs := by
      intro fuel
      rw [List.mapM_cons]
      cases f fuel a <;> cases as.mapM (f fuel) <;> rfl
    refine ⟨b :: bs, ?_, List.Forall₂.cons hR hall⟩
    simp only [hcons]
    exact hb.bind (hbs.map fun bs => b :: bs)

/-- A computation that goes through a list settles when each of its steps does. -/
theorem exists_settles_foldlM {ε : Type*} {f : ℕ → σ → ε → Option σ} (I : List ε → σ → Prop)
    {es : List ε} (hstep : ∀ before e later s, es = before ++ e :: later → I before s →
      ∃ s', Settles (fun fuel => f fuel s e) s' ∧ I (before ++ [e]) s') {s : σ} (h0 : I [] s) :
    ∃ s', Settles (fun fuel => es.foldlM (f fuel) s) s' ∧ I es s' := by
  suffices hrest : ∀ (later before : List ε) (s : σ), es = before ++ later → I before s →
      ∃ s', Settles (fun fuel => later.foldlM (f fuel) s) s' ∧ I es s' from
    hrest es [] s rfl h0
  intro later
  induction later with
  | nil =>
    intro before s heq hs
    rw [List.append_nil] at heq
    exact ⟨s, settles_const rfl, heq ▸ hs⟩
  | cons e later ih =>
    intro before s heq hs
    obtain ⟨s₁, h₁, hs₁⟩ := hstep before e later s heq hs
    obtain ⟨s', h', hs'⟩ := ih (before ++ [e]) s₁ (by rw [heq, List.append_assoc]; rfl) hs₁
    refine ⟨s', ?_, hs'⟩
    have hcons : ∀ fuel, (e :: later).foldlM (f fuel) s =
        (f fuel s e).bind fun s => later.foldlM (f fuel) s := fun fuel => List.foldlM_cons
    simp only [hcons]
    exact h₁.bind h'

end TenProf
