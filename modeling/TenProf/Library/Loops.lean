import Mathlib.Data.List.Forall2
import Mathlib.Data.Option.Basic
import Mathlib.Tactic.Common

/-!
# Loops of partial functions

A loop whose body may have no result is `List.foldlM` or `List.mapM` in `Option`. What the body
preserves is preserved by the loop (`foldlM_invariant`; `foldlM_invariant_handled` where it speaks
of the elements handled so far). A relation between the states before and after the body that is a
preorder relates the ends of the loop (`foldlM_rel`), and the states around a turn to them
(`rel_of_mem_turns`). A loop whose body always has a result has one (`foldlM_isSome`), and two loops
whose bodies agree have the same (`foldlM_congr_invariant`).
-/

namespace TenProf

section Fold

variable {σ ε : Type*} {step : σ → ε → Option σ} {I : σ → Prop}

/-- What survives every step of a fold over a list holds at its end. -/
theorem foldlM_invariant {es : List ε} (hstep : ∀ s e s', I s → e ∈ es → step s e = some s' → I s')
    {s s' : σ} (h0 : I s) (hrun : es.foldlM step s = some s') : I s' := by
  induction es generalizing s with
  | nil =>
    cases hrun
    exact h0
  | cons e es ih =>
    obtain ⟨s₁, h₁, hrun⟩ := Option.bind_eq_some_iff.1 hrun
    exact ih (fun s e s' hs he => hstep s e s' hs (List.mem_cons_of_mem _ he))
      (hstep s e s₁ h0 List.mem_cons_self h₁) hrun

/-- What ties a state to the elements that were handled before it, and survives every step with its
element, holds at the end of a fold with all elements. -/
theorem foldlM_invariant_handled {I : List ε → σ → Prop} {es : List ε}
    (hstep : ∀ before e s s', I before s → e ∈ es → step s e = some s' → I (before ++ [e]) s')
    {s s' : σ} (h0 : I [] s) (hrun : es.foldlM step s = some s') : I es s' := by
  -- By induction on what is left, with what was handled before as an accumulator.
  suffices h : ∀ later before s, (∀ e ∈ later, e ∈ es) → I before s →
      later.foldlM step s = some s' → I (before ++ later) s' from
    h es [] s (fun _ he => he) h0 hrun
  intro later
  induction later with
  | nil =>
    intro before s _ h hrun
    cases hrun
    rwa [List.append_nil]
  | cons e later ih =>
    intro before s hmem h hrun
    obtain ⟨he, hmem⟩ := List.forall_mem_cons.1 hmem
    obtain ⟨s₁, h₁, hrun⟩ := Option.bind_eq_some_iff.1 hrun
    have hrest := ih (before ++ [e]) s₁ hmem (hstep before e s s₁ h he h₁) hrun
    rwa [List.append_assoc, List.singleton_append] at hrest

/-- The turns of a loop: the states in which its body is run, each with its element. -/
def turns (step : σ → ε → Option σ) : σ → List ε → List (σ × ε)
  | _, [] => []
  | s, e :: es => (s, e) :: match step s e with
    | none => []
    | some s' => turns step s' es

/-- The element of a turn is one of the list. -/
theorem mem_of_mem_turns {es : List ε} {s₀ : σ} {t : σ × ε} (h : t ∈ turns step s₀ es) :
    t.2 ∈ es := by
  induction es generalizing s₀ with
  | nil => cases h
  | cons e es ih =>
    rcases List.mem_cons.1 h with rfl | h
    · exact List.mem_cons_self
    · cases hstep : step s₀ e with
      | none => simp [hstep] at h
      | some s' => exact List.mem_cons_of_mem _ (ih (by simpa [hstep] using h))

/-- What survives every turn holds in the states of all turns. -/
theorem invariant_of_mem_turns {es : List ε} {s₀ : σ}
    (hstep : ∀ s e s', I s → e ∈ es → step s e = some s' → I s') (h0 : I s₀) {t : σ × ε}
    (h : t ∈ turns step s₀ es) : I t.1 := by
  induction es generalizing s₀ with
  | nil => cases h
  | cons e es ih =>
    rcases List.mem_cons.1 h with rfl | h
    · exact h0
    · cases hs : step s₀ e with
      | none => simp [hs] at h
      | some s' =>
        exact ih (fun s e s' hI he => hstep s e s' hI (List.mem_cons_of_mem _ he))
          (hstep s₀ e s' h0 List.mem_cons_self hs) (by simpa [hs] using h)

/-- What the turns yield comes once, if no turn yields what is marked in its state, or anything
twice, and what it yields is marked from then on. -/
theorem nodup_flatMap_turns {α : Type*} {yield : σ × ε → List α} (marked : σ → α → Prop)
    (es : List ε) (s₀ : σ)
    (hturn : ∀ t ∈ turns step s₀ es, (yield t).Nodup ∧ ∀ a ∈ yield t, ¬marked t.1 a)
    (hstep : ∀ s e s', (s, e) ∈ turns step s₀ es → step s e = some s' →
      ∀ a, a ∈ yield (s, e) ∨ marked s a → marked s' a) :
    ((turns step s₀ es).flatMap yield).Nodup ∧
      (∀ a ∈ (turns step s₀ es).flatMap yield, ¬marked s₀ a) ∧
      ∀ s₁, es.foldlM step s₀ = some s₁ →
        ∀ a, a ∈ (turns step s₀ es).flatMap yield ∨ marked s₀ a → marked s₁ a := by
  induction es generalizing s₀ with
  | nil =>
    refine ⟨List.nodup_nil, fun a ha => absurd ha List.not_mem_nil, fun s₁ hrun a ha => ?_⟩
    cases hrun
    exact ha.resolve_left List.not_mem_nil
  | cons e es ih =>
    obtain ⟨hnodup, hfresh⟩ := hturn (s₀, e) List.mem_cons_self
    cases hs : step s₀ e with
    | none =>
      have hturns : turns step s₀ (e :: es) = [(s₀, e)] := by simp [turns, hs]
      rw [hturns, List.flatMap_singleton]
      refine ⟨hnodup, hfresh, fun s₁ hrun => ?_⟩
      simp [hs] at hrun
    | some s' =>
      have hturns : turns step s₀ (e :: es) = (s₀, e) :: turns step s' es := by simp [turns, hs]
      have hfirst := hstep s₀ e s' List.mem_cons_self hs
      rw [hturns] at hturn hstep
      obtain ⟨hlater, hlaterFresh, hend⟩ := ih s'
        (fun t ht => hturn t (List.mem_cons_of_mem _ ht))
        fun s e s' hmem => hstep s e s' (List.mem_cons_of_mem _ hmem)
      rw [hturns, List.flatMap_cons]
      refine ⟨?_, fun a ha hmarked => ?_, fun s₁ hrun a ha => ?_⟩
      · -- What the first turn yields is marked when the later ones begin.
        exact List.nodup_append.2 ⟨hnodup, hlater, fun a ha b hb heq =>
          hlaterFresh b hb (heq ▸ hfirst a (.inl ha))⟩
      · rcases List.mem_append.1 ha with ha | ha
        · exact hfresh a ha hmarked
        · exact hlaterFresh a ha (hfirst a (.inr hmarked))
      · have hrun : es.foldlM step s' = some s₁ := by simpa [hs] using hrun
        rcases ha with ha | hmarked
        · rcases List.mem_append.1 ha with ha | ha
          · exact hend s₁ hrun a (.inr (hfirst a (.inl ha)))
          · exact hend s₁ hrun a (.inl ha)
        · exact hend s₁ hrun a (.inr (hfirst a (.inr hmarked)))

/-- A fold that has a result handles every element in a turn. -/
theorem exists_mem_turns {es : List ε} {s₀ s₁ : σ} (hrun : es.foldlM step s₀ = some s₁) {e : ε}
    (he : e ∈ es) : ∃ s, (s, e) ∈ turns step s₀ es := by
  induction es generalizing s₀ with
  | nil => cases he
  | cons e' es ih =>
    obtain ⟨s', hs', hrun⟩ := Option.bind_eq_some_iff.1 hrun
    rcases List.mem_cons.1 he with rfl | he
    · exact ⟨s₀, List.mem_cons_self⟩
    · obtain ⟨s, hs⟩ := ih hrun he
      exact ⟨s, List.mem_cons_of_mem _ (by simpa [hs'] using hs)⟩

/-- A fold of steps that relate their states relates its ends. -/
theorem foldlM_rel {R : σ → σ → Prop} (hrefl : ∀ s, R s s)
    (htrans : ∀ {s₁ s₂ s₃}, R s₁ s₂ → R s₂ s₃ → R s₁ s₃) {es : List ε}
    (hstep : ∀ s e s', e ∈ es → step s e = some s' → R s s') {s s' : σ}
    (h : es.foldlM step s = some s') : R s s' :=
  foldlM_invariant (I := R s) (fun _ e _ hs he hstep' => htrans hs (hstep _ e _ he hstep'))
    (hrefl s) h

/-- Each turn of a fold of steps that relate their states has a result, and the fold relates its
ends to the states before and after the turn. -/
theorem rel_of_mem_turns {R : σ → σ → Prop} (hrefl : ∀ s, R s s)
    (htrans : ∀ {s₁ s₂ s₃}, R s₁ s₂ → R s₂ s₃ → R s₁ s₃) {es : List ε}
    (hstep : ∀ s e s', e ∈ es → step s e = some s' → R s s') {s₀ s₁ s : σ} {e : ε}
    (hrun : es.foldlM step s₀ = some s₁) (hturn : (s, e) ∈ turns step s₀ es) :
    ∃ s', step s e = some s' ∧ R s₀ s ∧ R s' s₁ := by
  induction es generalizing s₀ with
  | nil => cases hturn
  | cons e' es ih =>
    obtain ⟨s', hs', hrest⟩ := Option.bind_eq_some_iff.1 hrun
    have hlater := fun s e s' he => hstep s e s' (List.mem_cons_of_mem e' he)
    rcases List.mem_cons.1 hturn with hturn | hturn
    · cases hturn
      exact ⟨s', hs', hrefl s, foldlM_rel hrefl htrans hlater hrest⟩
    · obtain ⟨s'', hs'', hbefore, hafter⟩ := ih hlater hrest (by simpa [hs'] using hturn)
      exact ⟨s'', hs'', htrans (hstep s₀ e' s' List.mem_cons_self hs') hbefore, hafter⟩

/-- Folds whose steps agree under an invariant agree. -/
theorem foldlM_congr_invariant {step' : σ → ε → Option σ} {es : List ε}
    (hstep : ∀ s e s', I s → e ∈ es → step s e = some s' → I s')
    (heq : ∀ s e, I s → e ∈ es → step s e = step' s e) {s : σ} (h0 : I s) :
    es.foldlM step s = es.foldlM step' s := by
  induction es generalizing s with
  | nil => rfl
  | cons e es ih =>
    rw [List.foldlM_cons, List.foldlM_cons, ← heq s e h0 List.mem_cons_self]
    refine Option.bind_congr fun s' hs' => ?_
    exact ih (fun s e s' hs he => hstep s e s' hs (List.mem_cons_of_mem _ he))
      (fun s e hs he => heq s e hs (List.mem_cons_of_mem _ he))
      (hstep s e s' h0 List.mem_cons_self hs')

/-- A fold whose steps all have a result under an invariant has a result. -/
theorem foldlM_isSome {es : List ε} (hstep : ∀ s e s', I s → e ∈ es → step s e = some s' → I s')
    (hprog : ∀ s e, I s → e ∈ es → (step s e).isSome) {s : σ} (h0 : I s) :
    (es.foldlM step s).isSome := by
  induction es generalizing s with
  | nil => rfl
  | cons e es ih =>
    -- The first step has a result, which has the invariant.
    obtain ⟨s₁, h₁⟩ := Option.isSome_iff_exists.1 (hprog s e h0 List.mem_cons_self)
    rw [List.foldlM_cons, h₁]
    exact ih (fun s e s' hs he => hstep s e s' hs (List.mem_cons_of_mem _ he))
      (fun s e hs he => hprog s e hs (List.mem_cons_of_mem _ he))
      (hstep s e s₁ h0 List.mem_cons_self h₁)

/-- A loop whose steps look like those of another one in a view of the state looks like it as a
whole. -/
theorem map_foldlM {τ : Type*} {g : σ → τ} {step' : τ → ε → Option τ}
    (hstep : ∀ s e, (step s e).map g = step' (g s) e) (es : List ε) (s : σ) :
    (es.foldlM step s).map g = es.foldlM step' (g s) := by
  induction es generalizing s with
  | nil => rfl
  | cons e es ih =>
    rw [List.foldlM_cons, List.foldlM_cons, ← hstep]
    cases step s e with
    | none => rfl
    | some s₁ => exact ih s₁

end Fold

section Map

variable {α β : Type*} {f : α → Option β}

/-- The results of a loop over a list are those of its body. -/
theorem mapM_eq_some_iff {l : List α} {l' : List β} :
    l.mapM f = some l' ↔ List.Forall₂ (fun a b => f a = some b) l l' := by
  induction l generalizing l' with
  | nil => simp [eq_comm]
  | cons a l ih =>
    simp only [List.mapM_cons, Option.bind_eq_bind, Option.pure_def, Option.bind_eq_some_iff,
      Option.some.injEq, List.forall₂_cons_left_iff, ih]
    constructor
    · rintro ⟨b, hb, l', hl, rfl⟩
      exact ⟨b, l', hb, hl, rfl⟩
    · rintro ⟨b, l', hb, hl, rfl⟩
      exact ⟨b, hb, l', hl, rfl⟩

/-- An element of the results is the result at an element of the list. -/
theorem exists_of_mem_mapM {l : List α} {l' : List β} (h : l.mapM f = some l') {b : β}
    (hb : b ∈ l') : ∃ a ∈ l, f a = some b := by
  have hall := mapM_eq_some_iff.1 h
  induction hall with
  | nil => simp at hb
  | @cons a b' l l' ha hall ih =>
    rcases List.mem_cons.1 hb with rfl | hb
    · exact ⟨a, List.mem_cons_self, ha⟩
    · obtain ⟨a, hmem, ha⟩ := ih (mapM_eq_some_iff.2 hall) hb
      exact ⟨a, List.mem_cons_of_mem _ hmem, ha⟩

/-- A loop has a result when its body always has one. -/
theorem isSome_mapM_iff {l : List α} : (l.mapM f).isSome ↔ ∀ a ∈ l, (f a).isSome := by
  induction l with
  | nil => simp
  | cons a l ih =>
    rw [List.forall_mem_cons, ← ih, List.mapM_cons]
    cases f a with
    | none => simp
    | some b => cases l.mapM f <;> simp

/-- What a function says of the results, when it says of each what another says of its element. -/
theorem map_eq_of_mapM {γ : Type*} {l : List α} {l' : List β} {g : β → γ} {h : α → γ}
    (hl : l.mapM f = some l') (hgh : ∀ a ∈ l, ∀ b, f a = some b → g b = h a) :
    l'.map g = l.map h := by
  have hall := mapM_eq_some_iff.1 hl
  clear hl
  induction hall with
  | nil => rfl
  | @cons a b l l' hab _ ih =>
    obtain ⟨ha, hl⟩ := List.forall_mem_cons.1 hgh
    rw [List.map_cons, List.map_cons, ha b hab, ih hl]

end Map

end TenProf
