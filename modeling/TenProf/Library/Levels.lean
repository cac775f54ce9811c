import Mathlib.Order.Basic
import Mathlib.Logic.Relation

/-!
# Levels of a relation

The level of an element is the number of steps of the longest chain of related elements that ends at
it, when there is one. Labels such that related elements have increasing labels, and every element
but those with the label 0 has a predecessor of the label before, are the levels
(`isLevel_of_labels`). Along a path the levels increase (`IsLevel.lt_of_transGen`).
-/

namespace TenProf

variable {ι : Type*} {R : ι → ι → Prop} {x y : ι} {m n : ℕ}

/-- A chain of `n` steps ends at the element. -/
def HasChain (R : ι → ι → Prop) : ℕ → ι → Prop
  | 0, _ => True
  | n + 1, x => ∃ y, R y x ∧ HasChain R n y

/-- The longest chain that ends at the element has `n` steps. -/
def IsLevel (R : ι → ι → Prop) (n : ℕ) (x : ι) : Prop :=
  HasChain R n x ∧ ∀ m, HasChain R m x → m ≤ n

/-- An element has one level. -/
theorem IsLevel.unique (h : IsLevel R m x) (h' : IsLevel R n x) : m = n :=
  Nat.le_antisymm (h'.2 m h.1) (h.2 n h'.1)

/-- Related elements have increasing levels. -/
theorem IsLevel.lt (h : R y x) (hy : IsLevel R m y) (hx : IsLevel R n x) : m < n :=
  hx.2 (m + 1) ⟨y, h, hy.1⟩

/-- A path makes a chain longer. -/
theorem HasChain.of_transGen (h : Relation.TransGen R y x) (hy : HasChain R n y) :
    ∃ m, n < m ∧ HasChain R m x := by
  induction h with
  | single h => exact ⟨n + 1, Nat.lt_succ_self n, _, h, hy⟩
  | tail _ h ih =>
    obtain ⟨m, hlt, hm⟩ := ih
    exact ⟨m + 1, Nat.lt_succ_of_lt hlt, _, h, hm⟩

/-- The levels increase along a path. -/
theorem IsLevel.lt_of_transGen (h : Relation.TransGen R y x) (hy : IsLevel R m y)
    (hx : IsLevel R n x) : m < n := by
  obtain ⟨k, hlt, hk⟩ := hy.1.of_transGen h
  exact Nat.lt_of_lt_of_le hlt (hx.2 k hk)

section Labels

variable {L : ℕ → ι → Prop}
  (hearlier : ∀ x y n, R y x → L n x → ∃ m, m < n ∧ L m y)
  (hbefore : ∀ x n, L (n + 1) x → ∃ y, R y x ∧ L n y)

include hearlier in
/-- No chain that ends at an element has more steps than its label. -/
theorem HasChain.le_label (h : HasChain R m x) (hx : L n x) : m ≤ n := by
  induction m generalizing x n with
  | zero => exact Nat.zero_le n
  | succ m ih =>
    obtain ⟨y, hy, hchain⟩ := h
    obtain ⟨k, hlt, hk⟩ := hearlier x y n hy hx
    exact Nat.lt_of_le_of_lt (ih hchain hk) hlt

include hbefore in
/-- A chain with as many steps as the label ends at an element. -/
theorem hasChain_label (hx : L n x) : HasChain R n x := by
  induction n generalizing x with
  | zero => trivial
  | succ n ih =>
    obtain ⟨y, hy, hlabel⟩ := hbefore x n hx
    exact ⟨y, hy, ih hlabel⟩

include hearlier hbefore in
/-- The labels are the levels. -/
theorem isLevel_of_labels (hx : L n x) : IsLevel R n x :=
  ⟨hasChain_label hbefore hx, fun _ h => h.le_label hearlier hx⟩

end Labels

end TenProf
