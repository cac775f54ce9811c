import Mathlib.Data.Finset.Max
import Mathlib.Data.List.Sort
import Mathlib.Data.List.TakeWhile

/-!
# The predecessor of a key in a sorted list

The elements of a list that is sorted by a key whose keys are not above `k` are those that
`takeWhile` takes, and the last of them is the one with the largest key
(`getLast?_takeWhile_of_greatest`); there is one as soon as any key is not above `k`
(`exists_greatest`). Nothing is said about elements that share that key, so the rule
asks for a single one.
-/

namespace TenProf

/-- Among the elements of a list that are not above `k` there is a greatest one, if there is any. -/
theorem exists_greatest {κ : Type*} [LinearOrder κ] {l : List κ} {k : κ} (h : ∃ a ∈ l, a ≤ k) :
    ∃ a ∈ l, a ≤ k ∧ ∀ b ∈ l, b ≤ k → b ≤ a := by
  obtain ⟨a, ha, hle⟩ := h
  obtain ⟨b, hb, hgreatest⟩ := (l.toFinset.filter (· ≤ k)).exists_max_image id
    ⟨a, by simp [ha, hle]⟩
  simp only [Finset.mem_filter, List.mem_toFinset] at hb hgreatest
  exact ⟨b, hb.1, hb.2, fun c hc hle => hgreatest c ⟨hc, hle⟩⟩

variable {α κ : Type*} [LinearOrder κ] {key : α → κ} {l : List α} {a : α} {k : κ}

/-- In a sorted list, an element whose key is not above `k` is taken. -/
theorem mem_takeWhile_of_sorted (hsorted : l.Pairwise fun a b => key a ≤ key b) (ha : a ∈ l)
    (hle : key a ≤ k) : a ∈ l.takeWhile fun b => key b ≤ k := by
  induction l with
  | nil => simp at ha
  | cons b l ih =>
    obtain ⟨hfirst, hsorted⟩ := List.pairwise_cons.1 hsorted
    -- The first element is not above any other, so it is taken.
    have hb : key b ≤ k := by
      rcases List.mem_cons.1 ha with rfl | ha
      · exact hle
      · exact (hfirst a ha).trans hle
    rw [List.takeWhile_cons_of_pos (by simpa using hb)]
    rcases List.mem_cons.1 ha with rfl | ha
    · exact List.mem_cons_self
    · exact List.mem_cons_of_mem _ (ih hsorted ha)

/-- In a sorted list, no element stands behind one with a larger key. -/
theorem key_le_getLast (hsorted : l.Pairwise fun a b => key a ≤ key b) (ha : a ∈ l) {b : α}
    (hlast : l.getLast? = some b) : key a ≤ key b := by
  obtain ⟨before, rfl⟩ := List.getLast?_eq_some_iff.1 hlast
  rcases List.mem_append.1 ha with ha | ha
  · exact (List.pairwise_append.1 hsorted).2.2 a ha b (List.mem_singleton_self b)
  · rw [List.mem_singleton.1 ha]

/-- The last element that is taken is the one with the greatest key not above `k`. -/
theorem getLast?_takeWhile_of_greatest (key : α → κ) (hsorted : l.Pairwise fun a b => key a ≤ key b)
    (ha : a ∈ l) (hle : key a ≤ k) (hgreatest : ∀ b ∈ l, key b ≤ k → key b ≤ key a)
    (hsingle : ∀ b ∈ l, key b = key a → b = a) :
    (l.takeWhile fun b => key b ≤ k).getLast? = some a := by
  have htaken := mem_takeWhile_of_sorted hsorted ha hle
  have hinitial := List.takeWhile_prefix (l := l) fun b => key b ≤ k
  obtain ⟨b, hb⟩ := Option.ne_none_iff_exists'.1 fun hnone : (l.takeWhile fun b =>
    key b ≤ k).getLast? = none => List.ne_nil_of_mem htaken (List.getLast?_eq_none_iff.1 hnone)
  have hmem := List.mem_of_getLast? hb
  have hble : key b ≤ k := by simpa using List.mem_takeWhile_imp hmem
  have hkey : key b = key a := le_antisymm (hgreatest b (hinitial.subset hmem) hble)
    (key_le_getLast (hsorted.sublist hinitial.sublist) htaken hb)
  rw [hb, hsingle b (hinitial.subset hmem) hkey]

/-- The elements that `takeWhile` takes: no element up to them fails. -/
theorem mem_takeWhile_iff_split {p : α → Bool} {x : α} :
    x ∈ l.takeWhile p ↔ ∃ front back, l = front ++ x :: back ∧ ∀ y ∈ front ++ [x], p y = true := by
  induction l with
  | nil => simp
  | cons y l ih =>
    rw [List.takeWhile_cons]
    constructor
    · intro h
      split_ifs at h with hy
      · rcases List.mem_cons.1 h with rfl | h
        · exact ⟨[], l, rfl, by simpa using hy⟩
        · obtain ⟨front, back, rfl, hall⟩ := ih.1 h
          exact ⟨y :: front, back, rfl, List.forall_mem_cons.2 ⟨hy, hall⟩⟩
      · exact absurd h List.not_mem_nil
    · rintro ⟨front, back, heq, hall⟩
      cases front with
      | nil =>
        obtain ⟨rfl, rfl⟩ := List.cons.inj heq
        rw [if_pos (hall _ (by simp))]
        exact List.mem_cons_self
      | cons z front =>
        obtain ⟨rfl, rfl⟩ := List.cons.inj heq
        obtain ⟨hy, hall⟩ := List.forall_mem_cons.1 hall
        rw [if_pos hy]
        exact List.mem_cons_of_mem _ (ih.2 ⟨front, back, rfl, hall⟩)

end TenProf
