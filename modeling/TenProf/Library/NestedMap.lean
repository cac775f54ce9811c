import TenProf.Library.OrderedMap

/-!
# Maps of maps

A map of maps is filled by assignments to the values of pairs of keys, each of which may make the
inner map. When all assignments to a pair have the same value, the order in which they are made does
not matter: a pair has this value when it is assigned to at all (`get?_foldl_put_empty`).
-/

namespace TenProf

/-- A map of maps. -/
abbrev NestedMap (α β γ : Type*) [LinearOrder α] [LinearOrder β] := OrderedMap α (OrderedMap β γ)

namespace NestedMap

variable {α β γ : Type*} [LinearOrder α] [LinearOrder β]

/-- The value of a pair of keys. -/
def get? (m : NestedMap α β γ) (a : α) (b : β) : Option γ := (m.findD a ∅).find? b

/-- The assignment `m[a][b] = c`. -/
def put (m : NestedMap α β γ) (a : α) (b : β) (c : γ) : NestedMap α β γ :=
  m.set a ((m.findD a ∅).set b c)

/-- The assignment of an entry. -/
def putEntry (m : NestedMap α β γ) (e : α × β × γ) : NestedMap α β γ := m.put e.1 e.2.1 e.2.2

variable {m : NestedMap α β γ} {a a' : α} {b b' : β} {c : γ}

@[simp] theorem get?_empty : get? (∅ : NestedMap α β γ) a b = none := rfl

/-- An assignment changes the value of its pair. -/
theorem get?_put :
    (m.put a b c).get? a' b' = if a' = a ∧ b' = b then some c else m.get? a' b' := by
  unfold get? put
  rw [OrderedMap.findD_set]
  by_cases ha : a' = a
  · subst ha
    rw [if_pos rfl, OrderedMap.find?_set]
    simp only [true_and]
  · simp only [ha, false_and, if_false]

/-- Assignments that agree with a function give their pairs the values of the function. -/
theorem get?_foldl_put {l : List (α × β × γ)} {f : α → β → γ} (h : ∀ e ∈ l, e.2.2 = f e.1 e.2.1) :
    (l.foldl putEntry m).get? a b =
      if ∃ e ∈ l, e.1 = a ∧ e.2.1 = b then some (f a b) else m.get? a b := by
  induction l generalizing m with
  | nil => simp
  | cons e l ih =>
    obtain ⟨he, hl⟩ := List.forall_mem_cons.1 h
    rw [List.foldl_cons, ih hl]
    by_cases hrest : ∃ e ∈ l, e.1 = a ∧ e.2.1 = b
    · obtain ⟨e', he', hkeys⟩ := hrest
      rw [if_pos ⟨e', he', hkeys⟩, if_pos ⟨e', List.mem_cons_of_mem e he', hkeys⟩]
    · rw [if_neg hrest]
      unfold putEntry
      rw [get?_put]
      by_cases hkeys : a = e.1 ∧ b = e.2.1
      · obtain ⟨rfl, rfl⟩ := hkeys
        rw [if_pos ⟨rfl, rfl⟩, if_pos ⟨e, List.mem_cons_self, rfl, rfl⟩, he]
      · rw [if_neg hkeys, if_neg]
        rintro ⟨e', he', rfl, rfl⟩
        rcases List.mem_cons.1 he' with rfl | he'
        · exact hkeys ⟨rfl, rfl⟩
        · exact hrest ⟨e', he', rfl, rfl⟩

/-- Assignments that agree with a function are all that an empty map is left with. -/
theorem get?_foldl_put_empty {l : List (α × β × γ)} {f : α → β → γ}
    (h : ∀ e ∈ l, e.2.2 = f e.1 e.2.1) :
    (l.foldl putEntry ∅).get? a b = some c ↔ (∃ e ∈ l, e.1 = a ∧ e.2.1 = b) ∧ c = f a b := by
  rw [get?_foldl_put h]
  split_ifs with hkeys
  · rw [Option.some.injEq, eq_comm]
    exact (and_iff_right hkeys).symm
  · rw [get?_empty]
    exact iff_of_false (by simp) fun hc => hkeys hc.1

end NestedMap

end TenProf
