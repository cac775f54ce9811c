import TenProf.Library.OrderedMap
import Mathlib.Algebra.BigOperators.Group.List.Basic
import Mathlib.Algebra.GroupWithZero.Nat

/-!
# Maps of counts

A count at a key is raised through `operator[]`, which makes it when it is not there. `update` is
any change of a value through `operator[]`, so that counts in maps of maps are raised by updates in
an update. What is summed over a map changes as the value at the key does (`sumBy_update`).
-/

namespace TenProf.OrderedMap

variable {α β : Type*} [LinearOrder α]

/-- The change of a value through `operator[]`, which starts from a default. -/
def update (m : OrderedMap α β) (k : α) (d : β) (f : β → β) : OrderedMap α β :=
  m.set k (f (m.findD k d))

/-- The value at a key after an update. -/
theorem findD_update (m : OrderedMap α β) (k k' : α) (d : β) (f : β → β) :
    (m.update k d f).findD k' d = if k' = k then f (m.findD k' d) else m.findD k' d := by
  unfold update
  rw [findD_set]
  split_ifs with h
  · rw [h]
  · rfl

/-- The keys after an update. -/
theorem mem_keys_update (m : OrderedMap α β) (k k' : α) (d : β) (f : β → β) :
    (∃ v, (k', v) ∈ (m.update k d f).toList) ↔ k' = k ∨ ∃ v, (k', v) ∈ m.toList := by
  constructor
  · rintro ⟨v, hv⟩
    rcases (mem_set _ _ _ _).1 hv with hnew | ⟨hold, -⟩
    · exact .inl (congrArg Prod.fst hnew)
    · exact .inr ⟨v, hold⟩
  · intro h
    by_cases hk : k' = k
    · exact ⟨_, (mem_set _ _ _ _).2 (.inl (congrArg (·, f (m.findD k d)) hk))⟩
    · obtain ⟨v, hv⟩ := h.resolve_left hk
      exact ⟨v, (mem_set _ _ _ _).2 (.inr ⟨hv, hk⟩)⟩

/-- A map with at most one key has at most one entry. -/
theorem toList_of_one_key (m : OrderedMap α β) {k : α} (h : ∀ e ∈ m.toList, e.1 = k) :
    m.toList = [] ∨ ∃ e, m.toList = [e] := by
  have hnodup := m.nodup_keys
  cases hlist : m.toList with
  | nil => exact .inl rfl
  | cons e es =>
    cases es with
    | nil => exact .inr ⟨e, rfl⟩
    | cons e' es =>
      rw [hlist] at h hnodup
      have hsame : e.1 = e'.1 := (h e (by simp)).trans (h e' (by simp)).symm
      simp [hsame] at hnodup

/-- The entries after an assignment are the new one and those that are left without the key. -/
theorem perm_set_erase (m : OrderedMap α β) (k : α) (v : β) :
    (m.set k v).toList.Perm ((k, v) :: (m.erase k).toList) := by
  have hnew : (k, v) ∉ (m.erase k).toList := fun hmem => ((mem_erase m k _).1 hmem).2 rfl
  rw [List.perm_ext_iff_of_nodup (nodup_toList _) (List.nodup_cons.2 ⟨hnew, nodup_toList _⟩)]
  intro e
  rw [mem_set, List.mem_cons, mem_erase]

/-- The sum over the values. -/
def sumBy (w : β → ℕ) (m : OrderedMap α β) : ℕ := (m.toList.map fun e => w e.2).sum

@[simp] theorem sumBy_empty (w : β → ℕ) : sumBy w (∅ : OrderedMap α β) = 0 := rfl

/-- The sum over the values is the value at a key and the sum over the others. -/
theorem sumBy_eq (w : β → ℕ) (m : OrderedMap α β) (k : α) {d : β} (hd : w d = 0) :
    m.sumBy w = w (m.findD k d) + (m.erase k).sumBy w := by
  unfold sumBy findD
  cases h : m.find? k with
  | none =>
    have hsame : m.toList.filter (fun e => e.1 ≠ k) = m.toList :=
      List.filter_eq_self.2 fun e he => decide_eq_true ((m.find?_eq_none_iff k).1 h e he)
    show _ = w d + ((m.toList.filter fun e => e.1 ≠ k).map fun e => w e.2).sum
    rw [hsame, hd, Nat.zero_add]
  | some v =>
    rw [((perm_erase h).map _).sum_eq, List.map_cons, List.sum_cons]
    rfl

/-- The sum over the values after an update changes as the value does. -/
theorem sumBy_update (w : β → ℕ) (m : OrderedMap α β) (k : α) {d : β} (hd : w d = 0) (f : β → β) :
    (m.update k d f).sumBy w + w (m.findD k d) = m.sumBy w + w (f (m.findD k d)) := by
  have hset : (m.update k d f).sumBy w = w (f (m.findD k d)) + (m.erase k).sumBy w := by
    unfold sumBy update
    rw [((perm_set_erase m k _).map _).sum_eq, List.map_cons, List.sum_cons]
  rw [hset, sumBy_eq w m k hd]
  omega

end TenProf.OrderedMap
