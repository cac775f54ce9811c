import Mathlib.Data.List.Forall2
import Mathlib.Data.List.Nodup
import Mathlib.Data.List.Perm.Basic
import Mathlib.Data.List.Perm.Subperm

/-!
# Lists that match element by element

When each element of a list has a partner, there is a list of partners (`exists_forall₂`). What a
list of images is a permutation of, or a concatenation of, is that of a list of elements with these
images (`exists_perm_of_map_perm`, `exists_flatten_of_map`).
-/

namespace TenProf

variable {α β κ : Type*}

/-- A list of partners, one for each element. -/
theorem exists_forall₂ {R : α → β → Prop} {l : List α} (h : ∀ x ∈ l, ∃ y, R x y) :
    ∃ l', List.Forall₂ R l l' := by
  induction l with
  | nil => exact ⟨[], .nil⟩
  | cons x l ih =>
    obtain ⟨⟨y, hy⟩, hrest⟩ := List.forall_mem_cons.1 h
    obtain ⟨l', hl'⟩ := ih hrest
    exact ⟨y :: l', .cons hy hl'⟩

/-- Matching elements are elements of their lists. -/
theorem forall₂_mem {R : α → β → Prop} {l : List α} {l' : List β} (h : List.Forall₂ R l l') :
    List.Forall₂ (fun x y => x ∈ l ∧ y ∈ l' ∧ R x y) l l' := by
  obtain ⟨hlen, hzip⟩ := List.forall₂_iff_zip.1 h
  refine List.forall₂_iff_zip.2 ⟨hlen, fun hmem => ?_⟩
  obtain ⟨hx, hy⟩ := List.of_mem_zip hmem
  exact ⟨hx, hy, hzip hmem⟩

/-- What a list is mapped to, after one more element in front. -/
theorem filterMap_cons_toList (f : α → Option β) (x : α) (l : List α) :
    (x :: l).filterMap f = (f x).toList ++ l.filterMap f := by
  rw [List.filterMap_cons]
  cases f x <;> rfl

/-- An element of a list is matched by one of the other list. -/
theorem exists_of_forall₂ {R : α → β → Prop} {l : List α} {l' : List β} (h : List.Forall₂ R l l')
    {x : α} (hx : x ∈ l) : ∃ y ∈ l', R x y := by
  induction h with
  | nil => cases hx
  | cons hfirst _ ih =>
    rcases List.mem_cons.1 hx with rfl | hx
    · exact ⟨_, List.mem_cons_self, hfirst⟩
    · obtain ⟨y, hy, hR⟩ := ih hx
      exact ⟨y, List.mem_cons_of_mem _ hy, hR⟩

/-- A permutation of the images is the list of images of a permutation. -/
theorem exists_perm_of_map_perm {f : α → β} {l : List α} {m : List β} (h : (l.map f).Perm m) :
    ∃ l' : List α, l'.Perm l ∧ l'.map f = m := by
  have hsame : List.Forall₂ (fun b a => b = f a) (l.map f) l :=
    List.forall₂_map_left_iff.2 (List.forall₂_same.2 fun _ _ => rfl)
  obtain ⟨l', hl', hperm⟩ := List.perm_comp_forall₂ h.symm hsame
  refine ⟨l', hperm, ?_⟩
  have heq : List.Forall₂ Eq m (l'.map f) := List.forall₂_map_right_iff.2 hl'
  rw [List.forall₂_eq_eq_eq] at heq
  exact heq.symm

/-- A concatenation of the images is the list of images of a concatenation. -/
theorem exists_flatten_of_map {f : α → β} {l : List α} {ms : List (List β)} {rest : List β}
    (h : l.map f = ms.flatten ++ rest) :
    ∃ (ls : List (List α)) (last : List α), l = ls.flatten ++ last ∧
      ls.map (List.map f) = ms ∧ last.map f = rest := by
  induction ms generalizing l with
  | nil => exact ⟨[], l, rfl, rfl, h⟩
  | cons m ms ih =>
    rw [List.flatten_cons, List.append_assoc] at h
    obtain ⟨first, others, rfl, hfirst, hothers⟩ := List.map_eq_append_iff.1 h
    obtain ⟨ls, last, rfl, hls, hlast⟩ := ih hothers
    refine ⟨first :: ls, last, ?_, ?_, hlast⟩
    · rw [List.flatten_cons, List.append_assoc]
    · rw [List.map_cons, hfirst, hls]

/-- A list without repetitions whose elements another one has is, up to the order, a part of it. -/
theorem exists_perm_append {l l' : List α} {key : α → κ} (hnodup : (l.map key).Nodup)
    (hmem : ∀ x ∈ l, x ∈ l') : ∃ rest, l'.Perm (l ++ rest) := by
  obtain ⟨l₁, hperm, hsub⟩ := List.subperm_of_subset (List.Nodup.of_map key hnodup) hmem
  obtain ⟨rest, hrest⟩ := hsub.exists_perm_append
  exact ⟨rest, hrest.trans (hperm.append_right rest)⟩

end TenProf
