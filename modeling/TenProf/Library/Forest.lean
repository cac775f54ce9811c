import Mathlib.Data.List.Basic
import Mathlib.Data.List.Nodup
import Mathlib.Data.List.Perm.Basic

/-!
# Ordered trees that own their nodes

A `Forest α` is a list of trees with node contents in `α`: its first node, the forest of that
node's children, and the trees that follow. A `Tree α` is a root with the forest of its children.
`find?` is the depth-first search that tests a node before its children and these before the next
sibling, so it is the first hit in the preorder list `nodes` (`Forest.find?_eq`). `insertUnder`
appends a leaf to the children of the node with a given key. When keys are distinct it adds exactly
that one node (`Forest.nodes_insertUnder_perm`).
-/

namespace TenProf

/-- A list of trees: the first tree's root, the children below it, and the trees after it. -/
inductive Forest (α : Type*) where
  | nil
  | cons (node : α) (children : Forest α) (rest : Forest α)
  deriving DecidableEq, Repr

/-- A tree: its root and the forest of the root's children. -/
structure Tree (α : Type*) where
  /-- The root. -/
  root : α
  /-- The trees below the root. -/
  children : Forest α
  deriving DecidableEq, Repr

namespace Forest

variable {α κ : Type*} [DecidableEq κ]

/-- All nodes, each before its children and these before its next sibling. -/
def nodes : Forest α → List α
  | nil => []
  | cons n c r => n :: (c.nodes ++ r.nodes)

/-- Depth-first search: a node is tested before its children, these before the next sibling. -/
def find? (p : α → Bool) : Forest α → Option α
  | nil => none
  | cons n c r =>
    if p n then some n
    else match c.find? p with
      | some m => some m
      | none => r.find? p

/-- One more tree at the end of the list, a leaf. -/
def push (a : α) : Forest α → Forest α
  | nil => cons a nil nil
  | cons n c r => cons n c (r.push a)

/-- A leaf at the end of the children of the node whose key is `k`. -/
def insertUnder (key : α → κ) (k : κ) (a : α) : Forest α → Forest α
  | nil => nil
  | cons n c r =>
    if key n = k then cons n (c.push a) r
    else cons n (c.insertUnder key k a) (r.insertUnder key k a)

/-- Depth-first search finds the first hit in preorder. -/
theorem find?_eq (p : α → Bool) (f : Forest α) : f.find? p = f.nodes.find? p := by
  induction f with
  | nil => rfl
  | cons n c r ihc ihr =>
    simp only [find?, nodes, List.find?_cons, List.find?_append, ihc, ihr]
    cases p n <;> cases c.nodes.find? p <;> rfl

/-- Pushing adds one node, the last in preorder. -/
theorem nodes_push (a : α) (f : Forest α) : (f.push a).nodes = f.nodes ++ [a] := by
  induction f with
  | nil => rfl
  | cons n c r _ ihr => simp [push, nodes, ihr]

/-- The nodes after an insertion: the old ones, and the new one if some node has the key. -/
theorem mem_nodes_insertUnder (key : α → κ) (k : κ) (a b : α) (f : Forest α) :
    b ∈ (f.insertUnder key k a).nodes ↔ b ∈ f.nodes ∨ b = a ∧ k ∈ f.nodes.map key := by
  induction f with
  | nil => simp [insertUnder, nodes]
  | cons n c r ihc ihr =>
    unfold insertUnder
    split_ifs with hk
    · simp only [nodes, nodes_push, List.mem_cons, List.mem_append, List.map_cons, hk, true_or,
        and_true, List.not_mem_nil, or_false]
      rw [or_right_comm, ← or_assoc]
    · -- The key is that of a node below the first or behind it.
      simp only [nodes, List.mem_cons, List.mem_append, List.map_cons, List.map_append, ihc, ihr,
        Ne.symm hk, false_or]
      constructor
      · rintro (rfl | (hb | ⟨rfl, hk⟩) | (hb | ⟨rfl, hk⟩))
        · exact Or.inl (Or.inl rfl)
        · exact Or.inl (Or.inr (Or.inl hb))
        · exact Or.inr ⟨rfl, Or.inl hk⟩
        · exact Or.inl (Or.inr (Or.inr hb))
        · exact Or.inr ⟨rfl, Or.inr hk⟩
      · rintro ((rfl | hb | hb) | ⟨rfl, hk | hk⟩)
        · exact Or.inl rfl
        · exact Or.inr (Or.inl (Or.inl hb))
        · exact Or.inr (Or.inr (Or.inl hb))
        · exact Or.inr (Or.inl (Or.inr ⟨rfl, hk⟩))
        · exact Or.inr (Or.inr (Or.inr ⟨rfl, hk⟩))

/-- Without a node of the key, nothing is inserted. -/
theorem insertUnder_of_notMem (key : α → κ) (k : κ) (a : α) (f : Forest α)
    (h : k ∉ f.nodes.map key) : f.insertUnder key k a = f := by
  induction f with
  | nil => rfl
  | cons n c r ihc ihr =>
    simp only [nodes, List.map_cons, List.map_append, List.mem_cons, List.mem_append,
      not_or] at h
    unfold insertUnder
    rw [if_neg (Ne.symm h.1), ihc h.2.1, ihr h.2.2]

/-- With distinct keys, one of which is `k`, exactly the new node is added. -/
theorem nodes_insertUnder_perm (key : α → κ) (k : κ) (a : α) (f : Forest α)
    (hd : (f.nodes.map key).Nodup) (h : k ∈ f.nodes.map key) :
    (f.insertUnder key k a).nodes.Perm (a :: f.nodes) := by
  induction f with
  | nil => simp [nodes] at h
  | cons n c r ihc ihr =>
    simp only [nodes, List.map_cons, List.map_append, List.nodup_cons, List.nodup_append,
      List.mem_append, not_or] at hd
    obtain ⟨-, hdc, hdr, hdisj⟩ := hd
    by_cases hk : key n = k
    · -- The new leaf follows the children of `n`.
      unfold insertUnder
      rw [if_pos hk]
      simp only [nodes, nodes_push, List.append_assoc, List.singleton_append]
      exact (List.perm_middle.cons n).trans (List.Perm.swap a n _)
    · unfold insertUnder
      rw [if_neg hk]
      simp only [nodes, List.map_cons, List.map_append, List.mem_cons, List.mem_append,
        Ne.symm hk, false_or] at h ⊢
      refine List.Perm.trans ?_ (List.Perm.swap a n _)
      refine List.Perm.cons n ?_
      rcases h with hc | hr
      · -- The key is below `n`, so not behind it.
        have hr : k ∉ r.nodes.map key := fun hr => hdisj k hc k hr rfl
        rw [insertUnder_of_notMem key k a r hr]
        exact (ihc hdc hc).append_right _
      · -- The key is behind `n`, so not below it.
        have hc : k ∉ c.nodes.map key := fun hc => hdisj k hc k hr rfl
        rw [insertUnder_of_notMem key k a c hc]
        exact ((ihr hdr hr).append_left _).trans List.perm_middle

end Forest

namespace Tree

variable {α κ : Type*} [DecidableEq κ]

/-- All nodes of the tree, the root first. -/
def nodes (t : Tree α) : List α := t.root :: t.children.nodes

/-- Depth-first search from the root. -/
def find? (p : α → Bool) (t : Tree α) : Option α :=
  if p t.root then some t.root else t.children.find? p

/-- A leaf at the end of the children of the node whose key is `k`. -/
def insertUnder (key : α → κ) (k : κ) (a : α) (t : Tree α) : Tree α :=
  if key t.root = k then ⟨t.root, t.children.push a⟩
  else ⟨t.root, t.children.insertUnder key k a⟩

/-- Depth-first search finds the first hit in preorder. -/
theorem find?_eq (p : α → Bool) (t : Tree α) : t.find? p = t.nodes.find? p := by
  rw [find?, nodes, List.find?_cons, Forest.find?_eq]
  cases p t.root <;> rfl

theorem root_mem_nodes (t : Tree α) : t.root ∈ t.nodes := List.mem_cons_self

@[simp] theorem insertUnder_root (key : α → κ) (k : κ) (a : α) (t : Tree α) :
    (t.insertUnder key k a).root = t.root := by
  unfold insertUnder
  split_ifs <;> rfl

/-- The nodes after an insertion: the old ones, and the new one if some node has the key. -/
theorem mem_nodes_insertUnder (key : α → κ) (k : κ) (a b : α) (t : Tree α) :
    b ∈ (t.insertUnder key k a).nodes ↔ b ∈ t.nodes ∨ b = a ∧ k ∈ t.nodes.map key := by
  unfold insertUnder
  split_ifs with hk
  · simp only [nodes, Forest.nodes_push, List.mem_cons, List.mem_append, List.map_cons, hk,
      true_or, and_true, List.not_mem_nil, or_false]
    tauto
  · simp only [nodes, List.mem_cons, List.map_cons, Forest.mem_nodes_insertUnder, Ne.symm hk,
      false_or]
    tauto

/-- Without a node of the key, nothing is inserted. -/
theorem insertUnder_of_notMem (key : α → κ) (k : κ) (a : α) (t : Tree α)
    (h : k ∉ t.nodes.map key) : t.insertUnder key k a = t := by
  simp only [nodes, List.map_cons, List.mem_cons, not_or] at h
  unfold insertUnder
  rw [if_neg (Ne.symm h.1), Forest.insertUnder_of_notMem key k a _ h.2]

/-- With distinct keys, one of which is `k`, exactly the new node is added. -/
theorem nodes_insertUnder_perm (key : α → κ) (k : κ) (a : α) (t : Tree α)
    (hd : (t.nodes.map key).Nodup) (h : k ∈ t.nodes.map key) :
    (t.insertUnder key k a).nodes.Perm (a :: t.nodes) := by
  simp only [nodes, List.map_cons, List.nodup_cons, List.mem_cons] at hd h
  by_cases hk : key t.root = k
  · unfold insertUnder
    rw [if_pos hk]
    simp only [nodes, Forest.nodes_push]
    exact ((List.perm_append_singleton a _).cons _).trans (List.Perm.swap a _ _)
  · unfold insertUnder
    rw [if_neg hk]
    have hc : k ∈ t.children.nodes.map key := h.resolve_left (Ne.symm hk)
    exact ((Forest.nodes_insertUnder_perm key k a _ hd.2 hc).cons _).trans (List.Perm.swap a _ _)

/-- The nodes of a list of trees, tree by tree. -/
def nodesOf (ts : List (Tree α)) : List α := ts.flatMap nodes

@[simp] theorem nodesOf_nil : nodesOf ([] : List (Tree α)) = [] := rfl

@[simp] theorem nodesOf_cons (t : Tree α) (ts : List (Tree α)) :
    nodesOf (t :: ts) = t.nodes ++ nodesOf ts := List.flatMap_cons

@[simp] theorem nodesOf_append (ts us : List (Tree α)) :
    nodesOf (ts ++ us) = nodesOf ts ++ nodesOf us := List.flatMap_append

theorem mem_nodesOf {ts : List (Tree α)} {a : α} : a ∈ nodesOf ts ↔ ∃ t ∈ ts, a ∈ t.nodes :=
  List.mem_flatMap

omit [DecidableEq κ] in
/-- With keys distinct over all the trees, a key is in one tree only. -/
theorem eq_of_mem_nodes {key : α → κ} {ts : List (Tree α)} (hd : ((nodesOf ts).map key).Nodup)
    {t u : Tree α} (ht : t ∈ ts) (hu : u ∈ ts) {a b : α} (ha : a ∈ t.nodes) (hb : b ∈ u.nodes)
    (hkey : key a = key b) : t = u := by
  induction ts with
  | nil => simp at ht
  | cons v ts ih =>
    simp only [nodesOf_cons, List.map_append, List.nodup_append] at hd
    obtain ⟨-, hds, hdisj⟩ := hd
    -- The keys of the first tree are not in the others.
    have hout : ∀ w ∈ ts, ∀ c ∈ v.nodes, ∀ d ∈ w.nodes, key c ≠ key d := fun w hw c hc d hd =>
      hdisj _ (List.mem_map_of_mem hc) _ (List.mem_map_of_mem (mem_nodesOf.2 ⟨w, hw, hd⟩))
    rcases List.mem_cons.1 ht with rfl | ht' <;> rcases List.mem_cons.1 hu with rfl | hu'
    · rfl
    · exact absurd hkey (hout u hu' a ha b hb)
    · exact absurd hkey.symm (hout t ht' b hb a ha)
    · exact ih hds ht' hu'

/-- With keys distinct over all the trees, one of which is `k`, insertion into every tree adds
exactly the new node. -/
theorem nodesOf_map_insertUnder_perm (key : α → κ) (k : κ) (a : α) (ts : List (Tree α))
    (hd : ((nodesOf ts).map key).Nodup) (h : k ∈ (nodesOf ts).map key) :
    (nodesOf (ts.map (insertUnder key k a))).Perm (a :: nodesOf ts) := by
  induction ts with
  | nil => simp at h
  | cons t ts ih =>
    simp only [nodesOf_cons, List.map_append, List.nodup_append, List.mem_append] at hd h
    obtain ⟨hdt, hds, hdisj⟩ := hd
    simp only [List.map_cons, nodesOf_cons]
    rcases h with ht | hs
    · -- The key is in the first tree, and the insertion leaves the others as they are.
      have hs : k ∉ (nodesOf ts).map key := fun hs => hdisj k ht k hs rfl
      have hmap : ts.map (insertUnder key k a) = ts := by
        refine (List.map_congr_left fun u hu => ?_).trans (List.map_id ts)
        refine insertUnder_of_notMem key k a u fun hk => hs ?_
        obtain ⟨n, hn, rfl⟩ := List.mem_map.1 hk
        exact List.mem_map.2 ⟨n, mem_nodesOf.2 ⟨u, hu, hn⟩, rfl⟩
      rw [hmap]
      exact (nodes_insertUnder_perm key k a t hdt ht).append_right _
    · -- The key is in a later tree, and the insertion leaves the first as it is.
      have ht : k ∉ t.nodes.map key := fun ht => hdisj k ht k hs rfl
      rw [insertUnder_of_notMem key k a t ht]
      exact ((ih hds hs).append_left _).trans List.perm_middle

end Tree

end TenProf
