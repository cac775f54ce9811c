import TenProf.MemoryLiveness.Builders

/-!
# Accesses of one operation

The operations that an object or a stream remembers are those that later operations follow. As long
as an operation accesses each of its objects once, the edges that it makes lead from earlier
operations to it (`Accesses.before`); what is remembered stays a node of the graph in any case
(`Accesses.linked`).
-/

namespace TenProf.MemoryLiveness

namespace Dependencies

/-- An operation is one that the next operation on an object may have to follow. -/
def Last (d : Dependencies) (obj i : ℕ) : Prop :=
  d.obj_ownership_map.find? obj = some i ∨
    ∃ readers, d.read_nodes.find? obj = some readers ∧ i ∈ readers

variable {d d' : Dependencies} {op stream_id obj : ℕ} {access_type : AccessType}
  {link : ℕ → Prop} {owner : ℕ} {readers : List ℕ}

/-- An access follows the owner of the object or its readers. -/
theorem mem_followed {i : ℕ} (h : i ∈ followed access_type owner readers) :
    i = owner ∨ i ∈ readers := by
  unfold followed at h
  split at h
  · exact .inl (List.mem_singleton.1 h)
  · split_ifs at h
    · exact .inl (List.mem_singleton.1 h)
    · exact .inr h

namespace Accessed

variable (h : Accessed d op stream_id obj access_type link owner readers d')

include h

/-- An access follows operations that it may have to follow. -/
theorem last_of_followed {i : ℕ} (hi : i ∈ followed access_type owner readers) :
    d.Last obj i := by
  rcases mem_followed hi with rfl | hi
  · exact .inl h.owner_eq
  · exact .inr ⟨readers, h.readers_eq, hi⟩

/-- After an access, its operation is one that may have to be followed at the object, and no others
have come to it. -/
theorem last_imp {obj' i : ℕ} (hlast : d'.Last obj' i) : obj' = obj ∧ i = op ∨ d.Last obj' i := by
  by_cases hobj : obj' = obj
  · subst hobj
    rcases hlast with hlast | ⟨rs, hrs, hi⟩
    · rw [h.owner, if_pos rfl, Option.some.injEq] at hlast
      cases access_type with
      | READ => exact .inr (.inl (by rw [h.owner_eq]; exact congrArg some hlast))
      | WRITE => exact .inl ⟨rfl, hlast.symm⟩
    · rw [h.readers, if_pos rfl, Option.some.injEq] at hrs
      subst hrs
      cases access_type with
      | READ =>
        rcases List.mem_append.1 hi with hi | hi
        · exact .inr (.inr ⟨readers, h.readers_eq, hi⟩)
        · exact .inl ⟨rfl, List.mem_singleton.1 hi⟩
      | WRITE => exact absurd hi List.not_mem_nil
  · -- The other objects have their operations as before.
    unfold Last at hlast
    rw [h.owner, h.readers, if_neg hobj, if_neg hobj] at hlast
    exact .inr hlast

end Accessed

/-- The operations that are remembered are nodes of the graph, whose ids are at most `c`. -/
structure Linked (d : Dependencies) (c : ℕ) : Prop where
  wellFormed : d.graph.WellFormed
  node_le : ∀ i, d.graph.hasNode i → i ≤ c
  last_node : ∀ obj i, d.Last obj i → d.graph.hasNode i
  stream_node : ∀ st i, d.stream_ownership_map.find? st = some i → d.graph.hasNode i

/-- The edges lead from earlier operations to later ones, and the operations that are remembered for
the objects not in `T` are earlier than `c`. -/
structure Before (d : Dependencies) (c : ℕ) (T : List ℕ) : Prop where
  edge_lt : ∀ e, d.graph.hasEdge e → e.source < e.target
  last_lt : ∀ obj i, obj ∉ T → d.Last obj i → i < c

/-- An access keeps the remembered operations nodes of the graph. -/
theorem Linked.accessed (hd : d.Linked op)
    (h : Accessed d op stream_id obj access_type link owner readers d') : d'.Linked op := by
  have hop : d'.graph.hasNode op := (h.grows.hasNode_iff op).2 (.inl rfl)
  constructor
  · apply h.grows.wellFormed hd.wellFormed
    rintro type i (⟨-, -, hi⟩ | ⟨-, hi⟩)
    · exact .inr (hd.stream_node _ i hi)
    · exact .inr (hd.last_node _ i (h.last_of_followed hi))
  · intro i hi
    rcases (h.grows.hasNode_iff i).1 hi with rfl | hi
    · exact le_rfl
    · exact hd.node_le i hi
  · intro obj' i hi
    rcases h.last_imp hi with ⟨-, rfl⟩ | hi
    · exact hop
    · exact h.grows.hasNode (hd.last_node _ i hi)
  · intro st i hi
    rw [h.stream] at hi
    split_ifs at hi with hst
    · rw [← Option.some.inj hi]
      exact hop
    · exact h.grows.hasNode (hd.stream_node st i hi)

/-- The first access to an object leads from earlier operations to the present one. -/
theorem Before.accessed {T : List ℕ} (hlinked : d.Linked op) (hd : d.Before op T) (hobj : obj ∉ T)
    (h : Accessed d op stream_id obj access_type link owner readers d')
    (hlink : ∀ i, link i → d.stream_ownership_map.find? stream_id = some i → i ≠ op) :
    d'.Before op (obj :: T) := by
  constructor
  · intro e he
    rcases (h.grows.hasEdge_iff e).1 he with he | ⟨htarget, ⟨-, hne, hi⟩ | ⟨-, hi⟩⟩
    · exact hd.edge_lt e he
    · have hle := hlinked.node_le _ (hlinked.stream_node _ _ hi)
      rw [htarget]
      exact lt_of_le_of_ne hle (hlink _ hne hi)
    · rw [htarget]
      exact hd.last_lt obj _ hobj (h.last_of_followed hi)
  · intro obj' i hobj' hi
    rw [List.mem_cons, not_or] at hobj'
    rcases h.last_imp hi with ⟨rfl, -⟩ | hi
    · exact absurd rfl hobj'.1
    · exact hd.last_lt obj' i hobj'.2 hi

/-- The operation `op` accesses the objects of a list one after the other. The edges of the streams
do not lead from the operation to itself. -/
inductive Accesses (op : ℕ) : Dependencies → List ℕ → Dependencies → Prop
  | nil (d : Dependencies) : Accesses op d [] d
  | cons {d₁ d₂ d₃ : Dependencies} {stream_id obj : ℕ} {access_type : AccessType}
      {link : ℕ → Prop} {owner : ℕ} {readers objs : List ℕ}
      (first : Accessed d₁ op stream_id obj access_type link owner readers d₂)
      (hlink : ∀ i, link i → d₁.stream_ownership_map.find? stream_id = some i → i ≠ op)
      (rest : Accesses op d₂ objs d₃) : Accesses op d₁ (obj :: objs) d₃

namespace Accesses

variable {objs objs' : List ℕ} {d'' : Dependencies}

/-- Without an access nothing changes. -/
theorem eq_of_nil (h : Accesses op d [] d') : d' = d := by
  cases h
  rfl

/-- Two lists of accesses of one operation. -/
theorem append (h : Accesses op d objs d') (h' : Accesses op d' objs' d'') :
    Accesses op d (objs ++ objs') d'' := by
  induction h with
  | nil => exact h'
  | cons first hlink _ ih => exact .cons first hlink (ih h')

/-- One access. -/
theorem single (h : Accessed d op stream_id obj access_type link owner readers d')
    (hlink : ∀ i, link i → d.stream_ownership_map.find? stream_id = some i → i ≠ op) :
    Accesses op d [obj] d' := .cons h hlink (.nil d')

/-- The graph keeps its edges. -/
theorem hasEdge (h : Accesses op d objs d') {e : EdgeIndex} (he : d.graph.hasEdge e) :
    d'.graph.hasEdge e := by
  induction h with
  | nil => exact he
  | cons first _ _ ih => exact ih (first.grows.hasEdge he)

/-- The node of the operation is new when there is an access. -/
theorem hasNode_iff (h : Accesses op d objs d') (j : ℕ) :
    d'.graph.hasNode j ↔ objs ≠ [] ∧ j = op ∨ d.graph.hasNode j := by
  induction h with
  | nil => simp
  | cons first _ _ ih =>
    rw [ih, first.grows.hasNode_iff]
    simp only [ne_eq, reduceCtorEq, not_false_eq_true, true_and]
    tauto

/-- The remembered operations stay nodes of the graph. -/
theorem linked (h : Accesses op d objs d') (hd : d.Linked op) : d'.Linked op := by
  induction h with
  | nil => exact hd
  | cons first _ _ ih => exact ih (hd.accessed first)

/-- When each object is accessed once, all edges lead from earlier operations to later ones. -/
theorem before {T : List ℕ} (h : Accesses op d objs d') (hlinked : d.Linked op)
    (hd : d.Before op T) (hnodup : (objs ++ T).Nodup) : ∃ T', d'.Before op T' := by
  induction h generalizing T with
  | nil => exact ⟨T, hd⟩
  | cons first hlink _ ih =>
    rw [List.cons_append] at hnodup
    obtain ⟨hobj, hrest⟩ := List.nodup_cons.1 hnodup
    rw [List.mem_append, not_or] at hobj
    apply ih (hlinked.accessed first) (hd.accessed hlinked hobj.2 first hlink)
    rw [List.nodup_middle]
    exact List.nodup_cons.2 ⟨by simpa using hobj, hrest⟩

end Accesses

/-- The remembered operations for a later operation. -/
theorem Linked.mono {c c' : ℕ} (h : d.Linked c) (hle : c ≤ c') : d.Linked c' :=
  ⟨h.wellFormed, fun i hi => (h.node_le i hi).trans hle, h.last_node, h.stream_node⟩

/-- A new operation comes after everything in the graph. -/
theorem Linked.before {c c' : ℕ} (h : d.Linked c) (hlt : c < c')
    (hedge : ∀ e, d.graph.hasEdge e → e.source < e.target) : d.Before c' [] :=
  ⟨hedge, fun obj i _ hi => (h.node_le i (h.last_node obj i hi)).trans_lt hlt⟩

/-- The edges after an allocation. -/
theorem Allocated.edge_lt {c : ℕ} (h : Allocated d op stream_id d') (hlinked : d.Linked c)
    (hlt : c < op) (hedge : ∀ e, d.graph.hasEdge e → e.source < e.target) {e : EdgeIndex}
    (he : d'.graph.hasEdge e) : e.source < e.target := by
  rcases (h.grows.hasEdge_iff e).1 he with he | ⟨htarget, -, hi⟩
  · exact hedge e he
  · rw [htarget]
    exact (hlinked.node_le _ (hlinked.stream_node _ _ hi)).trans_lt hlt

/-- The remembered operations after an allocation, which gets an empty list of readers. -/
theorem Allocated.linked (h : Allocated d op stream_id d') (hlinked : d.Linked op) :
    ({ d' with read_nodes := d'.read_nodes.emplace op [] } : Dependencies).Linked op := by
  have hop : d'.graph.hasNode op := (h.grows.hasNode_iff op).2 (.inl rfl)
  have hold : ∀ obj i, d.obj_ownership_map.find? obj = some i → d'.graph.hasNode i :=
    fun obj i hi => h.grows.hasNode (hlinked.last_node obj i (.inl hi))
  constructor
  · apply h.grows.wellFormed hlinked.wellFormed
    rintro type i ⟨-, hi⟩
    exact .inr (hlinked.stream_node _ i hi)
  · intro i hi
    rcases (h.grows.hasNode_iff i).1 hi with rfl | hi
    · exact le_rfl
    · exact hlinked.node_le i hi
  · rintro obj i (hi | ⟨readers, hreaders, hi⟩)
    · dsimp only at hi
      rw [h.owner] at hi
      split_ifs at hi with hnode
      · exact hold obj i hi
      · rw [OrderedMap.find?_emplace] at hi
        split_ifs at hi with hobj
        · cases howner : d.obj_ownership_map.find? op with
          | none =>
            rw [howner, Option.getD_none, Option.some.injEq] at hi
            rw [← hi]
            exact hop
          | some i' =>
            rw [howner, Option.getD_some] at hi
            exact hold op i (howner.trans hi)
        · exact hold obj i hi
    · dsimp only at hreaders
      rw [h.readers, OrderedMap.find?_emplace] at hreaders
      have hreader : ∀ obj', d.read_nodes.find? obj' = some readers → d'.graph.hasNode i :=
        fun obj' h' => h.grows.hasNode (hlinked.last_node obj' i (.inr ⟨readers, h', hi⟩))
      split_ifs at hreaders with hobj
      · cases hread : d.read_nodes.find? op with
        | none =>
          rw [hread, Option.getD_none, Option.some.injEq] at hreaders
          rw [← hreaders] at hi
          exact absurd hi List.not_mem_nil
        | some readers' =>
          rw [hread, Option.getD_some] at hreaders
          exact hreader op (hread.trans hreaders)
      · exact hreader obj hreaders
  · intro st i hi
    dsimp only at hi
    rw [h.stream] at hi
    split_ifs at hi with hst
    · rw [← Option.some.inj hi]
      exact hop
    · exact h.grows.hasNode (hlinked.stream_node st i hi)

end Dependencies

end TenProf.MemoryLiveness
