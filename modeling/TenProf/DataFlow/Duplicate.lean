import TenProf.DataFlow.State
import TenProf.Library.NestedMap

/-!
# The duplicates among the calling contexts

`analyze_duplicate` relates the calling contexts that have a hash in common, and marks those that
have nothing else. It visits the contexts of a hash, for each hash of each context, and so writes
the same pair once for each common hash and from either side. All of these writes say the same
(`analyzeDuplicate_right`), whatever the order in which the maps and the sets are visited.
-/

namespace TenProf.DataFlow

/-- An order in which the maps and the sets are visited. -/
structure VisitOrder where
  nodes : OrderedMap ℤ (OrderedSet String) → List (ℤ × OrderedSet String)
  hashes : OrderedSet String → List String
  dup_nodes : OrderedMap ℤ Bool → List (ℤ × Bool)
  nodes_perm : ∀ m, (nodes m).Perm m.toList
  hashes_perm : ∀ s, (hashes s).Perm s.elems
  dup_nodes_perm : ∀ m, (dup_nodes m).Perm m.toList

/-- The order of the keys, in which `std::map` and `std::set` are visited. -/
def VisitOrder.increasing : VisitOrder where
  nodes m := m.toList
  hashes s := s.elems
  dup_nodes m := m.toList
  nodes_perm _ := List.Perm.refl _
  hashes_perm _ := List.Perm.refl _
  dup_nodes_perm _ := List.Perm.refl _

/-- `hash_nodes`: the contexts of each hash, and whether it is the only hash of the context. -/
def hashNodes (order : VisitOrder) (node_hash : OrderedMap ℤ (OrderedSet String)) :
    NestedMap String ℤ Bool :=
  (order.nodes node_hash).foldl (fun hash_nodes node_iter =>
    let node_id := node_iter.1
    if 1 < node_iter.2.size then
      -- Partial duplicate
      (order.hashes node_iter.2).foldl (fun hash_nodes hash => hash_nodes.put hash node_id false)
        hash_nodes
    else
      -- Total duplicate
      (order.hashes node_iter.2).foldl (fun hash_nodes hash => hash_nodes.put hash node_id true)
        hash_nodes) ∅

/-- The turn of the innermost loop. -/
def connect (node_id : ℤ) (size : ℕ) (duplicate : NestedMap ℤ ℤ Bool) (node_iter : ℤ × Bool) :
    NestedMap ℤ ℤ Bool :=
  let dup_node_id := node_iter.1
  if dup_node_id ≠ node_id then
    let total := node_iter.2 && size == 1
    (duplicate.put node_id dup_node_id total).put dup_node_id node_id total
  else duplicate

/-- `analyze_duplicate`, from an empty map. -/
def analyzeDuplicate (order : VisitOrder) (node_hash : OrderedMap ℤ (OrderedSet String)) :
    NestedMap ℤ ℤ Bool :=
  let hash_nodes := hashNodes order node_hash
  -- Construct duplicate connections
  (order.nodes node_hash).foldl (fun duplicate iter =>
    (order.hashes iter.2).foldl (fun duplicate hash =>
      (order.dup_nodes (hash_nodes.findD hash ∅)).foldl (connect iter.1 iter.2.size) duplicate)
      duplicate) ∅

variable {order : VisitOrder} {node_hash : OrderedMap ℤ (OrderedSet String)}

/-- A context has a hash. -/
def HasHash (node_hash : OrderedMap ℤ (OrderedSet String)) (node_id : ℤ) (hash : String) : Prop :=
  hash ∈ (node_hash.findD node_id ∅).elems

/-- A context has exactly one hash. -/
def HasOneHash (node_hash : OrderedMap ℤ (OrderedSet String)) (node_id : ℤ) : Prop :=
  (node_hash.findD node_id ∅).size = 1

instance (node_id : ℤ) : Decidable (HasOneHash node_hash node_id) :=
  inferInstanceAs (Decidable (_ = _))

theorem VisitOrder.mem_nodes (order : VisitOrder) {e : ℤ × OrderedSet String} :
    e ∈ order.nodes node_hash ↔ node_hash.find? e.1 = some e.2 := by
  rw [(order.nodes_perm _).mem_iff, OrderedMap.find?_eq_some_iff]

theorem VisitOrder.mem_hashes (order : VisitOrder) {s : OrderedSet String} {hash : String} :
    hash ∈ order.hashes s ↔ hash ∈ s.elems := (order.hashes_perm _).mem_iff

theorem VisitOrder.mem_dup_nodes (order : VisitOrder) {m : OrderedMap ℤ Bool} {e : ℤ × Bool} :
    e ∈ order.dup_nodes m ↔ m.find? e.1 = some e.2 := by
  rw [(order.dup_nodes_perm _).mem_iff, OrderedMap.find?_eq_some_iff]

/-- The visited contexts and their hashes. -/
theorem exists_visited_iff (order : VisitOrder) {node_id : ℤ} {hash : String} :
    (∃ e ∈ order.nodes node_hash, hash ∈ order.hashes e.2 ∧ e.1 = node_id) ↔
      HasHash node_hash node_id hash := by
  unfold HasHash OrderedMap.findD
  constructor
  · rintro ⟨e, he, hhash, rfl⟩
    rw [order.mem_nodes.1 he, Option.getD_some]
    exact order.mem_hashes.1 hhash
  · intro h
    cases hfind : node_hash.find? node_id with
    | none =>
      rw [hfind] at h
      simp at h
    | some s =>
      rw [hfind, Option.getD_some] at h
      exact ⟨(node_id, s), order.mem_nodes.2 hfind, order.mem_hashes.2 h, rfl⟩

/-- The set of a visited context. -/
theorem findD_of_visited {e : ℤ × OrderedSet String} (he : e ∈ order.nodes node_hash) :
    node_hash.findD e.1 ∅ = e.2 := by
  unfold OrderedMap.findD
  rw [order.mem_nodes.1 he, Option.getD_some]

/-- The test of the size of a visited set. -/
theorem size_beq_one_of_visited {e : ℤ × OrderedSet String} (he : e ∈ order.nodes node_hash) :
    (e.2.size == 1) = decide (HasOneHash node_hash e.1) := by
  rw [Bool.eq_iff_iff, beq_iff_eq, decide_eq_true_eq, HasOneHash, findD_of_visited he]

/-! ## The contexts of a hash -/

/-- The assignments of the first loop. -/
def hashEntries (order : VisitOrder) (node_hash : OrderedMap ℤ (OrderedSet String)) :
    List (String × ℤ × Bool) :=
  (order.nodes node_hash).flatMap fun node_iter =>
    (order.hashes node_iter.2).map fun hash => (hash, node_iter.1, !decide (1 < node_iter.2.size))

/-- The first loop makes its assignments. -/
theorem hashNodes_eq :
    hashNodes order node_hash = (hashEntries order node_hash).foldl NestedMap.putEntry ∅ := by
  unfold hashNodes hashEntries
  rw [List.foldl_flatMap]
  congr 1
  funext hash_nodes node_iter
  rw [List.foldl_map]
  by_cases hsize : 1 < node_iter.2.size
  · simp only [if_pos hsize, decide_eq_true hsize]
    rfl
  · simp only [if_neg hsize, decide_eq_false hsize]
    rfl

/-- A context with a hash has one hash unless it has more than one. -/
theorem HasHash.hasOneHash_iff {node_id : ℤ} {hash : String}
    (h : HasHash node_hash node_id hash) :
    HasOneHash node_hash node_id ↔ ¬1 < (node_hash.findD node_id ∅).size := by
  have hpos : 0 < (node_hash.findD node_id ∅).elems.length :=
    List.length_pos_of_mem h
  have hsize : (node_hash.findD node_id ∅).elems.length = (node_hash.findD node_id ∅).size :=
    List.length_map _
  unfold HasOneHash
  omega

/-- The contexts of a hash are those that have it, with the mark of those that have one hash. -/
theorem get?_hashNodes {hash : String} {node_id : ℤ} {total : Bool} :
    (hashNodes order node_hash).get? hash node_id = some total ↔
      HasHash node_hash node_id hash ∧ total = decide (HasOneHash node_hash node_id) := by
  have hagree : ∀ e ∈ hashEntries order node_hash,
      e.2.2 = !decide (1 < (node_hash.findD e.2.1 ∅).size) := by
    intro e he
    obtain ⟨node_iter, hnode, he⟩ := List.mem_flatMap.1 he
    obtain ⟨hash, -, rfl⟩ := List.mem_map.1 he
    rw [findD_of_visited hnode]
  have hkeys : (∃ e ∈ hashEntries order node_hash, e.1 = hash ∧ e.2.1 = node_id) ↔
      HasHash node_hash node_id hash := by
    rw [← exists_visited_iff order]
    constructor
    · rintro ⟨e, he, rfl, rfl⟩
      obtain ⟨node_iter, hnode, he⟩ := List.mem_flatMap.1 he
      obtain ⟨hash, hhash, rfl⟩ := List.mem_map.1 he
      exact ⟨node_iter, hnode, hhash, rfl⟩
    · rintro ⟨node_iter, hnode, hhash, rfl⟩
      exact ⟨_, List.mem_flatMap.2 ⟨node_iter, hnode, List.mem_map_of_mem hhash⟩, rfl, rfl⟩
  rw [hashNodes_eq, NestedMap.get?_foldl_put_empty
    (f := fun _ node_id => !decide (1 < (node_hash.findD node_id ∅).size)) hagree, hkeys]
  refine and_congr_right fun hhash => ?_
  rw [decide_eq_decide.2 hhash.hasOneHash_iff, decide_not]

/-! ## The connections -/

/-- The two assignments of a turn of the innermost loop. -/
def connection (node_id : ℤ) (size : ℕ) (node_iter : ℤ × Bool) : List (ℤ × ℤ × Bool) :=
  if node_iter.1 ≠ node_id then
    [(node_id, node_iter.1, node_iter.2 && size == 1),
      (node_iter.1, node_id, node_iter.2 && size == 1)]
  else []

/-- The assignments of the second loop. -/
def connections (order : VisitOrder) (node_hash : OrderedMap ℤ (OrderedSet String)) :
    List (ℤ × ℤ × Bool) :=
  (order.nodes node_hash).flatMap fun iter => (order.hashes iter.2).flatMap fun hash =>
    (order.dup_nodes ((hashNodes order node_hash).findD hash ∅)).flatMap
      (connection iter.1 iter.2.size)

/-- The second loop makes its assignments. -/
theorem analyzeDuplicate_eq : analyzeDuplicate order node_hash =
    (connections order node_hash).foldl NestedMap.putEntry ∅ := by
  have hturn : ∀ node_id size (duplicate : NestedMap ℤ ℤ Bool) node_iter,
      (connection node_id size node_iter).foldl NestedMap.putEntry duplicate =
        connect node_id size duplicate node_iter := by
    intro node_id size duplicate node_iter
    unfold connection connect
    by_cases hne : node_iter.1 ≠ node_id
    · simp only [if_pos hne]
      rfl
    · simp only [if_neg hne]
      rfl
  unfold analyzeDuplicate connections
  simp only [List.foldl_flatMap, hturn]

/-- The assignments, from what the contexts of the hashes are. -/
theorem mem_connections {e : ℤ × ℤ × Bool} : e ∈ connections order node_hash ↔
    ∃ node_id dup_node_id hash, HasHash node_hash node_id hash ∧
      HasHash node_hash dup_node_id hash ∧ dup_node_id ≠ node_id ∧
      (e = (node_id, dup_node_id, decide (HasOneHash node_hash dup_node_id) &&
          decide (HasOneHash node_hash node_id)) ∨
        e = (dup_node_id, node_id, decide (HasOneHash node_hash dup_node_id) &&
          decide (HasOneHash node_hash node_id))) := by
  unfold connections
  simp only [List.mem_flatMap]
  constructor
  · rintro ⟨iter, hiter, hash, hhash, node_iter, hnode, he⟩
    obtain ⟨hdup, htotal⟩ := get?_hashNodes.1 (order.mem_dup_nodes.1 hnode)
    unfold connection at he
    split_ifs at he with hne
    · rw [htotal, size_beq_one_of_visited hiter, List.mem_cons, List.mem_singleton] at he
      have hvisited := (exists_visited_iff order).1 ⟨iter, hiter, hhash, rfl⟩
      exact ⟨iter.1, node_iter.1, hash, hvisited, hdup, hne, he⟩
    · exact absurd he List.not_mem_nil
  · rintro ⟨node_id, dup_node_id, hash, hhash, hdup, hne, he⟩
    obtain ⟨iter, hiter, hvisited, rfl⟩ := (exists_visited_iff order).2 hhash
    refine ⟨iter, hiter, hash, hvisited, (dup_node_id, decide (HasOneHash node_hash dup_node_id)),
      order.mem_dup_nodes.2 (get?_hashNodes.2 ⟨hdup, rfl⟩), ?_⟩
    unfold connection
    rw [if_pos hne, size_beq_one_of_visited hiter, List.mem_cons, List.mem_singleton]
    exact he

/-- The duplicates are right: two different contexts are related when they have a hash in common,
totally when neither has another hash, and in both directions. -/
structure DuplicateRight (node_hash : OrderedMap ℤ (OrderedSet String))
    (duplicate : NestedMap ℤ ℤ Bool) : Prop where
  isSome_iff : ∀ a b, (duplicate.get? a b).isSome ↔
    a ≠ b ∧ ∃ hash, HasHash node_hash a hash ∧ HasHash node_hash b hash
  total_iff : ∀ a b total, duplicate.get? a b = some total →
    (total = true ↔ HasOneHash node_hash a ∧ HasOneHash node_hash b)
  symm : ∀ a b, duplicate.get? a b = duplicate.get? b a

/-- The value of a pair. -/
theorem get?_analyzeDuplicate {a b : ℤ} {total : Bool} :
    (analyzeDuplicate order node_hash).get? a b = some total ↔
      (a ≠ b ∧ ∃ hash, HasHash node_hash a hash ∧ HasHash node_hash b hash) ∧
        total = (decide (HasOneHash node_hash a) && decide (HasOneHash node_hash b)) := by
  have hagree : ∀ e ∈ connections order node_hash,
      e.2.2 = (decide (HasOneHash node_hash e.1) && decide (HasOneHash node_hash e.2.1)) := by
    intro e he
    obtain ⟨node_id, dup_node_id, hash, -, -, -, rfl | rfl⟩ := mem_connections.1 he
    · exact Bool.and_comm _ _
    · rfl
  have hkeys : (∃ e ∈ connections order node_hash, e.1 = a ∧ e.2.1 = b) ↔
      a ≠ b ∧ ∃ hash, HasHash node_hash a hash ∧ HasHash node_hash b hash := by
    constructor
    · rintro ⟨e, he, rfl, rfl⟩
      obtain ⟨node_id, dup_node_id, hash, hhash, hdup, hne, rfl | rfl⟩ := mem_connections.1 he
      · exact ⟨hne.symm, hash, hhash, hdup⟩
      · exact ⟨hne, hash, hdup, hhash⟩
    · rintro ⟨hne, hash, ha, hb⟩
      exact ⟨_, mem_connections.2 ⟨a, b, hash, ha, hb, hne.symm, .inl rfl⟩, rfl, rfl⟩
  rw [analyzeDuplicate_eq, NestedMap.get?_foldl_put_empty (f := fun a b =>
    decide (HasOneHash node_hash a) && decide (HasOneHash node_hash b)) hagree, hkeys]

/-- The duplicates are right, in whatever order the contexts and the hashes are visited. -/
theorem analyzeDuplicate_right (order : VisitOrder)
    (node_hash : OrderedMap ℤ (OrderedSet String)) :
    DuplicateRight node_hash (analyzeDuplicate order node_hash) where
  isSome_iff a b := by
    rw [Option.isSome_iff_exists]
    simp only [get?_analyzeDuplicate, exists_and_left, exists_eq, and_true]
  total_iff a b total h := by
    rw [(get?_analyzeDuplicate.1 h).2, Bool.and_eq_true, decide_eq_true_eq, decide_eq_true_eq]
  symm a b := by
    refine Option.ext fun total => ?_
    rw [get?_analyzeDuplicate, get?_analyzeDuplicate, ne_comm, Bool.and_comm]
    simp only [and_comm]

-- The third context has another hash besides the one that it shares with the first two.
example :
    let node_hash : OrderedMap ℤ (OrderedSet String) := OrderedMap.set (OrderedMap.set
      (OrderedMap.set ∅ 1 (OrderedSet.insert ∅ "a")) 2 (OrderedSet.insert ∅ "a")) 3
      (OrderedSet.insert (OrderedSet.insert ∅ "a") "b")
    let duplicate := analyzeDuplicate .increasing node_hash
    duplicate.get? 1 2 = some true ∧ duplicate.get? 1 3 = some false ∧
      duplicate.get? 3 3 = none := by decide +kernel

end TenProf.DataFlow
