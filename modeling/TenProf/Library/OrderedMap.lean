import Mathlib.Data.List.Pairwise
import Mathlib.Order.Lattice
import Mathlib.Tactic.Tauto

/-!
# Finite maps in key order

`OrderedMap α β` is a finite map whose entries stand in strictly increasing key order, as the
entries of a `std::map` do. The order is a field of the structure, so every map that can be built
is in order. `set` is assignment through `operator[]`, `emplace` keeps an entry that is there, and
`erase` drops a key. An `OrderedSet` is such a map without values. All lemmas go through one fact:
looking a key up gives exactly the entry that the map holds for it (`find?_eq_some_iff`).
-/

namespace TenProf

/-- A finite map from `α` to `β` with its entries in strictly increasing key order. -/
structure OrderedMap (α β : Type*) [LinearOrder α] where
  /-- The entries, in key order. -/
  toList : List (α × β)
  /-- The keys increase strictly. -/
  sorted : toList.Pairwise fun a b => a.1 < b.1
  deriving DecidableEq, Repr

namespace OrderedMap

variable {α β : Type*} [LinearOrder α]

/-- The map without entries. -/
def empty : OrderedMap α β := ⟨[], List.Pairwise.nil⟩

instance : EmptyCollection (OrderedMap α β) := ⟨empty⟩

/-- The value at a key. -/
def find? (m : OrderedMap α β) (k : α) : Option β :=
  (m.toList.find? fun e => e.1 = k).map Prod.snd

/-- Assignment at a key: the entry of the key is replaced, or added in its place in the order. -/
def set (m : OrderedMap α β) (k : α) (v : β) : OrderedMap α β where
  toList := m.toList.filter (fun e => e.1 < k) ++ (k, v) :: m.toList.filter (fun e => k < e.1)
  sorted := by
    refine List.pairwise_append.2 ⟨m.sorted.filter _, ?_, ?_⟩
    · refine List.pairwise_cons.2 ⟨?_, m.sorted.filter _⟩
      intro e he
      exact of_decide_eq_true (List.mem_filter.1 he).2
    · intro a ha b hb
      have hak : a.1 < k := of_decide_eq_true (List.mem_filter.1 ha).2
      rcases List.mem_cons.1 hb with rfl | hb
      · exact hak
      · exact hak.trans (of_decide_eq_true (List.mem_filter.1 hb).2)

/-- The map without the entries that a test on key and value rejects. -/
def filter (m : OrderedMap α β) (p : α × β → Bool) : OrderedMap α β :=
  ⟨m.toList.filter p, m.sorted.filter p⟩

/-- The map without the entry of a key. -/
def erase (m : OrderedMap α β) (k : α) : OrderedMap α β := m.filter fun e => e.1 ≠ k

/-- Insertion that leaves an entry of the key as it is. -/
def emplace (m : OrderedMap α β) (k : α) (v : β) : OrderedMap α β :=
  if (m.find? k).isSome then m else m.set k v

/-- The value at a key, which a read through `operator[]` creates with a default. -/
def findD (m : OrderedMap α β) (k : α) (v : β) : β := (m.find? k).getD v

/-- The last entry whose key is not above a given one. -/
def prev (m : OrderedMap α β) (k : α) : Option (α × β) :=
  (m.toList.filter fun e => e.1 ≤ k).getLast?

/-- The entries whose keys are above a given one, from the first of them on. -/
def after (m : OrderedMap α β) (k : α) : List (α × β) := m.toList.filter fun e => k < e.1

/-- The number of entries. -/
def size (m : OrderedMap α β) : ℕ := m.toList.length

/-- Looking a key up gives exactly the value that the map holds for it. -/
theorem find?_eq_some_iff (m : OrderedMap α β) (k : α) (v : β) :
    m.find? k = some v ↔ (k, v) ∈ m.toList := by
  obtain ⟨l, hl⟩ := m
  simp only [find?, Option.map_eq_some_iff, Prod.exists, exists_eq_right]
  induction l with
  | nil => simp
  | cons e l ih =>
    obtain ⟨hlt, hl⟩ := List.pairwise_cons.1 hl
    by_cases hk : e.1 = k
    · -- The keys behind the first are larger, so no other entry has the key.
      have hnot : (k, v) ∉ l := fun hmem => absurd (hlt _ hmem) (by simp [hk])
      constructor
      · rintro ⟨a, ha⟩
        simp only [List.find?_cons, hk, decide_true, Option.some.injEq] at ha
        rw [ha] at hk
        simp only at hk
        rw [ha, hk]
        exact List.mem_cons_self
      · intro hmem
        rcases List.mem_cons.1 hmem with rfl | hmem
        · exact ⟨k, by simp⟩
        · exact absurd hmem hnot
    · have hne : (k, v) ≠ e := fun h => hk (by rw [← h])
      simp only [List.find?_cons, hk, decide_false, List.mem_cons, hne, false_or]
      exact ih hl

/-- The entries after an assignment: the new one, and the old ones at other keys. -/
theorem mem_set (m : OrderedMap α β) (k : α) (v : β) (e : α × β) :
    e ∈ (m.set k v).toList ↔ e = (k, v) ∨ e ∈ m.toList ∧ e.1 ≠ k := by
  simp only [set, List.mem_append, List.mem_filter, List.mem_cons, decide_eq_true_eq]
  rw [ne_iff_lt_or_gt]
  tauto

@[simp] theorem toList_empty : (∅ : OrderedMap α β).toList = [] := rfl

@[simp] theorem find?_empty (k : α) : (∅ : OrderedMap α β).find? k = none := rfl

/-- The value at a key after an assignment. -/
theorem find?_set (m : OrderedMap α β) (k k' : α) (v : β) :
    (m.set k v).find? k' = if k' = k then some v else m.find? k' := by
  ext w
  rw [find?_eq_some_iff, mem_set]
  split_ifs with h
  · subst h
    simp [eq_comm]
  · rw [find?_eq_some_iff]
    simp [h]

@[simp] theorem find?_set_self (m : OrderedMap α β) (k : α) (v : β) :
    (m.set k v).find? k = some v := by rw [find?_set, if_pos rfl]

theorem find?_set_of_ne (m : OrderedMap α β) {k k' : α} (h : k' ≠ k) (v : β) :
    (m.set k v).find? k' = m.find? k' := by rw [find?_set, if_neg h]

@[simp] theorem mem_filter (m : OrderedMap α β) (p : α × β → Bool) (e : α × β) :
    e ∈ (m.filter p).toList ↔ e ∈ m.toList ∧ p e = true := List.mem_filter

@[simp] theorem mem_erase (m : OrderedMap α β) (k : α) (e : α × β) :
    e ∈ (m.erase k).toList ↔ e ∈ m.toList ∧ e.1 ≠ k := by
  unfold erase
  rw [mem_filter, decide_eq_true_eq]

/-- The value at a key after a key is erased. -/
theorem find?_erase (m : OrderedMap α β) (k k' : α) :
    (m.erase k).find? k' = if k' = k then none else m.find? k' := by
  ext w
  rw [find?_eq_some_iff, mem_erase]
  split_ifs with h
  · simp [h]
  · rw [find?_eq_some_iff]
    simp [h]

theorem find?_erase_of_ne (m : OrderedMap α β) {k k' : α} (h : k' ≠ k) :
    (m.erase k).find? k' = m.find? k' := by rw [find?_erase, if_neg h]

/-- The value at a key after an `emplace`: the one that was there, or else the new one. -/
theorem find?_emplace (m : OrderedMap α β) (k k' : α) (v : β) :
    (m.emplace k v).find? k' =
      if k' = k then some ((m.find? k).getD v) else m.find? k' := by
  unfold emplace
  split_ifs with hs hk hk
  · -- The key was there: its value stays.
    obtain ⟨w, hw⟩ := Option.isSome_iff_exists.1 hs
    rw [hk, hw]
    rfl
  · rfl
  · -- The key was absent: it gets the new value.
    have hnone : m.find? k = none := by simpa using hs
    rw [hk, find?_set_self, hnone]
    rfl
  · exact find?_set_of_ne m hk v

/-- The value that a read through `operator[]` gives after an assignment. -/
theorem findD_set (m : OrderedMap α β) (k k' : α) (v d : β) :
    (m.set k v).findD k' d = if k' = k then v else m.findD k' d := by
  unfold findD
  rw [find?_set]
  split_ifs <;> rfl

/-- The value that a read through `operator[]` gives after a key is erased. -/
theorem findD_erase (m : OrderedMap α β) (k k' : α) (d : β) :
    (m.erase k).findD k' d = if k' = k then d else m.findD k' d := by
  unfold findD
  rw [find?_erase]
  split_ifs <;> rfl

/-- An erased entry leaves one entry less or more. -/
theorem size_erase_le (m : OrderedMap α β) (k : α) : (m.erase k).size ≤ m.size :=
  List.length_filter_le _ _

/-- Erasing a key that is there leaves fewer entries. -/
theorem size_erase_lt (m : OrderedMap α β) {k : α} (h : (m.find? k).isSome) :
    (m.erase k).size < m.size := by
  obtain ⟨v, hv⟩ := Option.isSome_iff_exists.1 h
  refine List.length_filter_lt_length_iff_exists.2 ⟨(k, v), (m.find?_eq_some_iff k v).1 hv, ?_⟩
  simp

/-- Assignment behind all keys puts the entry at the end. -/
theorem toList_set_of_gt (m : OrderedMap α β) {k : α} (h : ∀ e ∈ m.toList, e.1 < k) (v : β) :
    (m.set k v).toList = m.toList ++ [(k, v)] := by
  have hbelow : m.toList.filter (fun e => e.1 < k) = m.toList := by
    rw [List.filter_eq_self]
    exact fun e he => decide_eq_true (h e he)
  have habove : m.toList.filter (fun e => k < e.1) = [] := by
    rw [List.filter_eq_nil_iff]
    exact fun e he hgt => (h e he).asymm (of_decide_eq_true hgt)
  show m.toList.filter (fun e => e.1 < k) ++ (k, v) :: m.toList.filter (fun e => k < e.1) = _
  rw [hbelow, habove]

/-- Insertion behind all keys puts the entry at the end. -/
theorem toList_emplace_of_gt (m : OrderedMap α β) {k : α} (h : ∀ e ∈ m.toList, e.1 < k) (v : β) :
    (m.emplace k v).toList = m.toList ++ [(k, v)] := by
  have hnone : m.find? k = none := by
    rw [Option.eq_none_iff_forall_ne_some]
    intro w hw
    exact lt_irrefl k (h _ ((m.find?_eq_some_iff k w).1 hw))
  unfold emplace
  rw [hnone]
  exact m.toList_set_of_gt h v

/-- The keys of a map are pairwise distinct. -/
theorem nodup_keys (m : OrderedMap α β) : (m.toList.map Prod.fst).Nodup := by
  rw [List.Nodup, List.pairwise_map]
  exact m.sorted.imp ne_of_lt

/-- The entries of a map are pairwise distinct. -/
theorem nodup_toList (m : OrderedMap α β) : m.toList.Nodup :=
  m.sorted.imp fun hlt heq => hlt.ne (congrArg Prod.fst heq)

/-- For a key that is not below any key of the map, the last entry is looked up. -/
theorem prev_of_ge (m : OrderedMap α β) {k : α} (h : ∀ e ∈ m.toList, e.1 ≤ k) :
    m.prev k = m.toList.getLast? := by
  unfold prev
  congr 1
  rw [List.filter_eq_self]
  exact fun e he => decide_eq_true (h e he)

@[simp] theorem mem_after (m : OrderedMap α β) (k : α) (e : α × β) :
    e ∈ m.after k ↔ e ∈ m.toList ∧ k < e.1 := by simp [after]

/-- The entries behind a key stand in key order. -/
theorem after_sorted (m : OrderedMap α β) (k : α) :
    (m.after k).Pairwise fun a b => a.1 < b.1 := m.sorted.filter _

/-- `prev` finds the entry with the largest key that is not above the given one. -/
theorem prev_eq_some_iff (m : OrderedMap α β) (k : α) (e : α × β) :
    m.prev k = some e ↔
      (e ∈ m.toList ∧ e.1 ≤ k) ∧ ∀ e' ∈ m.toList, e'.1 ≤ k → e' = e ∨ e'.1 < e.1 := by
  have hsorted : (m.toList.filter fun e => e.1 ≤ k).Pairwise fun a b => a.1 < b.1 :=
    m.sorted.filter _
  have hmem : ∀ e, e ∈ (m.toList.filter fun e => e.1 ≤ k) ↔ e ∈ m.toList ∧ e.1 ≤ k := by simp
  unfold prev
  rw [← hmem, List.getLast?_eq_some_iff]
  generalize (m.toList.filter fun e => e.1 ≤ k) = l at hsorted hmem
  constructor
  · -- The last entry of the list lies behind all others.
    rintro ⟨l, rfl⟩
    refine ⟨by simp, fun e' he' hle => ?_⟩
    rcases List.mem_append.1 ((hmem e').2 ⟨he', hle⟩) with he' | he'
    · exact .inr ((List.pairwise_append.1 hsorted).2.2 e' he' e (by simp))
    · exact .inl (List.mem_singleton.1 he')
  · -- The list ends with the entry, since nothing of it lies behind the entry.
    rintro ⟨he, hlast⟩
    obtain ⟨l₁, l₂, rfl⟩ := List.append_of_mem he
    cases l₂ with
    | nil => exact ⟨l₁, rfl⟩
    | cons e' l₂ =>
      have he' : e' ∈ l₁ ++ e :: e' :: l₂ := by simp
      have hlt : e.1 < e'.1 :=
        (List.pairwise_cons.1 (List.pairwise_append.1 hsorted).2.1).1 e' (by simp)
      rcases hlast e' ((hmem e').1 he').1 ((hmem e').1 he').2 with rfl | h
      · exact absurd hlt (lt_irrefl _)
      · exact absurd hlt h.asymm

/-- Behind the entry that `prev` finds the keys are above the given one. -/
theorem lt_of_mem_after_prev {m : OrderedMap α β} {k : α} {e e' : α × β} (h : m.prev k = some e)
    (he' : e' ∈ m.after e.1) : k < e'.1 := by
  obtain ⟨hmem, hlt⟩ := (m.mem_after _ _).1 he'
  by_contra hnot
  rcases ((m.prev_eq_some_iff k e).1 h).2 e' hmem (not_lt.1 hnot) with rfl | hlt'
  · exact lt_irrefl _ hlt
  · exact hlt.asymm hlt'

/-- `prev` finds nothing exactly when all keys are above the given one. -/
theorem prev_eq_none_iff (m : OrderedMap α β) (k : α) :
    m.prev k = none ↔ ∀ e ∈ m.toList, k < e.1 := by simp [prev]

/-- What holds between each entry and the later ones holds between entries with increasing keys. -/
theorem rel_of_lt {m : OrderedMap α β} {R : α × β → α × β → Prop} (h : m.toList.Pairwise R)
    {a b : α × β} (ha : a ∈ m.toList) (hb : b ∈ m.toList) (hlt : a.1 < b.1) : R a b := by
  have hboth := m.sorted.and h
  generalize m.toList = l at hboth ha hb
  induction hboth with
  | nil => exact absurd ha List.not_mem_nil
  | @cons e l hfirst _ ih =>
    rcases List.mem_cons.1 ha with rfl | ha' <;> rcases List.mem_cons.1 hb with rfl | hb'
    · exact absurd hlt (lt_irrefl _)
    · exact (hfirst b hb').2
    · exact absurd hlt (hfirst a ha').1.asymm
    · exact ih ha' hb'

/-- Entries with the same key are the same. -/
theorem eq_of_key {m : OrderedMap α β} {a b : α × β} (ha : a ∈ m.toList) (hb : b ∈ m.toList)
    (h : a.1 = b.1) : a = b := by
  have hva := (m.find?_eq_some_iff a.1 a.2).2 ha
  have hvb := (m.find?_eq_some_iff b.1 b.2).2 hb
  rw [h, hvb, Option.some.injEq] at hva
  exact Prod.ext h hva.symm

/-- The entries from one on are those with its key or a larger one. -/
theorem mem_cons_after {m : OrderedMap α β} {a b : α × β} (ha : a ∈ m.toList) :
    b ∈ a :: m.after a.1 ↔ b ∈ m.toList ∧ a.1 ≤ b.1 := by
  rw [List.mem_cons, mem_after]
  constructor
  · rintro (rfl | ⟨hb, hlt⟩)
    · exact ⟨ha, le_rfl⟩
    · exact ⟨hb, hlt.le⟩
  · rintro ⟨hb, hge⟩
    rcases hge.eq_or_lt with heq | hlt
    · exact .inl (eq_of_key hb ha heq.symm)
    · exact .inr ⟨hb, hlt⟩

/-- The entries from one on stand in key order. -/
theorem cons_after_sorted (m : OrderedMap α β) (a : α × β) :
    (a :: m.after a.1).Pairwise fun a b => a.1 < b.1 :=
  List.pairwise_cons.2 ⟨fun b hb => ((m.mem_after _ b).1 hb).2, m.after_sorted a.1⟩

/-- A key has one value. -/
theorem eq_of_entries {m : OrderedMap α β} {k : α} {v w : β} (hv : (k, v) ∈ m.toList)
    (hw : (k, w) ∈ m.toList) : v = w := congrArg Prod.snd (eq_of_key hv hw rfl)

/-- Insertion of a key that the map does not have is assignment. -/
theorem emplace_of_none {m : OrderedMap α β} {k : α} (h : m.find? k = none) (v : β) :
    m.emplace k v = m.set k v := by
  unfold emplace
  rw [h]
  rfl

/-- A key without a value has no entry. -/
theorem find?_eq_none_iff (m : OrderedMap α β) (k : α) :
    m.find? k = none ↔ ∀ e ∈ m.toList, e.1 ≠ k := by
  rw [Option.eq_none_iff_forall_ne_some]
  simp only [ne_eq, find?_eq_some_iff]
  exact ⟨fun h e he hk => h e.2 (by rwa [← hk]), fun h v hv => h _ hv rfl⟩

/-- A key that is assigned for the first time adds one entry to the others. -/
theorem perm_set {m : OrderedMap α β} {k : α} (h : m.find? k = none) (v : β) :
    (m.set k v).toList.Perm ((k, v) :: m.toList) := by
  have hnone := (m.find?_eq_none_iff k).1 h
  have hnew : (k, v) ∉ m.toList := fun hmem => hnone _ hmem rfl
  rw [List.perm_ext_iff_of_nodup (nodup_toList _) (List.nodup_cons.2 ⟨hnew, m.nodup_toList⟩)]
  intro e
  rw [mem_set, List.mem_cons, and_iff_left_of_imp (hnone e)]

/-- A key that is erased takes its entry from the others. -/
theorem perm_erase {m : OrderedMap α β} {k : α} {v : β} (h : m.find? k = some v) :
    m.toList.Perm ((k, v) :: (m.erase k).toList) := by
  have hentry := (m.find?_eq_some_iff k v).1 h
  have hnew : (k, v) ∉ (m.erase k).toList := fun hmem => ((mem_erase m k _).1 hmem).2 rfl
  rw [List.perm_ext_iff_of_nodup m.nodup_toList (List.nodup_cons.2 ⟨hnew, nodup_toList _⟩)]
  intro e
  rw [List.mem_cons, mem_erase]
  constructor
  · intro he
    by_cases hk : e.1 = k
    · exact .inl (eq_of_key he hentry hk)
    · exact .inr ⟨he, hk⟩
  · rintro (rfl | ⟨he, -⟩)
    · exact hentry
    · exact he

/-- A test that only the key of an entry passes selects the entry that is looked up. -/
theorem filter_key (m : OrderedMap α β) (k : α) {p : α × β → Bool} (hp : ∀ e, p e ↔ e.1 = k) :
    m.toList.filter p = (m.find? k).toList.map fun v => (k, v) := by
  cases h : m.find? k with
  | none =>
    exact List.filter_eq_nil_iff.2 fun e he htest =>
      (m.find?_eq_none_iff k).1 h e he ((hp e).1 htest)
  | some v =>
    have hothers : (m.erase k).toList.filter p = [] :=
      List.filter_eq_nil_iff.2 fun e he htest => ((mem_erase m k e).1 he).2 ((hp e).1 htest)
    have hperm := (perm_erase h).filter p
    rw [List.filter_cons_of_pos ((hp _).2 rfl), hothers] at hperm
    exact List.perm_singleton.1 hperm

/-! ## Positions

The entries before and behind a position of the map are a split of its list. -/

section Position

variable {m : OrderedMap α β} {before later : List (α × β)} {k : α} {v : β}

/-- The keys before a position are smaller, those behind it larger. -/
theorem keys_of_split (h : m.toList = before ++ (k, v) :: later) :
    (∀ e ∈ before, e.1 < k) ∧ ∀ e ∈ later, k < e.1 := by
  have hsorted := m.sorted
  rw [h, List.pairwise_append, List.pairwise_cons] at hsorted
  exact ⟨fun e he => hsorted.2.2 e he _ List.mem_cons_self, hsorted.2.1.1⟩

/-- Assignment of a key that belongs into a position. -/
theorem toList_set_split (h : m.toList = before ++ later) (hbefore : ∀ e ∈ before, e.1 < k)
    (hlater : ∀ e ∈ later, k < e.1) (v : β) : (m.set k v).toList = before ++ (k, v) :: later := by
  have hlt : m.toList.filter (fun e => e.1 < k) = before := by
    rw [h, List.filter_append, List.filter_eq_self.2 fun e he => decide_eq_true (hbefore e he),
      List.filter_eq_nil_iff.2 fun e he => by simpa using (hlater e he).le, List.append_nil]
  have hgt : m.toList.filter (fun e => k < e.1) = later := by
    rw [h, List.filter_append, List.filter_eq_self.2 fun e he => decide_eq_true (hlater e he),
      List.filter_eq_nil_iff.2 fun e he => by simpa using (hbefore e he).le, List.nil_append]
  show m.toList.filter (fun e => e.1 < k) ++ (k, v) :: m.toList.filter (fun e => k < e.1) = _
  rw [hlt, hgt]

/-- Insertion of a key that belongs into a position. -/
theorem toList_emplace_split (h : m.toList = before ++ later) (hbefore : ∀ e ∈ before, e.1 < k)
    (hlater : ∀ e ∈ later, k < e.1) (v : β) :
    (m.emplace k v).toList = before ++ (k, v) :: later := by
  rw [emplace_of_none, toList_set_split h hbefore hlater]
  rw [find?_eq_none_iff, h]
  intro e he
  rcases List.mem_append.1 he with he | he
  · exact (hbefore e he).ne
  · exact (hlater e he).ne'

/-- Erasing the entry at a position. -/
theorem toList_erase_split (h : m.toList = before ++ (k, v) :: later) :
    (m.erase k).toList = before ++ later := by
  obtain ⟨hbefore, hlater⟩ := keys_of_split h
  show m.toList.filter (fun e => e.1 ≠ k) = _
  rw [h, List.filter_append, List.filter_cons_of_neg (by simp),
    List.filter_eq_self.2 fun e he => decide_eq_true (hbefore e he).ne,
    List.filter_eq_self.2 fun e he => decide_eq_true (hlater e he).ne']

/-- The entry that is found for a key, and those behind it, are the last part of the list. -/
theorem toList_of_prev {e : α × β} (h : m.prev k = some e) :
    ∃ before, m.toList = before ++ e :: m.after e.1 := by
  obtain ⟨⟨he, -⟩, -⟩ := (m.prev_eq_some_iff k e).1 h
  obtain ⟨before, later, hsplit⟩ := List.append_of_mem he
  obtain ⟨hbefore, hlater⟩ := keys_of_split hsplit
  refine ⟨before, hsplit.trans ?_⟩
  congr 2
  show later = m.toList.filter (fun d => e.1 < d.1)
  rw [hsplit, List.filter_append, List.filter_cons_of_neg (by simp),
    List.filter_eq_self.2 fun d hd => decide_eq_true (hlater d hd),
    List.filter_eq_nil_iff.2 fun d hd => by simpa using (hbefore d hd).le, List.nil_append]

end Position

end OrderedMap

/-- A finite set with its elements in increasing order, as those of a `std::set`. -/
abbrev OrderedSet (α : Type*) [LinearOrder α] := OrderedMap α Unit

namespace OrderedSet

variable {α : Type*} [LinearOrder α]

/-- The elements, in increasing order. -/
def elems (s : OrderedSet α) : List α := s.toList.map Prod.fst

/-- The set with an element. -/
def insert (s : OrderedSet α) (a : α) : OrderedSet α := s.emplace a ()

/-- An element is in the set. -/
def has (s : OrderedSet α) (a : α) : Bool := (s.find? a).isSome

@[simp] theorem mem_elems (s : OrderedSet α) (a : α) : a ∈ s.elems ↔ s.find? a = some () := by
  rw [OrderedMap.find?_eq_some_iff, elems, List.mem_map]
  exact ⟨fun ⟨_, he, ha⟩ => by rwa [← ha], fun he => ⟨_, he, rfl⟩⟩

@[simp] theorem elems_empty : (∅ : OrderedSet α).elems = [] := rfl

@[simp] theorem mem_insert (s : OrderedSet α) (a b : α) :
    b ∈ (s.insert a).elems ↔ b = a ∨ b ∈ s.elems := by
  unfold insert
  rw [mem_elems, mem_elems, OrderedMap.find?_emplace]
  split_ifs with h
  · simp [h]
  · simp [h]

@[simp] theorem mem_erase (s : OrderedSet α) (a b : α) :
    b ∈ OrderedSet.elems (s.erase a) ↔ b ≠ a ∧ b ∈ s.elems := by
  rw [mem_elems, mem_elems, OrderedMap.find?_erase]
  split_ifs with h <;> simp [h]

end OrderedSet

/-! ## Lists with distinct keys -/

/-- Of a list with distinct keys, only one element has the key of an element. -/
theorem filter_eq_singleton {α β : Type*} [DecidableEq β] {f : α → β} {l : List α}
    (hnodup : (l.map f).Nodup) {a : α} (ha : a ∈ l) : l.filter (fun b => f b = f a) = [a] := by
  obtain ⟨l₁, l₂, rfl⟩ := List.append_of_mem ha
  rw [List.map_append, List.map_cons, List.nodup_append, List.nodup_cons] at hnodup
  obtain ⟨-, ⟨hafter, -⟩, hbefore⟩ := hnodup
  have h₁ : l₁.filter (fun b => f b = f a) = [] := List.filter_eq_nil_iff.2 fun b hb => by
    simpa using hbefore _ (List.mem_map_of_mem hb) _ List.mem_cons_self
  have h₂ : l₂.filter (fun b => f b = f a) = [] := List.filter_eq_nil_iff.2 fun b hb => by
    simpa using fun heq => hafter (List.mem_map.2 ⟨b, hb, heq⟩)
  simp [h₁, h₂]

end TenProf
