import Mathlib.Data.List.Enum
import Mathlib.Data.List.Induction
import Mathlib.Data.Multiset.AddSub
import Mathlib.Data.Multiset.Count
import Mathlib.Data.Multiset.Filter

/-!
# Priority queues

A priority queue is known by what its operations do to its content. The top is an element which none
has to stand before; where several could, it is left open which one it is, so that what is proved
holds for every implementation. `ofList` is one.

`offer` keeps the elements with the largest keys in a queue of a limited size: an element that comes
when the queue is full takes the place of the top if its key is larger. `Selection` says which
elements are kept: as many as the limit allows, none of them with a smaller key than one that is not
kept, and each has come when fewer elements than the limit had a key as large. Among elements with
one key the order of the queue decides.
-/

namespace TenProf

universe u

/-- An implementation of a priority queue, where `comp a b` says that `b` is to be the top rather
than `a`. -/
structure PriorityQueue (α : Type u) (comp : α → α → Prop) where
  /-- The states of a queue. -/
  Queue : Type u
  /-- The elements in a queue. -/
  content : Queue → Multiset α
  empty : Queue
  push : Queue → α → Queue
  top : Queue → Option α
  pop : Queue → Queue
  content_empty : content empty = 0
  content_push : ∀ q a, content (push q a) = a ::ₘ content q
  top_of_empty : ∀ q, content q = 0 → top q = none
  top_of_ne : ∀ q, content q ≠ 0 → ∃ a, top q = some a ∧ content q = a ::ₘ content (pop q) ∧
    ∀ b ∈ content q, ¬comp a b

namespace PriorityQueue

section Operations

variable {α : Type u} {comp : α → α → Prop} (Q : PriorityQueue α comp)

/-- The number of elements. -/
def size (q : Q.Queue) : ℕ := (Q.content q).card

/-- An element is put into a queue of a limited size, when it is not full or the top has a smaller
key. There is no result where the top of an empty queue is looked at. -/
def offer (key : α → ℕ) (limit : ℕ) (q : Q.Queue) (a : α) : Option Q.Queue :=
  if Q.size q < limit then some (Q.push q a)
  else (Q.top q).map fun top => if key top < key a then Q.push (Q.pop q) a else q

/-- Elements are put into an empty queue of a limited size. -/
def offerAll (key : α → ℕ) (limit : ℕ) (as : List α) : Option Q.Queue :=
  as.foldlM (Q.offer key limit) Q.empty

/-- Elements are taken until the queue is empty, in at most `fuel` turns. -/
def drainLoop : ℕ → Q.Queue → List α
  | 0, _ => []
  | fuel + 1, q => match Q.top q with
    | none => []
    | some a => a :: drainLoop fuel (Q.pop q)

/-- The elements in the order in which they are taken. -/
def drain (q : Q.Queue) : List α := Q.drainLoop (Q.size q) q

/-- The elements that are taken are those in the queue. -/
theorem coe_drain (q : Q.Queue) : (Q.drain q : Multiset α) = Q.content q := by
  suffices h : ∀ fuel q, Q.size q = fuel → (Q.drainLoop fuel q : Multiset α) = Q.content q from
    h _ q rfl
  intro fuel
  induction fuel with
  | zero =>
    intro q hsize
    exact (Multiset.card_eq_zero.1 hsize).symm
  | succ fuel ih =>
    intro q hsize
    have hne : Q.content q ≠ 0 := fun h => by
      have : Q.size q = 0 := by rw [size, h, Multiset.card_zero]
      omega
    obtain ⟨a, htop, hcontent, -⟩ := Q.top_of_ne q hne
    have hpop : Q.size (Q.pop q) = fuel := by
      unfold size at hsize ⊢
      rw [hcontent, Multiset.card_cons] at hsize
      omega
    unfold drainLoop
    rw [htop, hcontent, ← ih _ hpop]
    rfl

/-- A queue for a finer order is one for the order itself. -/
def ofFiner {comp' : α → α → Prop} (Q : PriorityQueue α comp') (h : ∀ a b, comp a b → comp' a b) :
    PriorityQueue α comp :=
  { Q with
    top_of_ne := fun q hne => by
      obtain ⟨a, htop, hcontent, hleast⟩ := Q.top_of_ne q hne
      exact ⟨a, htop, hcontent, fun b hb hcomp => hleast b hb (h a b hcomp)⟩ }

end Operations

/-! ## The queues of the lists -/

section OfList

variable {α : Type u} (comp : α → α → Prop) [DecidableRel comp]

/-- An element that none has to stand before, and the others. -/
def extractTop : List α → Option (α × List α)
  | [] => none
  | a :: l => match extractTop l with
    | none => some (a, [])
    | some (b, rest) => if comp a b then some (b, a :: rest) else some (a, b :: rest)

variable {comp} (hasymm : ∀ a b, comp a b → ¬comp b a)
  (htrans : ∀ a b c, ¬comp a b → ¬comp b c → ¬comp a c)

include hasymm htrans

/-- A list that is not empty has such an element. -/
theorem extractTop_spec {l : List α} (hne : l ≠ []) :
    ∃ a rest, extractTop comp l = some (a, rest) ∧ l.Perm (a :: rest) ∧ ∀ b ∈ l, ¬comp a b := by
  have hirrefl : ∀ a, ¬comp a a := fun a h => hasymm a a h h
  induction l with
  | nil => exact absurd rfl hne
  | cons a l ih =>
    unfold extractTop
    by_cases hl : l = []
    · subst hl
      refine ⟨a, [], rfl, List.Perm.refl _, fun b hb => ?_⟩
      rw [List.mem_singleton.1 hb]
      exact hirrefl a
    · obtain ⟨b, rest, htop, hperm, hleast⟩ := ih hl
      rw [htop]
      dsimp only
      by_cases hab : comp a b
      · refine ⟨b, a :: rest, if_pos hab, ?_, fun c hc => ?_⟩
        · exact (hperm.cons a).trans (List.Perm.swap b a rest)
        · rcases List.mem_cons.1 hc with rfl | hc
          · exact hasymm _ _ hab
          · exact hleast c hc
      · refine ⟨a, b :: rest, if_neg hab, hperm.cons a, fun c hc => ?_⟩
        rcases List.mem_cons.1 hc with rfl | hc
        · exact hirrefl c
        · exact htrans a b c hab (hleast c hc)

/-- The queue whose states are lists. -/
def ofList : PriorityQueue α comp where
  Queue := List α
  content q := q
  empty := []
  push q a := a :: q
  top q := (extractTop comp q).map Prod.fst
  pop q := ((extractTop comp q).map Prod.snd).getD []
  content_empty := rfl
  content_push _ _ := rfl
  top_of_empty q h := by
    rw [(Multiset.coe_eq_zero q).1 h]
    rfl
  top_of_ne q h := by
    obtain ⟨a, rest, htop, hperm, hleast⟩ :=
      extractTop_spec hasymm htrans fun hq => h ((Multiset.coe_eq_zero q).2 hq)
    rw [htop]
    exact ⟨a, rfl, Multiset.coe_eq_coe.2 hperm, hleast⟩

end OfList

/-! ## The elements that are kept -/

/-- A larger key stands behind, and what stands behind has at least as large a key. -/
structure Respects {α : Type u} (comp : α → α → Prop) (key : α → ℕ) : Prop where
  comp_of_lt : ∀ {a b}, key b < key a → comp a b
  le_of_comp : ∀ {a b}, comp a b → key b ≤ key a

section Selection

variable {α : Type u}

/-- At the position of an element, fewer than `limit` elements had a key as large. -/
def Passes (key : α → ℕ) (limit : ℕ) (as : List α) (e : α × ℕ) : Prop :=
  ((as.take e.2).countP fun b => key e.1 ≤ key b) < limit

/-- The elements, each with its position, are split into those that are kept and the rest. -/
structure Selection (key : α → ℕ) (comp : α → α → Prop) (limit : ℕ) (as : List α)
    (kept rest : Multiset (α × ℕ)) : Prop where
  split : kept + rest = as.zipIdx
  card : kept.card = min limit as.length
  le : ∀ a ∈ kept, ∀ b ∈ rest, key b.1 ≤ key a.1
  passes : ∀ a ∈ kept, Passes key limit as a
  not_comp : ∀ a ∈ kept, ∀ b ∈ rest, Passes key limit as b → ¬comp b.1 a.1

variable {key : α → ℕ} {comp : α → α → Prop} {limit : ℕ} {as : List α}
  {kept rest : Multiset (α × ℕ)} {a : α}

/-- What was true at a position stays true when elements follow. -/
theorem passes_append {e : α × ℕ} (he : e ∈ as.zipIdx) :
    Passes key limit (as ++ [a]) e ↔ Passes key limit as e := by
  have hlt : e.2 < as.length := by simpa using List.snd_lt_of_mem_zipIdx he
  unfold Passes
  rw [List.take_append_of_le_length hlt.le]

/-- The elements with a property are counted in both parts. -/
theorem Selection.countP_eq (h : Selection key comp limit as kept rest) (p : α → Prop)
    [DecidablePred p] :
    as.countP p = kept.countP (fun e => p e.1) + rest.countP fun e => p e.1 := by
  rw [← Multiset.countP_add, h.split, Multiset.coe_countP]
  conv_lhs => rw [← List.zipIdx_map_fst 0 as]
  rw [List.countP_map]
  rfl

/-- An element of either part stands at its position. -/
theorem Selection.mem_zipIdx (h : Selection key comp limit as kept rest) {e : α × ℕ} :
    e ∈ as.zipIdx ↔ e ∈ kept ∨ e ∈ rest := by
  rw [← Multiset.mem_coe, ← h.split, Multiset.mem_add]

/-- An element passes at the end if there are fewer than `limit` with a key as large. -/
theorem passes_last :
    Passes key limit (as ++ [a]) (a, as.length) ↔ (as.countP fun b => key a ≤ key b) < limit := by
  unfold Passes
  rw [List.take_left]

/-- The first elements are all kept. -/
theorem Selection.push (h : Selection key comp limit as kept rest) (hsize : kept.card < limit) :
    Selection key comp limit (as ++ [a]) ((a, as.length) ::ₘ kept) rest := by
  have hlen : as.length < limit := by
    have := h.card
    omega
  -- With as many elements kept as there are, nothing is left over.
  have hrest : rest = 0 := by
    have htotal := congrArg Multiset.card h.split
    rw [Multiset.card_add, h.card, Multiset.coe_card, List.length_zipIdx,
      min_eq_right hlen.le] at htotal
    exact Multiset.card_eq_zero.1 (by omega)
  subst hrest
  refine ⟨?_, ?_, fun _ _ b hb => ?_, fun e he => ?_, fun _ _ b hb => ?_⟩
  · rw [Multiset.cons_add, h.split, List.zipIdx_append, Nat.zero_add, List.zipIdx_singleton,
      ← Multiset.coe_add, Multiset.add_comm]
    rfl
  · rw [Multiset.card_cons, h.card, List.length_append, List.length_singleton]
    omega
  · exact absurd hb (Multiset.notMem_zero b)
  · rcases Multiset.mem_cons.1 he with rfl | he
    · exact passes_last.2 (List.countP_le_length.trans_lt hlen)
    · exact (passes_append (h.mem_zipIdx.2 (.inl he))).2 (h.passes e he)
  · exact absurd hb (Multiset.notMem_zero b)

/-- An element whose key is not larger than that of the top is not kept. -/
theorem Selection.skip (h : Selection key comp limit as kept rest) (hsize : limit ≤ kept.card)
    (hle : ∀ e ∈ kept, key a ≤ key e.1) :
    Selection key comp limit (as ++ [a]) kept ((a, as.length) ::ₘ rest) := by
  refine ⟨?_, ?_, fun e he b hb => ?_, fun e he => ?_, fun e he b hb hpass => ?_⟩
  · rw [Multiset.add_cons, h.split, List.zipIdx_append, Nat.zero_add, List.zipIdx_singleton,
      ← Multiset.coe_add, Multiset.add_comm]
    rfl
  · rw [h.card, List.length_append, List.length_singleton]
    have := h.card
    omega
  · rcases Multiset.mem_cons.1 hb with rfl | hb
    · exact hle e he
    · exact h.le e he b hb
  · exact (passes_append (h.mem_zipIdx.2 (.inl he))).2 (h.passes e he)
  · rcases Multiset.mem_cons.1 hb with rfl | hb
    · -- It does not pass, since the kept elements have keys as large.
      have hcount := passes_last.1 hpass
      rw [h.countP_eq, Multiset.countP_eq_card.2 hle] at hcount
      omega
    · exact h.not_comp e he b hb ((passes_append (h.mem_zipIdx.2 (.inr hb))).1 hpass)

/-- An element takes the place of one with the least key. -/
theorem Selection.replace {t : α × ℕ} (hkey : Respects comp key)
    (h : Selection key comp limit as (t ::ₘ kept) rest) (hsize : limit ≤ kept.card + 1)
    (hleast : ∀ e ∈ t ::ₘ kept, ¬comp t.1 e.1) (hlt : key t.1 < key a) :
    Selection key comp limit (as ++ [a]) ((a, as.length) ::ₘ kept) (t ::ₘ rest) := by
  have hcard := h.card
  rw [Multiset.card_cons] at hcard
  have htop : ∀ e ∈ t ::ₘ kept, key t.1 ≤ key e.1 := fun e he =>
    not_lt.1 fun hlt => hleast e he (hkey.comp_of_lt hlt)
  refine ⟨?_, ?_, fun e he b hb => ?_, fun e he => ?_, fun e he b hb hpass => ?_⟩
  · rw [Multiset.cons_add, Multiset.add_cons, ← Multiset.cons_add, h.split, List.zipIdx_append,
      Nat.zero_add, List.zipIdx_singleton, ← Multiset.coe_add, Multiset.add_comm]
    rfl
  · rw [Multiset.card_cons, hcard, List.length_append, List.length_singleton]
    omega
  · have hb : key b.1 ≤ key t.1 := by
      rcases Multiset.mem_cons.1 hb with rfl | hb
      · exact le_rfl
      · exact h.le t (Multiset.mem_cons_self t kept) b hb
    rcases Multiset.mem_cons.1 he with rfl | he
    · exact hb.trans hlt.le
    · exact hb.trans (htop e (Multiset.mem_cons_of_mem he))
  · rcases Multiset.mem_cons.1 he with rfl | he
    · -- Only the other kept elements can have keys as large.
      refine passes_last.2 ?_
      rw [h.countP_eq, Multiset.countP_cons_of_neg (p := fun e : α × ℕ => key a ≤ key e.1) _
        (not_le.2 hlt)]
      have hrest : rest.countP (fun e => key a ≤ key e.1) = 0 := by
        refine Multiset.countP_eq_zero.2 fun b hb => not_le.2 ?_
        exact (h.le t (Multiset.mem_cons_self t kept) b hb).trans_lt hlt
      have hkept := Multiset.countP_le_card (fun e : α × ℕ => key a ≤ key e.1) kept
      omega
    · have hmem : e ∈ t ::ₘ kept := Multiset.mem_cons_of_mem he
      exact (passes_append (h.mem_zipIdx.2 (.inl hmem))).2 (h.passes e hmem)
  · have hold : ∀ e ∈ t ::ₘ kept, ¬comp b.1 e.1 := by
      rcases Multiset.mem_cons.1 hb with rfl | hb
      · exact hleast
      · intro e he
        exact h.not_comp e he b hb ((passes_append (h.mem_zipIdx.2 (.inr hb))).1 hpass)
    rcases Multiset.mem_cons.1 he with rfl | he
    · -- What has left the queue has a key below that of the new element.
      intro hcomp
      refine hold t (Multiset.mem_cons_self t kept) (hkey.comp_of_lt ?_)
      exact hlt.trans_le (hkey.le_of_comp hcomp)
    · exact hold e (Multiset.mem_cons_of_mem he)

/-- The queue holds a selection of the elements that were offered. -/
theorem exists_selection (Q : PriorityQueue α comp) (hkey : Respects comp key) (hlimit : 1 ≤ limit)
    (as : List α) :
    ∃ q kept rest, Q.offerAll key limit as = some q ∧ Q.content q = kept.map Prod.fst ∧
      Selection key comp limit as kept rest := by
  induction as using List.reverseRecOn with
  | nil =>
    refine ⟨Q.empty, 0, 0, rfl, Q.content_empty, rfl, by simp, ?_, ?_, ?_⟩ <;>
      exact fun e he => absurd he (Multiset.notMem_zero e)
  | append_singleton as a ih =>
    obtain ⟨q, kept, rest, hrun, hcontent, h⟩ := ih
    have hsize : Q.size q = kept.card := by rw [size, hcontent, Multiset.card_map]
    have hstep : Q.offerAll key limit (as ++ [a]) = Q.offer key limit q a := by
      unfold offerAll at hrun ⊢
      rw [List.foldlM_append, hrun]
      show (Q.offer key limit q a).bind some = _
      exact Option.bind_fun_some _
    rw [hstep]
    unfold offer
    by_cases hfull : Q.size q < limit
    · rw [if_pos hfull]
      refine ⟨_, _, _, rfl, ?_, h.push (by rwa [← hsize])⟩
      rw [Q.content_push, hcontent, Multiset.map_cons]
    · rw [if_neg hfull]
      have hne : Q.content q ≠ 0 := fun h => by
        have : Q.size q = 0 := by rw [size, h, Multiset.card_zero]
        omega
      obtain ⟨t, htop, hpop, hleast⟩ := Q.top_of_ne q hne
      -- The top is one of the kept elements.
      obtain ⟨t, ht, rfl⟩ : ∃ t' ∈ kept, t'.1 = t :=
        Multiset.mem_map.1 (hcontent ▸ hpop ▸ Multiset.mem_cons_self t _)
      obtain ⟨kept, rfl⟩ := Multiset.exists_cons_of_mem ht
      rw [hcontent, Multiset.map_cons, Multiset.cons_inj_right] at hpop
      have hleast : ∀ e ∈ t ::ₘ kept, ¬comp t.1 e.1 := fun e he =>
        hleast e.1 (hcontent ▸ Multiset.mem_map_of_mem Prod.fst he)
      rw [htop, Option.map_some]
      by_cases hlt : key t.1 < key a
      · rw [if_pos hlt]
        rw [Multiset.card_cons] at hsize
        refine ⟨_, _, _, rfl, ?_, h.replace hkey (by omega) hleast hlt⟩
        rw [Q.content_push, ← hpop, Multiset.map_cons]
      · rw [if_neg hlt]
        refine ⟨q, _, _, rfl, hcontent, h.skip (by omega) fun e he => ?_⟩
        exact (not_lt.1 hlt).trans (not_lt.1 fun hlt => hleast e he (hkey.comp_of_lt hlt))

/-- A queue of a limited size ends with as many elements as it can hold, and none of the others has
a larger key. -/
theorem exists_largest (Q : PriorityQueue α comp) (hkey : Respects comp key) (hlimit : 1 ≤ limit)
    (as : List α) :
    ∃ q rest, Q.offerAll key limit as = some q ∧ Q.content q + rest = as ∧
      (Q.content q).card = min limit as.length ∧
      ∀ a ∈ Q.content q, ∀ b ∈ rest, key b ≤ key a := by
  obtain ⟨q, kept, rest, hrun, hcontent, h⟩ := Q.exists_selection hkey hlimit as
  refine ⟨q, rest.map Prod.fst, hrun, ?_, ?_, fun a ha b hb => ?_⟩
  · rw [hcontent, ← Multiset.map_add, h.split, Multiset.map_coe, List.zipIdx_map_fst]
  · rw [hcontent, Multiset.card_map, h.card]
  · obtain ⟨a', ha', rfl⟩ := Multiset.mem_map.1 (hcontent ▸ ha)
    obtain ⟨b', hb', rfl⟩ := Multiset.mem_map.1 hb
    exact h.le a' ha' b' hb'

/-- A queue that is never full ends with all elements. -/
theorem drain_perm (Q : PriorityQueue α comp) (hkey : Respects comp key) (hlimit : 1 ≤ limit)
    {q : Q.Queue} (hrun : Q.offerAll key limit as = some q) (hle : as.length ≤ limit) :
    (Q.drain q).Perm as := by
  obtain ⟨q', rest, hrun', hsplit, hcard, -⟩ := Q.exists_largest hkey hlimit as
  obtain rfl : q = q' := Option.some.inj (hrun.symm.trans hrun')
  have htotal := congrArg Multiset.card hsplit
  rw [Multiset.card_add, hcard, min_eq_right hle, Multiset.coe_card] at htotal
  have hrest : rest = 0 := Multiset.card_eq_zero.1 (by omega)
  rw [← Multiset.coe_eq_coe, Q.coe_drain, ← hsplit, hrest, Multiset.add_zero]

/-! ### Two elements that are kept together -/

/-- Two elements fit into a queue with all that have a larger key than one of them. -/
def BothFit (key : α → ℕ) (limit : ℕ) (as : List α) (a b : α) : Prop :=
  (as.countP fun c => min (key a) (key b) < key c) + (if key a = key b then 2 else 1) ≤ limit

/-- The positions of a selection are distinct. -/
theorem Selection.nodup (h : Selection key comp limit as kept rest) : (kept + rest).Nodup := by
  rw [h.split, Multiset.coe_nodup]
  exact List.Nodup.of_map Prod.snd (by rw [List.zipIdx_map_snd]; exact List.nodup_range')

/-- Elements that are kept together fit. -/
theorem Selection.bothFit (h : Selection key comp limit as kept rest) {a b : α × ℕ} (ha : a ∈ kept)
    (hb : b ∈ kept) (hne : a ≠ b) : BothFit key limit as a.1 b.1 := by
  -- What has a larger key than one of them is kept.
  have hlarger : (as.countP fun c => min (key a.1) (key b.1) < key c) =
      kept.countP fun e => min (key a.1) (key b.1) < key e.1 := by
    rw [h.countP_eq, Nat.add_eq_left, Multiset.countP_eq_zero]
    intro e he
    have hlea := h.le a ha e he
    have hleb := h.le b hb e he
    exact not_lt.2 (le_min hlea hleb)
  -- The others among the two are kept as well.
  have hsub : (if key a.1 = key b.1 then 2 else 1) ≤
      kept.countP fun e => ¬min (key a.1) (key b.1) < key e.1 := by
    obtain ⟨kept, rfl⟩ := Multiset.exists_cons_of_mem ha
    obtain ⟨kept, rfl⟩ :=
      Multiset.exists_cons_of_mem ((Multiset.mem_cons.1 hb).resolve_left hne.symm)
    rw [Multiset.countP_cons, Multiset.countP_cons]
    split_ifs <;> omega
  have hcard := Multiset.card_eq_countP_add_countP
    (fun e : α × ℕ => min (key a.1) (key b.1) < key e.1) kept
  have hlimit := h.card
  unfold BothFit
  omega

/-- The order that keeps marked elements rather than others with the same key. -/
def Favour (key : α → ℕ) (p : α → Prop) (a b : α) : Prop :=
  key b < key a ∨ key a = key b ∧ p a ∧ ¬p b

instance (key : α → ℕ) (p : α → Prop) [DecidablePred p] : DecidableRel (Favour key p) :=
  fun _ _ => inferInstanceAs (Decidable (_ ∨ _))

theorem respects_favour (key : α → ℕ) (p : α → Prop) : Respects (Favour key p) key where
  comp_of_lt := .inl
  le_of_comp h := h.elim Nat.le_of_lt fun h => h.1.ge

theorem not_favour_iff {p : α → Prop} {a b : α} :
    ¬Favour key p a b ↔ key a < key b ∨ key a = key b ∧ (p a → p b) := by
  unfold Favour
  have hmarks : ¬(p a ∧ ¬p b) ↔ (p a → p b) := by rw [not_and, not_not]
  rw [not_or, not_and, hmarks, not_lt]
  constructor
  · rintro ⟨hle, h⟩
    exact hle.lt_or_eq.imp_right fun heq => ⟨heq, h heq⟩
  · rintro (hlt | ⟨heq, h⟩)
    · exact ⟨hlt.le, fun heq => absurd heq hlt.ne⟩
    · exact ⟨heq.le, fun _ => h⟩

/-- The queue that keeps marked elements rather than others with the same key. -/
def favouring (key : α → ℕ) (p : α → Prop) [DecidablePred p] : PriorityQueue α (Favour key p) :=
  ofList
    (fun a b hab hba => by
      rcases hab with hab | ⟨hab, ha, hb⟩ <;> rcases hba with hba | ⟨hba, hb', ha'⟩
      · exact hab.asymm hba
      · exact hab.ne' hba.symm
      · exact hba.ne hab
      · exact hb hb')
    (fun a b c hab hbc => by
      rw [not_favour_iff] at hab hbc ⊢
      rcases hab with hab | ⟨hab, hp⟩ <;> rcases hbc with hbc | ⟨hbc, hp'⟩
      · exact .inl (hab.trans hbc)
      · exact .inl (hab.trans_eq hbc)
      · exact .inl (hab.trans_lt hbc)
      · exact .inr ⟨hab.trans hbc, hp' ∘ hp⟩)

variable {p : α → Prop}

/-- What is kept besides a marked element that has left the queue has larger keys, or its key and a
mark. -/
theorem Selection.marked_of_rest (h : Selection key (Favour key p) limit as kept rest) {x : α × ℕ}
    (hx : x ∈ rest) (hp : p x.1) (hpass : Passes key limit as x) {e : α × ℕ} (he : e ∈ kept) :
    key x.1 < key e.1 ∨ key x.1 = key e.1 ∧ p e.1 :=
  (not_favour_iff.1 (h.not_comp e he x hx hpass)).imp_right fun h => ⟨h.1, h.2 hp⟩

/-- The queue is full of these. -/
theorem Selection.le_count_marked [DecidablePred p]
    (h : Selection key (Favour key p) limit as kept rest) {x : α × ℕ} (hx : x ∈ rest) (hp : p x.1)
    (hpass : Passes key limit as x) :
    limit ≤ (as.countP fun c => key x.1 < key c) +
      kept.countP fun e => p e.1 ∧ key x.1 = key e.1 := by
  have hfull : kept.card = limit := by
    have htotal := congrArg Multiset.card h.split
    have hpos := Multiset.card_pos_iff_exists_mem.2 ⟨x, hx⟩
    rw [Multiset.card_add, Multiset.coe_card, List.length_zipIdx] at htotal
    have := h.card
    omega
  have hlarger : kept.countP (fun e => key x.1 < key e.1) ≤ as.countP fun c => key x.1 < key c := by
    rw [h.countP_eq]
    exact Nat.le_add_right _ _
  have hothers : kept.countP (fun e => ¬key x.1 < key e.1) =
      kept.countP fun e => p e.1 ∧ key x.1 = key e.1 := by
    refine Multiset.countP_congr rfl fun e he => propext ⟨fun hle => ?_, fun h => h.2.not_lt⟩
    exact ((h.marked_of_rest hx hp hpass he).resolve_left hle).symm
  have hcard := Multiset.card_eq_countP_add_countP (fun e : α × ℕ => key x.1 < key e.1) kept
  omega

/-- Of two marked elements that pass and fit, where the one with the smaller key has left the queue,
the queue holds as many marked elements. -/
theorem Selection.two_le_of_rest [DecidablePred p]
    (h : Selection key (Favour key p) limit as kept rest) {a b : α × ℕ} (ha : a ∈ rest)
    (hb : b ∈ kept ∨ b ∈ rest) (hpa : p a.1) (hpb : p b.1) (hpass : Passes key limit as a)
    (hpass' : Passes key limit as b) (hle : key a.1 ≤ key b.1)
    (hfit : BothFit key limit as a.1 b.1) :
    2 ≤ kept.countP fun e => p e.1 := by
  have hfull := h.le_count_marked ha hpa hpass
  unfold BothFit at hfit
  rw [min_eq_left hle] at hfit
  -- The marked elements with the key of the first are some of the marked elements.
  have hsplit := Multiset.countP_eq_countP_filter_add kept (fun e => p e.1)
    fun e => key a.1 = key e.1
  rw [Multiset.countP_filter] at hsplit
  by_cases hkey : key a.1 = key b.1
  · rw [if_pos hkey] at hfit
    omega
  · rw [if_neg hkey] at hfit
    obtain ⟨e, he, -, hekey⟩ := Multiset.countP_pos.1 (show 0 < kept.countP fun e =>
      p e.1 ∧ key a.1 = key e.1 by omega)
    -- The other one is still there, since this one is.
    have hbkept : b ∈ kept := by
      refine hb.resolve_right fun hb => ?_
      have := h.marked_of_rest hb hpb hpass' he
      omega
    have hother : 0 < (Multiset.filter (fun e => ¬key a.1 = key e.1) kept).countP
        fun e => p e.1 :=
      Multiset.countP_pos.2 ⟨b, Multiset.mem_filter.2 ⟨hbkept, hkey⟩, hpb⟩
    omega

/-- Of two marked elements that pass and fit, the queue that favours them holds as many. -/
theorem Selection.two_le_countP [DecidablePred p]
    (h : Selection key (Favour key p) limit as kept rest) {a b : α × ℕ} (ha : a ∈ as.zipIdx)
    (hb : b ∈ as.zipIdx) (hne : a ≠ b) (hpa : p a.1) (hpb : p b.1) (hpass : Passes key limit as a)
    (hpass' : Passes key limit as b) (hfit : BothFit key limit as a.1 b.1) :
    2 ≤ kept.countP fun e => p e.1 := by
  have hfit' : BothFit key limit as b.1 a.1 := by
    unfold BothFit at hfit ⊢
    rw [min_comm]
    simpa only [eq_comm] using hfit
  rw [h.mem_zipIdx] at ha hb
  rcases ha with ha | ha <;> rcases hb with hb | hb
  · -- Both are still there.
    obtain ⟨kept, rfl⟩ := Multiset.exists_cons_of_mem ha
    obtain ⟨kept, rfl⟩ :=
      Multiset.exists_cons_of_mem ((Multiset.mem_cons.1 hb).resolve_left hne.symm)
    rw [Multiset.countP_cons_of_pos (p := fun e : α × ℕ => p e.1) _ hpa,
      Multiset.countP_cons_of_pos (p := fun e : α × ℕ => p e.1) _ hpb]
    exact Nat.le_add_left 2 _
  · exact h.two_le_of_rest hb (.inl ha) hpb hpa hpass' hpass (h.le a ha b hb) hfit'
  · exact h.two_le_of_rest ha (.inl hb) hpa hpb hpass hpass' (h.le b hb a ha) hfit
  · rcases le_total (key a.1) (key b.1) with hle | hle
    · exact h.two_le_of_rest ha (.inr hb) hpa hpb hpass hpass' hle hfit
    · exact h.two_le_of_rest hb (.inr ha) hpb hpa hpass' hpass hle hfit'

end Selection

end PriorityQueue

end TenProf
