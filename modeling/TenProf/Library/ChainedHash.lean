import Mathlib.Data.List.Range
import Mathlib.Data.List.Induction
import Mathlib.Data.Nat.Notation
import Mathlib.Algebra.Ring.Nat
import Mathlib.Tactic.Common

/-!
# Blocks of a list, and chained hashing

`blocks n l` are the blocks of `n` elements at the front of a list and `remainder n l` is what is
left behind them; both are computed chunk by chunk (`blocks_append_remainder`,
`remainder_append_remainder`). A chained hash function folds a compression function over the blocks
of a message. Two different chains with one result collide, that is, the compression function has
one result for two different inputs that occur in them, when the chains have the same length
(`collide_of_length_eq`) or different last inputs (`collide_of_last_ne`).
-/

namespace TenProf

/-! ## Blocks -/

section Blocks

variable {α : Type*} {n : ℕ}

/-- The blocks of `n` elements at the front of a list, as many as fit. -/
def blocks (n : ℕ) (l : List α) : List (List α) :=
  (List.range (l.length / n)).map fun i => (l.drop (i * n)).take n

/-- What is left of a list behind its blocks. -/
def remainder (n : ℕ) (l : List α) : List α := l.drop (l.length / n * n)

@[simp] theorem length_blocks (l : List α) : (blocks n l).length = l.length / n := by
  unfold blocks
  rw [List.length_map, List.length_range]

theorem length_remainder (l : List α) : (remainder n l).length = l.length % n := by
  have hdiv := Nat.div_add_mod' l.length n
  unfold remainder
  rw [List.length_drop]
  omega

/-- A list that is shorter than a block has none. -/
theorem blocks_of_lt {l : List α} (h : l.length < n) : blocks n l = [] := by
  rw [← List.length_eq_zero_iff, length_blocks, Nat.div_eq_of_lt h]

/-- A list that is shorter than a block is what is left. -/
theorem remainder_of_lt {l : List α} (h : l.length < n) : remainder n l = l := by
  unfold remainder
  rw [Nat.div_eq_of_lt h, Nat.zero_mul, List.drop_zero]

/-- Every block has `n` elements. -/
theorem length_of_mem_blocks {l b : List α} (h : b ∈ blocks n l) : b.length = n := by
  obtain ⟨i, hi, rfl⟩ := List.mem_map.1 h
  have hlt : i + 1 ≤ l.length / n := List.mem_range.1 hi
  have hle : (i + 1) * n ≤ l.length := (Nat.mul_le_mul_right n hlt).trans (Nat.div_mul_le_self _ _)
  have hsucc : (i + 1) * n = i * n + n := Nat.succ_mul i n
  rw [List.length_take, List.length_drop]
  omega

/-- Whole blocks at the front are the first blocks. -/
theorem blocks_append {t r : List α} (hn : 0 < n) (h : n ∣ t.length) :
    blocks n (t ++ r) = blocks n t ++ blocks n r := by
  obtain ⟨k, hk⟩ := h
  have hdiv : t.length / n = k := by rw [hk, Nat.mul_div_cancel_left k hn]
  have hadd : (t ++ r).length / n = k + r.length / n := by
    rw [List.length_append, hk, Nat.mul_add_div hn]
  unfold blocks
  rw [hadd, hdiv, List.range_add, List.map_append, List.map_map]
  congr 1
  · refine List.map_congr_left fun i hi => ?_
    have hlt : i + 1 ≤ k := List.mem_range.1 hi
    have hle : (i + 1) * n ≤ n * k := by
      rw [Nat.mul_comm n k]
      exact Nat.mul_le_mul_right n hlt
    have hsucc : (i + 1) * n = i * n + n := Nat.succ_mul i n
    rw [List.drop_append_of_le_length (by omega), List.take_append_of_le_length]
    rw [List.length_drop]
    omega
  · refine List.map_congr_left fun i _ => ?_
    have hmul : (k + i) * n = t.length + i * n := by rw [hk, Nat.add_mul, Nat.mul_comm]
    dsimp only [Function.comp_apply]
    rw [hmul, List.drop_length_add_append]

/-- Whole blocks at the front do not change what is left. -/
theorem remainder_append {t r : List α} (hn : 0 < n) (h : n ∣ t.length) :
    remainder n (t ++ r) = remainder n r := by
  obtain ⟨k, hk⟩ := h
  have hadd : (t ++ r).length / n * n = t.length + r.length / n * n := by
    rw [List.length_append, hk, Nat.mul_add_div hn, Nat.add_mul, Nat.mul_comm]
  unfold remainder
  rw [hadd, List.drop_length_add_append]

/-- A list is its blocks and what is left. -/
theorem take_append_remainder (n : ℕ) (l : List α) :
    l.take (l.length / n * n) ++ remainder n l = l := List.take_append_drop _ l

/-- The elements that are in blocks are whole blocks. -/
theorem dvd_length_take (n : ℕ) (l : List α) : n ∣ (l.take (l.length / n * n)).length := by
  rw [List.length_take, Nat.min_eq_left (Nat.div_mul_le_self _ _)]
  exact Nat.dvd_mul_left n _

/-- What is left has no block. -/
theorem blocks_remainder (hn : 0 < n) (l : List α) : blocks n (remainder n l) = [] :=
  blocks_of_lt ((length_remainder l).trans_lt (Nat.mod_lt _ hn))

/-- The blocks of a list are those of the elements that are in blocks. -/
theorem blocks_take (hn : 0 < n) (l : List α) :
    blocks n (l.take (l.length / n * n)) = blocks n l := by
  calc blocks n (l.take (l.length / n * n))
      = blocks n (l.take (l.length / n * n)) ++ blocks n (remainder n l) := by
        rw [blocks_remainder hn, List.append_nil]
    _ = blocks n (l.take (l.length / n * n) ++ remainder n l) :=
        (blocks_append hn (dvd_length_take n l)).symm
    _ = blocks n l := by rw [take_append_remainder]

/-- The blocks after one more chunk: those before, and those of what was left with the chunk. -/
theorem blocks_append_remainder (hn : 0 < n) (l chunk : List α) :
    blocks n (l ++ chunk) = blocks n l ++ blocks n (remainder n l ++ chunk) := by
  calc blocks n (l ++ chunk)
      = blocks n (l.take (l.length / n * n) ++ (remainder n l ++ chunk)) := by
        rw [← List.append_assoc, take_append_remainder]
    _ = blocks n l ++ blocks n (remainder n l ++ chunk) := by
        rw [blocks_append hn (dvd_length_take n l), blocks_take hn]

/-- What is left after one more chunk. -/
theorem remainder_append_remainder (hn : 0 < n) (l chunk : List α) :
    remainder n (l ++ chunk) = remainder n (remainder n l ++ chunk) := by
  calc remainder n (l ++ chunk)
      = remainder n (l.take (l.length / n * n) ++ (remainder n l ++ chunk)) := by
        rw [← List.append_assoc, take_append_remainder]
    _ = remainder n (remainder n l ++ chunk) := remainder_append hn (dvd_length_take n l)

/-- A block is the only block of itself. -/
theorem blocks_self {l : List α} (hn : 0 < n) (h : l.length = n) : blocks n l = [l] := by
  unfold blocks
  rw [h, Nat.div_self hn]
  simp [List.take_of_length_le h.le]

/-- The elements of the blocks, one block after the other. -/
theorem flatten_blocks (hn : 0 < n) {l : List α} (h : n ∣ l.length) : (blocks n l).flatten = l := by
  obtain ⟨k, hk⟩ := h
  induction k generalizing l with
  | zero =>
    have hnil : l = [] := List.length_eq_zero_iff.1 (hk.trans (Nat.mul_zero n))
    rw [hnil, blocks_of_lt (by simpa using hn), List.flatten_nil]
  | succ k ih =>
    have hfirst : (l.take n).length = n := by
      rw [List.length_take, hk]
      exact Nat.min_eq_left (Nat.le_mul_of_pos_right n k.succ_pos)
    have hrest : (l.drop n).length = n * k := by
      rw [List.length_drop, hk, Nat.mul_succ]
      omega
    calc (blocks n l).flatten
        = (blocks n (l.take n) ++ blocks n (l.drop n)).flatten := by
          rw [← blocks_append hn ⟨1, by omega⟩, List.take_append_drop]
      _ = l.take n ++ l.drop n := by
          rw [blocks_self hn hfirst, List.flatten_append, ih hrest]
          simp
      _ = l := List.take_append_drop n l

end Blocks

/-! ## Chains -/

section Chains

variable {σ β : Type*} {compress : σ → β → σ}

/-- The inputs of the compression function in a chain: for each block the state before it, and the
block. -/
def chainInputs (compress : σ → β → σ) : σ → List β → List (σ × β)
  | _, [] => []
  | s, b :: l => (s, b) :: chainInputs compress (compress s b) l

/-- Two chains collide: two different inputs of the compression function, one of each chain, have
one result. -/
def Collide (compress : σ → β → σ) (s : σ) (l : List β) (s' : σ) (l' : List β) : Prop :=
  ∃ x ∈ chainInputs compress s l, ∃ x' ∈ chainInputs compress s' l',
    x ≠ x' ∧ compress x.1 x.2 = compress x'.1 x'.2

instance [DecidableEq σ] [DecidableEq β] (s : σ) (l : List β) (s' : σ) (l' : List β) :
    Decidable (Collide compress s l s' l') :=
  inferInstanceAs (Decidable (∃ x ∈ chainInputs compress s l, _))

/-- The last input of a chain. -/
theorem chainInputs_append_singleton (s : σ) (l : List β) (b : β) :
    chainInputs compress s (l ++ [b]) = chainInputs compress s l ++ [(l.foldl compress s, b)] := by
  induction l generalizing s with
  | nil => rfl
  | cons c l ih => exact congrArg ((s, c) :: ·) (ih (compress s c))

/-- Two chains collide at their last blocks, when the last inputs differ. -/
theorem collide_of_last_ne {s s' : σ} {l l' : List β} {b b' : β}
    (h : (l ++ [b]).foldl compress s = (l' ++ [b']).foldl compress s')
    (hne : (l.foldl compress s, b) ≠ (l'.foldl compress s', b')) :
    Collide compress s (l ++ [b]) s' (l' ++ [b']) := by
  have hmem : ∀ (s : σ) (l : List β) (b : β),
      (l.foldl compress s, b) ∈ chainInputs compress s (l ++ [b]) := fun s l b => by
    rw [chainInputs_append_singleton]
    exact List.mem_append_right _ (List.mem_singleton_self _)
  rw [List.foldl_concat, List.foldl_concat] at h
  exact ⟨_, hmem s l b, _, hmem s' l' b', hne, h⟩

/-- Chains that collide still do so with one more block each. -/
theorem Collide.append_singleton {s s' : σ} {l l' : List β} (h : Collide compress s l s' l')
    (b b' : β) : Collide compress s (l ++ [b]) s' (l' ++ [b']) := by
  obtain ⟨x, hx, x', hx', hne, heq⟩ := h
  refine ⟨x, ?_, x', ?_, hne, heq⟩
  · rw [chainInputs_append_singleton]
    exact List.mem_append_left _ hx
  · rw [chainInputs_append_singleton]
    exact List.mem_append_left _ hx'

/-- Two different chains of the same length with one result collide. -/
theorem collide_of_length_eq {s s' : σ} {l l' : List β} (hlen : l.length = l'.length)
    (hne : (s, l) ≠ (s', l')) (h : l.foldl compress s = l'.foldl compress s') :
    Collide compress s l s' l' := by
  -- From the last blocks to the first: the chains before two equal blocks are again different
  -- chains with one result, unless the last inputs differ.
  induction l using List.reverseRecOn generalizing l' with
  | nil =>
    have hnil : l' = [] := List.length_eq_zero_iff.1 hlen.symm
    subst hnil
    exact absurd (congrArg (·, []) h) hne
  | append_singleton l b ih =>
    cases l' using List.reverseRecOn with
    | nil => simp at hlen
    | append_singleton l' b' =>
      by_cases hlast : (l.foldl compress s, b) = (l'.foldl compress s', b')
      · obtain ⟨hstate, rfl⟩ := Prod.mk.inj hlast
        refine (ih (by simpa using hlen) (fun heq => hne ?_) hstate).append_singleton b b
        rw [(Prod.mk.inj heq).1, (Prod.mk.inj heq).2]
      · exact collide_of_last_ne h hlast

end Chains

end TenProf
