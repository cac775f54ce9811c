import TenProf.Library.While
import TenProf.TorchView.Strides

/-!
# The search for a starting address on words

`find_local_starting_address` as it is compiled, a tail recursion on 64-bit words. It goes on with
the elements before the middle one or with those behind it, and of these the slice may be one
element too long when the size is odd. As long as the addresses that it forms are words, it does
what `findLocalStartingAddress` does on numbers (`settles_localSearch`), and there the slice that is
too long is never seen: an address in the range of the elements ends at the last element that starts
at the address or before (`find_local_starting_address_spec`).
-/

namespace TenProf.TorchView

/-- The address of the element in the middle of a slice. -/
def middle (init_address size stride itemsize : ℕ) : ℕ :=
  init_address + (size - 1) / 2 * itemsize * stride

/-- A call of `find_local_starting_address` for a slice, which ends with an address or with another
call. -/
def localTurn (stride itemsize mem_addr_hit : ℕ) : ℕ × ℕ → ℕ × ℕ ⊕ ℕ
  | (init_address, size) =>
    if 1 ≤ size then
      let sit := u64 (init_address + u64 (u64 ((size - 1) / 2 * itemsize) * stride))
      if sit = mem_addr_hit then .inr sit
      else if mem_addr_hit < sit then .inl (init_address, (size - 1) / 2)
      else if mem_addr_hit < u64 (sit + u64 (itemsize * stride)) then .inr sit
      else if stride ≠ 0 then
        .inl (u64 (sit + u64 (itemsize * stride)), size - size / 2)
      else .inr sit
    else .inr 0

/-- `find_local_starting_address` with at most as many calls as the bound. -/
def localSearch (fuel init_address size stride itemsize mem_addr_hit : ℕ) : Option ℕ :=
  loop (localTurn stride itemsize mem_addr_hit) fuel (init_address, size)

section NoOverflow

variable (stride itemsize mem_addr_hit : ℕ)

/-- The slices that the search goes through, with the addresses as numbers. -/
inductive Searched : ℕ × ℕ → ℕ × ℕ → Prop
  | here (s : ℕ × ℕ) : Searched s s
  | lower {init_address size : ℕ} {s : ℕ × ℕ} (hsize : 1 ≤ size)
      (hhit : mem_addr_hit < middle init_address size stride itemsize)
      (hrest : Searched (init_address, (size - 1) / 2) s) : Searched (init_address, size) s
  | upper {init_address size : ℕ} {s : ℕ × ℕ} (hsize : 1 ≤ size) (hstride : stride ≠ 0)
      (hhit : middle init_address size stride itemsize + itemsize * stride ≤ mem_addr_hit)
      (hrest : Searched (middle init_address size stride itemsize + itemsize * stride,
        size - size / 2) s) : Searched (init_address, size) s

/-- No address that the search forms is larger than a word: those of the middle elements, and those
of the elements behind them where it looks at these. -/
def NoOverflow (init_address size : ℕ) : Prop :=
  ∀ s, Searched stride itemsize mem_addr_hit (init_address, size) s → 1 ≤ s.2 →
    middle s.1 s.2 stride itemsize < 2^64 ∧
      (middle s.1 s.2 stride itemsize < mem_addr_hit →
        middle s.1 s.2 stride itemsize + itemsize * stride < 2^64)

end NoOverflow

section Search

variable {init_address size stride itemsize mem_addr_hit : ℕ}

/-- On addresses that do not overflow, a call on words is one on numbers. -/
theorem localTurn_eq (hsize : 1 ≤ size)
    (hno : NoOverflow stride itemsize mem_addr_hit init_address size) :
    localTurn stride itemsize mem_addr_hit (init_address, size) =
      if middle init_address size stride itemsize = mem_addr_hit then
        .inr (middle init_address size stride itemsize)
      else if mem_addr_hit < middle init_address size stride itemsize then
        .inl (init_address, (size - 1) / 2)
      else if mem_addr_hit < middle init_address size stride itemsize + itemsize * stride then
        .inr (middle init_address size stride itemsize)
      else if stride ≠ 0 then
        .inl (middle init_address size stride itemsize + itemsize * stride, size - size / 2)
      else .inr (middle init_address size stride itemsize) := by
  obtain ⟨hmid, hnext⟩ := hno _ (.here _) hsize
  have hsit : u64 (init_address + u64 (u64 ((size - 1) / 2 * itemsize) * stride)) =
      middle init_address size stride itemsize := by
    have hproduct : u64 (u64 ((size - 1) / 2 * itemsize) * stride) =
        (size - 1) / 2 * itemsize * stride := by
      unfold u64
      rw [Nat.mod_mul_mod]
      exact Nat.mod_eq_of_lt (lt_of_le_of_lt (Nat.le_add_left _ _) hmid)
    rw [hproduct]
    exact u64_of_lt hmid
  unfold localTurn
  dsimp only
  rw [if_pos hsize, hsit]
  by_cases heq : middle init_address size stride itemsize = mem_addr_hit
  · rw [if_pos heq, if_pos heq]
  · rw [if_neg heq, if_neg heq]
    by_cases hlt : mem_addr_hit < middle init_address size stride itemsize
    · rw [if_pos hlt, if_pos hlt]
    · -- Only here the element behind the middle one is looked at.
      have hword := hnext (lt_of_le_of_ne (not_lt.1 hlt) heq)
      have hstep : u64 (middle init_address size stride itemsize + u64 (itemsize * stride)) =
          middle init_address size stride itemsize + itemsize * stride := by
        rw [u64_of_lt (lt_of_le_of_lt (Nat.le_add_left _ _) hword)]
        exact u64_of_lt hword
      rw [if_neg hlt, if_neg hlt, hstep]

/-- The slice before the middle element overflows no more than the whole one. -/
theorem NoOverflow.lower (hno : NoOverflow stride itemsize mem_addr_hit init_address size)
    (hsize : 1 ≤ size) (hhit : mem_addr_hit < middle init_address size stride itemsize) :
    NoOverflow stride itemsize mem_addr_hit init_address ((size - 1) / 2) :=
  fun s hs => hno s (.lower hsize hhit hs)

/-- The slice behind the middle element overflows no more than the whole one. -/
theorem NoOverflow.upper (hno : NoOverflow stride itemsize mem_addr_hit init_address size)
    (hsize : 1 ≤ size) (hstride : stride ≠ 0)
    (hhit : middle init_address size stride itemsize + itemsize * stride ≤ mem_addr_hit) :
    NoOverflow stride itemsize mem_addr_hit
      (middle init_address size stride itemsize + itemsize * stride) (size - size / 2) :=
  fun s hs => hno s (.upper hsize hstride hhit hs)

/-- The slices start no later than the whole one or the address, and have no more elements. -/
theorem Searched.bound {s s' : ℕ × ℕ} (h : Searched stride itemsize mem_addr_hit s s') {b n : ℕ}
    (hhit : mem_addr_hit ≤ b) (hinit : s.1 ≤ b) (hsize : s.2 ≤ n) : s'.1 ≤ b ∧ s'.2 ≤ n := by
  induction h with
  | here s => exact ⟨hinit, hsize⟩
  | lower _ _ _ ih =>
    dsimp only at hinit hsize
    exact ih hinit (by omega)
  | upper _ _ hle _ ih =>
    dsimp only at hsize
    exact ih (hle.trans hhit) (by omega)

/-- No address overflows when there is room for all elements behind the start and the address. -/
theorem noOverflow_of_lt
    (hroom : max init_address mem_addr_hit + (size + 1) * (stride * itemsize) < 2^64) :
    NoOverflow stride itemsize mem_addr_hit init_address size := by
  intro s hs hpos
  obtain ⟨hstart, hsize⟩ := hs.bound (le_max_right init_address _) (le_max_left _ _) le_rfl
  have hmiddle : middle s.1 s.2 stride itemsize =
      s.1 + (s.2 - 1) / 2 * (stride * itemsize) := by
    unfold middle
    ring
  have hstep : itemsize * stride = stride * itemsize := Nat.mul_comm ..
  have hhalf : (s.2 - 1) / 2 * (stride * itemsize) ≤ size * (stride * itemsize) :=
    Nat.mul_le_mul_right _ (by omega)
  have hone : stride * itemsize ≤ (size + 1) * (stride * itemsize) :=
    Nat.le_mul_of_pos_left _ (Nat.succ_pos size)
  have hsucc : (size + 1) * (stride * itemsize) =
      size * (stride * itemsize) + stride * itemsize := Nat.succ_mul ..
  rw [hmiddle, hstep]
  exact ⟨by omega, fun hlt => by omega⟩

/-- The search on words ends with what the search on numbers finds. -/
theorem settles_localSearch (hpos : 0 < itemsize)
    (hno : NoOverflow stride itemsize mem_addr_hit init_address size) :
    Settles (fun fuel => localSearch fuel init_address size stride itemsize mem_addr_hit)
      (findLocalStartingAddress init_address size stride itemsize mem_addr_hit hpos) := by
  unfold localSearch
  -- By induction on the calls of the search on numbers.
  fun_induction findLocalStartingAddress init_address size stride itemsize mem_addr_hit hpos with
  | case1 init_address size hsize sit hsit =>
    refine settles_of_inr ?_
    rw [localTurn_eq hsize hno]
    exact if_pos hsit
  | case2 init_address size hsize sit hne hlt ih =>
    refine Settles.of_inl ?_ (ih (hno.lower hsize hlt))
    rw [localTurn_eq hsize hno]
    exact (if_neg hne).trans (if_pos hlt)
  | case3 init_address size hsize sit hne hge hlt =>
    refine settles_of_inr ?_
    rw [localTurn_eq hsize hno]
    exact (if_neg hne).trans ((if_neg hge).trans (if_pos hlt))
  | case4 init_address size hsize sit hne hge hnext hstride ih =>
    refine Settles.of_inl ?_ (ih (hno.upper hsize hstride (not_lt.1 hnext)))
    rw [localTurn_eq hsize hno]
    exact (if_neg hne).trans ((if_neg hge).trans ((if_neg hnext).trans (if_pos hstride)))
  | case5 init_address size hsize sit hne hge hnext hstride =>
    refine settles_of_inr ?_
    rw [localTurn_eq hsize hno]
    exact (if_neg hne).trans ((if_neg hge).trans ((if_neg hnext).trans (if_neg hstride)))
  | case6 init_address size hsize => exact settles_of_inr (if_neg hsize)

/-- Without elements, and for an address before the first one, the search ends at `0`. -/
theorem findLocalStartingAddress_eq_zero (hpos : 0 < itemsize)
    (h : size = 0 ∨ mem_addr_hit < init_address) :
    findLocalStartingAddress init_address size stride itemsize mem_addr_hit hpos = 0 := by
  rcases Nat.eq_zero_or_pos size with rfl | hsize
  · unfold findLocalStartingAddress
    exact if_neg (by decide)
  · rw [findLocalStartingAddress_eq hpos hsize, if_pos (h.resolve_left hsize.ne')]

/-- For an address in the range of the elements the search ends at the last element that starts at
the address or before. -/
theorem findLocalStartingAddress_of_mem (hpos : 0 < itemsize) (hstride : 1 ≤ stride)
    (hle : init_address ≤ mem_addr_hit)
    (hlt : mem_addr_hit < init_address + size * stride * itemsize) :
    ∃ k < size, findLocalStartingAddress init_address size stride itemsize mem_addr_hit hpos =
        init_address + k * stride * itemsize ∧
      init_address + k * stride * itemsize ≤ mem_addr_hit ∧
      ∀ k', init_address + k' * stride * itemsize ≤ mem_addr_hit → k' ≤ k := by
  obtain ⟨d, rfl⟩ : ∃ d, mem_addr_hit = init_address + d := ⟨mem_addr_hit - init_address, by omega⟩
  have hstep : 0 < stride * itemsize := Nat.mul_pos hstride hpos
  have hwidth : ∀ k, k * stride * itemsize = k * (stride * itemsize) := fun k => Nat.mul_assoc ..
  simp only [hwidth] at hlt ⊢
  generalize hw : stride * itemsize = w at hstep hlt ⊢
  have hk : d / w < size := (Nat.div_lt_iff_lt_mul hstep).2 (by omega)
  refine ⟨d / w, hk, ?_, ?_, fun k' hk' => ?_⟩
  · rw [findLocalStartingAddress_eq hpos (Nat.zero_lt_of_lt hk), if_neg (by omega), hw,
      Nat.add_sub_cancel_left]
    have hdiv := Nat.div_add_mod' d w
    omega
  · exact Nat.add_le_add_left (Nat.div_mul_le_self d w) _
  · exact (Nat.le_div_iff_mul_le hstep).2 (by omega)

/-- On addresses without overflow the search ends, at `0` without elements and before the first one,
and in their range at the last element that starts at the address or before. -/
theorem find_local_starting_address_spec (hpos : 1 ≤ itemsize)
    (hno : NoOverflow stride itemsize mem_addr_hit init_address size) :
    ∃ sit, Settles (fun fuel => localSearch fuel init_address size stride itemsize mem_addr_hit)
        sit ∧
      (size = 0 ∨ mem_addr_hit < init_address → sit = 0) ∧
      (1 ≤ stride → init_address ≤ mem_addr_hit →
        mem_addr_hit < init_address + size * stride * itemsize →
        ∃ k < size, sit = init_address + k * stride * itemsize ∧ sit ≤ mem_addr_hit ∧
          ∀ k', init_address + k' * stride * itemsize ≤ mem_addr_hit → k' ≤ k) := by
  refine ⟨_, settles_localSearch hpos hno, findLocalStartingAddress_eq_zero hpos, ?_⟩
  intro hstride hle hlt
  obtain ⟨k, hk, heq, hsit, hlast⟩ := findLocalStartingAddress_of_mem hpos hstride hle hlt
  exact ⟨k, hk, heq, heq ▸ hsit, hlast⟩

/-- Five elements of four bytes, three elements apart. -/
theorem find_local_starting_address_five :
    ∃ sit, Settles (fun fuel => localSearch fuel 1000 5 3 4 1030) sit ∧
      (5 = 0 ∨ 1030 < 1000 → sit = 0) ∧
      (1 ≤ 3 → 1000 ≤ 1030 → 1030 < 1000 + 5 * 3 * 4 →
        ∃ k < 5, sit = 1000 + k * 3 * 4 ∧ sit ≤ 1030 ∧
          ∀ k', 1000 + k' * 3 * 4 ≤ 1030 → k' ≤ k) :=
  find_local_starting_address_spec (by decide) (noOverflow_of_lt (by norm_num))

end Search

end TenProf.TorchView
