import TenProf.GpuPatch.AuxTorchview
import Mathlib.Data.Set.Basic

/-!
# The round trip of the on-GPU bitmaps

The device sets bits in the rows of `read_pc_range_bit_map` and `write_pc_range_bit_map`
(`GpuPatch/AuxTorchview.lean`), and the loops of `TorchView::kernel_op_callback` read them back:
`decode` lists the pairs of an instruction offset and a range position whose bit is set. Starting
from zeroed bitmaps, a bit of the decoded word comes from some access of the row and column whose
mask has it (`getLsbD_bitMapOf_foldl`).

The host's mask is a 64-bit shift and the device's a 32-bit one. So the positions below 31 of a
column are decoded as they were found, and the positions from 31 on are decoded all together,
exactly when the one at 31 was found (`mem_decode_iff`). `decode_eq_found_iff` says when that is
the set that the device found: when those of them that exist were found all or not at all.
-/

namespace TenProf.TorchView

open GpuPatch

/-- The bitmap of a direction, `READ` or `WRITE`. -/
def bitMapOf (flag : ℕ) (dict : TorchviewDict) : ℕ → BitVec 64 :=
  if flag = READ then dict.read_pc_range_bit_map else dict.write_pc_range_bit_map

/-- The mapped rows of a direction. -/
def pcSizeOf (flag : ℕ) (dict : TorchviewDict) : ℕ :=
  if flag = READ then dict.current_read_pc_size else dict.current_write_pc_size

/-- The positions that the host reads back from the row `r_i`, for a snapshot of `size` ranges. -/
def decodeRow (bit_map : ℕ → BitVec 64) (size r_i : ℕ) : List ℕ :=
  let map_column_size := size / 64
  (List.range (map_column_size + 1)).flatMap fun r_j =>
    let range_group := bit_map (r_i * (map_column_size + 2) + r_j)
    if range_group = 0 then []
    else (List.range 64).filterMap fun shift_offset =>
      let flag := 1#64 <<< shift_offset
      if range_group &&& flag = flag then
        let adv := r_j * 64 + shift_offset
        if adv ≥ size then none else some adv
      else none

/-- The pairs of an instruction offset and a range position that the host's loops log. -/
def decode (bit_map : ℕ → BitVec 64) (size pc_size : ℕ) : List (ℕ × ℕ) :=
  (List.range pc_size).flatMap fun r_i =>
    (decodeRow bit_map size r_i).map fun adv => (r_i * 8, adv)

/-- The pairs of an instruction offset and a position at which the device found an address of an
access in the direction `flag`. -/
def found (dict : TorchviewDict) (as : List Access) (flag : ℕ) : Set (ℕ × ℕ) :=
  {x | ∃ a ∈ as, a.flags = flag ∧ a.pc = dict.function_pc_offset + x.1 ∧
    dict.findRange a.address = some x.2}

/-- An access of the kernel: a read or a write by an instruction with a mapped row. -/
structure Mapped (dict : TorchviewDict) (a : Access) : Prop where
  /-- The access is a read or a write. -/
  flags : a.flags = READ ∨ a.flags = WRITE
  /-- The instruction's offset is a multiple of 8 below the mapped rows. -/
  row : ∃ r < pcSizeOf a.flags dict, a.pc = dict.function_pc_offset + 8 * r
  /-- The instruction's address is a word. -/
  pc_lt : a.pc < 2^64

/-- In each row and each column, the positions from 31 on are in the set all or not at all. -/
def HighTogether (size : ℕ) (F : Set (ℕ × ℕ)) : Prop :=
  ∀ pc p q, (pc, p) ∈ F → 31 ≤ p % 64 → q < size → q / 64 = p / 64 → 31 ≤ q % 64 → (pc, q) ∈ F

/-- A word has the flag of a bit exactly when it has the bit. -/
theorem and_flag_eq_iff (w : BitVec 64) {k : ℕ} (hk : k < 64) :
    w &&& (1#64 <<< k) = 1#64 <<< k ↔ w.getLsbD k = true := by
  constructor
  · intro h
    have hbit := congrArg (·.getLsbD k) h
    simpa [hk] using hbit
  · intro h
    ext i hi
    rcases eq_or_ne i k with rfl | hne
    · simpa [hi] using h
    · have h1 : (1#64 <<< k).getLsbD i = false := by
        simp only [BitVec.getLsbD_shiftLeft, BitVec.getLsbD_one, Bool.and_eq_false_iff,
          Bool.not_eq_false', decide_eq_true_eq, decide_eq_false_iff_not]
        omega
      rw [← BitVec.getLsbD_eq_getElem, ← BitVec.getLsbD_eq_getElem, BitVec.getLsbD_and, h1,
        Bool.and_false]

/-- The host reads a position back from a row exactly when its bit is set there. -/
theorem mem_decodeRow (bit_map : ℕ → BitVec 64) (size r p : ℕ) :
    p ∈ decodeRow bit_map size r ↔
      p < size ∧ (bit_map (r * (size / 64 + 2) + p / 64)).getLsbD (p % 64) = true := by
  simp only [decodeRow, List.mem_flatMap, List.mem_range]
  constructor
  · rintro ⟨c, -, hmem⟩
    split_ifs at hmem with hzero
    · simp at hmem
    · simp only [List.mem_filterMap, List.mem_range, Option.ite_none_right_eq_some,
        Option.ite_none_left_eq_some, Option.some.injEq] at hmem
      obtain ⟨k, hk, hflag, hlt, rfl⟩ := hmem
      have hdiv : (c * 64 + k) / 64 = c := by omega
      have hmod : (c * 64 + k) % 64 = k := by omega
      rw [hdiv, hmod]
      exact ⟨by omega, (and_flag_eq_iff _ hk).1 hflag⟩
  · rintro ⟨hlt, hbit⟩
    have hk : p % 64 < 64 := Nat.mod_lt _ (by norm_num)
    refine ⟨p / 64, by omega, ?_⟩
    rw [if_neg fun hzero => by simp [hzero] at hbit]
    simp only [List.mem_filterMap, List.mem_range, Option.ite_none_right_eq_some,
      Option.ite_none_left_eq_some, Option.some.injEq]
    exact ⟨p % 64, hk, (and_flag_eq_iff _ hk).2 hbit, by omega, by omega⟩

/-- The host logs a pair exactly when the offset is a row's and the bit is set in that row. -/
theorem mem_decode (bit_map : ℕ → BitVec 64) (size pc_size : ℕ) (x : ℕ × ℕ) :
    x ∈ decode bit_map size pc_size ↔
      ∃ r < pc_size, x.1 = 8 * r ∧ x.2 < size ∧
        (bit_map (r * (size / 64 + 2) + x.2 / 64)).getLsbD (x.2 % 64) = true := by
  simp only [decode, List.mem_flatMap, List.mem_range, List.mem_map, mem_decodeRow]
  constructor
  · rintro ⟨r, hr, p, ⟨hp, hbit⟩, rfl⟩
    exact ⟨r, hr, Nat.mul_comm _ _, hp, hbit⟩
  · rintro ⟨r, hr, h1, hp, hbit⟩
    exact ⟨r, hr, x.2, ⟨hp, hbit⟩, Prod.ext (by rw [h1, Nat.mul_comm]) rfl⟩

section Device

variable {dict : TorchviewDict} {flag : ℕ}

/-- The callback leaves the ranges and the function's offset as they are. -/
theorem memoryAccessCallback_frame (dict : TorchviewDict) (a : Access) :
    (memoryAccessCallback dict a).function_pc_offset = dict.function_pc_offset ∧
      (memoryAccessCallback dict a).view_range_size = dict.view_range_size ∧
      (memoryAccessCallback dict a).start_end = dict.start_end := by
  unfold memoryAccessCallback
  cases dict.findRange a.address with
  | none => split_ifs <;> exact ⟨rfl, rfl, rfl⟩
  | some pos => split_ifs <;> exact ⟨rfl, rfl, rfl⟩

/-- What one read or write does to the bitmap of a direction: an access of that direction whose
address is found sets bits in its row, and every other access leaves it as it is. -/
theorem bitMapOf_memoryAccessCallback (hflag : flag = READ ∨ flag = WRITE) {a : Access}
    (ha : a.flags = READ ∨ a.flags = WRITE) :
    bitMapOf flag (memoryAccessCallback dict a) =
      match if a.flags = flag then dict.findRange a.address else none with
      | some pos => setBits dict (bitMapOf flag dict) a.pc pos
      | none => bitMapOf flag dict := by
  have hglobal : a.flags &&& (SHARED ||| LOCAL) = 0 := by
    rcases ha with ha | ha <;> rw [ha] <;> decide
  unfold memoryAccessCallback
  rw [if_pos hglobal]
  cases dict.findRange a.address with
  | none => simp
  | some pos =>
    rcases ha with ha | ha <;> rcases hflag with rfl | rfl <;> simp [ha, bitMapOf, READ, WRITE]

/-- The word of the row and column in which an access sets its bits. -/
def wordOf (dict : TorchviewDict) (pc pos : ℕ) : ℕ :=
  subU64 pc dict.function_pc_offset / 8 * (dict.view_range_size / 64 + 2) + pos / 64

/-- After a sequence of accesses, a bit of the direction's bitmap is set exactly when it was set
before or some access of the direction found its address and has the bit in its mask. -/
theorem getLsbD_bitMapOf_foldl (hflag : flag = READ ∨ flag = WRITE) {as : List Access}
    (has : ∀ a ∈ as, a.flags = READ ∨ a.flags = WRITE) (w k : ℕ) :
    (bitMapOf flag (as.foldl memoryAccessCallback dict) w).getLsbD k = true ↔
      (bitMapOf flag dict w).getLsbD k = true ∨
        ∃ a ∈ as, a.flags = flag ∧ ∃ pos, dict.findRange a.address = some pos ∧
          wordOf dict a.pc pos = w ∧ (bitMask pos).getLsbD k = true := by
  induction as generalizing dict with
  | nil => simp
  | cons a as ih =>
    obtain ⟨hoff, hsize, hranges⟩ := memoryAccessCallback_frame dict a
    have hfind : ∀ x, (memoryAccessCallback dict a).findRange x = dict.findRange x := by
      intro x
      simp only [TorchviewDict.findRange, hsize, hranges]
    have hword : ∀ pc pos, wordOf (memoryAccessCallback dict a) pc pos = wordOf dict pc pos := by
      intro pc pos
      simp only [wordOf, hoff, hsize]
    rw [List.foldl_cons, ih fun b hb => has b (List.mem_cons_of_mem _ hb)]
    simp only [hfind, hword, List.mem_cons, exists_eq_or_imp]
    rw [bitMapOf_memoryAccessCallback hflag (has a List.mem_cons_self), ← or_assoc]
    refine or_congr_left ?_
    by_cases hdir : a.flags = flag
    · cases hpos : dict.findRange a.address with
      | none => simp [hdir]
      | some pos =>
        -- The access changes the one word of its row and column.
        simp only [hdir, if_true, Option.some.injEq, true_and, exists_eq_left']
        have hset : setBits dict (bitMapOf flag dict) a.pc pos =
            Function.update (bitMapOf flag dict) (wordOf dict a.pc pos)
              (bitMapOf flag dict (wordOf dict a.pc pos) ||| bitMask pos) := rfl
        rw [hset]
        rcases eq_or_ne w (wordOf dict a.pc pos) with rfl | hw
        · simp
        · rw [Function.update_of_ne hw]
          simp [Ne.symm hw]
    · -- An access of the other direction leaves the bitmap as it is.
      simp [hdir]

/-- Two words are equal exactly when the row and the column are. -/
theorem wordOf_eq_iff {a : Access} (ha : Mapped dict a) {r r' pos p : ℕ}
    (hpc : a.pc = dict.function_pc_offset + 8 * r') (hpos : pos < dict.view_range_size)
    (hp : p < dict.view_range_size) :
    wordOf dict a.pc pos = r * (dict.view_range_size / 64 + 2) + p / 64 ↔
      r' = r ∧ pos / 64 = p / 64 := by
  have hrow : subU64 a.pc dict.function_pc_offset / 8 = r' := by
    rw [subU64_of_le ha.pc_lt (by omega)]
    omega
  have hcol : ∀ q, q < dict.view_range_size → q / 64 < dict.view_range_size / 64 + 2 := by
    intro q hq
    omega
  unfold wordOf
  rw [hrow]
  refine ⟨fun h => ?_, fun ⟨hr, hc⟩ => by rw [hr, hc]⟩
  -- The column is smaller than the row's length, so quotient and remainder give both back.
  generalize dict.view_range_size / 64 + 2 = c at h hcol
  have hpos' := hcol pos hpos
  have hp' := hcol p hp
  have hdiv := congrArg (· / c) h
  have hmod := congrArg (· % c) h
  have hc : 0 < c := by omega
  simp only [Nat.mul_comm _ c, Nat.mul_add_div hc, Nat.mul_add_mod, Nat.div_eq_of_lt hpos',
    Nat.div_eq_of_lt hp', Nat.mod_eq_of_lt hpos', Nat.mod_eq_of_lt hp', Nat.add_zero] at hdiv hmod
  exact ⟨hdiv, hmod⟩

/-- What the host decodes after the accesses: a position below 31 of its column if it was found, and
a position from 31 on if the one at 31 was found. -/
theorem mem_decode_iff (hflag : flag = READ ∨ flag = WRITE)
    (hzero : ∀ w, bitMapOf flag dict w = 0#64) {as : List Access}
    (has : ∀ a ∈ as, Mapped dict a) (x : ℕ × ℕ) :
    x ∈ decode (bitMapOf flag (as.foldl memoryAccessCallback dict)) dict.view_range_size
        (pcSizeOf flag dict) ↔
      x.2 < dict.view_range_size ∧ ∃ q, (x.1, q) ∈ found dict as flag ∧ q / 64 = x.2 / 64 ∧
        (x.2 % 64 = q % 64 ∧ q % 64 < 31 ∨ q % 64 = 31 ∧ 31 ≤ x.2 % 64) := by
  obtain ⟨pc, p⟩ := x
  have hk : p % 64 < 64 := Nat.mod_lt _ (by norm_num)
  simp only [mem_decode, getLsbD_bitMapOf_foldl hflag fun a ha => (has a ha).flags, hzero,
    BitVec.getLsbD_zero, Bool.false_eq_true, false_or, getLsbD_bitMask _ _ hk, decide_eq_true_eq,
    found, Set.mem_ofPred_eq]
  constructor
  · -- A bit that is decoded was set by an access of its row and column.
    rintro ⟨r, hr, rfl, hp, a, ha, hdir, pos, hpos, hword, hbit⟩
    obtain ⟨r', -, hpc⟩ := (has a ha).row
    have hpos' := TorchviewDict.findRange_lt hpos
    obtain ⟨hrow, hcol⟩ := wordOf_eq_iff (has a ha) hpc hpos' hp |>.1 hword
    subst hrow
    refine ⟨hp, pos, ⟨a, ha, hdir, by rw [hpc], hpos⟩, hcol, ?_⟩
    omega
  · -- An access that was found sets its bits in its own row.
    rintro ⟨hp, pos, ⟨a, ha, hdir, hpc, hpos⟩, hcol, hbit⟩
    obtain ⟨r, hr, hpc'⟩ := (has a ha).row
    have hrow : pc = 8 * r := by omega
    have hpos' := TorchviewDict.findRange_lt hpos
    refine ⟨r, hdir ▸ hr, hrow, hp, a, ha, hdir, pos, hpos, ?_, by omega⟩
    exact (wordOf_eq_iff (has a ha) hpc' hpos' hp).2 ⟨rfl, hcol⟩

/-- Starting from zeroed bitmaps, the host decodes exactly the pairs that the device found, for
reads and for writes, if and only if in each row and each column of 64 positions those from 31 on
were found all or not at all. -/
theorem decode_eq_found_iff (dict : TorchviewDict)
    (hread : ∀ w, dict.read_pc_range_bit_map w = 0#64)
    (hwrite : ∀ w, dict.write_pc_range_bit_map w = 0#64) (as : List Access)
    (has : ∀ a ∈ as, Mapped dict a) :
    (∀ flag, flag = READ ∨ flag = WRITE →
      {x | x ∈ decode (bitMapOf flag (as.foldl memoryAccessCallback dict)) dict.view_range_size
        (pcSizeOf flag dict)} = found dict as flag) ↔
    ∀ flag, flag = READ ∨ flag = WRITE →
      HighTogether dict.view_range_size (found dict as flag) := by
  refine forall_congr' fun flag => forall_congr' fun hflag => ?_
  have hzero : ∀ w, bitMapOf flag dict w = 0#64 := by
    intro w
    unfold bitMapOf
    split_ifs
    · exact hread w
    · exact hwrite w
  simp only [Set.ext_iff, Set.mem_ofPred_eq, mem_decode_iff hflag hzero has]
  constructor
  · -- A found position from 31 on is decoded, so 31 was found, so all from 31 on are decoded.
    intro h pc p q hp h31 hq hcol hq31
    obtain ⟨-, r, hr, hrcol, hbit⟩ := (h (pc, p)).2 hp
    dsimp only at hrcol hbit
    exact (h (pc, q)).1 ⟨hq, r, hr, by dsimp only; omega, by dsimp only; omega⟩
  · -- Below 31 a position is decoded for itself, and from 31 on for the one at 31.
    rintro h ⟨pc, p⟩
    dsimp only
    constructor
    · rintro ⟨hp, q, hq, hcol, hlow | hhigh⟩
      · have hpq : p = q := by omega
        exact hpq ▸ hq
      · exact h pc q p hq (by omega) hp hcol.symm hhigh.2
    · rintro hp
      have hlt : p < dict.view_range_size := by
        obtain ⟨a, -, -, -, hpos⟩ := hp
        exact TorchviewDict.findRange_lt hpos
      refine ⟨hlt, ?_⟩
      by_cases h31 : p % 64 < 31
      · exact ⟨p, hp, rfl, Or.inl ⟨rfl, h31⟩⟩
      · -- The position at 31 of the column was found too.
        have hq : (pc, p / 64 * 64 + 31) ∈ found dict as flag :=
          h pc p _ hp (by omega) (by omega) (by omega) (by omega)
        exact ⟨_, hq, by omega, Or.inr ⟨by omega, by omega⟩⟩

/-- A dictionary with 33 ranges of 8 bytes, 16 bytes apart, and one row for either direction. -/
def dict33 : TorchviewDict where
  function_pc_offset := 0
  view_range_size := 33
  start_end i := ⟨16 * i, 16 * i + 8⟩
  current_read_pc_size := 1
  current_write_pc_size := 1
  read_pc_range_bit_map _ := 0
  write_pc_range_bit_map _ := 0

/-- An access to the first of the 33 ranges makes the round trip, in both directions. -/
theorem decode_eq_found_dict33 :
    {x | x ∈ decode (bitMapOf READ ([⟨0, 4, READ⟩].foldl memoryAccessCallback dict33)) 33
      (pcSizeOf READ dict33)} = found dict33 [⟨0, 4, READ⟩] READ ∧
    {x | x ∈ decode (bitMapOf WRITE ([⟨0, 4, READ⟩].foldl memoryAccessCallback dict33)) 33
      (pcSizeOf WRITE dict33)} = found dict33 [⟨0, 4, READ⟩] WRITE := by
  have hfind : dict33.findRange 4 = some 0 := by decide +kernel
  have hmapped : ∀ a ∈ [(⟨0, 4, READ⟩ : Access)], Mapped dict33 a := by
    intro a ha
    obtain rfl := List.mem_singleton.1 ha
    exact ⟨Or.inl rfl, ⟨0, by decide, rfl⟩, by norm_num⟩
  -- The only position found is 0, so nothing is found from 31 on.
  have hhigh : ∀ flag, flag = READ ∨ flag = WRITE →
      HighTogether 33 (found dict33 [⟨0, 4, READ⟩] flag) := by
    rintro flag - pc p q ⟨a, ha, -, -, hpos⟩ hp
    obtain rfl := List.mem_singleton.1 ha
    rw [hfind, Option.some.injEq] at hpos
    dsimp only at hpos
    omega
  have hround := (decode_eq_found_iff dict33 (fun _ => rfl) (fun _ => rfl) _ hmapped).2 hhigh
  exact ⟨hround READ (Or.inl rfl), hround WRITE (Or.inr rfl)⟩

/-- An access to the last of the 33 ranges is lost: the device finds it and sets no bit. -/
theorem decode_ne_found_dict33 : ¬∀ (dict : TorchviewDict) (as : List Access),
    (∀ w, dict.read_pc_range_bit_map w = 0#64) → (∀ w, dict.write_pc_range_bit_map w = 0#64) →
    (∀ a ∈ as, Mapped dict a) →
    {x | x ∈ decode (bitMapOf READ (as.foldl memoryAccessCallback dict)) dict.view_range_size
      (pcSizeOf READ dict)} = found dict as READ := by
  intro h
  have hfind : dict33.findRange 516 = some 32 := by decide +kernel
  have hdecode : decode (bitMapOf READ ([⟨0, 516, READ⟩].foldl memoryAccessCallback dict33)) 33
      (pcSizeOf READ dict33) = [] := by decide +kernel
  have hfound : (0, 32) ∈ found dict33 [⟨0, 516, READ⟩] READ :=
    ⟨_, List.mem_singleton_self _, rfl, rfl, hfind⟩
  have hmapped : ∀ a ∈ [(⟨0, 516, READ⟩ : Access)], Mapped dict33 a := by
    intro a ha
    obtain rfl := List.mem_singleton.1 ha
    exact ⟨Or.inl rfl, ⟨0, by decide, rfl⟩, by norm_num⟩
  rw [← h dict33 _ (fun _ => rfl) (fun _ => rfl) hmapped] at hfound
  change (0, 32) ∈ decode _ 33 _ at hfound
  rw [hdecode] at hfound
  exact List.not_mem_nil hfound

end Device

end TenProf.TorchView
