import TenProf.TorchView.AccessLog

/-!
# Dead writes

A write of a view is dead when the access of the view before it was a write as well
(`lastIsWrite`). What the analysis knows of the access before is one flag of the node,
`is_memory_write_pc`, and each of the loops that process accesses deals with it in its own way
(`flagAfter`): the CPU mode clears it at a read and never sets it, the on-GPU mode sets it at a
write and never clears it, and only the mapping of delayed accesses does both. So the writes that
the flag tells dead are those that are dead exactly when every write finds the flag current
(`deadWrites_flagAfter_iff`).
-/

namespace TenProf.TorchView

/-- The access is a write of a kernel, for which a pair may be appended. -/
def ViewAccess.IsKernelWrite (b : ViewAccess) : Prop := b.loop ≠ .delayed ∧ b.write = true

instance (b : ViewAccess) : Decidable b.IsKernelWrite := inferInstanceAs (Decidable (_ ∧ _))

/-- The pairs of the writes of a view that are dead by a rule on the accesses before. -/
def deadWrites (rule : List ViewAccess → Bool) : List ViewAccess → List ViewAccess → List (ℕ × ℕ)
  | _, [] => []
  | before, b :: later =>
    (if b.IsKernelWrite ∧ rule before then [(b.aten_copy_pystate_hash, b.pc)] else []) ++
      deadWrites rule (before ++ [b]) later

/-- The last access was a write. -/
def lastIsWrite (before : List ViewAccess) : Bool := before.getLast?.any ViewAccess.write

/-- What an access does to the flag `is_memory_write_pc` of its node. -/
def updateFlag (flag : Bool) (b : ViewAccess) : Bool :=
  match b.loop with
  | .cpu => flag && b.write
  | .gpu => flag || b.write
  | .delayed => b.write

/-- The flag after some accesses of the view. -/
def flagAfter (before : List ViewAccess) : Bool := before.foldl updateFlag false

/-- A write of a kernel in the CPU mode, which does nothing to the flag. -/
def ViewAccess.isCpuWrite (b : ViewAccess) : Bool := b.loop = .cpu && b.write

/-- After some accesses the flag is current. In the on-GPU mode: the last access is a write, or none
is. In the CPU mode: the last access is no write of a kernel, or it is the last of writes of kernels
that follow a delayed write. -/
def FlagCurrent (ongpu : Bool) (before : List ViewAccess) : Prop :=
  if ongpu then lastIsWrite before = true ∨ ∀ b ∈ before, b.write = false
  else before.getLast?.any ViewAccess.isCpuWrite = true →
    (before.reverse.dropWhile ViewAccess.isCpuWrite).head?.any
      (fun b => b.loop = .delayed && b.write) = true

/-- Every write of a kernel finds the flag current. -/
def WritesCurrent (ongpu : Bool) (accesses : List ViewAccess) : Prop :=
  ∀ before b later, accesses = before ++ b :: later → b.IsKernelWrite → FlagCurrent ongpu before

/-! ## Rules on the accesses before -/

section Rules

variable {before later : List ViewAccess} {b : ViewAccess}

/-- One more access. -/
theorem deadWrites_append_singleton (rule : List ViewAccess → Bool) (before later : List ViewAccess)
    (b : ViewAccess) : deadWrites rule before (later ++ [b]) = deadWrites rule before later ++
      if b.IsKernelWrite ∧ rule (before ++ later) then [(b.aten_copy_pystate_hash, b.pc)]
      else [] := by
  induction later generalizing before with
  | nil => simp [deadWrites]
  | cons b' later ih => simp [deadWrites, ih]

theorem flagAfter_append_singleton : flagAfter (before ++ [b]) = updateFlag (flagAfter before) b :=
  List.foldl_append.trans rfl

theorem lastIsWrite_append_singleton : lastIsWrite (before ++ [b]) = b.write := by
  simp [lastIsWrite]

/-- In the on-GPU mode the flag says whether there was a write at all. -/
theorem flagAfter_gpu (hmode : ∀ b ∈ before, InMode true b) :
    flagAfter before = before.any ViewAccess.write := by
  induction before using List.reverseRecOn with
  | nil => rfl
  | append_singleton before b ih =>
    have hgpu : b.loop = .gpu := (hmode b (by simp)).2 rfl
    rw [flagAfter_append_singleton, ih fun b' hb' => hmode b' (List.mem_append_left _ hb')]
    simp [updateFlag, hgpu]

/-- In the CPU mode the flag says whether the accesses end with a delayed write and writes of
kernels. -/
theorem flagAfter_cpu (hmode : ∀ b ∈ before, InMode false b) :
    flagAfter before = (before.reverse.dropWhile ViewAccess.isCpuWrite).head?.any
      fun b => b.loop = .delayed && b.write := by
  induction before using List.reverseRecOn with
  | nil => rfl
  | append_singleton before b ih =>
    have hnot : b.loop ≠ .gpu := fun h => absurd ((hmode b (by simp)).1 h) (by simp)
    rw [flagAfter_append_singleton, ih fun b' hb' => hmode b' (List.mem_append_left _ hb'),
      List.reverse_append, List.reverse_singleton, List.singleton_append, List.dropWhile_cons]
    cases hloop : b.loop with
    | cpu => cases hwrite : b.write <;> simp [updateFlag, ViewAccess.isCpuWrite, hloop, hwrite]
    | gpu => exact absurd hloop hnot
    | delayed => simp [updateFlag, ViewAccess.isCpuWrite, hloop]

/-- The flag is current exactly if it says whether the last access was a write. -/
theorem flagCurrent_iff {ongpu : Bool} (hmode : ∀ b ∈ before, InMode ongpu b) :
    FlagCurrent ongpu before ↔ flagAfter before = lastIsWrite before := by
  cases ongpu with
  | true =>
    simp only [FlagCurrent, if_true, flagAfter_gpu hmode]
    induction before using List.reverseRecOn with
    | nil => simp [lastIsWrite]
    | append_singleton before b _ =>
      rw [lastIsWrite_append_singleton]
      cases hwrite : b.write <;> simp [hwrite, or_imp, forall_and]
  | false =>
    simp only [FlagCurrent, Bool.false_eq_true, if_false]
    induction before using List.reverseRecOn with
    | nil => simp [lastIsWrite, flagAfter]
    | append_singleton before b _ =>
      rw [← flagAfter_cpu hmode, flagAfter_append_singleton, lastIsWrite_append_singleton]
      have hnot : b.loop ≠ .gpu := fun h => absurd ((hmode b (by simp)).1 h) (by simp)
      cases hloop : b.loop with
      | cpu => cases hwrite : b.write <;> simp [updateFlag, ViewAccess.isCpuWrite, hloop, hwrite]
      | gpu => exact absurd hloop hnot
      | delayed => simp [updateFlag, ViewAccess.isCpuWrite, hloop]

/-- A rule that finds fewer writes dead finds no more pairs. -/
theorem length_deadWrites_le {rule rule' : List ViewAccess → Bool} {before later : List ViewAccess}
    (himp : ∀ mid rest, later = mid ++ rest → rule (before ++ mid) = true →
      rule' (before ++ mid) = true) :
    (deadWrites rule before later).length ≤ (deadWrites rule' before later).length := by
  induction later generalizing before with
  | nil => exact le_rfl
  | cons b later ih =>
    have hrest := @ih (before ++ [b]) fun mid rest heq hrule => by
      rw [List.append_assoc] at hrule ⊢
      exact himp (b :: mid) rest (by rw [heq]; rfl) hrule
    have hfirst := himp [] (b :: later) rfl
    rw [List.append_nil] at hfirst
    simp only [deadWrites, List.length_append]
    refine Nat.add_le_add ?_ hrest
    split_ifs with h h'
    · exact le_rfl
    · exact absurd ⟨h.1, hfirst h.2⟩ h'
    · exact Nat.zero_le _
    · exact le_rfl

/-- A rule that finds fewer writes dead finds the same pairs exactly if it says the same at every
write of a kernel. -/
theorem deadWrites_eq_iff {rule rule' : List ViewAccess → Bool} {before later : List ViewAccess}
    (himp : ∀ mid rest, later = mid ++ rest → rule (before ++ mid) = true →
      rule' (before ++ mid) = true) :
    deadWrites rule before later = deadWrites rule' before later ↔
      ∀ mid b rest, later = mid ++ b :: rest → b.IsKernelWrite →
        rule (before ++ mid) = rule' (before ++ mid) := by
  induction later generalizing before with
  | nil => simp [deadWrites]
  | cons b later ih =>
    have himp' : ∀ mid rest, later = mid ++ rest → rule (before ++ [b] ++ mid) = true →
        rule' (before ++ [b] ++ mid) = true := fun mid rest heq hrule => by
      rw [List.append_assoc] at hrule ⊢
      exact himp (b :: mid) rest (by rw [heq]; rfl) hrule
    have hfirst := himp [] (b :: later) rfl
    rw [List.append_nil] at hfirst
    -- The first access and the others.
    have hsplit : (∀ mid b' rest, b :: later = mid ++ b' :: rest → b'.IsKernelWrite →
        rule (before ++ mid) = rule' (before ++ mid)) ↔
        (b.IsKernelWrite → rule before = rule' before) ∧
          ∀ mid b' rest, later = mid ++ b' :: rest → b'.IsKernelWrite →
            rule (before ++ [b] ++ mid) = rule' (before ++ [b] ++ mid) := by
      constructor
      · intro h
        refine ⟨fun hb => ?_, fun mid b' rest heq hb' => ?_⟩
        · have hat := h [] b later rfl hb
          rwa [List.append_nil] at hat
        · have hat := h (b :: mid) b' rest (by rw [heq]; rfl) hb'
          rwa [List.append_assoc]
      · rintro ⟨hb, hrest⟩ mid b' rest heq hb'
        cases mid with
        | nil =>
          obtain ⟨rfl, -⟩ := List.cons.inj heq
          rw [List.append_nil]
          exact hb hb'
        | cons b₁ mid =>
          obtain ⟨rfl, htail⟩ := List.cons.inj heq
          have hat := hrest mid b' rest htail hb'
          rwa [List.append_assoc] at hat
    rw [hsplit, ← ih himp', deadWrites, deadWrites]
    constructor
    · intro heq
      -- A pair that only the second rule finds makes its list longer.
      have hlen := congrArg List.length heq
      have hle := length_deadWrites_le himp'
      rw [List.length_append, List.length_append] at hlen
      by_cases hb : b.IsKernelWrite
      · by_cases hrule : rule before = true
        · have hrule' := hfirst hrule
          rw [if_pos ⟨hb, hrule⟩, if_pos ⟨hb, hrule'⟩] at heq
          exact ⟨fun _ => hrule.trans hrule'.symm, List.append_cancel_left heq⟩
        · by_cases hrule' : rule' before = true
          · rw [if_neg fun h => hrule h.2, if_pos ⟨hb, hrule'⟩] at hlen
            simp only [List.length_nil, List.length_singleton] at hlen
            omega
          · rw [if_neg fun h => hrule h.2, if_neg fun h => hrule' h.2] at heq
            refine ⟨fun _ => ?_, heq⟩
            rw [Bool.eq_false_of_not_eq_true hrule, Bool.eq_false_of_not_eq_true hrule']
      · rw [if_neg fun h => hb h.1, if_neg fun h => hb h.1] at heq
        exact ⟨fun h => absurd h hb, heq⟩
    · rintro ⟨hb, heq⟩
      rw [heq]
      by_cases hkernel : b.IsKernelWrite
      · rw [hb hkernel]
      · rw [if_neg fun h => hkernel h.1, if_neg fun h => hkernel h.1]

/-- The pairs of the flag are those of the dead writes exactly if every write finds the flag
current. -/
theorem deadWrites_flagAfter_iff {ongpu : Bool} {accesses : List ViewAccess}
    (hmode : ∀ b ∈ accesses, InMode ongpu b) :
    deadWrites flagAfter [] accesses = deadWrites lastIsWrite [] accesses ↔
      WritesCurrent ongpu accesses := by
  have hmode_mid : ∀ mid rest, accesses = mid ++ rest → ∀ b ∈ mid, InMode ongpu b :=
    fun mid rest heq b hb => hmode b (heq ▸ List.mem_append_left _ hb)
  have hcurrent : WritesCurrent ongpu accesses ↔ ∀ mid b rest, accesses = mid ++ b :: rest →
      b.IsKernelWrite → flagAfter ([] ++ mid) = lastIsWrite ([] ++ mid) := by
    unfold WritesCurrent
    refine forall₃_congr fun mid b rest => forall₂_congr fun heq _ => ?_
    rw [List.nil_append]
    exact flagCurrent_iff (hmode_mid mid _ heq)
  rw [hcurrent]
  cases ongpu with
  | true =>
    -- In the on-GPU mode the flag only errs on the side of a write.
    have himp : ∀ mid rest, accesses = mid ++ rest → lastIsWrite ([] ++ mid) = true →
        flagAfter ([] ++ mid) = true := by
      intro mid rest heq hlast
      rw [List.nil_append] at hlast ⊢
      rw [flagAfter_gpu (hmode_mid mid rest heq)]
      obtain ⟨b, hb, hwrite⟩ := (Option.any_eq_true _ _).1 hlast
      exact List.any_eq_true.2 ⟨b, List.mem_of_getLast? hb, hwrite⟩
    rw [eq_comm, deadWrites_eq_iff himp]
    exact forall₃_congr fun mid b rest => forall₂_congr fun _ _ => eq_comm
  | false =>
    -- In the CPU mode it only errs on the side of a read.
    refine deadWrites_eq_iff fun mid rest heq hflag => ?_
    rw [List.nil_append] at hflag ⊢
    have hmid := hmode_mid mid rest heq
    induction mid using List.reverseRecOn with
    | nil => exact hflag
    | append_singleton mid b _ =>
      rw [flagAfter_append_singleton] at hflag
      rw [lastIsWrite_append_singleton]
      have hnot : b.loop ≠ .gpu := fun h => absurd ((hmid b (by simp)).1 h) (by simp)
      unfold updateFlag at hflag
      cases hloop : b.loop with
      | cpu =>
        rw [hloop] at hflag
        exact (Bool.and_eq_true_iff.1 hflag).2
      | gpu => exact absurd hloop hnot
      | delayed =>
        rw [hloop] at hflag
        exact hflag

end Rules

end TenProf.TorchView
