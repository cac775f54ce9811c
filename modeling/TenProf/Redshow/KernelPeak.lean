import Mathlib.Algebra.Order.BigOperators.Group.List
import TenProf.Redshow.Agreement

/-!
# The peak of the kernels

`update_aux_hit` of `MemoryLiveness` and of `TorchMonitor`: both add the lengths of the blocks that
a kernel accessed, as its dictionary marks them, and keep the largest sum with the id of the kernel
that reached it. For an analysis that mirrors the snapshot of the kernel nothing is looked up in
vain, and the sum is the number of live bytes that the kernel accessed
(`exists_updateAuxHit`).
-/

namespace TenProf

open GpuPatch (AddressDict AddressEntry)

/-- The members for the peak of the kernels. -/
structure KernelPeak where
  optimal_memory_peak : ℕ
  memory_peak_kernel : ℕ
  deriving DecidableEq, Repr

/-- The peak after a kernel that accessed some bytes. -/
def KernelPeak.update (p : KernelPeak) (kernel_op_id kernel_memory_usage : ℕ) : KernelPeak :=
  if p.optimal_memory_peak < kernel_memory_usage then ⟨kernel_memory_usage, kernel_op_id⟩ else p

/-- The members of the liveness analysis for the peak of the kernels. -/
def MemoryLiveness.kernelPeak (s : MemoryLiveness) : KernelPeak :=
  ⟨s.optimal_memory_peak, s.memory_peak_kernel⟩

namespace TorchMonitor

/-- The turn of the loop of `update_aux_hit`. -/
def auxHit (s : TorchMonitor) (kernel_memory_usage : ℕ) (entry : AddressEntry) : Option ℕ :=
  if entry.hit = 1 then
    (s.addresses_map.find? entry.start_end.start).bind fun memory_op_id =>
      (s.current_memories.find? memory_op_id).map fun memory =>
        u64 (kernel_memory_usage + memory.len)
  else
    some kernel_memory_usage

/-- `update_aux_hit`: the members for the peak after it. -/
def updateAuxHit (s : TorchMonitor) (p : KernelPeak) (kernel_aux : AddressDict)
    (kernel_op_id : ℕ) : Option KernelPeak :=
  (kernel_aux.entries.foldlM s.auxHit 0).map fun kernel_memory_usage =>
    if p.optimal_memory_peak < kernel_memory_usage then ⟨kernel_memory_usage, kernel_op_id⟩ else p

end TorchMonitor

/-- The starts of the entries that say that the kernel accessed the block. -/
def hitStarts (entries : List AddressEntry) : List ℕ :=
  (entries.filter fun entry => entry.hit = 1).map fun entry => entry.start_end.start

/-- The lengths of the blocks of a snapshot that start at some of the given places together. -/
def bytesAt (memory_map : MemoryMap) (starts : List ℕ) : ℕ :=
  ((memory_map.toList.filter fun e => e.1 ∈ starts).map fun e => e.2.len).sum

/-- The number of the bytes of a snapshot that a kernel accessed. -/
def hitBytes (memory_map : MemoryMap) (aux : AddressDict) : ℕ :=
  bytesAt memory_map (hitStarts aux.entries)

/-- Every block that the dictionary marks is one of the snapshot. -/
def Covers (memory_map : MemoryMap) (entries : List AddressEntry) : Prop :=
  ∀ entry ∈ entries, entry.hit = 1 → (memory_map.find? entry.start_end.start).isSome

variable {memory_map : MemoryMap} {entries : List AddressEntry} {entry : AddressEntry}
  {starts : List ℕ} {start n : ℕ} {m : Memory}

/-! ## Bytes of a snapshot -/

/-- No more bytes than all. -/
theorem bytesAt_le (memory_map : MemoryMap) (starts : List ℕ) :
    bytesAt memory_map starts ≤ liveBytes memory_map :=
  (List.filter_sublist.map _).sum_le_sum fun _ _ => Nat.zero_le _

/-- One more place, at which a block stands. -/
theorem bytesAt_cons (h : memory_map.find? start = some m) (hnew : start ∉ starts) :
    bytesAt memory_map (start :: starts) = m.len + bytesAt memory_map starts := by
  have hperm := OrderedMap.perm_erase h
  -- The bytes of the others are the same with the place and without it.
  have hothers : ∀ e ∈ (memory_map.erase start).toList,
      decide (e.1 ∈ start :: starts) = decide (e.1 ∈ starts) := fun e he => by
    have hne := ((OrderedMap.mem_erase _ _ _).1 he).2
    simp only [List.mem_cons, hne, false_or]
  have hsum : ∀ p : ℕ × Memory → Bool, ((memory_map.toList.filter p).map fun e => e.2.len).sum =
      ((((start, m) :: (memory_map.erase start).toList).filter p).map fun e => e.2.len).sum :=
    fun p => ((hperm.filter p).map _).sum_eq
  unfold bytesAt
  rw [hsum, hsum, List.filter_cons_of_pos (by simp), List.filter_cons_of_neg (by simpa using hnew),
    List.map_cons, List.sum_cons, List.filter_congr hothers]

/-- The starts of a list of entries, of which the first one is marked. -/
theorem hitStarts_cons_of_hit (h : entry.hit = 1) :
    hitStarts (entry :: entries) = entry.start_end.start :: hitStarts entries := by
  unfold hitStarts
  rw [List.filter_cons_of_pos (by simpa using h), List.map_cons]

/-- The starts of a list of entries, of which the first one is not marked. -/
theorem hitStarts_cons_of_not_hit (h : entry.hit ≠ 1) :
    hitStarts (entry :: entries) = hitStarts entries := by
  unfold hitStarts
  rw [List.filter_cons_of_neg (by simpa using h)]

/-- The marked starts are among those of the entries. -/
theorem hitStarts_subset (entries : List AddressEntry) :
    hitStarts entries ⊆ entries.map fun entry => entry.start_end.start :=
  List.map_subset _ (List.filter_subset_self _)

/-! ## The two loops -/

/-- A loop that adds the length of the block of every entry that is marked: it finds all of them,
and nothing overflows. `P n x` says that `x` is a state of the loop when the sum is `n`. -/
theorem foldlM_hits {α : Type*} {turn : α → AddressEntry → Option α} {P : ℕ → α → Prop}
    (hmiss : ∀ n x entry, P n x → entry.hit ≠ 1 → turn x entry = some x)
    (hhit : ∀ n x entry m, P n x → entry.hit = 1 →
      memory_map.find? entry.start_end.start = some m →
        ∃ x', turn x entry = some x' ∧ P (u64 (n + m.len)) x')
    (hcovers : Covers memory_map entries)
    (hnodup : (entries.map fun entry => entry.start_end.start).Nodup) {x : α} (hx : P n x)
    (hlt : n + bytesAt memory_map (hitStarts entries) < 2^64) :
    ∃ x', entries.foldlM turn x = some x' ∧
      P (n + bytesAt memory_map (hitStarts entries)) x' := by
  induction entries generalizing x n with
  | nil =>
    have hnone : bytesAt memory_map (hitStarts []) = 0 := by
      unfold bytesAt hitStarts
      simp
    rw [hnone]
    exact ⟨x, rfl, hx⟩
  | cons entry entries ih =>
    obtain ⟨hfirst, hnodup⟩ := List.nodup_cons.1 hnodup
    have hrest : Covers memory_map entries := fun e he => hcovers e (List.mem_cons_of_mem _ he)
    by_cases hmark : entry.hit = 1
    · obtain ⟨m, hm⟩ := Option.isSome_iff_exists.1 (hcovers entry List.mem_cons_self hmark)
      have hnew : entry.start_end.start ∉ hitStarts entries := fun hmem =>
        hfirst (hitStarts_subset entries hmem)
      rw [hitStarts_cons_of_hit hmark, bytesAt_cons hm hnew, ← Nat.add_assoc] at hlt ⊢
      obtain ⟨x₁, hturn, hx₁⟩ := hhit n x entry m hx hmark hm
      rw [u64_of_lt (Nat.lt_of_le_of_lt (Nat.le_add_right _ _) hlt)] at hx₁
      obtain ⟨x', hloop, hx'⟩ := ih hrest hnodup hx₁ hlt
      refine ⟨x', ?_, hx'⟩
      rw [List.foldlM_cons, hturn]
      exact hloop
    · rw [hitStarts_cons_of_not_hit hmark] at hlt ⊢
      obtain ⟨x', hloop, hx'⟩ := ih hrest hnodup hx hlt
      refine ⟨x', ?_, hx'⟩
      rw [List.foldlM_cons, hmiss n x entry hx hmark]
      exact hloop

/-! ## `update_aux_hit` -/

/-- In an analysis that mirrors a snapshot, the two maps lead from the start of a block to it. -/
theorem Mirrors.find? {ids : List ℕ} {o : LiveObjects} (h : Mirrors o memory_map)
    (hblocks : Blocks ids memory_map) (hm : memory_map.find? start = some m) :
    o.addresses_map.find? start = some m.op_id ∧ o.current_memories.find? m.op_id = some m := by
  have hentry := (memory_map.find?_eq_some_iff _ _).1 hm
  refine ⟨by rw [h.addresses, hm, Option.map_some], (h.memories _ _).2 ⟨rfl, ?_⟩⟩
  rw [show m.memory_range.start = start from hblocks.start_eq _ hentry]
  exact hentry

section UpdateAuxHit

variable {ids : List ℕ} {aux : AddressDict} (hblocks : Blocks ids memory_map)
  (hcovers : Covers memory_map aux.entries)

include hblocks hcovers

/-- A torch monitor that mirrors the snapshot of a kernel finds what the kernel accessed. -/
theorem TorchMonitor.updateAuxHit_eq {s : TorchMonitor} (h : Mirrors s.liveObjects memory_map)
    (p : KernelPeak) (kernel_op_id : ℕ) :
    s.updateAuxHit p aux kernel_op_id = some (p.update kernel_op_id (hitBytes memory_map aux)) := by
  have hlt : bytesAt memory_map (hitStarts aux.entries) < 2^64 :=
    (bytesAt_le _ _).trans_lt hblocks.liveBytes_lt
  have hloop : aux.entries.foldlM s.auxHit 0 = some (hitBytes memory_map aux) := by
    obtain ⟨n, hloop, hn⟩ := foldlM_hits (P := fun n x => x = n) (n := 0)
      (fun n x entry _ hmark => show s.auxHit x entry = some x from if_neg hmark)
      (fun n x entry m hx hmark hm => by
        obtain ⟨haddress, hmemory⟩ := h.find? hblocks hm
        refine ⟨_, ?_, rfl⟩
        unfold auxHit
        rw [if_pos hmark, show s.addresses_map.find? _ = _ from haddress, Option.bind_some,
          show s.current_memories.find? _ = _ from hmemory, Option.map_some, hx])
      hcovers aux.distinct rfl (by rwa [Nat.zero_add])
    rw [hloop, hn, Nat.zero_add]
    rfl
  unfold updateAuxHit
  rw [hloop, Option.map_some]
  rfl

/-- A liveness analysis that mirrors the snapshot of a kernel finds what the kernel accessed, and
changes nothing but its logs and the peak of the kernels. -/
theorem MemoryLiveness.exists_updateAuxHit {s : MemoryLiveness}
    (h : Mirrors s.liveObjects memory_map) (kernel_op_id : ℕ) :
    ∃ s', s.updateAuxHit aux kernel_op_id = some s' ∧ s'.liveObjects = s.liveObjects ∧
      s'.deps = s.deps ∧
      s'.kernelPeak = s.kernelPeak.update kernel_op_id (hitBytes memory_map aux) := by
  have hlt : bytesAt memory_map (hitStarts aux.entries) < 2^64 :=
    (bytesAt_le _ _).trans_lt hblocks.liveBytes_lt
  -- What the loop keeps.
  let P (n : ℕ) (x : MemoryLiveness × ℕ) : Prop :=
    x.1.liveObjects = s.liveObjects ∧ x.1.deps = s.deps ∧ x.1.kernelPeak = s.kernelPeak ∧ x.2 = n
  obtain ⟨⟨s₁, n⟩, hloop, hlive, hdeps, hpeak, hn⟩ := foldlM_hits (P := P) (n := 0)
    (fun n x entry _ hmark => show auxHit kernel_op_id x entry = some x from if_neg hmark)
    (fun n x entry m hx hmark hm => by
      obtain ⟨hlive, hdeps, hpeak, hn⟩ := hx
      obtain ⟨haddress, hmemory⟩ := h.find? hblocks hm
      rw [← hlive] at haddress hmemory
      refine ⟨(x.1.memoryOperationRegister m.op_id kernel_op_id .REDSHOW_MEMORY_ACCESS,
        u64 (n + m.len)), ?_, hlive, hdeps, hpeak, rfl⟩
      unfold auxHit
      rw [if_pos hmark, show x.1.addresses_map.find? _ = _ from haddress, Option.bind_some]
      dsimp only [memoryOperationRegister]
      rw [show x.1.current_memories.find? _ = _ from hmemory, Option.map_some, hn])
    hcovers aux.distinct (x := (s, 0)) ⟨rfl, rfl, rfl, rfl⟩ (by rwa [Nat.zero_add])
  rw [Nat.zero_add] at hn
  unfold updateAuxHit
  rw [hloop, Option.map_some]
  refine ⟨_, rfl, ?_⟩
  dsimp only at hlive hdeps hpeak hn ⊢
  unfold KernelPeak.update
  rw [← hpeak, hn]
  unfold hitBytes
  split_ifs with hless hless' hless'
  · exact ⟨hlive, hdeps, rfl⟩
  · exact absurd hless hless'
  · exact absurd hless' hless
  · exact ⟨hlive, hdeps, rfl⟩

end UpdateAuxHit

/-! ## The largest of several sums -/

/-- The peak is the largest of the sums, with the first kernel that reached it; it is 0 when no
kernel accessed anything. -/
structure KernelPeak.IsFirstMax (p : KernelPeak) (usages : List (ℕ × ℕ)) : Prop where
  le : ∀ u ∈ usages, u.2 ≤ p.optimal_memory_peak
  first : p = ⟨0, 0⟩ ∨ ∃ before after,
    usages = before ++ (p.memory_peak_kernel, p.optimal_memory_peak) :: after ∧
      ∀ u ∈ before, u.2 < p.optimal_memory_peak

/-- A kernel that accessed nothing does not change the peak. -/
theorem KernelPeak.update_zero (p : KernelPeak) (kernel_op_id : ℕ) :
    p.update kernel_op_id 0 = p := if_neg (Nat.not_lt_zero _)

/-- One more kernel. -/
theorem KernelPeak.IsFirstMax.update {p : KernelPeak} {usages : List (ℕ × ℕ)}
    (h : p.IsFirstMax usages) (kernel_op_id kernel_memory_usage : ℕ) :
    (p.update kernel_op_id kernel_memory_usage).IsFirstMax
      (usages ++ [(kernel_op_id, kernel_memory_usage)]) := by
  unfold KernelPeak.update
  split_ifs with hless
  · constructor
    · intro u hu
      rcases List.mem_append.1 hu with hu | hu
      · exact (h.le u hu).trans hless.le
      · rw [List.mem_singleton.1 hu]
    · exact .inr ⟨usages, [], rfl, fun u hu => (h.le u hu).trans_lt hless⟩
  · constructor
    · intro u hu
      rcases List.mem_append.1 hu with hu | hu
      · exact h.le u hu
      · rw [List.mem_singleton.1 hu]
        exact Nat.le_of_not_lt hless
    · refine h.first.imp_right ?_
      rintro ⟨before, after, heq, hbefore⟩
      refine ⟨before, after ++ [(kernel_op_id, kernel_memory_usage)], ?_, hbefore⟩
      rw [heq, List.append_assoc, List.cons_append]

end TenProf
