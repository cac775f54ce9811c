import TenProf.Library.While
import TenProf.Library.Intervals
import TenProf.Redshow.MemorySnapshot

/-!
# The analysis of merged addresses

`trace_analyze_address_analysis` gets intervals of addresses, which may run over several blocks, and
hands the analyses one piece for each block. Two cursors go through an interval: `addr_start`, where
the next piece starts, and `addr_end`, where the last one ended. They agree as long as the interval
has not ended. The pieces make up the longest part of the interval from its start on that the live
blocks cover (`traceAnalyzeAddressAnalysis_pieces`).
-/

namespace TenProf

/-- What `unit_access` gets of a piece: the `Memory` with the block's ids and the piece's range, and
the flags of the buffer. -/
structure UnitAccess where
  op_id : ℕ
  ctx_id : ℤ
  memory_range : MemoryRange
  len : ℕ
  flags : ℕ
  deriving DecidableEq, Repr

/-- The cursors in an interval, with the pieces so far. -/
structure AddressCursor where
  addr_start : ℕ
  addr_end : ℕ
  delivered : List UnitAccess

/-- One turn of the loop that separates the blocks in an interval. -/
def addressTurn (memory_map : MemoryMap) (flags : ℕ) (memory_range : MemoryRange)
    (st : AddressCursor) : AddressCursor ⊕ List UnitAccess :=
  if st.addr_end < memory_range.stop then
    match memory_map.prev st.addr_start with
    | none => .inr st.delivered
    | some iter =>
      if iter.1 ≤ st.addr_start ∧ st.addr_start < iter.2.memory_range.stop then
        let addr_end := min memory_range.stop iter.2.memory_range.stop
        let memory_size := subU64 addr_end st.addr_start
        -- Unknown memory object
        if iter.2.op_id = 0 then .inr st.delivered
        else .inl ⟨iter.2.memory_range.stop, addr_end, st.delivered ++
          [⟨iter.2.op_id, iter.2.ctx_id,
            ⟨st.addr_start, u64 (st.addr_start + memory_size)⟩, memory_size, flags⟩]⟩
      else .inr st.delivered
  else .inr st.delivered

/-- The pieces of one record, found in at most `fuel` turns. -/
def addressPieces (memory_map : MemoryMap) (flags fuel : ℕ) (record : MemoryRange) :
    Option (List UnitAccess) :=
  loop (addressTurn memory_map flags record) fuel ⟨record.start, record.start, []⟩

/-- `trace_analyze_address_analysis`: what it delivers for the records of a buffer. -/
def traceAnalyzeAddressAnalysis (memory_map : MemoryMap) (flags : ℕ) (records : List MemoryRange)
    (fuel : ℕ) : Option (List UnitAccess) :=
  (records.mapM (addressPieces memory_map flags fuel)).map List.flatten

/-- The ranges of the live blocks. -/
def blockSpans (memory_map : MemoryMap) : List (ℕ × ℕ) :=
  memory_map.toList.map fun e => (e.1, e.2.memory_range.stop)

/-- The range of a piece. -/
def UnitAccess.span (p : UnitAccess) : ℕ × ℕ := (p.memory_range.start, p.memory_range.stop)

/-- A map of disjoint blocks with op ids. -/
structure DisjointBlocks (memory_map : MemoryMap) : Prop where
  apart : (blockSpans memory_map).Pairwise fun a b => a.2 ≤ b.1
  op_id_ne_zero : ∀ e ∈ memory_map.toList, e.2.op_id ≠ 0

/-- A piece lies inside the block whose ids it carries. -/
def UnitAccess.InBlock (memory_map : MemoryMap) (p : UnitAccess) : Prop :=
  ∃ e ∈ memory_map.toList, e.2.op_id = p.op_id ∧ e.2.ctx_id = p.ctx_id ∧
    e.1 ≤ p.memory_range.start ∧ p.memory_range.stop ≤ e.2.memory_range.stop

/-- The pieces of a record: they stand in order and are disjoint, each is a proper range inside its
block, and together they are the longest part of the record from its start on that the live blocks
cover. -/
structure PiecesOf (memory_map : MemoryMap) (flags : ℕ) (record : MemoryRange)
    (pieces : List UnitAccess) : Prop where
  apart : (pieces.map UnitAccess.span).Pairwise fun a b => a.2 ≤ b.1
  proper : Proper (pieces.map UnitAccess.span)
  in_block : ∀ p ∈ pieces, p.InBlock memory_map
  flags_eq : ∀ p ∈ pieces, p.flags = flags
  covered : ∀ x, Covered (pieces.map UnitAccess.span) x ↔
    x ∈ coveredPrefix (blockSpans memory_map) (record.start, record.stop)

/-- The invariant of the loop: the pieces so far are the interval up to `addr_end`, all of it live,
and the next piece starts there unless the interval has ended. -/
structure AddressInv (memory_map : MemoryMap) (flags : ℕ) (record : MemoryRange)
    (st : AddressCursor) : Prop where
  apart : (st.delivered.map UnitAccess.span).Pairwise fun a b => a.2 ≤ b.1
  proper : Proper (st.delivered.map UnitAccess.span)
  in_block : ∀ p ∈ st.delivered, p.InBlock memory_map
  flags_eq : ∀ p ∈ st.delivered, p.flags = flags
  covered : ∀ x, Covered (st.delivered.map UnitAccess.span) x ↔ record.start ≤ x ∧ x < st.addr_end
  live : ∀ x, record.start ≤ x → x < st.addr_end →
    x < record.stop ∧ Covered (blockSpans memory_map) x
  start_le : record.start ≤ st.addr_end
  start_eq : st.addr_end < record.stop → st.addr_start = st.addr_end
  stop_le : ∀ p ∈ st.delivered, p.memory_range.stop ≤ st.addr_end

variable {memory_map : MemoryMap} {flags : ℕ} {record : MemoryRange} {st : AddressCursor}

/-- The points that live blocks cover. -/
theorem covered_blockSpans (x : ℕ) : Covered (blockSpans memory_map) x ↔
    ∃ e ∈ memory_map.toList, e.1 ≤ x ∧ x < e.2.memory_range.stop := by
  simp [Covered, blockSpans]

/-- In a map of disjoint blocks, the predecessor of an address is the block that holds it. -/
theorem DisjointBlocks.prev_eq (h : DisjointBlocks memory_map) {e : ℕ × Memory}
    (he : e ∈ memory_map.toList) {a : ℕ} (hstart : e.1 ≤ a) (hstop : a < e.2.memory_range.stop) :
    memory_map.prev a = some e := by
  refine (memory_map.prev_eq_some_iff a e).2 ⟨⟨he, hstart⟩, fun e' he' hle => ?_⟩
  rcases lt_trichotomy e'.1 e.1 with hlt | heq | hgt
  · exact Or.inr hlt
  · exact Or.inl (OrderedMap.eq_of_key he' he heq)
  · -- A block that starts later would start behind the end of this one.
    have hapart := OrderedMap.rel_of_lt (List.pairwise_map.1 h.apart) he he' hgt
    exact absurd (hstop.trans_le hapart) (not_lt.2 hle)

/-- What a turn does: it delivers the piece in the block that holds `addr_start`, or ends the loop
because the interval has ended or no block holds `addr_start`. -/
theorem DisjointBlocks.addressTurn_cases (h : DisjointBlocks memory_map) (flags : ℕ)
    (record : MemoryRange) (st : AddressCursor) :
    (∃ e ∈ memory_map.toList, st.addr_end < record.stop ∧ e.1 ≤ st.addr_start ∧
      st.addr_start < e.2.memory_range.stop ∧
      addressTurn memory_map flags record st = .inl ⟨e.2.memory_range.stop,
        min record.stop e.2.memory_range.stop,
        st.delivered ++ [⟨e.2.op_id, e.2.ctx_id,
          ⟨st.addr_start, u64 (st.addr_start +
            subU64 (min record.stop e.2.memory_range.stop) st.addr_start)⟩,
          subU64 (min record.stop e.2.memory_range.stop) st.addr_start, flags⟩]⟩) ∨
    (record.stop ≤ st.addr_end ∨ ¬Covered (blockSpans memory_map) st.addr_start) ∧
      addressTurn memory_map flags record st = .inr st.delivered := by
  by_cases hend : st.addr_end < record.stop
  · by_cases hcov : Covered (blockSpans memory_map) st.addr_start
    · obtain ⟨e, he, hstart, hstop⟩ := (covered_blockSpans _).1 hcov
      refine Or.inl ⟨e, he, hend, hstart, hstop, ?_⟩
      rw [addressTurn, if_pos hend, h.prev_eq he hstart hstop]
      simp only
      rw [if_pos ⟨hstart, hstop⟩, if_neg (h.op_id_ne_zero e he)]
    · refine Or.inr ⟨Or.inr hcov, ?_⟩
      rw [addressTurn, if_pos hend]
      cases hprev : memory_map.prev st.addr_start with
      | none => rfl
      | some e =>
        have he := ((memory_map.prev_eq_some_iff _ e).1 hprev).1.1
        exact if_neg fun hin => hcov ((covered_blockSpans _).2 ⟨e, he, hin⟩)
  · exact Or.inr ⟨Or.inl (not_lt.1 hend), if_neg hend⟩

/-- The invariant holds when the loop starts. -/
theorem addressInv_start (memory_map : MemoryMap) (flags : ℕ) (record : MemoryRange) :
    AddressInv memory_map flags record ⟨record.start, record.start, []⟩ where
  apart := List.Pairwise.nil
  proper := by simp [Proper]
  in_block := by simp
  flags_eq := by simp
  covered x := by
    simp only [List.map_nil, covered_nil, false_iff, not_and]
    omega
  live x hle hlt := absurd hlt (not_lt.2 hle)
  start_le := le_rfl
  start_eq _ := rfl
  stop_le := by simp

/-- One more piece. -/
theorem AddressInv.deliver (h : AddressInv memory_map flags record st)
    (hbound : record.stop < 2^64) {e : ℕ × Memory} (he : e ∈ memory_map.toList)
    (hend : st.addr_end < record.stop) (hstart : e.1 ≤ st.addr_start)
    (hstop : st.addr_start < e.2.memory_range.stop) :
    AddressInv memory_map flags record ⟨e.2.memory_range.stop,
      min record.stop e.2.memory_range.stop,
      st.delivered ++ [⟨e.2.op_id, e.2.ctx_id,
        ⟨st.addr_start, u64 (st.addr_start +
          subU64 (min record.stop e.2.memory_range.stop) st.addr_start)⟩,
        subU64 (min record.stop e.2.memory_range.stop) st.addr_start, flags⟩]⟩ := by
  have hcursor := h.start_eq hend
  have hlt : st.addr_end < min record.stop e.2.memory_range.stop := by omega
  have hlen : subU64 (min record.stop e.2.memory_range.stop) st.addr_start =
      min record.stop e.2.memory_range.stop - st.addr_start :=
    subU64_of_le (by omega) (by omega)
  have hpiece : u64 (st.addr_start + subU64 (min record.stop e.2.memory_range.stop) st.addr_start) =
      min record.stop e.2.memory_range.stop := by
    rw [hlen, u64_of_lt (by omega)]
    omega
  rw [hpiece, hlen, hcursor]
  have hle : min record.stop e.2.memory_range.stop ≤ e.2.memory_range.stop := Nat.min_le_right _ _
  constructor
  · rw [List.map_append, List.pairwise_append]
    refine ⟨h.apart, List.pairwise_singleton _ _, fun a ha b hb => ?_⟩
    obtain ⟨p, hp, rfl⟩ := List.mem_map.1 ha
    rw [List.mem_singleton.1 hb]
    exact h.stop_le p hp
  · rw [List.map_append]
    intro a ha
    rcases List.mem_append.1 ha with ha | ha
    · exact h.proper a ha
    · rw [List.mem_singleton.1 ha]
      exact hlt
  · intro p hp
    rcases List.mem_append.1 hp with hp | hp
    · exact h.in_block p hp
    · rw [List.mem_singleton.1 hp]
      exact ⟨e, he, rfl, rfl, hcursor ▸ hstart, hle⟩
  · intro p hp
    rcases List.mem_append.1 hp with hp | hp
    · exact h.flags_eq p hp
    · rw [List.mem_singleton.1 hp]
  · intro x
    have hx := h.covered x
    have hs := h.start_le
    simp only [List.map_append, covered_append, hx, List.map_cons, List.map_nil, covered_cons,
      covered_nil, or_false, UnitAccess.span]
    omega
  · intro x hle' hlt'
    simp only at hlt'
    rcases Nat.lt_or_ge x st.addr_end with hold | hnew
    · exact h.live x hle' hold
    · exact ⟨by omega, (covered_blockSpans x).2 ⟨e, he, by omega, by omega⟩⟩
  · exact h.start_le.trans hlt.le
  · intro hmore
    simp only at hmore ⊢
    omega
  · intro p hp
    rcases List.mem_append.1 hp with hp | hp
    · exact (h.stop_le p hp).trans hlt.le
    · rw [List.mem_singleton.1 hp]

/-- When the loop ends, the pieces are those of the record. -/
theorem AddressInv.piecesOf (h : AddressInv memory_map flags record st)
    (hend : record.stop ≤ st.addr_end ∨ ¬Covered (blockSpans memory_map) st.addr_start) :
    PiecesOf memory_map flags record st.delivered where
  apart := h.apart
  proper := h.proper
  in_block := h.in_block
  flags_eq := h.flags_eq
  covered x := by
    rw [h.covered, mem_coveredPrefix_iff (c := st.addr_end) h.live]
    rcases Nat.lt_or_ge st.addr_end record.stop with hlt | hge
    · exact Or.inr ⟨h.start_le, h.start_eq hlt ▸ hend.resolve_left (by omega)⟩
    · exact Or.inl hge

/-- The loop ends for every record, with the pieces of the record. -/
theorem addressPieces_piecesOf (h : DisjointBlocks memory_map) (flags : ℕ) (record : MemoryRange)
    (hbound : record.stop < 2^64) :
    ∃ pieces, Settles (fun fuel => addressPieces memory_map flags fuel record) pieces ∧
      PiecesOf memory_map flags record pieces := by
  refine exists_settles_loop (I := AddressInv memory_map flags record)
    (fun st => record.stop - st.addr_end) (fun st st' hst hturn => ?_) (fun st b hst hturn => ?_)
    (addressInv_start memory_map flags record)
  · rcases h.addressTurn_cases flags record st with
      ⟨e, he, hend, hstart, hstop, heq⟩ | ⟨-, heq⟩
    · rw [heq] at hturn
      obtain rfl := Sum.inl.inj hturn
      have hcursor := hst.start_eq hend
      refine ⟨hst.deliver hbound he hend hstart hstop, ?_⟩
      simp only
      omega
    · rw [heq] at hturn
      exact absurd hturn (by simp)
  · rcases h.addressTurn_cases flags record st with
      ⟨e, he, hend, hstart, hstop, heq⟩ | ⟨hend, heq⟩
    · rw [heq] at hturn
      exact absurd hturn (by simp)
    · rw [heq] at hturn
      obtain rfl := Sum.inr.inj hturn
      exact hst.piecesOf hend

/-- In every map, a turn that goes on moves both cursors behind the old ones. -/
theorem addressTurn_eq_inl {st' : AddressCursor}
    (hturn : addressTurn memory_map flags record st = .inl st') :
    st.addr_end < record.stop ∧ ∃ stop, st.addr_start < stop ∧ st'.addr_start = stop ∧
      st'.addr_end = min record.stop stop := by
  unfold addressTurn at hturn
  split_ifs at hturn with hend
  refine ⟨hend, ?_⟩
  cases hprev : memory_map.prev st.addr_start with
  | none => simp [hprev] at hturn
  | some e =>
    simp only [hprev] at hturn
    split_ifs at hturn with hin hid
    obtain rfl := Sum.inl.inj hturn
    exact ⟨e.2.memory_range.stop, hin.2, rfl, rfl⟩

/-- The loop ends for every record and every map. -/
theorem addressPieces_settles (memory_map : MemoryMap) (flags : ℕ) (record : MemoryRange) :
    ∃ pieces, Settles (fun fuel => addressPieces memory_map flags fuel record) pieces := by
  obtain ⟨pieces, hsettles, -⟩ : ∃ pieces,
      Settles (fun fuel => addressPieces memory_map flags fuel record) pieces ∧ True := by
    refine exists_settles_loop
      (I := fun st => st.addr_end < record.stop → st.addr_start = st.addr_end)
      (fun st => record.stop - st.addr_end) (fun st st' hst hturn => ?_) (fun _ _ _ _ => trivial)
      (fun _ => rfl)
    obtain ⟨hend, stop, hlt, hstart, hstop⟩ := addressTurn_eq_inl hturn
    have hcursor := hst hend
    omega
  exact ⟨pieces, hsettles⟩

/-- For every buffer of records and every map the analysis ends. In a map of disjoint blocks it
delivers the pieces of each record, one record after the other. -/
theorem traceAnalyzeAddressAnalysis_pieces (memory_map : MemoryMap) (flags : ℕ)
    (records : List MemoryRange) (hbound : ∀ r ∈ records, r.stop < 2^64) :
    ∃ pieces : List (List UnitAccess),
      Settles (traceAnalyzeAddressAnalysis memory_map flags records) pieces.flatten ∧
        (DisjointBlocks memory_map → List.Forall₂ (PiecesOf memory_map flags) records pieces) := by
  by_cases h : DisjointBlocks memory_map
  · obtain ⟨pieces, hsettles, hall⟩ := exists_settles_mapM fun r hr =>
      addressPieces_piecesOf h flags r (hbound r hr)
    exact ⟨pieces, hsettles.map List.flatten, fun _ => hall⟩
  · obtain ⟨pieces, hsettles, -⟩ := exists_settles_mapM (R := fun _ _ => True)
      fun r (_ : r ∈ records) =>
        (addressPieces_settles memory_map flags r).imp fun _ hr => ⟨hr, trivial⟩
    exact ⟨pieces, hsettles.map List.flatten, fun hdisjoint => absurd hdisjoint h⟩

/-- Two blocks that touch, and a third one behind a gap. -/
def threeBlocks : MemoryMap :=
  ((OrderedMap.set ∅ 100 (Memory.ofRange 0 1 7 ⟨100, 200⟩ 0 0)).set 200
    (Memory.ofRange 0 2 7 ⟨200, 300⟩ 0 0)).set 400 (Memory.ofRange 0 3 7 ⟨400, 500⟩ 0 0)

/-- An interval over all three blocks is delivered up to the gap, in two pieces. -/
example : traceAnalyzeAddressAnalysis threeBlocks 1 [⟨150, 450⟩] 3 =
    some [⟨1, 7, ⟨150, 200⟩, 50, 1⟩, ⟨2, 7, ⟨200, 300⟩, 100, 1⟩] := by decide +kernel

/-- The records before, across and behind the three blocks. -/
theorem traceAnalyzeAddressAnalysis_threeBlocks : ∃ pieces : List (List UnitAccess),
    Settles (traceAnalyzeAddressAnalysis threeBlocks 1 [⟨50, 150⟩, ⟨150, 450⟩, ⟨480, 600⟩])
      pieces.flatten ∧
      List.Forall₂ (PiecesOf threeBlocks 1) [⟨50, 150⟩, ⟨150, 450⟩, ⟨480, 600⟩] pieces := by
  obtain ⟨pieces, hsettles, hall⟩ := traceAnalyzeAddressAnalysis_pieces threeBlocks 1
    [⟨50, 150⟩, ⟨150, 450⟩, ⟨480, 600⟩] (by decide)
  exact ⟨pieces, hsettles, hall ⟨by decide, by decide⟩⟩

end TenProf
