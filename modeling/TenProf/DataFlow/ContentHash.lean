import TenProf.Common.Digest
import TenProf.DataFlow.Duplicate
import TenProf.DataFlow.NodeHash

/-!
# Duplicates are equal bytes

`_node_hash` collects the hashes of the bytes that the operations of a context hash, and
`analyze_duplicate` relates contexts that share a hash. With the hash function of the source, and as
long as no two of the byte strings hashed in a run collide, two contexts are related exactly when
they hashed the same bytes, and totally when neither hashed any others (`duplicate_iff`).
-/

namespace TenProf.DataFlow

open SHA256

/-- The environment with the hash function of the source. -/
def sha256Env (ratio_below_limit : ℤ → ℕ → Bool) : Env where
  ratio_below_limit := ratio_below_limit
  sha256 bytes := (TenProf.sha256 bytes).getD ""

/-- An operation of a context hashes some bytes, in the run of operations from a state. -/
def HashedIn (env : Env) (s₀ : DataFlow) (es : List (ByteMem × Operation)) (ctx_id : ℤ)
    (bytes : List UInt8) : Prop :=
  ∃ before e later s s' m memory, es = before ++ e :: later ∧
    run (opCallback env) s₀ before = some s ∧ opCallback env s e = some s' ∧
    ctx_id = e.2.ctx_id ∧ e.2.Hashes m ∧ s.memories.find? m = some memory ∧
    bytes = e.2.hashed s'.host memory

/-- No two byte strings that are hashed in a run collide, and all are shorter than `2^29` bytes. -/
structure HashesApart (env : Env) (s₀ : DataFlow) (es : List (ByteMem × Operation)) : Prop where
  short : ∀ ctx_id bytes, HashedIn env s₀ es ctx_id bytes → bytes.length < 2^29
  apart : ∀ ctx_id ctx_id' bytes bytes', HashedIn env s₀ es ctx_id bytes →
    HashedIn env s₀ es ctx_id' bytes' →
    ¬Collide compress initWords (paddedBlocks bytes) initWords (paddedBlocks bytes')

variable {env : Env} {s₀ s s' : DataFlow} {es : List (ByteMem × Operation)}
  {e : ByteMem × Operation} {ctx_id : ℤ} {bytes : List UInt8}

/-- What is hashed in a run with one more operation: what was hashed before, and what that operation
hashes. -/
theorem hashedIn_append_singleton (hrun : run (opCallback env) s₀ es = some s)
    (hstep : opCallback env s e = some s') :
    HashedIn env s₀ (es ++ [e]) ctx_id bytes ↔ HashedIn env s₀ es ctx_id bytes ∨
      ctx_id = e.2.ctx_id ∧ ∃ m memory, e.2.Hashes m ∧ s.memories.find? m = some memory ∧
        bytes = e.2.hashed s'.host memory := by
  constructor
  · rintro ⟨before, e', later, s₁, s₂, m, memory, heq, hrun₁, hstep₁, hctx, hm, hmemory, hbytes⟩
    rcases split_append_singleton heq with ⟨rfl, rfl, rfl⟩ | ⟨later', rfl, rfl⟩
    · obtain rfl := Option.some.inj (hrun.symm.trans hrun₁)
      obtain rfl := Option.some.inj (hstep.symm.trans hstep₁)
      exact .inr ⟨hctx, m, memory, hm, hmemory, hbytes⟩
    · exact .inl ⟨before, e', later', s₁, s₂, m, memory, rfl, hrun₁, hstep₁, hctx, hm, hmemory,
        hbytes⟩
  · rintro (⟨before, e', later, s₁, s₂, m, memory, rfl, hrun₁, hstep₁, hctx, hm, hmemory, hbytes⟩ |
      ⟨hctx, m, memory, hm, hmemory, hbytes⟩)
    · refine ⟨before, e', later ++ [e], s₁, s₂, m, memory, ?_, hrun₁, hstep₁, hctx, hm, hmemory,
        hbytes⟩
      rw [List.append_assoc, List.cons_append]
    · exact ⟨es, e, [], s, s', m, memory, rfl, hrun, hstep, hctx, hm, hmemory, hbytes⟩

/-- A context with a hash has one hash when it has no other one. -/
theorem hasOneHash_iff_forall {node_hash : OrderedMap ℤ (OrderedSet String)} {a : ℤ}
    {hash : String} (h : HasHash node_hash a hash) :
    HasOneHash node_hash a ↔ ∀ x, HasHash node_hash a x → x = hash := by
  have hsize : (node_hash.findD a ∅).elems.length = (node_hash.findD a ∅).size :=
    List.length_map _
  have hnodup : (node_hash.findD a ∅).elems.Nodup := (node_hash.findD a ∅).nodup_keys
  have hpos : 0 < (node_hash.findD a ∅).elems.length := List.length_pos_of_mem h
  unfold HasOneHash
  rw [← hsize]
  constructor
  · intro hone x hx
    obtain ⟨y, hy⟩ := List.length_eq_one_iff.1 hone
    unfold HasHash at h hx
    rw [hy, List.mem_singleton] at h hx
    rw [h, hx]
  · intro hall
    rw [List.eq_replicate_of_mem hall, List.nodup_replicate] at hnodup
    omega

section Run

variable {host : ByteMem} {read_trace_ignore : Bool}

/-- The hashes of a context after a run are those of the bytes that its operations hashed. -/
theorem hasHash_run (hplaced : AllSteps (opCallback env) (fun s e => e.2.Placed s.memories)
      (init host read_trace_ignore true) es)
    (hrun : run (opCallback env) (init host read_trace_ignore true) es = some s) :
    Buffers s.memories ∧ s.data_flow_hash = true ∧ ∀ ctx_id hash,
      HasHash s.node_hash ctx_id hash ↔ ∃ bytes,
        HashedIn env (init host read_trace_ignore true) es ctx_id bytes ∧
          hash = env.sha256 bytes := by
  induction es using List.reverseRecOn generalizing s with
  | nil =>
    cases hrun
    refine ⟨buffers_init _ _ _, rfl, fun ctx_id hash => iff_of_false ?_ ?_⟩
    · exact fun hmem => absurd hmem (List.not_mem_nil)
    · rintro ⟨bytes, ⟨before, e, later, _, _, _, _, heq, _⟩, -⟩
      exact absurd heq (by simp)
  | append_singleton es e ih =>
    obtain ⟨s₁, hrun₁, hstep⟩ := run_append_singleton.1 hrun
    obtain ⟨hbuffers, hhash, ih⟩ := ih hplaced.of_append hrun₁
    have hlast := hplaced.last hrun₁
    obtain ⟨hhash', hbytes, -⟩ := hashesContent_of_step hbuffers hlast hhash hstep
    refine ⟨hbuffers.after_opCallback hlast hstep, hhash', fun ctx_id hash => ?_⟩
    simp only [hashedIn_append_singleton hrun₁ hstep, or_and_right, exists_or]
    refine (hbytes ctx_id hash).trans (or_congr (ih ctx_id hash) ⟨?_, ?_⟩)
    · rintro ⟨hctx, m, memory, hm, hmemory, rfl⟩
      exact ⟨_, ⟨hctx, m, memory, hm, hmemory, rfl⟩, rfl⟩
    · rintro ⟨bytes, ⟨hctx, m, memory, hm, hmemory, rfl⟩, rfl⟩
      exact ⟨hctx, m, memory, hm, hmemory, rfl⟩

end Run

variable {ratio_below_limit : ℤ → ℕ → Bool} {host : ByteMem} {read_trace_ignore : Bool}

/-- Byte strings of a run whose hashes do not collide have one hash only when they are equal. -/
theorem HashesApart.hash_eq_iff (h : HashesApart (sha256Env ratio_below_limit) s₀ es)
    {ctx_id' : ℤ} {bytes' : List UInt8}
    (hbytes : HashedIn (sha256Env ratio_below_limit) s₀ es ctx_id bytes)
    (hbytes' : HashedIn (sha256Env ratio_below_limit) s₀ es ctx_id' bytes') :
    (sha256Env ratio_below_limit).sha256 bytes = (sha256Env ratio_below_limit).sha256 bytes' ↔
      bytes = bytes' := by
  have hlt := h.short _ _ hbytes
  have hlt' := h.short _ _ hbytes'
  refine ⟨fun heq => ?_, congrArg _⟩
  by_contra hne
  refine h.apart _ _ _ _ hbytes hbytes' (collide_of_ne hlt hlt' hne ?_)
  dsimp only [sha256Env] at heq
  rw [sha256_eq (by omega), sha256_eq (by omega), Option.getD_some, Option.getD_some,
    String.ofList_inj] at heq
  exact digest_injective (flatMap_hexByte_injective heq)

/-- For every run with hashing, of which no two byte strings hashed collide: `analyze_duplicate`
relates two contexts exactly when they hashed some bytes in common, and totally exactly when neither
hashed any others. -/
theorem duplicate_iff (order : VisitOrder)
    (hplaced : AllSteps (opCallback (sha256Env ratio_below_limit))
      (fun s e => e.2.Placed s.memories) (init host read_trace_ignore true) es)
    (hrun : run (opCallback (sha256Env ratio_below_limit)) (init host read_trace_ignore true) es =
      some s)
    (hapart : HashesApart (sha256Env ratio_below_limit) (init host read_trace_ignore true) es)
    (a b : ℤ) :
    let hashed := HashedIn (sha256Env ratio_below_limit) (init host read_trace_ignore true) es
    (((analyzeDuplicate order s.node_hash).get? a b).isSome ↔
      a ≠ b ∧ ∃ bytes, hashed a bytes ∧ hashed b bytes) ∧
    ((analyzeDuplicate order s.node_hash).get? a b = some true ↔
      a ≠ b ∧ ∃ bytes, (∀ x, hashed a x ↔ x = bytes) ∧ ∀ x, hashed b x ↔ x = bytes) := by
  intro hashed
  obtain ⟨-, -, hhash⟩ := hasHash_run hplaced hrun
  -- A hash in common comes from bytes in common.
  have hcommon : (∃ hash, HasHash s.node_hash a hash ∧ HasHash s.node_hash b hash) ↔
      ∃ bytes, hashed a bytes ∧ hashed b bytes := by
    simp only [hhash]
    constructor
    · rintro ⟨hash, ⟨bytes, ha, rfl⟩, bytes', hb, heq⟩
      rw [hapart.hash_eq_iff ha hb] at heq
      exact ⟨bytes, ha, heq ▸ hb⟩
    · rintro ⟨bytes, ha, hb⟩
      exact ⟨_, ⟨bytes, ha, rfl⟩, bytes, hb, rfl⟩
  have hone : ∀ {c : ℤ} {bytes : List UInt8}, hashed c bytes →
      (HasOneHash s.node_hash c ↔ ∀ x, hashed c x ↔ x = bytes) := fun {c bytes} hbytes => by
    rw [hasOneHash_iff_forall ((hhash c _).2 ⟨bytes, hbytes, rfl⟩)]
    constructor
    · refine fun hall x => ⟨fun hx => ?_, fun heq => heq ▸ hbytes⟩
      exact (hapart.hash_eq_iff hx hbytes).1 (hall _ ((hhash c _).2 ⟨x, hx, rfl⟩))
    · intro hall hash hmem
      obtain ⟨x, hx, rfl⟩ := (hhash c hash).1 hmem
      rw [(hall x).1 hx]
  constructor
  · rw [Option.isSome_iff_exists, ← hcommon]
    simp only [get?_analyzeDuplicate, exists_and_left, exists_eq, and_true]
  · rw [get?_analyzeDuplicate, hcommon, and_assoc, eq_comm (a := true), Bool.and_eq_true,
      decide_eq_true_eq, decide_eq_true_eq]
    refine and_congr_right fun _ => ⟨?_, ?_⟩
    · rintro ⟨⟨bytes, ha, hb⟩, honea, honeb⟩
      exact ⟨bytes, (hone ha).1 honea, (hone hb).1 honeb⟩
    · rintro ⟨bytes, ha, hb⟩
      have hbytesa := (ha bytes).2 rfl
      have hbytesb := (hb bytes).2 rfl
      exact ⟨⟨bytes, hbytesa, hbytesb⟩, (hone hbytesa).2 ha, (hone hbytesb).2 hb⟩

/-- The state at first. -/
abbrev atFirst : DataFlow := init (fun _ => 0) false true

/-- Nothing is compared when memory is copied or set. -/
abbrev noCompare : Env := sha256Env fun _ _ => false

/-- An object is allocated, and set twice to the same value. -/
def setTwice : List (ByteMem × Operation) :=
  [(fun _ => 0, .memory (smallObject 7 1)),
    (fun _ => 0, .memset ⟨⟨8, 2, 7, 0, 7000, 8⟩, 14000, 5⟩),
    (fun _ => 0, .memset ⟨⟨9, 3, 7, 0, 7000, 8⟩, 14000, 5⟩)]

/-- Both times the same bytes are hashed. -/
theorem eq_of_hashedIn_setTwice (h : HashedIn noCompare atFirst setTwice ctx_id bytes) :
    bytes = List.replicate 8 5 := by
  obtain ⟨before, e, later, s, s', m, memory, heq, hrun, hstep, -, hm, hmemory, rfl⟩ := h
  -- What is hashed for the object, after the operations before.
  let bytesOf (before : List (ByteMem × Operation)) (e : ByteMem × Operation) :
      Option (List UInt8) :=
    (run (opCallback noCompare) atFirst before).bind
      fun s => (opCallback noCompare s e).bind fun s' =>
        (s.memories.find? 7).map fun memory => e.2.hashed s'.host memory
  have hbytes : m = 7 → bytesOf before e = some (e.2.hashed s'.host memory) := by
    rintro rfl
    dsimp only [bytesOf]
    rw [hrun, Option.bind_some, hstep, Option.bind_some, hmemory, Option.map_some]
  rcases before with _ | ⟨e₁, _ | ⟨e₂, _ | ⟨e₃, before⟩⟩⟩ <;>
    simp only [setTwice, List.nil_append, List.cons_append, List.cons.injEq] at heq
  · obtain ⟨rfl, -⟩ := heq
    exact absurd hm id
  · obtain ⟨rfl, rfl, -⟩ := heq
    refine Option.some.inj ((hbytes hm.symm).symm.trans ?_)
    decide +kernel
  · obtain ⟨rfl, rfl, rfl, -⟩ := heq
    refine Option.some.inj ((hbytes hm.symm).symm.trans ?_)
    decide +kernel
  · exact absurd heq.2.2.2 (by simp)

/-- The statement about duplicates applies to the two contexts that set the object. -/
theorem duplicate_setTwice : ∃ s,
    run (opCallback noCompare) atFirst setTwice = some s ∧
      (((analyzeDuplicate .increasing s.node_hash).get? 2 3).isSome ↔ (2 : ℤ) ≠ 3 ∧ ∃ bytes,
        HashedIn noCompare atFirst setTwice 2 bytes ∧
          HashedIn noCompare atFirst setTwice 3 bytes) := by
  have hsome : (run (opCallback noCompare) atFirst setTwice).isSome := by decide +kernel
  obtain ⟨s, hrun⟩ := Option.isSome_iff_exists.1 hsome
  refine ⟨s, hrun, (duplicate_iff .increasing ?_ hrun ⟨fun _ bytes h => ?_,
    fun _ _ bytes bytes' h h' => ?_⟩ 2 3).1⟩
  · refine ⟨⟨⟨⟨smallObject 7 1, by decide, by decide, by decide, by decide⟩, rfl⟩,
      fun _ _ hm hlt => absurd hlt (untracked_init hm)⟩, fun _ _ => ?_⟩
    exact ⟨trivial, fun _ _ => ⟨trivial, fun _ _ => trivial⟩⟩
  · rw [eq_of_hashedIn_setTwice h]
    decide
  · rw [eq_of_hashedIn_setTwice h, eq_of_hashedIn_setTwice h']
    decide +kernel

end TenProf.DataFlow
