import TenProf.TorchView.Context

/-!
# What a kernel's trace is attributed to

A kernel's accesses are delivered by `unit_access` between `analysis_begin` and `analysis_end`, and
`kernel_op_callback` maps them to the nodes of the current inputs. `unit_access` keeps the first
access of each instruction only (`delivered_of_run`). So an instruction is logged at exactly the
inputs that its first access hits, and it is delayed with the address of its first access exactly
when that hits none (`attributed_iff`).
-/

namespace TenProf.TorchView

/-- The events that deliver the trace of a kernel. -/
def Event.IsDelivery : Event → Prop
  | .analysisBegin _ => True
  | .unitAccess _ _ _ => True
  | .analysisEnd => True
  | _ => False

/-- The accesses that events deliver: the instruction and the address of each. -/
def accessesIn (es : List Event) : List (ℕ × ℕ) :=
  es.filterMap fun e => match e with
    | .unitAccess pc addr _ => some (pc, addr)
    | _ => none

/-- The address of the first access of an instruction. -/
def firstAccess (es : List Event) (pc : ℕ) : Option ℕ :=
  ((accessesIn es).find? fun access => access.1 = pc).map Prod.snd

/-- An access hits a node, by `new_get_view_nodes_by_mem_addr`. -/
def HitBy (env : Env) (s : TorchView) (addr : ℕ) (n : ViewNode) : Prop :=
  ∃ hits cells,
    newGetViewNodesByMemAddr env s s.attribution.cells addr false = some (hits, cells) ∧ n ∈ hits

/-- An access is in the delayed trace. -/
def Delayed (a : Attribution) (pc addr : ℕ) : Prop :=
  ∃ d m, a.delayed_trace = some d ∧ d.access_memory.find? pc = some m ∧ (m.find? addr).isSome

/-- What the open trace has for an instruction. -/
def accessesAt (a : Attribution) (pc : ℕ) : Option (OrderedMap ℕ ℕ) :=
  a.trace.bind fun t => t.access_memory.find? pc

/-- The accesses of an instruction that has only one. -/
def single (addr : ℕ) : OrderedMap ℕ ℕ := (∅ : OrderedMap ℕ ℕ).emplace addr 0

/-- A function that only changes the trace and the members for copies. -/
def OnlyTrace (a a' : Attribution) : Prop :=
  a' = { a with
    trace := a'.trace
    is_aten_copy_domain := a'.is_aten_copy_domain
    aten_copy_pystate_hash := a'.aten_copy_pystate_hash
    aten_copy_tar := a'.aten_copy_tar
    aten_copy_src := a'.aten_copy_src }

/-- What the delivery of a trace does to a state in which no trace was open. -/
structure Delivered (es : List Event) (s s' : TorchView) : Prop where
  frame : s' = { s with attribution := s'.attribution }
  attribution : OnlyTrace s.attribution s'.attribution
  accesses : ∀ pc, accessesAt s'.attribution pc = (firstAccess es pc).map single

section Delivery

variable {env : Env} {s s₀ s' : TorchView} {es : List Event}

/-- The first access of an instruction stays the first. -/
theorem firstAccess_append (es es' : List Event) (pc : ℕ) :
    firstAccess (es ++ es') pc = (firstAccess es pc).or (firstAccess es' pc) := by
  simp only [firstAccess, accessesIn, List.filterMap_append, List.find?_append, Option.map_or]

theorem OnlyTrace.trans {a₁ a₂ a₃ : Attribution} (h₁ : OnlyTrace a₁ a₂) (h₂ : OnlyTrace a₂ a₃) :
    OnlyTrace a₁ a₃ := by
  unfold OnlyTrace at h₁ h₂ ⊢
  rw [h₂, h₁]

/-- `analysis_begin` opens a trace if none is open. -/
theorem onlyTrace_analysisBegin (hcpu : s.torch_view_ongpu = false)
    (dict : GpuPatch.TorchviewDict) : OnlyTrace s.attribution (analysisBegin s dict) ∧
      ∀ pc, accessesAt (analysisBegin s dict) pc = accessesAt s.attribution pc := by
  simp only [analysisBegin, hcpu, Bool.false_eq_true, if_false, OnlyTrace, accessesAt]
  refine ⟨by split_ifs <;> rfl, fun pc => ?_⟩
  cases s.attribution.trace <;> split_ifs <;> simp

/-- `analysis_end` leaves the trace open. -/
theorem onlyTrace_analysisEnd (a : Attribution) :
    OnlyTrace a (analysisEnd a) ∧ ∀ pc, accessesAt (analysisEnd a) pc = accessesAt a pc := by
  simp only [analysisEnd, OnlyTrace, accessesAt]
  refine ⟨by split_ifs <;> rfl, fun pc => ?_⟩
  split_ifs <;> rfl

/-- `unit_access` adds the first access of an instruction. -/
theorem onlyTrace_unitAccess {a a' : Attribution} {pc addr flags : ℕ}
    (h : unitAccess a pc addr flags = some a') :
    OnlyTrace a a' ∧ ∀ x, accessesAt a' x =
      (accessesAt a x).or (if x = pc then some (single addr) else none) := by
  simp only [unitAccess, Option.map_eq_some_iff] at h
  obtain ⟨t, ht, rfl⟩ := h
  by_cases hseen : (t.access_memory.find? pc).isSome
  · -- The instruction has its first access, and this one is dropped.
    rw [if_pos hseen]
    refine ⟨rfl, fun x => ?_⟩
    obtain ⟨m, hm⟩ := Option.isSome_iff_exists.1 hseen
    by_cases hx : x = pc
    · simp [accessesAt, ht, hx, hm]
    · simp [hx]
  · -- The access is the instruction's first.
    rw [if_neg hseen]
    refine ⟨rfl, fun x => ?_⟩
    have hnone : t.access_memory.find? pc = none := by simpa using hseen
    by_cases hx : x = pc
    · simp [accessesAt, ht, hx, hnone, single]
    · simp [accessesAt, ht, hx, OrderedMap.find?_set_of_ne]

/-- One more event of a delivery. -/
theorem Delivered.after_step (h : Delivered es s₀ s) (hcpu : s₀.torch_view_ongpu = false)
    {e : Event} (he : e.IsDelivery) (hstep : step env s e = some s') :
    Delivered (es ++ [e]) s₀ s' := by
  -- It is enough to say what the event adds for each instruction.
  have hextend : ∀ a, OnlyTrace s.attribution a →
      (∀ pc, accessesAt a pc = (accessesAt s.attribution pc).or ((firstAccess [e] pc).map single)) →
      Delivered (es ++ [e]) s₀ { s with attribution := a } := by
    intro a honly haccesses
    refine ⟨by rw [h.frame], h.attribution.trans honly, fun pc => ?_⟩
    rw [haccesses, h.accesses, firstAccess_append, Option.map_or]
  cases e with
  | analysisBegin dict =>
    cases hstep
    have hcpu' : s.torch_view_ongpu = false := by rw [h.frame, hcpu]
    obtain ⟨honly, haccesses⟩ := onlyTrace_analysisBegin hcpu' dict
    exact hextend _ honly fun pc => by rw [haccesses]; exact (Option.or_none).symm
  | unitAccess pc addr flags =>
    obtain ⟨a, ha, rfl⟩ := Option.map_eq_some_iff.1 hstep
    obtain ⟨honly, haccesses⟩ := onlyTrace_unitAccess ha
    refine hextend a honly fun x => ?_
    rw [haccesses]
    by_cases hx : x = pc
    · simp [firstAccess, accessesIn, hx]
    · simp [firstAccess, accessesIn, hx, Ne.symm hx]
  | analysisEnd =>
    cases hstep
    obtain ⟨honly, haccesses⟩ := onlyTrace_analysisEnd s.attribution
    exact hextend _ honly fun pc => by rw [haccesses]; exact (Option.or_none).symm
  | _ => exact absurd he id

/-- The events of a delivery. -/
theorem Delivered.after_run {es' : List Event} (h : Delivered es s₀ s)
    (hcpu : s₀.torch_view_ongpu = false) (hes : ∀ e ∈ es', e.IsDelivery)
    (hrun : run (step env) s es' = some s') : Delivered (es ++ es') s₀ s' := by
  induction es' generalizing es s with
  | nil =>
    cases hrun
    rwa [List.append_nil]
  | cons e es' ih =>
    obtain ⟨he, hes⟩ := List.forall_mem_cons.1 hes
    obtain ⟨s₁, h₁, hrun⟩ := Option.bind_eq_some_iff.1 hrun
    have hmore := ih (h.after_step hcpu he h₁) hes hrun
    rwa [List.append_assoc, List.singleton_append] at hmore

/-- A delivery keeps the first access of each instruction. -/
theorem delivered_of_run (hcpu : s.torch_view_ongpu = false) (hclosed : s.attribution.trace = none)
    (hes : ∀ e ∈ es, e.IsDelivery) (hrun : run (step env) s es = some s') : Delivered es s s' := by
  have hstart : Delivered [] s s :=
    ⟨rfl, rfl, fun pc => by simp [accessesAt, hclosed, firstAccess, accessesIn]⟩
  exact hstart.after_run hcpu hes hrun

/-- A delivery leaves the call paths as they are. -/
theorem Delivered.pcsOf_eq (h : Delivered es s s') (id c : ℕ) :
    pcsOf s'.attribution id c = pcsOf s.attribution id c := by
  rw [h.attribution]
  rfl

/-- A delivery leaves the delayed trace as it is. -/
theorem Delivered.delayed_iff (h : Delivered es s s') (pc addr : ℕ) :
    Delayed s'.attribution pc addr ↔ Delayed s.attribution pc addr := by
  rw [h.attribution]
  rfl

/-- A delivery leaves the nodes that an access hits as they are. -/
theorem Delivered.hitBy_iff (h : Delivered es s s') (addr : ℕ) (n : ViewNode) :
    HitBy env s' addr n ↔ HitBy env s addr n := by
  have hcells : s'.attribution.cells = s.attribution.cells := by rw [h.attribution]
  rw [HitBy, HitBy, hcells, h.frame]
  rfl

end Delivery

section Loop

variable {env : Env} {s : TorchView} {a a' : Attribution} {ctx_id : ℕ}

/-- A lookup finds the same nodes whatever was done to the cells. -/
theorem mem_lookup_congr {cells cells' m : OrderedMap ℕ NodeCell} {hits : List ViewNode}
    {addr : ℕ} {is_delay : Bool} (hkept : CellsKept cells cells')
    (h : newGetViewNodesByMemAddr env s cells' addr is_delay = some (hits, m)) :
    ∃ hits' m', newGetViewNodesByMemAddr env s cells addr is_delay = some (hits', m') ∧
      ∀ n, n ∈ hits' ↔ n ∈ hits := by
  obtain ⟨possible, hpossible, hsorted⟩ := Option.bind_eq_some_iff.1 h
  obtain ⟨cells₁, hsort, -⟩ := Option.map_eq_some_iff.1 hsorted
  -- The nodes had cells before, because they have cells now.
  have hsome : ∀ n ∈ possible, (cells.find? n.ptr).isSome := fun n hn => by
    obtain ⟨c, hc, -⟩ := isSorted_of_sortCells hsort hn
    have hback : CellsKept cells₁ cells := (hkept.trans (cellsKept_sortCells hsort)).symm
    exact hback.isSome (by rw [hc]; rfl)
  obtain ⟨hits', m', h', -⟩ := newGetViewNodesByMemAddr_eq_some env hpossible hsome
  refine ⟨hits', m', h', fun n => ?_⟩
  rw [mem_newGetViewNodesByMemAddr hpossible h', mem_newGetViewNodesByMemAddr hpossible h,
    sortedDims, sortedDims, hkept n.ptr]

/-- The nodes that a lookup returns are those that the access hits, whatever was done to the cells
before. -/
theorem hitBy_iff_mem {cells : OrderedMap ℕ NodeCell} {hits : List ViewNode} {addr : ℕ}
    (hkept : CellsKept s.attribution.cells a.cells)
    (hlookup : newGetViewNodesByMemAddr env s a.cells addr false = some (hits, cells))
    (n : ViewNode) : HitBy env s addr n ↔ n ∈ hits := by
  obtain ⟨hits', m, hlookup', hmem⟩ := mem_lookup_congr hkept hlookup
  rw [← hmem]
  constructor
  · rintro ⟨hits₂, m₂, h₂, hn⟩
    rw [hlookup', Option.some.injEq, Prod.mk.injEq] at h₂
    rwa [h₂.1]
  · exact fun hn => ⟨hits', m, hlookup', hn⟩

/-- A node that an access hits is a node of the forest. -/
theorem HitBy.mem_nodesOf {addr : ℕ} {n : ViewNode} (h : HitBy env s addr n) :
    n ∈ Tree.nodesOf s.roots := by
  obtain ⟨hits, cells, hlookup, hn⟩ := h
  obtain ⟨possible, hpossible, hsorted⟩ := Option.bind_eq_some_iff.1 hlookup
  exact possibleNodes_subset hpossible n
    ((mem_newGetViewNodesByMemAddr hpossible hlookup n).1 hn).1

/-- What the loop of `kernel_op_callback` over some accesses does. -/
structure Attributed (env : Env) (s : TorchView) (ctx_id : ℕ) (accesses : List (ℕ × ℕ))
    (a a' : Attribution) : Prop where
  cells : CellsKept a.cells a'.cells
  pcs : ∀ id c pc, pc ∈ pcsOf a' id c ↔ pc ∈ pcsOf a id c ∨
    c = ctx_id ∧ ∃ addr n, (pc, addr) ∈ accesses ∧ HitBy env s addr n ∧ n.view_id = id
  delayed : ∀ pc addr, Delayed a' pc addr ↔ Delayed a pc addr ∨
    (pc, addr) ∈ accesses ∧ ∀ n, ¬HitBy env s addr n
  traced : a.delayed_trace.isSome → a'.delayed_trace.isSome

theorem Attributed.refl (a : Attribution) : Attributed env s ctx_id [] a a :=
  ⟨CellsKept.refl _, by simp, by simp, id⟩

theorem Attributed.trans {l l' : List (ℕ × ℕ)} {a₁ a₂ a₃ : Attribution}
    (h₁ : Attributed env s ctx_id l a₁ a₂) (h₂ : Attributed env s ctx_id l' a₂ a₃) :
    Attributed env s ctx_id (l ++ l') a₁ a₃ where
  cells := h₁.cells.trans h₂.cells
  pcs id c pc := by
    rw [h₂.pcs, h₁.pcs, or_assoc]
    simp only [List.mem_append, ← and_or_left, or_and_right, exists_or]
  delayed pc addr := by
    rw [h₂.delayed, h₁.delayed, or_assoc, List.mem_append, or_and_right]
  traced h := h₂.traced (h₁.traced h)

/-- Delaying an access adds it to the delayed trace. -/
theorem delayed_delayAccess (trace : Trace) {pc mem_start : ℕ} (h : a.delayed_trace.isSome)
    (x addr : ℕ) : Delayed (delayAccess trace ctx_id pc mem_start a) x addr ↔
      Delayed a x addr ∨ x = pc ∧ addr = mem_start := by
  obtain ⟨d, hd⟩ := Option.isSome_iff_exists.1 h
  simp only [Delayed, delayAccess, hd, Option.map_some, Option.some.injEq, exists_and_left,
    exists_eq_left']
  by_cases hx : x = pc
  · subst hx
    simp only [OrderedMap.find?_set_self, Option.some.injEq, exists_eq_left',
      OrderedMap.find?_emplace, OrderedMap.findD, true_and]
    by_cases haddr : addr = mem_start
    · simp [haddr]
    · cases hm : d.access_memory.find? x <;> simp [haddr]
  · simp [OrderedMap.find?_set_of_ne, hx]

/-- One turn of the loop for an instruction that was not seen. -/
theorem attributed_kernelAccess {trace : Trace} {access : ℕ × ℕ}
    {cache cache' : OrderedMap ℕ (List ViewNode)} (hcache : cache.find? access.1 = none)
    (hkept : CellsKept s.attribution.cells a.cells) (htraced : a.delayed_trace.isSome)
    (h : kernelAccess env s trace ctx_id (a, cache) access = some (a', cache')) :
    Attributed env s ctx_id [access] a a' ∧
      ∀ x, x ≠ access.1 → cache'.find? x = cache.find? x := by
  obtain ⟨pc, mem_start⟩ := access
  rcases kernelAccess_eq_some h with ⟨hseen, -⟩ | ⟨-, hits, cells, a₁, hlookup, hlogged, rfl, rfl⟩
  · rw [hcache] at hseen
    exact absurd hseen (by simp)
  have hhit := hitBy_iff_mem hkept hlookup
  refine ⟨⟨?_, fun id c x => ?_, fun x addr => ?_, fun hsome => ?_⟩,
    fun x hx => OrderedMap.find?_set_of_ne _ hx _⟩
  · split_ifs
    · exact hlogged.kept.cells
    · exact hlogged.kept.cells
  · -- The instruction is logged at the nodes that are hit.
    have hpcs : pcsOf (if hits = [] then delayAccess trace ctx_id pc mem_start a₁ else a₁) id c =
        pcsOf a₁ id c := by split_ifs <;> rfl
    rw [hpcs, hlogged.pcs, List.mem_map]
    refine or_congr_right ⟨?_, ?_⟩
    · rintro ⟨⟨n, hn, rfl⟩, rfl, rfl⟩
      exact ⟨rfl, mem_start, n, List.mem_singleton_self _, (hhit n).2 hn, rfl⟩
    · rintro ⟨rfl, addr, n, hin, hn, rfl⟩
      obtain ⟨rfl, rfl⟩ := Prod.mk.inj (List.mem_singleton.1 hin)
      exact ⟨⟨n, (hhit n).1 hn, rfl⟩, rfl, rfl⟩
  · -- The access is delayed if there are none.
    have hsame : Delayed a₁ x addr ↔ Delayed a x addr := by rw [Delayed, Delayed, hlogged.delayed]
    have hnone : (∀ n, ¬HitBy env s mem_start n) ↔ hits = [] := by
      simp only [hhit, List.eq_nil_iff_forall_not_mem]
    simp only [List.mem_singleton, Prod.mk.injEq]
    by_cases hempty : hits = []
    · rw [if_pos hempty, delayed_delayAccess trace (by rwa [hlogged.delayed]), hsame]
      refine or_congr_right ⟨?_, fun h => h.1⟩
      rintro ⟨rfl, rfl⟩
      exact ⟨⟨rfl, rfl⟩, hnone.2 hempty⟩
    · rw [if_neg hempty, hsame]
      refine (or_iff_left ?_).symm
      rintro ⟨⟨rfl, rfl⟩, hall⟩
      exact hempty (hnone.1 hall)
  · rw [← hlogged.delayed] at hsome
    split_ifs
    · simpa [delayAccess] using hsome
    · exact hsome

/-- The loop over the accesses of different instructions. -/
theorem attributed_kernelAccesses {trace : Trace} {accesses : List (ℕ × ℕ)}
    {st : Attribution × OrderedMap ℕ (List ViewNode)}
    {cache : OrderedMap ℕ (List ViewNode)} (hnodup : (accesses.map Prod.fst).Nodup)
    (hcache : ∀ access ∈ accesses, cache.find? access.1 = none)
    (hkept : CellsKept s.attribution.cells a.cells) (htraced : a.delayed_trace.isSome)
    (h : accesses.foldlM (kernelAccess env s trace ctx_id) (a, cache) = some st) :
    Attributed env s ctx_id accesses a st.1 := by
  induction accesses generalizing a cache with
  | nil =>
    cases h
    exact Attributed.refl a
  | cons access accesses ih =>
    obtain ⟨⟨a₁, cache₁⟩, h₁, h⟩ := Option.bind_eq_some_iff.1 h
    obtain ⟨hfirst, hcaches⟩ :=
      attributed_kernelAccess (hcache _ List.mem_cons_self) hkept htraced h₁
    rw [List.map_cons, List.nodup_cons] at hnodup
    -- The later accesses are of other instructions, so they are not in the cache.
    have hcache₁ : ∀ other ∈ accesses, cache₁.find? other.1 = none := fun other hin => by
      rw [hcaches other.1 fun heq => hnodup.1 (heq ▸ List.mem_map_of_mem hin)]
      exact hcache other (List.mem_cons_of_mem _ hin)
    exact hfirst.trans (ih hnodup.2 hcache₁ (hkept.trans hfirst.cells) (hfirst.traced htraced) h)

end Loop

section Kernel

variable {env : Env} {s s' : TorchView} {es : List Event} {ctx_id : ℕ} {frames : List PythonState}

/-- The accesses of a trace that has at most one for each instruction. -/
theorem accessesOf_single {access_memory : OrderedMap ℕ (OrderedMap ℕ ℕ)} {first : ℕ → Option ℕ}
    (h : ∀ pc, access_memory.find? pc = (first pc).map single) :
    (((accessesOf access_memory).map fun access => (access.1, access.2.1)).map Prod.fst).Nodup ∧
      ∀ pc addr,
        (pc, addr) ∈ (accessesOf access_memory).map (fun access => (access.1, access.2.1)) ↔
          first pc = some addr := by
  have hsingle : ∀ e ∈ access_memory.toList, ∃ addr, first e.1 = some addr ∧ e.2 = single addr := by
    rintro ⟨pc, m⟩ he
    have hfind := (access_memory.find?_eq_some_iff pc m).2 he
    rw [h, Option.map_eq_some_iff] at hfind
    obtain ⟨addr, haddr, hm⟩ := hfind
    exact ⟨addr, haddr, hm.symm⟩
  constructor
  · -- One access for each instruction: the instructions are the keys of the map.
    have hkeys : ∀ l : List (ℕ × OrderedMap ℕ ℕ), (∀ e ∈ l, ∃ addr, e.2 = single addr) →
        ((l.flatMap fun e => e.2.toList.map fun access => (e.1, access.1, access.2)).map
          fun access => (access.1, access.2.1)).map Prod.fst = l.map Prod.fst := by
      intro l hl
      induction l with
      | nil => rfl
      | cons e l ih =>
        obtain ⟨⟨addr, hm⟩, hrest⟩ := List.forall_mem_cons.1 hl
        obtain ⟨pc, m⟩ := e
        subst hm
        rw [List.flatMap_cons, List.map_append, List.map_append, ih hrest]
        rfl
    have hmap := hkeys access_memory.toList fun e he => (hsingle e he).imp fun _ h => h.2
    exact hmap ▸ access_memory.nodup_keys
  · intro pc addr
    simp only [accessesOf, List.mem_map, List.mem_flatMap, Prod.exists, Prod.mk.injEq]
    constructor
    · rintro ⟨x, m, c, ⟨y, m_c, hin, m', c', hm, rfl, rfl, rfl⟩, rfl, rfl⟩
      obtain ⟨addr, hfirst, hm_c⟩ := hsingle _ hin
      simp only at hfirst hm_c
      subst hm_c
      have heq : (m', c') = (addr, 0) := List.mem_singleton.1 hm
      rw [hfirst, (Prod.mk.inj heq).1]
    · intro hfirst
      have hfind := h pc
      rw [hfirst, Option.map_some] at hfind
      exact ⟨pc, addr, 0, ⟨pc, _, (access_memory.find?_eq_some_iff _ _).1 hfind, addr, 0,
        List.mem_singleton_self _, rfl, rfl, rfl⟩, rfl, rfl⟩

/-- What `kernel_op_callback` does, when the trace has at most one access for each instruction. -/
theorem attributed_kernelOpCallbackCpu {first : ℕ → Option ℕ} {a a' : Attribution}
    (hcells : a.cells = s.attribution.cells)
    (haccesses : ∀ pc, accessesAt a pc = (first pc).map single)
    (h : kernelOpCallbackCpu env s a ctx_id frames = some a') :
    (∀ id c pc, pc ∈ pcsOf a' id c ↔ pc ∈ pcsOf a id c ∨
      c = ctx_id ∧ ∃ addr n, first pc = some addr ∧ HitBy env s addr n ∧ n.view_id = id) ∧
    ∀ pc addr, Delayed a' pc addr ↔ Delayed a pc addr ∨
      first pc = some addr ∧ ∀ n, ¬HitBy env s addr n := by
  unfold kernelOpCallbackCpu at h
  cases htrace : a.trace with
  | none =>
    simp only [htrace, Option.some.injEq] at h
    have hfirst : ∀ pc, first pc = none := fun pc => by
      simpa [accessesAt, htrace, eq_comm] using haccesses pc
    rw [h]
    simp [hfirst]
  | some trace =>
    simp only [htrace, Option.bind_eq_some_iff, Option.map_eq_some_iff] at h
    obtain ⟨delayed, hdelayed, st, hloop, rfl⟩ := h
    have hsingle : ∀ pc, trace.access_memory.find? pc = (first pc).map single := fun pc => by
      rw [← haccesses, accessesAt, htrace, Option.bind_some]
    obtain ⟨hnodup, hmem⟩ := accessesOf_single hsingle
    rw [← htrace] at hloop
    have hattributed := attributed_kernelAccesses (a := { a with delayed_trace := some delayed })
      hnodup (fun _ _ => rfl) (by rw [← hcells]; exact CellsKept.refl _) rfl hloop
    -- A new delayed trace is empty.
    have hstart : ∀ pc addr, Delayed { a with delayed_trace := some delayed } pc addr ↔
        Delayed a pc addr := by
      intro pc addr
      cases hd : a.delayed_trace with
      | some d =>
        simp only [hd, Option.some.injEq] at hdelayed
        simp only [Delayed, hd, hdelayed]
      | none =>
        simp only [hd, Option.map_eq_some_iff] at hdelayed
        obtain ⟨state, -, rfl⟩ := hdelayed
        simp [Delayed, hd]
    -- A delayed trace that is dropped is empty.
    have hend : ∀ pc addr, Delayed { st.1 with
        delayed_trace := st.1.delayed_trace.filter fun d => d.access_memory ≠ ∅
        trace := none } pc addr ↔ Delayed st.1 pc addr := by
      intro pc addr
      simp only [Delayed, Option.filter_eq_some_iff, decide_eq_true_eq, and_assoc]
      refine exists_congr fun d => exists_congr fun m => and_congr_right fun _ => ?_
      refine ⟨fun h => h.2, fun h => ⟨fun hempty => ?_, h⟩⟩
      rw [hempty] at h
      exact absurd h.1 (by simp)
    refine ⟨fun id c pc => ?_, fun pc addr => ?_⟩
    · have hpcs := hattributed.pcs id c pc
      simp only [hmem] at hpcs
      exact hpcs
    · rw [hend, hattributed.delayed, hstart, hmem]

/-- After a trace was delivered for a kernel that an operation launched, an instruction is logged
at exactly the nodes that its first access hits, besides those where it was before, and exactly the
first accesses that hit no node are delayed. -/
theorem attributed_iff (hinj : Function.Injective env.update_op_id_func) (hs : Reachable env s)
    (hcpu : s.torch_view_ongpu = false) (hclosed : s.attribution.trace = none)
    (hes : ∀ e ∈ es, e.IsDelivery)
    (hrun : run (step env) s (es ++ [.kernelOp ctx_id frames]) = some s') :
    (∀ v ∈ Tree.nodesOf s.roots, ∀ pc, pc ∈ pcsOf s'.attribution v.view_id ctx_id ↔
      pc ∈ pcsOf s.attribution v.view_id ctx_id ∨
        ∃ addr, firstAccess es pc = some addr ∧ HitBy env s addr v) ∧
    ∀ pc addr, Delayed s'.attribution pc addr ↔ Delayed s.attribution pc addr ∨
      firstAccess es pc = some addr ∧ ∀ v, ¬HitBy env s addr v := by
  have hinv := inv_of_reachable hinj hs
  rw [run_append, Option.bind_eq_some_iff] at hrun
  obtain ⟨s₁, h₁, hrun⟩ := hrun
  obtain ⟨a', hkernel, rfl⟩ : ∃ a', kernelOpCallback env s₁ ctx_id frames = some a' ∧
      s' = { s₁ with attribution := a' } := by
    rw [run_cons, Option.bind_eq_some_iff] at hrun
    obtain ⟨s₂, h₂, hend⟩ := hrun
    obtain ⟨a', ha', rfl⟩ := Option.map_eq_some_iff.1 h₂
    exact ⟨a', ha', (Option.some.inj hend).symm⟩
  have hdelivered := delivered_of_run hcpu hclosed hes h₁
  have hcpu₁ : s₁.torch_view_ongpu = false := by rw [hdelivered.frame, hcpu]
  simp only [kernelOpCallback, hcpu₁, Bool.false_eq_true, if_false] at hkernel
  have haccesses : ∀ pc, accessesAt { s₁.attribution with
      aten_copy_pystate_hash := env.hash (allStates frames) } pc =
        (firstAccess es pc).map single := hdelivered.accesses
  obtain ⟨hpcs, hdelay⟩ := attributed_kernelOpCallbackCpu (s := s₁) (by rfl) haccesses hkernel
  refine ⟨fun v hv pc => ?_, fun pc addr => ?_⟩
  · refine (hpcs v.view_id ctx_id pc).trans (or_congr (by rw [← hdelivered.pcsOf_eq]; rfl) ?_)
    simp only [hdelivered.hitBy_iff, true_and]
    refine exists_congr fun addr => ?_
    constructor
    · -- The nodes that are hit stand in the forest, so their ids tell them apart.
      rintro ⟨n, hfirst, hn, hid⟩
      rw [← List.inj_on_of_nodup_map hinv.id_nodup hn.mem_nodesOf hv hid]
      exact ⟨hfirst, hn⟩
    · rintro ⟨hfirst, hn⟩
      exact ⟨v, hfirst, hn, rfl⟩
  · refine (hdelay pc addr).trans (or_congr (hdelivered.delayed_iff pc addr) ?_)
    simp only [hdelivered.hitBy_iff]

end Kernel

/-- The delivery of some reads, each an instruction and an address. -/
def delivery (reads : List (ℕ × ℕ)) : List Event :=
  .analysisBegin ⟨0, 0, fun _ => ⟨0, 0⟩, 0, 0, fun _ => 0, fun _ => 0⟩ ::
    reads.map (fun read => .unitAccess read.1 read.2 GpuPatch.READ) ++ [.analysisEnd]

theorem isDelivery_delivery (reads : List (ℕ × ℕ)) : ∀ e ∈ delivery reads, e.IsDelivery := by
  intro e he
  rcases List.mem_cons.1 he with rfl | he
  · trivial
  rcases List.mem_append.1 he with he | he
  · obtain ⟨read, -, rfl⟩ := List.mem_map.1 he
    trivial
  · rw [List.mem_singleton.1 he]
    trivial

/-- Of two instructions, one reads a vector and one other memory. -/
theorem attributed_vector : ∃ s s',
    run (step countingEnv) (initial false) [.enter ⟨[], [vector 0 1000 2]⟩ []] = some s ∧
      run (step countingEnv) s (delivery [(8, 1000), (16, 5000)] ++ [.kernelOp 7 []]) = some s' ∧
      (∀ v ∈ Tree.nodesOf s.roots, ∀ pc, pc ∈ pcsOf s'.attribution v.view_id 7 ↔
        pc ∈ pcsOf s.attribution v.view_id 7 ∨
          ∃ addr, firstAccess (delivery [(8, 1000), (16, 5000)]) pc = some addr ∧
            HitBy countingEnv s addr v) ∧
      ∀ pc addr, Delayed s'.attribution pc addr ↔ Delayed s.attribution pc addr ∨
        firstAccess (delivery [(8, 1000), (16, 5000)]) pc = some addr ∧
          ∀ v, ¬HitBy countingEnv s addr v := by
  obtain ⟨s, hs, hrest⟩ := Option.bind_eq_some_iff.1
    (show ((run (step countingEnv) (initial false) [.enter ⟨[], [vector 0 1000 2]⟩ []]).bind
      fun s => (run (step countingEnv) s
        (delivery [(8, 1000), (16, 5000)] ++ [.kernelOp 7 []])).map
          fun _ => (s.torch_view_ongpu, s.attribution.trace.isNone)) =
      some (false, true) by decide +kernel)
  obtain ⟨s', hrun, hfacts⟩ := Option.map_eq_some_iff.1 hrest
  simp only [Prod.mk.injEq, Option.isNone_iff_eq_none] at hfacts
  exact ⟨s, s', hs, hrun, attributed_iff countingEnv_injective (reachable_of_run hs) hfacts.1
    hfacts.2 (isDelivery_delivery _) hrun⟩

/-- An instruction that reads other memory first and a vector then is not logged at the vector. -/
theorem not_attributed_vector : ¬∀ (env : Env) (s s' : TorchView) (es : List Event) (ctx_id : ℕ)
    (frames : List PythonState), Function.Injective env.update_op_id_func → Reachable env s →
    s.torch_view_ongpu = false → s.op_stack ≠ [] → s.attribution.trace = none →
    (∀ e ∈ es, e.IsDelivery) →
    run (step env) s (es ++ [.kernelOp ctx_id frames]) = some s' →
    (∀ v ∈ Tree.nodesOf s.roots,
      some v.ptr ∈ s.input_viewnode_forest_ptrs.toList.map Prod.snd →
        ∀ pc, pc ∈ pcsOf s'.attribution v.view_id ctx_id ↔
          pc ∈ pcsOf s.attribution v.view_id ctx_id ∨
            ∃ addr, (pc, addr) ∈ accessesIn es ∧ HitBy env s addr v) ∧
    ∀ pc addr, (pc, addr) ∈ accessesIn es → (∀ v, ¬HitBy env s addr v) →
      Delayed s'.attribution pc addr := by
  intro hall
  obtain ⟨s, hs, hrest⟩ := Option.bind_eq_some_iff.1
    (show ((run (step countingEnv) (initial false) [.enter ⟨[], [vector 0 1000 2]⟩ []]).bind
      fun s => (run (step countingEnv) s (delivery [(8, 5000), (8, 1000)] ++ [.kernelOp 7 []])).map
        fun s' => (s.torch_view_ongpu || s.op_stack.isEmpty || s.attribution.trace.isSome ||
            decide (8 ∈ pcsOf s'.attribution 1 7),
          s.input_viewnode_forest_ptrs.toList,
          (newGetViewNodesByMemAddr countingEnv s s.attribution.cells 1000 false).map Prod.fst)) =
      some (false, [(0, some 0)], some [firstVector 2]) by decide +kernel)
  obtain ⟨s', hrun, hfacts⟩ := Option.map_eq_some_iff.1 hrest
  simp only [Prod.mk.injEq, Bool.or_eq_false_iff, Option.isSome_eq_false_iff,
    Option.isNone_iff_eq_none, List.isEmpty_eq_false_iff, decide_eq_false_iff_not,
    Option.map_eq_some_iff] at hfacts
  obtain ⟨⟨⟨⟨hcpu, hstack⟩, hclosed⟩, hpcs⟩, hinputs, ⟨hits, cells⟩, hlookup, rfl⟩ := hfacts
  have hhit : HitBy countingEnv s 1000 (firstVector 2) :=
    ⟨_, cells, hlookup, List.mem_singleton_self _⟩
  have hlogged := ((hall countingEnv s s' (delivery [(8, 5000), (8, 1000)]) 7 []
    countingEnv_injective (reachable_of_run hs) hcpu hstack hclosed (isDelivery_delivery _) hrun).1
    (firstVector 2) hhit.mem_nodesOf (by simp [hinputs, firstVector]) 8).2
    (Or.inr ⟨1000, by simp [accessesIn, delivery], hhit⟩)
  exact hpcs hlogged

end TenProf.TorchView
