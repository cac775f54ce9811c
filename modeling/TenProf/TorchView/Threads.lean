import TenProf.TorchView.History

/-!
# Several threads on one stack

Each thread leaves its operations in the reverse of the order in which it entered them, but all
threads push on one stack, and an EXIT pops its top, whichever thread pushed it. Every EXIT pops
what its own ENTER pushed exactly when, at every EXIT, no operation is left open that any thread
entered later (`allTopIsOwn_iff`).
-/

namespace TenProf.TorchView

namespace History

/-- At an EXIT, the top of both stacks is what the ENTER of the same operation pushed: the one
that its thread entered last. -/
def TopIsOwn (h : History) : ℕ × Event → Prop
  | (thread, .exit _ _) => ∃ p, (h.inside thread).head? = some p ∧ h.stack.head? = some p ∧
      h.state.op_stack.head? = some p.op ∧ h.state.domain_name.head? = some p.op.name
  | _ => True

/-- At an EXIT, no thread is inside an operation that was entered after the one that is left. -/
def LastEntered (h : History) : ℕ × Event → Prop
  | (thread, .exit _ _) => ∀ p, (h.inside thread).head? = some p →
      ∀ other, ∀ q ∈ h.inside other, q.serial ≤ p.serial
  | _ => True

/-- The stack holds the operations that the threads are in, the newest first. -/
structure Stacked (h : History) : Prop where
  consistent : Consistent h
  /-- The stack holds exactly the operations that the threads are in. -/
  mem : ∀ p, p ∈ h.stack ↔ p ∈ h.inside p.thread
  /-- A thread is in operations of its own. -/
  thread : ∀ thread, ∀ p ∈ h.inside thread, p.thread = thread
  stack_sorted : h.stack.Pairwise fun p q => q.serial < p.serial
  inside_sorted : ∀ thread, (h.inside thread).Pairwise fun p q => q.serial < p.serial
  lt_entered : ∀ p ∈ h.stack, p.serial < h.entered

variable {env : Env} {h h' : History} {e : ℕ × Event}

theorem stacked_start (ongpu : Bool) : Stacked (start ongpu) where
  consistent := consistent_start ongpu
  mem := by simp [start]
  thread := by simp [start]
  stack_sorted := List.Pairwise.nil
  inside_sorted _ := List.Pairwise.nil
  lt_entered := by simp [start]

/-- The ENTER of an operation puts it on top. -/
theorem Stacked.enter (hs : Stacked h) {thread : ℕ} {op : OpData} {frames : List PythonState}
    {s' : TorchView} (hc : Consistent (h.record env s' (thread, .enter op frames))) :
    Stacked (h.record env s' (thread, .enter op frames)) := by
  -- Its number is larger than those of all operations that are open.
  have hinside : ∀ {u}, ∀ q ∈ h.inside u, q.serial < h.entered := fun {u} q hq =>
    hs.lt_entered q ((hs.mem q).2 (by rwa [hs.thread u q hq]))
  refine ⟨hc, fun p => ?_, fun u p hp => ?_, ?_, fun u => ?_, fun p hp => ?_⟩
  · by_cases hp : p.thread = thread
    · simp only [record, hp, Function.update_self, List.mem_cons, hs.mem p]
    · have hne : p ≠ h.push env thread op frames := fun heq => hp (heq ▸ rfl)
      simp only [record, Function.update_of_ne hp, List.mem_cons, hs.mem p]
      exact or_iff_right hne
  · by_cases hu : u = thread
    · subst hu
      simp only [record, Function.update_self, List.mem_cons] at hp
      rcases hp with rfl | hp
      · rfl
      · exact hs.thread u p hp
    · simp only [record, Function.update_of_ne hu] at hp
      exact hs.thread u p hp
  · exact List.pairwise_cons.2 ⟨fun q hq => hs.lt_entered q hq, hs.stack_sorted⟩
  · by_cases hu : u = thread
    · subst hu
      simp only [record, Function.update_self]
      exact List.pairwise_cons.2 ⟨fun q hq => hinside q hq, hs.inside_sorted u⟩
    · simp only [record, Function.update_of_ne hu]
      exact hs.inside_sorted u
  · rcases List.mem_cons.1 hp with rfl | hp
    · exact Nat.lt_succ_self _
    · exact (hs.lt_entered p hp).trans (Nat.lt_succ_self _)

/-- An EXIT whose own push is on top takes the operation from the stack and from its thread. -/
theorem Stacked.exit (hs : Stacked h) {thread : ℕ} {op : OpData} {frames : List PythonState}
    {s' : TorchView} (hc : Consistent (h.record env s' (thread, .exit op frames)))
    (htop : TopIsOwn h (thread, .exit op frames)) :
    Stacked (h.record env s' (thread, .exit op frames)) := by
  -- The push is the head of the stack and of its thread's operations.
  obtain ⟨p, hown, hhead, -⟩ := htop
  obtain ⟨qs, hqs⟩ := List.head?_eq_some_iff.1 hown
  obtain ⟨ps, hps⟩ := List.head?_eq_some_iff.1 hhead
  have hstack := hs.stack_sorted
  have hinside := hs.inside_sorted thread
  rw [hps] at hstack
  rw [hqs] at hinside
  obtain ⟨hlt_stack, hstack⟩ := List.pairwise_cons.1 hstack
  obtain ⟨hlt_inside, hinside⟩ := List.pairwise_cons.1 hinside
  have hthread : p.thread = thread := hs.thread thread p (by rw [hqs]; exact List.mem_cons_self)
  have htail : (h.inside thread).tail = qs := by rw [hqs, List.tail_cons]
  have hrest : h.stack.tail = ps := by rw [hps, List.tail_cons]
  refine ⟨hc, fun q => ?_, fun u q hq => ?_, ?_, fun u => ?_, fun q hq => ?_⟩
  · have hmem := hs.mem q
    rw [hps, List.mem_cons] at hmem
    by_cases hq : q.thread = thread
    · rw [hq, hqs, List.mem_cons] at hmem
      simp only [record, hq, Function.update_self, htail, hrest]
      -- The operation that is left is in neither of the rests.
      have hps_ne : q ∈ ps → q ≠ p := fun hin heq => absurd (hlt_stack q hin) (by simp [heq])
      have hqs_ne : q ∈ qs → q ≠ p := fun hin heq => absurd (hlt_inside q hin) (by simp [heq])
      tauto
    · -- An operation of another thread is not the one that is left.
      have hne : q ≠ p := fun heq => hq (heq ▸ hthread)
      simp only [record, Function.update_of_ne hq, hrest]
      tauto
  · by_cases hu : u = thread
    · subst hu
      simp only [record, Function.update_self] at hq
      exact hs.thread u q (List.mem_of_mem_tail hq)
    · simp only [record, Function.update_of_ne hu] at hq
      exact hs.thread u q hq
  · simp only [record, hrest]
    exact hstack
  · by_cases hu : u = thread
    · subst hu
      simp only [record, Function.update_self, htail]
      exact hinside
    · simp only [record, Function.update_of_ne hu]
      exact hs.inside_sorted u
  · exact hs.lt_entered q (List.mem_of_mem_tail hq)

/-- Events whose EXITs pop their own push keep the stack as it should be. -/
theorem Stacked.after_step (hs : Stacked h) (htop : TopIsOwn h e) (hstep : step env h e = some h') :
    Stacked h' := by
  have hc := hs.consistent.after_step hstep
  obtain ⟨s', -, rfl⟩ := Option.map_eq_some_iff.1 hstep
  obtain ⟨thread, e⟩ := e
  cases e with
  | enter op frames => exact hs.enter hc
  | exit op frames => exact hs.exit hc htop
  | _ => exact ⟨hc, hs.mem, hs.thread, hs.stack_sorted, hs.inside_sorted, hs.lt_entered⟩

/-- While the stack is as it should be, the top of the stack is the operation that a thread leaves
exactly if it is the newest. -/
theorem Stacked.topIsOwn_iff (hs : Stacked h) (hnested : Nested h e) :
    TopIsOwn h e ↔ LastEntered h e := by
  obtain ⟨thread, e⟩ := e
  cases e with
  | exit op frames =>
    obtain ⟨p, hown, -⟩ := hnested
    have hpinside := List.mem_of_head? hown
    have hpstack : p ∈ h.stack := (hs.mem p).2 (by rwa [hs.thread thread p hpinside])
    simp only [TopIsOwn, LastEntered, hown, Option.some.injEq, hs.consistent.op_stack,
      hs.consistent.domain_name, List.head?_map]
    constructor
    · -- Everything below the top is older.
      rintro ⟨_, rfl, hhead, -⟩ _ rfl other q hq
      obtain ⟨ps, hps⟩ := List.head?_eq_some_iff.1 hhead
      have hqstack : q ∈ h.stack := (hs.mem q).2 (by rwa [hs.thread other q hq])
      have hsorted := hs.stack_sorted
      rw [hps] at hqstack hsorted
      rcases List.mem_cons.1 hqstack with rfl | hqstack
      · exact le_rfl
      · exact ((List.pairwise_cons.1 hsorted).1 q hqstack).le
    · -- The top is open too, so it is not newer than the operation that is left.
      intro hlast
      obtain ⟨t, ps, hps⟩ := List.exists_cons_of_ne_nil (List.ne_nil_of_mem hpstack)
      have htinside : t ∈ h.inside t.thread := (hs.mem t).1 (by rw [hps]; exact List.mem_cons_self)
      have hsorted := hs.stack_sorted
      rw [hps] at hpstack hsorted
      rcases List.mem_cons.1 hpstack with rfl | hbelow
      · exact ⟨p, rfl, by simp [hps], by simp [hps], by simp [hps]⟩
      · have hlt := (List.pairwise_cons.1 hsorted).1 p hbelow
        exact absurd (hlast p rfl t.thread t htinside) (not_le.2 hlt)
  | _ => exact Iff.rfl

/-- In a run in which the events of every thread are nested, every EXIT pops what its own ENTER
pushed exactly when, at every EXIT, no operation is open that was entered later. -/
theorem allTopIsOwn_iff (env : Env) (ongpu : Bool) (es : List (ℕ × Event))
    (hnested : AllSteps (step env) Nested (start ongpu) es) :
    AllSteps (step env) TopIsOwn (start ongpu) es ↔
      AllSteps (step env) LastEntered (start ongpu) es :=
  allSteps_iff (I := Stacked) (fun _ _ hs hnested => hs.topIsOwn_iff hnested)
    (fun _ _ _ hs _ htop hstep => hs.after_step htop hstep) (stacked_start ongpu) hnested

/-- Two threads with an operation each, the second inside the first. -/
def insideOther : List (ℕ × Event) :=
  [(1, .enter ⟨['a'], []⟩ []), (2, .enter ⟨['b'], []⟩ []), (2, .exit ⟨['b'], []⟩ []),
    (1, .exit ⟨['a'], []⟩ [])]

/-- Two threads with an operation each, the first of which is left first. -/
def overlapping : List (ℕ × Event) :=
  [(1, .enter ⟨['a'], []⟩ []), (2, .enter ⟨['b'], []⟩ []), (1, .exit ⟨['a'], []⟩ [])]

/-- An operation that is entered and left while another thread is in one leaves the stack to it. -/
theorem topIsOwn_insideOther :
    AllSteps (step countingEnv) TopIsOwn (start false) insideOther := by
  have hnested : AllSteps (step countingEnv) Nested (start false) insideOther := by
    refine ⟨trivial, fun h₁ hs₁ => ⟨trivial, fun h₂ hs₂ => ⟨?_, fun h₃ hs₃ =>
      ⟨?_, fun _ _ => trivial⟩⟩⟩⟩
    all_goals
      obtain ⟨s₁, -, rfl⟩ := Option.map_eq_some_iff.1 hs₁
      obtain ⟨s₂, -, rfl⟩ := Option.map_eq_some_iff.1 hs₂
    · exact ⟨_, rfl, rfl⟩
    · obtain ⟨s₃, -, rfl⟩ := Option.map_eq_some_iff.1 hs₃
      exact ⟨_, rfl, rfl⟩
  refine (allTopIsOwn_iff countingEnv false insideOther hnested).2
    ⟨trivial, fun h₁ hs₁ => ⟨trivial, fun h₂ hs₂ => ⟨?_, fun h₃ hs₃ => ⟨?_, fun _ _ => trivial⟩⟩⟩⟩
  all_goals
    obtain ⟨s₁, -, rfl⟩ := Option.map_eq_some_iff.1 hs₁
    obtain ⟨s₂, -, rfl⟩ := Option.map_eq_some_iff.1 hs₂
  · -- The second thread leaves while the first is still inside.
    intro p hp other q hq
    have hserial : p.serial = 1 := by
      rw [← Option.some.inj hp]
      rfl
    rw [hserial]
    simp only [record, start, Function.update_apply] at hq
    split_ifs at hq <;> simp_all [push]
  · -- The first thread leaves when no other operation is open.
    obtain ⟨s₃, -, rfl⟩ := Option.map_eq_some_iff.1 hs₃
    intro p hp other q hq
    simp only [record, start, Function.update_apply] at hp hq
    split_ifs at hq <;> simp_all

/-- When the operation that was entered first is left first, the top is that of the other. -/
theorem not_topIsOwn_overlapping : ¬∀ (env : Env) (ongpu : Bool) (es : List (ℕ × Event)),
    (∀ e ∈ es, e.2.IsOperation) → AllSteps (step env) Nested (start ongpu) es →
    AllSteps (step env) TopIsOwn (start ongpu) es := by
  intro hall
  have hevents : ∀ e ∈ overlapping, e.2.IsOperation := by
    simp [overlapping, Event.IsOperation]
  have hnested : AllSteps (step countingEnv) Nested (start false) overlapping := by
    refine ⟨trivial, fun h₁ hs₁ => ⟨trivial, fun h₂ hs₂ => ⟨?_, fun _ _ => trivial⟩⟩⟩
    obtain ⟨s₁, -, rfl⟩ := Option.map_eq_some_iff.1 hs₁
    obtain ⟨s₂, -, rfl⟩ := Option.map_eq_some_iff.1 hs₂
    exact ⟨_, rfl, rfl⟩
  obtain ⟨-, htop⟩ := hall countingEnv false overlapping hevents hnested
  obtain ⟨h₁, hs₁⟩ := Option.isSome_iff_exists.1
    (show (step countingEnv (start false) (1, .enter ⟨['a'], []⟩ [])).isSome from by
      unfold step
      rw [Option.isSome_map]
      exact onEnter_isSome _ _ _ _)
  obtain ⟨-, htop⟩ := htop h₁ hs₁
  obtain ⟨h₂, hs₂⟩ := Option.isSome_iff_exists.1
    (show (step countingEnv h₁ (2, .enter ⟨['b'], []⟩ [])).isSome from by
      unfold step
      rw [Option.isSome_map]
      exact onEnter_isSome _ _ _ _)
  obtain ⟨⟨p, hown, hhead, -⟩, -⟩ := htop h₂ hs₂
  obtain ⟨s₁, -, rfl⟩ := Option.map_eq_some_iff.1 hs₁
  obtain ⟨s₂, -, rfl⟩ := Option.map_eq_some_iff.1 hs₂
  -- The push of the first thread is not the one on top.
  have hfirst : p.serial = 0 := by
    rw [← Option.some.inj hown]
    rfl
  have hsecond : p.serial = 1 := by
    rw [← Option.some.inj hhead]
    rfl
  omega

end History

end TenProf.TorchView
