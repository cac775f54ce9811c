import TenProf.TorchView.FunctionName

/-!
# The hash of a Python state

Reports are joined by the hash of a Python stack, which is computed twice: `kernel_op_callback`
hashes the text of the frames as they come, and `flush` that of a `PyStateCTX`, whose names are cut
after 511 characters and whose innermost function name has the domain behind a `^`. `flush` cuts
this name at its last `^`. `state_hash_iff` says when the two texts are the same: no name may be
cut, and the last `^` of the innermost name has to be the separator. The one way out of this is that
`flush` leaves some of the domain there and this makes up for what was cut from the innermost file
name.
-/

namespace TenProf.TorchView

/-! ## The two texts -/

/-- `std::string::rfind` of a character. -/
def rfind (c : Char) : CString → Option ℕ
  | [] => none
  | d :: s =>
    match rfind c s with
    | some k => some (k + 1)
    | none => if d = c then some 0 else none

/-- The lines of a frame, as they are hashed. -/
def lineText (f : PythonState) : CString :=
  (toString f.function_first_lineno).toList ++ (toString f.lineno).toList

/-- What is hashed for a frame, with a function name. -/
def frameText (f : PythonState) (function_name : CString) : CString :=
  f.file_name ++ function_name ++ lineText f

/-- What `flush` takes for the innermost function name: `fitst_filename` if it is not empty, and
else the whole name. -/
def strippedName (function_name : CString) : CString :=
  let fitst_filename := match rfind '^' function_name with
    | some last_slash_idx => function_name.take last_slash_idx
    | none => []
  if fitst_filename.length > 0 then fitst_filename else function_name

/-- The string that `flush` hashes. -/
def flushStates (c : PyStateCTX) : CString :=
  match c.py_state with
  | [] => []
  | p :: ps =>
    frameText p (strippedName p.function_name) ++ ps.flatMap fun q => frameText q q.function_name

/-- The `PyStateCTX` that a place builds from the frames, with the current domain. -/
def builtState (site : DomainSite) (s : TorchView) (frames : List PythonState) (index : ℤ) :
    Option PyStateCTX :=
  match site with
  | .kernel_op => delayedState s frames
  | _ => some (callPathState s frames index)

/-- The two computations of the hash agree for what a place builds from a stack. -/
def HashesAgree (site : DomainSite) (s : TorchView) (frames : List PythonState) (index : ℤ) :
    Prop :=
  ∃ c, builtState site s frames index = some c ∧ flushStates c = allStates frames

/-! ## The last separator -/

/-- A string without a character, or its split at the last one. -/
theorem rfind_cases (c : Char) (s : CString) : (c ∉ s ∧ rfind c s = none) ∨
    ∃ u v, s = u ++ c :: v ∧ c ∉ v ∧ rfind c s = some u.length := by
  induction s with
  | nil => exact .inl ⟨List.not_mem_nil, rfl⟩
  | cons d s ih =>
    rcases ih with ⟨hnone, hfind⟩ | ⟨u, v, hs, hv, hfind⟩
    · by_cases hd : d = c
      · exact .inr ⟨[], s, by rw [hd, List.nil_append], hnone, by simp [rfind, hfind, hd]⟩
      · exact .inl ⟨by simp [hnone, Ne.symm hd], by simp [rfind, hfind, hd]⟩
    · exact .inr ⟨d :: u, v, by rw [hs, List.cons_append], hv, by simp [rfind, hfind]⟩

/-- The split at the last character is the only one with none of it behind. -/
theorem rfind_append {c : Char} {u v : CString} (hv : c ∉ v) :
    rfind c (u ++ c :: v) = some u.length := by
  have hlast : rfind c v = none := by
    rcases rfind_cases c v with ⟨-, hfind⟩ | ⟨w, w', hsplit, -⟩
    · exact hfind
    · exact absurd (by simp [hsplit]) hv
  induction u with
  | nil => simp [rfind, hlast]
  | cons d u ih => simp [rfind, ih]

/-- A name without a separator is taken whole. -/
theorem strippedName_of_not_mem {s : CString} (h : '^' ∉ s) : strippedName s = s := by
  have hfind : rfind '^' s = none := by
    rcases rfind_cases '^' s with ⟨-, hfind⟩ | ⟨u, v, hsplit, -⟩
    · exact hfind
    · exact absurd (by simp [hsplit]) h
  simp [strippedName, hfind]

/-- A name is cut at its last separator, unless this is its first character. -/
theorem strippedName_append {u v : CString} (hv : '^' ∉ v) :
    strippedName (u ++ '^' :: v) = if u = [] then '^' :: v else u := by
  unfold strippedName
  rw [rfind_append hv]
  cases u <;> simp

/-- What is taken for a name is the front of it. -/
theorem strippedName_length_le (s : CString) : (strippedName s).length ≤ s.length := by
  rcases rfind_cases '^' s with ⟨hnone, -⟩ | ⟨u, v, rfl, hv, -⟩
  · rw [strippedName_of_not_mem hnone]
  · rw [strippedName_append hv]
    split <;> simp [*]

/-- A name is taken whole exactly when it has no separator after its first character. -/
theorem strippedName_eq_self_iff (s : CString) : strippedName s = s ↔ '^' ∉ s.tail := by
  rcases rfind_cases '^' s with ⟨hnone, -⟩ | ⟨u, v, rfl, hv, -⟩
  · exact iff_of_true (strippedName_of_not_mem hnone) fun hmem => hnone (List.mem_of_mem_tail hmem)
  · rw [strippedName_append hv]
    cases u with
    | nil => simp [hv]
    | cons c u => simp

/-! ## What is hashed -/

/-- The text of a frame as `flush` hashes it, with both names cut. -/
def cutText (f : PythonState) : CString :=
  tv_copy_cstr f.file_name ++ tv_copy_cstr f.function_name ++ lineText f

/-- The innermost function name in a `PyStateCTX`. -/
def firstName : List CString → CString → CString
  | [], function_name => tv_copy_cstr function_name
  | dom :: _, function_name => (tv_copy_cstr function_name ++ '^' :: dom).take 511

/-- What `flush` hashes for a stack. -/
def flushText (doms : List CString) (f : PythonState) (fs : List PythonState) : CString :=
  tv_copy_cstr f.file_name ++ strippedName (firstName doms f.function_name) ++ lineText f ++
    fs.flatMap cutText

/-- What `kernel_op_callback` hashes for a stack. -/
def kernelText (f : PythonState) (fs : List PythonState) : CString :=
  f.file_name ++ f.function_name ++ lineText f ++ fs.flatMap fun g => frameText g g.function_name

variable {s : TorchView} {f : PythonState} {fs : List PythonState}

/-- `all_states` of a stack. -/
theorem allStates_cons (hlen : (f :: fs).length ≤ MAX_NUM_STATES) :
    allStates (f :: fs) = kernelText f fs := by
  unfold allStates kernelText
  rw [if_pos hlen, List.flatMap_cons]
  simp only [frameText, lineText, List.append_assoc]

/-- The entries behind the first one. -/
theorem flatMap_cut (fs : List PythonState) :
    ((fs.map fun f => { f with
        file_name := tv_copy_cstr f.file_name
        function_name := tv_copy_cstr f.function_name }).flatMap
      fun q => frameText q q.function_name) = fs.flatMap cutText := by
  rw [List.flatMap_map]
  rfl

/-- The entries that the constructor fills from a stack that fits. -/
theorem new_py_state (index : ℤ) (hlen : (f :: fs).length ≤ MAX_NUM_STATES) :
    (PyStateCTX.new index (f :: fs)).py_state = (f :: fs).map fun f =>
      { f with
        file_name := tv_copy_cstr f.file_name
        function_name := tv_copy_cstr f.function_name } := by
  unfold PyStateCTX.new
  rw [List.take_of_length_le hlen]

/-- What `flush` hashes for what a place of `update_view_forest` builds. -/
theorem flushStates_callPathState (index : ℤ) (hlen : (f :: fs).length ≤ MAX_NUM_STATES) :
    flushStates (callPathState s (f :: fs) index) = flushText s.domain_name f fs := by
  have hstate := new_py_state index hlen
  have hshort : (tv_copy_cstr f.function_name).length ≤ 511 := List.length_take_le 511 _
  unfold callPathState
  cases hdomain : s.domain_name with
  | nil =>
    simp only [flushStates, hstate, List.map_cons, flatMap_cut]
    rfl
  | cons dom doms =>
    simp only [flushStates, PyStateCTX.mapFunctionName, hstate, List.map_cons, flatMap_cut,
      tv_append_domain_eq hshort]
    rfl

/-- The place of `kernel_op_callback` needs room for the name with the domain. -/
def HasRoom : DomainSite → List CString → CString → Prop
  | .kernel_op, dom :: _, function_name => function_name.length + 1 + dom.length ≤ 511
  | _, _, _ => True

/-- What `flush` hashes for the delayed state, where there is room. -/
theorem flushStates_delayedState (hlen : (f :: fs).length ≤ MAX_NUM_STATES) :
    (HasRoom .kernel_op s.domain_name f.function_name →
      ∃ c, delayedState s (f :: fs) = some c ∧ flushStates c = flushText s.domain_name f fs) ∧
    (¬ HasRoom .kernel_op s.domain_name f.function_name → delayedState s (f :: fs) = none) := by
  have hstate := new_py_state (-1) hlen
  have hcopy : (tv_copy_cstr f.function_name).length = min 511 f.function_name.length :=
    List.length_take
  cases hdomain : s.domain_name with
  | nil =>
    refine ⟨fun _ => ⟨PyStateCTX.new (-1) (f :: fs), ?_, ?_⟩, fun hroom => absurd trivial hroom⟩
    · unfold delayedState
      rw [hdomain]
      rfl
    · simp only [flushStates, hstate, List.map_cons, flatMap_cut]
      rfl
  | cons dom doms =>
    rw [delayedState_eq hdomain]
    constructor
    · intro hroom
      have hfits : f.function_name.length + 1 + dom.length ≤ 511 := hroom
      have hwhole : firstName (dom :: doms) f.function_name =
          tv_copy_cstr f.function_name ++ '^' :: dom :=
        List.take_of_length_le (by
          rw [List.length_append, List.length_cons]
          omega)
      rw [if_pos (by omega)]
      refine ⟨_, rfl, ?_⟩
      unfold flushText
      rw [hwhole]
      simp only [flushStates, PyStateCTX.mapFunctionName, hstate, List.map_cons, flatMap_cut]
      rfl
    · intro hroom
      have hfull : ¬ f.function_name.length + 1 + dom.length ≤ 511 := hroom
      exact if_neg (by omega)

/-- The two computations agree exactly when there is room for the name with the domain and the two
texts are the same. -/
theorem hashesAgree_iff (site : DomainSite) (index : ℤ) (hlen : (f :: fs).length ≤ MAX_NUM_STATES) :
    HashesAgree site s (f :: fs) index ↔ HasRoom site s.domain_name f.function_name ∧
      flushText s.domain_name f fs = kernelText f fs := by
  unfold HashesAgree
  rw [allStates_cons hlen]
  cases site with
  | kernel_op =>
    have hdelayed := flushStates_delayedState (s := s) hlen
    by_cases hroom : HasRoom .kernel_op s.domain_name f.function_name
    · obtain ⟨c, hc, hflush⟩ := hdelayed.1 hroom
      simp [builtState, hc, hflush, hroom]
    · simp [builtState, hdelayed.2 hroom, hroom]
  | _ => simp [builtState, HasRoom, flushStates_callPathState index hlen]

/-! ## When the texts are the same -/

/-- Neither a file name nor a function name behind the first frame is cut. -/
structure CutsNothing (f : PythonState) (fs : List PythonState) : Prop where
  file_name : f.file_name.length ≤ 511
  others : ∀ g ∈ fs, g.file_name.length ≤ 511 ∧ g.function_name.length ≤ 511

/-- `flush` finds the innermost function name again. Without a domain, or without room for the
separator, it fits and has no `^` after its first character; else it is not empty, and what fits of
the domain has no `^`. -/
def FindsName : List CString → CString → Prop
  | [], function_name => function_name.length ≤ 511 ∧ '^' ∉ function_name.tail
  | dom :: _, function_name =>
    (function_name.length = 511 ∧ '^' ∉ function_name.tail) ∨
    (1 ≤ function_name.length ∧ function_name.length ≤ 510 ∧
      '^' ∉ dom.take (510 - function_name.length))

/-- What `flush` leaves of a domain behind a name and the separator: the part before its last `^`,
or all of it when it has none and the name is empty. -/
def LeftBehind (function_name dom left : CString) : Prop :=
  (∃ v, dom = left ++ '^' :: v ∧ '^' ∉ v) ∨ (function_name = [] ∧ '^' ∉ dom ∧ left = dom)

/-- The innermost file name is cut, and what is left of the domain makes up for all that is cut: the
two texts go on alike behind what is kept of this name. -/
def MakesUp : List CString → PythonState → List PythonState → Prop
  | [], _, _ => False
  | dom :: _, f, fs => 511 < f.file_name.length ∧ f.function_name.length ≤ 510 ∧
    ∃ left, LeftBehind f.function_name (dom.take (510 - f.function_name.length)) left ∧
      f.function_name ++ '^' :: left ++ lineText f ++ fs.flatMap cutText =
        f.file_name.drop 511 ++ f.function_name ++ lineText f ++
          fs.flatMap fun g => frameText g g.function_name

/-- The text of the lines starts with a digit. -/
theorem lineText_ne_cons (f : PythonState) (t u : CString) : '^' :: t ≠ lineText f ++ u := by
  intro heq
  have hmem : ∀ c ∈ lineText f, c.isDigit := by
    intro c hc
    unfold lineText at hc
    rw [Nat.toString_eq_ofList_toDigits, Nat.toString_eq_ofList_toDigits] at hc
    rcases List.mem_append.1 hc with hc | hc <;>
      exact Nat.isDigit_of_mem_toDigits (b := 10) (by decide) (by decide) (by simpa using hc)
  have hne : lineText f ≠ [] := by
    unfold lineText
    rw [Nat.toString_eq_ofList_toDigits]
    simp [Nat.toDigits_ne_nil]
  obtain ⟨c, rest, hline⟩ := List.exists_cons_of_ne_nil hne
  rw [hline, List.cons_append] at heq
  have hdigit := hmem c (by simp [hline])
  rw [← (List.cons.inj heq).1] at hdigit
  exact absurd hdigit (by decide)

/-- The cut texts of some frames are no longer than the texts, and as long exactly when nothing is
cut. -/
theorem length_flatMap_cut (fs : List PythonState) :
    (fs.flatMap cutText).length ≤ (fs.flatMap fun g => frameText g g.function_name).length ∧
    ((fs.flatMap cutText).length = (fs.flatMap fun g => frameText g g.function_name).length ↔
      ∀ g ∈ fs, g.file_name.length ≤ 511 ∧ g.function_name.length ≤ 511) := by
  induction fs with
  | nil => simp
  | cons g fs ih =>
    obtain ⟨hle, hiff⟩ := ih
    have hcut : (cutText g).length =
        min 511 g.file_name.length + min 511 g.function_name.length + (lineText g).length := by
      simp only [cutText, tv_copy_cstr, List.length_append, List.length_take]
    have hwhole : (frameText g g.function_name).length =
        g.file_name.length + g.function_name.length + (lineText g).length := by
      simp only [frameText, List.length_append]
    rw [List.flatMap_cons, List.flatMap_cons, List.length_append, List.length_append,
      List.forall_mem_cons, ← hiff]
    omega

/-- Nothing is changed in frames of which nothing is cut. -/
theorem flatMap_cut_eq (h : ∀ g ∈ fs, g.file_name.length ≤ 511 ∧ g.function_name.length ≤ 511) :
    fs.flatMap cutText = fs.flatMap fun g => frameText g g.function_name := by
  refine List.flatMap_congr fun g hg => ?_
  obtain ⟨hfile, hfunction⟩ := h g hg
  unfold cutText frameText tv_copy_cstr
  rw [List.take_of_length_le hfile, List.take_of_length_le hfunction]

/-- A function name that is not made longer gives the same text exactly when it is kept and nothing
else is cut. -/
theorem text_eq_iff_of_length_le (fs : List PythonState) {name : CString}
    (hle : name.length ≤ f.function_name.length) :
    tv_copy_cstr f.file_name ++ name ++ lineText f ++ fs.flatMap cutText = kernelText f fs ↔
      CutsNothing f fs ∧ name = f.function_name := by
  have hfile : (tv_copy_cstr f.file_name).length = min 511 f.file_name.length := List.length_take
  obtain ⟨hothers, hiff⟩ := length_flatMap_cut fs
  unfold kernelText
  constructor
  · intro heq
    -- No part is longer than it was, so none is shorter either.
    have hlen := congrArg List.length heq
    simp only [List.length_append] at hlen
    have hshort : f.file_name.length ≤ 511 := by omega
    have hwhole : tv_copy_cstr f.file_name = f.file_name := List.take_of_length_le hshort
    have hsame := hiff.1 (by omega)
    refine ⟨⟨hshort, hsame⟩, ?_⟩
    rw [hwhole, flatMap_cut_eq hsame, List.append_assoc, List.append_assoc, List.append_assoc,
      List.append_assoc] at heq
    exact List.append_inj_left (List.append_cancel_left heq) (by omega)
  · rintro ⟨hcut, rfl⟩
    have hwhole : tv_copy_cstr f.file_name = f.file_name := List.take_of_length_le hcut.file_name
    rw [hwhole, flatMap_cut_eq hcut.others]

/-- A function name with something of the domain behind it gives the same text exactly when the file
name is cut and this makes up for it. -/
theorem text_eq_iff_of_left (left : CString) :
    tv_copy_cstr f.file_name ++ (f.function_name ++ '^' :: left) ++ lineText f ++
        fs.flatMap cutText = kernelText f fs ↔
      511 < f.file_name.length ∧
        f.function_name ++ '^' :: left ++ lineText f ++ fs.flatMap cutText =
          f.file_name.drop 511 ++ f.function_name ++ lineText f ++
            fs.flatMap fun g => frameText g g.function_name := by
  have hsplit : f.file_name = tv_copy_cstr f.file_name ++ f.file_name.drop 511 :=
    (List.take_append_drop 511 f.file_name).symm
  unfold kernelText
  by_cases hcut : 511 < f.file_name.length
  · rw [and_iff_right hcut]
    nth_rewrite 2 [hsplit]
    simp only [List.append_assoc, List.append_cancel_left_eq]
  · -- A whole file name leaves the separator against the first digit of the lines.
    refine iff_of_false (fun heq => ?_) fun h => hcut h.1
    have hwhole : tv_copy_cstr f.file_name = f.file_name :=
      List.take_of_length_le (not_lt.1 hcut)
    rw [hwhole] at heq
    simp only [List.append_assoc, List.append_cancel_left_eq, List.cons_append] at heq
    exact lineText_ne_cons f _ _ heq

/-- A copied name is found again exactly when it is not cut and has no separator after its first
character. -/
theorem strippedName_copy_iff (name : CString) :
    strippedName (tv_copy_cstr name) = name ↔ name.length ≤ 511 ∧ '^' ∉ name.tail := by
  constructor
  · intro heq
    have hle := strippedName_length_le (tv_copy_cstr name)
    have hshort : name.length ≤ 511 := by
      rw [heq] at hle
      exact hle.trans (List.length_take_le 511 _)
    have hwhole : tv_copy_cstr name = name := List.take_of_length_le hshort
    rw [hwhole] at heq
    exact ⟨hshort, (strippedName_eq_self_iff name).1 heq⟩
  · rintro ⟨hshort, hsep⟩
    have hwhole : tv_copy_cstr name = name := List.take_of_length_le hshort
    rw [hwhole]
    exact (strippedName_eq_self_iff name).2 hsep

/-- A name that is cut is no longer when it is found again. -/
theorem strippedName_copy_length_le (name : CString) :
    (strippedName (tv_copy_cstr name)).length ≤ name.length :=
  (strippedName_length_le _).trans (List.length_take_le' 511 _)

/-- What is found of a name with a domain is the name, or the name with what is left behind it. -/
theorem strippedName_domain (name dom : CString) :
    (name ≠ [] ∧ '^' ∉ dom ∧ strippedName (name ++ '^' :: dom) = name ∧
      ∀ left, ¬ LeftBehind name dom left) ∨
    ((name = [] ∨ '^' ∈ dom) ∧ ∃ u, strippedName (name ++ '^' :: dom) = name ++ '^' :: u ∧
      ∀ left, LeftBehind name dom left ↔ left = u) := by
  rcases rfind_cases '^' dom with ⟨hnone, -⟩ | ⟨u, v, rfl, hv, hfind⟩
  · by_cases hname : name = []
    · -- The separator is the first character, so that the whole name is taken.
      refine .inr ⟨.inl hname, dom, ?_, fun left => ?_⟩
      · rw [strippedName_append hnone, if_pos hname, hname, List.nil_append]
      · constructor
        · rintro (⟨v, rfl, -⟩ | ⟨-, -, rfl⟩)
          · exact absurd (by simp) hnone
          · rfl
        · rintro rfl
          exact .inr ⟨hname, hnone, rfl⟩
    · refine .inl ⟨hname, hnone, by rw [strippedName_append hnone, if_neg hname], ?_⟩
      rintro left (⟨v, rfl, -⟩ | ⟨hempty, -⟩)
      · exact hnone (by simp)
      · exact hname hempty
  · refine .inr ⟨.inr (by simp), u, ?_, fun left => ?_⟩
    · have hsplit : name ++ '^' :: (u ++ '^' :: v) = (name ++ '^' :: u) ++ '^' :: v := by simp
      rw [hsplit, strippedName_append hv, if_neg (by simp)]
    · constructor
      · rintro (⟨w, hsplit, hw⟩ | ⟨-, hnone, -⟩)
        · -- Both splits are at the last separator.
          have hlen := rfind_append (u := left) hw
          rw [← hsplit, hfind] at hlen
          exact (List.append_inj_left hsplit (Option.some.inj hlen)).symm
        · exact absurd (by simp) hnone
      · rintro rfl
        exact .inl ⟨v, rfl, hv⟩

/-- The two texts of a stack are the same exactly when nothing is cut and the innermost function
name is found again, or what is left of the domain makes up for what is cut. -/
theorem flushText_eq_iff (doms : List CString) (f : PythonState) (fs : List PythonState) :
    flushText doms f fs = kernelText f fs ↔
      (CutsNothing f fs ∧ FindsName doms f.function_name) ∨ MakesUp doms f fs := by
  have hcopied := text_eq_iff_of_length_le fs (strippedName_copy_length_le f.function_name)
  rw [strippedName_copy_iff] at hcopied
  unfold flushText
  cases doms with
  | nil =>
    simp only [MakesUp, or_false]
    exact hcopied
  | cons dom doms =>
    by_cases hroom : f.function_name.length ≤ 510
    · have hwhole : tv_copy_cstr f.function_name = f.function_name :=
        List.take_of_length_le (by omega)
      have hfirst : firstName (dom :: doms) f.function_name =
          f.function_name ++ '^' :: dom.take (510 - f.function_name.length) := by
        have hrest : 511 - f.function_name.length = 510 - f.function_name.length + 1 := by omega
        show (tv_copy_cstr f.function_name ++ '^' :: dom).take 511 = _
        rw [hwhole, List.take_append, List.take_of_length_le (by omega), hrest,
          List.take_succ_cons]
      rw [hfirst]
      rcases strippedName_domain f.function_name (dom.take (510 - f.function_name.length)) with
        ⟨hname, hsep, hstrip, hleft⟩ | ⟨hwrong, u, hstrip, hleft⟩
      · have hpos : 1 ≤ f.function_name.length := List.length_pos_iff.2 hname
        rw [hstrip, text_eq_iff_of_length_le fs le_rfl]
        simp only [MakesUp, FindsName, hleft, hsep, hpos, hroom]
        simp
      · rw [hstrip, text_eq_iff_of_left]
        have hnot : ¬ FindsName (dom :: doms) f.function_name := by
          rintro (⟨hfull, -⟩ | ⟨hpos, -, hsep⟩)
          · omega
          · rcases hwrong with hempty | hmem
            · rw [hempty] at hpos
              exact absurd hpos (by decide)
            · exact hsep hmem
        simp only [MakesUp, hleft, hnot, hroom, exists_eq_left, and_false, false_or, true_and]
    · -- There is no room for the separator.
      have hfirst : firstName (dom :: doms) f.function_name = tv_copy_cstr f.function_name := by
        have hlen : (tv_copy_cstr f.function_name).length = min 511 f.function_name.length :=
          List.length_take
        exact List.take_left' (by omega)
      rw [hfirst, hcopied]
      simp only [MakesUp, FindsName, hroom, false_and, and_false, or_false]
      refine and_congr_right fun _ => and_congr_left fun _ => ?_
      omega

/-- The two computations of the hash of a stack agree exactly when a launch has room for the name
with the domain and either nothing is cut and the innermost function name is found again, or what is
left of the domain makes up for what is cut. -/
theorem state_hash_iff (site : DomainSite) (s : TorchView) (f : PythonState)
    (fs : List PythonState) (index : ℤ) (hlen : (f :: fs).length ≤ MAX_NUM_STATES) :
    HashesAgree site s (f :: fs) index ↔
      HasRoom site s.domain_name f.function_name ∧
        ((CutsNothing f fs ∧ FindsName s.domain_name f.function_name) ∨
          MakesUp s.domain_name f fs) := by
  rw [hashesAgree_iff site index hlen, flushText_eq_iff]

/-- A frame with short names and no separator in them. -/
theorem state_hash_short : HashesAgree .new_root (initial false) [⟨['a'], ['f'], 1, 2⟩] 0 :=
  (state_hash_iff .new_root (initial false) ⟨['a'], ['f'], 1, 2⟩ [] 0 (by decide)).2
    ⟨trivial, .inl ⟨⟨by simp, by simp⟩, by simp, by simp⟩⟩

/-- A function name with a separator in it, and no domain: `flush` cuts it. -/
theorem state_hash_separator : ¬ ∀ (site : DomainSite) (s : TorchView) (f : PythonState)
    (fs : List PythonState) (index : ℤ), (f :: fs).length ≤ MAX_NUM_STATES →
      HashesAgree site s (f :: fs) index := by
  intro hall
  have hagree := hall .new_root (initial false) ⟨['a'], ['f', '^', 'g'], 1, 2⟩ [] 0 (by decide)
  have htexts := ((hashesAgree_iff .new_root 0 (by decide)).1 hagree).2
  have hlen := congrArg List.length htexts
  have hstrip : strippedName ['f', '^', 'g'] = ['f'] := by decide
  simp [flushText, kernelText, firstName, initial, tv_copy_cstr, hstrip] at hlen

end TenProf.TorchView
