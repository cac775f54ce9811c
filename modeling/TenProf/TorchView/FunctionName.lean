import TenProf.Library.CString
import TenProf.TorchView.Kernel

/-!
# The bytes of a function name

The names of a `PyStateCTX` are in buffers of 512 characters. `tv_copy_cstr` fills one and
`tv_append_domain` appends to one, up to its end; the three places of `update_view_forest` use both.
`kernel_op_callback` appends with `strcat`, which does not know the end. The names that the model of
the two logs are what the buffers hold (`stateName_callPathState`, `stateName_delayedState`).
-/

namespace TenProf.TorchView

/-- The size of `function_name`. -/
def NAME_SIZE : ℕ := 512

namespace Bytes

variable {n : ℕ}

/-- `tv_copy_cstr`, from a string or from a null pointer. -/
def tv_copy_cstr (dst : Buffer n) (src : Option CString) : Option (Buffer n) :=
  if n = 0 then
    some dst
  else
    match src with
    | none => dst.write 0 [nul]
    | some src => (dst.strncpy src (n - 1)).bind fun dst => dst.write (n - 1) [nul]

/-- `tv_append_domain`. -/
def tv_append_domain (dst : Buffer n) (dom : Option CString) : Option (Buffer n) :=
  match dom with
  | none => some dst
  | some dom => dst.strlen.bind fun len =>
    if len + 1 ≥ n then
      some dst
    else
      (dst.strncat ['^'] (n - len - 1)).bind fun dst => dst.strlen.bind fun len =>
        if len + 1 ≥ n then some dst else dst.strncat dom (n - len - 1)

/-- What `kernel_op_callback` does instead. -/
def strcatDomain (dst : Buffer n) (dom : CString) : Option (Buffer n) :=
  (dst.strcat ['^']).bind fun dst => dst.strcat dom

variable {dst : Buffer n} {s dom : CString}

/-- `tv_copy_cstr` leaves as much of a string as there is room for. -/
theorem holds_tv_copy_cstr (dst : Buffer n) (hn : 0 < n) (hs : nul ∉ s) :
    ∃ b, tv_copy_cstr dst (some s) = some b ∧ b.Holds (s.take (n - 1)) := by
  unfold tv_copy_cstr
  rw [if_neg hn.ne']
  exact dst.holds_strncpy hn hs

/-- `tv_append_domain` leaves as much of a name and a domain as there is room for. -/
theorem holds_tv_append_domain (h : dst.Holds s) (hdom : nul ∉ dom) :
    ∃ b, tv_append_domain dst (some dom) = some b ∧
      b.Holds ((s ++ '^' :: dom).take (n - 1)) := by
  have hsep : nul ∉ ['^'] := by decide
  have hlt := h.length_lt
  unfold tv_append_domain
  simp only [h.strlen_eq, Option.bind_some]
  split
  case isTrue hfull =>
    -- There is no room for the separator.
    have hcut : (s ++ '^' :: dom).take (n - 1) = s := List.take_left' (by omega)
    exact ⟨dst, rfl, by rwa [hcut]⟩
  case isFalse hroom =>
    obtain ⟨b, hb, hholds⟩ := h.strncat hsep
    have hwhole : (s ++ ['^']).take (n - 1) = s ++ ['^'] :=
      List.take_of_length_le (by rw [List.length_append, List.length_singleton]; omega)
    have hsplit : s ++ '^' :: dom = s ++ ['^'] ++ dom := by simp
    rw [hwhole] at hholds
    rw [hb, Option.bind_some, hholds.strlen_eq, Option.bind_some, hsplit]
    split
    case isTrue hfull =>
      have hcut : (s ++ ['^'] ++ dom).take (n - 1) = s ++ ['^'] :=
        List.take_left' (by have := hholds.length_lt; omega)
      exact ⟨b, rfl, by rwa [hcut]⟩
    case isFalse => exact hholds.strncat hdom

/-- Two `strcat`s leave a name and a domain when there is room for both, and write outside of the
buffer when there is not. -/
theorem holds_strcatDomain (h : dst.Holds s) (hdom : nul ∉ dom) :
    if s.length + 1 + dom.length < n then
      ∃ b, strcatDomain dst dom = some b ∧ b.Holds (s ++ '^' :: dom)
    else strcatDomain dst dom = none := by
  have hsep : nul ∉ ['^'] := by decide
  have hfirst := h.strcat hsep
  rw [List.length_singleton] at hfirst
  have hsplit : s ++ '^' :: dom = s ++ ['^'] ++ dom := by simp
  unfold strcatDomain
  rw [hsplit]
  split at hfirst
  case isTrue hroom =>
    obtain ⟨b, hb, hholds⟩ := hfirst
    have hsecond := hholds.strcat hdom
    rw [List.length_append, List.length_singleton] at hsecond
    rw [hb, Option.bind_some]
    exact hsecond
  case isFalse hfull =>
    rw [hfirst, if_neg (by omega), Option.bind_none]

end Bytes

/-! ## The places that append a domain -/

/-- The places that build a `PyStateCTX` and append the current domain: in `update_view_forest`
those for a view that is there, for a new view and for a new root, and the one in
`kernel_op_callback`. -/
inductive DomainSite
  | existing_view | new_view | new_root | kernel_op
  deriving DecidableEq

/-- What a place appends to the name. -/
def appendDomainAt : DomainSite → Buffer NAME_SIZE → CString → Option (Buffer NAME_SIZE)
  | .existing_view, name, dom => Bytes.tv_append_domain name (some dom)
  | .new_view, name, dom => Bytes.tv_append_domain name (some dom)
  | .new_root, name, dom => Bytes.tv_append_domain name (some dom)
  | .kernel_op, name, dom => Bytes.strcatDomain name dom

/-- The function name of the innermost frame, from a buffer with anything in it. -/
def stateName (site : DomainSite) (dst : Buffer NAME_SIZE) (name dom : CString) :
    Option (Buffer NAME_SIZE) :=
  (Bytes.tv_copy_cstr dst (some name)).bind fun copied => appendDomainAt site copied dom

variable {site : DomainSite} {dst : Buffer NAME_SIZE} {name dom : CString}

/-- The places of `update_view_forest` leave the name and the domain, up to the end of the
buffer. -/
theorem stateName_of_ne (dst : Buffer NAME_SIZE) (hsite : site ≠ .kernel_op) (hname : nul ∉ name)
    (hdom : nul ∉ dom) : ∃ b, stateName site dst name dom = some b ∧
      b.Holds ((name.take 511 ++ '^' :: dom).take 511) := by
  obtain ⟨copied, hcopy, hholds⟩ := Bytes.holds_tv_copy_cstr dst (by decide) hname
  unfold stateName
  rw [hcopy, Option.bind_some]
  cases site with
  | kernel_op => exact absurd rfl hsite
  | _ => exact Bytes.holds_tv_append_domain hholds hdom

/-- The place of `kernel_op_callback` leaves the name and the domain when there is room for both,
and has no result when there is not. -/
theorem stateName_kernel_op (dst : Buffer NAME_SIZE) (hname : nul ∉ name) (hdom : nul ∉ dom) :
    if name.length + 1 + dom.length ≤ 511 then
      ∃ b, stateName .kernel_op dst name dom = some b ∧ b.Holds (name ++ '^' :: dom)
    else stateName .kernel_op dst name dom = none := by
  obtain ⟨copied, hcopy, hholds⟩ := Bytes.holds_tv_copy_cstr dst (by decide) hname
  have hcopied : copied.Holds (name.take 511) := hholds
  have happend := Bytes.holds_strcatDomain hcopied hdom
  have hlen : (name.take 511).length = min 511 name.length := List.length_take
  have hstate : stateName .kernel_op dst name dom = Bytes.strcatDomain copied dom := by
    unfold stateName
    rw [hcopy]
    rfl
  rw [hstate]
  unfold NAME_SIZE at happend
  split
  case isTrue hroom =>
    have hwhole : name.take 511 = name := List.take_of_length_le (by omega)
    rw [hwhole, if_pos (by omega)] at happend
    exact happend
  case isFalse hfull => rwa [if_neg (by omega)] at happend

/-- Cutting a name that is in front before it is cut as a whole changes nothing. -/
theorem take_take_append (s t : CString) (k : ℕ) : (s.take k ++ t).take k = (s ++ t).take k := by
  rw [List.take_append, List.take_append, List.take_take, min_self, List.length_take]
  congr 2
  omega

/-- A place leaves the first 511 characters of the name with the domain, and writes nothing outside
of the buffer, exactly when it is one of `update_view_forest` or there is room for all of them. -/
theorem state_name_iff (site : DomainSite) (dst : Buffer NAME_SIZE) {name dom : CString}
    (hname : nul ∉ name) (hdom : nul ∉ dom) :
    (∃ b, stateName site dst name dom = some b ∧ b.Holds ((name ++ '^' :: dom).take 511)) ↔
      (site = .kernel_op → name.length + 1 + dom.length ≤ 511) := by
  by_cases hsite : site = .kernel_op
  · subst hsite
    have hkernel := stateName_kernel_op dst hname hdom
    constructor
    · rintro ⟨b, hb, -⟩ -
      by_contra hfull
      rw [if_neg hfull, hb] at hkernel
      cases hkernel
    · intro hroom
      have hwhole : (name ++ '^' :: dom).take 511 = name ++ '^' :: dom :=
        List.take_of_length_le (by
          rw [List.length_append, List.length_cons]
          have := hroom rfl
          omega)
      rw [if_pos (hroom rfl)] at hkernel
      rwa [hwhole]
  · have hforest := stateName_of_ne dst hsite hname hdom
    rw [take_take_append] at hforest
    exact iff_of_true hforest fun heq => absurd heq hsite

/-- A frame that is called `f` in a domain that is called `d`. -/
theorem state_name_short : ∃ b,
    stateName .kernel_op ⟨List.replicate NAME_SIZE nul, List.length_replicate⟩ ['f'] ['d'] =
      some b ∧ b.Holds ((['f'] ++ '^' :: ['d']).take 511) :=
  (state_name_iff .kernel_op _ (by decide) (by decide)).2 fun _ => by simp

/-- A domain of 511 characters makes `kernel_op_callback` write behind the buffer. -/
theorem state_name_overflows :
    ¬ ∀ (site : DomainSite) (dst : Buffer NAME_SIZE) (name dom : CString), nul ∉ name →
      nul ∉ dom → ∃ b, stateName site dst name dom = some b ∧
        b.Holds ((name ++ '^' :: dom).take 511) := by
  intro hall
  obtain ⟨dom, hlen, hdom⟩ : ∃ dom : CString, dom.length = 511 ∧ nul ∉ dom :=
    ⟨List.replicate 511 'd', List.length_replicate, fun hmem =>
      absurd (List.eq_of_mem_replicate hmem) (by decide)⟩
  let dst : Buffer NAME_SIZE := ⟨List.replicate NAME_SIZE nul, List.length_replicate⟩
  obtain ⟨b, hb, -⟩ := hall .kernel_op dst [] dom List.not_mem_nil hdom
  have hkernel := stateName_kernel_op dst List.not_mem_nil hdom
  rw [List.length_nil, hlen, if_neg (by omega), hb] at hkernel
  cases hkernel

/-! ## The names of the model -/

/-- `tv_append_domain` on names cuts after 511 characters. -/
theorem tv_append_domain_eq {s dom : CString} (hs : s.length ≤ 511) :
    tv_append_domain s dom = (s ++ '^' :: dom).take 511 := by
  unfold tv_append_domain
  rw [List.take_append]
  simp only [List.length_append, List.length_singleton]
  split_ifs with hfull hlast
  · have hlen : s.length = 511 := by omega
    rw [List.take_of_length_le hs, hlen]
    simp
  · have hlen : s.length = 510 := by omega
    rw [List.take_of_length_le hs, hlen]
    simp
  · have hrest : 511 - s.length = 512 - (s.length + 1) - 1 + 1 := by omega
    rw [List.take_of_length_le hs, hrest, List.take_succ_cons, List.append_assoc]
    rfl

/-- Two `strcat`s on names have a result when there is room for both. -/
theorem strcat_strcat (s dom : CString) : ((strcat s ['^']).bind fun name => strcat name dom) =
    if s.length + 1 + dom.length < 512 then some (s ++ '^' :: dom) else none := by
  have hlen : (s ++ ['^']).length = s.length + 1 := List.length_append
  have hsplit : s ++ '^' :: dom = s ++ ['^'] ++ dom := by simp
  unfold strcat
  rw [List.length_singleton, hsplit]
  by_cases hfirst : s.length + 1 < 512
  · rw [if_pos hfirst, Option.bind_some, hlen]
  · rw [if_neg hfirst, if_neg (by omega), Option.bind_none]

variable {s : TorchView} {doms : List CString}

/-- The delayed state of a stack in a domain. -/
theorem delayedState_eq (hdomain : s.domain_name = dom :: doms) (f : PythonState)
    (fs : List PythonState) : delayedState s (f :: fs) =
      if (tv_copy_cstr f.function_name).length + 1 + dom.length < 512 then
        some ((PyStateCTX.new (-1) (f :: fs)).mapFunctionName fun name => name ++ '^' :: dom)
      else none := by
  have hstate : delayedState s (f :: fs) = ((strcat (tv_copy_cstr f.function_name) ['^']).bind
      fun name => strcat name dom).map fun name =>
        (PyStateCTX.new (-1) (f :: fs)).mapFunctionName fun _ => name := by
    unfold delayedState
    rw [hdomain]
    rfl
  rw [hstate, strcat_strcat]
  split
  · rfl
  · rfl

/-- What the places of `update_view_forest` leave is the name of the entry that the model logs. -/
theorem stateName_callPathState (hsite : site ≠ .kernel_op) (hdomain : s.domain_name = dom :: doms)
    (f : PythonState) (fs : List PythonState) (index : ℤ) (hname : nul ∉ f.function_name)
    (hdom : nul ∉ dom) : ∃ b p ps, stateName site dst f.function_name dom = some b ∧
      (callPathState s (f :: fs) index).py_state = p :: ps ∧ b.Holds p.function_name := by
  obtain ⟨b, hb, hholds⟩ := stateName_of_ne dst hsite hname hdom
  refine ⟨b, { f with
      file_name := tv_copy_cstr f.file_name
      function_name := tv_append_domain (tv_copy_cstr f.function_name) dom },
    (PyStateCTX.new index (f :: fs)).py_state.tail, hb, ?_, ?_⟩
  · unfold callPathState
    rw [hdomain]
    rfl
  · have hlen : (tv_copy_cstr f.function_name).length ≤ 511 := List.length_take_le 511 _
    show b.Holds (tv_append_domain (tv_copy_cstr f.function_name) dom)
    rw [tv_append_domain_eq hlen]
    exact hholds

/-- What the place of `kernel_op_callback` leaves is the name of the delayed state of the model,
which has no result where the place has none. -/
theorem stateName_delayedState (hdomain : s.domain_name = dom :: doms) (f : PythonState)
    (fs : List PythonState) (hname : nul ∉ f.function_name) (hdom : nul ∉ dom) :
    if f.function_name.length + 1 + dom.length ≤ 511 then
      ∃ b c p ps, stateName .kernel_op dst f.function_name dom = some b ∧
        delayedState s (f :: fs) = some c ∧ c.py_state = p :: ps ∧ b.Holds p.function_name
    else
      stateName .kernel_op dst f.function_name dom = none ∧ delayedState s (f :: fs) = none := by
  have hkernel := stateName_kernel_op dst hname hdom
  have hlen : (tv_copy_cstr f.function_name).length = min 511 f.function_name.length :=
    List.length_take
  rw [delayedState_eq hdomain]
  by_cases hroom : f.function_name.length + 1 + dom.length ≤ 511
  · have hwhole : tv_copy_cstr f.function_name = f.function_name :=
      List.take_of_length_le (by omega)
    have hfits : (tv_copy_cstr f.function_name).length + 1 + dom.length < 512 := by omega
    rw [if_pos hroom] at hkernel ⊢
    rw [if_pos hfits]
    obtain ⟨b, hb, hholds⟩ := hkernel
    refine ⟨b, _, _, _, hb, rfl, rfl, ?_⟩
    show b.Holds (tv_copy_cstr f.function_name ++ '^' :: dom)
    rwa [hwhole]
  · have hfull : ¬ (tv_copy_cstr f.function_name).length + 1 + dom.length < 512 := by omega
    rw [if_neg hroom] at hkernel ⊢
    rw [if_neg hfull]
    exact ⟨hkernel, rfl⟩

end TenProf.TorchView
