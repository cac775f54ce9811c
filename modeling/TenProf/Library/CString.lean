import Mathlib.Data.List.Basic
import Mathlib.Data.List.TakeWhile
import Mathlib.Tactic.Common

/-!
# C strings in buffers

A buffer is a fixed number of characters, and a string in it ends at the first NUL. A write has no
result when it touches a character outside of the buffer, and so have the string functions:
`strncpy` writes as many characters as it is told, `strncat` and `strcat` write behind the string
that is there, which `strlen` finds. `Holds` says which string a buffer holds; there is one lemma
for what each function makes of it.
-/

namespace TenProf

/-- The character that ends a string. -/
def nul : Char := Char.ofNat 0

/-- A buffer of `n` characters. -/
structure Buffer (n : ℕ) where
  chars : List Char
  length_eq : chars.length = n

namespace Buffer

variable {n : ℕ}

/-- A write of some characters from a position on. -/
def write (b : Buffer n) (i : ℕ) (s : List Char) : Option (Buffer n) :=
  if h : i + s.length ≤ n then
    some
      { chars := b.chars.take i ++ s ++ b.chars.drop (i + s.length)
        length_eq := by
          have := b.length_eq
          simp only [List.length_append, List.length_take, List.length_drop]
          omega }
  else
    none

/-- `strlen`, which has no result when no character of the buffer is a NUL. -/
def strlen (b : Buffer n) : Option ℕ := b.chars.findIdx? (· = nul)

/-- `strncpy`: the first `k` characters of a string, with NULs up to `k` behind a shorter one. -/
def strncpy (b : Buffer n) (s : List Char) (k : ℕ) : Option (Buffer n) :=
  b.write 0 ((s.rightpad k nul).take k)

/-- `strncat`: the first `k` characters of a string and a NUL, behind the string that is there. -/
def strncat (b : Buffer n) (s : List Char) (k : ℕ) : Option (Buffer n) :=
  b.strlen.bind fun len => b.write len (s.take k ++ [nul])

/-- `strcat`: a string and a NUL, behind the string that is there. -/
def strcat (b : Buffer n) (s : List Char) : Option (Buffer n) :=
  b.strlen.bind fun len => b.write len (s ++ [nul])

/-- The buffer holds a string, which has no NUL and is followed by one. -/
structure Holds (b : Buffer n) (s : List Char) : Prop where
  no_nul : nul ∉ s
  chars : s ++ [nul] <+: b.chars

variable {b b' : Buffer n} {s t : List Char} {k : ℕ}

/-- A string leaves room for its NUL. -/
theorem Holds.length_lt (h : b.Holds s) : s.length < n := by
  have hle := h.chars.length_le
  rw [b.length_eq, List.length_append, List.length_singleton] at hle
  exact hle

/-- `strlen` is the length of the string. -/
theorem Holds.strlen_eq (h : b.Holds s) : b.strlen = some s.length := by
  obtain ⟨rest, hrest⟩ := h.chars
  have hnone : s.findIdx? (· = nul) = none :=
    List.findIdx?_eq_none_iff.2 fun c hc => decide_eq_false fun heq => h.no_nul (heq ▸ hc)
  unfold strlen
  rw [← hrest, List.append_assoc, List.findIdx?_append, hnone]
  simp [List.findIdx?_cons]

/-- A write behind the string that is there, with a NUL at its end, makes it longer, and has a
result exactly when there is room for all of it. -/
theorem Holds.write (h : b.Holds s) (ht : nul ∉ t) :
    if s.length + t.length < n then
      ∃ b', b.write s.length (t ++ [nul]) = some b' ∧ b'.Holds (s ++ t)
    else b.write s.length (t ++ [nul]) = none := by
  have hlen : (t ++ [nul]).length = t.length + 1 := List.length_append
  unfold Buffer.write
  split_ifs with hroom hfits hfits
  · refine ⟨_, rfl, by simp [h.no_nul, ht], ?_⟩
    have htake : b.chars.take s.length = s := by
      obtain ⟨rest, hrest⟩ := h.chars
      rw [← hrest, List.append_assoc]
      exact List.take_left
    show s ++ t ++ [nul] <+: b.chars.take s.length ++ (t ++ [nul]) ++ _
    rw [htake, List.append_assoc]
    exact List.prefix_append _ _
  · omega
  · omega
  · rfl

/-- `strcat` appends a string when there is room for it, and writes outside of the buffer when there
is not. -/
theorem Holds.strcat (h : b.Holds s) (ht : nul ∉ t) :
    if s.length + t.length < n then ∃ b', b.strcat t = some b' ∧ b'.Holds (s ++ t)
    else b.strcat t = none := by
  unfold Buffer.strcat
  rw [h.strlen_eq, Option.bind_some]
  exact h.write ht

/-- `strncat` with the room that is left appends as much of a string as there is room for. -/
theorem Holds.strncat (h : b.Holds s) (ht : nul ∉ t) :
    ∃ b', b.strncat t (n - s.length - 1) = some b' ∧ b'.Holds ((s ++ t).take (n - 1)) := by
  have hlt := h.length_lt
  have hcut : nul ∉ t.take (n - s.length - 1) := fun hmem => ht (List.mem_of_mem_take hmem)
  have hroom : s.length + (t.take (n - s.length - 1)).length < n := by
    rw [List.length_take]
    omega
  have htake : (s ++ t).take (n - 1) = s ++ t.take (n - s.length - 1) := by
    rw [List.take_append, List.take_of_length_le (by omega), Nat.sub_right_comm]
  unfold Buffer.strncat
  rw [h.strlen_eq, Option.bind_some, htake]
  exact (if_pos hroom).mp (h.write hcut)

/-- The characters after a write that fits. -/
theorem write_of_le (b : Buffer n) {i : ℕ} (h : i + t.length ≤ n) :
    ∃ b', b.write i t = some b' ∧
      b'.chars = b.chars.take i ++ t ++ b.chars.drop (i + t.length) := by
  unfold Buffer.write
  rw [dif_pos h]
  exact ⟨_, rfl, rfl⟩

/-- `strncpy` with all of the buffer but its last character, and a NUL there, leave as much of a
string as there is room for. -/
theorem holds_strncpy (b : Buffer n) (hn : 0 < n) (hs : nul ∉ s) :
    ∃ b', ((b.strncpy s (n - 1)).bind fun b => b.write (n - 1) [nul]) = some b' ∧
      b'.Holds (s.take (n - 1)) := by
  set copied := (s.rightpad (n - 1) nul).take (n - 1) with hcopied
  have hlen : copied.length = n - 1 := by
    rw [hcopied, List.length_take, List.length_rightpad]
    omega
  obtain ⟨b₁, hcopy, h₁⟩ := b.write_of_le (i := 0) (t := copied) (by omega)
  have hlast : n - 1 + [nul].length ≤ n := by
    rw [List.length_singleton]
    omega
  obtain ⟨b₂, hend, h₂⟩ := b₁.write_of_le hlast
  have hbind : ((b.strncpy s (n - 1)).bind fun b => b.write (n - 1) [nul]) = some b₂ := by
    rw [strncpy, ← hcopied, hcopy, Option.bind_some, hend]
  refine ⟨b₂, hbind, fun hmem => hs (List.mem_of_mem_take hmem), ?_⟩
  have hfront : b₁.chars.take (n - 1) = copied := by
    rw [h₁, List.take_zero, List.nil_append]
    exact List.take_left' hlen
  -- The copy is the string with NULs behind it, if there is room, and the first of them ends it.
  obtain ⟨pad, hpad⟩ : ∃ pad, copied = s.take (n - 1) ++ List.replicate pad nul :=
    ⟨_, by rw [hcopied, List.rightpad, List.take_append, List.take_replicate]⟩
  have hnuls : List.replicate pad nul ++ [nul] = [nul] ++ List.replicate pad nul := by
    rw [← List.replicate_succ', List.replicate_succ, List.singleton_append]
  rw [h₂, hfront, hpad, List.append_assoc (s.take (n - 1)), hnuls, ← List.append_assoc,
    List.append_assoc _ (List.replicate pad nul)]
  exact List.prefix_append _ _

end Buffer
end TenProf
