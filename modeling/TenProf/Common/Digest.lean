import TenProf.Common.Hash

/-!
# The digest of a message

`final` hashes the message with `padding` behind it, whatever the chunks that it came in
(`final_run`). Below `2^29` bytes this is the padding of the standard, with a length of 64 bits
(`padding_eq_iff`), and two messages have one digest only when their chains collide
(`sha256_eq_iff`): a pair of different inputs of the compression function with one result can be
read off from them.
-/

namespace TenProf

namespace SHA256

/-! ## Padding -/

/-- What `final` adds to a message of `n` bytes. -/
def padding (n : ℕ) : List UInt8 :=
  0x80 :: (List.replicate ((if 55 < n % 64 then 128 else 64) - n % 64 - 5) 0 ++
    SHA2_UNPACK32 (UInt32.ofNat (u32 (n * 8))))

/-- What the standard adds to a message of `n` bytes: as few zeros as fill the blocks, and the
number of bits as a word of 64 bits. -/
def standardPadding (n : ℕ) : List UInt8 :=
  0x80 :: (List.replicate ((119 - n % 64) % 64) 0 ++
    (SHA2_UNPACK32 (UInt32.ofNat (u32 (n * 8 / 2^32))) ++
      SHA2_UNPACK32 (UInt32.ofNat (u32 (n * 8)))))

/-- The blocks that are compressed for a message. -/
def paddedBlocks (msg : List UInt8) : List (List UInt8) := blocks 64 (msg ++ padding msg.length)

/-- The digest of a message whose padding is given. -/
def digestOf (padding : ℕ → List UInt8) (msg : List UInt8) : List UInt8 :=
  ((blocks 64 (msg ++ padding msg.length)).foldl compress initWords).toList.flatMap SHA2_UNPACK32

/-- The digest that the code computes for a message. -/
def digest (msg : List UInt8) : List UInt8 := digestOf padding msg

/-- The digest of the standard. -/
def standardDigest (msg : List UInt8) : List UInt8 := digestOf standardPadding msg

@[simp] theorem length_SHA2_UNPACK32 (x : UInt32) : (SHA2_UNPACK32 x).length = 4 := rfl

/-- The bytes of a word determine it. -/
theorem SHA2_UNPACK32_injective : Function.Injective SHA2_UNPACK32 := by
  intro x y h
  simp only [SHA2_UNPACK32, List.cons.injEq, and_true] at h
  obtain ⟨h3, h2, h1, h0⟩ := h
  have e3 := congrArg UInt8.toNat h3
  have e2 := congrArg UInt8.toNat h2
  have e1 := congrArg UInt8.toNat h1
  have e0 := congrArg UInt8.toNat h0
  simp only [UInt32.toNat_toUInt8, UInt32.toNat_shiftRight, UInt32.reduceToNat,
    Nat.shiftRight_eq_div_pow, Nat.reduceMod] at e3 e2 e1 e0
  have hx := x.toNat_lt
  have hy := y.toNat_lt
  refine UInt32.toNat_inj.1 ?_
  omega

/-- A number of bits that is written as a word of 32 bits. -/
theorem bitLength_injective {n n' : ℕ} (hn : n < 2^29) (hn' : n' < 2^29)
    (h : SHA2_UNPACK32 (UInt32.ofNat (u32 (n * 8))) = SHA2_UNPACK32 (UInt32.ofNat (u32 (n' * 8)))) :
    n = n' := by
  have heq := congrArg UInt32.toNat (SHA2_UNPACK32_injective h)
  simp only [UInt32.toNat_ofNat', u32] at heq
  omega

/-- The number of zeros is that of the standard and four more. -/
theorem zeros_eq (n : ℕ) : (if 55 < n % 64 then 128 else 64) - n % 64 - 5 =
    (119 - n % 64) % 64 + 4 := by
  split_ifs <;> omega

/-- The padding is that of the standard exactly when the number of bits is a word of 32 bits. -/
theorem padding_eq_iff {n : ℕ} (hn : n < 2^61) : padding n = standardPadding n ↔ n < 2^29 := by
  have hzeros : List.replicate 4 0 = SHA2_UNPACK32 0 := rfl
  unfold padding standardPadding
  rw [zeros_eq, List.replicate_add, List.append_assoc, List.cons_inj_right,
    List.append_cancel_left_eq, List.append_cancel_right_eq, hzeros,
    SHA2_UNPACK32_injective.eq_iff, ← UInt32.toNat_inj]
  simp only [UInt32.toNat_ofNat', u32, UInt32.toNat_zero]
  omega

/-- The message and its padding fill the blocks. -/
theorem dvd_length_padded (msg : List UInt8) : 64 ∣ (msg ++ padding msg.length).length := by
  unfold padding
  rw [zeros_eq]
  simp only [List.length_append, List.length_cons, List.length_replicate, length_SHA2_UNPACK32]
  omega

/-! ## `final` -/

variable {s : SHA256} {msg : List UInt8}

/-- The buffer that `final` compresses holds what is left of the message, and the padding. -/
theorem exists_finalBlock {m_block : List UInt8} (left len_b : List UInt8) (n : ℕ)
    (hsize : m_block.length = 128) (hleft : m_block.take left.length = left)
    (hn : left.length + 5 ≤ n) (hn' : n ≤ 128) (hlen : len_b.length = 4) :
    ∃ b₁ b₂ b₃, writeBlock m_block left.length (List.replicate (n - left.length) 0) = some b₁ ∧
      writeBlock b₁ left.length [0x80] = some b₂ ∧ writeBlock b₂ (n - 4) len_b = some b₃ ∧
      b₃.length = 128 ∧
      b₃.take n = left ++ 0x80 :: (List.replicate (n - left.length - 5) 0 ++ len_b) := by
  obtain ⟨b₁, hb₁, hsize₁, htake₁, -⟩ := exists_writeBlock m_block left.length
    (List.replicate (n - left.length) 0) (by rw [List.length_replicate]; omega)
  obtain ⟨b₂, hb₂, hsize₂, htake₂, hdrop₂⟩ := exists_writeBlock b₁ left.length [0x80]
    (by rw [List.length_singleton]; omega)
  obtain ⟨b₃, hb₃, hsize₃, htake₃, -⟩ := exists_writeBlock b₂ (n - 4) len_b (by omega)
  refine ⟨b₁, b₂, b₃, hb₁, hb₂, hb₃, by omega, ?_⟩
  rw [List.length_replicate, Nat.add_sub_of_le (by omega), hleft] at htake₁
  rw [hlen, Nat.sub_add_cancel (by omega)] at htake₃
  rw [List.length_singleton] at htake₂ hdrop₂
  -- The zeros behind the byte that ends the message.
  have hzeros : (b₁.drop (left.length + 1)).take (n - left.length - 5) =
      List.replicate (n - left.length - 5) 0 := by
    calc (b₁.drop (left.length + 1)).take (n - left.length - 5)
        = ((b₁.take n).drop (left.length + 1)).take (n - left.length - 5) := by
          rw [List.drop_take, List.take_take, Nat.min_eq_left (by omega)]
      _ = ((List.replicate (n - left.length) 0).drop 1).take (n - left.length - 5) := by
          rw [htake₁, List.drop_length_add_append]
      _ = List.replicate (n - left.length - 5) 0 := by
          rw [List.drop_replicate, List.take_replicate, Nat.min_eq_left (by omega)]
  have hfirst : b₁.take left.length = left := by
    calc b₁.take left.length
        = (b₁.take n).take left.length := by
          rw [List.take_take, Nat.min_eq_left (by omega)]
      _ = left := by rw [htake₁, List.take_left]
  have hmiddle : b₂.take (n - 4) = left ++ [0x80] ++ List.replicate (n - left.length - 5) 0 := by
    have hsum : n - 4 = left.length + 1 + (n - left.length - 5) := by omega
    rw [hsum, List.take_add, htake₂, hfirst, hdrop₂, hzeros]
  rw [htake₃, hmiddle]
  simp only [List.append_assoc, List.cons_append, List.nil_append]

/-- `final` gives the digest of the message that the object has taken in. -/
theorem Absorbed.final (h : Absorbed msg s) : s.final = some (digest msg) := by
  have hlt : msg.length % 64 < 64 := Nat.mod_lt _ (by norm_num)
  have hleft : (remainder 64 msg).length = msg.length % 64 := length_remainder msg
  let block_nb := if 55 < msg.length % 64 then 2 else 1
  have hnb : block_nb = 1 ∧ msg.length % 64 ≤ 55 ∨ block_nb = 2 ∧ 55 < msg.length % 64 := by
    dsimp only [block_nb]
    split_ifs <;> omega
  have hcond : (if 64 - 9 < s.m_len % 64 then 2 else 1) = block_nb := by
    rw [h.len, Nat.mod_mod]
  have hlen : u32 (u32 (s.m_tot_len + s.m_len) * 8) = u32 (msg.length * 8) := by
    rw [h.tot_len, h.len]
    unfold u32
    omega
  have hzeros : subU32 (block_nb * 64) s.m_len = block_nb * 64 - (remainder 64 msg).length := by
    rw [h.len, hleft]
    unfold subU32
    omega
  obtain ⟨b₁, b₂, b₃, hb₁, hb₂, hb₃, hsize, htake⟩ := exists_finalBlock (remainder 64 msg)
    (SHA2_UNPACK32 (UInt32.ofNat (u32 (msg.length * 8)))) (block_nb * 64) h.size
    (by rw [hleft, ← h.len, h.block]) (by omega) (by omega) rfl
  have hpadding : b₃.take (block_nb * 64) = remainder 64 msg ++ padding msg.length := by
    rw [htake, hleft]
    unfold padding
    congr 5
    dsimp only [block_nb]
    split_ifs <;> rfl
  have hwords : transform s.m_h b₃ block_nb =
      some ((blocks 64 (remainder 64 msg ++ padding msg.length)).foldl compress s.m_h) := by
    rw [transform_eq (by omega) (by rw [hsize]; omega), hpadding]
  unfold SHA256.final
  simp only [hcond, hlen, hzeros]
  rw [h.len, ← hleft, hb₁, Option.bind_some, hb₂, Option.bind_some, hb₃, Option.bind_some, hwords,
    Option.map_some]
  unfold digest digestOf
  rw [blocks_append_remainder (by norm_num) msg, List.foldl_append, h.words]

/-- For chunks of fewer than `2^31` bytes each: however the message is cut, no step writes outside
of the buffer, and the digest is that of the message in one piece, which is the one of the standard
below `2^29` bytes. -/
theorem final_run {chunks : List (List UInt8)} (h : ∀ c ∈ chunks, c.length < 2^31) :
    (run SHA256.update init chunks).bind SHA256.final = some (digest chunks.flatten) ∧
      (chunks.flatten.length < 2^29 → digest chunks.flatten = standardDigest chunks.flatten) := by
  obtain ⟨s, hrun, hs⟩ := absorbed_run h
  refine ⟨by rw [hrun, Option.bind_some, hs.final], fun hlt => ?_⟩
  unfold digest standardDigest digestOf
  rw [(padding_eq_iff (by omega)).2 hlt]

/-- The statement about chunks applies to three of them, one of which is longer than a block. -/
theorem final_run_three :
    (run SHA256.update init [[1, 2, 3], List.replicate 100 4, [5]]).bind SHA256.final =
      some (digest ([1, 2, 3] ++ List.replicate 100 4 ++ [5])) :=
  (@final_run [[1, 2, 3], List.replicate 100 4, [5]] (by decide)).1

/-! ## Messages with one digest -/

/-- The words after the blocks are determined by the digest. -/
theorem digest_injective {h h' : Words}
    (heq : h.toList.flatMap SHA2_UNPACK32 = h'.toList.flatMap SHA2_UNPACK32) : h = h' := by
  have happ : ∀ {x y : UInt32} {l l' : List UInt8},
      SHA2_UNPACK32 x ++ l = SHA2_UNPACK32 y ++ l' → x = y ∧ l = l' := fun hxy => by
    obtain ⟨hword, hrest⟩ := List.append_inj hxy rfl
    exact ⟨SHA2_UNPACK32_injective hword, hrest⟩
  simp only [Words.toList, List.flatMap_cons] at heq
  obtain ⟨h0, heq⟩ := happ heq
  obtain ⟨h1, heq⟩ := happ heq
  obtain ⟨h2, heq⟩ := happ heq
  obtain ⟨h3, heq⟩ := happ heq
  obtain ⟨h4, heq⟩ := happ heq
  obtain ⟨h5, heq⟩ := happ heq
  obtain ⟨h6, heq⟩ := happ heq
  obtain ⟨h7, -⟩ := happ heq
  calc h = ⟨h.w0, h.w1, h.w2, h.w3, h.w4, h.w5, h.w6, h.w7⟩ := rfl
    _ = ⟨h'.w0, h'.w1, h'.w2, h'.w3, h'.w4, h'.w5, h'.w6, h'.w7⟩ := by
      rw [h0, h1, h2, h3, h4, h5, h6, h7]

/-- A hexadecimal digit stands for one number. -/
theorem hexDigit_injective {n n' : ℕ} (hn : n < 16) (hn' : n' < 16)
    (h : hexDigit n = hexDigit n') : n = n' := by
  have hall : ∀ a < 16, ∀ b < 16, hexDigit a = hexDigit b → a = b := by decide
  exact hall n hn n' hn' h

/-- The digits of two bytes. -/
theorem hexByte_injective {b b' : UInt8} (h : hexByte b = hexByte b') : b = b' := by
  unfold hexByte at h
  obtain ⟨hhigh, hlow⟩ := List.cons.inj h
  have hb := b.toNat_lt
  have hb' := b'.toNat_lt
  have ehigh := hexDigit_injective (by omega) (by omega) hhigh
  have elow := hexDigit_injective (by omega) (by omega) (List.cons.inj hlow).1
  refine UInt8.toNat_inj.1 ?_
  omega

/-- The digits determine the bytes. -/
theorem flatMap_hexByte_injective {l l' : List UInt8}
    (h : l.flatMap hexByte = l'.flatMap hexByte) : l = l' := by
  induction l generalizing l' with
  | nil =>
    cases l' with
    | nil => rfl
    | cons b l' => exact absurd h (by simp [hexByte])
  | cons b l ih =>
    cases l' with
    | nil => exact absurd h (by simp [hexByte])
    | cons b' l' =>
      rw [List.flatMap_cons, List.flatMap_cons] at h
      obtain ⟨hbyte, hrest⟩ := List.append_inj h rfl
      rw [hexByte_injective hbyte, ih hrest]

/-- `sha256` writes the digest in hexadecimal digits. -/
theorem sha256_eq {msg : List UInt8} (h : msg.length < 2^31) :
    sha256 msg = some (String.ofList ((digest msg).flatMap hexByte)) := by
  obtain ⟨s, hupdate, hs⟩ := absorbed_init.update h
  unfold sha256
  rw [hupdate, Option.bind_some, hs.final, List.nil_append]
  rfl

/-- The last block ends with the number of bits. -/
theorem exists_paddedBlocks (msg : List UInt8) : ∃ l b, paddedBlocks msg = l ++ [b] ∧
    b.drop 60 = SHA2_UNPACK32 (UInt32.ofNat (u32 (msg.length * 8))) := by
  have hflatten := flatten_blocks (n := 64) (by norm_num) (dvd_length_padded msg)
  have hne : paddedBlocks msg ≠ [] := fun hnil => by
    unfold paddedBlocks at hnil
    rw [hnil] at hflatten
    exact absurd hflatten.symm (by simp [padding])
  obtain ⟨l, b, hb⟩ := (List.eq_nil_or_concat' _).resolve_left hne
  have hlen : b.length = 64 := length_of_mem_blocks (l := msg ++ padding msg.length) (by
    show b ∈ paddedBlocks msg
    rw [hb]
    exact List.mem_append_right _ (List.mem_singleton_self b))
  have hends : l.flatten ++ b.take 60 ++ b.drop 60 =
      msg ++ 0x80 :: List.replicate ((if 55 < msg.length % 64 then 128 else 64) -
        msg.length % 64 - 5) 0 ++ SHA2_UNPACK32 (UInt32.ofNat (u32 (msg.length * 8))) := by
    calc l.flatten ++ b.take 60 ++ b.drop 60
        = (l ++ [b]).flatten := by
          rw [List.append_assoc, List.take_append_drop, List.flatten_append, List.flatten_singleton]
      _ = msg ++ padding msg.length := by
          rw [← hb]
          exact hflatten
      _ = _ := by
          unfold padding
          rw [List.append_assoc, List.cons_append]
  refine ⟨l, b, hb, (List.append_inj' hends ?_).2⟩
  rw [List.length_drop, hlen, length_SHA2_UNPACK32]

/-- The blocks of a message of known length determine it. -/
theorem paddedBlocks_injective {msg msg' : List UInt8} (hlen : msg.length = msg'.length)
    (h : paddedBlocks msg = paddedBlocks msg') : msg = msg' := by
  have hflatten : msg ++ padding msg.length = msg' ++ padding msg'.length := by
    calc msg ++ padding msg.length
        = (paddedBlocks msg).flatten :=
          (flatten_blocks (by norm_num) (dvd_length_padded msg)).symm
      _ = (paddedBlocks msg').flatten := by rw [h]
      _ = msg' ++ padding msg'.length := flatten_blocks (by norm_num) (dvd_length_padded msg')
  exact (List.append_inj hflatten hlen).1

/-- Two different messages of fewer than `2^29` bytes collide, if the words are the same at the
end. -/
theorem collide_of_ne {msg msg' : List UInt8} (hm : msg.length < 2^29) (hm' : msg'.length < 2^29)
    (hne : msg ≠ msg') (h : (paddedBlocks msg).foldl compress initWords =
      (paddedBlocks msg').foldl compress initWords) :
    Collide compress initWords (paddedBlocks msg) initWords (paddedBlocks msg') := by
  by_cases hlen : msg.length = msg'.length
  · refine collide_of_length_eq ?_ (fun heq => hne ?_) h
    · unfold paddedBlocks
      rw [length_blocks, length_blocks, List.length_append, List.length_append, hlen]
    · exact paddedBlocks_injective hlen (Prod.mk.inj heq).2
  · -- The numbers of bits differ, and they are in the last blocks.
    obtain ⟨l, b, hb, hbits⟩ := exists_paddedBlocks msg
    obtain ⟨l', b', hb', hbits'⟩ := exists_paddedBlocks msg'
    rw [hb, hb'] at h ⊢
    refine collide_of_last_ne h fun heq => hlen ?_
    rw [← (Prod.mk.inj heq).2, hbits] at hbits'
    exact bitLength_injective hm hm' hbits'

/-- For messages of fewer than `2^29` bytes whose chains do not collide: `sha256` gives both the
same string only when they are the same message. -/
theorem sha256_eq_iff {msg msg' : List UInt8} (hm : msg.length < 2^29) (hm' : msg'.length < 2^29)
    (h : ¬Collide compress initWords (paddedBlocks msg) initWords (paddedBlocks msg')) :
    sha256 msg = sha256 msg' ↔ msg = msg' := by
  refine ⟨fun heq => ?_, congrArg sha256⟩
  rw [sha256_eq (by omega), sha256_eq (by omega), Option.some.injEq, String.ofList_inj] at heq
  by_contra hne
  exact h (collide_of_ne hm hm' hne (digest_injective (flatMap_hexByte_injective heq)))

/-- The statement about two messages applies to messages of one byte and of seventy. -/
theorem sha256_eq_iff_short : sha256 [1] = sha256 (List.replicate 70 1) ↔
    ([1] : List UInt8) = List.replicate 70 1 :=
  sha256_eq_iff (by decide) (by decide) (by decide +kernel)

end SHA256

end TenProf
