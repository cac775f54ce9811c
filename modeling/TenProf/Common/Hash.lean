import TenProf.Library.ChainedHash
import TenProf.Library.Runs
import TenProf.Words

/-!
# SHA-256

`hash.cpp` hashes a message in chunks: `update` keeps the bytes that do not fill a block in
`m_block` and compresses the blocks that are full, and `final` pads what is left. After any chunks
of fewer than `2^31` bytes each, the state is that of the message in one piece (`absorbed_run`).
The length that `final` writes is a word of 32 bits, the number of bits modulo `2^32`.
-/

namespace TenProf

/-! ## The compression function -/

namespace SHA256

/-- `SHA2_SHFR`. -/
def SHA2_SHFR (x n : UInt32) : UInt32 := x >>> n

/-- `SHA2_ROTR`. -/
def SHA2_ROTR (x n : UInt32) : UInt32 := (x >>> n) ||| (x <<< (32 - n))

/-- `SHA2_CH`. -/
def SHA2_CH (x y z : UInt32) : UInt32 := (x &&& y) ^^^ (~~~x &&& z)

/-- `SHA2_MAJ`. -/
def SHA2_MAJ (x y z : UInt32) : UInt32 := (x &&& y) ^^^ (x &&& z) ^^^ (y &&& z)

/-- `SHA256_F1`. -/
def SHA256_F1 (x : UInt32) : UInt32 := SHA2_ROTR x 2 ^^^ SHA2_ROTR x 13 ^^^ SHA2_ROTR x 22

/-- `SHA256_F2`. -/
def SHA256_F2 (x : UInt32) : UInt32 := SHA2_ROTR x 6 ^^^ SHA2_ROTR x 11 ^^^ SHA2_ROTR x 25

/-- `SHA256_F3`. -/
def SHA256_F3 (x : UInt32) : UInt32 := SHA2_ROTR x 7 ^^^ SHA2_ROTR x 18 ^^^ SHA2_SHFR x 3

/-- `SHA256_F4`. -/
def SHA256_F4 (x : UInt32) : UInt32 := SHA2_ROTR x 17 ^^^ SHA2_ROTR x 19 ^^^ SHA2_SHFR x 10

/-- `SHA2_UNPACK32`: the bytes of a word, the most significant one first. -/
def SHA2_UNPACK32 (x : UInt32) : List UInt8 :=
  [(x >>> 24).toUInt8, (x >>> 16).toUInt8, (x >>> 8).toUInt8, x.toUInt8]

/-- `SHA2_PACK32`: the word of the four bytes from an index on. -/
def SHA2_PACK32 (str : List UInt8) (i : ℕ) : UInt32 :=
  (str.getD (i + 3) 0).toUInt32 ||| ((str.getD (i + 2) 0).toUInt32 <<< 8) |||
    ((str.getD (i + 1) 0).toUInt32 <<< 16) ||| ((str.getD i 0).toUInt32 <<< 24)

/-- `sha256_k`. -/
def sha256K : List UInt32 :=
  [0x428a2f98, 0x71374491, 0xb5c0fbcf, 0xe9b5dba5, 0x3956c25b, 0x59f111f1, 0x923f82a4,
    0xab1c5ed5, 0xd807aa98, 0x12835b01, 0x243185be, 0x550c7dc3, 0x72be5d74, 0x80deb1fe,
    0x9bdc06a7, 0xc19bf174, 0xe49b69c1, 0xefbe4786, 0x0fc19dc6, 0x240ca1cc, 0x2de92c6f,
    0x4a7484aa, 0x5cb0a9dc, 0x76f988da, 0x983e5152, 0xa831c66d, 0xb00327c8, 0xbf597fc7,
    0xc6e00bf3, 0xd5a79147, 0x06ca6351, 0x14292967, 0x27b70a85, 0x2e1b2138, 0x4d2c6dfc,
    0x53380d13, 0x650a7354, 0x766a0abb, 0x81c2c92e, 0x92722c85, 0xa2bfe8a1, 0xa81a664b,
    0xc24b8b70, 0xc76c51a3, 0xd192e819, 0xd6990624, 0xf40e3585, 0x106aa070, 0x19a4c116,
    0x1e376c08, 0x2748774c, 0x34b0bcb5, 0x391c0cb3, 0x4ed8aa4a, 0x5b9cca4f, 0x682e6ff3,
    0x748f82ee, 0x78a5636f, 0x84c87814, 0x8cc70208, 0x90befffa, 0xa4506ceb, 0xbef9a3f7,
    0xc67178f2]

/-- The eight words of `m_h`, and of `wv`. -/
structure Words where
  w0 : UInt32
  w1 : UInt32
  w2 : UInt32
  w3 : UInt32
  w4 : UInt32
  w5 : UInt32
  w6 : UInt32
  w7 : UInt32
  deriving DecidableEq, Repr

/-- The words from the first to the last. -/
def Words.toList (h : Words) : List UInt32 := [h.w0, h.w1, h.w2, h.w3, h.w4, h.w5, h.w6, h.w7]

/-- The words that `w` has for a block: its own ones, and those computed from them. -/
def schedule (sub_block : List UInt8) : List UInt32 :=
  (List.range' 16 48).foldl (fun w j => w ++
    [SHA256_F4 (w.getD (j - 2) 0) + w.getD (j - 7) 0 + SHA256_F3 (w.getD (j - 15) 0) +
      w.getD (j - 16) 0])
    ((List.range 16).map fun j => SHA2_PACK32 sub_block (j * 4))

/-- A round, with its constant and its word. -/
def round (wv : Words) (k_w : UInt32 × UInt32) : Words :=
  let t1 := wv.w7 + SHA256_F2 wv.w4 + SHA2_CH wv.w4 wv.w5 wv.w6 + k_w.1 + k_w.2
  let t2 := SHA256_F1 wv.w0 + SHA2_MAJ wv.w0 wv.w1 wv.w2
  ⟨t1 + t2, wv.w0, wv.w1, wv.w2, wv.w3 + t1, wv.w4, wv.w5, wv.w6⟩

/-- The turn of the loop of `transform` for a block. -/
def compress (m_h : Words) (sub_block : List UInt8) : Words :=
  let wv := (sha256K.zip (schedule sub_block)).foldl round m_h
  ⟨m_h.w0 + wv.w0, m_h.w1 + wv.w1, m_h.w2 + wv.w2, m_h.w3 + wv.w3, m_h.w4 + wv.w4,
    m_h.w5 + wv.w5, m_h.w6 + wv.w6, m_h.w7 + wv.w7⟩

/-- `transform`. It has no result when the `int` offset `i << 6` of a block overflows or when the
message is shorter than its blocks. -/
def transform (m_h : Words) (message : List UInt8) (block_nb : ℕ) : Option Words :=
  if block_nb ≤ 2^25 ∧ block_nb * 64 ≤ message.length then
    some ((List.range block_nb).foldl
      (fun m_h i => compress m_h ((message.drop (i * 64)).take 64)) m_h)
  else none

end SHA256

/-! ## The functions of the class -/

/-- `SHA256`. -/
structure SHA256 where
  m_tot_len : ℕ
  m_len : ℕ
  m_block : List UInt8
  m_h : SHA256.Words

namespace SHA256

/-- `memcpy` to a place of `m_block`, which has no result outside of it. -/
def writeBlock (m_block : List UInt8) (i : ℕ) (bytes : List UInt8) : Option (List UInt8) :=
  if i + bytes.length ≤ m_block.length then
    some (m_block.take i ++ bytes ++ m_block.drop (i + bytes.length))
  else none

/-- The words that `init` writes. -/
def initWords : Words :=
  ⟨0x6a09e667, 0xbb67ae85, 0x3c6ef372, 0xa54ff53a, 0x510e527f, 0x9b05688c, 0x1f83d9ab, 0x5be0cd19⟩

/-- `init` of a new object. -/
def init : SHA256 := ⟨0, 0, List.replicate 128 0, initWords⟩

/-- `update`, with the bytes that it is passed. -/
def update (s : SHA256) (message : List UInt8) : Option SHA256 :=
  let len := message.length
  let tmp_len := subU32 64 s.m_len
  let rem_len := if len < tmp_len then len else tmp_len
  (writeBlock s.m_block s.m_len (message.take rem_len)).bind fun m_block =>
    if u32 (s.m_len + len) < 64 then
      some { s with m_len := u32 (s.m_len + len), m_block := m_block }
    else
      let new_len := len - rem_len
      let block_nb := new_len / 64
      let shifted_message := message.drop rem_len
      (transform s.m_h m_block 1).bind fun m_h =>
        (transform m_h shifted_message block_nb).bind fun m_h =>
          let rem_len := new_len % 64
          (writeBlock m_block 0 ((shifted_message.drop (block_nb * 64)).take rem_len)).map
            fun m_block => ⟨u32 (s.m_tot_len + (block_nb + 1) * 64), rem_len, m_block, m_h⟩

/-- `final`. -/
def final (s : SHA256) : Option (List UInt8) :=
  let block_nb := if 64 - 9 < s.m_len % 64 then 2 else 1
  let len_b := u32 (u32 (s.m_tot_len + s.m_len) * 8)
  let pm_len := block_nb * 64
  (writeBlock s.m_block s.m_len (List.replicate (subU32 pm_len s.m_len) 0)).bind fun m_block =>
    (writeBlock m_block s.m_len [0x80]).bind fun m_block =>
      (writeBlock m_block (pm_len - 4) (SHA2_UNPACK32 (UInt32.ofNat len_b))).bind fun m_block =>
        (transform s.m_h m_block block_nb).map fun m_h => m_h.toList.flatMap SHA2_UNPACK32

/-- A hexadecimal digit. -/
def hexDigit (n : ℕ) : Char := "0123456789abcdef".toList.getD n '0'

/-- What `sprintf` writes for a byte with the format `%02x`. -/
def hexByte (b : UInt8) : List Char := [hexDigit (b.toNat / 16), hexDigit (b.toNat % 16)]

end SHA256

/-- `sha256`. -/
def sha256 (input : List UInt8) : Option String :=
  (SHA256.init.update input).bind fun ctx =>
    ctx.final.map fun digest => String.ofList (digest.flatMap SHA256.hexByte)

/-- The model gives the test vector of the standard. -/
example : sha256 [97, 98, 99] =
    some "ba7816bf8f01cfea414140de5dae2223b00361a396177a9cb410ff61f20015ad" := by decide +kernel

namespace SHA256

/-! ## Chunks -/

/-- The object has taken in a message: the words are those after its blocks, and what is left is at
the front of the buffer. -/
structure Absorbed (msg : List UInt8) (s : SHA256) : Prop where
  tot_len : s.m_tot_len = u32 (msg.length / 64 * 64)
  len : s.m_len = msg.length % 64
  size : s.m_block.length = 128
  block : s.m_block.take s.m_len = remainder 64 msg
  words : s.m_h = (blocks 64 msg).foldl compress initWords

variable {s : SHA256} {msg message : List UInt8} {m_block bytes : List UInt8} {i : ℕ}

/-- A new object has taken in the empty message. -/
theorem absorbed_init : Absorbed [] init := by
  constructor <;> rfl

/-- Bytes that fit are written, and nothing behind them changes. -/
theorem exists_writeBlock (m_block : List UInt8) (i : ℕ) (bytes : List UInt8)
    (h : i + bytes.length ≤ m_block.length) :
    ∃ m_block', writeBlock m_block i bytes = some m_block' ∧ m_block'.length = m_block.length ∧
      m_block'.take (i + bytes.length) = m_block.take i ++ bytes ∧
      m_block'.drop (i + bytes.length) = m_block.drop (i + bytes.length) := by
  have hlen : (m_block.take i ++ bytes).length = i + bytes.length := by
    rw [List.length_append, List.length_take]
    omega
  refine ⟨_, if_pos h, ?_, ?_, ?_⟩
  · rw [List.length_append, hlen, List.length_drop]
    omega
  · rw [← hlen, List.take_left]
  · nth_rewrite 1 [← hlen]
    exact List.drop_left

/-- The blocks of a message are compressed one after the other. -/
theorem transform_eq {m_h : Words} {block_nb : ℕ} (hnb : block_nb ≤ 2^25)
    (hlen : block_nb * 64 ≤ message.length) : transform m_h message block_nb =
      some ((blocks 64 (message.take (block_nb * 64))).foldl compress m_h) := by
  have htake : (message.take (block_nb * 64)).length / 64 = block_nb := by
    rw [List.length_take, Nat.min_eq_left hlen, Nat.mul_div_cancel _ (by norm_num)]
  unfold transform blocks
  rw [if_pos ⟨hnb, hlen⟩, htake, List.foldl_map]
  refine congrArg some (List.foldl_ext _ _ _ fun m_h i hi => ?_)
  have hlt : i < block_nb := List.mem_range.1 hi
  rw [List.drop_take, List.take_take, Nat.min_eq_left (by omega)]

/-- Bytes that do not fill the block are kept. -/
theorem Absorbed.update_of_lt (h : Absorbed msg s) (hlt : msg.length % 64 + message.length < 64) :
    ∃ s', s.update message = some s' ∧ Absorbed (msg ++ message) s' := by
  have hlen := h.len
  have htmp : subU32 64 s.m_len = 64 - msg.length % 64 := by
    rw [hlen]
    unfold subU32
    omega
  have hword : u32 (s.m_len + message.length) = msg.length % 64 + message.length := by
    rw [hlen]
    exact u32_of_lt (by omega)
  obtain ⟨m_block, hwrite, hsize, hblock, -⟩ := exists_writeBlock s.m_block s.m_len message
    (by rw [h.size]; omega)
  unfold update
  simp only [htmp]
  rw [if_pos (by omega), List.take_length, hwrite, Option.bind_some, hword, if_pos hlt]
  have hrest : remainder 64 (msg ++ message) = remainder 64 msg ++ message := by
    rw [remainder_append_remainder (by norm_num), remainder_of_lt]
    rw [List.length_append, length_remainder]
    exact hlt
  refine ⟨_, rfl, ?_, ?_, ?_, ?_, ?_⟩
  · rw [List.length_append, h.tot_len]
    congr 1
    omega
  · rw [List.length_append]
    dsimp only
    omega
  · exact hsize.trans h.size
  · dsimp only
    rw [hrest, ← h.block, ← hblock, hlen]
  · dsimp only
    rw [blocks_append_remainder (by norm_num), h.words, blocks_of_lt (l := _ ++ message),
      List.append_nil]
    rw [List.length_append, length_remainder]
    exact hlt

/-- Bytes that fill the block are compressed with it, but for the last ones. -/
theorem Absorbed.update_of_ge (h : Absorbed msg s) (hge : 64 ≤ msg.length % 64 + message.length)
    (hbound : message.length < 2^31) :
    ∃ s', s.update message = some s' ∧ Absorbed (msg ++ message) s' := by
  have hlen := h.len
  have hlt : msg.length % 64 < 64 := Nat.mod_lt _ (by norm_num)
  have htmp : subU32 64 s.m_len = 64 - msg.length % 64 := by
    rw [hlen]
    unfold subU32
    omega
  have hword : u32 (s.m_len + message.length) = msg.length % 64 + message.length := by
    rw [hlen]
    exact u32_of_lt (by omega)
  -- The bytes up to the end of the block, and those behind it.
  have hrem : (if message.length < 64 - msg.length % 64 then message.length
      else 64 - msg.length % 64) = 64 - msg.length % 64 := by
    split_ifs <;> omega
  let front := message.take (64 - msg.length % 64)
  let rest := message.drop (64 - msg.length % 64)
  have hfront : front.length = 64 - msg.length % 64 := by
    rw [List.length_take]
    omega
  have hrestlen : rest.length = message.length - (64 - msg.length % 64) := List.length_drop
  have hsplit : front ++ rest = message := List.take_append_drop _ _
  have hfill : (remainder 64 msg ++ front).length = 64 := by
    rw [List.length_append, length_remainder, hfront]
    omega
  have hblocks : blocks 64 (msg ++ message) =
      blocks 64 msg ++ ([remainder 64 msg ++ front] ++ blocks 64 rest) := by
    rw [blocks_append_remainder (by norm_num), ← hsplit, ← List.append_assoc (remainder 64 msg),
      blocks_append (by norm_num) ⟨1, hfill⟩, blocks_self (by norm_num) hfill]
  have hremainder : remainder 64 (msg ++ message) = remainder 64 rest := by
    rw [remainder_append_remainder (by norm_num), ← hsplit, ← List.append_assoc,
      remainder_append (by norm_num) ⟨1, hfill⟩]
  obtain ⟨m_block, hwrite, hsize, hblock, -⟩ := exists_writeBlock s.m_block s.m_len front
    (by rw [h.size]; omega)
  have hfull : m_block.take (1 * 64) = remainder 64 msg ++ front := by
    rw [← h.block, ← hblock]
    congr 1
    omega
  have hfirst : transform s.m_h m_block 1 =
      some (compress s.m_h (remainder 64 msg ++ front)) := by
    rw [transform_eq (by norm_num) (by rw [hsize, h.size]; norm_num), hfull,
      blocks_self (by norm_num) hfill]
    rfl
  have hsecond : ∀ m_h, transform m_h rest (rest.length / 64) =
      some ((blocks 64 rest).foldl compress m_h) := fun m_h => by
    rw [transform_eq (by omega) (Nat.div_mul_le_self _ _), blocks_take (by norm_num)]
  have hleft : (rest.drop (rest.length / 64 * 64)).take (rest.length % 64) =
      remainder 64 rest := List.take_of_length_le (length_remainder rest).le
  obtain ⟨m_block', hwrite', hsize', hblock', -⟩ := exists_writeBlock m_block 0 (remainder 64 rest)
    (by
      rw [hsize, h.size, length_remainder]
      omega)
  unfold update
  simp only [htmp, hrem, hword]
  rw [hwrite, Option.bind_some, if_neg (by omega), hfirst, Option.bind_some, ← hrestlen, hsecond,
    Option.bind_some, hleft, hwrite', Option.map_some]
  refine ⟨_, rfl, ?_, ?_, ?_, ?_, ?_⟩
  · dsimp only
    rw [List.length_append, h.tot_len]
    unfold u32
    omega
  · dsimp only
    rw [List.length_append]
    omega
  · exact hsize'.trans (hsize.trans h.size)
  · dsimp only
    rw [hremainder, ← length_remainder, ← Nat.zero_add (remainder 64 rest).length, hblock']
    rfl
  · dsimp only
    rw [hblocks, h.words, List.foldl_append, List.foldl_append]
    rfl

/-- A chunk of fewer than `2^31` bytes is taken in. -/
theorem Absorbed.update (h : Absorbed msg s) (hbound : message.length < 2^31) :
    ∃ s', s.update message = some s' ∧ Absorbed (msg ++ message) s' := by
  by_cases hlt : msg.length % 64 + message.length < 64
  · exact h.update_of_lt hlt
  · exact h.update_of_ge (not_lt.1 hlt) hbound

/-- After chunks of fewer than `2^31` bytes each, the message in one piece is taken in. -/
theorem absorbed_run {chunks : List (List UInt8)} (h : ∀ c ∈ chunks, c.length < 2^31) :
    ∃ s, run SHA256.update init chunks = some s ∧ Absorbed chunks.flatten s := by
  induction chunks using List.reverseRecOn with
  | nil => exact ⟨_, rfl, absorbed_init⟩
  | append_singleton chunks c ih =>
    obtain ⟨s, hrun, hs⟩ := ih fun c' hc' => h c' (List.mem_append_left _ hc')
    have hc := h c (List.mem_append_right _ (List.mem_singleton_self c))
    obtain ⟨s', hupdate, hs'⟩ := hs.update hc
    refine ⟨s', ?_, ?_⟩
    · rw [run_append, hrun, Option.bind_some, run_cons, hupdate]
      rfl
    · rw [List.flatten_append, List.flatten_singleton]
      exact hs'

end SHA256

end TenProf
