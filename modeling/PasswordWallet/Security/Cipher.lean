import Mathlib.Data.List.Basic
import Mathlib.Tactic.Cases
import PasswordWallet.Memory.Image

/-!
# The cipher of the stored secrets

`Aes.c` runs AES-128 in CBC mode.  The block cipher is a parameter: a family of
encryptions with an inverse, which is what `aesCipher`, and `aesInvCipher`
after `aesKeyPatch`, are (the key bytes are restored afterwards, so the key is
only read here).  The chaining is the code's own:

* `cbcEncrypt` is the loop of `AES128_CBC_encrypt_buffer`;
* `cbcDecrypt` is the loop of `AES128_CBC_decrypt_buffer`, with the two buffers
  that take turns to remember the previous ciphertext block, and with its early
  exit: once a decrypted block contains a zero the rest of the buffer is left
  encrypted.

The early exit is harmless because `read_and_decrypt` clears everything from
the first byte below 32 on (`removePadding`); `removePadding_cbcDecrypt` says
that reading back what was encrypted gives the plain text, so cleared.
-/

namespace PasswordWallet

/-- `mem_xor`. -/
def memXor (out xo : Block) : Block := Vector.zipWith (· ^^^ ·) out xo

@[simp] theorem memXor_memXor (out xo : Block) : memXor (memXor out xo) xo = out := by
  ext i hi
  simp [memXor]

/-- A block cipher and its inverse. -/
structure BlockCipher where
  encrypt : Block → Block → Block
  decrypt : Block → Block → Block
  decrypt_encrypt : ∀ key block, decrypt key (encrypt key block) = block

/-- The simplest block cipher, for concrete runs. -/
def BlockCipher.xorKey : BlockCipher where
  encrypt key block := memXor block key
  decrypt key block := memXor block key
  decrypt_encrypt key block := memXor_memXor block key

/-- What the firmware is built for: how `PWD_ADDR` is evaluated, and the block
cipher. -/
structure Target where
  addressing : Addressing
  cipher : BlockCipher

/-- The 16 bytes at the front of a buffer. -/
def blockAt (buffer : List Byte) : Block := Vector.ofFn fun i => buffer.getD i 0

@[simp] theorem blockAt_toList_append (block : Block) (rest : List Byte) :
    blockAt (block.toList ++ rest) = block := by
  ext i hi
  simp [blockAt, List.getElem?_append_left]

theorem toList_blockAt {buffer : List Byte} (h : 16 ≤ buffer.length) :
    (blockAt buffer).toList = buffer.take 16 := by
  apply List.ext_getElem
  · simp [h]
  · intro i h₁ h₂
    simp only [Vector.length_toList] at h₁
    simp [blockAt, List.getElem?_eq_getElem (show i < buffer.length by omega)]

theorem length_block (block : Block) : block.toList.length = 16 := Vector.length_toList ..

/-- `AES128_CBC_encrypt_buffer`, on the `blocks` blocks of `input`. -/
def cbcEncrypt (encrypt : Block → Block) : ℕ → List Byte → Block → List Byte
  | 0, _, _ => []
  | blocks + 1, input, iv =>
      let block := encrypt (memXor (blockAt input) iv)
      block.toList ++ cbcEncrypt encrypt blocks (input.drop 16) block

/-- The loop of `AES128_CBC_decrypt_buffer`: `pos` says which of the two buffers
takes the next ciphertext block, `inTemp` which one `xorWith` points to. -/
def cbcDecryptLoop (decrypt : Block → Block) :
    ℕ → List Byte → (tempCipher iv : Block) → (pos inTemp : Bool) → List Byte
  | 0, _, _, _, _, _ => []
  | blocks + 1, input, tempCipher, iv, pos, inTemp =>
      let block := blockAt input
      let tempCipher := if pos then tempCipher else block
      let iv := if pos then block else iv
      let plain := memXor (decrypt block) (if inTemp then tempCipher else iv)
      -- the strings end at their first zero: the code returns here
      if 0 ∈ plain.toList then plain.toList ++ input.drop 16
      else plain.toList ++
        cbcDecryptLoop decrypt blocks (input.drop 16) tempCipher iv (!pos) (!pos)

/-- `AES128_CBC_decrypt_buffer`. -/
def cbcDecrypt (decrypt : Block → Block) (blocks : ℕ) (input : List Byte) (iv : Block) :
    List Byte :=
  cbcDecryptLoop decrypt blocks input iv iv false false

/-- The turns of the loop `for(; i < sz; i+=16)` from `i` on, which is a byte, as
`sz` is. -/
def blockTurns (sz : Byte) : (fuel : ℕ) → Byte → Option ℕ
  | 0, _ => none
  | fuel + 1, i => if i < sz then (blockTurns sz fuel (i + 16)).map (· + 1) else some 0

/-- The decryption of all the blocks, each chained to the ciphertext before it:
`P_i = D(C_i) xor C_{i-1}`, where `C_{-1}` is `chain`. -/
def cbcDecryptAll (decrypt : Block → Block) : ℕ → List Byte → (chain : Block) → List Byte
  | 0, _, _ => []
  | blocks + 1, input, chain =>
      (memXor (decrypt (blockAt input)) chain).toList ++
        cbcDecryptAll decrypt blocks (input.drop 16) (blockAt input)

/-- The padding removal of `read_and_decrypt`; `j` is its flag. -/
def removePadding : Bool → List Byte → List Byte
  | _, [] => []
  | j, byte :: rest =>
      let j := j || byte.toNat < 32
      (if j then 0 else byte) :: removePadding j rest

/-! ## Padding -/

@[simp] theorem length_removePadding (j : Bool) (bytes : List Byte) :
    (removePadding j bytes).length = bytes.length := by
  induction bytes generalizing j with
  | nil => rfl
  | cons byte rest ih => simp [removePadding, ih]

@[simp] theorem removePadding_true (bytes : List Byte) :
    removePadding true bytes = List.replicate bytes.length 0 := by
  induction bytes with
  | nil => rfl
  | cons byte rest ih => simp [removePadding, ih, List.replicate_succ]

theorem removePadding_append (j : Bool) (first second : List Byte) :
    removePadding j (first ++ second) =
      removePadding j first ++
        removePadding (j || first.any fun byte => byte.toNat < 32) second := by
  induction first generalizing j with
  | nil => simp [removePadding]
  | cons byte rest ih => simp [removePadding, ih, Bool.or_assoc]

/-- Removing the padding twice is removing it once. -/
@[simp] theorem removePadding_removePadding (bytes : List Byte) :
    removePadding false (removePadding false bytes) = removePadding false bytes := by
  induction bytes with
  | nil => rfl
  | cons byte rest ih =>
      by_cases hbyte : byte.toNat < 32 <;> simp [removePadding, hbyte, ih]

/-! ## Decrypting -/

@[simp] theorem length_cbcEncrypt (encrypt : Block → Block) (blocks : ℕ) (input : List Byte)
    (iv : Block) : (cbcEncrypt encrypt blocks input iv).length = 16 * blocks := by
  induction blocks generalizing input iv with
  | zero => rfl
  | succ blocks ih =>
      simp only [cbcEncrypt, List.length_append, length_block, ih]
      omega

theorem length_cbcDecryptLoop (decrypt : Block → Block) (blocks : ℕ) (input : List Byte)
    (tempCipher iv : Block) (pos inTemp : Bool) (h : input.length = 16 * blocks) :
    (cbcDecryptLoop decrypt blocks input tempCipher iv pos inTemp).length = 16 * blocks := by
  induction blocks generalizing input tempCipher iv pos inTemp with
  | zero => rfl
  | succ blocks ih =>
      have hrest := ih (input.drop 16) (h := by rw [List.length_drop]; omega)
      simp only [cbcDecryptLoop, apply_ite List.length, List.length_append, length_block,
        List.length_drop, hrest, h, Nat.mul_succ, Nat.add_sub_cancel, ite_self]
      omega

theorem length_cbcDecrypt (decrypt : Block → Block) (blocks : ℕ) (input : List Byte)
    (iv : Block) (h : input.length = 16 * blocks) :
    (cbcDecrypt decrypt blocks input iv).length = 16 * blocks :=
  length_cbcDecryptLoop _ _ _ _ _ _ _ h

@[simp] theorem length_cbcDecryptAll (decrypt : Block → Block) (blocks : ℕ) (input : List Byte)
    (chain : Block) : (cbcDecryptAll decrypt blocks input chain).length = 16 * blocks := by
  induction blocks generalizing input chain with
  | zero => rfl
  | succ blocks ih =>
      rw [cbcDecryptAll, List.length_append, length_block, ih]
      omega

/-- Decrypting what was encrypted. -/
theorem cbcDecryptAll_cbcEncrypt (cipher : BlockCipher) (key : Block) (blocks : ℕ)
    (input : List Byte) (iv : Block) (h : input.length = 16 * blocks) :
    cbcDecryptAll (cipher.decrypt key) blocks
      (cbcEncrypt (cipher.encrypt key) blocks input iv) iv = input := by
  induction blocks generalizing input iv with
  | zero =>
      rw [List.eq_nil_of_length_eq_zero (l := input) (by omega)]
      rfl
  | succ blocks ih =>
      have hrest := ih (input.drop 16) (cipher.encrypt key (memXor (blockAt input) iv))
        (by rw [List.length_drop]; omega)
      rw [cbcEncrypt, cbcDecryptAll, blockAt_toList_append, cipher.decrypt_encrypt,
        memXor_memXor, List.drop_left' (length_block _), hrest, toList_blockAt (by omega),
        List.take_append_drop]

/-! ## The early exit -/

/-- A block with a zero ends the string: what follows it is cleared, whatever it is. -/
theorem removePadding_of_zero {plain rest rest' : List Byte} (hzero : 0 ∈ plain)
    (hlength : rest.length = rest'.length) :
    removePadding false (plain ++ rest) = removePadding false (plain ++ rest') := by
  have hany : plain.any (fun byte => byte.toNat < 32) = true :=
    List.any_eq_true.mpr ⟨0, hzero, by simp⟩
  rw [removePadding_append, removePadding_append, hany, Bool.or_true, removePadding_true,
    removePadding_true, hlength]

/-- What follows the same bytes may be exchanged for what clears alike. -/
theorem removePadding_append_congr {plain rest rest' : List Byte}
    (hlength : rest.length = rest'.length)
    (h : removePadding false rest = removePadding false rest') :
    removePadding false (plain ++ rest) = removePadding false (plain ++ rest') := by
  rw [removePadding_append, removePadding_append]
  by_cases hany : plain.any (fun byte => byte.toNat < 32) = true
  · rw [hany, Bool.or_true, removePadding_true, removePadding_true, hlength]
  · rw [Bool.not_eq_true] at hany
    rw [hany, Bool.or_false, h]

/-- The loop with its chaining value at hand: `xorWith` points to the buffer that `pos`
does not name, and the previous ciphertext block is in it. -/
theorem removePadding_cbcDecryptLoop (decrypt : Block → Block) (blocks : ℕ) (input : List Byte)
    (tempCipher iv : Block) (pos : Bool) (h : input.length = 16 * blocks) :
    removePadding false (cbcDecryptLoop decrypt blocks input tempCipher iv pos pos) =
      removePadding false
        (cbcDecryptAll decrypt blocks input (if pos then tempCipher else iv)) := by
  induction blocks generalizing input tempCipher iv pos with
  | zero => rfl
  | succ blocks ih =>
      have hdrop : (input.drop 16).length = 16 * blocks := by rw [List.length_drop]; omega
      have hlast : (if pos then (if pos then tempCipher else blockAt input)
          else (if pos then blockAt input else iv)) = if pos then tempCipher else iv := by
        cases pos <;> rfl
      have hnext : (if (!pos) = true then (if pos then tempCipher else blockAt input)
          else (if pos then blockAt input else iv)) = blockAt input := by
        cases pos <;> rfl
      have hrest := ih (input.drop 16) (if pos then tempCipher else blockAt input)
        (if pos then blockAt input else iv) (!pos) hdrop
      rw [hnext] at hrest
      rw [cbcDecryptLoop, cbcDecryptAll]
      simp only [hlast]
      generalize memXor (decrypt (blockAt input)) (if pos then tempCipher else iv) = plain
      by_cases hzero : 0 ∈ plain.toList
      · rw [if_pos hzero]
        exact removePadding_of_zero hzero (hdrop.trans (length_cbcDecryptAll ..).symm)
      · rw [if_neg hzero]
        refine removePadding_append_congr ?_ hrest
        rw [length_cbcDecryptLoop _ _ _ _ _ _ _ hdrop, length_cbcDecryptAll]

/-- The early exit is not seen behind the padding removal. -/
theorem removePadding_cbcDecrypt_eq (decrypt : Block → Block) (blocks : ℕ) (input : List Byte)
    (iv : Block) (h : input.length = 16 * blocks) :
    removePadding false (cbcDecrypt decrypt blocks input iv) =
      removePadding false (cbcDecryptAll decrypt blocks input iv) :=
  removePadding_cbcDecryptLoop decrypt blocks input iv iv false h

/-- Encrypted secrets read back: what is stored decrypts to the plain text,
cleared from its first byte below 32 on. -/
theorem removePadding_cbcDecrypt (cipher : BlockCipher) (key : Block) (blocks : ℕ)
    (input : List Byte) (iv : Block) (h : input.length = 16 * blocks) :
    removePadding false (cbcDecrypt (cipher.decrypt key) blocks
        (cbcEncrypt (cipher.encrypt key) blocks input iv) iv) =
      removePadding false input := by
  rw [removePadding_cbcDecrypt_eq _ _ _ _ (length_cbcEncrypt ..),
    cbcDecryptAll_cbcEncrypt _ _ _ _ _ h]

end PasswordWallet
