import PasswordWallet.Proofs.AesCipher
import PasswordWallet.Proofs.SecretStorage
import PasswordWallet.Rijndael.Chaining

/-!
# Encrypted buffers

`AES128_CBC_encrypt_buffer` and `AES128_CBC_decrypt_buffer` with the key that the cipher
patches in the caller's buffer.  Read as states, what they write is the chain of the
standard, as far as the decryption gets, and the key is whole again on return.

The cipher is also an instance of the block cipher that the rest of the development is
parametrised by, `aesBlockCipher`, for which the two loops are `cbcEncrypt` and
`cbcDecrypt`.
-/

namespace PasswordWallet

open BinaryField Rijndael

/-! ## One block -/

/-- What the buffer of the state holds, if there is one. -/
theorem KeyStep.Shows.toState_getD {s : KeyStep} {B K : State GF256} {c : GF256}
    (h : s.Shows (some B) K c) (block : Block) : toState (s.state.getD block) = B := by
  obtain ⟨b, hb, hB⟩ := Option.map_eq_some_iff.mp h.state
  rw [hb, ← hB]
  rfl

/-- The buffers are what they show. -/
theorem KeyStep.Shows.unique {s s' : KeyStep} {B K : State GF256} {c : GF256}
    (h : s.Shows (some B) K c) (h' : s'.Shows (some B) K c) : s = s' := by
  obtain ⟨b, hb, hB⟩ := Option.map_eq_some_iff.mp h.state
  obtain ⟨b', hb', hB'⟩ := Option.map_eq_some_iff.mp h'.state
  have hstate : s.state = s'.state := by
    rw [hb, hb', toState_injective (hB.trans hB'.symm)]
  have hkey : s.key = s'.key := toState_injective (h.key.trans h'.key.symm)
  have hrcon : s.rcon = s'.rcon := congrArg Residue.bits (h.rcon.trans h'.rcon.symm)
  cases s
  cases s'
  exact KeyStep.mk.injEq .. ▸ ⟨hstate, hkey, hrcon⟩

/-- The cipher of the firmware: the key is patched for the decryption. -/
def aesBlockCipher : BlockCipher where
  encrypt key block := (aesCipher key block).state.getD block
  decrypt key block := (aesInvCipher (aesKeyPatch key) block).state.getD block
  decrypt_encrypt key block := by
    apply toState_injective
    rw [(aesInvCipher_spec _ (toState_aesKeyPatch key)).toState_getD,
      (aesCipher_spec key block).toState_getD, invAes128_aes128]

/-- Memories of zeros, but for a validation of the key of zeros. -/
def Image.keyZero : Image :=
  { Image.zero with
    eeprom := fun x => (List.replicate 16 0 ++ [0x66, 0xE9, 0x4B, 0xD4, 0xEF, 0x8A, 0x2C, 0x3B,
      0x88, 0x4C, 0xFA, 0x59, 0xCA, 0x34, 0x2B, 0x2E]).getD x 0 }

theorem encryptionCheckKey_keyZero :
    encryptionCheckKey ⟨.exact, aesBlockCipher⟩ zeroIv .keyZero = true := by
  decide +kernel

theorem toState_encrypt (key block : Block) :
    toState (aesBlockCipher.encrypt key block) = aes128 (toState key) (toState block) :=
  (aesCipher_spec key block).toState_getD block

theorem toState_decrypt (key block : Block) :
    toState (aesBlockCipher.decrypt key block) = invAes128 (toState key) (toState block) :=
  (aesInvCipher_spec block (toState_aesKeyPatch key)).toState_getD block

theorem getD_state_aesCipher (key block : Block) :
    (aesCipher key block).state.getD block = aesBlockCipher.encrypt key block := rfl

theorem getD_state_aesInvCipher (key block : Block) :
    (aesInvCipher (aesKeyPatch key) block).state.getD block = aesBlockCipher.decrypt key block :=
  rfl

/-- The key that `aesCipher` patched is rewound. -/
theorem aesKeyRewind_aesCipher (key block : Block) :
    aesKeyRewind (aesCipher key block).key = key :=
  toState_injective (toState_aesKeyRewind (aesCipher_spec key block).key)

/-- The key that was patched for `aesInvCipher` is restored by it. -/
theorem key_aesInvCipher (key block : Block) :
    (aesInvCipher (aesKeyPatch key) block).key = key :=
  toState_injective (aesInvCipher_spec block (toState_aesKeyPatch key)).key

/-! ## The loops -/

theorem aesCbcEncryptLoop_eq (blocks : ℕ) (input : List Byte) (key chain : Block) :
    aesCbcEncryptLoop blocks input key chain =
      (cbcEncrypt (aesBlockCipher.encrypt key) blocks input chain ++ input.drop (16 * blocks),
        key) := by
  induction blocks generalizing input chain with
  | zero => rfl
  | succ blocks ih =>
      rw [aesCbcEncryptLoop]
      simp only [aesKeyRewind_aesCipher, getD_state_aesCipher, ih]
      rw [cbcEncrypt, List.append_assoc, List.drop_drop, Nat.mul_succ, Nat.add_comm]

/-- The output and the key of the decryption; the initial vector is left with one of the
blocks. -/
theorem aesCbcDecryptLoop_eq (blocks : ℕ) (b : Buffers) (tempCipher : Block) (pos inTemp : Bool) :
    (aesCbcDecryptLoop blocks b tempCipher pos inTemp).key = b.key ∧
      (b.input.length = 16 * blocks → (aesCbcDecryptLoop blocks b tempCipher pos inTemp).input =
        cbcDecryptLoop (aesBlockCipher.decrypt b.key) blocks b.input tempCipher b.iv pos
          inTemp) := by
  induction blocks generalizing b tempCipher pos inTemp with
  | zero => exact ⟨rfl, fun h => List.eq_nil_of_length_eq_zero h⟩
  | succ blocks ih =>
      rw [aesCbcDecryptLoop, cbcDecryptLoop]
      simp only [key_aesInvCipher, getD_state_aesInvCipher]
      generalize (if pos then tempCipher else blockAt b.input) = temp
      generalize (if pos then blockAt b.input else b.iv) = iv
      generalize memXor (aesBlockCipher.decrypt b.key (blockAt b.input))
        (if inTemp then temp else iv) = plain
      by_cases hzero : 0 ∈ plain.toList
      · rw [if_pos hzero, if_pos hzero]
        exact ⟨rfl, fun _ => rfl⟩
      · rw [if_neg hzero, if_neg hzero]
        obtain ⟨hkey, hinput⟩ := ih ⟨b.input.drop 16, b.key, iv⟩ temp (!pos) (!pos)
        refine ⟨hkey, fun h => congrArg (plain.toList ++ ·) (hinput ?_)⟩
        change (b.input.drop 16).length = 16 * blocks
        rw [List.length_drop]
        omega

/-! ## The standard -/

theorem toState_memXor (out xo : Block) : toState (memXor out xo) = toState out + toState xo := by
  ext row col
  rw [Matrix.add_apply, ← getElem_eq, ← getElem_eq, ← getElem_eq]
  exact congrArg (@Residue.mk 7 0x1b) (Vector.getElem_zipWith _)

/-- The states in the first blocks of a buffer. -/
def statesOf : ℕ → List Byte → List (State GF256)
  | 0, _ => []
  | blocks + 1, bytes => toState (blockAt bytes) :: statesOf blocks (bytes.drop 16)

theorem statesOf_cbcEncrypt (key : Block) (blocks : ℕ) (input : List Byte) (iv : Block) :
    statesOf blocks (cbcEncrypt (aesBlockCipher.encrypt key) blocks input iv) =
      chain (aes128 (toState key)) (toState iv) (statesOf blocks input) := by
  induction blocks generalizing input iv with
  | zero => rfl
  | succ blocks ih =>
      rw [cbcEncrypt, statesOf, statesOf, chain, blockAt_toList_append, toState_encrypt,
        toState_memXor, List.drop_left' (length_block _), ih, toState_encrypt, toState_memXor]

/-- A block that has a zero in it. -/
def hasZero (B : State GF256) : Bool := decide (∃ cell : Fin 4 × Fin 4, B cell.1 cell.2 = 0)

theorem hasZero_toState (b : Block) : hasZero (toState b) = decide (0 ∈ b.toList) := by
  refine decide_eq_decide.mpr ⟨fun ⟨⟨row, col⟩, h⟩ => ?_, fun h => ?_⟩
  · rw [← getElem_eq] at h
    have hbyte : b[4 * col.val + row.val] = 0 := congrArg Residue.bits h
    rw [← hbyte]
    exact Vector.mem_toList_iff.mpr (Vector.getElem_mem _)
  · obtain ⟨i, hi, hbyte⟩ := Vector.mem_iff_getElem.mp (Vector.mem_toList_iff.mp h)
    obtain ⟨col, row, rfl⟩ : ∃ col row : Fin 4, i = 4 * col.val + row.val :=
      ⟨⟨i / 4, by omega⟩, ⟨i % 4, by omega⟩, (Nat.div_add_mod i 4).symm⟩
    refine ⟨(row, col), ?_⟩
    rw [← getElem_eq, hbyte]
    rfl

theorem statesOf_cbcDecryptLoop (key : Block) (blocks : ℕ) (input : List Byte)
    (tempCipher iv : Block) (pos : Bool) :
    statesOf blocks (cbcDecryptLoop (aesBlockCipher.decrypt key) blocks input tempCipher iv
        pos pos) =
      unchainUntil (invAes128 (toState key)) hasZero (toState (if pos then tempCipher else iv))
        (statesOf blocks input) := by
  induction blocks generalizing input tempCipher iv pos with
  | zero => rfl
  | succ blocks ih =>
      have hlast : (if pos then (if pos then tempCipher else blockAt input)
          else (if pos then blockAt input else iv)) = if pos then tempCipher else iv := by
        cases pos <;> rfl
      have hrest := ih (input.drop 16) (if pos then tempCipher else blockAt input)
        (if pos then blockAt input else iv) (!pos)
      have hnext : (if (!pos) = true then (if pos then tempCipher else blockAt input)
          else (if pos then blockAt input else iv)) = blockAt input := by
        cases pos <;> rfl
      rw [hnext] at hrest
      -- the chaining value is in the buffer that the flag does not name
      rw [cbcDecryptLoop, statesOf, statesOf, unchainUntil_cons, sub_eq_add, ← toState_decrypt,
        ← toState_memXor, hasZero_toState]
      rw [hlast]
      generalize memXor (aesBlockCipher.decrypt key (blockAt input))
        (if pos then tempCipher else iv) = plain
      by_cases hzero : 0 ∈ plain.toList
      · rw [if_pos hzero, blockAt_toList_append, List.drop_left' (length_block _),
          if_pos (decide_eq_true hzero)]
      · rw [if_neg hzero, blockAt_toList_append, List.drop_left' (length_block _),
          decide_eq_false hzero, if_neg Bool.false_ne_true, hrest]

/-! ## The functions -/

/-- The two ciphers are the standard and its inverse, in place: the first leaves the key
patched, as `aesKeyPatch` does, and the second restores it, as `aesKeyRewind` does. -/
theorem aes_standard (key block : Block) :
    (∃ c, aesCipher key block = ⟨some c, aesKeyPatch key, 0xd8⟩ ∧
      toState c = aes128 (toState key) (toState block) ∧
        aesInvCipher (aesKeyPatch key) c = ⟨some block, key, 1⟩) ∧
      (∃ p, aesInvCipher (aesKeyPatch key) block = ⟨some p, key, 1⟩ ∧
        toState p = invAes128 (toState key) (toState block)) ∧
      aesKeyRewind (aesKeyPatch key) = key := by
  have hcipher := toState_encrypt key block
  have hplain (block : Block) := toState_decrypt key block
  refine ⟨⟨aesBlockCipher.encrypt key block, ?_, hcipher, ?_⟩,
    ⟨aesBlockCipher.decrypt key block, ?_, hplain block⟩, ?_⟩
  · exact KeyStep.Shows.unique (aesCipher_spec key block)
      ⟨congrArg some hcipher, toState_aesKeyPatch key, mk_rcon⟩
  · refine KeyStep.Shows.unique (aesInvCipher_spec _ (toState_aesKeyPatch key)) ⟨?_, rfl, rfl⟩
    rw [hcipher, invAes128_aes128]
    rfl
  · exact KeyStep.Shows.unique (aesInvCipher_spec block (toState_aesKeyPatch key))
      ⟨congrArg some (hplain block), rfl, rfl⟩
  · exact toState_injective (toState_aesKeyRewind (toState_aesKeyPatch key))

/-- Both functions return for every buffer of whole blocks, with the key as it was.  The
encryption writes the chain of the standard; the decryption undoes the chain up to the first
block that has a zero, and leaves the rest as it is. -/
theorem buffers_standard (b : Buffers) (sz : Byte) (tempCipher : Block) (hmul : 16 ∣ sz.toNat)
    (hlength : b.input.length = sz.toNat) :
    ∃ blocks out plain, 16 * blocks = sz.toNat ∧
      aes128CbcEncryptBuffer 16 b sz = some ⟨out, b.key, b.iv⟩ ∧
      out = cbcEncrypt (aesBlockCipher.encrypt b.key) blocks b.input b.iv ∧
      statesOf blocks out =
        chain (aes128 (toState b.key)) (toState b.iv) (statesOf blocks b.input) ∧
      (∃ iv, aes128CbcDecryptBuffer 16 b sz tempCipher = some ⟨plain, b.key, iv⟩) ∧
      plain = cbcDecrypt (aesBlockCipher.decrypt b.key) blocks b.input b.iv ∧
      statesOf blocks plain = unchainUntil (invAes128 (toState b.key)) hasZero (toState b.iv)
        (statesOf blocks b.input) := by
  have hblocks : 16 * (sz.toNat / 16) = sz.toNat := Nat.mul_div_cancel' hmul
  have hturns : blockTurns sz 16 0 = some (sz.toNat / 16) :=
    blockTurns_eq sz hmul (by have := sz.isLt; omega)
  have hall : b.input.length = 16 * (sz.toNat / 16) := hlength.trans hblocks.symm
  obtain ⟨hkey, hinput⟩ := aesCbcDecryptLoop_eq (sz.toNat / 16) b tempCipher false false
  refine ⟨sz.toNat / 16, _, _, hblocks, ?_, rfl, statesOf_cbcEncrypt .., ⟨?_, ?_⟩, rfl,
    statesOf_cbcDecryptLoop b.key _ b.input b.iv b.iv false⟩
  · rw [aes128CbcEncryptBuffer, hturns, Option.map_some]
    simp only [aesCbcEncryptLoop_eq, ← hall, List.drop_length, List.append_nil]
  · exact (aesCbcDecryptLoop (sz.toNat / 16) b tempCipher false false).iv
  · -- the first block goes into the buffer on the stack, whatever lies there
    have hstack : cbcDecryptLoop (aesBlockCipher.decrypt b.key) (sz.toNat / 16) b.input
        tempCipher b.iv false false =
          cbcDecrypt (aesBlockCipher.decrypt b.key) (sz.toNat / 16) b.input b.iv := by
      cases sz.toNat / 16 <;> rfl
    rw [aes128CbcDecryptBuffer, hturns, Option.map_some, ← hstack, ← hinput hall]
    exact congrArg some (congrArg (Buffers.mk _ · _) hkey)

/-- Two blocks. -/
theorem buffers_standard_two :
    let b : Buffers := ⟨List.replicate 32 0, Vector.replicate 16 1, Vector.replicate 16 2⟩
    ∃ blocks out plain, 16 * blocks = (32 : Byte).toNat ∧
      aes128CbcEncryptBuffer 16 b 32 = some ⟨out, b.key, b.iv⟩ ∧
      out = cbcEncrypt (aesBlockCipher.encrypt b.key) blocks b.input b.iv ∧
      statesOf blocks out =
        chain (aes128 (toState b.key)) (toState b.iv) (statesOf blocks b.input) ∧
      (∃ iv, aes128CbcDecryptBuffer 16 b 32 b.iv = some ⟨plain, b.key, iv⟩) ∧
      plain = cbcDecrypt (aesBlockCipher.decrypt b.key) blocks b.input b.iv ∧
      statesOf blocks plain = unchainUntil (invAes128 (toState b.key)) hasZero (toState b.iv)
        (statesOf blocks b.input) :=
  buffers_standard _ 32 _ (by decide) (by decide)

end PasswordWallet
