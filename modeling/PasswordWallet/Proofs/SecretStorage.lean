import Mathlib.Data.List.TakeWhile
import PasswordWallet.Security.Encryption

/-!
# Stored secrets

What a secret reads as.  `AES128_CBC_decrypt_buffer` stops behind a block that has a
zero in it and leaves the rest encrypted; `decryptBuffer_eq_all` says that the padding
removal makes no difference between this and the decryption of every block, for any
ciphertext and any function in the place of the block decryption.

`secrets_readBack` is the round trip: what `password_set_data` and
`password_set_usr_name` store reads back as the text up to its first byte below 32, with
zeros behind it.  The bytes drawn for the initial vector are whatever the entropy pool
and the watchdog yield, and the chunk is any, also one whose address wraps: its initial
vector and its ciphertext never overlap.
-/

namespace PasswordWallet

open PowerLoss

/-! ## Decrypting without the early exit -/

theorem blockTurns_eq : ∀ sz : Byte, 16 ∣ sz.toNat → sz.toNat ≤ 240 →
    blockTurns sz 16 0 = some (sz.toNat / 16) := by
  decide +kernel

/-- The loop ends, and behind the padding removal its early exit is not seen. -/
theorem decryptBuffer_eq_all (decrypt : Block → Block → Block) (key iv : Block)
    {ciphertext : List Byte} (hmul : 16 ∣ ciphertext.length) (hle : ciphertext.length ≤ 240) :
    ∃ blocks, blockTurns (BitVec.ofNat 8 ciphertext.length) 16 0 = some blocks ∧
      16 * blocks = ciphertext.length ∧
      removePadding false (cbcDecrypt (decrypt key) blocks ciphertext iv) =
        removePadding false (cbcDecryptAll (decrypt key) blocks ciphertext iv) := by
  have hsz : (BitVec.ofNat 8 ciphertext.length).toNat = ciphertext.length := by
    rw [BitVec.toNat_ofNat]
    omega
  have hturns := blockTurns_eq (BitVec.ofNat 8 ciphertext.length) (by rwa [hsz]) (by rwa [hsz])
  have hblocks : ciphertext.length = 16 * (ciphertext.length / 16) := by omega
  rw [hsz] at hturns
  exact ⟨_, hturns, hblocks.symm, removePadding_cbcDecrypt_eq _ _ _ _ hblocks⟩

/-- The loop stops behind the first block. -/
theorem decryptBuffer_eq_all_two :
    let ciphertext : List Byte := List.replicate 16 0 ++ List.replicate 16 7
    ∃ blocks, blockTurns (BitVec.ofNat 8 ciphertext.length) 16 0 = some blocks ∧
      16 * blocks = ciphertext.length ∧
      removePadding false (cbcDecrypt (BlockCipher.xorKey.decrypt zeroIv) blocks ciphertext
          zeroIv) =
        removePadding false (cbcDecryptAll (BlockCipher.xorKey.decrypt zeroIv) blocks ciphertext
          zeroIv) :=
  decryptBuffer_eq_all BlockCipher.xorKey.decrypt zeroIv zeroIv (by decide) (by decide)

/-! ## Reading back -/

/-- The longest prefix of bytes from 32 on, with zeros behind it. -/
def printed (bytes : List Byte) : List Byte :=
  let text := bytes.takeWhile fun byte => 32 ≤ byte.toNat
  text ++ List.replicate (bytes.length - text.length) 0

theorem removePadding_eq_printed (bytes : List Byte) :
    removePadding false bytes = printed bytes := by
  induction bytes with
  | nil => rfl
  | cons byte rest ih =>
      by_cases hbyte : 32 ≤ byte.toNat
      · rw [removePadding, Bool.false_or, decide_eq_false (by omega), if_neg Bool.false_ne_true, ih,
          printed, printed, List.takeWhile_cons_of_pos (by simpa using hbyte)]
        simp
      · rw [removePadding, Bool.false_or, decide_eq_true (by omega), if_pos rfl,
          removePadding_true, printed, List.takeWhile_cons_of_neg (by simpa using hbyte)]
        simp [List.replicate_succ]

theorem printed_eq_self {bytes : List Byte} (h : ∀ byte ∈ bytes, 32 ≤ byte.toNat) :
    printed bytes = bytes := by
  have htext : bytes.takeWhile (fun byte => 32 ≤ byte.toNat) = bytes :=
    List.takeWhile_eq_self_iff.mpr fun byte hmem => decide_eq_true (h byte hmem)
  rw [printed, htext, Nat.sub_self]
  exact List.append_nil bytes

/-- The initial vector and the ciphertext of a secret do not overlap, also where the
address of the chunk wraps. -/
theorem notMem_burst_pwdAddr (a : Addressing) (pwdId field : ℕ) {size x : ℕ} (hsize : size ≤ 64)
    (hx : x ∈ burst (pwdAddr a pwdId field) 16) :
    x ∉ burst (pwdAddr a pwdId (field + 16)) size := by
  rintro ⟨j, hj, rfl⟩
  obtain ⟨i, hi, heq⟩ := hx
  simp only [framByteSize] at heq
  cases a with
  | exact =>
      simp only [pwdAddr] at heq
      omega
  | avr =>
      simp only [pwdAddr] at heq
      omega

/-- A secret that is stored reads back, printed, under the same key. -/
theorem encryptAndWrite_readBack (t : Target) (key : Block) (pwdId field n : ℕ) (hn : n ≤ 4)
    {input : List Byte} (hinput : input.length = 16 * n) (p : Image) (v : Ram) :
    ∃ p' v', Completes (encryptAndWrite t input (pwdAddr t.addressing pwdId field)
        (pwdAddr t.addressing pwdId (field + 16)) (16 * n) key) p v () p' v' ∧
      readAndDecrypt t (pwdAddr t.addressing pwdId field)
        (pwdAddr t.addressing pwdId (field + 16)) (16 * n) key p' = printed input := by
  have hwrite := @wp_encryptAndWrite t p v input (pwdAddr t.addressing pwdId field)
    (pwdAddr t.addressing pwdId (field + 16)) n key Set.univ (Set.subset_univ _)
    (Set.subset_univ _) (Set.subset_univ _)
  obtain ⟨_, p', v', hrun, -, hread⟩ := exists_completes hwrite
  refine ⟨p', v', hrun, ?_⟩
  rw [hread hinput (by simp only [framByteSize]; omega)
    fun x hx => notMem_burst_pwdAddr _ _ _ (by omega) hx]
  exact removePadding_eq_printed input

/-- What `password_set_data` and `password_set_usr_name` store reads back as the text up
to its first byte below 32; the whole buffer comes back when none is. -/
theorem secrets_readBack (t : Target) (key : Block) (pwdId : ℕ) (p : Image) (v : Ram) :
    (∀ pwd : Vector Byte 32, ∃ p' v',
      Completes (passwordSetData t pwdId pwd.toList key) p v () p' v' ∧
        passwordReadData t pwdId key p' = printed pwd.toList ∧
        ((∀ byte ∈ pwd.toList, 32 ≤ byte.toNat) →
          passwordReadData t pwdId key p' = pwd.toList)) ∧
      ∀ usr : Vector Byte 64, ∃ p' v',
        Completes (passwordSetUsrName t pwdId usr.toList key) p v () p' v' ∧
          passwordReadUsrName t pwdId key p' = printed usr.toList ∧
          ((∀ byte ∈ usr.toList, 32 ≤ byte.toNat) →
            passwordReadUsrName t pwdId key p' = usr.toList) := by
  refine ⟨fun pwd => ?_, fun usr => ?_⟩
  · obtain ⟨p', v', hrun, hread⟩ := encryptAndWrite_readBack t key pwdId pwdOffsetPwdIv 2
      (by decide) (show pwd.toList.length = 32 by simp) p v
    exact ⟨p', v', hrun, hread, fun h => hread.trans (printed_eq_self h)⟩
  · obtain ⟨p', v', hrun, hread⟩ := encryptAndWrite_readBack t key pwdId pwdOffsetUsrIv 4
      (by decide) (show usr.toList.length = 64 by simp) p v
    exact ⟨p', v', hrun, hread, fun h => hread.trans (printed_eq_self h)⟩

end PasswordWallet
