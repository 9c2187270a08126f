import PasswordWallet.DesktopApp.Aes
import PasswordWallet.Proofs.AesBuffers

/-!
# The block cipher of the host is that of the firmware

The tables of `Aes.cpp` hold what `aesCalcSbox` computes, and its steps are those of the
firmware, so both ciphers are the standard.  The schedule is another one: the words that
`KeyExpansion` writes are the words of the round keys that the firmware makes on the way.
-/

namespace PasswordWallet.HostAes

open BinaryField Rijndael

/-! ## Tables -/

/-- What a byte finds in a table of 256 results. -/
theorem getD_of_results {table : Array Byte} {f : Byte → Option Byte}
    (h : table.toList.map some = (List.range 256).map fun n => f (BitVec.ofNat 8 n))
    (num : Byte) : f num = some (table.getD num.toNat 0) := by
  have hentry := congrArg (·[num.toNat]?) h
  simp only [List.getElem?_map, List.getElem?_range num.isLt, Option.map_some,
    BitVec.ofNat_toNat, BitVec.setWidth_eq, Array.getElem?_toList] at hentry
  obtain ⟨entry, hget, hf⟩ := Option.map_eq_some_iff.mp hentry
  rw [Array.getD_eq_getD_getElem?, hget, ← hf]
  rfl

theorem getSBoxValue_eq (num : Byte) : getSBoxValue num = PasswordWallet.sbox num := by
  have htable : sbox.toList.map some =
      (List.range 256).map fun n => aesCalcSbox 256 (BitVec.ofNat 8 n) false := by
    decide +kernel
  have hresult := getD_of_results (f := fun x => aesCalcSbox 256 x false) htable num
  exact Option.some_injective _ (hresult.symm.trans (Option.some_get _).symm)

theorem getSBoxInvert_eq (num : Byte) : getSBoxInvert num = invSbox num := by
  have htable : rsbox.toList.map some =
      (List.range 256).map fun n => aesCalcSbox 256 (BitVec.ofNat 8 n) true := by
    decide +kernel
  have hresult := getD_of_results (f := fun x => aesCalcSbox 256 x true) htable num
  exact Option.some_injective _ (hresult.symm.trans (Option.some_get _).symm)

theorem mk_rcon_getD : ∀ r < 10, (⟨rcon.getD (r + 1) 0⟩ : GF256) = ⟨2⟩ ^ r := by
  decide +kernel

/-! ## The round keys -/

theorem column_subWord_rotWord (w : Word) (r : ℕ) (hr : r < 10) :
    ({ subWord (rotWord w) with a := (subWord (rotWord w)).a ^^^ rcon.getD (r + 1) 0 } :
      Word).column = aes.core (⟨2⟩ ^ r) w.column := by
  have hturn : ({ subWord (rotWord w) with
      a := (subWord (rotWord w)).a ^^^ rcon.getD (r + 1) 0 } : Word) =
        turnWord w (rcon.getD (r + 1) 0) := by
    simp only [subWord, rotWord, getSBoxValue_eq]
    rfl
  rw [hturn, column_turnWord, mk_rcon_getD r hr]

/-- The words that are there already. -/
def Expanded (K : State GF256) (n : ℕ) (roundKey : RoundKey) : Prop :=
  ∀ i < n, (roundKey i).column = aes.word ⟨2⟩ K i

theorem Expanded.expandWord {K : State GF256} {n : ℕ} {roundKey : RoundKey}
    (h : Expanded K (n + 4) roundKey) (hn : n < 40) :
    Expanded K (n + 5) (expandWord roundKey (n + 4)) := by
  intro i hi
  by_cases hlast : i = n + 4
  · rw [hlast, HostAes.expandWord, Function.update_self, Word.column_xor, Design.word_add_four]
    have hprev : n + 4 - nk = n := Nat.add_sub_cancel ..
    have hbefore : n + 4 - 1 = n + 3 := rfl
    rw [hprev, hbefore, h n (by omega)]
    congr 1
    by_cases hfirst : n % 4 = 0
    · have hnk : (n + 4) % nk = 0 := by
        change (n + 4) % 4 = 0
        omega
      have hround : (n + 4) / nk = n / 4 + 1 := by
        change (n + 4) / 4 = n / 4 + 1
        omega
      rw [if_pos hnk, if_pos hfirst, hround, column_subWord_rotWord _ _ (by omega),
        h (n + 3) (by omega)]
    · have hnk : (n + 4) % nk ≠ 0 := by
        change (n + 4) % 4 ≠ 0
        omega
      rw [if_neg hnk, if_neg hfirst, if_neg (by simp [nk]), h (n + 3) (by omega)]
  · rw [HostAes.expandWord, Function.update_of_ne hlast]
    exact h i (by omega)

theorem Expanded.foldl {K : State GF256} {roundKey : RoundKey} (h : Expanded K 4 roundKey)
    (n : ℕ) (hn : n ≤ 40) :
    Expanded K (n + 4) ((List.range' 4 n).foldl HostAes.expandWord roundKey) := by
  induction n with
  | zero => exact h
  | succ n ih =>
      rw [List.range'_concat, List.foldl_append, Nat.one_mul, Nat.add_comm 4 n]
      exact (ih (by omega)).expandWord (by omega)

theorem expanded_firstRoundKey (statics : RoundKey) (key : Block) :
    Expanded (toState key) 4 (firstRoundKey statics key) := by
  intro i hi
  obtain ⟨j, rfl⟩ : ∃ j : Fin 4, i = j := ⟨⟨i, hi⟩, rfl⟩
  rw [Design.word_of_lt]
  fin_cases j <;> simp [firstRoundKey] <;> rfl

theorem expanded_keyExpansion (statics : RoundKey) (key : Block) :
    Expanded (toState key) 44 (keyExpansion statics key) :=
  (expanded_firstRoundKey statics key).foldl 40 le_rfl

/-! ## The steps of a round -/

theorem toState_addRoundKey {K : State GF256} {roundKey : RoundKey} (h : Expanded K 44 roundKey)
    (round : ℕ) (hround : round ≤ 10) (b : Block) :
    toState (addRoundKey roundKey round b) = toState b + aesKey K round := by
  have hentry (row col : Fin 4) :
      (roundKey (round * 4 + col)).column row = aesKey K round row col := by
    have hcol : Fin.ofNat 4 (round * 4 + col) = col := Fin.ext (by
      change (round * 4 + col) % 4 = col
      omega)
    have hround : (round * 4 + col.val) / 4 = round := by omega
    rw [h _ (by omega)]
    change aes.roundKey ⟨2⟩ K ((round * 4 + col) / 4) row (Fin.ofNat 4 (round * 4 + col)) = _
    rw [hcol, hround]
    rfl
  ext row col
  rw [Matrix.add_apply, ← hentry]
  fin_cases col <;> simp [addRoundKey, toState_apply, Word.column_xor]

theorem subBytes_eq (b : Block) : subBytes b = aesSubBytes b :=
  congrArg (Vector.map · b) (funext getSBoxValue_eq)

theorem invSubBytes_eq (b : Block) : invSubBytes b = aesInvSubBytes b :=
  congrArg (Vector.map · b) (funext getSBoxInvert_eq)

theorem toState_shiftRows (b : Block) : toState (shiftRows b) = Rijndael.shiftRows (toState b) := by
  ext row col
  rw [Rijndael.shiftRows, Matrix.of_apply, ← getElem_eq, ← getElem_eq]
  fin_cases row <;> fin_cases col <;> simp [shiftRows]

theorem toState_invShiftRows (b : Block) :
    toState (invShiftRows b) = Rijndael.invShiftRows (toState b) := by
  ext row col
  rw [Rijndael.invShiftRows, Matrix.of_apply, ← getElem_eq, ← getElem_eq]
  fin_cases row <;> fin_cases col <;> simp [invShiftRows] <;> rfl

theorem xtime_eq : ∀ x : Byte, xtime x = gf28Mul2 x := by
  decide +kernel

theorem column_mixColumn (w : Word) : (mixColumn w).column = aes.mix.mulVec w.column := by
  rw [Word.column, Word.column, mix_mulVec]
  funext row
  fin_cases row <;> simp [mixColumn, xtime_eq, Residue.mk_xor, mk_gf28Mul2] <;> ring

/-- The products that `InvMixColumns` takes. -/
theorem mk_multiply (x : Byte) :
    (⟨multiply x 9⟩ : GF256) = ⟨9⟩ * ⟨x⟩ ∧ (⟨multiply x 11⟩ : GF256) = ⟨11⟩ * ⟨x⟩ ∧
      (⟨multiply x 13⟩ : GF256) = ⟨13⟩ * ⟨x⟩ ∧ (⟨multiply x 14⟩ : GF256) = ⟨14⟩ * ⟨x⟩ := by
  have hdouble : ∀ x : Byte, multiply x 9 = gf28Mul2^[3] x ^^^ x ∧
      multiply x 11 = gf28Mul2^[3] x ^^^ gf28Mul2 x ^^^ x ∧
      multiply x 13 = gf28Mul2^[3] x ^^^ gf28Mul2^[2] x ^^^ x ∧
      multiply x 14 = gf28Mul2^[3] x ^^^ gf28Mul2^[2] x ^^^ gf28Mul2 x := by
    decide +kernel
  have h9 : (⟨9⟩ : GF256) = ⟨2⟩ ^ 3 + 1 := by decide
  have h11 : (⟨11⟩ : GF256) = ⟨2⟩ ^ 3 + ⟨2⟩ + 1 := by decide
  have h13 : (⟨13⟩ : GF256) = ⟨2⟩ ^ 3 + ⟨2⟩ ^ 2 + 1 := by decide
  have h14 : (⟨14⟩ : GF256) = ⟨2⟩ ^ 3 + ⟨2⟩ ^ 2 + ⟨2⟩ := by decide
  obtain ⟨hx9, hx11, hx13, hx14⟩ := hdouble x
  refine ⟨?_, ?_, ?_, ?_⟩
  · rw [hx9, h9, Residue.mk_xor, mk_iterate_gf28Mul2]
    ring
  · rw [hx11, h11, Residue.mk_xor, Residue.mk_xor, mk_iterate_gf28Mul2, mk_gf28Mul2]
    ring
  · rw [hx13, h13, Residue.mk_xor, Residue.mk_xor, mk_iterate_gf28Mul2, mk_iterate_gf28Mul2]
    ring
  · rw [hx14, h14, Residue.mk_xor, Residue.mk_xor, mk_iterate_gf28Mul2, mk_iterate_gf28Mul2,
      mk_gf28Mul2]
    ring

theorem column_invMixColumn (w : Word) : (invMixColumn w).column = aes.unmix.mulVec w.column := by
  obtain ⟨ha9, ha11, ha13, ha14⟩ := mk_multiply w.a
  obtain ⟨hb9, hb11, hb13, hb14⟩ := mk_multiply w.b
  obtain ⟨hc9, hc11, hc13, hc14⟩ := mk_multiply w.c
  obtain ⟨hd9, hd11, hd13, hd14⟩ := mk_multiply w.d
  funext row
  rw [Matrix.mulVec, dotProduct, Fin.sum_univ_four]
  fin_cases row
  · change (⟨multiply w.a 14⟩ + ⟨multiply w.b 11⟩ + ⟨multiply w.c 13⟩ + ⟨multiply w.d 9⟩ :
      GF256) = _
    rw [ha14, hb11, hc13, hd9]
    rfl
  · change (⟨multiply w.a 9⟩ + ⟨multiply w.b 14⟩ + ⟨multiply w.c 11⟩ + ⟨multiply w.d 13⟩ :
      GF256) = _
    rw [ha9, hb14, hc11, hd13]
    rfl
  · change (⟨multiply w.a 13⟩ + ⟨multiply w.b 9⟩ + ⟨multiply w.c 14⟩ + ⟨multiply w.d 11⟩ :
      GF256) = _
    rw [ha13, hb9, hc14, hd11]
    rfl
  · change (⟨multiply w.a 11⟩ + ⟨multiply w.b 13⟩ + ⟨multiply w.c 9⟩ + ⟨multiply w.d 14⟩ :
      GF256) = _
    rw [ha11, hb13, hc9, hd14]
    rfl

theorem toState_mixColumns (b : Block) : toState (mixColumns b) = aes.mixColumns (toState b) := by
  have hword (col : Fin 4) : wordAt (mixColumns b) col = mixColumn (wordAt b col) := by
    fin_cases col <;> simp [mixColumns]
  ext row col
  rw [toState_apply, hword, column_mixColumn]
  rfl

theorem toState_invMixColumns (b : Block) :
    toState (invMixColumns b) = aes.invMixColumns (toState b) := by
  have hword (col : Fin 4) : wordAt (invMixColumns b) col = invMixColumn (wordAt b col) := by
    fin_cases col <;> simp [invMixColumns]
  ext row col
  rw [toState_apply, hword, column_invMixColumn]
  rfl

/-! ## The cipher -/

section Rounds

variable {K : State GF256} {roundKey : RoundKey} (h : Expanded K 44 roundKey)

include h

theorem toState_foldl_rounds (n : ℕ) (hn : n ≤ 9) (b : Block) :
    toState ((List.range' 1 n).foldl (fun state round =>
      addRoundKey roundKey round (mixColumns (shiftRows (subBytes state))))
        (addRoundKey roundKey 0 b)) = aes.rounds (aesKey K) n (toState b) := by
  induction n with
  | zero => exact toState_addRoundKey h 0 (by omega) b
  | succ n ih =>
      rw [List.range'_concat, List.foldl_append, Nat.one_mul, Nat.add_comm 1 n]
      simp only [List.foldl_cons, List.foldl_nil]
      rw [toState_addRoundKey h _ (by omega), toState_mixColumns, toState_shiftRows, subBytes_eq,
        toState_aesSubBytes, ih (by omega)]
      rfl

theorem toState_cipher (b : Block) : toState (cipher roundKey b) = aes128 K (toState b) := by
  rw [cipher, toState_addRoundKey h nr (by decide), toState_shiftRows, subBytes_eq,
    toState_aesSubBytes, toState_foldl_rounds h 9 le_rfl]
  rfl

/-- The rounds from `n` down, and what is behind them. -/
theorem toState_foldl_invRounds (n : ℕ) (hn : n ≤ 9) (b : Block) :
    toState (addRoundKey roundKey 0 (invSubBytes (invShiftRows
      ((List.range' 1 n).reverse.foldl (fun state round =>
        invMixColumns (addRoundKey roundKey round (invSubBytes (invShiftRows state)))) b)))) =
      aes.invRounds (aesKey K) n (aes.invSubBytes (Rijndael.invShiftRows (toState b))) := by
  induction n generalizing b with
  | zero =>
      rw [toState_addRoundKey h 0 (by omega), invSubBytes_eq, toState_aesInvSubBytes,
        Design.invRounds, sub_eq_add]
      exact congrArg (aes.invSubBytes · + _) (toState_invShiftRows b)
  | succ n ih =>
      rw [List.range'_concat, List.reverse_append, List.foldl_append, Nat.one_mul,
        Nat.add_comm 1 n, List.reverse_singleton, List.foldl_cons, List.foldl_nil, ih (by omega),
        toState_invMixColumns, toState_addRoundKey h _ (by omega), invSubBytes_eq,
        toState_aesInvSubBytes, toState_invShiftRows, Design.invRounds, sub_eq_add]

theorem toState_invCipher (b : Block) :
    toState (invCipher roundKey b) = invAes128 K (toState b) := by
  rw [invCipher, toState_foldl_invRounds h 9 le_rfl, toState_addRoundKey h nr (by decide),
    invAes128, Design.invCipher, sub_eq_add]
  rfl

end Rounds

/-! ## Buffers -/

theorem cipher_keyExpansion (statics : RoundKey) (key : Block) :
    cipher (keyExpansion statics key) = aesBlockCipher.encrypt key :=
  funext fun block => toState_injective
    ((toState_cipher (expanded_keyExpansion statics key) block).trans
      (toState_encrypt key block).symm)

theorem invCipher_keyExpansion (statics : RoundKey) (key : Block) :
    invCipher (keyExpansion statics key) = aesBlockCipher.decrypt key :=
  funext fun block => toState_injective
    ((toState_invCipher (expanded_keyExpansion statics key) block).trans
      (toState_decrypt key block).symm)

theorem encryptLoop_fst (roundKey : RoundKey) (blocks : ℕ) (input : List Byte) (iv : Block) :
    (encryptLoop roundKey blocks input iv).1 = cbcEncrypt (cipher roundKey) blocks input iv := by
  induction blocks generalizing input iv with
  | zero => rfl
  | succ blocks ih =>
      rw [encryptLoop, cbcEncrypt]
      exact congrArg (_ ++ ·) (ih _ _)

theorem decryptLoop_eq (roundKey : RoundKey) (blocks : ℕ) (input : List Byte) (iv : Block) :
    decryptLoop roundKey blocks input iv =
      cbcDecryptAll (invCipher roundKey) blocks input iv := by
  induction blocks generalizing input iv with
  | zero => rfl
  | succ blocks ih => rw [decryptLoop, cbcDecryptAll, ih]

/-- The host and the firmware write the same ciphertext, and each reads what the other one
wrote: the host all of it, the firmware as far as its text goes. -/
theorem host_agrees (statics : RoundKey) (blocks : ℕ) (input : List Byte) (key iv : Block)
    (tempCipher : Block) (hlength : input.length = 16 * blocks) :
    let ofHost := (aes128CbcEncryptBuffer statics blocks input key iv).1
    let ofDevice := (aesCbcEncryptLoop blocks input key iv).1
    ofHost = ofDevice ∧ aes128CbcDecryptBuffer statics blocks ofDevice key iv = input ∧
      removePadding false
        (aesCbcDecryptLoop blocks ⟨ofHost, key, iv⟩ tempCipher false false).input =
          printed input := by
  have hhost : (aes128CbcEncryptBuffer statics blocks input key iv).1 =
      cbcEncrypt (aesBlockCipher.encrypt key) blocks input iv := by
    rw [aes128CbcEncryptBuffer, encryptLoop_fst, cipher_keyExpansion]
  have hdevice : (aesCbcEncryptLoop blocks input key iv).1 =
      cbcEncrypt (aesBlockCipher.encrypt key) blocks input iv := by
    rw [aesCbcEncryptLoop_eq, ← hlength, List.drop_length, List.append_nil]
  refine ⟨hhost.trans hdevice.symm, ?_, ?_⟩
  · rw [aes128CbcDecryptBuffer, decryptLoop_eq, invCipher_keyExpansion, hdevice,
      cbcDecryptAll_cbcEncrypt _ _ _ _ _ hlength]
  · rw [hhost]
    have hloop := (aesCbcDecryptLoop_eq blocks
      ⟨cbcEncrypt (aesBlockCipher.encrypt key) blocks input iv, key, iv⟩ tempCipher
        false false).2 (length_cbcEncrypt ..)
    rw [hloop, removePadding_cbcDecryptLoop _ _ _ _ _ _ (length_cbcEncrypt ..),
      if_neg Bool.false_ne_true, cbcDecryptAll_cbcEncrypt _ _ _ _ _ hlength,
      removePadding_eq_printed]

/-- Two blocks. -/
theorem host_agrees_two :
    let statics : RoundKey := fun _ => ⟨0, 0, 0, 0⟩
    let input : List Byte := List.replicate 32 65
    let ofHost := (aes128CbcEncryptBuffer statics 2 input zeroIv zeroIv).1
    let ofDevice := (aesCbcEncryptLoop 2 input zeroIv zeroIv).1
    ofHost = ofDevice ∧ aes128CbcDecryptBuffer statics 2 ofDevice zeroIv zeroIv = input ∧
      removePadding false
        (aesCbcDecryptLoop 2 ⟨ofHost, zeroIv, zeroIv⟩ zeroIv false false).input =
          printed input :=
  host_agrees _ 2 _ _ _ _ (by decide)

end PasswordWallet.HostAes
