import PasswordWallet.Rijndael.Cipher
import PasswordWallet.Security.Aes

/-!
# The block cipher of the firmware is the standard

The sixteen bytes of a buffer are read as the matrix `toState`, each word being a column.
Every step of `Aes.c` is then a step of the standard:

* doubling is the product with the indeterminate, so the inverse that `aesCalcSbox` finds by
  doubling into its table and back is the inverse of the field (`inverseByTable_eq`), and the
  loop at `matxor` is the affine map;
* the two functions that add a round key add it and move the key one round on or back;
* the swaps turn the rows, and the sums over a column are the products with the two matrices.

`aesCipher_spec` and `aesInvCipher_spec` carry this through the rounds, with the key that is
patched in place and the constant `Rcon` as part of the invariant.
-/

namespace PasswordWallet

open BinaryField Rijndael

/-! ## The field -/

theorem gf28Mul2_eq_timesX : ∀ a : Byte, gf28Mul2 a = Residue.timesX 0x1b a := by
  decide +kernel

theorem mk_gf28Mul2 (a : Byte) : (⟨gf28Mul2 a⟩ : GF256) = ⟨2⟩ * ⟨a⟩ := by
  rw [gf28Mul2_eq_timesX]
  exact Residue.mk_timesX a

theorem mk_iterate_gf28Mul2 (n : ℕ) (a : Byte) :
    (⟨gf28Mul2^[n] a⟩ : GF256) = ⟨2⟩ ^ n * ⟨a⟩ := by
  induction n with
  | zero => exact (one_mul _).symm
  | succ n ih => rw [Function.iterate_succ_apply', mk_gf28Mul2, ih, pow_succ', mul_assoc]

/-! ## The substitution -/

/-- The table has the inverses of the first bytes. -/
theorem invGf28_eq : ∀ x < 16, (⟨invGf28.toList.getD x 0⟩ : GF256) = (⟨BitVec.ofNat 8 x⟩)⁻¹ := by
  have htable : ∀ x < 16, x ≠ 0 →
      (⟨BitVec.ofNat 8 x⟩ : GF256) * ⟨invGf28.toList.getD x 0⟩ = 1 := by
    decide +kernel
  intro x hx
  by_cases hzero : x = 0
  · rw [hzero]
    exact (@inv_zero GF256 _).symm
  · exact eq_inv_of_mul_eq_one_right (htable x hx hzero)

/-- The doublings that `doubleIntoTable` counts. -/
theorem doubleIntoTable_spec {fuel : ℕ} {x a x' a' : Byte}
    (h : doubleIntoTable fuel x a = some (x', a')) (hfuel : a.toNat + fuel ≤ 256) :
    x'.toNat < 16 ∧ ∃ k, a'.toNat = a.toNat + k ∧ (⟨x'⟩ : GF256) = ⟨2⟩ ^ k * ⟨x⟩ := by
  induction fuel generalizing x a with
  | zero => cases h
  | succ fuel ih =>
      rw [doubleIntoTable] at h
      split_ifs at h with hx
      · -- without fuel there is no result, so the count does not wrap
        have hpos : fuel ≠ 0 := by
          intro hzero
          rw [hzero] at h
          cases h
        have hsucc : (a + 1).toNat = a.toNat + 1 := by
          rw [BitVec.toNat_add]
          change (a.toNat + 1) % 256 = a.toNat + 1
          omega
        obtain ⟨hlt, k, hk, hmul⟩ := ih h (by omega)
        refine ⟨hlt, k + 1, by omega, ?_⟩
        rw [hmul, mk_gf28Mul2, pow_succ, mul_assoc]
      · cases h
        exact ⟨by
          unfold aesShortSboxSize at hx
          omega, 0, rfl, (one_mul _).symm⟩

/-- Doubling as often as brought the byte into the table makes up for it. -/
theorem inverseByTable_eq {x y : Byte} (h : inverseByTable 256 x = some y) :
    (⟨y⟩ : GF256) = (⟨x⟩)⁻¹ := by
  obtain ⟨⟨x', a⟩, htable, hy⟩ := Option.map_eq_some_iff.mp h
  obtain ⟨hlt, k, hk, hmul⟩ := doubleIntoTable_spec htable le_rfl
  have htwo : (⟨2⟩ : GF256) ^ k ≠ 0 := pow_ne_zero k (by decide)
  have hcount : a.toNat = k := by
    rw [hk]
    exact Nat.zero_add k
  have hbyte : BitVec.ofNat 8 x'.toNat = x' := BitVec.ofNat_toNat ..
  change gf28Mul2^[a.toNat] (invGf28.toList.getD x'.toNat 0) = y at hy
  rw [← hy, hcount, mk_iterate_gf28Mul2, invGf28_eq _ hlt, hbyte, hmul, mul_inv,
    mul_inv_cancel_left₀ htwo]

theorem matxor_affine : ∀ x : Byte, matxor 256 x 0x63 0x1f = some (affine x) := by
  decide +kernel

theorem matxor_affineInverse :
    ∀ x : Byte, matxor 256 (x ^^^ 0x63) 0 0x4a = some (affineInverse x) := by
  decide +kernel

theorem mk_sbox (x : Byte) : (⟨sbox x⟩ : GF256) = subByte ⟨x⟩ := by
  have hsbox : aesCalcSbox 256 x false = some (sbox x) := (Option.some_get _).symm
  rw [aesCalcSbox, if_neg Bool.false_ne_true] at hsbox
  obtain ⟨y, hy, hmat⟩ := Option.bind_eq_some_iff.mp hsbox
  rw [matxor_affine, Option.some.injEq] at hmat
  rw [← hmat]
  exact congrArg (fun b : GF256 => (⟨affine b.bits⟩ : GF256)) (inverseByTable_eq hy)

theorem mk_invSbox (x : Byte) : (⟨invSbox x⟩ : GF256) = subByte.symm ⟨x⟩ := by
  have hsbox : aesCalcSbox 256 x true = some (invSbox x) := (Option.some_get _).symm
  rw [aesCalcSbox, if_pos rfl, matxor_affineInverse] at hsbox
  exact inverseByTable_eq hsbox

/-! ## States -/

/-- A word as a column of the state. -/
def Word.column (w : Word) : Fin 4 → GF256 := ![⟨w.a⟩, ⟨w.b⟩, ⟨w.c⟩, ⟨w.d⟩]

/-- The state that a buffer holds. -/
def toState (bytes : Block) : State GF256 := Matrix.of fun row col => (wordAt bytes col).column row

theorem toState_apply (bytes : Block) (row col : Fin 4) :
    toState bytes row col = (wordAt bytes col).column row := rfl

/-- Adding a round key undoes itself. -/
theorem sub_eq_add (s k : State GF256) : s - k = s + k := rfl

theorem Word.column_injective : Function.Injective Word.column := by
  intro v w h
  have hrow (row : Fin 4) : (v.column row).bits = (w.column row).bits := by rw [h]
  cases v
  cases w
  exact Word.mk.injEq .. ▸ ⟨hrow 0, hrow 1, hrow 2, hrow 3⟩

theorem toState_injective : Function.Injective toState := by
  intro b b' h
  have hword (col : Fin 4) : wordAt b col = wordAt b' col :=
    Word.column_injective (funext fun row => congrFun (congrFun h row) col)
  refine Vector.ext fun i hi => ?_
  obtain ⟨col, row, rfl⟩ : ∃ col row : Fin 4, i = 4 * col.val + row.val :=
    ⟨⟨i / 4, by omega⟩, ⟨i % 4, by omega⟩, (Nat.div_add_mod i 4).symm⟩
  fin_cases row
  · exact congrArg Word.a (hword col)
  · exact congrArg Word.b (hword col)
  · exact congrArg Word.c (hword col)
  · exact congrArg Word.d (hword col)

theorem Word.column_xor (v w : Word) : (v.xor w).column = v.column + w.column := by
  funext row
  fin_cases row <;> rfl

@[simp] theorem wordAt_setWord (bytes : Block) (i j : Fin 4) (w : Word) :
    wordAt (setWord bytes i w) j = if j = i then w else wordAt bytes j := by
  fin_cases i <;> fin_cases j <;> simp [wordAt, setWord]

/-! ## The key schedule -/

theorem column_turnWord (w : Word) (rcon : Byte) :
    (turnWord w rcon).column = aes.core ⟨rcon⟩ w.column := by
  funext row
  fin_cases row
  · exact congrArg (· + (⟨rcon⟩ : GF256)) (mk_sbox w.b)
  · exact (mk_sbox w.c).trans (add_zero _).symm
  · exact (mk_sbox w.d).trans (add_zero _).symm
  · exact (mk_sbox w.a).trans (add_zero _).symm

/-- What the buffers hold, read as matrices and the constant as an element. -/
structure KeyStep.Shows (s : KeyStep) (state : Option (State GF256)) (key : State GF256)
    (c : GF256) : Prop where
  state : s.state.map toState = state
  key : toState s.key = key
  rcon : (⟨s.rcon⟩ : GF256) = c

variable {s : KeyStep} {state : Option (State GF256)} {key : State GF256} {c : GF256}

/-- The key is added, and moves on. -/
theorem KeyStep.Shows.forward (h : s.Shows state key c) :
    (aesAddRoundKey s).Shows (state.map (· + key)) (aes.nextKey c key) (⟨2⟩ * c) := by
  obtain ⟨rfl, rfl, rfl⟩ := h
  -- the word in front of the first one is the last one
  have hlast : (-1 : Fin 4) = 3 := rfl
  refine ⟨?_, ?_, mk_gf28Mul2 s.rcon⟩
  · cases s with
    | mk state key rcon =>
        cases state with
        | none => rfl
        | some state =>
            refine congrArg some (Matrix.ext fun row col => ?_)
            change _ = toState state row col + toState key row col
            fin_cases col <;>
              simp [KeyStep.forward, toState_apply, Word.column_xor]
  · ext row col
    fin_cases col <;>
      simp [aesAddRoundKey, KeyStep.forward, toState_apply, Word.column_xor, column_turnWord,
        Design.nextKey, add_comm, hlast]

theorem gf28Mul2_gf28Div2 : ∀ a : Byte, gf28Mul2 (gf28Div2 a) = a := by
  decide +kernel

theorem mk_gf28Div2 (a : Byte) : (⟨gf28Div2 a⟩ : GF256) = ⟨2⟩⁻¹ * ⟨a⟩ := by
  have htwo : (⟨2⟩ : GF256) ≠ 0 := by decide
  apply mul_left_cancel₀ htwo
  rw [← mk_gf28Mul2, gf28Mul2_gf28Div2, mul_inv_cancel_left₀ htwo]

/-- The key moves back, and is added. -/
theorem KeyStep.Shows.backward (h : s.Shows state key c) :
    (aesInvAddRoundKey s).Shows (state.map (· - aes.previousKey (⟨2⟩⁻¹ * c) key))
      (aes.previousKey (⟨2⟩⁻¹ * c) key) (⟨2⟩⁻¹ * c) := by
  obtain ⟨rfl, rfl, rfl⟩ := h
  have hlast : (-1 : Fin 4) = 3 := rfl
  have hsub (a b : GF256) : a - b = b + a := add_comm a b
  have hkey : toState (aesInvAddRoundKey s).key =
      aes.previousKey (⟨2⟩⁻¹ * ⟨s.rcon⟩) (toState s.key) := by
    rw [← mk_gf28Div2]
    ext row col
    fin_cases col <;>
      simp [aesInvAddRoundKey, KeyStep.backward, toState_apply, Word.column_xor,
        column_turnWord, Design.previousKey, hlast, hsub]
    rfl
  refine ⟨?_, hkey, mk_gf28Div2 s.rcon⟩
  · rw [← hkey]
    cases s with
    | mk state key rcon =>
        cases state with
        | none => rfl
        | some state =>
            refine congrArg some (Matrix.ext fun row col => ?_)
            change _ = toState state row col +
              toState (aesInvAddRoundKey ⟨some state, key, rcon⟩).key row col
            fin_cases col <;>
              simp [aesInvAddRoundKey, KeyStep.backward, toState_apply, Word.column_xor]

/-! ## The steps of a round -/

theorem toState_aesSubBytes (b : Block) : toState (aesSubBytes b) = aes.subBytes (toState b) := by
  ext row col
  rw [toState_apply, aesSubBytes]
  fin_cases row <;> simp [wordAt, Word.column, toState_apply, Design.subBytes, mk_sbox, aes]

theorem toState_aesInvSubBytes (b : Block) :
    toState (aesInvSubBytes b) = aes.invSubBytes (toState b) := by
  ext row col
  rw [toState_apply, aesInvSubBytes]
  fin_cases row <;>
    simp [wordAt, Word.column, toState_apply, Design.invSubBytes, mk_invSbox, aes]

/-- The bytes of a buffer are its entries. -/
theorem getElem_eq (b : Block) (row col : Fin 4) :
    (⟨b[4 * col.val + row.val]⟩ : GF256) = toState b row col := by
  fin_cases row <;> rfl

/-- Three swaps turn one row by one place. -/
theorem toState_turnRow (inv : Bool) (b : Block) (j row col : Fin 4) :
    toState (turnRow inv b j) row col =
      if row = j then toState b row (if inv then col - 1 else col + 1) else toState b row col := by
  rw [← getElem_eq, ← getElem_eq, ← getElem_eq]
  fin_cases j <;> fin_cases row <;> fin_cases col <;> cases inv <;>
    simp [turnRow, swapNext]

theorem toState_aesShiftRowsB (b : Block) :
    toState (aesShiftRowsB b false) = shiftRows (toState b) := by
  have hturn := toState_turnRow false
  simp only [Bool.false_eq_true, if_false] at hturn
  ext row col
  fin_cases row <;> simp [aesShiftRowsB, hturn, shiftRows, add_assoc]

theorem toState_aesShiftRowsB_inv (b : Block) :
    toState (aesShiftRowsB b true) = invShiftRows (toState b) := by
  have hturn := toState_turnRow true
  simp only [if_true] at hturn
  ext row col
  fin_cases row <;> simp [aesShiftRowsB, hturn, invShiftRows, sub_sub]

theorem column_mixWord (w : Word) : (mixWord false w).column = aes.mix.mulVec w.column := by
  rw [Word.column, Word.column, mix_mulVec]
  simp only [← mk_gf28Mul2, ← Residue.mk_xor]
  rfl

theorem column_mixWord_inv (w : Word) :
    (mixWord true w).column = aes.unmix.mulVec w.column := by
  rw [Word.column, Word.column, unmix_mulVec, mix_mulVec]
  funext row
  fin_cases row <;> simp [mixWord, Residue.mk_xor, mk_gf28Mul2] <;> ring

theorem wordAt_aesMixColumnsB (b : Block) (inv : Bool) (col : Fin 4) :
    wordAt (aesMixColumnsB b inv) col = mixWord inv (wordAt b col) := by
  fin_cases col <;> simp [aesMixColumnsB]

theorem toState_aesMixColumnsB (b : Block) :
    toState (aesMixColumnsB b false) = aes.mixColumns (toState b) := by
  ext row col
  rw [toState_apply, wordAt_aesMixColumnsB, column_mixWord]
  rfl

theorem toState_aesMixColumnsB_inv (b : Block) :
    toState (aesMixColumnsB b true) = aes.invMixColumns (toState b) := by
  ext row col
  rw [toState_apply, wordAt_aesMixColumnsB, column_mixWord_inv]
  rfl

/-! ## The cipher -/

/-- What is done to the state in the buffer is done to the matrix. -/
theorem KeyStep.Shows.map {f : Block → Block} {g : State GF256 → State GF256}
    (hf : ∀ b, toState (f b) = g (toState b)) (h : s.Shows state key c) :
    ({ s with state := s.state.map f } : KeyStep).Shows (state.map g) key c where
  state := by
    rw [← h.state, Option.map_map, Option.map_map]
    exact congrFun (congrArg Option.map (funext hf)) s.state
  key := h.key
  rcon := h.rcon

section Rounds

variable (K B : State GF256)

/-- The key moves on from one round key to the next. -/
theorem KeyStep.Shows.addRoundKey {r : ℕ} (h : s.Shows state (aesKey K r) (⟨2⟩ ^ r)) :
    (aesAddRoundKey s).Shows (state.map (· + aesKey K r)) (aesKey K (r + 1)) (⟨2⟩ ^ (r + 1)) := by
  rw [pow_succ']
  exact h.forward

/-- The key moves back from one round key to the one before. -/
theorem KeyStep.Shows.invAddRoundKey {r : ℕ}
    (h : s.Shows state (aesKey K (r + 1)) (⟨2⟩ ^ (r + 1))) :
    (aesInvAddRoundKey s).Shows (state.map (· - aesKey K r)) (aesKey K r) (⟨2⟩ ^ r) := by
  have hpow : (⟨2⟩ : GF256)⁻¹ * ⟨2⟩ ^ (r + 1) = ⟨2⟩ ^ r := by
    rw [pow_succ', inv_mul_cancel_left₀ (by decide)]
  have hkey : aes.previousKey (⟨2⟩ ^ r) (aesKey K (r + 1)) = aesKey K r :=
    aes.previousKey_nextKey _ _
  have hback := h.backward
  rwa [hpow, hkey] at hback

variable {K B}

/-- The turns up to the last that mixes. -/
theorem foldl_aesCipherTurn (h : s.Shows (some B) K 1) (n : ℕ) (hn : n ≤ 9) :
    ((List.range (n + 1)).foldl aesCipherTurn s).Shows (some (aes.rounds (aesKey K) n B))
      (aesKey K (n + 1)) (⟨2⟩ ^ (n + 1)) := by
  induction n with
  | zero => exact (h.map (g := id) fun _ => rfl).addRoundKey K (r := 0)
  | succ n ih =>
      rw [List.range_succ, List.foldl_append]
      have hstate := (ih (by omega)).map (g := fun st =>
        aes.mixColumns (shiftRows (aes.subBytes st))) fun b => by
          rw [← toState_aesSubBytes, ← toState_aesShiftRowsB, ← toState_aesMixColumnsB]
      have hturn : n + 1 ≠ 10 := by omega
      change (aesCipherTurn _ (n + 1)).Shows _ _ _
      simp only [aesCipherTurn, if_pos (Nat.succ_ne_zero n), if_pos hturn]
      exact hstate.addRoundKey K

/-- The turns behind the first, from the round `n` down. -/
theorem foldl_aesInvCipherTurn (n : ℕ) (hn : n ≤ 9)
    (h : s.Shows (some B) (aesKey K (n + 1)) (⟨2⟩ ^ (n + 1))) :
    ((List.range (n + 1)).reverse.foldl aesInvCipherTurn s).Shows
      (some (aes.invRounds (aesKey K) n B)) K 1 := by
  induction n generalizing s B with
  | zero => exact (h.invAddRoundKey K).map (g := id) fun _ => rfl
  | succ n ih =>
      rw [List.range_succ, List.reverse_append, List.foldl_append]
      refine ih (by omega) ?_
      have hstate := (h.invAddRoundKey K).map (g := fun st =>
        aes.invSubBytes (invShiftRows (aes.invMixColumns st))) fun b => by
          rw [← toState_aesMixColumnsB_inv, ← toState_aesShiftRowsB_inv, ← toState_aesInvSubBytes]
      have hturn : n + 1 ≠ 10 := by omega
      change (aesInvCipherTurn s (n + 1)).Shows _ _ _
      simp only [aesInvCipherTurn, if_pos (Nat.succ_ne_zero n), if_pos hturn]
      exact hstate

end Rounds

/-- `aesCipher` is the standard, and it leaves the eleventh round key behind. -/
theorem aesCipher_spec (key block : Block) :
    (aesCipher key block).Shows (some (aes128 (toState key) (toState block)))
      (aesKey (toState key) 11) (⟨2⟩ ^ 11) := by
  have hstart : (KeyStep.mk (some block) key 1).Shows (some (toState block)) (toState key) 1 :=
    ⟨rfl, rfl, rfl⟩
  have hlast := (foldl_aesCipherTurn hstart 9 le_rfl).map (g := fun st =>
    shiftRows (aes.subBytes st)) fun b => by
      rw [← toState_aesSubBytes, ← toState_aesShiftRowsB]
  exact hlast.addRoundKey _

theorem mk_rcon : (⟨0xd8⟩ : GF256) = ⟨2⟩ ^ 11 := by
  decide +kernel

/-- `aesInvCipher` is the inverse of the standard, and it restores the key. -/
theorem aesInvCipher_spec {patched : Block} {K : State GF256} (block : Block)
    (h : toState patched = aesKey K 11) :
    (aesInvCipher patched block).Shows (some (invAes128 K (toState block))) K 1 := by
  have hstart : (KeyStep.mk (some block) patched 0xd8).Shows (some (toState block))
      (aesKey K (10 + 1)) (⟨2⟩ ^ (10 + 1)) := ⟨rfl, h, mk_rcon⟩
  have hfirst := (hstart.invAddRoundKey K).map (g := fun st =>
    aes.invSubBytes (invShiftRows st)) fun b => by
      rw [← toState_aesShiftRowsB_inv, ← toState_aesInvSubBytes]
  rw [aesInvCipher, List.range_succ, List.reverse_append, List.foldl_append]
  exact foldl_aesInvCipherTurn 9 le_rfl hfirst

/-- `aesKeyPatch` leaves what `aesCipher` leaves. -/
theorem toState_aesKeyPatch (key : Block) :
    toState (aesKeyPatch key) = aesKey (toState key) 11 := by
  have hrun (n : ℕ) : ((List.range n).foldl (fun s _ => aesAddRoundKey s)
      ⟨none, key, 1⟩).Shows none (aesKey (toState key) n) (⟨2⟩ ^ n) := by
    induction n with
    | zero => exact ⟨rfl, rfl, rfl⟩
    | succ n ih =>
        rw [List.range_succ, List.foldl_append]
        exact ih.addRoundKey _
  exact (hrun 11).key

/-- `aesKeyRewind` restores the key. -/
theorem toState_aesKeyRewind {patched : Block} {K : State GF256}
    (h : toState patched = aesKey K 11) : toState (aesKeyRewind patched) = K := by
  have hrun (n : ℕ) (hn : n ≤ 11) : ((List.range n).foldl (fun s _ => aesInvAddRoundKey s)
      ⟨none, patched, 0xd8⟩).Shows none (aesKey K (11 - n)) (⟨2⟩ ^ (11 - n)) := by
    induction n with
    | zero => exact ⟨rfl, h, mk_rcon⟩
    | succ n ih =>
        obtain ⟨m, hm⟩ : ∃ m, 11 - n = m + 1 := ⟨10 - n, by omega⟩
        have hrest : 11 - (n + 1) = m := by omega
        have hshows := ih (by omega)
        rw [hm] at hshows
        rw [List.range_succ, List.foldl_append, hrest]
        exact hshows.invAddRoundKey K
  exact (hrun 11 le_rfl).key

end PasswordWallet
