import PasswordWallet.Rijndael.Field

/-!
# Rijndael with four columns

The cipher on states that are four by four matrices over a ring, whose columns are the
words.  A `Design` says which substitution and which mixing matrix it uses; that the second
matrix undoes the first is part of it.  A round substitutes, turns the rows, mixes the
columns and adds a round key; the last one does not mix.

The key schedule makes each round key from the one before, column by column, so it can be
run backwards (`previousKey_nextKey`).  `word_add_four` is the recursion over words by which
the schedule is usually given.

`aes` is the design over `GF256`.
-/

namespace Rijndael

local instance fourColumns : NeZero 4 := ⟨four_ne_zero⟩

/-- The row of an entry is its place in a word, the column the word. -/
abbrev State (F : Type*) := Matrix (Fin 4) (Fin 4) F

/-- What the cipher is made of. -/
structure Design (F : Type*) [CommRing F] where
  sub : Equiv.Perm F
  mix : State F
  unmix : State F
  unmix_mix : unmix * mix = 1

variable {F : Type*}

/-- Row `r` turns by `r` places. -/
def shiftRows (s : State F) : State F := Matrix.of fun row col => s row (col + row)

def invShiftRows (s : State F) : State F := Matrix.of fun row col => s row (col - row)

@[simp] theorem invShiftRows_shiftRows (s : State F) : invShiftRows (shiftRows s) = s := by
  ext row col
  exact congrArg (s row) (sub_add_cancel col row)

namespace Design

variable [CommRing F] (d : Design F)

/-! ## Rounds -/

def subBytes (s : State F) : State F := s.map d.sub

def invSubBytes (s : State F) : State F := s.map d.sub.symm

def mixColumns (s : State F) : State F := d.mix * s

def invMixColumns (s : State F) : State F := d.unmix * s

@[simp] theorem invSubBytes_subBytes (s : State F) : d.invSubBytes (d.subBytes s) = s := by
  ext row col
  exact d.sub.symm_apply_apply (s row col)

@[simp] theorem invMixColumns_mixColumns (s : State F) :
    d.invMixColumns (d.mixColumns s) = s := by
  rw [invMixColumns, mixColumns, ← Matrix.mul_assoc, d.unmix_mix, Matrix.one_mul]

/-- The first key, and `n` rounds that mix. -/
def rounds (key : ℕ → State F) : ℕ → State F → State F
  | 0, s => s + key 0
  | n + 1, s => d.mixColumns (shiftRows (d.subBytes (rounds key n s))) + key (n + 1)

/-- `n + 1` rounds. -/
def cipher (key : ℕ → State F) (n : ℕ) (s : State F) : State F :=
  shiftRows (d.subBytes (d.rounds key n s)) + key (n + 1)

def invRounds (key : ℕ → State F) : ℕ → State F → State F
  | 0, s => s - key 0
  | n + 1, s =>
      invRounds key n (d.invSubBytes (invShiftRows (d.invMixColumns (s - key (n + 1)))))

def invCipher (key : ℕ → State F) (n : ℕ) (s : State F) : State F :=
  d.invRounds key n (d.invSubBytes (invShiftRows (s - key (n + 1))))

theorem invRounds_rounds (key : ℕ → State F) (n : ℕ) (s : State F) :
    d.invRounds key n (d.rounds key n s) = s := by
  induction n with
  | zero => exact add_sub_cancel_right s (key 0)
  | succ n ih =>
      rw [rounds, invRounds, add_sub_cancel_right, invMixColumns_mixColumns,
        invShiftRows_shiftRows, invSubBytes_subBytes, ih]

/-- Deciphering undoes ciphering, whatever the round keys are. -/
theorem invCipher_cipher (key : ℕ → State F) (n : ℕ) (s : State F) :
    d.invCipher key n (d.cipher key n s) = s := by
  rw [cipher, invCipher, add_sub_cancel_right, invShiftRows_shiftRows, invSubBytes_subBytes,
    invRounds_rounds]

/-! ## The key schedule -/

/-- What is added to the first word of a round key: the word before it, turned and
substituted, and the constant of the round. -/
def core (c : F) (word : Fin 4 → F) : Fin 4 → F := fun row =>
  d.sub (word (row + 1)) + if row = 0 then c else 0

/-- The round key behind `key`. -/
def nextKey (c : F) (key : State F) : State F := Matrix.of fun row =>
  let first := key row 0 + d.core c (fun row => key row 3) row
  ![first, key row 1 + first, key row 2 + (key row 1 + first),
    key row 3 + (key row 2 + (key row 1 + first))]

/-- The round key before `key`; its last word is restored first. -/
def previousKey (c : F) (key : State F) : State F := Matrix.of fun row =>
  ![key row 0 - d.core c (fun row => key row 3 - key row 2) row, key row 1 - key row 0,
    key row 2 - key row 1, key row 3 - key row 2]

theorem previousKey_nextKey (c : F) (key : State F) : d.previousKey c (d.nextKey c key) = key := by
  have hlast (row : Fin 4) : d.nextKey c key row 3 - d.nextKey c key row 2 = key row 3 :=
    add_sub_cancel_right _ _
  ext row col
  fin_cases col
  · change d.nextKey c key row 0 - d.core c
      (fun row => d.nextKey c key row 3 - d.nextKey c key row 2) row = key row 0
    simp only [hlast]
    exact add_sub_cancel_right _ _
  · exact add_sub_cancel_right _ _
  · exact add_sub_cancel_right _ _
  · exact hlast row

/-- The round keys; the constants are the powers of `x`. -/
def roundKey (x : F) (key : State F) : ℕ → State F
  | 0 => key
  | r + 1 => d.nextKey (x ^ r) (roundKey x key r)

/-- The words of the round keys, one behind the other. -/
def word (x : F) (key : State F) (i : ℕ) : Fin 4 → F := fun row =>
  d.roundKey x key (i / 4) row (Fin.ofNat 4 i)

theorem word_of_lt (x : F) (key : State F) (i : Fin 4) :
    d.word x key i = fun row => key row i := by
  fin_cases i <;> rfl

/-- A word is the word four places before it and the one just before it, which goes through
the core at the start of a round key. -/
theorem word_add_four (x : F) (key : State F) (i : ℕ) :
    d.word x key (i + 4) = d.word x key i +
      if i % 4 = 0 then d.core (x ^ (i / 4)) (d.word x key (i + 3)) else d.word x key (i + 3) := by
  obtain ⟨r, j, rfl⟩ : ∃ (r : ℕ) (j : Fin 4), i = 4 * r + j :=
    ⟨i / 4, Fin.ofNat 4 i, (Nat.div_add_mod i 4).symm⟩
  have hword (r : ℕ) (j : Fin 4) :
      d.word x key (4 * r + j) = fun row => d.roundKey x key r row j := by
    have hcol : Fin.ofNat 4 (4 * r + j) = j := Fin.ext (by
      change (4 * r + j) % 4 = j
      omega)
    unfold word
    rw [hcol, show (4 * r + j.val) / 4 = r by omega]
  have hnext : 4 * r + j.val + 4 = 4 * (r + 1) + j.val := by omega
  rw [hnext, hword, hword]
  fin_cases j
  · have hlast : 4 * r + 0 + 3 = 4 * r + (3 : Fin 4).val := rfl
    simp only [hlast, hword]
    rw [if_pos (by omega), show (4 * r + 0) / 4 = r by omega]
    rfl
  · have hlast : 4 * r + 1 + 3 = 4 * (r + 1) + (0 : Fin 4).val := rfl
    simp only [hlast, hword]
    rw [if_neg (by omega)]
    rfl
  · have hlast : 4 * r + 2 + 3 = 4 * (r + 1) + (1 : Fin 4).val := rfl
    simp only [hlast, hword]
    rw [if_neg (by omega)]
    rfl
  · have hlast : 4 * r + 3 + 3 = 4 * (r + 1) + (2 : Fin 4).val := rfl
    simp only [hlast, hword]
    rw [if_neg (by omega)]
    rfl

end Design

/-! ## The standard -/

/-- The design over the field of the bytes. -/
def aes : Design GF256 where
  sub := subByte
  mix := !![⟨2⟩, ⟨3⟩, ⟨1⟩, ⟨1⟩; ⟨1⟩, ⟨2⟩, ⟨3⟩, ⟨1⟩; ⟨1⟩, ⟨1⟩, ⟨2⟩, ⟨3⟩; ⟨3⟩, ⟨1⟩, ⟨1⟩, ⟨2⟩]
  unmix := !![⟨14⟩, ⟨11⟩, ⟨13⟩, ⟨9⟩; ⟨9⟩, ⟨14⟩, ⟨11⟩, ⟨13⟩; ⟨13⟩, ⟨9⟩, ⟨14⟩, ⟨11⟩;
    ⟨11⟩, ⟨13⟩, ⟨9⟩, ⟨14⟩]
  unmix_mix := by decide +kernel

section Columns

variable (a b c d : GF256)

private theorem two : (2 : GF256) = 0 := BinaryField.Residue.two_eq_zero

private theorem mix_eq : aes.mix =
    let x : GF256 := ⟨2⟩
    !![x, x + 1, 1, 1; 1, x, x + 1, 1; 1, 1, x, x + 1; x + 1, 1, 1, x] := by
  decide +kernel

private theorem unmix_eq : aes.unmix =
    let x : GF256 := ⟨2⟩
    let x3 := x * x * x
    !![x3 + x * x + x, x3 + x + 1, x3 + x * x + 1, x3 + 1;
      x3 + 1, x3 + x * x + x, x3 + x + 1, x3 + x * x + 1;
      x3 + x * x + 1, x3 + 1, x3 + x * x + x, x3 + x + 1;
      x3 + x + 1, x3 + x * x + 1, x3 + 1, x3 + x * x + x] := by
  decide +kernel

/-- Mixing with one doubling an entry. -/
theorem mix_mulVec : aes.mix.mulVec ![a, b, c, d] =
    ![a + b + c + d + a + ⟨2⟩ * (a + b), a + b + c + d + b + ⟨2⟩ * (b + c),
      a + b + c + d + c + ⟨2⟩ * (c + d), a + b + c + d + d + ⟨2⟩ * (d + a)] := by
  rw [mix_eq]
  generalize (⟨2⟩ : GF256) = x
  funext row
  fin_cases row <;> simp [Matrix.mulVec, dotProduct, Fin.sum_univ_four]
  · linear_combination -a * two
  · linear_combination -b * two
  · linear_combination -c * two
  · linear_combination -d * two

/-- Unmixing is mixing, with two more sums that are doubled twice. -/
theorem unmix_mulVec : aes.unmix.mulVec ![a, b, c, d] =
    aes.mix.mulVec ![a, b, c, d] +
      ![⟨2⟩ * (⟨2⟩ * (⟨2⟩ * (a + b + c + d) + a + c)),
        ⟨2⟩ * (⟨2⟩ * (⟨2⟩ * (a + b + c + d) + b + d)),
        ⟨2⟩ * (⟨2⟩ * (⟨2⟩ * (a + b + c + d) + a + c)),
        ⟨2⟩ * (⟨2⟩ * (⟨2⟩ * (a + b + c + d) + b + d))] := by
  rw [mix_mulVec, unmix_eq]
  generalize (⟨2⟩ : GF256) = x
  funext row
  fin_cases row <;> simp [Matrix.mulVec, dotProduct, Fin.sum_univ_four]
  · linear_combination -a * two
  · linear_combination -b * two
  · linear_combination -c * two
  · linear_combination -d * two

end Columns

/-- The round keys of the standard. -/
def aesKey (key : State GF256) : ℕ → State GF256 := aes.roundKey ⟨2⟩ key

/-- The standard with a key of 128 bits: ten rounds. -/
def aes128 (key : State GF256) (s : State GF256) : State GF256 := aes.cipher (aesKey key) 9 s

def invAes128 (key : State GF256) (s : State GF256) : State GF256 :=
  aes.invCipher (aesKey key) 9 s

theorem invAes128_aes128 (key s : State GF256) : invAes128 key (aes128 key s) = s :=
  aes.invCipher_cipher _ _ _

end Rijndael
