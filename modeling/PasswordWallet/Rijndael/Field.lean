import PasswordWallet.BinaryField.Residue

/-!
# The field of the bytes

The bytes as residues modulo `X ^ 8 + X ^ 4 + X ^ 3 + X + 1`.  The element 3 has the order
255, so its powers are all elements but zero (`exists_generator_pow`), and the power 254 is
the inverse.  `subByte` is the substitution of the cipher, the inverse of a byte followed
by an affine map of its bits, as a permutation.
-/

namespace Rijndael

open BinaryField

/-- The field with 256 elements. -/
abbrev GF256 : Type := Residue (n := 7) 0x1b

namespace GF256

/-! ## A generator -/

def generator : GF256 := ⟨3⟩

theorem generator_pow : generator ^ 255 = 1 := by
  decide +kernel

theorem generator_pow_ne : generator ^ 85 ≠ 1 ∧ generator ^ 51 ≠ 1 ∧ generator ^ 15 ≠ 1 := by
  decide +kernel

theorem orderOf_generator : orderOf generator = 255 := by
  refine orderOf_eq_of_pow_and_pow_div_prime (by decide) generator_pow ?_
  intro p hp hdvd
  obtain ⟨h85, h51, h15⟩ := generator_pow_ne
  have hcases : p ∣ 3 ∨ p ∣ 5 ∨ p ∣ 17 := by
    rw [← hp.dvd_mul, ← hp.dvd_mul]
    exact hdvd
  rcases hcases with h | h | h
  · rw [(Nat.prime_dvd_prime_iff_eq hp (by norm_num)).mp h]
    exact h85
  · rw [(Nat.prime_dvd_prime_iff_eq hp (by norm_num)).mp h]
    exact h51
  · rw [(Nat.prime_dvd_prime_iff_eq hp (by norm_num)).mp h]
    exact h15

theorem generator_pow_ne_zero (k : ℕ) : generator ^ k ≠ 0 := by
  intro hzero
  have hone : generator ^ (255 * k) = 1 := by rw [pow_mul, generator_pow, one_pow]
  rw [mul_comm, pow_mul, hzero] at hone
  exact absurd hone (by decide)

def finEquiv : Fin 256 ≃ GF256 where
  toFun i := ⟨BitVec.ofFin i⟩
  invFun a := a.bits.toFin
  left_inv _ := rfl
  right_inv _ := rfl

instance : Fintype GF256 := Fintype.ofEquiv (Fin 256) finEquiv

theorem card : Fintype.card GF256 = 256 := by
  rw [Fintype.ofEquiv_card, Fintype.card_fin]

/-- Every element but zero is a power of the generator. -/
theorem exists_generator_pow {a : GF256} (ha : a ≠ 0) : ∃ k : ℕ, generator ^ k = a := by
  let power (k : Fin 255) : {b : GF256 // b ≠ 0} := ⟨generator ^ k.val, generator_pow_ne_zero _⟩
  have hinjective : Function.Injective power := by
    intro i j hij
    have hpow : generator ^ i.val = generator ^ j.val := congrArg Subtype.val hij
    have hlt (k : Fin 255) : k.val ∈ Set.Iio (orderOf generator) := by
      rw [orderOf_generator]
      exact k.isLt
    exact Fin.ext (pow_injOn_Iio_orderOf (hlt i) (hlt j) hpow)
  have hcard : Fintype.card (Fin 255) = Fintype.card {b : GF256 // b ≠ 0} := by
    rw [Fintype.card_fin, Fintype.card_subtype_compl, card, Fintype.card_subtype_eq]
  obtain ⟨k, hk⟩ := ((Fintype.bijective_iff_injective_and_card power).mpr
    ⟨hinjective, hcard⟩).surjective ⟨a, ha⟩
  exact ⟨k, congrArg Subtype.val hk⟩

/-! ## Inverses -/

/-- The power 254. -/
def power254 (a : GF256) : GF256 :=
  let a2 := a * a
  let a4 := a2 * a2
  let a8 := a4 * a4
  let a16 := a8 * a8
  let a32 := a16 * a16
  let a64 := a32 * a32
  a2 * a4 * (a8 * a16) * (a32 * a64 * (a64 * a64))

theorem power254_eq (a : GF256) : power254 a = a ^ 254 := by
  unfold power254
  ring

theorem mul_power254 {a : GF256} (ha : a ≠ 0) : a * power254 a = 1 := by
  obtain ⟨k, rfl⟩ := exists_generator_pow ha
  rw [power254_eq, ← pow_succ', ← pow_mul, mul_comm, pow_mul, generator_pow, one_pow]

instance : Field GF256 where
  inv := power254
  exists_pair_ne := ⟨0, 1, by decide⟩
  mul_inv_cancel _ ha := mul_power254 ha
  inv_zero := by decide +kernel
  nnqsmul := _
  qsmul := _

end GF256

/-! ## The substitution -/

/-- The affine map: each bit with four of its neighbours, and a constant. -/
def affine (b : BitVec 8) : BitVec 8 :=
  b ^^^ b.rotateLeft 1 ^^^ b.rotateLeft 2 ^^^ b.rotateLeft 3 ^^^ b.rotateLeft 4 ^^^ 0x63

def affineInverse (b : BitVec 8) : BitVec 8 :=
  b.rotateLeft 1 ^^^ b.rotateLeft 3 ^^^ b.rotateLeft 6 ^^^ 0x05

theorem affineInverse_affine : ∀ b : BitVec 8, affineInverse (affine b) = b := by
  decide +kernel

theorem affine_affineInverse : ∀ b : BitVec 8, affine (affineInverse b) = b := by
  decide +kernel

/-- The substitution of a byte. -/
def subByte : Equiv.Perm GF256 where
  toFun a := ⟨affine a⁻¹.bits⟩
  invFun b := (⟨affineInverse b.bits⟩ : GF256)⁻¹
  left_inv a := by
    simp only [affineInverse_affine]
    exact inv_inv a
  right_inv b := by
    simp only [inv_inv, affine_affineInverse]

end Rijndael
