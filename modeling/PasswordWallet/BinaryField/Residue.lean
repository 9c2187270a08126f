import Mathlib

/-!
# Words as residues of binary polynomials

A word of `n` bits is read as a polynomial over the field with two elements, its bit `i`
being the coefficient of `X ^ i`.  Modulo a polynomial `X ^ n + tail` of degree `n` the
words stand for all residues, each for one of its own, so that they form a ring: the sum
is the bitwise exclusive or, and the product is computed bit by bit, with a shift that
brings the tail back in when a bit falls out.

The ring laws are those of `AdjoinRoot`, carried back along the injective map `residue`;
no case analysis over words is needed for them.
-/

namespace BinaryField

open Polynomial

/-! ## Words as polynomials -/

section Polynomials

variable {n : ℕ}

/-- The bits of a word, as coefficients. -/
def coefficients (a : BitVec n) : Fin n → ZMod 2 := fun i => if a.getLsbD i then 1 else 0

theorem coefficients_injective : Function.Injective (coefficients (n := n)) := by
  intro a b h
  refine BitVec.eq_of_getLsbD_eq fun i hi => ?_
  have hi' : (if a.getLsbD i then 1 else 0 : ZMod 2) = if b.getLsbD i then 1 else 0 :=
    congrFun h ⟨i, hi⟩
  revert hi'
  cases a.getLsbD i <;> cases b.getLsbD i <;> decide

@[simp] theorem coefficients_zero : coefficients (0#n) = 0 := by
  funext i
  simp [coefficients]

@[simp] theorem coefficients_xor (a b : BitVec n) :
    coefficients (a ^^^ b) = coefficients a + coefficients b := by
  funext i
  rw [Pi.add_apply, coefficients, coefficients, coefficients, BitVec.getLsbD_xor]
  cases a.getLsbD i <;> cases b.getLsbD i <;> decide

/-- The polynomial that a word stands for. -/
noncomputable def polynomial (a : BitVec n) : (ZMod 2)[X] := ofFn n (coefficients a)

theorem coeff_polynomial (a : BitVec n) (i : ℕ) :
    (polynomial a).coeff i = if a.getLsbD i then 1 else 0 := by
  rcases Nat.lt_or_ge i n with hlt | hge
  · exact ofFn_coeff_eq_val_of_lt _ hlt
  · rw [BitVec.getLsbD_of_ge a i hge]
    exact ofFn_coeff_eq_zero_of_ge _ hge

theorem degree_polynomial_lt (a : BitVec n) : (polynomial a).degree < n := ofFn_degree_lt _

theorem polynomial_injective : Function.Injective (polynomial (n := n)) :=
  (injective_ofFn n).comp coefficients_injective

@[simp] theorem polynomial_zero : polynomial (0#n) = 0 := by
  rw [polynomial, coefficients_zero, map_zero]

@[simp] theorem polynomial_xor (a b : BitVec n) :
    polynomial (a ^^^ b) = polynomial a + polynomial b := by
  rw [polynomial, coefficients_xor, map_add]
  rfl

/-- A shift to the right drops the constant term. -/
theorem polynomial_eq_shiftRight (a : BitVec n) :
    polynomial a = X * polynomial (a >>> 1) + if a.getLsbD 0 then 1 else 0 := by
  ext i
  rw [coeff_add, coeff_polynomial]
  cases i with
  | zero =>
      rw [coeff_X_mul_zero, zero_add]
      cases a.getLsbD 0 <;> simp
  | succ i =>
      rw [coeff_X_mul, coeff_polynomial, BitVec.getLsbD_ushiftRight, Nat.add_comm 1 i]
      cases a.getLsbD 0 <;> simp [coeff_one]

/-- A shift to the left drops the leading one. -/
theorem polynomial_shiftLeft (a : BitVec (n + 1)) :
    X * polynomial a = polynomial (a <<< 1) + if a.getLsbD n then X ^ (n + 1) else 0 := by
  have htop (i : ℕ) : (if a.getLsbD n then X ^ (n + 1) else 0 : (ZMod 2)[X]).coeff i =
      if i = n + 1 ∧ a.getLsbD n then 1 else 0 := by
    cases a.getLsbD n <;> simp [coeff_X_pow]
  ext i
  rw [coeff_add, htop, coeff_polynomial, BitVec.getLsbD_shiftLeft]
  cases i with
  | zero => simp
  | succ i =>
      rw [coeff_X_mul, coeff_polynomial]
      rcases lt_trichotomy i n with hlt | heq | hgt
      · simp [hlt, hlt.ne]
      · simp [heq]
      · simp [hgt.not_gt, hgt.ne', BitVec.getLsbD_of_ge a i hgt]

end Polynomials

/-! ## The ring -/

/-- The words of `n + 1` bits, as residues modulo `X ^ (n + 1) + tail`. -/
structure Residue {n : ℕ} (tail : BitVec (n + 1)) where
  bits : BitVec (n + 1)
  deriving DecidableEq

namespace Residue

variable {n : ℕ} {tail : BitVec (n + 1)}

/-- The polynomial to reduce by. -/
noncomputable def modulus (tail : BitVec (n + 1)) : (ZMod 2)[X] := X ^ (n + 1) + polynomial tail

theorem monic_modulus (tail : BitVec (n + 1)) : (modulus tail).Monic :=
  monic_X_pow_add (degree_polynomial_lt tail)

theorem degree_modulus (tail : BitVec (n + 1)) : (modulus tail).degree = (n + 1 : ℕ) := by
  rw [modulus, degree_add_eq_left_of_degree_lt, degree_X_pow]
  rw [degree_X_pow]
  exact degree_polynomial_lt tail

/-- The residue that a word stands for. -/
noncomputable def residue (a : Residue tail) : AdjoinRoot (modulus tail) :=
  AdjoinRoot.mk (modulus tail) (polynomial a.bits)

theorem polynomial_modByMonic (a : BitVec (n + 1)) :
    polynomial a %ₘ modulus tail = polynomial a := by
  refine (modByMonic_eq_self_iff (monic_modulus tail)).mpr ?_
  rw [degree_modulus]
  exact degree_polynomial_lt a

theorem residue_injective : Function.Injective (@residue n tail) := by
  rintro ⟨a⟩ ⟨b⟩ h
  -- a residue has one representative of a small degree
  have hmod := congrArg (AdjoinRoot.modByMonicHom (monic_modulus tail)) h
  rw [residue, residue, AdjoinRoot.modByMonicHom_mk, AdjoinRoot.modByMonicHom_mk,
    polynomial_modByMonic, polynomial_modByMonic] at hmod
  exact congrArg Residue.mk (polynomial_injective hmod)

/-- The product with `X`: a shift, and the tail for the bit that falls out. -/
def timesX (tail a : BitVec (n + 1)) : BitVec (n + 1) :=
  (a <<< 1) ^^^ if a.getLsbD n then tail else 0

/-- The product with the topmost `k` bits of `b`, the highest first. -/
def horner (tail a b : BitVec (n + 1)) : ℕ → BitVec (n + 1)
  | 0 => 0
  | k + 1 => timesX tail (horner tail a b k) ^^^ if b.getLsbD (n - k) then a else 0

instance : Zero (Residue tail) := ⟨⟨0⟩⟩
instance : One (Residue tail) := ⟨⟨1⟩⟩
instance : Add (Residue tail) := ⟨fun a b => ⟨a.bits ^^^ b.bits⟩⟩
instance : Neg (Residue tail) := ⟨id⟩
instance : Mul (Residue tail) := ⟨fun a b => ⟨horner tail a.bits b.bits (n + 1)⟩⟩

@[simp] theorem bits_zero : (0 : Residue tail).bits = 0 := rfl
@[simp] theorem bits_one : (1 : Residue tail).bits = 1 := rfl
@[simp] theorem bits_add (a b : Residue tail) : (a + b).bits = a.bits ^^^ b.bits := rfl
@[simp] theorem bits_mul (a b : Residue tail) :
    (a * b).bits = horner tail a.bits b.bits (n + 1) := rfl

@[simp] theorem residue_zero : residue (0 : Residue tail) = 0 := by
  simp [residue]

@[simp] theorem residue_one : residue (1 : Residue tail) = 1 := by
  have hone : polynomial (1#(n + 1)) = 1 := by
    ext i
    rw [coeff_polynomial, BitVec.getLsbD_one]
    cases i <;> simp [coeff_one]
  exact (congrArg (AdjoinRoot.mk (modulus tail)) hone).trans (map_one _)

@[simp] theorem residue_add (a b : Residue tail) :
    residue (a + b) = residue a + residue b := by
  simp [residue]

/-- In these rings an element is its own negative. -/
theorem residue_add_self (a : Residue tail) : residue a + residue a = 0 := by
  rw [← residue_add, ← residue_zero]
  exact congrArg residue (congrArg Residue.mk (BitVec.xor_self))

/-- What falls out comes back as the tail. -/
theorem mk_X_pow : AdjoinRoot.mk (modulus tail) (X ^ (n + 1)) =
    AdjoinRoot.mk (modulus tail) (polynomial tail) := by
  have htwo : polynomial tail + polynomial tail = 0 := by
    rw [← polynomial_xor, BitVec.xor_self, polynomial_zero]
  refine AdjoinRoot.mk_eq_mk.mpr ⟨1, ?_⟩
  rw [modulus, mul_one]
  linear_combination -htwo

theorem residue_timesX (a : BitVec (n + 1)) :
    residue (⟨timesX tail a⟩ : Residue tail) = AdjoinRoot.root (modulus tail) * residue ⟨a⟩ := by
  have hshift := congrArg (AdjoinRoot.mk (modulus tail)) (polynomial_shiftLeft a)
  rw [map_mul, AdjoinRoot.mk_X, map_add] at hshift
  rw [residue, residue, timesX, polynomial_xor, map_add, hshift]
  congr 1
  cases a.getLsbD n
  · simp
  · exact mk_X_pow.symm

/-- A word is the word without its lowest bit, and that bit. -/
theorem residue_shiftRight (a : BitVec (n + 1)) :
    residue (⟨a⟩ : Residue tail) =
      AdjoinRoot.root (modulus tail) * residue ⟨a >>> 1⟩ + if a.getLsbD 0 then 1 else 0 := by
  rw [residue, residue, polynomial_eq_shiftRight, map_add, map_mul, AdjoinRoot.mk_X]
  cases a.getLsbD 0 <;> simp

theorem residue_horner (a b : BitVec (n + 1)) (k : ℕ) (hk : k ≤ n + 1) :
    residue (⟨horner tail a b k⟩ : Residue tail) =
      residue ⟨a⟩ * residue ⟨b >>> (n + 1 - k)⟩ := by
  induction k with
  | zero =>
      have hshift : b >>> (n + 1) = 0 := by
        ext i hi
        simp
      have hzero : residue (⟨0⟩ : Residue tail) = 0 := residue_zero
      rw [horner, Nat.sub_zero, hshift, hzero, mul_zero]
  | succ k ih =>
      obtain ⟨j, rfl⟩ : ∃ j, n = k + j := ⟨n - k, by omega⟩
      have hj : k + j + 1 - (k + 1) = j := by omega
      have hj' : k + j + 1 - k = j + 1 := by omega
      have hbit : (b >>> j).getLsbD 0 = b.getLsbD (k + j - k) := by
        rw [BitVec.getLsbD_ushiftRight]
        congr 1
        omega
      have hsum (c d : BitVec (k + j + 1)) :
          residue (⟨c ^^^ d⟩ : Residue tail) = residue ⟨c⟩ + residue ⟨d⟩ := residue_add ⟨c⟩ ⟨d⟩
      have hpick (bit : Bool) : residue (⟨if bit then a else 0⟩ : Residue tail) =
          residue ⟨a⟩ * if bit then 1 else 0 := by
        cases bit
        · exact residue_zero.trans (mul_zero _).symm
        · exact (mul_one _).symm
      specialize ih (by omega)
      rw [hj'] at ih
      rw [horner, hsum, residue_timesX, ih, hpick, hj, residue_shiftRight (b >>> j),
        ← BitVec.shiftRight_add, hbit]
      ring

@[simp] theorem residue_mul (a b : Residue tail) :
    residue (a * b) = residue a * residue b := by
  have h := @residue_horner n tail a.bits b.bits (n + 1) le_rfl
  rwa [Nat.sub_self, BitVec.ushiftRight_zero] at h

instance : CommRing (Residue tail) where
  add_assoc a b c := residue_injective (by simp [add_assoc])
  zero_add a := residue_injective (by simp)
  add_zero a := residue_injective (by simp)
  add_comm a b := residue_injective (by simp [add_comm])
  mul_assoc a b c := residue_injective (by simp [mul_assoc])
  one_mul a := residue_injective (by simp)
  mul_one a := residue_injective (by simp)
  mul_comm a b := residue_injective (by simp [mul_comm])
  left_distrib a b c := residue_injective (by simp [mul_add])
  right_distrib a b c := residue_injective (by simp [add_mul])
  zero_mul a := residue_injective (by simp)
  mul_zero a := residue_injective (by simp)
  neg_add_cancel a := residue_injective (by
    rw [residue_add, residue_zero]
    exact residue_add_self a)
  nsmul := nsmulRec
  zsmul := zsmulRec

/-- The sum of an element with itself. -/
theorem add_self (a : Residue tail) : a + a = 0 :=
  residue_injective (by simpa using residue_add_self a)

theorem two_eq_zero : (2 : Residue tail) = 0 := by
  rw [← one_add_one_eq_two]
  exact add_self 1

/-- The indeterminate. -/
def x : Residue tail := ⟨timesX tail 1⟩

theorem mk_timesX (a : BitVec (n + 1)) : (⟨timesX tail a⟩ : Residue tail) = x * ⟨a⟩ := by
  have hone : residue (⟨1⟩ : Residue tail) = 1 := residue_one
  apply residue_injective
  rw [residue_mul, x, residue_timesX, residue_timesX, hone, mul_one]

theorem mk_xor (a b : BitVec (n + 1)) : (⟨a ^^^ b⟩ : Residue tail) = ⟨a⟩ + ⟨b⟩ := rfl

end Residue

end BinaryField
