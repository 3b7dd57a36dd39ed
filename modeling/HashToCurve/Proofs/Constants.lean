import HashToCurve.Elligator
import HashToCurve.Proofs.Field.Roots

/-!
# The constants of the curves

The residues of the constants, as the numbers and roots that they stand for, and the residues that
are not squares: `2`, the coefficient `A`, `A^2 - 4` and the coefficient `d`.  Squareness is
decided by Euler's criterion, evaluated on numbers.
-/

namespace HashToCurve

open FieldElement (modulus minusOne sqrtMinusOne residue)
open MontgomeryPoint (coefficient negCoefficient coefficientSquared scale)
open Elligator (uFactor vFactor)

namespace Residue

/-- An identity of residues of numbers is decided on the numbers. -/
theorem natCast_eq_natCast {m n : Nat} (h : m % modulus = n % modulus) :
  (m : Residue) = n
  := (ZMod.natCast_eq_natCast_iff' m n modulus).mpr h

/-! ### The numbers of the constants -/

theorem residue_coefficient :
  coefficient.residue = 486662
  := rfl

theorem residue_negCoefficient :
  negCoefficient.residue = -486662
  := by
  rw [eq_neg_iff_add_eq_zero]
  exact_mod_cast natCast_eq_natCast (m := negCoefficient.toNat + 486662) (n := 0) (by decide)

theorem residue_coefficientSquared :
  coefficientSquared.residue = 486662 ^ 2
  := by
  have h : coefficientSquared.toNat = 486662 ^ 2 := by decide
  rw [residue, h, Nat.cast_pow]
  norm_cast

/-- The limbs of `p - 1` denote `-1`. -/
theorem residue_minusOne :
  minusOne.residue = -1
  := by
  rw [eq_neg_iff_add_eq_zero]
  exact_mod_cast natCast_eq_natCast (m := minusOne.toNat + 1) (n := 0) (by decide)

/-- The scale of the rational map is a square root of `-(A + 2)`. -/
theorem scale_sq :
  scale.residue ^ 2 = -(486662 + 2)
  := by
  have h := natCast_eq_natCast (m := scale.toNat ^ 2 + (486662 + 2)) (n := 0) (by decide)
  rw [eq_neg_iff_add_eq_zero, residue, ← Nat.cast_pow]
  norm_cast at h ⊢

/-- The factor of `u` on the other branch is `-2` times the square root of `-1`. -/
theorem residue_uFactor :
  uFactor.residue = -2 * sqrtMinusOne.residue
  := by
  rw [neg_mul, eq_neg_iff_add_eq_zero]
  exact_mod_cast natCast_eq_natCast (m := uFactor.toNat + 2 * sqrtMinusOne.toNat) (n := 0)
    (by decide)

/-- The factor of `v` on the other branch is a square root of the factor of `u`. -/
theorem vFactor_sq :
  vFactor.residue ^ 2 = uFactor.residue
  := by
  exact_mod_cast natCast_eq_natCast (m := vFactor.toNat ^ 2) (n := uFactor.toNat)
    (by decide)

/-- The coefficient `d` is `-(A - 2) / (A + 2)`. -/
theorem edwardsD_mul :
  edwardsD.residue * (486662 + 2) = -(486662 - 2)
  := by
  rw [eq_neg_iff_add_eq_zero, add_sub, sub_eq_zero]
  exact_mod_cast natCast_eq_natCast (m := edwardsD.toNat * (486662 + 2) + 486662) (n := 2)
    (by decide)

/-- The limbs of `d` denote the ratio `-121665 / 121666`. -/
theorem residue_edwardsD :
  edwardsD.residue = -121665 / 121666
  := by
  have hdenominator : (121666 : Residue) ≠ 0 := by decide
  rw [eq_div_iff hdenominator, eq_neg_iff_add_eq_zero]
  exact_mod_cast natCast_eq_natCast (m := edwardsD.toNat * 121666 + 121665) (n := 0)
    (by decide)

/-! ### Even roots -/

/-- The parity of a constant is decided on its number. -/
theorem isEven_residue {a : FieldElement} (h : a.toNat % modulus % 2 = 0) :
  a.residue.IsEven
  := by rwa [IsEven, residue, ZMod.val_natCast]

/-- The limbs of `sqrt(-1)` denote its even root. -/
theorem evenRoot_neg_one :
  evenRoot (-1) = sqrtMinusOne.residue
  := evenRoot_eq sqrtMinusOne_sq (isEven_residue (by decide))

/-- The scale is the even one of the two roots of `-(A + 2)`. -/
theorem evenRoot_scale :
  evenRoot (-(486662 + 2)) = scale.residue
  := evenRoot_eq scale_sq (isEven_residue (by decide))

/-- The factor of `v` is the even one of the two roots of the factor of `u`. -/
theorem evenRoot_uFactor :
  evenRoot (-2 * evenRoot (-1)) = vFactor.residue
  := by
  rw [evenRoot_neg_one, ← residue_uFactor]
  exact evenRoot_eq vFactor_sq (isEven_residue (by decide))

/-! ### Residues that are not squares -/

/-- Euler's criterion on numbers. -/
theorem not_isSquare_natCast {n : Nat} (hn : n % modulus ≠ 0)
    (h : Primality.powMod modulus n 256 (modulus / 2) ≠ 1) :
  ¬ IsSquare (n : Residue)
  := by
  have hn0 : (n : Residue) ≠ 0 := by
    rwa [ne_eq, ZMod.natCast_eq_zero_iff, Nat.dvd_iff_mod_eq_zero]
  rw [ZMod.euler_criterion modulus hn0, ← Nat.cast_pow, ← Nat.cast_one,
    ZMod.natCast_eq_natCast_iff', ← Primality.powMod_eq modulus n (by decide : modulus / 2 < 2 ^ 256)]
  apply h

/-- The number 2 is not a square, as `p` is `5` modulo `8`. -/
theorem not_isSquare_two :
  ¬ IsSquare (2 : Residue)
  := not_isSquare_natCast (n := 2) (by decide) (by decide +kernel)

theorem not_isSquare_coefficient :
  ¬ IsSquare (486662 : Residue)
  := not_isSquare_natCast (n := 486662) (by decide) (by decide +kernel)

/-- The discriminant of `u^2 + A u + 1` is not a square, so that the Montgomery curve has no point with
`v = 0` but `(0, 0)`. -/
theorem not_isSquare_discriminant :
  ¬ IsSquare (486662 ^ 2 - 4 : Residue)
  := by
  have h := not_isSquare_natCast (n := 486662 ^ 2 - 4) (by decide) (by decide +kernel)
  rwa [Nat.cast_sub (by norm_num), Nat.cast_pow] at h

/-- The coefficient `d` is not a square, so that the addition law has no exceptional cases. -/
theorem not_isSquare_edwardsD :
  ¬ IsSquare edwardsD.residue
  := not_isSquare_natCast (by decide) (by decide +kernel)

end Residue

end HashToCurve
