import HashToCurve.Field.Power
import HashToCurve.Proofs.Field.Prime
import HashToCurve.Proofs.Field.Product
import Mathlib.FieldTheory.Finite.Basic

/-!
# Fixed powers of residues

The chain of products raises a residue to exponents whose binary digits are runs of ones.  Its two
results give the power with exponent `p - 2`, which is the inverse, and the power with exponent
`(p - 5) / 8`.
-/

namespace HashToCurve.FieldElement

/-- A run of `m` ones, moved up by `n` digits, is filled up by a run of `n` ones. -/
private theorem pow_ones (r : Residue) (m n : Nat) :
  (r ^ (2 ^ m - 1)) ^ 2 ^ n * r ^ (2 ^ n - 1) = r ^ (2 ^ (m + n) - 1)
  := by
  rw [← pow_mul, ← pow_add]
  congr 1
  have hm : 0 < 2 ^ m := Nat.two_pow_pos m
  have hn : 0 < 2 ^ n := Nat.two_pow_pos n
  rw [Nat.sub_mul, one_mul, ← pow_add]
  have hle : 2 ^ n ≤ 2 ^ (m + n) := Nat.pow_le_pow_right (by omega) (by omega)
  omega

/-- A step of the chain: a run of `m` ones is moved up by `n` squarings and filled up. -/
private theorem residue_pow2k_mul {x y : FieldElement} {r : Residue} {m n : Nat} (hx : x.Bounded)
    (hy : y.Bounded) (hxr : x.residue = r ^ (2 ^ m - 1)) (hyr : y.residue = r ^ (2 ^ n - 1)) :
  (x.pow2k n * y).residue = r ^ (2 ^ (m + n) - 1)
  := by
  rw [residue_mul (bounded_pow2k hx n) hy, residue_pow2k hx, hxr, hyr, pow_ones]

theorem bounded_sharedPowers (a : FieldElement) :
  a.sharedPowers.1.Bounded ∧ a.sharedPowers.2.Bounded
  := by
  constructor
  · apply bounded_mul
  · apply bounded_mul

/-- The chain of squares and products ends with the two powers that both exponents share. -/
theorem residue_sharedPowers {a : FieldElement} (ha : a.Bounded) :
  a.sharedPowers.1.residue = a.residue ^ (2 ^ 250 - 1) ∧ a.sharedPowers.2.residue = a.residue ^ 11
  := by
  unfold sharedPowers
  extract_lets e2 e8 e9 e11 e22 ones5 ones10 ones20 ones40 ones50 ones100 ones200 ones250
  have h2 : e2.residue = a.residue ^ 2 := residue_square ha
  have h8 : e8.residue = a.residue ^ 8 := by
    rw [residue_pow2k (bounded_square a), h2, ← pow_mul]
    norm_num
  have h9 : e9.residue = a.residue ^ 9 := by
    rw [residue_mul ha (bounded_pow2k (bounded_square a) 2), h8, ← pow_succ']
  have h11 : e11.residue = a.residue ^ 11 := by
    rw [residue_mul (bounded_square a) (bounded_mul _ _), h2, h9, ← pow_add]
  have h22 : e22.residue = a.residue ^ 22 := by
    rw [residue_square (bounded_mul _ _), h11, ← pow_mul]
  have h5 : ones5.residue = a.residue ^ (2 ^ 5 - 1) := by
    rw [residue_mul (bounded_mul _ _) (bounded_square _), h9, h22, ← pow_add]
    norm_num
  have h10 := residue_pow2k_mul (bounded_mul _ _) (bounded_mul _ _) h5 h5
  have h20 := residue_pow2k_mul (bounded_mul _ _) (bounded_mul _ _) h10 h10
  have h40 := residue_pow2k_mul (bounded_mul _ _) (bounded_mul _ _) h20 h20
  have h50 := residue_pow2k_mul (bounded_mul _ _) (bounded_mul _ _) h40 h10
  have h100 := residue_pow2k_mul (bounded_mul _ _) (bounded_mul _ _) h50 h50
  have h200 := residue_pow2k_mul (bounded_mul _ _) (bounded_mul _ _) h100 h100
  have h250 := residue_pow2k_mul (bounded_mul _ _) (bounded_mul _ _) h200 h50
  use h250, h11

@[simp]
theorem bounded_inverse (a : FieldElement) :
  a.inverse.Bounded
  := bounded_mul _ _

@[simp]
theorem bounded_powP58 (a : FieldElement) :
  a.powP58.Bounded
  := bounded_mul _ _

/-- The power with exponent `(p - 5) / 8`. -/
@[simp]
theorem residue_powP58 {a : FieldElement} (ha : a.Bounded) :
  a.powP58.residue = a.residue ^ (2 ^ 252 - 3)
  := by
  obtain ⟨hones, -⟩ := a.bounded_sharedPowers
  rw [powP58, residue_mul (bounded_pow2k hones 2) ha, residue_pow2k hones,
    (residue_sharedPowers ha).1, ← pow_mul, ← pow_succ]
  congr 1

/-- The inverse is computed as the power with exponent `p - 2`. -/
theorem residue_inverse_eq_pow {a : FieldElement} (ha : a.Bounded) :
  a.inverse.residue = a.residue ^ (modulus - 2)
  := by
  obtain ⟨hones, h11⟩ := a.bounded_sharedPowers
  obtain ⟨rones, r11⟩ := residue_sharedPowers ha
  simp only [inverse]
  rw [residue_mul (bounded_pow2k hones 5) h11, residue_pow2k hones, rones, r11, ← pow_mul, ← pow_add]
  congr 1

/-- The power with exponent `p - 2` is the inverse, and zero for zero. -/
theorem residue_inverse {a : FieldElement} (ha : a.Bounded) :
  a.inverse.residue = a.residue⁻¹
  := by
  rw [residue_inverse_eq_pow ha]
  by_cases h : a.residue = 0
  · rw [h, inv_zero, zero_pow (by decide)]
  · apply eq_inv_of_mul_eq_one_left
    rw [← pow_succ]
    apply ZMod.pow_card_sub_one_eq_one h

end HashToCurve.FieldElement
