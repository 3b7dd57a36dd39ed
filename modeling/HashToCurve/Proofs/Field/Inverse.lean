import HashToCurve.Proofs.Overflow.Functions

/-!
# Laws of the inverse

The inverse of an element is its power with exponent `p - 2`.  Since `p` is prime, it is the inverse
in the field of residues, so that it undoes itself and distributes over products.  The inverse of
zero is zero.
-/

namespace HashToCurve.FieldElement

variable {a b : FieldElement}

/-- Zero is the only element that its inverse does not take to `1`. -/
theorem mul_inverse_beq_one_iff (ha : a.Bounded) :
  (a * a.inverse == 1) = true ↔ a.isZero = false
  := by
  rw [beq_iff, residue_mul ha a.bounded_inverse, residue_inverse ha, residue_one, isZero_eq_decide,
    decide_eq_false_iff_not]
  constructor
  · apply left_ne_zero_of_mul_eq_one
  · apply mul_inv_cancel₀

/-- Only zero has the inverse zero. -/
theorem isZero_inverse_iff (ha : a.Bounded) :
  a.inverse.isZero = true ↔ a.isZero = true
  := by
  rw [isZero_iff, isZero_iff, residue_inverse ha]
  apply inv_eq_zero

/-- The inverse of the inverse is the element. -/
theorem inverse_inverse_beq (ha : a.Bounded) :
  (a.inverse.inverse == a) = true
  := by
  rw [beq_iff, residue_inverse a.bounded_inverse, residue_inverse ha]
  apply inv_inv

/-- The inverse of a product is the product of the inverses. -/
theorem inverse_mul_beq (ha : a.Bounded) (hb : b.Bounded) :
  ((a * b).inverse == a.inverse * b.inverse) = true
  := by
  rw [beq_iff, residue_inverse (bounded_mul a b), residue_mul ha hb,
    residue_mul a.bounded_inverse b.bounded_inverse, residue_inverse ha, residue_inverse hb]
  apply mul_inv

/-- The chain of products reaches the powers that it is meant to, without overflow.  The product of an
element with its inverse is `1` unless the element is zero, and the inverse is zero only then.  An
element is the inverse of its inverse, and the inverse of a product is the product of the inverses. -/
theorem fixedPowers_exact (ha : a.Bounded) (hb : b.Bounded) :
  (Checked.sharedPowers a = some a.sharedPowers
    ∧ a.sharedPowers.1.residue = a.residue ^ (2 ^ 250 - 1)
    ∧ a.sharedPowers.2.residue = a.residue ^ 11)
  ∧ (Checked.inverse a = some a.inverse ∧ a.inverse.residue = a.residue ^ (modulus - 2))
  ∧ (Checked.powP58 a = some a.powP58 ∧ a.powP58.residue = a.residue ^ (2 ^ 252 - 3))
  ∧ ((a * a.inverse == 1) = true ↔ a.isZero = false)
  ∧ (a.inverse.isZero = true ↔ a.isZero = true)
  ∧ (a.inverse.inverse == a) = true
  ∧ ((a * b).inverse == a.inverse * b.inverse) = true
  := by
  obtain ⟨hones, h11⟩ := residue_sharedPowers ha
  refine ⟨⟨Checked.sharedPowers_eq ha, hones, h11⟩, ⟨Checked.inverse_eq ha, ?_⟩,
    ⟨Checked.powP58_eq ha, ?_⟩, mul_inverse_beq_one_iff ha, isZero_inverse_iff ha,
    inverse_inverse_beq ha, inverse_mul_beq ha hb⟩
  · apply residue_inverse_eq_pow ha
  · apply residue_powP58 ha

/-- The root of `-1`, and a zero in the limbs of `p`. -/
theorem fixedPowers_exact_sqrtMinusOne :
  let zero : FieldElement := ⟨2251799813685229, 2251799813685247, 2251799813685247,
    2251799813685247, 2251799813685247⟩
  sqrtMinusOne.Bounded ∧ zero.Bounded ∧ sqrtMinusOne.isZero = false ∧ zero.isZero = true
    ∧ (sqrtMinusOne * sqrtMinusOne.inverse == 1) = true
    ∧ sqrtMinusOne.powP58.residue = sqrtMinusOne.residue ^ (2 ^ 252 - 3)
    ∧ zero.inverse.isZero = true
    ∧ ((sqrtMinusOne * zero).inverse == sqrtMinusOne.inverse * zero.inverse) = true
  := by
  intro zero
  have hroot : sqrtMinusOne.Bounded := by decide
  have hzero : zero.Bounded := by decide
  have hne : sqrtMinusOne.isZero = false := by decide
  have heq : zero.isZero = true := by decide
  obtain ⟨-, -, ⟨-, hpower⟩, hone, -, -, hmul⟩ := fixedPowers_exact hroot hzero
  obtain ⟨-, -, -, -, hinverse, -⟩ := fixedPowers_exact hzero hroot
  exact ⟨hroot, hzero, hne, heq, hone.mpr hne, hpower, hinverse.mpr heq, hmul⟩

end HashToCurve.FieldElement
