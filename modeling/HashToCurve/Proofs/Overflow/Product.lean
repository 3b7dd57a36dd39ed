import HashToCurve.Proofs.Overflow.Arithmetic
import HashToCurve.Proofs.Overflow.Bounds

/-!
# Products within their words

Factors with limbs below `2^54` are multiplied and squared without overflow: no limb times 19, no
column, no part of a column above 51 bits and no carry into the lowest limb leaves its word.  The
limbs of the result are below `2^51 + 2^15`, so that it can be squared again, any number of times.
-/

namespace HashToCurve.FieldElement

variable {a b : FieldElement}

/-- The number of a product is that of its factors, modulo `p`. -/
theorem toNat_mul_modEq (ha : a.Bounded) (hb : b.Bounded) :
  (a * b).toNat ≡ a.toNat * b.toNat [MOD modulus]
  := by
  rw [← ZMod.natCast_eq_natCast_iff, Nat.cast_mul]
  apply residue_mul ha hb

/-- The number of a power by squarings is that power of the number, modulo `p`. -/
theorem toNat_pow2k_modEq (ha : a.Bounded) (k : Nat) :
  (a.pow2k k).toNat ≡ a.toNat ^ 2 ^ k [MOD modulus]
  := by
  rw [← ZMod.natCast_eq_natCast_iff, Nat.cast_pow]
  apply residue_pow2k ha

/-- Elements with limbs below `2^54` are multiplied, and squared any number of times, without a check
that fails, and the result is a product or a power modulo `p` whose limbs a carry has left.  A square
has the limbs of the product of the element with itself. -/
theorem mul_pow2k_exact (ha : a.LimbsBelow (2 ^ 54)) (hb : b.LimbsBelow (2 ^ 54)) :
  (Checked.mul a b = some (a * b)
    ∧ (a * b).toNat ≡ a.toNat * b.toNat [MOD modulus]
    ∧ (a * b).LimbsBelow (2 ^ 51 + 2 ^ 15))
  ∧ (∀ k, 1 ≤ k →
    Checked.pow2k a k = some (a.pow2k k)
      ∧ (a.pow2k k).toNat ≡ a.toNat ^ 2 ^ k [MOD modulus]
      ∧ (a.pow2k k).LimbsBelow (2 ^ 51 + 2 ^ 15))
  ∧ a.pow2k 1 = a * a ∧ a.square = a * a
  := by
  refine ⟨⟨Checked.mul_eq ha hb, toNat_mul_modEq ha hb, carried_mul a b⟩, ?_, square_eq_mul ha,
    square_eq_mul ha⟩
  intro k hk
  exact ⟨Checked.pow2k_eq ha hk, toNat_pow2k_modEq ha k, carried_pow2k a hk⟩

/-- The largest limbs. -/
theorem mul_pow2k_exact_largest :
  let a : FieldElement := ⟨18014398509481983, 18014398509481983, 18014398509481983,
    18014398509481983, 18014398509481983⟩
  a.LimbsBelow (2 ^ 54) ∧ Checked.mul a a = some (a * a) ∧ Checked.pow2k a 3 = some (a.pow2k 3)
    ∧ (a.pow2k 3).toNat ≡ a.toNat ^ 8 [MOD modulus]
  := by
  intro a
  have ha : a.LimbsBelow (2 ^ 54) := by decide
  obtain ⟨⟨hmul, -⟩, hpow2k, -⟩ := mul_pow2k_exact ha ha
  obtain ⟨hchecked, hpower, -⟩ := hpow2k 3 (by decide)
  exact ⟨ha, hmul, hchecked, hpower⟩

end HashToCurve.FieldElement
