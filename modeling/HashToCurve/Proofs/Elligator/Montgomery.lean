import HashToCurve.Proofs.Elligator.Candidates
import HashToCurve.Proofs.Field.SquareRoot

/-!
# The shared square root of Elligator 2

The computation of the map without a case distinction gives the map by cases.  The square root `q`
of the inverse of `denominator * numerator` turns into the root of the value at the first candidate
through `numerator * q`.  If there is only the root `q` of `sqrt(-1)` times the inverse, the factors
`uFactor` and `vFactor` turn it into the root of the value at the second candidate.
-/

namespace HashToCurve

open FieldElement
open MontgomeryPoint (coefficient negCoefficient coefficientSquared)

namespace MontgomeryPoint

/-- Points are equal if the residues of their coordinates are. -/
theorem beq_iff {P Q : MontgomeryPoint} :
  (P == Q) = true ↔ (P.u.residue, P.v.residue) = (Q.u.residue, Q.v.residue)
  := by
  rw [Prod.mk.injEq, ← FieldElement.beq_iff, ← FieldElement.beq_iff, ← Bool.and_eq_true]
  rfl

@[simp]
theorem bounded_coefficient :
  coefficient.Bounded
  := by constructor <;> decide

@[simp]
theorem bounded_negCoefficient :
  negCoefficient.Bounded
  := by constructor <;> decide

@[simp]
theorem bounded_coefficientSquared :
  coefficientSquared.Bounded
  := by constructor <;> decide

end MontgomeryPoint

namespace Elligator

open Residue

@[simp]
theorem bounded_uFactor :
  uFactor.Bounded
  := by constructor <;> decide

@[simp]
theorem bounded_vFactor :
  vFactor.Bounded
  := by constructor <;> decide

/-- The coordinates of a representative's point are bounded, whatever its limbs are. -/
theorem bounded_toMontgomery (r : FieldElement) :
  (toMontgomery r).u.Bounded ∧ (toMontgomery r).v.Bounded
  := by
  constructor
  · apply bounded_mul
  · apply bounded_negateIf (bounded_mul _ _)

/-- The sign that `v` is given. -/
private theorem residue_negateIf_sign {v : FieldElement} (hv : v.Bounded) (isSquare : Bool) :
  (v.negateIf (isSquare ^^ v.isNegative)).residue
    = if isSquare then -v.residue.magnitude else v.residue.magnitude
  := by
  rw [residue_negateIf hv, magnitude]
  by_cases heven : v.residue.IsEven
  · rw [isNegative_eq_false_iff.mpr heven, Bool.xor_false, if_pos heven]
  · rw [isNegative_iff_not_isEven.mpr heven, Bool.xor_true, if_neg heven, neg_neg]
    cases isSquare <;> rfl

/-- The square root that both cases share, and whether the first candidate is taken. -/
private theorem sharedRoot (r : Residue) :
  ((ratioRoot 1 ((1 + 2 * r ^ 2) ^ 3 * valueNumerator r)).2 = true
    ↔ IsSquare (montgomery (firstCandidate r)))
  ∧ (1 + 2 * r ^ 2) ^ 3 * valueNumerator r
      * (ratioRoot 1 ((1 + 2 * r ^ 2) ^ 3 * valueNumerator r)).1 ^ 2
    = if (ratioRoot 1 ((1 + 2 * r ^ 2) ^ 3 * valueNumerator r)).2 then 1
      else sqrtMinusOne.residue
  := by
  have hw := denominator_ne_zero r
  have hn := valueNumerator_ne_zero r
  have hproduct := mul_ne_zero (pow_ne_zero 3 hw) hn
  constructor
  · rw [ratioRoot_snd_iff hproduct, montgomery_firstCandidate]
    have h : valueNumerator r / (1 + 2 * r ^ 2) ^ 3
        = 1 / ((1 + 2 * r ^ 2) ^ 3 * valueNumerator r) * valueNumerator r ^ 2 := by
      field_simp
    rw [h, isSquare_mul_sq_iff hn]
  · have h := mul_ratioRoot_sq one_ne_zero hproduct
    rwa [mul_one] at h

/-- A root of the inverse gives the first candidate, with the odd root. -/
private theorem elligator_eq_of_root {r q : Residue}
    (hfirst : IsSquare (montgomery (firstCandidate r)))
    (hsq : (1 + 2 * r ^ 2) ^ 3 * valueNumerator r * q ^ 2 = 1) :
  elligator r
    = (-486662 * valueNumerator r * (1 + 2 * r ^ 2) ^ 2 * q ^ 2, -magnitude (valueNumerator r * q))
  := by
  have hw := denominator_ne_zero r
  have hroot : evenRoot (montgomery (firstCandidate r)) = magnitude (valueNumerator r * q) := by
    apply evenRoot_eq _ (isEven_magnitude _)
    rw [magnitude_sq, montgomery_firstCandidate, eq_div_iff (pow_ne_zero 3 hw)]
    linear_combination valueNumerator r * hsq
  have hu : -486662 * valueNumerator r * (1 + 2 * r ^ 2) ^ 2 * q ^ 2 = firstCandidate r := by
    rw [firstCandidate, eq_div_iff hw]
    linear_combination -486662 * hsq
  rw [elligator_of_isSquare hfirst, hroot, hu]

/-- A root of `sqrt(-1)` times the inverse gives the second candidate, with the even root. -/
private theorem elligator_eq_of_other_root {r q : Residue}
    (hfirst : ¬ IsSquare (montgomery (firstCandidate r)))
    (hsq : (1 + 2 * r ^ 2) ^ 3 * valueNumerator r * q ^ 2 = sqrtMinusOne.residue) :
  elligator r
    = (r ^ 2 * (-2 * sqrtMinusOne.residue) * -486662 * valueNumerator r * (1 + 2 * r ^ 2) ^ 2 * q ^ 2,
      magnitude (r * vFactor.residue * valueNumerator r * q))
  := by
  have hw := denominator_ne_zero r
  have hroot : evenRoot (montgomery (secondCandidate r))
      = magnitude (r * vFactor.residue * valueNumerator r * q) := by
    apply evenRoot_eq _ (isEven_magnitude _)
    rw [magnitude_sq, montgomery_secondCandidate, montgomery_firstCandidate, mul_pow, mul_pow,
      mul_pow, vFactor_sq, residue_uFactor, ← mul_div_assoc, eq_div_iff (pow_ne_zero 3 hw)]
    linear_combination -2 * r ^ 2 * valueNumerator r * sqrtMinusOne.residue * hsq
      - 2 * r ^ 2 * valueNumerator r * sqrtMinusOne_sq
  have hu : r ^ 2 * (-2 * sqrtMinusOne.residue) * -486662 * valueNumerator r
      * (1 + 2 * r ^ 2) ^ 2 * q ^ 2 = secondCandidate r := by
    rw [secondCandidate_eq, eq_div_iff hw]
    linear_combination 2 * 486662 * r ^ 2 * sqrtMinusOne.residue * hsq
      + 2 * 486662 * r ^ 2 * sqrtMinusOne_sq
  rw [elligator_of_not_isSquare hfirst, hroot, hu]

/-- The computation on residues, in both cases. -/
private theorem shared_eq {r q : Residue} {isSquare : Bool}
    (hroot : (q, isSquare) = ratioRoot 1 ((1 + 2 * r ^ 2) ^ 3 * valueNumerator r)) :
  ((if isSquare then 1 else r ^ 2 * (-2 * sqrtMinusOne.residue)) * -486662 * valueNumerator r
      * (1 + 2 * r ^ 2) ^ 2 * q ^ 2,
    if isSquare then
      -magnitude ((if isSquare then 1 else r * vFactor.residue) * valueNumerator r * q)
    else magnitude ((if isSquare then 1 else r * vFactor.residue) * valueNumerator r * q))
    = elligator r
  := by
  obtain ⟨hcandidate, hsq⟩ := sharedRoot r
  rw [← hroot] at hcandidate hsq
  symm
  cases isSquare with
  | true =>
    simp only [if_true, one_mul]
    apply elligator_eq_of_root (hcandidate.mp rfl) hsq
  | false =>
    have hfirst : ¬ IsSquare (montgomery (firstCandidate r)) := by simp [← hcandidate]
    simp only [Bool.false_eq_true, if_false]
    apply elligator_eq_of_other_root hfirst hsq

/-- The computation of the map is the map by cases. -/
theorem toMontgomery_eq {r : FieldElement} (hr : r.Bounded) :
  ((toMontgomery r).u.residue, (toMontgomery r).v.residue) = elligator r.residue
  := by
  unfold toMontgomery
  extract_lets rr twice w ww numerator denominator
  have hrr : rr.residue = r.residue ^ 2 := residue_square hr
  have htwice : twice.residue = 2 * r.residue ^ 2 := residue_square2 hr
  have hw : w.residue = 1 + 2 * r.residue ^ 2 := by
    rw [residue_add (bounded_square2 r) bounded_one, htwice, residue_one, add_comm]
  have hww : ww.residue = w.residue ^ 2 := residue_square (bounded_add _ _)
  have hn : numerator.residue = valueNumerator r.residue := by
    simp only [numerator, residue_mul, residue_sub, bounded_mul, bounded_sub,
      MontgomeryPoint.bounded_coefficient, MontgomeryPoint.bounded_coefficientSquared,
      residue_coefficient, residue_coefficientSquared, bounded_square2, bounded_square, htwice,
      hww, hw, twice, ww, valueNumerator]
  have hd : denominator.residue = (1 + 2 * r.residue ^ 2) ^ 3 := by
    rw [residue_mul (bounded_square _) (bounded_add _ _), hww, hw, pow_succ _ 2]
  rcases heq : (denominator * numerator).inverseSqrt with ⟨q, isSquare⟩
  have hq : q.Bounded := by
    have h := bounded_sqrtRatio 1 (denominator * numerator)
    rwa [← inverseSqrt, heq] at h
  have hroot : (q.residue, isSquare)
      = ratioRoot 1 ((1 + 2 * r.residue ^ 2) ^ 3 * valueNumerator r.residue) := by
    have h := sqrtRatio_eq bounded_one (bounded_mul denominator numerator)
    rw [residue_one, residue_mul (bounded_mul _ _) (bounded_mul _ _), hd, hn] at h
    rw [← h, ← inverseSqrt, heq]
  dsimp only
  have hv : ((r * vFactor).select 1 isSquare * numerator * q).residue
      = (if isSquare then 1 else r.residue * vFactor.residue) * valueNumerator r.residue
        * q.residue := by
    rw [residue_mul (bounded_mul _ _) hq,
      residue_mul (bounded_select (bounded_mul _ _) bounded_one _) (bounded_mul _ _),
      residue_select, residue_mul hr bounded_vFactor, residue_one, hn]
  have hu : ((rr * uFactor).select 1 isSquare * negCoefficient * numerator * ww * q.square).residue
      = (if isSquare then 1 else r.residue ^ 2 * (-2 * sqrtMinusOne.residue)) * -486662
        * valueNumerator r.residue * (1 + 2 * r.residue ^ 2) ^ 2 * q.residue ^ 2 := by
    rw [residue_mul (bounded_mul _ _) (bounded_square _), residue_square hq,
      residue_mul (bounded_mul _ _) (bounded_square _), hww, hw,
      residue_mul (bounded_mul _ _) (bounded_mul _ _), hn,
      residue_mul (bounded_select (bounded_mul _ _) bounded_one _)
        MontgomeryPoint.bounded_negCoefficient, residue_negCoefficient, residue_select,
      residue_mul (bounded_square _) bounded_uFactor, hrr, residue_uFactor, residue_one]
  rw [residue_negateIf_sign (bounded_mul _ _), hv, hu]
  apply shared_eq hroot

/-- The coordinate `u` that is computed is that of the map on residues. -/
theorem residue_toMontgomery_u {r : FieldElement} (hr : r.Bounded) :
  (toMontgomery r).u.residue = (elligator r.residue).1
  := by rw [← toMontgomery_eq hr]

/-- The coordinate `v` that is computed is that of the map on residues. -/
theorem residue_toMontgomery_v {r : FieldElement} (hr : r.Bounded) :
  (toMontgomery r).v.residue = (elligator r.residue).2
  := by rw [← toMontgomery_eq hr]

/-- The computation takes the first candidate with the odd root, if the candidate is the coordinate
of a point, and the second candidate with the even root else.  In both cases the result is on the
Montgomery curve, and the sign of `v` tells the case.  Only zero is sent to the origin, or to any
other point with `v = 0`. -/
theorem candidate_selected {r : FieldElement} (hr : r.Bounded) :
  1 + 2 * r.residue ^ 2 ≠ 0
    ∧ (IsSquare (montgomery (firstCandidate r.residue)) →
      (toMontgomery r).u.residue = firstCandidate r.residue
        ∧ ∀ w : Residue, w = (toMontgomery r).v.residue
          ↔ w ^ 2 = montgomery (firstCandidate r.residue) ∧ ¬ w.IsEven)
    ∧ (¬ IsSquare (montgomery (firstCandidate r.residue)) →
      (toMontgomery r).u.residue = secondCandidate r.residue
        ∧ ∀ w : Residue, w = (toMontgomery r).v.residue
          ↔ w ^ 2 = montgomery (secondCandidate r.residue) ∧ w.IsEven)
    ∧ (toMontgomery r).v.residue ^ 2 = montgomery (toMontgomery r).u.residue
    ∧ ((toMontgomery r).v.isNegative = true ↔ IsSquare (montgomery (firstCandidate r.residue)))
    ∧ ((toMontgomery r).v.residue = 0 ↔ r.residue = 0)
    ∧ (r.residue = 0 → (toMontgomery r).u.residue = 0 ∧ (toMontgomery r).v.residue = 0)
  := by
  rw [isNegative_iff_not_isEven, residue_toMontgomery_u hr, residue_toMontgomery_v hr]
  refine ⟨denominator_ne_zero _, ?_, ?_, elligator_equation _, ?_, elligator_snd_eq_zero_iff, ?_⟩
  · intro h
    rw [elligator_of_isSquare h]
    dsimp only
    exact ⟨rfl, eq_neg_evenRoot_iff h (montgomery_firstCandidate_ne_zero _)⟩
  · intro h
    rw [elligator_of_not_isSquare h]
    dsimp only
    exact ⟨rfl, eq_evenRoot_iff (isSquare_montgomery_secondCandidate h)⟩
  · rw [isEven_elligator_iff, not_not]
  · intro h
    rw [h, elligator_zero]
    exact ⟨rfl, rfl⟩

/-- The point of the Montgomery curve that represents `1`, with `u = -A / 3` and an odd `v`. -/
def imageOfOne : MontgomeryPoint where
  u := ⟨1501199875627932, 750599937895082, 1501199875790165, 750599937895082, 1501199875790165⟩
  v := ⟨98260623995403, 444225078000897, 620414381899755, 1828185730042024, 1205419399941684⟩

theorem residue_imageOfOne_u :
  imageOfOne.u.residue = firstCandidate 1
  := by
  have h := natCast_eq_natCast (m := imageOfOne.u.toNat * 3 + 486662) (n := 0) (by decide)
  push_cast at h
  rw [firstCandidate, residue, eq_div_iff (denominator_ne_zero 1)]
  linear_combination h

theorem imageOfOne_equation :
  imageOfOne.v.residue ^ 2 = montgomery imageOfOne.u.residue
  := by
  have h := natCast_eq_natCast (m := imageOfOne.v.toNat ^ 2 * 27 + 9 * 486662)
    (n := 2 * 486662 ^ 3) (by decide)
  push_cast at h
  rw [residue_imageOfOne_u, montgomery_firstCandidate, valueNumerator,
    eq_div_iff (pow_ne_zero 3 (denominator_ne_zero 1)), residue]
  linear_combination h

theorem isNegative_imageOfOne_v :
  imageOfOne.v.isNegative = true
  := by decide

/-- The representative `1` takes the first candidate, with the odd root. -/
theorem candidate_selected_one :
  Bounded 1 ∧ (toMontgomery 1 == imageOfOne) = true
  := by
  obtain ⟨-, hfirst, -⟩ := candidate_selected bounded_one
  have hequation := imageOfOne_equation
  rw [residue_one] at hfirst
  rw [residue_imageOfOne_u] at hequation
  obtain ⟨hu, hv⟩ := hfirst ⟨imageOfOne.v.residue, by rw [← hequation, sq]⟩
  use bounded_one
  rw [MontgomeryPoint.beq_iff, hu, ← residue_imageOfOne_u,
    (hv _).mpr ⟨hequation, isNegative_iff_not_isEven.mp isNegative_imageOfOne_v⟩]

end Elligator

end HashToCurve
