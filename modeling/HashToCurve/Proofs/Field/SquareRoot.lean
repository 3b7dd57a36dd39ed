import HashToCurve.Field.SquareRoot
import HashToCurve.Proofs.Field.Encoding
import HashToCurve.Proofs.Field.Power
import HashToCurve.Proofs.Field.Roots

/-!
# The square root of a ratio

The candidate `r = u v^3 (u v^7)^((p - 5) / 8)` satisfies `v r^2 = w u` for a fourth root `w` of
unity, and `w^2` is `1` exactly when `u / v` is a square.  The three comparisons tell which root
`w` is, and the two that call for the factor `sqrt(-1)` are `-1` and `-sqrt(-1)`.
-/

namespace HashToCurve.FieldElement

open Residue (ratioRoot IsRatioRoot)

/-- The factor of `u` in `v r^2`, for the candidate `r`. -/
private theorem candidate_sq (u v : Residue) :
  v * (u * (v ^ 2 * v) * (u * ((v ^ 2 * v) ^ 2 * v)) ^ (2 ^ 252 - 3)) ^ 2
    = (u * v ^ 7) ^ (2 * (2 ^ 252 - 3) + 1) * u
  := by
  rw [pow_add, pow_mul']
  generalize 2 ^ 252 - 3 = e
  ring

/-- The factor `w` is a fourth root of unity, and each of the four is told by its comparison. -/
private theorem selected_sq {u v r w : Residue} (hu : u ≠ 0) (hw : w ^ 2 = 1 ∨ w ^ 2 = -1)
    (h : v * r ^ 2 = w * u) :
  v * (if w * u = -u ∨ w * u = -u * sqrtMinusOne.residue then sqrtMinusOne.residue * r else r) ^ 2
    = if w * u = u ∨ w * u = -u then u else sqrtMinusOne.residue * u
  := by
  have hi := Residue.sqrtMinusOne_sq
  -- the four fourth roots of unity are different
  have h1 := Residue.one_ne_neg_one
  have hi1 := Residue.sqrtMinusOne_ne_one
  have hi2 := Residue.sqrtMinusOne_ne_neg_one
  have hi3 := Residue.sqrtMinusOne_ne_neg
  generalize sqrtMinusOne.residue = i at *
  have hi4 : 1 ≠ -i := by
    intro hself
    exact hi2 (by rw [hself, neg_neg])
  have hflip : v * (i * r) ^ 2 = -w * u := by
    linear_combination i ^ 2 * h + w * u * hi
  have e1 : w * u = u ↔ w = 1 := mul_eq_right₀ hu
  have e2 : w * u = -u ↔ w = -1 := by
    rw [neg_eq_neg_one_mul, mul_left_inj' hu]
  have e3 : w * u = -u * i ↔ w = -i := by
    rw [show -u * i = -i * u by ring, mul_left_inj' hu]
  simp only [e1, e2, e3]
  rcases hw with hw | hw
  · rcases sq_eq_one_iff.mp hw with rfl | rfl
    · rw [if_neg (by simp [h1, hi4]), if_pos (by simp), h, one_mul]
    · rw [if_pos (by simp), if_pos (by simp), hflip, neg_neg, one_mul]
  · rw [← hi] at hw
    rcases sq_eq_sq_iff_eq_or_eq_neg.mp hw with rfl | rfl
    · rw [if_neg (by simp [hi2, hi3]), if_neg (by simp [hi1, hi2]), h]
    · rw [if_pos (by simp), if_neg (by simp [hi1, neg_eq_iff_eq_neg, hi2]), hflip, neg_neg]

/-- The root is bounded, whatever the limbs of the arguments are. -/
theorem bounded_sqrtRatio (u v : FieldElement) :
  (sqrtRatio u v).1.Bounded
  := bounded_negateIf (bounded_select (bounded_mul _ _) (bounded_mul _ _) _) _

/-- The sign of an element is the parity of its residue. -/
theorem isNegative_iff_not_isEven {a : FieldElement} :
  a.isNegative = true ↔ ¬ a.residue.IsEven
  := by
  rw [isNegative_iff, Residue.IsEven]
  omega

theorem isNegative_eq_false_iff {a : FieldElement} :
  a.isNegative = false ↔ a.residue.IsEven
  := by
  rw [← Bool.not_eq_true, isNegative_iff_not_isEven, not_not]

/-- Negating an odd element gives the even one of the two signs. -/
theorem residue_negateIf_isNegative {a : FieldElement} (ha : a.Bounded) :
  (a.negateIf a.isNegative).residue = a.residue.magnitude
  := by
  rw [residue_negateIf ha, Residue.magnitude]
  by_cases heven : a.residue.IsEven
  · rw [if_pos heven, if_neg (by simpa [isNegative_iff_not_isEven] using heven)]
  · rw [if_neg heven, if_pos (isNegative_iff_not_isEven.mpr heven)]

/-- The square root of a ratio, and whether there is one, are functions of the residues. -/
theorem sqrtRatio_eq {u v : FieldElement} (hu : u.Bounded) (hv : v.Bounded) :
  ((sqrtRatio u v).1.residue, (sqrtRatio u v).2) = ratioRoot u.residue v.residue
  := by
  unfold sqrtRatio
  extract_lets v3 v7 r check correct flipped flippedByRoot r'
  have hr : r.residue = u.residue * (v.residue ^ 2 * v.residue)
      * (u.residue * ((v.residue ^ 2 * v.residue) ^ 2 * v.residue)) ^ (2 ^ 252 - 3) := by
    simp only [r, v7, v3, residue_mul, residue_square, residue_powP58, bounded_mul,
      bounded_square, bounded_powP58, hu, hv]
  have hcheck : check.residue
      = (u.residue * v.residue ^ 7) ^ (2 * (2 ^ 252 - 3) + 1) * u.residue := by
    rw [residue_mul hv (bounded_square r), residue_square (bounded_mul _ _), hr, candidate_sq]
  have hr' : r'.residue = if check.residue = -u.residue
      ∨ check.residue = -u.residue * sqrtMinusOne.residue then sqrtMinusOne.residue * r.residue
      else r.residue := by
    have hir : (sqrtMinusOne * r).residue = sqrtMinusOne.residue * r.residue :=
      residue_mul bounded_sqrtMinusOne (bounded_mul _ _)
    rw [residue_select, hir]
    simp only [Bool.or_eq_true, flipped, flippedByRoot, beq_iff, residue_neg hu,
      residue_mul (bounded_neg u) bounded_sqrtMinusOne]
  have hok : (correct || flipped)
      = decide (check.residue = u.residue ∨ check.residue = -u.residue) := by
    simp only [correct, flipped, beq_eq_decide, residue_neg hu, Bool.decide_or]
  rw [residue_negateIf_isNegative (bounded_select (bounded_mul _ _) (bounded_mul _ _) _), hok]
  by_cases hu0 : u.residue = 0
  · rw [hu0, zero_mul, zero_mul] at hr
    rw [hu0, mul_zero] at hcheck
    rw [hr', hr, hcheck, hu0, Residue.ratioRoot_zero]
    simp [Residue.magnitude]
  by_cases hv0 : v.residue = 0
  · rw [hv0] at hr hcheck
    rw [hr', hcheck, hv0, Residue.ratioRoot_of_denominator_zero hu0, hr]
    have hu0' : ¬ 0 = u.residue := fun h => hu0 h.symm
    simp [Residue.magnitude, hu0, hu0']
  · symm
    apply Residue.ratioRoot_eq hu0 hv0 (Residue.isEven_magnitude _)
    rw [Residue.magnitude_sq, hr', hcheck]
    simp only [decide_eq_true_iff]
    apply selected_sq hu0 (Residue.pow_half_sq (mul_ne_zero hu0 (pow_ne_zero 7 hv0)))
    rw [← hcheck, residue_mul hv (bounded_square r), residue_square (bounded_mul _ _)]

/-- The root that is computed answers for the ratio, with its flag. -/
theorem isRatioRoot_sqrtRatio {u v : FieldElement} (hu : u.Bounded) (hv : v.Bounded) :
  IsRatioRoot u.residue v.residue (sqrtRatio u v).1.residue (sqrtRatio u v).2
  := by
  have h := Residue.isRatioRoot_ratioRoot u.residue v.residue
  rwa [← sqrtRatio_eq hu hv] at h

/-- On every pair, `sqrtRatio` answers for the ratio: with an even root of it, or of `sqrt(-1)` times
it, and with a flag that tells whether it is a square.  No other even residue is such a root.  The
root of an inverse is that of the ratio of `1`. -/
theorem sqrtRatio_exact :
  (∀ u v : FieldElement, u.Bounded → v.Bounded →
    IsRatioRoot u.residue v.residue (sqrtRatio u v).1.residue (sqrtRatio u v).2
      ∧ (sqrtRatio u v).1.isNegative = false
      ∧ (v.residue ≠ 0 → ∀ w : Residue, w = (sqrtRatio u v).1.residue
        ↔ w.IsEven ∧ v.residue * w ^ 2
          = if (sqrtRatio u v).2 then u.residue else sqrtMinusOne.residue * u.residue)
      ∧ ((sqrtRatio u v).2 = true
        ↔ u.residue = 0 ∨ v.residue ≠ 0 ∧ ∃ x, u.residue = v.residue * x ^ 2))
  ∧ ∀ a : FieldElement, a.Bounded →
    inverseSqrt a = sqrtRatio 1 a
      ∧ IsRatioRoot 1 a.residue (inverseSqrt a).1.residue (inverseSqrt a).2
  := by
  constructor
  · intro u v hu hv
    have h := isRatioRoot_sqrtRatio hu hv
    exact ⟨h, isNegative_eq_false_iff.mpr h.isEven, h.eq_iff, h.ok_iff⟩
  · intro a ha
    have h := isRatioRoot_sqrtRatio bounded_one ha
    rw [residue_one] at h
    exact ⟨rfl, h⟩

/-- The root for the ratio of `sqrt(-1)` to `1`, which is not a square, is that of `-1`. -/
theorem sqrtRatio_exact_sqrtMinusOne :
  sqrtMinusOne.Bounded ∧ Bounded 1 ∧ (1 : FieldElement).residue ≠ 0
    ∧ (sqrtRatio sqrtMinusOne 1).2 = false
    ∧ (sqrtRatio sqrtMinusOne 1).1.residue ^ 2 = -1
  := by
  obtain ⟨hroot, -⟩ := sqrtRatio_exact.1 sqrtMinusOne 1 bounded_sqrtMinusOne bounded_one
  have hne : (1 : FieldElement).residue ≠ 0 := by simp
  have hsquare : ¬ IsSquare (sqrtMinusOne.residue / residue 1) := by
    have h := Residue.isSquare_sqrtMinusOne_mul_iff (one_ne_zero (α := Residue))
    rw [mul_one] at h
    simp [h]
  obtain ⟨hok, hsq⟩ := hroot.of_not_isSquare Residue.sqrtMinusOne_ne_zero hne hsquare
  refine ⟨bounded_sqrtMinusOne, bounded_one, hne, hok, ?_⟩
  rwa [residue_one, one_mul, ← sq, Residue.sqrtMinusOne_sq] at hsq

end HashToCurve.FieldElement
