import HashToCurve.Proofs.Elligator.Edwards

/-!
# The rational map on all pairs

The rational map is defined on all pairs, also on those that are not on the Montgomery curve.  Its
result is on the Edwards curve if the pair is on the Montgomery curve, if a denominator vanishes, or
if `u` is zero.  Its `y` is that of a point if a denominator vanishes, or if the right-hand side of
the equation of the Montgomery curve is a square at `u`.  So a result off the Edwards curve passes to
the group as another point, or not at all.
-/

namespace HashToCurve

open FieldElement
open MontgomeryPoint (scale)

namespace Residue

variable {u v : Residue}

/-! ### Coordinates -/

theorem edwardsX_of_mul_eq_zero (h : v * (u + 1) = 0) :
  edwardsX u v = 0
  := if_pos h

theorem edwardsY_of_mul_eq_zero (h : v * (u + 1) = 0) :
  edwardsY u v = 1
  := if_pos h

/-- The equation of the coordinate `x`, away from the poles. -/
theorem mul_edwardsX (h : v * (u + 1) ≠ 0) :
  v * edwardsX u v = scale.residue * u
  := by
  rw [edwardsX, if_neg h, mul_div_cancel₀ _ (left_ne_zero_of_mul h)]

/-- The equation of the coordinate `y`, away from the poles. -/
theorem mul_edwardsY (h : v * (u + 1) ≠ 0) :
  (u + 1) * edwardsY u v = u - 1
  := by
  rw [edwardsY, if_neg h, mul_div_cancel₀ _ (right_ne_zero_of_mul h)]

/-- Only the exceptions have the `y` of the neutral element. -/
theorem edwardsY_ne_one (h : v * (u + 1) ≠ 0) :
  edwardsY u v ≠ 1
  := by
  intro hy
  have hmul := mul_edwardsY h
  rw [hy] at hmul
  apply two_ne_zero (α := Residue)
  linear_combination hmul

/-- The coordinate `u` is determined by `y`. -/
theorem eq_of_edwardsY (h : v * (u + 1) ≠ 0) :
  (1 + edwardsY u v) / (1 - edwardsY u v) = u
  := by
  rw [div_eq_iff (sub_ne_zero.mpr (edwardsY_ne_one h).symm)]
  linear_combination mul_edwardsY h

/-- Away from the poles, `x` is zero exactly where `u` is. -/
theorem edwardsX_eq_zero_iff (h : v * (u + 1) ≠ 0) :
  edwardsX u v = 0 ↔ u = 0
  := by
  rw [edwardsX, if_neg h, div_eq_zero_iff, or_iff_left (left_ne_zero_of_mul h), mul_eq_zero,
    or_iff_right scale_ne_zero]

/-! ### Points with a given `y` -/

/-- The ratio that is the square of `x` is the value of the Montgomery curve at `u`, times a
square. -/
theorem edwardsY_ratio (h : v * (u + 1) ≠ 0) (hu : u ≠ 0) :
  (edwardsY u v ^ 2 - 1) / (edwardsD.residue * edwardsY u v ^ 2 + 1)
    = montgomery u * (scale.residue * u / montgomery u) ^ 2
  := by
  have hg := montgomery_ne_zero hu
  have hs := scale_sq
  have hd := edwardsD_mul_scale_sq
  have hmul : montgomery u * (scale.residue * u / montgomery u) ^ 2
      = (scale.residue * u) ^ 2 / montgomery u := by field_simp
  rw [hmul, div_eq_div_iff (CurvePoint.xDenominator_ne_zero _) hg, edwardsY, if_neg h, montgomery]
  have hu1 := right_ne_zero_of_mul h
  field_simp
  linear_combination -u * (u + 1) ^ 2 * hs - u * (u - 1) ^ 2 * hd

/-- A point has the `y` of the result in the exceptions, and where the value at `u` is a square. -/
theorem exists_onCurve_edwardsY_iff :
  (∃ x, OnCurve edwardsD.residue x (edwardsY u v))
    ↔ v = 0 ∨ u = -1 ∨ IsSquare (montgomery u)
  := by
  by_cases hzero : v * (u + 1) = 0
  · have hexception := mul_add_one_eq_zero_iff.mp hzero
    exact iff_of_true ⟨_, onCurve_edwards_iff.mpr (hexception.imp_right .inl)⟩
      (hexception.imp_right .inl)
  · rw [← or_assoc, ← mul_add_one_eq_zero_iff, or_iff_right hzero]
    by_cases hu : u = 0
    · apply iff_of_true
      · exact ⟨_, onCurve_edwards_iff.mpr (.inr (.inr (.inl hu)))⟩
      · simp [hu, montgomery]
    · rw [AffinePoint.exists_onCurve_iff, edwardsY_ratio hzero hu, isSquare_mul_sq_iff]
      exact div_ne_zero (mul_ne_zero scale_ne_zero hu) (montgomery_ne_zero hu)

/-- The point with the `y` of the result has `x = 0` together with it. -/
theorem x_eq_zero_iff {R : CurvePoint} (hy : R.y = edwardsY u v) :
  R.x = 0 ↔ edwardsX u v = 0
  := by
  by_cases hzero : v * (u + 1) = 0
  · rw [edwardsY_of_mul_eq_zero hzero] at hy
    have hx := (CurvePoint.x_eq_zero_iff_of_y_eq (Q := 0) hy).mpr rfl
    exact iff_of_true hx (edwardsX_of_mul_eq_zero hzero)
  rw [edwardsX_eq_zero_iff hzero]
  constructor
  · intro hx
    have hequation := R.equation
    rw [OnCurve, hx, hy] at hequation
    have hsq : edwardsY u v ^ 2 = 1 := by linear_combination hequation
    have hmul := mul_edwardsY hzero
    rw [(sq_eq_one_iff.mp hsq).resolve_left (edwardsY_ne_one hzero)] at hmul
    have hdouble : 2 * u = 0 := by linear_combination -hmul
    exact (mul_eq_zero.mp hdouble).resolve_left two_ne_zero
  · intro hu
    have hx := (edwardsX_eq_zero_iff hzero).mpr hu
    have hcurve : OnCurve edwardsD.residue (edwardsX u v) (edwardsY u v) :=
      onCurve_edwards_iff.mpr (.inr (.inr (.inl hu)))
    apply (CurvePoint.x_eq_zero_iff_of_y_eq (Q := ⟨_, _, hcurve⟩) hy).mpr hx

end Residue

namespace MontgomeryPoint

open Residue

/-- The point of the group that the result of a pair passes to, if there is any, has the `y` and the
sign of the result. -/
theorem toEdwards_toAffine {P : MontgomeryPoint} (hu : P.u.Bounded) (hv : P.v.Bounded)
    (h : P.v.residue = 0 ∨ P.u.residue = -1 ∨ IsSquare (montgomery P.u.residue)) :
  ∃ E R, P.toAffine.toEdwards = .ok E ∧ E.Denotes R ∧ R.y = P.toAffine.y.residue
    ∧ (R.x.IsEven ↔ P.toAffine.x.residue.IsEven)
    ∧ (R.x = 0 ↔ P.toAffine.x.residue = 0)
  := by
  obtain ⟨-, hx, hy⟩ := toAffine_eq hu hv
  obtain ⟨-, hpoint⟩ := P.toAffine.toEdwards_spec
  rw [hy, exists_onCurve_edwardsY_iff] at hpoint
  obtain ⟨E, R, hE, hR, hRy, hsign⟩ := hpoint h
  have hzero := x_eq_zero_iff hRy
  rw [← hx] at hzero
  refine ⟨E, R, hE, hR, hRy.trans hy.symm, ?_, hzero⟩
  by_cases hRx : R.x = 0
  · rw [hRx, hzero.mp hRx]
  · exact hsign hRx

/-- The result of the rational map on any pair, on the curve or not.

It is the neutral element if a denominator vanishes, and satisfies the equations of the map else.  It
is on the Edwards curve if a denominator vanishes, if `u` is zero, or if the pair is on the Montgomery
curve.  It does not pass to the group if no denominator vanishes and the right-hand side of the
equation of the Montgomery curve is not a square at `u`.  Else it passes to the point with its `y` and
the sign of its `x`, which is itself if it is on the curve. -/
theorem toAffine_total {P : MontgomeryPoint} (hu : P.u.Bounded) (hv : P.v.Bounded) :
  (P.v.residue = 0 ∨ P.u.residue = -1 →
    P.toAffine.x.residue = 0 ∧ P.toAffine.y.residue = 1)
  ∧ (P.v.residue ≠ 0 → P.u.residue ≠ -1 →
    P.v.residue * P.toAffine.x.residue = evenRoot (-(486662 + 2)) * P.u.residue
      ∧ (P.u.residue + 1) * P.toAffine.y.residue = P.u.residue - 1
      ∧ P.toAffine.y.residue ≠ 1
      ∧ (1 + P.toAffine.y.residue) / (1 - P.toAffine.y.residue) = P.u.residue)
  ∧ (P.toAffine.isOnCurve = true
    ↔ P.v.residue = 0 ∨ P.u.residue = -1 ∨ P.u.residue = 0
      ∨ P.v.residue ^ 2 = montgomery P.u.residue)
  ∧ (P.toAffine.toEdwards = .error .affineOffCurve
    ↔ P.v.residue ≠ 0 ∧ P.u.residue ≠ -1 ∧ ¬ IsSquare (montgomery P.u.residue))
  ∧ (¬ (P.v.residue ≠ 0 ∧ P.u.residue ≠ -1 ∧ ¬ IsSquare (montgomery P.u.residue)) →
    ∃ E R, P.toAffine.toEdwards = .ok E ∧ E.Denotes R ∧ R.y = P.toAffine.y.residue
      ∧ (R.x.IsEven ↔ P.toAffine.x.residue.IsEven)
      ∧ (R.x = 0 ↔ P.toAffine.x.residue = 0)
      ∧ (P.toAffine.isOnCurve = true → P.toAffine.Denotes R))
  := by
  obtain ⟨hbounded, hx, hy⟩ := toAffine_eq hu hv
  refine ⟨?_, ?_, ?_, ?_, ?_⟩
  · intro h
    rw [← mul_add_one_eq_zero_iff] at h
    rw [hx, hy]
    exact ⟨edwardsX_of_mul_eq_zero h, edwardsY_of_mul_eq_zero h⟩
  · intro hv0 hu1
    have h : P.v.residue * (P.u.residue + 1) ≠ 0 := by
      rw [ne_eq, mul_add_one_eq_zero_iff, not_or]
      exact ⟨hv0, hu1⟩
    rw [hx, hy, evenRoot_scale]
    exact ⟨mul_edwardsX h, mul_edwardsY h, edwardsY_ne_one h, eq_of_edwardsY h⟩
  · rw [AffinePoint.isOnCurve_iff hbounded, hx, hy, onCurve_edwards_iff]
  · rw [P.toAffine.toEdwards_spec.1, hy, exists_onCurve_edwardsY_iff, not_or, not_or]
  · intro h
    rw [← not_or, ← not_or, not_not] at h
    obtain ⟨E, R, hE, hR, hRy, hsign, hzero⟩ := toEdwards_toAffine hu hv h
    refine ⟨E, R, hE, hR, hRy, hsign, hzero, ?_⟩
    intro hcurve
    obtain ⟨S, hS⟩ := AffinePoint.exists_denotes hbounded hcurve
    have hRS : R = S := by
      apply CurvePoint.ext_of_sign
      · rw [hRy, hS.y_eq]
      · rw [hsign, hS.x_eq]
    rwa [hRS]

/-- Off the curve, the pair `(1, 1)` passes to the point `(sqrt(-1), 0)`, and `(-A, 1)` to none. -/
theorem toAffine_total_off_curve :
  (∃ E R, (⟨1, 1⟩ : MontgomeryPoint).toAffine.toEdwards = .ok E ∧ E.Denotes R
    ∧ R.x = sqrtMinusOne.residue ∧ R.y = 0)
  ∧ (⟨negCoefficient, 1⟩ : MontgomeryPoint).toAffine.toEdwards = .error .affineOffCurve
  := by
  constructor
  · obtain ⟨-, hcoordinates, -, -, hpoint⟩ :=
      toAffine_total (P := ⟨1, 1⟩) bounded_one bounded_one
    have hsquare : IsSquare (montgomery (residue 1)) := by
      use sqrtMinusOne.residue * scale.residue
      rw [residue_one, montgomery]
      linear_combination -scale.residue ^ 2 * sqrtMinusOne_sq + scale_sq
    have hne : (⟨1, 1⟩ : MontgomeryPoint).u.residue ≠ -1 := by
      rw [residue_one]
      exact one_ne_neg_one
    obtain ⟨hx, hy, -⟩ := hcoordinates (by simp) hne
    obtain ⟨E, R, hE, hR, hRy, hsign, -⟩ := hpoint (fun h => h.2.2 hsquare)
    have hy0 : R.y = 0 := by
      rw [residue_one, sub_self, mul_eq_zero] at hy
      rw [hRy]
      exact hy.resolve_left (by decide)
    refine ⟨E, R, hE, hR, ?_, hy0⟩
    rw [residue_one, one_mul, mul_one] at hx
    apply eq_of_sq_eq
    · have hequation := R.equation
      rw [OnCurve, hy0] at hequation
      rw [sqrtMinusOne_sq]
      linear_combination -hequation
    · rw [hsign, hx]
      exact iff_of_true (isEven_evenRoot _) (isEven_residue (by decide))
  · apply (toAffine_total (P := ⟨negCoefficient, 1⟩) bounded_negCoefficient bounded_one).2.2.2.1.mpr
    refine ⟨by simp, ?_, ?_⟩
    · rw [residue_negCoefficient, ne_eq, neg_inj]
      decide
    · intro hsquare
      apply add_coefficient_ne_zero hsquare
      rw [residue_negCoefficient, neg_add_cancel]

end MontgomeryPoint

end HashToCurve
