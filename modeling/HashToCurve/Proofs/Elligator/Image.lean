import HashToCurve.Proofs.Elligator.Montgomery

/-!
# The image of Elligator 2

A point of the Montgomery curve represents a residue if `-2 u (u + A)` is a square.  If `v` is even,
then `u` is the second candidate of the residue, which is a root of `-u / (2 (u + A))`.  If `v` is
odd, then `u` is the first candidate, and the residue is a root of `-(u + A) / (2 u)`.
-/

namespace HashToCurve

open FieldElement

namespace Residue

/-! ### Candidates with a given value -/

/-- The representatives whose first candidate is `u`, by their squares. -/
theorem firstCandidate_eq_iff {r u : Residue} (hu : u ≠ 0) :
  firstCandidate r = u ↔ r ^ 2 = -(u + 486662) / (2 * u)
  := by
  rw [firstCandidate, div_eq_iff (denominator_ne_zero r), eq_div_iff (mul_ne_zero two_ne_zero hu)]
  constructor
  · intro h
    linear_combination -h
  · intro h
    linear_combination -h

/-- The second candidate is `u` when the first one is `-(u + A)`. -/
theorem secondCandidate_eq_iff {r u : Residue} (hu : u + 486662 ≠ 0) :
  secondCandidate r = u ↔ r ^ 2 = -u / (2 * (u + 486662))
  := by
  have hfirst : secondCandidate r = u ↔ firstCandidate r = -(u + 486662) := by
    rw [secondCandidate]
    constructor
    · intro h
      linear_combination -h
    · intro h
      linear_combination -h
  have hnumerator : -(-(u + 486662) + 486662) = u := by ring
  rw [hfirst, firstCandidate_eq_iff (neg_ne_zero.mpr hu), hnumerator, mul_neg, div_neg, neg_div]

/-! ### Points of the curve -/

/-- The points with `u = 0` have `v = 0`, which is even. -/
theorem ne_zero_of_not_isEven {u v : Residue} (h : v ^ 2 = montgomery u) (hv : ¬ v.IsEven) :
  u ≠ 0
  := by
  rintro rfl
  apply hv
  have hv0 : v = 0 := by simpa [montgomery] using h
  rw [hv0]
  apply isEven_zero

/-! ### Preimages -/

/-- The image of a residue lies on the curve, and its sign tells the candidate. -/
theorem equation_and_sign_of_eq {r u v : Residue} (h : elligator r = (u, v)) :
  v ^ 2 = montgomery u ∧ (v.IsEven ↔ ¬ IsSquare (montgomery (firstCandidate r)))
  := by
  have hequation := elligator_equation r
  have hsign := isEven_elligator_iff r
  rw [h] at hequation hsign
  use hequation, hsign.mp
  apply hsign.mpr

/-- A point with an even `v` represents the roots that send the second candidate to its `u`. -/
theorem elligator_eq_iff_of_isEven {r u v : Residue} (hv : v.IsEven) :
  elligator r = (u, v) ↔ v ^ 2 = montgomery u ∧ r ^ 2 = -u / (2 * (u + 486662))
  := by
  constructor
  · intro h
    obtain ⟨hequation, hsign⟩ := equation_and_sign_of_eq h
    rw [elligator_of_not_isSquare (hsign.mp hv), Prod.mk.injEq] at h
    exact ⟨hequation,
      (secondCandidate_eq_iff (add_coefficient_ne_zero (hequation ▸ IsSquare.sq v))).mp h.1⟩
  · rintro ⟨hequation, hr⟩
    have hsecond : IsSquare (montgomery u) := hequation ▸ IsSquare.sq v
    have hu := (secondCandidate_eq_iff (add_coefficient_ne_zero hsecond)).mpr hr
    rw [← hu] at hsecond
    rw [elligator_of_not_isSquare ((isSquare_montgomery_secondCandidate_iff r).mp hsecond), hu,
      evenRoot_eq hequation hv]

/-- A point with an odd `v` represents the roots that send the first candidate to its `u`. -/
theorem elligator_eq_iff_of_not_isEven {r u v : Residue} (hv : ¬ v.IsEven) :
  elligator r = (u, v) ↔ v ^ 2 = montgomery u ∧ r ^ 2 = -(u + 486662) / (2 * u)
  := by
  constructor
  · intro h
    obtain ⟨hequation, hsign⟩ := equation_and_sign_of_eq h
    rw [elligator_of_isSquare (not_not.mp fun hfirst => hv (hsign.mpr hfirst)), Prod.mk.injEq] at h
    exact ⟨hequation, (firstCandidate_eq_iff (ne_zero_of_not_isEven hequation hv)).mp h.1⟩
  · rintro ⟨hequation, hr⟩
    have hfirst : IsSquare (montgomery u) := hequation ▸ IsSquare.sq v
    have hu := (firstCandidate_eq_iff (ne_zero_of_not_isEven hequation hv)).mpr hr
    rw [← hu] at hfirst
    have hroot := (eq_neg_evenRoot_iff hfirst (montgomery_firstCandidate_ne_zero r) v).mpr
      ⟨by rw [hu, hequation], hv⟩
    rw [elligator_of_isSquare hfirst, ← hroot, hu]

/-- The points in the image of the map. -/
theorem exists_elligator_eq_iff (u v : Residue) :
  (∃ r, elligator r = (u, v))
    ↔ v ^ 2 = montgomery u ∧ IsSquare (-2 * u * (u + 486662))
  := by
  by_cases hv : v.IsEven
  · simp only [elligator_eq_iff_of_isEven hv, exists_and_left]
    apply and_congr_right
    intro h
    have hu := add_coefficient_ne_zero (h ▸ IsSquare.sq v)
    have hproduct : -u * (2 * (u + 486662)) = -2 * u * (u + 486662) := by ring
    rw [exists_sq_eq_div_iff (mul_ne_zero two_ne_zero hu), hproduct]
  · simp only [elligator_eq_iff_of_not_isEven hv, exists_and_left]
    apply and_congr_right
    intro h
    have hu := ne_zero_of_not_isEven h hv
    have hproduct : -(u + 486662) * (2 * u) = -2 * u * (u + 486662) := by ring
    rw [exists_sq_eq_div_iff (mul_ne_zero two_ne_zero hu), hproduct]

end Residue

namespace Elligator

open Residue

/-- A pair is the image of an element if it is on the Montgomery curve and `-2 u (u + A)` is a
square.  The square of the element is then determined, by `u` and the sign of `v`. -/
theorem image_iff :
  ∀ u v : FieldElement,
    ((∃ r : FieldElement, r.Bounded ∧ (toMontgomery r == ⟨u, v⟩) = true)
      ↔ v.residue ^ 2 = u.residue ^ 3 + 486662 * u.residue ^ 2 + u.residue
        ∧ IsSquare (-2 * u.residue * (u.residue + 486662)))
    ∧ ∀ r : FieldElement, r.Bounded → (toMontgomery r == ⟨u, v⟩) = true →
      (v.isNegative = false →
        u.residue + 486662 ≠ 0
          ∧ r.residue ^ 2 = -u.residue / (2 * (u.residue + 486662)))
      ∧ (v.isNegative = true →
        u.residue ≠ 0 ∧ r.residue ^ 2 = -(u.residue + 486662) / (2 * u.residue))
  := by
  intro u v
  have himage : ∀ r : FieldElement, r.Bounded → ((toMontgomery r == ⟨u, v⟩) = true
      ↔ elligator r.residue = (u.residue, v.residue)) := by
    intro r hr
    rw [MontgomeryPoint.beq_iff, toMontgomery_eq hr]
  constructor
  · rw [← montgomery, ← exists_elligator_eq_iff]
    constructor
    · rintro ⟨r, hr, h⟩
      exact ⟨r.residue, (himage r hr).mp h⟩
    · rintro ⟨s, hs⟩
      obtain ⟨r, hr, rfl⟩ := exists_residue_eq s
      exact ⟨r, hr, (himage r hr).mpr hs⟩
  · intro r hr h
    rw [himage r hr] at h
    constructor
    · intro hv
      rw [isNegative_eq_false_iff] at hv
      obtain ⟨hequation, hsq⟩ := (elligator_eq_iff_of_isEven hv).mp h
      exact ⟨add_coefficient_ne_zero (hequation ▸ IsSquare.sq v.residue), hsq⟩
    · intro hv
      rw [isNegative_iff_not_isEven] at hv
      obtain ⟨hequation, hsq⟩ := (elligator_eq_iff_of_not_isEven hv).mp h
      exact ⟨ne_zero_of_not_isEven hequation hv, hsq⟩

/-- The representatives of the point that represents `1` have the square `1`. -/
theorem image_iff_one :
  ∃ r : FieldElement, r.Bounded ∧ (toMontgomery r == imageOfOne) = true ∧ r.residue ^ 2 = 1
  := by
  obtain ⟨hfound, hroots⟩ := image_iff imageOfOne.u imageOfOne.v
  have hu : imageOfOne.u.residue * 3 = -486662 := by
    rw [residue_imageOfOne_u, firstCandidate, div_mul_eq_mul_div, div_eq_iff (denominator_ne_zero 1)]
    ring
  have hsquare : IsSquare (-2 * imageOfOne.u.residue * (imageOfOne.u.residue + 486662)) := by
    use 2 * imageOfOne.u.residue
    linear_combination -2 * imageOfOne.u.residue * hu
  obtain ⟨r, hr, h⟩ := hfound.mpr ⟨imageOfOne_equation, hsquare⟩
  obtain ⟨hne, hsq⟩ := (hroots r hr h).2 isNegative_imageOfOne_v
  refine ⟨r, hr, h, ?_⟩
  rw [hsq, div_eq_one_iff_eq (mul_ne_zero two_ne_zero hne)]
  linear_combination -hu

end Elligator

end HashToCurve
