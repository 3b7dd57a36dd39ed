import HashToCurve.Proofs.Constants

/-!
# The Elligator 2 map by cases

On residues, the map is defined by cases.  With `w = 1 + 2 r^2`, the first candidate for `u` is
`-A / w` and the second one is what it leaves of `-A`.  The right-hand side of the equation of the
Montgomery curve is never zero at the first candidate, and at the second one it is `2 r^2` times its
value at the first, so that a value is a square at exactly one candidate, if `r` is not zero.
-/

namespace HashToCurve.Residue

open FieldElement (sqrtMinusOne)

/-- The right-hand side `u^3 + A u^2 + u` of the equation of the Montgomery curve. -/
def montgomery (u : Residue) : Residue := u ^ 3 + 486662 * u ^ 2 + u

/-- The candidate `-A / (1 + 2 r^2)`. -/
def firstCandidate (r : Residue) : Residue := -486662 / (1 + 2 * r ^ 2)

/-- The candidate that sums up to `-A` with the first one. -/
def secondCandidate (r : Residue) : Residue := -firstCandidate r - 486662

/-- The numerator of the value at the first candidate. -/
def valueNumerator (r : Residue) : Residue :=
  486662 * (486662 ^ 2 * (2 * r ^ 2) - (1 + 2 * r ^ 2) ^ 2)

open Classical in
/-- The point of the Montgomery curve that represents `r`: the first candidate with an odd `v`, if
it is the coordinate `u` of a point, else the second one with an even `v`. -/
noncomputable def elligator (r : Residue) : Residue × Residue :=
  if IsSquare (montgomery (firstCandidate r)) then
    (firstCandidate r, -evenRoot (montgomery (firstCandidate r)))
  else (secondCandidate r, evenRoot (montgomery (secondCandidate r)))

/-! ### The candidates -/

theorem isSquare_neg_iff {a : Residue} :
  IsSquare (-a) ↔ IsSquare a
  := by
  have hminus : IsSquare (-1 : Residue) := ⟨sqrtMinusOne.residue, by rw [← sq, sqrtMinusOne_sq]⟩
  constructor
  · intro h
    have hmul := hminus.mul h
    rwa [neg_mul_neg, one_mul] at hmul
  · intro h
    have hmul := hminus.mul h
    rwa [neg_one_mul] at hmul

/-- The product of two residues that are not squares is a square. -/
theorem isSquare_mul_of_not {a b : Residue} (ha : ¬ IsSquare a) (hb : ¬ IsSquare b) :
  IsSquare (a * b)
  := by
  have ha0 : a ≠ 0 := by
    rintro rfl
    exact ha IsSquare.zero
  have hb0 : b ≠ 0 := by
    rintro rfl
    exact hb IsSquare.zero
  have h := ((isSquare_sqrtMinusOne_mul_iff ha0).mpr ha).mul
    ((isSquare_sqrtMinusOne_mul_iff hb0).mpr hb)
  rw [mul_mul_mul_comm, ← sq, sqrtMinusOne_sq, neg_one_mul, isSquare_neg_iff] at h
  apply h

/-- The denominator of the first candidate, since `-1` is a square and `2` is not. -/
theorem denominator_ne_zero (r : Residue) :
  1 + 2 * r ^ 2 ≠ 0
  := by
  intro h
  apply not_isSquare_two
  have hr : r ≠ 0 := by
    rintro rfl
    simp at h
  rw [← isSquare_neg_iff]
  use 1 / r
  field_simp
  linear_combination -h

theorem coefficient_ne_zero :
  (486662 : Residue) ≠ 0
  := by
  intro h
  apply not_isSquare_coefficient
  rw [h]
  apply IsSquare.zero

/-- The value at `-A` is `-A`, which is not a square. -/
theorem add_coefficient_ne_zero {u : Residue} (h : IsSquare (montgomery u)) :
  u + 486662 ≠ 0
  := by
  intro hu
  apply not_isSquare_coefficient
  have hvalue : montgomery u = -486662 := by
    rw [montgomery]
    linear_combination (u ^ 2 + 1) * hu
  rwa [hvalue, isSquare_neg_iff] at h

/-- The discriminant of the numerator is not a square. -/
theorem valueNumerator_ne_zero (r : Residue) :
  valueNumerator r ≠ 0
  := by
  intro h
  have h' := (mul_eq_zero.mp h).resolve_left coefficient_ne_zero
  apply not_isSquare_discriminant
  use (2 * (1 + 2 * r ^ 2) - 486662 ^ 2) / 486662
  have := coefficient_ne_zero
  field_simp
  linear_combination 4 * h'

/-- The value at the first candidate, as one ratio. -/
theorem montgomery_firstCandidate (r : Residue) :
  montgomery (firstCandidate r)
    = valueNumerator r / (1 + 2 * r ^ 2) ^ 3
  := by
  have h := denominator_ne_zero r
  rw [montgomery, firstCandidate, valueNumerator]
  field_simp
  ring

/-- The value at the first candidate is never zero. -/
theorem montgomery_firstCandidate_ne_zero (r : Residue) :
  montgomery (firstCandidate r) ≠ 0
  := by
  rw [montgomery_firstCandidate]
  apply div_ne_zero (valueNumerator_ne_zero r) (pow_ne_zero 3 (denominator_ne_zero r))

/-- The second candidate with a common denominator. -/
theorem secondCandidate_eq (r : Residue) :
  secondCandidate r = -486662 * (2 * r ^ 2) / (1 + 2 * r ^ 2)
  := by
  have h := denominator_ne_zero r
  rw [secondCandidate, firstCandidate]
  field_simp
  ring

/-- The values at the two candidates differ by the factor `2 r^2`. -/
theorem montgomery_secondCandidate (r : Residue) :
  montgomery (secondCandidate r) = 2 * r ^ 2 * montgomery (firstCandidate r)
  := by
  have h := denominator_ne_zero r
  rw [montgomery_firstCandidate, secondCandidate_eq, montgomery, valueNumerator]
  field_simp
  ring

/-- If the value at the first candidate is not a square, that at the second one is. -/
theorem isSquare_montgomery_secondCandidate {r : Residue}
    (h : ¬ IsSquare (montgomery (firstCandidate r))) :
  IsSquare (montgomery (secondCandidate r))
  := by
  rw [montgomery_secondCandidate, mul_right_comm]
  apply (isSquare_mul_of_not not_isSquare_two h).mul (IsSquare.sq r)

/-- The first candidate of zero is `-A`. -/
theorem not_isSquare_montgomery_firstCandidate_zero :
  ¬ IsSquare (montgomery (firstCandidate 0))
  := by
  intro h
  apply add_coefficient_ne_zero h
  rw [firstCandidate]
  ring

/-- The value is a square at exactly one candidate. -/
theorem isSquare_montgomery_secondCandidate_iff (r : Residue) :
  IsSquare (montgomery (secondCandidate r)) ↔ ¬ IsSquare (montgomery (firstCandidate r))
  := by
  constructor
  · intro hsecond hfirst
    have hr : r ≠ 0 := by
      rintro rfl
      exact not_isSquare_montgomery_firstCandidate_zero hfirst
    apply not_isSquare_two
    rw [montgomery_secondCandidate, mul_right_comm, isSquare_mul_sq_iff hr] at hsecond
    have hdiv := hsecond.div hfirst
    rwa [mul_div_cancel_right₀ _ (montgomery_firstCandidate_ne_zero r)] at hdiv
  · exact isSquare_montgomery_secondCandidate

/-! ### The map -/

/-- On the square branch the map takes the first candidate and the odd root. -/
theorem elligator_of_isSquare {r : Residue} (h : IsSquare (montgomery (firstCandidate r))) :
  elligator r = (firstCandidate r, -evenRoot (montgomery (firstCandidate r)))
  := if_pos h

/-- On the other branch the map takes the second candidate and the even root. -/
theorem elligator_of_not_isSquare {r : Residue}
    (h : ¬ IsSquare (montgomery (firstCandidate r))) :
  elligator r = (secondCandidate r, evenRoot (montgomery (secondCandidate r)))
  := if_neg h

/-- The image is on the Montgomery curve. -/
theorem elligator_equation (r : Residue) :
  (elligator r).2 ^ 2 = montgomery (elligator r).1
  := by
  rw [elligator]
  split
  · rename_i h
    rw [neg_sq, evenRoot_sq h]
  · rename_i h
    rw [evenRoot_sq (isSquare_montgomery_secondCandidate h)]

/-- The sign of `v` tells the candidate. -/
theorem isEven_elligator_iff (r : Residue) :
  (elligator r).2.IsEven ↔ ¬ IsSquare (montgomery (firstCandidate r))
  := by
  rw [elligator]
  split
  · rename_i h
    have hroot := evenRoot_ne_zero h (montgomery_firstCandidate_ne_zero r)
    simp [isEven_neg_iff hroot, isEven_evenRoot, h]
  · rename_i h
    simp [isEven_evenRoot, h]

/-- The representative `0` is mapped to the point of order two. -/
theorem elligator_zero :
  elligator 0 = (0, 0)
  := by
  have hu : secondCandidate 0 = 0 := by
    rw [secondCandidate_eq]
    simp
  rw [elligator_of_not_isSquare not_isSquare_montgomery_firstCandidate_zero, hu, montgomery]
  simp [evenRoot_zero]

theorem firstCandidate_ne_zero (r : Residue) :
  firstCandidate r ≠ 0
  := div_ne_zero (neg_ne_zero.mpr coefficient_ne_zero) (denominator_ne_zero r)

/-- Only zero is sent to the origin of the Montgomery curve. -/
theorem elligator_fst_eq_zero_iff {r : Residue} :
  (elligator r).1 = 0 ↔ r = 0
  := by
  constructor
  · intro h
    rw [elligator] at h
    split at h
    · exact absurd h (firstCandidate_ne_zero r)
    · rw [secondCandidate_eq, div_eq_zero_iff] at h
      simpa [coefficient_ne_zero, denominator_ne_zero, two_ne_zero] using h
  · rintro rfl
    rw [elligator_zero]

/-- Only zero is sent to a point with `v = 0`: zero is even, and the value at the second candidate
is a multiple of `r^2`. -/
theorem elligator_snd_eq_zero_iff {r : Residue} :
  (elligator r).2 = 0 ↔ r = 0
  := by
  constructor
  · intro h
    have hfirst : ¬ IsSquare (montgomery (firstCandidate r)) := by
      rw [← isEven_elligator_iff, h]
      apply isEven_zero
    have hequation := elligator_equation r
    rw [h, elligator_of_not_isSquare hfirst, montgomery_secondCandidate, zero_pow two_ne_zero,
      eq_comm] at hequation
    simpa [montgomery_firstCandidate_ne_zero, two_ne_zero] using hequation
  · rintro rfl
    rw [elligator_zero]

/-- The value at the first candidate determines `r` up to its sign. -/
theorem firstCandidate_inj {r s : Residue} :
  firstCandidate r = firstCandidate s ↔ r = s ∨ r = -s
  := by
  rw [firstCandidate, firstCandidate, div_eq_div_iff (denominator_ne_zero r) (denominator_ne_zero s),
    mul_right_inj' (neg_ne_zero.mpr coefficient_ne_zero), add_right_inj, mul_right_inj' two_ne_zero,
    sq_eq_sq_iff_eq_or_eq_neg, eq_comm (a := s), eq_comm (a := s), neg_eq_iff_eq_neg]

/-- The only other residue with the same image is the opposite one. -/
theorem elligator_inj {r s : Residue} :
  elligator r = elligator s ↔ r = s ∨ r = -s
  := by
  rw [← firstCandidate_inj]
  constructor
  · intro h
    have hsign := isEven_elligator_iff r
    rw [h, isEven_elligator_iff s, not_iff_not] at hsign
    have hu := congrArg Prod.fst h
    rw [elligator, elligator] at hu
    by_cases hs : IsSquare (montgomery (firstCandidate s))
    · rwa [if_pos hs, if_pos (hsign.mp hs)] at hu
    · rw [if_neg hs, if_neg (fun hr => hs (hsign.mpr hr))] at hu
      simpa [secondCandidate] using hu
  · intro h
    rw [elligator, elligator, secondCandidate, secondCandidate, h]

end HashToCurve.Residue
