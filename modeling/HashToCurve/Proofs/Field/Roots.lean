import HashToCurve.Proofs.Field.Prime
import Mathlib.FieldTheory.Finite.Basic
import Mathlib.NumberTheory.LegendreSymbol.Basic

/-!
# Square roots of residues

Of a nonzero residue and its opposite, exactly one has an even representative, so that a square has
one root with an even representative, its even root.  Since `p` is `5` modulo `8`, the square roots
of `-1` are not squares, and of `a` and `sqrt(-1) a` exactly one is a square, if `a` is not zero.
-/

namespace HashToCurve

open FieldElement (modulus sqrtMinusOne)

namespace Residue

/-! ### Signs -/

/-- A residue is even if its representative in `[0, p)` is. -/
def IsEven (r : Residue) : Prop := r.val % 2 = 0

instance (r : Residue) : Decidable r.IsEven := inferInstanceAs (Decidable (_ = _))

theorem isEven_zero :
  IsEven 0
  := rfl

/-- Of a nonzero residue and its opposite, exactly one is even. -/
theorem isEven_neg_iff {r : Residue} (hr : r ≠ 0) :
  (-r).IsEven ↔ ¬ r.IsEven
  := by
  have hlt := r.val_lt
  have hodd : modulus % 2 = 1 := by decide
  rw [IsEven, IsEven, ZMod.neg_val, if_neg hr]
  omega

/-- The one of a residue and its opposite that is even. -/
def magnitude (r : Residue) : Residue := if r.IsEven then r else -r

/-- The magnitude is even. -/
theorem isEven_magnitude (r : Residue) :
  r.magnitude.IsEven
  := by
  rw [magnitude]
  split
  · assumption
  · rename_i h
    by_cases hr : r = 0
    · rw [hr, neg_zero]
      apply isEven_zero
    · apply (isEven_neg_iff hr).mpr h

/-- The magnitude has the square of the residue. -/
theorem magnitude_sq (r : Residue) :
  r.magnitude ^ 2 = r ^ 2
  := by
  rw [magnitude]
  split
  · rfl
  · apply neg_sq

/-- A residue is determined by its square and its sign. -/
theorem eq_of_sq_eq {r s : Residue} (hsq : r ^ 2 = s ^ 2) (hsign : r.IsEven ↔ s.IsEven) :
  r = s
  := by
  rcases sq_eq_sq_iff_eq_or_eq_neg.mp hsq with h | h
  · apply h
  · by_cases hs : s = 0
    · rw [h, hs, neg_zero]
    · rw [h, isEven_neg_iff hs] at hsign
      tauto

/-! ### Even roots -/

open Classical in
/-- The even square root of a square. -/
noncomputable def evenRoot (a : Residue) : Residue :=
  if h : IsSquare a then magnitude h.choose else 0

/-- The even root is even, also of a residue that is not a square. -/
theorem isEven_evenRoot (a : Residue) :
  a.evenRoot.IsEven
  := by
  rw [evenRoot]
  split
  · apply isEven_magnitude
  · apply isEven_zero

/-- The even root of a square is a root. -/
theorem evenRoot_sq {a : Residue} (h : IsSquare a) :
  a.evenRoot ^ 2 = a
  := by
  rw [evenRoot, dif_pos h, magnitude_sq, sq]
  apply h.choose_spec.symm

/-- A square has no other even root. -/
theorem evenRoot_eq {a r : Residue} (hsq : r ^ 2 = a) (hr : r.IsEven) :
  a.evenRoot = r
  := by
  have hsquare : IsSquare a := ⟨r, by rw [← hsq, sq]⟩
  apply eq_of_sq_eq
  · rw [evenRoot_sq hsquare, hsq]
  · exact iff_of_true (isEven_evenRoot a) hr

/-- The even root of a square is the only root that is even. -/
theorem eq_evenRoot_iff {a : Residue} (h : IsSquare a) (r : Residue) :
  r = a.evenRoot ↔ r ^ 2 = a ∧ r.IsEven
  := by
  constructor
  · intro hr
    rw [hr]
    exact ⟨evenRoot_sq h, isEven_evenRoot a⟩
  · rintro ⟨hsq, heven⟩
    exact (evenRoot_eq hsq heven).symm

theorem evenRoot_ne_zero {a : Residue} (h : IsSquare a) (ha : a ≠ 0) :
  a.evenRoot ≠ 0
  := by
  intro hroot
  apply ha
  rw [← evenRoot_sq h, hroot, zero_pow two_ne_zero]

/-- The odd root of a square is the opposite of the even one. -/
theorem eq_neg_evenRoot_iff {a : Residue} (h : IsSquare a) (ha : a ≠ 0) (r : Residue) :
  r = -a.evenRoot ↔ r ^ 2 = a ∧ ¬ r.IsEven
  := by
  rw [← neg_eq_iff_eq_neg, eq_evenRoot_iff h, neg_sq]
  apply and_congr_right
  intro hsq
  apply isEven_neg_iff
  rintro rfl
  exact ha (by rw [← hsq, zero_pow two_ne_zero])

/-! ### Squares and the square root of `-1` -/

/-- The constant `sqrt(-1)` is a root of `-1`. -/
theorem sqrtMinusOne_sq :
  sqrtMinusOne.residue ^ 2 = -1
  := by
  have h : ((sqrtMinusOne.toNat ^ 2 + 1 : Nat) : Residue) = 0 := by
    rw [ZMod.natCast_eq_zero_iff]
    decide
  apply eq_neg_of_add_eq_zero_left
  rw [FieldElement.residue]
  exact_mod_cast h

/-- The exponent `(p - 1) / 2` of Euler's criterion is twice an odd number. -/
theorem modulus_half :
  modulus / 2 = 2 * (2 * (2 ^ 252 - 3) + 1)
  := by decide

/-- Euler's criterion, with its exponent `(p - 1) / 2` as twice an odd number. -/
theorem isSquare_iff_pow {a : Residue} (ha : a ≠ 0) :
  IsSquare a ↔ (a ^ (2 * (2 ^ 252 - 3) + 1)) ^ 2 = 1
  := by
  rw [ZMod.euler_criterion modulus ha, modulus_half, ← pow_mul, mul_comm]

/-- The power of Euler's criterion is `1` or `-1`. -/
theorem pow_half_sq {a : Residue} (ha : a ≠ 0) :
  (a ^ (2 * (2 ^ 252 - 3) + 1)) ^ 2 = 1 ∨ (a ^ (2 * (2 ^ 252 - 3) + 1)) ^ 2 = -1
  := by
  have h := ZMod.pow_div_two_eq_neg_one_or_one modulus ha
  rw [modulus_half] at h
  rw [← pow_mul, mul_comm _ 2]
  apply h

theorem one_ne_neg_one :
  (1 : Residue) ≠ -1
  := by decide

theorem sqrtMinusOne_ne_zero :
  sqrtMinusOne.residue ≠ 0
  := by
  intro h
  have hsq := sqrtMinusOne_sq
  rw [h, zero_pow two_ne_zero, zero_eq_neg] at hsq
  exact one_ne_zero hsq

theorem sqrtMinusOne_ne_one :
  sqrtMinusOne.residue ≠ 1
  := by
  intro h
  have hsq := sqrtMinusOne_sq
  rw [h, one_pow] at hsq
  exact one_ne_neg_one hsq

theorem sqrtMinusOne_ne_neg_one :
  sqrtMinusOne.residue ≠ -1
  := by
  intro h
  have hsq := sqrtMinusOne_sq
  rw [h, neg_one_sq] at hsq
  exact one_ne_neg_one hsq

theorem sqrtMinusOne_ne_neg :
  sqrtMinusOne.residue ≠ -sqrtMinusOne.residue
  := by
  intro h
  apply one_ne_neg_one
  apply mul_left_cancel₀ sqrtMinusOne_ne_zero
  rwa [mul_one, mul_neg_one]

/-- Of `a` and `sqrt(-1) a`, one is a square and the other is not. -/
theorem isSquare_sqrtMinusOne_mul_iff {a : Residue} (ha : a ≠ 0) :
  IsSquare (sqrtMinusOne.residue * a) ↔ ¬ IsSquare a
  := by
  rw [isSquare_iff_pow (mul_ne_zero sqrtMinusOne_ne_zero ha), isSquare_iff_pow ha, mul_pow,
    mul_pow, ← pow_mul, mul_comm _ 2, pow_mul, sqrtMinusOne_sq, Odd.neg_one_pow (by decide)]
  rcases pow_half_sq ha with h | h
  · rw [h]
    simp [one_ne_neg_one.symm]
  · rw [h]
    simp [one_ne_neg_one.symm]

/-- A nonzero square factor does not change whether a residue is a square. -/
theorem isSquare_mul_sq_iff {a b : Residue} (hb : b ≠ 0) :
  IsSquare (a * b ^ 2) ↔ IsSquare a
  := by
  constructor
  · intro h
    have hdiv := h.div (IsSquare.sq b)
    rwa [mul_div_cancel_right₀ a (pow_ne_zero 2 hb)] at hdiv
  · intro h
    exact h.mul (IsSquare.sq b)

/-- A ratio has a root when the product is a square. -/
theorem exists_sq_eq_div_iff {a b : Residue} (hb : b ≠ 0) :
  (∃ r, r ^ 2 = a / b) ↔ IsSquare (a * b)
  := by
  have hmul : a * b = a / b * b ^ 2 := by field_simp
  rw [hmul, isSquare_mul_sq_iff hb, isSquare_iff_exists_sq]
  simp only [eq_comm]

/-! ### Roots of ratios -/

open Classical in
/-- The even root of `u / v` and `true`, if `u / v` is a square, else the even root of
`sqrt(-1) u / v` and `false`.  A ratio of a nonzero residue to zero is not a square. -/
noncomputable def ratioRoot (u v : Residue) : Residue × Bool :=
  if IsSquare (u / v) ∧ (v = 0 → u = 0) then (evenRoot (u / v), true)
  else (evenRoot (sqrtMinusOne.residue * u / v), false)

theorem evenRoot_zero :
  evenRoot 0 = 0
  := evenRoot_eq (zero_pow two_ne_zero) isEven_zero

/-- A zero numerator has the root `0`, for any denominator. -/
theorem ratioRoot_zero (v : Residue) :
  ratioRoot 0 v = (0, true)
  := by
  rw [ratioRoot, if_pos, zero_div, evenRoot_zero]
  simp

/-- A nonzero numerator over zero has the root `0` and the flag `false`. -/
theorem ratioRoot_of_denominator_zero {u : Residue} (hu : u ≠ 0) :
  ratioRoot u 0 = (0, false)
  := by
  rw [ratioRoot, if_neg (by simp [hu]), div_zero, evenRoot_zero]

/-- A ratio of nonzero residues has the root that its equation and its sign determine. -/
theorem ratioRoot_eq {u v r : Residue} {isSquare : Bool} (hu : u ≠ 0) (hv : v ≠ 0)
    (hr : r.IsEven) (h : v * r ^ 2 = if isSquare then u else sqrtMinusOne.residue * u) :
  ratioRoot u v = (r, isSquare)
  := by
  cases isSquare with
  | true =>
    have hsq : r ^ 2 = u / v := by
      rw [eq_div_iff hv, mul_comm]
      apply h
    rw [ratioRoot, if_pos ⟨⟨r, by rw [← hsq, sq]⟩, fun h0 => absurd h0 hv⟩, evenRoot_eq hsq hr]
  | false =>
    have hsq : r ^ 2 = sqrtMinusOne.residue * u / v := by
      rw [eq_div_iff hv, mul_comm]
      apply h
    have hnot : ¬ IsSquare (u / v) := by
      rw [← isSquare_sqrtMinusOne_mul_iff (div_ne_zero hu hv), ← mul_div_assoc, ← hsq]
      apply IsSquare.sq
    rw [ratioRoot, if_neg (fun hand => hnot hand.1), evenRoot_eq hsq hr]

/-- The root of a ratio is even, with either flag. -/
theorem isEven_ratioRoot (u v : Residue) :
  (ratioRoot u v).1.IsEven
  := by
  rw [ratioRoot]
  split
  · simp only [isEven_evenRoot]
  · simp only [isEven_evenRoot]

/-- The flag tells whether the ratio is a square. -/
theorem ratioRoot_snd_iff {u v : Residue} (hv : v ≠ 0) :
  (ratioRoot u v).2 = true ↔ IsSquare (u / v)
  := by
  rw [ratioRoot]
  split
  · rename_i h
    exact iff_of_true rfl h.1
  · rename_i h
    apply iff_of_false (by simp)
    intro hsquare
    exact h ⟨hsquare, fun h0 => absurd h0 hv⟩

/-- The root of a ratio that is a square is its even root. -/
theorem ratioRoot_of_isSquare {u v : Residue} (hv : v ≠ 0) (h : IsSquare (u / v)) :
  ratioRoot u v = (evenRoot (u / v), true)
  := by
  rw [ratioRoot, if_pos ⟨h, fun h0 => absurd h0 hv⟩]

/-- The equation of the root without a division, for either flag. -/
theorem mul_ratioRoot_sq {u v : Residue} (hu : u ≠ 0) (hv : v ≠ 0) :
  v * (ratioRoot u v).1 ^ 2 = if (ratioRoot u v).2 then u else sqrtMinusOne.residue * u
  := by
  by_cases h : IsSquare (u / v)
  · rw [if_pos ((ratioRoot_snd_iff hv).mpr h), ratioRoot_of_isSquare hv h, evenRoot_sq h,
      mul_div_cancel₀ u hv]
  · have hroot : IsSquare (sqrtMinusOne.residue * u / v) := by
      rwa [mul_div_assoc, isSquare_sqrtMinusOne_mul_iff (div_ne_zero hu hv)]
    rw [if_neg (fun hsnd => h ((ratioRoot_snd_iff hv).mp hsnd)), ratioRoot,
      if_neg (fun hand => h hand.1), evenRoot_sq hroot, mul_div_cancel₀ _ hv]

/-! ### Roots with a flag -/

/-- The residue `r` and the flag `ok` answer for the ratio of `u` to `v`: the residue is even, and it
is a root of the ratio, or of `sqrt(-1)` times the ratio where the flag is `false`.  A zero numerator
has the root `0` whatever the denominator, and a zero denominator has the root `0` with `false`. -/
structure IsRatioRoot (u v r : Residue) (ok : Bool) : Prop where
  isEven : r.IsEven
  of_numerator_zero : u = 0 → r = 0 ∧ ok = true
  of_denominator_zero : v = 0 → u ≠ 0 → r = 0 ∧ ok = false
  of_isSquare : u ≠ 0 → v ≠ 0 → IsSquare (u / v) → ok = true ∧ v * r ^ 2 = u
  of_not_isSquare : u ≠ 0 → v ≠ 0 → ¬ IsSquare (u / v) →
    ok = false ∧ v * r ^ 2 = sqrtMinusOne.residue * u

/-- The even root of a ratio, with its flag, answers for it. -/
theorem isRatioRoot_ratioRoot (u v : Residue) :
  IsRatioRoot u v (ratioRoot u v).1 (ratioRoot u v).2
  where
  isEven := isEven_ratioRoot u v
  of_numerator_zero := by
    rintro rfl
    rw [ratioRoot_zero]
    exact ⟨rfl, rfl⟩
  of_denominator_zero := by
    rintro rfl hu
    rw [ratioRoot_of_denominator_zero hu]
    exact ⟨rfl, rfl⟩
  of_isSquare := by
    intro hu hv h
    have hok := (ratioRoot_snd_iff hv).mpr h
    have hroot := mul_ratioRoot_sq hu hv
    rw [if_pos hok] at hroot
    exact ⟨hok, hroot⟩
  of_not_isSquare := by
    intro hu hv h
    have hok : (ratioRoot u v).2 ≠ true := fun hok => h ((ratioRoot_snd_iff hv).mp hok)
    have hroot := mul_ratioRoot_sq hu hv
    rw [if_neg hok] at hroot
    exact ⟨Bool.eq_false_of_not_eq_true hok, hroot⟩

namespace IsRatioRoot

variable {u v r : Residue} {ok : Bool}

/-- The equation of the root, in all cases but that of a zero denominator. -/
theorem mul_sq (h : IsRatioRoot u v r ok) (hv : v ≠ 0) :
  v * r ^ 2 = if ok then u else sqrtMinusOne.residue * u
  := by
  by_cases hu : u = 0
  · obtain ⟨rfl, rfl⟩ := h.of_numerator_zero hu
    simp [hu]
  by_cases hsquare : IsSquare (u / v)
  · obtain ⟨rfl, hroot⟩ := h.of_isSquare hu hv hsquare
    apply hroot
  · obtain ⟨rfl, hroot⟩ := h.of_not_isSquare hu hv hsquare
    apply hroot

/-- The root is the only even one. -/
theorem eq_iff (h : IsRatioRoot u v r ok) (hv : v ≠ 0) (w : Residue) :
  w = r ↔ w.IsEven ∧ v * w ^ 2 = if ok then u else sqrtMinusOne.residue * u
  := by
  rw [← h.mul_sq hv, mul_right_inj' hv]
  constructor
  · rintro rfl
    exact ⟨h.isEven, rfl⟩
  · rintro ⟨heven, hsq⟩
    apply eq_of_sq_eq hsq (iff_of_true heven h.isEven)

/-- The flag tells whether the ratio is a square. -/
theorem ok_iff (h : IsRatioRoot u v r ok) :
  ok = true ↔ u = 0 ∨ v ≠ 0 ∧ ∃ x, u = v * x ^ 2
  := by
  by_cases hu : u = 0
  · exact iff_of_true (h.of_numerator_zero hu).2 (.inl hu)
  by_cases hv : v = 0
  · simp [(h.of_denominator_zero hv hu).2, hu, hv]
  have hdiv : IsSquare (u / v) ↔ ∃ x, u = v * x ^ 2 := by
    simp only [isSquare_iff_exists_sq, div_eq_iff hv, mul_comm v]
  rw [or_iff_right hu, and_iff_right hv, ← hdiv]
  by_cases hsquare : IsSquare (u / v)
  · exact iff_of_true (h.of_isSquare hu hv hsquare).1 hsquare
  · simp [(h.of_not_isSquare hu hv hsquare).1, hsquare]

end IsRatioRoot

end Residue

end HashToCurve
