import HashToCurve.Proofs.Constants
import Mathlib.Tactic.LinearCombination

/-!
# The group of the curve

The points of `-x^2 + y^2 = 1 + d x^2 y^2` over the residues, under the addition law.  The law has
no exceptional cases, because `-1` is a square and `d` is not.  Associativity of the coordinate `x`
is an identity of polynomials modulo the equations of three points.  That of `y` follows, since a
rotation exchanges the coordinates and commutes with the law.
-/

namespace HashToCurve

open FieldElement (sqrtMinusOne)

/-! ### The addition law over a field -/

section Law

variable {F : Type} [Field F] {d x1 y1 x2 y2 x3 y3 : F}

/-- The equation of the curve with coefficient `d`. -/
def OnCurve (d x y : F) : Prop := -x ^ 2 + y ^ 2 = 1 + d * x ^ 2 * y ^ 2

/-- The factor of `d` in the denominators is not a fourth root of unity: otherwise `d` would be a
square, or the second point would be the origin. -/
private theorem d_mul_ne {i ε : F} (h1 : OnCurve d x1 y1) (h2 : OnCurve d x2 y2)
    (hd : ¬ IsSquare d) (hi : i ^ 2 = -1) (htwo : (2 : F) ≠ 0) (hε : ε ^ 2 = 1) :
  d * x1 * x2 * y1 * y2 ≠ ε
  := by
  intro h
  have hε0 : d * x1 * x2 * y1 * y2 ≠ 0 := by
    rw [h]
    rintro rfl
    simp at hε
  simp only [ne_eq, mul_eq_zero, not_or] at hε0
  obtain ⟨⟨⟨⟨-, hx1⟩, -⟩, hy1⟩, hy2⟩ := hε0
  -- a square on the left, `d` times a square on the right
  have hsquare : ∀ s : F, s ^ 2 = 1 →
      (i * x1 + ε * s * y1) ^ 2 = d * (x1 * y1 * (i * x2 + s * y2)) ^ 2 := by
    intro s hs
    rw [OnCurve] at h1 h2
    linear_combination h1 - d * x1 ^ 2 * y1 ^ 2 * h2 + (x1 ^ 2 - d * x1 ^ 2 * y1 ^ 2 * x2 ^ 2) * hi
      + (ε ^ 2 * y1 ^ 2 - d * x1 ^ 2 * y1 ^ 2 * y2 ^ 2) * hs + y1 ^ 2 * hε
      - (ε + d * x1 * x2 * y1 * y2 + 2 * i * s * x1 * y1) * h - hε
  have hvanish : ∀ s : F, s ^ 2 = 1 → i * x2 + s * y2 = 0 := by
    intro s hs
    by_contra hne
    apply hd
    use (i * x1 + ε * s * y1) / (x1 * y1 * (i * x2 + s * y2))
    rw [← sq, div_pow, hsquare s hs, mul_div_cancel_right₀]
    exact pow_ne_zero 2 (mul_ne_zero (mul_ne_zero hx1 hy1) hne)
  have hplus := hvanish 1 (one_pow 2)
  have hminus := hvanish (-1) neg_one_sq
  have hdouble : 2 * y2 = 0 := by linear_combination hplus - hminus
  exact hy2 ((mul_eq_zero.mp hdouble).resolve_left htwo)

/-- The sum of two points is on the curve, up to its denominators. -/
private theorem sum_onCurve (h1 : OnCurve d x1 y1) (h2 : OnCurve d x2 y2) :
  -((x1 * y2 + x2 * y1) * (1 - d * x1 * x2 * y1 * y2)) ^ 2
      + ((y1 * y2 + x1 * x2) * (1 + d * x1 * x2 * y1 * y2)) ^ 2
    = ((1 + d * x1 * x2 * y1 * y2) * (1 - d * x1 * x2 * y1 * y2)) ^ 2
      + d * ((x1 * y2 + x2 * y1) * (y1 * y2 + x1 * x2)) ^ 2
  := by
  rw [OnCurve] at h1 h2
  linear_combination
    ((y2 ^ 2 - x2 ^ 2) * (1 + d * x1 ^ 2 * y1 ^ 2 * (d * x2 ^ 2 * y2 ^ 2))
      - d * x2 ^ 2 * y2 ^ 2 * (y1 ^ 2 - x1 ^ 2 + 1 + d * x1 ^ 2 * y1 ^ 2)) * h1
    + ((1 + d * x1 ^ 2 * y1 ^ 2) * (1 + d * x1 ^ 2 * y1 ^ 2 * (d * x2 ^ 2 * y2 ^ 2))
      - d * x1 ^ 2 * y1 ^ 2 * (y2 ^ 2 - x2 ^ 2 + 1 + d * x2 ^ 2 * y2 ^ 2)) * h2

/-- The law is associative in `x`, up to its denominators. -/
private theorem sum_assoc (h1 : OnCurve d x1 y1) (h2 : OnCurve d x2 y2) (h3 : OnCurve d x3 y3) :
  ((x1 * y2 + x2 * y1) * (1 - d * x1 * x2 * y1 * y2) * y3
      + x3 * ((y1 * y2 + x1 * x2) * (1 + d * x1 * x2 * y1 * y2)))
    * ((1 + d * x2 * x3 * y2 * y3) * (1 - d * x2 * x3 * y2 * y3)
      + d * x1 * (x2 * y3 + x3 * y2) * y1 * (y2 * y3 + x2 * x3))
  = (x1 * ((y2 * y3 + x2 * x3) * (1 + d * x2 * x3 * y2 * y3))
      + (x2 * y3 + x3 * y2) * (1 - d * x2 * x3 * y2 * y3) * y1)
    * ((1 + d * x1 * x2 * y1 * y2) * (1 - d * x1 * x2 * y1 * y2)
      + d * (x1 * y2 + x2 * y1) * x3 * (y1 * y2 + x1 * x2) * y3)
  := by
  rw [OnCurve] at h1 h2 h3
  linear_combination
    d * x2 * y2 * (d * x2 ^ 2 * y2 ^ 2 * x3 * y3 * (y1 * (x2 * y3 + y2 * x3) - x1 * (x2 * x3 + y2 * y3))
      + x3 * y3 * (x2 ^ 3 * (y1 * y3 - x1 * x3) + y2 ^ 3 * (x1 * y3 - y1 * x3))
      + x2 * y2 * (y3 * (y3 ^ 2 - 1) * (x1 * y2 + y1 * x2) - x3 * (x3 ^ 2 + 1) * (x1 * x2 + y1 * y2))) * h1
    + d * x2 * y2 * (x3 * y3 * (x1 * (x1 ^ 2 + 1) * (x2 * x3 + y2 * y3) + y1 * (y1 ^ 2 - 1) * (x2 * y3 + y2 * x3))
      - x1 * y1 * (x3 * (x3 ^ 2 + 1) * (x1 * x2 + y1 * y2) + y3 * (y3 ^ 2 - 1) * (x1 * y2 + y1 * x2))) * h2
    + d * x2 * y2 * (d * x2 ^ 2 * y2 ^ 2 * x1 * y1 * (x3 * (x1 * x2 + y1 * y2) - y3 * (x1 * y2 + y1 * x2))
      + x1 * y1 * (x2 ^ 3 * (x1 * x3 - y1 * y3) + y2 ^ 3 * (x1 * y3 - y1 * x3))
      + x2 * y2 * (x1 * (x1 ^ 2 + 1) * (x2 * x3 + y2 * y3) - y1 * (y1 ^ 2 - 1) * (x2 * y3 + y2 * x3))) * h3

/-- Fractions that satisfy the equation up to their denominators are on the curve. -/
private theorem onCurve_div {n m p q : F} (hp : p ≠ 0) (hq : q ≠ 0)
    (h : -(n * q) ^ 2 + (m * p) ^ 2 = (p * q) ^ 2 + d * (n * m) ^ 2) :
  OnCurve d (n / p) (m / q)
  := by
  rw [OnCurve]
  field_simp
  linear_combination h

/-- The coordinate `x` of a sum with fractions, as one fraction. -/
private theorem sum_div {n m p q : F} (hp : p ≠ 0) (hq : q ≠ 0) :
  (n / p * y1 + x1 * (m / q)) / (1 + d * (n / p) * x1 * (m / q) * y1)
    = (n * q * y1 + x1 * (m * p)) / (p * q + d * n * x1 * m * y1)
  := by
  rw [← mul_div_mul_left _ _ (mul_ne_zero hp hq)]
  congr 1
  · field_simp
  · field_simp

/-- The denominator of a sum whose first summand is given by ratios, with these cleared. -/
private theorem sum_div_denominator {n m p q : F} (hp : p ≠ 0) (hq : q ≠ 0)
    (h : 1 + d * (n / p) * x1 * (m / q) * y1 ≠ 0) :
  p * q + d * n * x1 * m * y1 ≠ 0
  := by
  have hmul := mul_ne_zero (mul_ne_zero hp hq) h
  field_simp at hmul
  apply hmul

end Law

/-! ### Points -/

/-- A point of the curve. -/
@[ext]
structure CurvePoint where
  /-- The coordinate `x`. -/
  x : Residue
  /-- The coordinate `y`. -/
  y : Residue
  equation : OnCurve edwardsD.residue x y
  deriving DecidableEq

namespace CurvePoint

/-- The denominator of `x^2` as a ratio of polynomials in `y`. -/
theorem xDenominator_ne_zero (y : Residue) :
  edwardsD.residue * y ^ 2 + 1 ≠ 0
  := by
  intro h
  have hy : y ≠ 0 := by
    rintro rfl
    simp at h
  apply Residue.not_isSquare_edwardsD
  use sqrtMinusOne.residue / y
  field_simp
  linear_combination h - Residue.sqrtMinusOne_sq

/-- The equation determines `x` up to its sign. -/
theorem onCurve_iff {x y : Residue} :
  OnCurve edwardsD.residue x y ↔ x ^ 2 = (y ^ 2 - 1) / (edwardsD.residue * y ^ 2 + 1)
  := by
  rw [OnCurve, eq_div_iff (xDenominator_ne_zero y)]
  constructor
  · intro h
    linear_combination -h
  · intro h
    linear_combination -h

/-- Two points with the same `y` have the same `x` up to sign. -/
theorem x_sq_eq_of_y_eq {P Q : CurvePoint} (hy : P.y = Q.y) :
  P.x ^ 2 = Q.x ^ 2
  := by
  rw [onCurve_iff.mp P.equation, hy, ← onCurve_iff.mp Q.equation]

/-- Of two points with the same `y`, both have `x = 0` or neither has. -/
theorem x_eq_zero_iff_of_y_eq {P Q : CurvePoint} (hy : P.y = Q.y) :
  P.x = 0 ↔ Q.x = 0
  := by
  rw [← sq_eq_zero_iff, x_sq_eq_of_y_eq hy, sq_eq_zero_iff]

/-- A point is determined by its `y` and the sign of its `x`. -/
theorem ext_of_sign {P Q : CurvePoint} (hy : P.y = Q.y) (hsign : P.x.IsEven ↔ Q.x.IsEven) :
  P = Q
  := CurvePoint.ext (Residue.eq_of_sq_eq (x_sq_eq_of_y_eq hy) hsign) hy

/-- The denominators of the addition law never vanish. -/
theorem denominator_ne_zero (P Q : CurvePoint) :
  1 + edwardsD.residue * P.x * Q.x * P.y * Q.y ≠ 0
    ∧ 1 - edwardsD.residue * P.x * Q.x * P.y * Q.y ≠ 0
  := by
  have h : ∀ ε : Residue, ε ^ 2 = 1 → edwardsD.residue * P.x * Q.x * P.y * Q.y ≠ ε := by
    intro ε hε
    apply d_mul_ne P.equation Q.equation Residue.not_isSquare_edwardsD Residue.sqrtMinusOne_sq
      two_ne_zero hε
  constructor
  · intro hzero
    exact h (-1) neg_one_sq (eq_neg_of_add_eq_zero_right hzero)
  · intro hzero
    exact h 1 (one_pow 2) (sub_eq_zero.mp hzero).symm

instance : Zero CurvePoint := ⟨⟨0, 1, by simp [OnCurve]⟩⟩

instance : Neg CurvePoint := ⟨fun P => ⟨-P.x, P.y, by simpa [OnCurve] using P.equation⟩⟩

/-- The sum of two points. -/
instance : Add CurvePoint where
  add P Q :=
    { x := (P.x * Q.y + Q.x * P.y) / (1 + edwardsD.residue * P.x * Q.x * P.y * Q.y)
      y := (P.y * Q.y + P.x * Q.x) / (1 - edwardsD.residue * P.x * Q.x * P.y * Q.y)
      equation := by
        obtain ⟨hp, hq⟩ := denominator_ne_zero P Q
        apply onCurve_div hp hq (sum_onCurve P.equation Q.equation) }

@[simp]
theorem zero_x :
  (0 : CurvePoint).x = 0
  := rfl

@[simp]
theorem zero_y :
  (0 : CurvePoint).y = 1
  := rfl

@[simp]
theorem neg_x (P : CurvePoint) :
  (-P).x = -P.x
  := rfl

@[simp]
theorem neg_y (P : CurvePoint) :
  (-P).y = P.y
  := rfl

theorem add_x (P Q : CurvePoint) :
  (P + Q).x = (P.x * Q.y + Q.x * P.y) / (1 + edwardsD.residue * P.x * Q.x * P.y * Q.y)
  := rfl

theorem add_y (P Q : CurvePoint) :
  (P + Q).y = (P.y * Q.y + P.x * Q.x) / (1 - edwardsD.residue * P.x * Q.x * P.y * Q.y)
  := rfl

/-- The sum with the point `(sqrt(-1), 0)`. -/
private def rotate (P : CurvePoint) : CurvePoint where
  x := sqrtMinusOne.residue * P.y
  y := sqrtMinusOne.residue * P.x
  equation := by
    have h := P.equation
    have hi := Residue.sqrtMinusOne_sq
    rw [OnCurve] at h ⊢
    generalize sqrtMinusOne.residue = i at *
    linear_combination h + (P.x ^ 2 - P.y ^ 2
      - edwardsD.residue * P.x ^ 2 * P.y ^ 2 * (i ^ 2 - 1)) * hi

/-- The rotation commutes with the addition law in its first argument. -/
private theorem rotate_add (P Q : CurvePoint) :
  P.rotate + Q = (P + Q).rotate
  := by
  have hi := Residue.sqrtMinusOne_sq
  have hd : edwardsD.residue * P.rotate.x * Q.x * P.rotate.y * Q.y
      = -(edwardsD.residue * P.x * Q.x * P.y * Q.y) := by
    simp only [rotate]
    linear_combination edwardsD.residue * P.x * Q.x * P.y * Q.y * hi
  apply CurvePoint.ext
  · rw [add_x, hd]
    simp only [rotate, add_y]
    ring
  · rw [add_y, hd]
    simp only [rotate, add_x]
    ring

/-- The addition law is symmetric in its arguments. -/
private theorem add_comm (P Q : CurvePoint) :
  P + Q = Q + P
  := by
  apply CurvePoint.ext
  · rw [add_x, add_x]
    congr 1 <;> ring
  · rw [add_y, add_y]
    congr 1 <;> ring

/-- The coordinate `x` of a sum of three points does not depend on the brackets. -/
private theorem add_assoc_x (P Q R : CurvePoint) :
  (P + Q + R).x = (P + (Q + R)).x
  := by
  obtain ⟨hp, hq⟩ := denominator_ne_zero P Q
  obtain ⟨hp', hq'⟩ := denominator_ne_zero Q R
  rw [add_comm P (Q + R)]
  have hl := sum_div_denominator hp hq (denominator_ne_zero (P + Q) R).1
  have hr := sum_div_denominator hp' hq' (denominator_ne_zero (Q + R) P).1
  calc (P + Q + R).x
    _ = _ := sum_div hp hq
    _ = _ := by
      rw [div_eq_div_iff hl hr]
      linear_combination sum_assoc P.equation Q.equation R.equation
    _ = (Q + R + P).x := (sum_div hp' hq').symm

/-- The coordinate `y` of a sum is the coordinate `x` of its rotation, up to the factor `sqrt(-1)`. -/
private theorem add_assoc (P Q R : CurvePoint) :
  P + Q + R = P + (Q + R)
  := by
  apply CurvePoint.ext (add_assoc_x P Q R)
  have h := add_assoc_x P.rotate Q R
  rw [rotate_add, rotate_add, rotate_add] at h
  exact mul_left_cancel₀ Residue.sqrtMinusOne_ne_zero h

private theorem zero_add (P : CurvePoint) :
  0 + P = P
  := by
  apply CurvePoint.ext
  · simp [add_x]
  · simp [add_y]

/-- The opposite of a point is its mirror image in `x`. -/
private theorem neg_add (P : CurvePoint) :
  -P + P = 0
  := by
  obtain ⟨hp, hq⟩ := denominator_ne_zero (-P) P
  have h := P.equation
  rw [OnCurve] at h
  apply CurvePoint.ext
  · rw [add_x, zero_x, div_eq_zero_iff]
    left
    simp
  · rw [add_y, zero_y, div_eq_one_iff_eq hq]
    simp
    linear_combination h

instance : AddCommGroup CurvePoint where
  add_assoc := add_assoc
  zero_add := zero_add
  add_zero P := (add_comm P 0).trans (zero_add P)
  neg_add_cancel := neg_add
  add_comm := add_comm
  nsmul := nsmulRec
  zsmul := zsmulRec

end CurvePoint

end HashToCurve
