import HashToCurve.Edwards.Point
import HashToCurve.Proofs.Edwards.Curve
import HashToCurve.Proofs.Field.Encoding
import HashToCurve.Proofs.Field.Power

/-!
# Extended coordinates

Extended coordinates denote a point of the curve, and the operations on them denote the operations
of its group: sums, doubles, multiples and the multiplication by the cofactor.
-/

namespace HashToCurve

/-- The residues `(x : y : z : t)` are extended coordinates of a point. -/
structure CurvePoint.HasCoordinates (P : CurvePoint) (x y z t : Residue) : Prop where
  z_ne_zero : z ≠ 0
  x_eq : x = P.x * z
  y_eq : y = P.y * z
  t_eq : t = P.x * P.y * z

namespace CurvePoint.HasCoordinates

variable {P Q : CurvePoint} {x y z t x1 y1 z1 t1 x2 y2 z2 t2 : Residue}

/-- Extended coordinates determine their point. -/
theorem unique (hP : P.HasCoordinates x y z t) (hQ : Q.HasCoordinates x y z t) :
  P = Q
  := by
  apply CurvePoint.ext
  · exact mul_right_cancel₀ hP.z_ne_zero (hP.x_eq.symm.trans hQ.x_eq)
  · exact mul_right_cancel₀ hP.z_ne_zero (hP.y_eq.symm.trans hQ.y_eq)

/-- The neutral element is recognised by its first three coordinates. -/
theorem eq_zero_iff (hP : P.HasCoordinates x y z t) :
  P = 0 ↔ x = 0 ∧ y = z
  := by
  have hz := hP.z_ne_zero
  rw [hP.x_eq, hP.y_eq, mul_eq_zero, or_iff_left hz, mul_eq_right₀ hz, CurvePoint.ext_iff]
  rfl

/-- The formulas of the addition, with the common factor `2 z1 z2` of the intermediate values. -/
theorem add (hP : P.HasCoordinates x1 y1 z1 t1) (hQ : Q.HasCoordinates x2 y2 z2 t2)
    {e f g h : Residue} (he : e = (y1 + x1) * (y2 + x2) - (y1 - x1) * (y2 - x2))
    (hf : f = 2 * z1 * z2 - 2 * edwardsD.residue * t1 * t2)
    (hg : g = 2 * z1 * z2 + 2 * edwardsD.residue * t1 * t2)
    (hh : h = (y1 + x1) * (y2 + x2) + (y1 - x1) * (y2 - x2)) :
  (P + Q).HasCoordinates (e * f) (g * h) (f * g) (e * h)
  := by
  obtain ⟨hp, hq⟩ := denominator_ne_zero P Q
  have hz : 2 * z1 * z2 ≠ 0 :=
    mul_ne_zero (mul_ne_zero (by decide) hP.z_ne_zero) hQ.z_ne_zero
  have he : e = 2 * z1 * z2 * (P.x * Q.y + Q.x * P.y) := by
    rw [he, hP.x_eq, hP.y_eq, hQ.x_eq, hQ.y_eq]
    ring
  have hh : h = 2 * z1 * z2 * (P.y * Q.y + P.x * Q.x) := by
    rw [hh, hP.x_eq, hP.y_eq, hQ.x_eq, hQ.y_eq]
    ring
  have hf : f = 2 * z1 * z2 * (1 - edwardsD.residue * P.x * Q.x * P.y * Q.y) := by
    rw [hf, hP.t_eq, hQ.t_eq]
    ring
  have hg : g = 2 * z1 * z2 * (1 + edwardsD.residue * P.x * Q.x * P.y * Q.y) := by
    rw [hg, hP.t_eq, hQ.t_eq]
    ring
  have hx : (P + Q).x * g = e := by
    rw [add_x, hg, he, div_mul_eq_mul_div, div_eq_iff hp]
    ring
  have hy : (P + Q).y * f = h := by
    rw [add_y, hf, hh, div_mul_eq_mul_div, div_eq_iff hq]
    ring
  constructor
  · rw [hf, hg]
    exact mul_ne_zero (mul_ne_zero hz hq) (mul_ne_zero hz hp)
  · rw [← hx]
    ring
  · rw [← hy]
    ring
  · rw [← hx, ← hy]
    ring

end CurvePoint.HasCoordinates

/-- A pair of elements denotes a point of the curve, and their limbs are bounded. -/
structure AffinePoint.Denotes (P : AffinePoint) (R : CurvePoint) : Prop where
  bounded_x : P.x.Bounded
  bounded_y : P.y.Bounded
  x_eq : P.x.residue = R.x
  y_eq : P.y.residue = R.y

namespace EdwardsPoint

open FieldElement

/-- Extended coordinates denote a point of the curve, and their limbs are bounded. -/
structure Denotes (P : EdwardsPoint) (Q : CurvePoint) : Prop where
  bounded_x : P.x.Bounded
  bounded_y : P.y.Bounded
  bounded_z : P.z.Bounded
  bounded_t : P.t.Bounded
  coordinates : Q.HasCoordinates P.x.residue P.y.residue P.z.residue P.t.residue

@[simp]
theorem bounded_edwardsD :
  edwardsD.Bounded
  := by constructor <;> decide

@[simp]
theorem bounded_two :
  FieldElement.two.Bounded
  := by constructor <;> decide

theorem residue_two :
  FieldElement.two.residue = 2
  := by
  rw [FieldElement.two, residue_ofWord]
  rfl

namespace Denotes

variable {P Q : EdwardsPoint} {R S : CurvePoint}

/-- Extended coordinates denote one point. -/
theorem unique (hR : P.Denotes R) (hS : P.Denotes S) :
  R = S
  := hR.coordinates.unique hS.coordinates

/-- The coordinates of the identity denote the neutral element. -/
theorem identity :
  EdwardsPoint.identity.Denotes 0
  := by
  constructor
  · exact bounded_zero
  · exact bounded_one
  · exact bounded_one
  · exact bounded_zero
  · constructor <;> simp [EdwardsPoint.identity]

/-- An affine pair and its extended coordinates denote the same point. -/
theorem ofAffine {P : AffinePoint} (hP : P.Denotes R) :
  (EdwardsPoint.ofAffine P).Denotes R
  := by
  constructor
  · exact hP.bounded_x
  · exact hP.bounded_y
  · exact bounded_one
  · exact bounded_mul _ _
  · constructor <;>
      simp [EdwardsPoint.ofAffine, residue_mul hP.bounded_x hP.bounded_y, hP.x_eq, hP.y_eq]

/-- The quotients by `z` are the affine coordinates. -/
theorem normalize (hP : P.Denotes R) :
  P.normalize.Denotes R
  := by
  have hz := hP.coordinates.z_ne_zero
  have hr := residue_inverse hP.bounded_z
  constructor
  · exact bounded_mul _ _
  · exact bounded_mul _ _
  · rw [EdwardsPoint.normalize, residue_mul hP.bounded_x (bounded_inverse _), hr,
      hP.coordinates.x_eq, mul_inv_cancel_right₀ hz]
  · rw [EdwardsPoint.normalize, residue_mul hP.bounded_y (bounded_inverse _), hr,
      hP.coordinates.y_eq, mul_inv_cancel_right₀ hz]

/-- The sum of extended coordinates denotes the sum of the points, whatever the points are. -/
theorem add (hP : P.Denotes R) (hQ : Q.Denotes S) :
  (P + Q).Denotes (R + S)
  := by
  have ha : ((P.y - P.x) * (Q.y - Q.x)).residue
      = (P.y.residue - P.x.residue) * (Q.y.residue - Q.x.residue) := by
    rw [residue_mul (bounded_sub _ _) (bounded_sub _ _), residue_sub hP.bounded_y hP.bounded_x,
      residue_sub hQ.bounded_y hQ.bounded_x]
  have hb : ((P.y + P.x) * (Q.y + Q.x)).residue
      = (P.y.residue + P.x.residue) * (Q.y.residue + Q.x.residue) := by
    rw [residue_mul (bounded_add _ _) (bounded_add _ _), residue_add hP.bounded_y hP.bounded_x,
      residue_add hQ.bounded_y hQ.bounded_x]
  have hc : (FieldElement.two * edwardsD * P.t * Q.t).residue
      = 2 * edwardsD.residue * P.t.residue * Q.t.residue := by
    rw [residue_mul (bounded_mul _ _) hQ.bounded_t, residue_mul (bounded_mul _ _) hP.bounded_t,
      residue_mul bounded_two bounded_edwardsD, residue_two]
  have hd : (FieldElement.two * P.z * Q.z).residue = 2 * P.z.residue * Q.z.residue := by
    rw [residue_mul (bounded_mul _ _) hQ.bounded_z, residue_mul bounded_two hP.bounded_z,
      residue_two]
  have h := hP.coordinates.add hQ.coordinates rfl rfl rfl rfl
  rw [← ha, ← hb, ← hc, ← hd] at h
  constructor
  · exact bounded_mul _ _
  · exact bounded_mul _ _
  · exact bounded_mul _ _
  · exact bounded_mul _ _
  · simp only [← residue_add, ← residue_sub, ← residue_mul, bounded_mul, bounded_sub, bounded_add] at h
    apply h

/-- The double of extended coordinates denotes the double of the point. -/
theorem double (hP : P.Denotes R) :
  P.double.Denotes (2 • R)
  := by
  rw [two_nsmul]
  apply hP.add hP

/-- The cofactor is 8. -/
theorem clearCofactor (hP : P.Denotes R) :
  P.clearCofactor.Denotes (8 • R)
  := by
  have h := hP.double.double.double
  rwa [smul_smul, smul_smul] at h

/-- A multiple by doublings and additions denotes the multiple of the point. -/
theorem multiple (hP : P.Denotes R) (n : Nat) :
  (EdwardsPoint.multiple n P).Denotes (n • R)
  := by
  induction n using Nat.strong_induction_on with
  | _ n ih =>
    rw [EdwardsPoint.multiple]
    split
    · rename_i h
      rw [h, zero_smul]
      apply identity
    · rename_i h
      have htwice := (ih (n / 2) (by omega)).double
      rw [smul_smul] at htwice
      split
      · rename_i hodd
        have hn : n • R = (2 * (n / 2)) • R + R := by
          rw [← succ_nsmul]
          congr 1
          omega
        rw [hn]
        apply htwice.add hP
      · rename_i heven
        rwa [show 2 * (n / 2) = n by omega] at htwice

/-- The test for the identity decides whether the point is the neutral element. -/
theorem isIdentity_iff (hP : P.Denotes R) :
  P.isIdentity = true ↔ R = 0
  := by
  rw [EdwardsPoint.isIdentity, Bool.and_eq_true, isZero_iff, beq_iff, hP.coordinates.eq_zero_iff]

/-- Points are equal when they denote one point of the curve. -/
theorem beq_iff (hP : P.Denotes R) (hQ : Q.Denotes S) :
  (P == Q) = true ↔ R = S
  := by
  have hz := mul_ne_zero hP.coordinates.z_ne_zero hQ.coordinates.z_ne_zero
  have hx : ((P.x * Q.z) == (Q.x * P.z)) = true ↔ R.x = S.x := by
    rw [FieldElement.beq_iff, residue_mul hP.bounded_x hQ.bounded_z,
      residue_mul hQ.bounded_x hP.bounded_z, hP.coordinates.x_eq, hQ.coordinates.x_eq, mul_assoc,
      mul_assoc, mul_comm Q.z.residue, mul_left_inj' hz]
  have hy : ((P.y * Q.z) == (Q.y * P.z)) = true ↔ R.y = S.y := by
    rw [FieldElement.beq_iff, residue_mul hP.bounded_y hQ.bounded_z,
      residue_mul hQ.bounded_y hP.bounded_z, hP.coordinates.y_eq, hQ.coordinates.y_eq, mul_assoc,
      mul_assoc, mul_comm Q.z.residue, mul_left_inj' hz]
  rw [CurvePoint.ext_iff, ← hx, ← hy, ← Bool.and_eq_true]
  rfl

/-- The test of the subgroup multiplies by the order of the subgroup. -/
theorem isTorsionFree_iff (hP : P.Denotes R) :
  P.isTorsionFree = true ↔ subgroupOrder • R = 0
  := (hP.multiple subgroupOrder).isIdentity_iff

end Denotes

end EdwardsPoint

end HashToCurve
