import HashToCurve.Edwards.Affine

/-!
# The Montgomery curve

The curve `v^2 = u^3 + A u^2 + u` with `A = 486662` is birationally equivalent to
`edwards25519` through `x = sqrt(-(A + 2)) u / v` and `y = (u - 1) / (u + 1)`.  Where a
denominator vanishes, `toAffine` has the neutral element.
-/

namespace HashToCurve

/-- A pair of coordinates, on the Montgomery curve or not. -/
structure MontgomeryPoint where
  /-- The coordinate `u`. -/
  u : FieldElement
  /-- The coordinate `v`. -/
  v : FieldElement

namespace MontgomeryPoint

/-- Two pairs are equal when both coordinates are. -/
instance : BEq MontgomeryPoint := ⟨fun P Q => P.u == Q.u && P.v == Q.v⟩

/-- The coefficient `A = 486662` of the curve. -/
def coefficient : FieldElement := ⟨486662, 0, 0, 0, 0⟩

/-- The element `-A`. -/
def negCoefficient : FieldElement :=
  ⟨2251799813198567, 2251799813685247, 2251799813685247, 2251799813685247, 2251799813685247⟩

/-- The element `A^2`. -/
def coefficientSquared : FieldElement := ⟨236839902244, 0, 0, 0, 0⟩

/-- The square root of `-(A + 2)` with an even representative. -/
def scale : FieldElement :=
  ⟨1693982333959686, 608509411481997, 2235573344831311, 947681270984193, 266558006233600⟩

/-- The affine coordinates on `edwards25519`.  Both denominators take one inversion. -/
def toAffine (P : MontgomeryPoint) : AffinePoint :=
  let next := P.u + 1
  let previous := P.u - 1
  let denominator := P.v * next
  let r := denominator.inverse
  let image : AffinePoint := ⟨scale * P.u * next * r, previous * P.v * r⟩
  image.select .identity denominator.isZero

end MontgomeryPoint

end HashToCurve
