import HashToCurve.Elligator
import HashToCurve.Group.Basic

/-!
# Hashing to edwards25519

Field elements are mapped by Elligator 2, and the cofactor 8 is cleared by multiplication, at
a security level of 16 bytes.
-/

namespace HashToCurve

/-- The group of points of `edwards25519`. -/
def edwards25519 : HashGroup where
  name := "Edwards25519"
  Element := FieldElement
  Point := EdwardsPoint
  map := Elligator.toEdwards
  add := EdwardsPoint.add
  clearCofactor := EdwardsPoint.clearCofactor
  level := 16

end HashToCurve
