import HashToCurve.Fault
import HashToCurve.Field.SquareRoot

/-!
# Affine points

The curve `edwards25519` is `-x^2 + y^2 = 1 + d x^2 y^2` with `d = -121665 / 121666`.  An
affine point is a pair of coordinates, on the curve or not.

The compressed form of a point has the encoding of `y` in its lower 255 bits and the sign of
`x` in bit 255.  A compressed form determines `x` through `x^2 = (y^2 - 1) / (d y^2 + 1)`; the
form is accepted when this ratio is a square, also when `y` is not reduced, and also when `x`
is zero and bit 255 is set.
-/

namespace HashToCurve

/-- The coefficient `d` of the curve `-x^2 + y^2 = 1 + d x^2 y^2`. -/
def edwardsD : FieldElement :=
  ⟨929955233495203, 466365720129213, 1662059464998953, 2033849074728123, 1442794654840575⟩

/-- A pair of coordinates. -/
structure AffinePoint where
  /-- The coordinate `x`. -/
  x : FieldElement
  /-- The coordinate `y`. -/
  y : FieldElement

namespace AffinePoint

/-- The neutral element of the group of points. -/
def identity : AffinePoint := ⟨0, 1⟩

instance : Inhabited AffinePoint := ⟨identity⟩

/-- Two pairs are equal when both coordinates are. -/
instance : BEq AffinePoint := ⟨fun P Q => P.x == Q.x && P.y == Q.y⟩

/-- The second pair if `choice` holds, else the first. -/
def select (P Q : AffinePoint) (choice : Bool) : AffinePoint :=
  ⟨P.x.select Q.x choice, P.y.select Q.y choice⟩

/-- Whether `-x^2 + y^2 = 1 + d x^2 y^2`. -/
def isOnCurve (P : AffinePoint) : Bool :=
  let xx := P.x.square
  let yy := P.y.square
  yy - xx == 1 + edwardsD * xx * yy

/-- The point with given coordinates, if it is on the curve. -/
def ofCoordinates? (x y : FieldElement) : Option AffinePoint :=
  let P : AffinePoint := ⟨x, y⟩
  if P.isOnCurve then some P else none

/-- The encoding of `y`, with the sign of `x` in bit 255. -/
def compress (P : AffinePoint) : Vector UInt8 32 :=
  FieldElement.setTopBit P.y.toBytes P.x.isNegative

/-- The coordinate `x` of sign `negative` of the points with coordinate `y`, if there are
any. -/
def xOfY? (y : FieldElement) (negative : Bool) : Option FieldElement :=
  let yy := y.square
  let (x, isSquare) := FieldElement.sqrtRatio (yy - 1) (edwardsD * yy + 1)
  if isSquare then some (x.negateIf negative) else none

/-- The point with a given compressed form, if there is one. -/
def decompress? (compressed : Vector UInt8 32) : Option AffinePoint :=
  let y := FieldElement.ofBytes compressed
  (xOfY? y (FieldElement.topBit compressed == 1)).map fun x => ⟨x, y⟩

/-- The text of a pair with the names of its coordinates. -/
def describe (P : AffinePoint) : String :=
  "AffinePoint \x7b x: " ++ P.x.describe ++ ", y: " ++ P.y.describe ++ " \x7d"

end AffinePoint

end HashToCurve
