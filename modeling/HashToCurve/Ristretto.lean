import HashToCurve.Edwards.Point

/-!
# The group ristretto255

An element of `ristretto255` is a class of points of `edwards25519` modulo torsion, held as
one of them.  `oneWayMap` sends 64 uniform bytes to an element: each half is mapped to a point
and the two points are added.  `encode` writes the element in 32 bytes, the same for all points
of a class.
-/

namespace HashToCurve

/-- An element of `ristretto255`, represented by a point. -/
structure RistrettoPoint where
  /-- A point of the class. -/
  representative : EdwardsPoint

namespace RistrettoPoint

open FieldElement (two minusOne sqrtMinusOne)

/-- The square root of `-d - 1` that the map uses. -/
def sqrtMinusDMinusOne : FieldElement :=
  ⟨2241493124984347, 425987919032274, 2207028919301688, 1220490630685848, 974799131293748⟩

/-- The inverse of a square root of `-1 - d`. -/
def inverseSqrtMinusOneMinusD : FieldElement :=
  ⟨278908739862762, 821645201101625, 8113234426968, 1777959178193151, 2118520810568447⟩

/-- The element `1 - d^2`. -/
def oneMinusDSquared : FieldElement :=
  ⟨1136626929484150, 1998550399581263, 496427632559748, 118527312129759, 45110755273534⟩

/-- The element `(d - 1)^2`. -/
def dMinusOneSquared : FieldElement :=
  ⟨1507062230895904, 1572317787530805, 683053064812840, 317374165784489, 1572899562415810⟩

/-- The number of uniform bytes that are mapped to an element. -/
def uniformLength : Nat := 64

/-- The one of `a` and `-a` with an even representative. -/
def magnitude (a : FieldElement) : FieldElement := a.negateIf a.isNegative

/-- The point that represents a field element. -/
def mapElement (r : FieldElement) : EdwardsPoint :=
  let i := sqrtMinusOne * r.square
  let u := (i + 1) * oneMinusDSquared
  let v := (minusOne - i * edwardsD) * (i + edwardsD)
  let (s, isSquare) := FieldElement.sqrtRatio u v
  let s := (-magnitude (s * r)).select s isSquare
  let c := i.select minusOne isSquare
  let n := c * (i - 1) * dMinusOneSquared - v
  let w0 := two * s * v
  let w1 := n * sqrtMinusDMinusOne
  let ss := s.square
  let w2 := 1 - ss
  let w3 := 1 + ss
  ⟨w0 * w3, w2 * w1, w1 * w3, w0 * w2⟩

/-- The element that 64 uniform bytes are mapped to. -/
def oneWayMap (bytes : Vector UInt8 64) : RistrettoPoint :=
  ⟨mapElement (.ofBytes (Bytes.firstHalf bytes)) + mapElement (.ofBytes (Bytes.lastHalf bytes))⟩

/-- The encoding of an element. -/
def encode (P : RistrettoPoint) : Vector UInt8 32 :=
  let Q := P.representative
  let u1 := (Q.z + Q.y) * (Q.z - Q.y)
  let u2 := Q.x * Q.y
  let (root, _) := (u1 * u2.square).inverseSqrt
  let d1 := root * u1
  let d2 := root * u2
  let zInverse := d1 * d2 * Q.t
  let rotate := (Q.t * zInverse).isNegative
  let x := Q.x.select (Q.y * sqrtMinusOne) rotate
  let y := Q.y.select (Q.x * sqrtMinusOne) rotate
  let d := d2.select (d1 * inverseSqrtMinusOneMinusD) rotate
  let y := y.negateIf (x * zInverse).isNegative
  (magnitude (d * (Q.z - y))).toBytes

end RistrettoPoint

end HashToCurve
