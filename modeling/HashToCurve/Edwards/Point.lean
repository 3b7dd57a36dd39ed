import HashToCurve.Edwards.Affine

/-!
# The group of points

A point of `edwards25519` in extended coordinates is `(x : y : z : t)` with `z` not zero and
`x y = z t`; its affine coordinates are `x / z` and `y / z`.  The addition law has no
exceptional cases, so it doubles points as well.

A point passes to extended coordinates and back through its compressed form.
-/

namespace HashToCurve

/-- A point in extended coordinates. -/
structure EdwardsPoint where
  /-- The affine coordinate `x`, times `z`. -/
  x : FieldElement
  /-- The affine coordinate `y`, times `z`. -/
  y : FieldElement
  /-- The common denominator. -/
  z : FieldElement
  /-- The product of the affine coordinates, times `z`. -/
  t : FieldElement

namespace EdwardsPoint

/-- Two points are equal when their affine coordinates are, compared without a division. -/
instance : BEq EdwardsPoint := ⟨fun P Q => P.x * Q.z == Q.x * P.z && P.y * Q.z == Q.y * P.z⟩

/-- The extended coordinates of affine ones. -/
def ofAffine (P : AffinePoint) : EdwardsPoint := ⟨P.x, P.y, 1, P.x * P.y⟩

/-- The neutral element. -/
def identity : EdwardsPoint := ⟨0, 1, 1, 0⟩

instance : Inhabited EdwardsPoint := ⟨identity⟩

/-- The affine coordinates, as quotients by `z`. -/
def normalize (P : EdwardsPoint) : AffinePoint :=
  let r := P.z.inverse
  ⟨P.x * r, P.y * r⟩

/-- The sum of two points. -/
def add (P Q : EdwardsPoint) : EdwardsPoint :=
  let a := (P.y - P.x) * (Q.y - Q.x)
  let b := (P.y + P.x) * (Q.y + Q.x)
  let c := FieldElement.two * edwardsD * P.t * Q.t
  let d := FieldElement.two * P.z * Q.z
  let e := b - a
  let f := d - c
  let g := d + c
  let h := b + a
  ⟨e * f, g * h, f * g, e * h⟩

instance : Add EdwardsPoint := ⟨add⟩

/-- The multiple `2 P`. -/
def double (P : EdwardsPoint) : EdwardsPoint := P + P

/-- The multiple `8 P` by the cofactor of the prime-order subgroup. -/
def clearCofactor (P : EdwardsPoint) : EdwardsPoint := P.double.double.double

/-- The multiple `n P`, by halving `n`. -/
def multiple (n : Nat) (P : EdwardsPoint) : EdwardsPoint :=
  if n = 0 then identity
  else
    let twice := (multiple (n / 2) P).double
    if n % 2 = 1 then twice + P else twice
termination_by n

/-- Whether the affine coordinates are `(0, 1)`. -/
def isIdentity (P : EdwardsPoint) : Bool := P.x.isZero && P.y == P.z

/-- The order `2^252 + 27742317777372353535851937790883648493` of the prime-order subgroup. -/
def subgroupOrder : Nat :=
  0x1000000000000000000000000000000014def9dea2f79cd65812631a5cf5d3ed

/-- Whether a point is in the prime-order subgroup. -/
def isTorsionFree (P : EdwardsPoint) : Bool := (multiple subgroupOrder P).isIdentity

/-- The compressed form of the affine coordinates. -/
def compress (P : EdwardsPoint) : Vector UInt8 32 := P.normalize.compress

/-- The point with a given compressed form, if there is one. -/
def decompress? (compressed : Vector UInt8 32) : Option EdwardsPoint :=
  (AffinePoint.decompress? compressed).map ofAffine

end EdwardsPoint

namespace AffinePoint

/-- The point of the group with the compressed form of an affine point. -/
def toEdwards (P : AffinePoint) : Except Fault EdwardsPoint :=
  (EdwardsPoint.decompress? P.compress).elim (.error .affineOffCurve) .ok

/-- The affine point with the compressed form of a point of the group. -/
def ofEdwards (P : EdwardsPoint) : Except Fault AffinePoint :=
  (decompress? P.compress).elim (.error .extendedOffCurve) .ok

end AffinePoint

end HashToCurve
