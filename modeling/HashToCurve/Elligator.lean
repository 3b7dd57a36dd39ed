import HashToCurve.Edwards.Point
import HashToCurve.Montgomery

/-!
# The Elligator 2 map

The map sends a field element `r`, the representative, to a point of the Montgomery curve
`v^2 = g(u)` with `g(u) = u^3 + A u^2 + u`.  With `w = 1 + 2 r^2`, the candidates for `u` are
`-A / w` and `-A - (-A / w) = -2 r^2 A / w`, and `g` is a square at exactly one of them, up to
zeros.  The first one is taken if `g` is a square there, with `v` odd, else the second one,
with `v` even.

Both cases share one square root, and no case is told apart before it is known.
-/

namespace HashToCurve

namespace Elligator

/-- The factor `-2 sqrt(-1)` of `u` in the second case. -/
def uFactor : FieldElement :=
  ⟨1066188786548365, 1781982046572228, 36570682222399, 269194373326530, 720847714518980⟩

/-- A square root of `uFactor`, the factor of `v` in the second case. -/
def vFactor : FieldElement :=
  ⟨533094393274174, 2016890930128738, 18285341111199, 134597186663265, 1486323764102114⟩

open MontgomeryPoint (coefficient negCoefficient coefficientSquared)

/-- The point of the Montgomery curve that represents `r`.

The quotient of `numerator` by `denominator` is `g(-A / w)`, and `q` is the square root of the
inverse of their product, in the sense of `FieldElement.sqrtRatio`. -/
def toMontgomery (r : FieldElement) : MontgomeryPoint :=
  let rr := r.square
  let twice := r.square2
  let w := twice + 1
  let ww := w.square
  let numerator := coefficient * (coefficientSquared * twice - ww)
  let denominator := ww * w
  let (q, isSquare) := (denominator * numerator).inverseSqrt
  let uCase := (rr * uFactor).select 1 isSquare
  let vCase := (r * vFactor).select 1 isSquare
  let v := vCase * numerator * q
  let qq := q.square
  let u := uCase * negCoefficient * numerator * ww * qq
  ⟨u, v.negateIf (isSquare ^^ v.isNegative)⟩

/-- The point of `edwards25519` that represents `r`. -/
def toEdwards (r : FieldElement) : Except Fault EdwardsPoint :=
  (toMontgomery r).toAffine.toEdwards

/-- The point of `edwards25519` that 32 bytes represent. -/
def ofRepresentative (bytes : Vector UInt8 32) : Except Fault EdwardsPoint :=
  toEdwards (.ofBytes bytes)

end Elligator

end HashToCurve
