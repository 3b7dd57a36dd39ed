import HashToCurve.Field.Codec
import HashToCurve.Field.Constants
import HashToCurve.Field.Power

/-!
# Square roots of ratios

`sqrtRatio u v` computes a square root of `u / v` without an inversion, and tells whether
there is one.  With `i` the square root of `-1`, the root has an even representative and is

* `0` with `true`, if `u` is zero,
* `0` with `false`, if `v` is zero and `u` is not,
* a root of `u / v` with `true`, if `u / v` is a nonzero square,
* a root of `i * u / v` with `false`, if `u / v` is not a square.
-/

namespace HashToCurve.FieldElement

/-- The square root of `u / v` with an even representative, or that of `i * u / v` if `u / v`
is not a square, and whether `u / v` is a square.

The candidate is `r = u v^3 (u v^7)^((p - 5) / 8)`, and `v r^2` is `u` times a fourth root of
unity: if that is `-1` or `-i`, the root sought is `i * r`. -/
def sqrtRatio (u v : FieldElement) : FieldElement × Bool :=
  let v3 := v.square * v
  let v7 := v3.square * v
  let r := u * v3 * (u * v7).powP58
  let check := v * r.square
  let correct := check == u
  let flipped := check == -u
  let flippedByRoot := check == -u * sqrtMinusOne
  let r := r.select (sqrtMinusOne * r) (flipped || flippedByRoot)
  (r.negateIf r.isNegative, correct || flipped)

/-- The square root of `1 / a`, in the sense of `sqrtRatio`. -/
def inverseSqrt (a : FieldElement) : FieldElement × Bool := sqrtRatio 1 a

end HashToCurve.FieldElement
