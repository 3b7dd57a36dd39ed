import HashToCurve.Field.Arithmetic

/-!
# Fixed powers

The inverse `a^(p - 2)` and the power `a^((p - 5) / 8)` share the powers `a^(2^250 - 1)` and
`a^11`, which `sharedPowers` reaches with few products: each step raises a power whose
exponent is a run of ones in binary to a longer run.
-/

namespace HashToCurve.FieldElement

/-- The powers `a^(2^250 - 1)` and `a^11`. -/
def sharedPowers (a : FieldElement) : FieldElement × FieldElement :=
  let e2 := a.square
  let e8 := e2.pow2k 2
  let e9 := a * e8
  let e11 := e2 * e9
  let e22 := e11.square
  let ones5 := e9 * e22
  let ones10 := ones5.pow2k 5 * ones5
  let ones20 := ones10.pow2k 10 * ones10
  let ones40 := ones20.pow2k 20 * ones20
  let ones50 := ones40.pow2k 10 * ones10
  let ones100 := ones50.pow2k 50 * ones50
  let ones200 := ones100.pow2k 100 * ones100
  let ones250 := ones200.pow2k 50 * ones50
  (ones250, e11)

/-- The inverse of an element as its power with exponent `p - 2 = 2^5 (2^250 - 1) + 11`.  The
inverse of zero is zero. -/
def inverse (a : FieldElement) : FieldElement :=
  let (ones250, e11) := a.sharedPowers
  ones250.pow2k 5 * e11

/-- The power with exponent `(p - 5) / 8 = 2^2 (2^250 - 1) + 1`. -/
def powP58 (a : FieldElement) : FieldElement :=
  a.sharedPowers.1.pow2k 2 * a

end HashToCurve.FieldElement
