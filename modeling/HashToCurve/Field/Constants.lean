import HashToCurve.Field.Basic

/-!
# Constants of the field

The elements `2`, `-1` and the square root of `-1` with an even representative.
-/

namespace HashToCurve.FieldElement

/-- The element `2`. -/
def two : FieldElement := ofWord 2

/-- The element `p - 1`. -/
def minusOne : FieldElement :=
  ⟨2251799813685228, 2251799813685247, 2251799813685247, 2251799813685247, 2251799813685247⟩

/-- The square root of `-1` with an even representative. -/
def sqrtMinusOne : FieldElement :=
  ⟨1718705420411056, 234908883556509, 2233514472574048, 2117202627021982, 765476049583133⟩

end HashToCurve.FieldElement
