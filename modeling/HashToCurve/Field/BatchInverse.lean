import HashToCurve.Buffer
import HashToCurve.Fault
import HashToCurve.Field.Codec
import HashToCurve.Field.Power

/-!
# Inverting many elements at once

The inverses of a list of elements take a single inversion, that of their product.  A pass
from the left pairs each element with the product of those before it.  A pass from the right
keeps the inverse of the product up to the current element: its product with the elements
before gives the inverse of the current one, its product with the current one gives the
inverse for the next step.

A zero anywhere in the list makes the product zero, and the list is refused.
-/

namespace HashToCurve.FieldElement

/-- Each element with the product of `acc` and the elements before it, and the product of
`acc` and all elements. -/
def withProductsBefore (acc : FieldElement) :
    List FieldElement → List (FieldElement × FieldElement) × FieldElement
  | [] => ([], acc)
  | a :: rest =>
    let (paired, total) := withProductsBefore (acc * a) rest
    ((a, acc) :: paired, total)

/-- The inverses of a list of pairs of an element and the product of those before it, given
the inverse of the product of all of them, and the inverse of what precedes the list. -/
def unwind (total : FieldElement) (paired : List (FieldElement × FieldElement)) :
    List FieldElement × FieldElement :=
  paired.foldr
    (fun (a, before) (inverses, acc) => (acc * before :: inverses, acc * a))
    ([], total)

/-- The inverses of a list of elements, none of which may be zero. -/
def batchInverse (inputs : List FieldElement) : Except Fault (List FieldElement) :=
  let (paired, total) := withProductsBefore 1 inputs
  if total.isZero then .error .zeroInBatch
  else .ok (unwind total.inverse paired).1

/-- Replaces the elements of a buffer by their inverses.  If one of them is zero, the buffer is
left as it was. -/
def invertAll : EStateM Fault (List FieldElement) Unit := Buffer.replaceBy batchInverse

end HashToCurve.FieldElement
