import HashToCurve.Expand.Expander
import HashToCurve.Ristretto

/-!
# Hashing to ristretto255

A message is expanded to 64 bytes, which the one-way map sends to an element, at a security
level of 16 bytes.  The map is uniform, so there is no second way to hash.
-/

namespace HashToCurve

namespace Ristretto255

/-- The name of the group. -/
def name : String := "Ristretto255"

/-- The security level in bytes. -/
def level : Nat := 16

/-- The element that a message and a tag are hashed to. -/
def hash (E : Expander) (message tag : List Bytes) : Except E.Rejection RistrettoPoint :=
  (E.start level message tag RistrettoPoint.uniformLength).map fun s =>
    .oneWayMap (E.fillVector (Vector.replicate RistrettoPoint.uniformLength 0) s).1

end Ristretto255

end HashToCurve
