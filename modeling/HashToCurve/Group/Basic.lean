import HashToCurve.Fault
import HashToCurve.HashToField

/-!
# Hashing to a group

A group to which messages are hashed has field elements that are mapped to points, addition
of points, and a map of the points to the subgroup of prime order.  `hash` maps two field
elements and adds their points, so that all points of the subgroup are about equally likely;
`encode` maps a single one.
-/

namespace HashToCurve

/-- What hashing to a group needs of the group. -/
structure HashGroup where
  /-- The name of the group. -/
  name : String
  /-- The field elements. -/
  Element : Type
  [fromUniformBytes : FromUniformBytes Element]
  /-- The points. -/
  Point : Type
  /-- The point of a field element. -/
  map : Element → Except Fault Point
  /-- The sum of two points. -/
  add : Point → Point → Point
  /-- The image of a point in the subgroup of prime order. -/
  clearCofactor : Point → Point
  /-- The security level in bytes. -/
  level : Nat

namespace HashGroup

attribute [instance] HashGroup.fromUniformBytes

variable (G : HashGroup) (E : Expander)

/-- The point that a field element is mapped to. -/
def mapElement (a : G.Element) : Except (Failure E.Rejection) G.Point :=
  (G.map a).mapError .fault

/-- The field elements that a message and a tag are hashed to. -/
def elements (message tag : List Bytes) (count : Nat) :
    Except (Failure E.Rejection) (Vector G.Element count) :=
  (hashToField E G.Element G.level message tag count).mapError .rejected

/-- The point that a message and a tag are hashed to, through two field elements. -/
def hash (message tag : List Bytes) : Except (Failure E.Rejection) G.Point := do
  let elements ← G.elements E message tag 2
  let P ← G.mapElement E elements[0]
  let Q ← G.mapElement E elements[1]
  return G.clearCofactor (G.add P Q)

/-- The point that a message and a tag are hashed to, through one field element. -/
def encode (message tag : List Bytes) : Except (Failure E.Rejection) G.Point := do
  let elements ← G.elements E message tag 1
  let P ← G.mapElement E elements[0]
  return G.clearCofactor P

end HashGroup

end HashToCurve
