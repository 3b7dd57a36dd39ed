import HashToCurve.Group.Basic

/-!
# The group of 32-bit words

The words of 32 bits under addition modulo `2^32`, with the identity as the map from field
elements and multiplication by 8 in place of clearing a cofactor.
-/

namespace HashToCurve

/-- The words of 32 bits under addition, at a given security level. -/
def wordGroup (level : Nat) : HashGroup where
  name := "Words"
  Element := UInt32
  Point := UInt32
  map w := .ok w
  add v w := v + w
  clearCofactor w := w * 8
  level := level

end HashToCurve
