import HashToCurve.Expand.Expander
import HashToCurve.Expand.Tag
import HashToCurve.Hash.Basic

/-!
# Expansion by an extendable hash function

The stream is the output of the function for the message, the number of bytes wanted and the
framed tag.  It never runs dry.  A long tag is replaced by as many bytes of output as the
security level demands.
-/

namespace HashToCurve

namespace Xof

/-- Why a request is rejected. -/
inductive Rejection where
  /-- The tag has no bytes. -/
  | emptyTag
  /-- The security level demands too many bytes to stand in for a long tag. -/
  | securityLevel
  /-- No bytes are wanted, or too many. -/
  | length
  deriving DecidableEq, Repr

/-- The text a rejection is reported with. -/
def Rejection.message : Rejection → String
  | .emptyTag => "the domain separation tag is empty"
  | .securityLevel =>
    "the security level is too high to hash an oversized domain separation tag"
  | .length => "the requested output length is out of range"

variable (X : ExtendableHash)

/-- What is given to the function. -/
def readerInput (message : List Bytes) (length : UInt16) (tag : Tag) : Bytes :=
  message.flatten ++ Bytes.ofNatBE 2 length.toNat ++ tag.framed

/-- The tag of a list of slices; a long one is replaced by `2 * level` bytes of output. -/
def tag (level : Nat) (slices : List Bytes) : Except Rejection Tag :=
  Tag.ofSlices (X.squeeze (2 * level)) .emptyTag .securityLevel slices

/-- The stream for a request, unless the request is rejected. -/
def start (level : Nat) (message tag : List Bytes) (length : Nat) :
    Except Rejection X.Reader :=
  match Expander.lengthWord? length with
  | none => .error .length
  | some word => (Xof.tag X level tag).map fun t => X.reader (readerInput message word t)

/-- The expander of an extendable hash function. -/
def expander : Expander where
  Rejection := Rejection
  message := Rejection.message
  Stream := X.Reader
  start := start X
  next? s := some (ByteSource.next s)
  describe _ := "ExpanderXof \x7b .. \x7d"

end Xof

end HashToCurve
