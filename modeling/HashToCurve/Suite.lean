import HashToCurve.Buffer
import HashToCurve.Expand.Xmd
import HashToCurve.Expand.Xof
import HashToCurve.Group.Edwards25519
import HashToCurve.Group.Ristretto255
import HashToCurve.Hash.Sha2

/-!
# Suites

A suite fixes a group, a kind of expander and a way to hash; the hash function, the tag and
the message are given.  The suites of `edwards25519` hash through two field elements (`RO`) or
one (`NU`).  Two more functions fix the hash function SHA-512 and a tag as well.

`overwriteXmd` and `overwriteXof` expose the expanders alone: they overwrite a buffer with the
expansion of a message, at the security level of the suites.
-/

namespace HashToCurve

namespace Suite

/-- Why a request is rejected by a codec or a suite. -/
inductive Rejection where
  /-- A byte string has not the length it must have. -/
  | invalidLength
  /-- The expander by a hash function with fixed output rejects the request. -/
  | xmd (reason : Xmd.Rejection)
  /-- The expander by an extendable hash function rejects the request. -/
  | xof (reason : Xof.Rejection)
  deriving DecidableEq, Repr

/-- The text a rejection is reported with. -/
def Rejection.message : Rejection → String
  | .invalidLength => "invalid input length"
  | .xmd reason => "expand_message_xmd: " ++ reason.message
  | .xof reason => "expand_message_xof: " ++ reason.message

/-- The text of the rejection that one stems from. -/
def Rejection.cause? : Rejection → Option String
  | .invalidLength => none
  | .xmd reason => some reason.message
  | .xof reason => some reason.message

/-- The security level of the suites in bytes. -/
def level : Nat := 16

/-- Overwrites a buffer with the expansion of a message.  If the request is rejected, the
buffer is left as it was. -/
def overwrite (E : Expander) (reject : E.Rejection → Rejection) (tag message : Bytes) :
    EStateM Rejection Bytes Unit :=
  Buffer.replaceBy fun buffer =>
    ((E.start level [message] [tag] buffer.length).map fun s => (E.fill buffer s).1).mapError
      reject

/-- Overwrites a buffer with the expansion of a message by a hash function with fixed
output. -/
def overwriteXmd (H : FixedHash) (tag message : Bytes) : EStateM Rejection Bytes Unit :=
  overwrite (Xmd.expander H) .xmd tag message

/-- Overwrites a buffer with the expansion of a message by an extendable hash function. -/
def overwriteXof (X : ExtendableHash) (tag message : Bytes) : EStateM Rejection Bytes Unit :=
  overwrite (Xof.expander X) .xof tag message

variable (H : FixedHash) (X : ExtendableHash) (tag message : Bytes)

/-- The suite of `edwards25519` with a hash function with fixed output and two elements. -/
def edwardsXmdRO : Except (Failure Rejection) EdwardsPoint :=
  (edwards25519.hash (Xmd.expander H) [message] [tag]).mapError (.map .xmd)

/-- The suite of `edwards25519` with a hash function with fixed output and one element. -/
def edwardsXmdNU : Except (Failure Rejection) EdwardsPoint :=
  (edwards25519.encode (Xmd.expander H) [message] [tag]).mapError (.map .xmd)

/-- The suite of `edwards25519` with an extendable hash function and two elements. -/
def edwardsXofRO : Except (Failure Rejection) EdwardsPoint :=
  (edwards25519.hash (Xof.expander X) [message] [tag]).mapError (.map .xof)

/-- The suite of `edwards25519` with an extendable hash function and one element. -/
def edwardsXofNU : Except (Failure Rejection) EdwardsPoint :=
  (edwards25519.encode (Xof.expander X) [message] [tag]).mapError (.map .xof)

/-- The suite of `ristretto255` with a hash function with fixed output. -/
def ristrettoXmdRO : Except Rejection RistrettoPoint :=
  (Ristretto255.hash (Xmd.expander H) [message] [tag]).mapError .xmd

/-- The suite of `ristretto255` with an extendable hash function. -/
def ristrettoXofRO : Except Rejection RistrettoPoint :=
  (Ristretto255.hash (Xof.expander X) [message] [tag]).mapError .xof

/-- The tag of `hashDefault`. -/
def defaultHashTag : String := "edwards25519_XMD:SHA-512_ELL2_RO_"

/-- The tag of `encodeDefault`. -/
def defaultEncodeTag : String := "edwards25519_XMD:SHA-512_ELL2_NU_"

/-- The outcome of a suite that is not to reject any message. -/
def neverRejected {α : Type} : Except (Failure Rejection) α → Except Fault α
  | .ok a => .ok a
  | .error (.rejected _) => .error .defaultsRejected
  | .error (.fault broken) => .error broken

/-- The point of `edwards25519` that a message is hashed to with SHA-512 through two
elements. -/
def hashDefault (message : Bytes) : Except Fault EdwardsPoint :=
  neverRejected (edwardsXmdRO sha512 (Bytes.ofAscii defaultHashTag) message)

/-- The point of `edwards25519` that a message is hashed to with SHA-512 through one
element. -/
def encodeDefault (message : Bytes) : Except Fault EdwardsPoint :=
  neverRejected (edwardsXmdNU sha512 (Bytes.ofAscii defaultEncodeTag) message)

end Suite

end HashToCurve
