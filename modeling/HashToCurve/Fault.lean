/-!
# Faults

A fault is a broken precondition of a computation.  Unlike a rejected request, it has no
meaning for the caller: the computation stops.
-/

namespace HashToCurve

/-- A broken precondition. -/
inductive Fault where
  /-- A zero among the elements to be inverted together. -/
  | zeroInBatch
  /-- Affine coordinates that no point of the curve has. -/
  | affineOffCurve
  /-- Extended coordinates that no point of the curve has. -/
  | extendedOffCurve
  /-- A suite with its own domain separation tag that rejects a message. -/
  | defaultsRejected
  deriving DecidableEq, Repr

namespace Fault

/-- The text a fault is reported with. -/
def message : Fault → String
  | .zeroInBatch => "batch_invert input contains zero"
  | .affineOffCurve => "affine point is on the curve"
  | .extendedOffCurve => "edwards point is on the curve"
  | .defaultsRejected => "should never fail with the given `ExpandMsg` and `dst`"

end Fault

/-- What stops a computation on a request: a rejection of the request, or a fault. -/
inductive Failure (ε : Type) where
  /-- The request is rejected. -/
  | rejected (reason : ε)
  /-- A precondition is broken. -/
  | fault (broken : Fault)
  deriving DecidableEq, Repr

namespace Failure

/-- A failure with its reason of rejection changed. -/
def map {ε δ : Type} (f : ε → δ) : Failure ε → Failure δ
  | .rejected reason => .rejected (f reason)
  | .fault broken => .fault broken

end Failure

end HashToCurve
