import HashToCurve.Group.Words
import HashToCurve.Hash.Keccak
import HashToCurve.Program
import HashToCurve.Suite
import HashToCurve.Proofs.Elligator.Image
import HashToCurve.Proofs.Expand.Acceptance
import HashToCurve.Proofs.Expand.Slicing
import HashToCurve.Proofs.Field.Inverse
import HashToCurve.Proofs.Field.Random
import HashToCurve.Proofs.Group.Construction
import HashToCurve.Proofs.Montgomery
import HashToCurve.Proofs.Overflow.BatchInverse
import HashToCurve.Proofs.Overflow.Product
import HashToCurve.Proofs.Overflow.Program
import HashToCurve.Proofs.Program.Registers
import HashToCurve.Proofs.Suite.Outcome
