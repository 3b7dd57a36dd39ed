import HashToCurve.Elligator
import HashToCurve.Field.BatchInverse

/-!
# Programs over registers

A program is a list of instructions on a list of registers that hold field elements.  An
instruction appends its result as new registers, or changes registers in place, or only
observes them.  A range of registers includes both ends, and is empty if it ends before it
starts.  An instruction that cannot be carried out leaves the registers as they are,
and the program goes on.

What the registers hold and how it is computed is left to an arithmetic, a record of functions
in a monad.  `limbs` is the arithmetic of field elements.
-/

namespace HashToCurve

/-- The constants. -/
inductive Constant where
  | zero
  | one
  | two
  | minusOne
  | sqrtMinusOne
  | coefficient
  | negCoefficient
  | coefficientSquared
  | scale
  | uFactor
  | vFactor
  | edwardsD
  deriving DecidableEq, Repr

/-- The element that is a constant. -/
def Constant.value : Constant → FieldElement
  | zero => 0
  | one => 1
  | two => .two
  | minusOne => .minusOne
  | sqrtMinusOne => .sqrtMinusOne
  | coefficient => MontgomeryPoint.coefficient
  | negCoefficient => MontgomeryPoint.negCoefficient
  | coefficientSquared => MontgomeryPoint.coefficientSquared
  | scale => MontgomeryPoint.scale
  | uFactor => Elligator.uFactor
  | vFactor => Elligator.vFactor
  | edwardsD => HashToCurve.edwardsD

/-- A function of one element. -/
inductive UnaryOperation where
  | identity
  | neg
  | square
  | square2
  | inverse
  | powP58
  deriving DecidableEq, Repr

/-- The value of a function of one element. -/
def UnaryOperation.apply : UnaryOperation → FieldElement → FieldElement
  | .identity, a => a
  | .neg, a => -a
  | .square, a => a.square
  | .square2, a => a.square2
  | .inverse, a => a.inverse
  | .powP58, a => a.powP58

/-- A function of two elements. -/
inductive BinaryOperation where
  | add
  | sub
  | mul
  deriving DecidableEq, Repr

/-- The value of a function of two elements. -/
def BinaryOperation.apply : BinaryOperation → FieldElement → FieldElement → FieldElement
  | .add, a, b => a + b
  | .sub, a, b => a - b
  | .mul, a, b => a * b

/-- The instructions, with registers named by their numbers. -/
inductive Instruction where
  /-- Appends a constant. -/
  | constant (c : Constant)
  /-- Appends the element of an encoding of any length. -/
  | load (bytes : Bytes)
  /-- Appends the element of 64 bytes. -/
  | loadWide (bytes : Vector UInt8 64)
  /-- Appends the element of 48 uniform bytes. -/
  | loadUniform (bytes : Vector UInt8 48)
  /-- Appends a function of one register. -/
  | unary (op : UnaryOperation) (i : Nat)
  /-- Appends a function of two registers. -/
  | binary (op : BinaryOperation) (i j : Nat)
  /-- Appends the power of a register with exponent `2^k`. -/
  | pow2k (i k : Nat)
  /-- Appends register `j` if `choice` holds, else register `i`. -/
  | select (i j : Nat) (choice : Bool)
  /-- Appends the sum of the registers from `i` to `j`. -/
  | sum (i j : Nat)
  /-- Appends the product of the registers from `i` to `j`. -/
  | product (i j : Nat)
  /-- Appends the square root of the ratio of two registers. -/
  | sqrtRatio (i j : Nat)
  /-- Appends the square root of the inverse of a register. -/
  | inverseSqrt (i : Nat)
  /-- Appends the coordinates of the Montgomery point that represents a register. -/
  | toMontgomery (i : Nat)
  /-- Appends the affine coordinates that the rational map has for two registers. -/
  | toAffine (i j : Nat)
  /-- Observes whether two registers are equal. -/
  | equal (i j : Nat)
  /-- Observes whether a register is zero. -/
  | isZero (i : Nat)
  /-- Observes the sign of a register. -/
  | isNegative (i : Nat)
  /-- Replaces register `i` by a function of registers `i` and `j`. -/
  | update (op : BinaryOperation) (i j : Nat)
  /-- Replaces register `i` by register `j` if `choice` holds. -/
  | assign (i j : Nat) (choice : Bool)
  /-- Replaces a register by its opposite if `choice` holds. -/
  | negate (i : Nat) (choice : Bool)
  /-- Replaces a register by zero. -/
  | clear (i : Nat)
  /-- Exchanges two registers if `choice` holds. -/
  | swap (i j : Nat) (choice : Bool)
  /-- Replaces the registers from `i` to `j` by their inverses. -/
  | batchInverse (i j : Nat)

/-- What an instruction shows, with elements of type `α`. -/
inductive View (α : Type) where
  /-- One element. -/
  | element (a : α)
  /-- Several elements. -/
  | elements (as : List α)
  /-- A square root, and whether it is one of the ratio asked for. -/
  | root (a : α) (isSquare : Bool)
  /-- A truth value. -/
  | flag (b : Bool)

/-- What an instruction on field elements shows. -/
abbrev Observation := View FieldElement

/-- Why an instruction cannot be carried out. -/
inductive Obstacle where
  /-- An encoding that has not 32 bytes. -/
  | invalidLength
  /-- A register that does not exist. -/
  | noRegister
  /-- A broken precondition. -/
  | fault (broken : Fault)

/-- What programs compute with: elements of type `α`, by functions in a monad `m`. -/
structure Arithmetic (m : Type → Type) (α : Type) where
  constant : Constant → m α
  ofBytes? : Bytes → m (Option α)
  ofWideBytes : Vector UInt8 64 → m α
  ofUniformBytes : Vector UInt8 48 → m α
  unary : UnaryOperation → α → m α
  binary : BinaryOperation → α → α → m α
  pow2k : α → Nat → m α
  select : α → α → Bool → m α
  negateIf : α → Bool → m α
  swapIf : α → α → Bool → m (α × α)
  sum : List α → m α
  product : List α → m α
  sqrtRatio : α → α → m (α × Bool)
  inverseSqrt : α → m (α × Bool)
  toMontgomery : α → m (α × α)
  toAffine : α → α → m (α × α)
  equal : α → α → m Bool
  isZero : α → m Bool
  isNegative : α → m Bool
  batchInverse : List α → m (Except Fault (List α))

/-- The arithmetic of field elements. -/
def limbs : Arithmetic Id FieldElement where
  constant c := c.value
  ofBytes? bytes := FieldElement.ofBytes? bytes
  ofWideBytes bytes := FieldElement.ofWideBytes bytes
  ofUniformBytes bytes := FieldElement.ofUniformBytes bytes
  unary op a := op.apply a
  binary op a b := op.apply a b
  pow2k a k := a.pow2k k
  select a b choice := a.select b choice
  negateIf a choice := a.negateIf choice
  swapIf a b choice := a.swapIf b choice
  sum as := FieldElement.sum as
  product as := FieldElement.product as
  sqrtRatio u v := FieldElement.sqrtRatio u v
  inverseSqrt a := a.inverseSqrt
  toMontgomery r := ((Elligator.toMontgomery r).u, (Elligator.toMontgomery r).v)
  toAffine u v := ((MontgomeryPoint.mk u v).toAffine.x, (MontgomeryPoint.mk u v).toAffine.y)
  equal a b := a == b
  isZero a := a.isZero
  isNegative a := a.isNegative
  batchInverse as := FieldElement.batchInverse as

namespace Instruction

section Registers

variable {α : Type} (regs : List α)

/-- The content of a register. -/
def read (i : Nat) : Except Obstacle α :=
  match regs[i]? with
  | some a => .ok a
  | none => .error .noRegister

/-- The contents of the registers from `i` to `j`, of which there are none if `j < i`. -/
def readRange (i j : Nat) : Except Obstacle (List α) :=
  if j < i ∨ j < regs.length then .ok ((regs.drop i).take (j + 1 - i))
  else .error .noRegister

/-- The registers with those from `i` on replaced, as many as there are elements given. -/
def replaceRange (i : Nat) (as : List α) : List α :=
  regs.take i ++ as ++ regs.drop (i + as.length)

/-- The registers from `i` on hold the elements given, in order, and the others keep theirs. -/
theorem getElem?_replaceRange {i : Nat} {as : List α} (h : as.length ≤ regs.length - i) (k : Nat) :
  (replaceRange regs i as)[k]?
    = if i ≤ k ∧ k < i + as.length then as[k - i]? else regs[k]?
  := by
  rw [replaceRange, List.append_assoc]
  by_cases hi : i ≤ regs.length
  · have htake : (regs.take i).length = i := List.length_take_of_le hi
    by_cases hik : i ≤ k
    · rw [List.getElem?_append_right (by omega), htake]
      by_cases hk : k < i + as.length
      · rw [List.getElem?_append_left (by omega), if_pos ⟨hik, hk⟩]
      · rw [List.getElem?_append_right (by omega), List.getElem?_drop, if_neg fun h => hk h.2]
        congr 1
        omega
    · rw [List.getElem?_append_left (by omega), List.getElem?_take_of_lt (by omega),
        if_neg fun h => hik h.1]
  · have has : as = [] := List.length_eq_zero_iff.mp (by omega)
    rw [has, List.nil_append, List.length_nil, Nat.add_zero, List.take_append_drop,
      if_neg (by omega)]

/-- The outcome of an instruction that appends its one result. -/
def append (a : α) : View α × List α := (.element a, regs ++ [a])

/-- The outcome of an instruction that replaces one register. -/
def replace (i : Nat) (a : α) : View α × List α := (.element a, regs.set i a)

/-- A replaced register holds the new element, and the others keep theirs. -/
theorem getElem?_replace {i : Nat} (hi : i < regs.length) (a : α) (k : Nat) :
  (replace regs i a).2[k]? = if k = i then some a else regs[k]?
  := by
  rw [replace, List.getElem?_set]
  by_cases hk : k = i
  · rw [if_pos hk.symm, if_pos hi, if_pos hk]
  · rw [if_neg (Ne.symm hk), if_neg hk]

/-- Exchanged registers hold the two elements, the second one if they are the same register, and the
others keep theirs. -/
theorem getElem?_exchange {i j : Nat} (hi : i < regs.length) (hj : j < regs.length) (a b : α)
    (k : Nat) :
  ((regs.set i a).set j b)[k]? = if k = j then some b else if k = i then some a else regs[k]?
  := by
  have hj' : j < (regs.set i a).length := List.length_set.symm ▸ hj
  calc ((regs.set i a).set j b)[k]?
      = if k = j then some b else (regs.set i a)[k]? := getElem?_replace _ hj' b k
    _ = if k = j then some b else if k = i then some a else regs[k]? := by
      rw [← getElem?_replace regs hi a k, replace]

variable {m : Type → Type} [Monad m] (M : Arithmetic m α)

/-- The outcome of an instruction: what it shows, and the registers after it. -/
def step : Instruction → ExceptT Obstacle m (View α × List α)
  | constant c => return append regs (← M.constant c)
  | load bytes => do
    match ← M.ofBytes? bytes with
    | some a => return append regs a
    | none => throw .invalidLength
  | loadWide bytes => return append regs (← M.ofWideBytes bytes)
  | loadUniform bytes => return append regs (← M.ofUniformBytes bytes)
  | unary op i => return append regs (← M.unary op (← read regs i))
  | binary op i j => return append regs (← M.binary op (← read regs i) (← read regs j))
  | pow2k i k => return append regs (← M.pow2k (← read regs i) k)
  | select i j choice =>
    return append regs (← M.select (← read regs i) (← read regs j) choice)
  | sum i j => return append regs (← M.sum (← readRange regs i j))
  | product i j => return append regs (← M.product (← readRange regs i j))
  | sqrtRatio i j => do
    let (root, isSquare) ← M.sqrtRatio (← read regs i) (← read regs j)
    return (.root root isSquare, regs ++ [root])
  | inverseSqrt i => do
    let (root, isSquare) ← M.inverseSqrt (← read regs i)
    return (.root root isSquare, regs ++ [root])
  | toMontgomery i => do
    let (u, v) ← M.toMontgomery (← read regs i)
    return (.elements [u, v], regs ++ [u, v])
  | toAffine i j => do
    let (x, y) ← M.toAffine (← read regs i) (← read regs j)
    return (.elements [x, y], regs ++ [x, y])
  | equal i j => return (.flag (← M.equal (← read regs i) (← read regs j)), regs)
  | isZero i => return (.flag (← M.isZero (← read regs i)), regs)
  | isNegative i => return (.flag (← M.isNegative (← read regs i)), regs)
  | update op i j =>
    return replace regs i (← M.binary op (← read regs i) (← read regs j))
  | assign i j choice =>
    return replace regs i (← M.select (← read regs i) (← read regs j) choice)
  | negate i choice => return replace regs i (← M.negateIf (← read regs i) choice)
  | clear i => do
    let _ ← read regs i
    return replace regs i (← M.constant .zero)
  | swap i j choice => do
    let (a, b) ← M.swapIf (← read regs i) (← read regs j) choice
    return (.elements [a, b], (regs.set i a).set j b)
  | batchInverse i j => do
    match ← M.batchInverse (← readRange regs i j) with
    | .ok inverses => return (.elements inverses, replaceRange regs i inverses)
    | .error broken => throw (.fault broken)

/-- What an outcome shows, and the registers after it, which are those before it if there is an
obstacle. -/
def settle : Except Obstacle (View α × List α) → Except Obstacle (View α) × List α
  | .ok (view, after) => (.ok view, after)
  | .error obstacle => (.error obstacle, regs)

/-- What each instruction of a program shows, in order, and the registers after the program. -/
def runWith : List α → List Instruction → m (List (Except Obstacle (View α)) × List α)
  | regs, [] => return ([], regs)
  | regs, instruction :: rest => do
    let (view, regs) := settle regs (← (step regs M instruction).run)
    let (views, regs) ← runWith regs rest
    return (view :: views, regs)

end Registers

/-- What each instruction of a program on field elements shows, in order. -/
def run (regs : List FieldElement) (program : List Instruction) :
    List (Except Obstacle Observation) :=
  (runWith limbs regs program).run.1

end Instruction

end HashToCurve
