import HashToCurve.Field.Basic
import HashToCurve.Field.Wide

/-!
# Field arithmetic

Sums, differences, products and powers `a^(2^k)` of limb vectors.  A sum or a difference is
taken limb by limb and then carried; a difference first adds a multiple of `p` whose limbs
exceed those of the subtrahend.  A product is taken column by column in 128-bit words: the
columns above the top limb fold in through `2^255 = 19`.

Products are right for factors whose limbs are below `2^54`.  All results have limbs below
`2^51 + 2^15`, except for those of `square2`, which doubles limbs without a carry.
-/

namespace HashToCurve.FieldElement

/-- The limb of weight `1` of `16 p`. -/
def lowLimbOfMultiple : UInt64 := 36028797018963664

/-- The other limbs of `16 p`. -/
def highLimbOfMultiple : UInt64 := 36028797018963952

/-- The sum of two elements. -/
def add (a b : FieldElement) : FieldElement :=
  carry ⟨a.l0 + b.l0, a.l1 + b.l1, a.l2 + b.l2, a.l3 + b.l3, a.l4 + b.l4⟩

instance : Add FieldElement := ⟨add⟩

/-- The difference of two elements, of which the second has limbs below `2^54`. -/
def sub (a b : FieldElement) : FieldElement :=
  carry
    ⟨a.l0 + lowLimbOfMultiple - b.l0,
      a.l1 + highLimbOfMultiple - b.l1,
      a.l2 + highLimbOfMultiple - b.l2,
      a.l3 + highLimbOfMultiple - b.l3,
      a.l4 + highLimbOfMultiple - b.l4⟩

instance : Sub FieldElement := ⟨sub⟩

/-- The opposite of an element. -/
def neg (a : FieldElement) : FieldElement := 0 - a

instance : Neg FieldElement := ⟨neg⟩

/-- The limbs of five column sums: the upper part of each column moves into the next one,
that of the top column into the lowest limb, multiplied by 19. -/
@[inline]
def ofColumns (c0 c1 c2 c3 c4 : Wide) : FieldElement :=
  let c1 := c1 + .ofWord c0.shiftRight51
  let c2 := c2 + .ofWord c1.shiftRight51
  let c3 := c3 + .ofWord c2.shiftRight51
  let c4 := c4 + .ofWord c3.shiftRight51
  let l0 := low51 c0.lo + c4.shiftRight51 * 19
  ⟨low51 l0, low51 c1.lo + (l0 >>> 51), low51 c2.lo, low51 c3.lo, low51 c4.lo⟩

open Wide (mulWords)

/-- The product of two elements with limbs below `2^54`. -/
def mul (a b : FieldElement) : FieldElement :=
  let b1 := b.l1 * 19
  let b2 := b.l2 * 19
  let b3 := b.l3 * 19
  let b4 := b.l4 * 19
  ofColumns
    (mulWords a.l0 b.l0 + mulWords a.l4 b1 + mulWords a.l3 b2 + mulWords a.l2 b3
      + mulWords a.l1 b4)
    (mulWords a.l1 b.l0 + mulWords a.l0 b.l1 + mulWords a.l4 b2 + mulWords a.l3 b3
      + mulWords a.l2 b4)
    (mulWords a.l2 b.l0 + mulWords a.l1 b.l1 + mulWords a.l0 b.l2 + mulWords a.l4 b3
      + mulWords a.l3 b4)
    (mulWords a.l3 b.l0 + mulWords a.l2 b.l1 + mulWords a.l1 b.l2 + mulWords a.l0 b.l3
      + mulWords a.l4 b4)
    (mulWords a.l4 b.l0 + mulWords a.l3 b.l1 + mulWords a.l2 b.l2 + mulWords a.l1 b.l3
      + mulWords a.l0 b.l4)

instance : Mul FieldElement := ⟨mul⟩

/-- The square of an element with limbs below `2^54`.  Equal products of a column are taken
once and doubled. -/
def square (a : FieldElement) : FieldElement :=
  let a3 := 19 * a.l3
  let a4 := 19 * a.l4
  ofColumns
    (mulWords a.l0 a.l0 + (mulWords a.l1 a4 + mulWords a.l2 a3).double)
    (mulWords a.l3 a3 + (mulWords a.l0 a.l1 + mulWords a.l2 a4).double)
    (mulWords a.l1 a.l1 + (mulWords a.l0 a.l2 + mulWords a.l4 a3).double)
    (mulWords a.l4 a4 + (mulWords a.l0 a.l3 + mulWords a.l1 a.l2).double)
    (mulWords a.l2 a.l2 + (mulWords a.l0 a.l4 + mulWords a.l1 a.l3).double)

/-- The power `a^(2^k)`, by `k` squarings. -/
def pow2k (a : FieldElement) : (k : Nat) → FieldElement
  | 0 => a
  | k + 1 => pow2k a.square k

/-- Twice the square, its limbs doubled without a carry. -/
def square2 (a : FieldElement) : FieldElement :=
  let s := a.square
  ⟨s.l0 * 2, s.l1 * 2, s.l2 * 2, s.l3 * 2, s.l4 * 2⟩

/-- The opposite of an element if `choice` holds, else the element. -/
def negateIf (a : FieldElement) (choice : Bool) : FieldElement := a.select (-a) choice

/-- The sum of a list, `0` for the empty one. -/
def sum : List FieldElement → FieldElement
  | [] => 0
  | a :: rest => rest.foldl (· + ·) a

/-- The product of a list, `1` for the empty one. -/
def product : List FieldElement → FieldElement
  | [] => 1
  | a :: rest => rest.foldl (· * ·) a

end HashToCurve.FieldElement
