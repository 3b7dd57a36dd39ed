/-!
# Field elements

A field element is an integer modulo `p = 2^255 - 19`, held as five limbs in radix `2^51`.
The limbs are 64-bit words and need not be below `2^51`, so one residue has many limb
vectors; `toNat` is the number that the limbs write, and `p` divides the difference of two
such numbers exactly when they denote the same residue.

`carry` moves the part of each limb above `2^51` into the next limb, and the part above the
top limb into the lowest one through `2^255 = 19`.
-/

namespace HashToCurve

/-- An integer modulo `2^255 - 19`, as the limb vector `l0 + l1 * 2^51 + … + l4 * 2^204`. -/
structure FieldElement where
  /-- The limb of weight `1`. -/
  l0 : UInt64
  /-- The limb of weight `2^51`. -/
  l1 : UInt64
  /-- The limb of weight `2^102`. -/
  l2 : UInt64
  /-- The limb of weight `2^153`. -/
  l3 : UInt64
  /-- The limb of weight `2^204`. -/
  l4 : UInt64

namespace FieldElement

/-- The prime `2^255 - 19`. -/
def modulus : Nat := 0x7fffffffffffffffffffffffffffffffffffffffffffffffffffffffffffffed

/-- The weight `2^51` of a limb, in terms of the limb below it. -/
def radix : Nat := 0x8000000000000

/-- The number written by the limbs. -/
def toNat (a : FieldElement) : Nat :=
  a.l0.toNat + radix * (a.l1.toNat + radix * (a.l2.toNat + radix * (a.l3.toNat
    + radix * a.l4.toNat)))

instance : Zero FieldElement := ⟨⟨0, 0, 0, 0, 0⟩⟩

instance : One FieldElement := ⟨⟨1, 0, 0, 0, 0⟩⟩

instance : Inhabited FieldElement := ⟨0⟩

/-- The element of a 64-bit word. -/
def ofWord (x : UInt64) : FieldElement := ⟨x, 0, 0, 0, 0⟩

/-- The lower 51 bits of a word. -/
@[inline]
def low51 (x : UInt64) : UInt64 := x &&& 0x7ffffffffffff

/-- The part of every limb above `2^51` moved into the next limb, that of the top limb into
the lowest one, multiplied by 19. -/
@[inline]
def carry (a : FieldElement) : FieldElement where
  l0 := low51 a.l0 + (a.l4 >>> 51) * 19
  l1 := low51 a.l1 + (a.l0 >>> 51)
  l2 := low51 a.l2 + (a.l1 >>> 51)
  l3 := low51 a.l3 + (a.l2 >>> 51)
  l4 := low51 a.l4 + (a.l3 >>> 51)

/-- The second element if `choice` holds, else the first. -/
def select (a b : FieldElement) (choice : Bool) : FieldElement :=
  if choice then b else a

/-- The two elements, exchanged if `choice` holds. -/
def swapIf (a b : FieldElement) (choice : Bool) : FieldElement × FieldElement :=
  (select a b choice, select b a choice)

end FieldElement

end HashToCurve
