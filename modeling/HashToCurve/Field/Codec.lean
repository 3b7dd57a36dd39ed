import HashToCurve.Bytes.Hex
import HashToCurve.Bytes.Source
import HashToCurve.Field.Arithmetic

/-!
# Encodings of field elements

An element is written as its representative in `[0, p)` in 32 bytes, least significant byte
first.  Reading ignores bit 255 and takes the number modulo `p`, so some elements have more
than one encoding that is read.  Equality, the sign and the texts of an element all go
through the written form, and so depend on the residue alone.

Longer byte strings are read modulo `p` as well: `ofWideBytes` reads 64 bytes, least
significant byte first, and `ofUniformBytes` reads 48 bytes, most significant byte first.
-/

namespace HashToCurve.FieldElement

/-- The 64-bit word at eight bytes of an encoding, the first of which is at `start`. -/
def loadWord (b : Vector UInt8 32) (start : Nat) (h : start + 7 < 32) : UInt64 :=
  b[start].toUInt64
    ||| (b[start + 1].toUInt64 <<< 8)
    ||| (b[start + 2].toUInt64 <<< 16)
    ||| (b[start + 3].toUInt64 <<< 24)
    ||| (b[start + 4].toUInt64 <<< 32)
    ||| (b[start + 5].toUInt64 <<< 40)
    ||| (b[start + 6].toUInt64 <<< 48)
    ||| (b[start + 7].toUInt64 <<< 56)

/-- The element that 32 bytes write, least significant byte first, without bit 255. -/
def ofBytes (b : Vector UInt8 32) : FieldElement where
  l0 := low51 (loadWord b 0 (by decide))
  l1 := low51 (loadWord b 6 (by decide) >>> 3)
  l2 := low51 (loadWord b 12 (by decide) >>> 6)
  l3 := low51 (loadWord b 19 (by decide) >>> 1)
  l4 := low51 (loadWord b 24 (by decide) >>> 12)

/-- The element that a byte string writes, if it has 32 bytes. -/
def ofBytes? (b : Bytes) : Option FieldElement :=
  if h : b.length = 32 then some (ofBytes ⟨b.toArray, h⟩) else none

/-- The limbs below `2^51` of the representative in `[0, p)`.

After one carry the number `n` written by the limbs is below `2 p`, so the quotient `q` of
`n + 19` by `2^255` is `1` if `p ≤ n` and `0` otherwise, and `n - q * p` is `n + 19 * q`
without its bits from position 255 on. -/
def canonical (a : FieldElement) : FieldElement :=
  let a := carry a
  let q := (a.l0 + 19) >>> 51
  let q := (a.l1 + q) >>> 51
  let q := (a.l2 + q) >>> 51
  let q := (a.l3 + q) >>> 51
  let q := (a.l4 + q) >>> 51
  let l0 := a.l0 + 19 * q
  let l1 := a.l1 + (l0 >>> 51)
  let l2 := a.l2 + (l1 >>> 51)
  let l3 := a.l3 + (l2 >>> 51)
  let l4 := a.l4 + (l3 >>> 51)
  ⟨low51 l0, low51 l1, low51 l2, low51 l3, low51 l4⟩

/-- The 255 bits of five limbs below `2^51`, as 32 bytes. -/
def pack (a : FieldElement) : Vector UInt8 32 :=
  #v[a.l0.toUInt8,
    (a.l0 >>> 8).toUInt8,
    (a.l0 >>> 16).toUInt8,
    (a.l0 >>> 24).toUInt8,
    (a.l0 >>> 32).toUInt8,
    (a.l0 >>> 40).toUInt8,
    ((a.l0 >>> 48) ||| (a.l1 <<< 3)).toUInt8,
    (a.l1 >>> 5).toUInt8,
    (a.l1 >>> 13).toUInt8,
    (a.l1 >>> 21).toUInt8,
    (a.l1 >>> 29).toUInt8,
    (a.l1 >>> 37).toUInt8,
    ((a.l1 >>> 45) ||| (a.l2 <<< 6)).toUInt8,
    (a.l2 >>> 2).toUInt8,
    (a.l2 >>> 10).toUInt8,
    (a.l2 >>> 18).toUInt8,
    (a.l2 >>> 26).toUInt8,
    (a.l2 >>> 34).toUInt8,
    (a.l2 >>> 42).toUInt8,
    ((a.l2 >>> 50) ||| (a.l3 <<< 1)).toUInt8,
    (a.l3 >>> 7).toUInt8,
    (a.l3 >>> 15).toUInt8,
    (a.l3 >>> 23).toUInt8,
    (a.l3 >>> 31).toUInt8,
    (a.l3 >>> 39).toUInt8,
    ((a.l3 >>> 47) ||| (a.l4 <<< 4)).toUInt8,
    (a.l4 >>> 4).toUInt8,
    (a.l4 >>> 12).toUInt8,
    (a.l4 >>> 20).toUInt8,
    (a.l4 >>> 28).toUInt8,
    (a.l4 >>> 36).toUInt8,
    (a.l4 >>> 44).toUInt8]

/-- The encoding of an element: its representative in `[0, p)`, least significant byte
first. -/
def toBytes (a : FieldElement) : Vector UInt8 32 := pack (canonical a)

/-- Two elements are equal when their encodings are. -/
instance : BEq FieldElement := ⟨fun a b => a.toBytes == b.toBytes⟩

/-- Whether an element is zero. -/
def isZero (a : FieldElement) : Bool := a.toBytes == Vector.replicate 32 0

/-- The bit 0 of a string of 32 bytes. -/
def lowBit (b : Vector UInt8 32) : UInt8 := b.head &&& 1

/-- The bit 255 of a string of 32 bytes. -/
def topBit (b : Vector UInt8 32) : UInt8 := b.back >>> 7

/-- A string of 32 bytes, with bit 255 set if `bit` holds. -/
def setTopBit (b : Vector UInt8 32) (bit : Bool) : Vector UInt8 32 :=
  b.set 31 (b.back ||| (if bit then 0x80 else 0))

/-- Whether the representative in `[0, p)` is odd. -/
def isNegative (a : FieldElement) : Bool := lowBit a.toBytes == 1

/-- The element that 64 bytes write, least significant byte first.

Each half is read without its top bit.  The bits left out weigh `2^255 = 19` and
`2^511 = 722`, and the upper half weighs `2^256 = 38`. -/
def ofWideBytes (b : Vector UInt8 64) : FieldElement :=
  let low := Bytes.firstHalf b
  let high := Bytes.lastHalf b
  ofBytes low + ofWord ((topBit low).toUInt64 * 19 + (topBit high).toUInt64 * 722)
    + ofWord 38 * ofBytes high

/-- The element that 48 bytes write, most significant byte first. -/
def ofUniformBytes (b : Vector UInt8 48) : FieldElement :=
  ofWideBytes (b.reverse ++ (Vector.replicate 16 0 : Vector UInt8 16))

/-- The element of the next 64 bytes of a source, and the state of the source after them. -/
def random {σ : Type} [ByteSource σ] (s : σ) : FieldElement × σ :=
  let (bytes, s) := ByteSource.drawVector 64 s
  (ofWideBytes bytes, s)

/-- The elements of the next `count` strings of 64 bytes of a source. -/
def randoms {σ : Type} [ByteSource σ] : (count : Nat) → σ → List FieldElement
  | 0, _ => []
  | count + 1, s => (random s).1 :: randoms count (random s).2

/-- The representative in `[0, p)` in 64 lower-case hexadecimal digits, most significant
digit first. -/
def toHex (a : FieldElement) : String := Bytes.toHex a.toBytes.toList.reverse

/-- The representative in `[0, p)` in 64 upper-case hexadecimal digits, most significant
digit first. -/
def toUpperHex (a : FieldElement) : String := Bytes.toUpperHex a.toBytes.toList.reverse

/-- The text of an element that names its type. -/
def describe (a : FieldElement) : String := "FieldElement(" ++ a.toHex ++ ")"

end HashToCurve.FieldElement
