/-!
# 128-bit words

A `Wide` is a 128-bit word held as two 64-bit halves.  It is what the product of two 64-bit
words fits in.  Addition wraps at `2^128`.
-/

namespace HashToCurve

/-- A 128-bit word `hi * 2^64 + lo`. -/
structure Wide where
  /-- The upper 64 bits. -/
  hi : UInt64
  /-- The lower 64 bits. -/
  lo : UInt64

namespace Wide

/-- The number a 128-bit word stands for. -/
def toNat (w : Wide) : Nat := w.hi.toNat * 0x10000000000000000 + w.lo.toNat

/-- A 64-bit word as a 128-bit word. -/
@[inline]
def ofWord (x : UInt64) : Wide := ⟨0, x⟩

/-- The lower half of a 64-bit word. -/
@[inline]
def lowHalf (x : UInt64) : UInt64 := x &&& 0xffffffff

/-- The upper half of a 64-bit word. -/
@[inline]
def highHalf (x : UInt64) : UInt64 := x >>> 32

/-- The full product of two 64-bit words, from the four products of their halves. -/
@[inline]
def mulWords (x y : UInt64) : Wide :=
  let low := lowHalf x * lowHalf y
  let cross := lowHalf x * highHalf y
  let cross' := highHalf x * lowHalf y
  let middle := highHalf low + lowHalf cross + lowHalf cross'
  ⟨highHalf x * highHalf y + highHalf cross + highHalf cross' + highHalf middle,
    (middle <<< 32) ||| lowHalf low⟩

/-- The sum modulo `2^128`. -/
@[inline]
def add (v w : Wide) : Wide :=
  let lo := v.lo + w.lo
  ⟨v.hi + w.hi + (if lo < v.lo then 1 else 0), lo⟩

@[inline]
instance : Add Wide := ⟨add⟩

/-- The double modulo `2^128`. -/
@[inline]
def double (w : Wide) : Wide := w + w

/-- The 64 bits from position 51 on: the quotient by `2^51`, truncated to 64 bits. -/
@[inline]
def shiftRight51 (w : Wide) : UInt64 := (w.lo >>> 51) ||| (w.hi <<< 13)

end Wide

end HashToCurve
