/-!
# Byte strings

A byte string is a list of bytes.  It writes a number in base 256 in either order:
`toNatLE` and `toNatBE` read that number, `ofNatLE` and `ofNatBE` write it in a given
number of bytes and drop the digits that do not fit.  `chunks` cuts a byte string into
pieces of one size.
-/

namespace HashToCurve

/-- A finite string of bytes. -/
abbrev Bytes := List UInt8

namespace Bytes

/-- The number a byte string writes in base 256, least significant byte first. -/
def toNatLE : Bytes → Nat
  | [] => 0
  | b :: rest => b.toNat + 256 * toNatLE rest

/-- The number a byte string writes in base 256, most significant byte first. -/
def toNatBE (b : Bytes) : Nat := toNatLE b.reverse

/-- The lowest `size` digits of a number in base 256, least significant byte first. -/
def ofNatLE : (size : Nat) → Nat → Bytes
  | 0, _ => []
  | size + 1, n => UInt8.ofNat n :: ofNatLE size (n / 256)

/-- The lowest `size` digits of a number in base 256, most significant byte first. -/
def ofNatBE (size n : Nat) : Bytes := (ofNatLE size n).reverse

theorem length_ofNatLE (size n : Nat) :
  (ofNatLE size n).length = size
  := by
  induction size generalizing n with
  | zero => rfl
  | succ size ih => simp [ofNatLE, ih]

theorem length_ofNatBE (size n : Nat) :
  (ofNatBE size n).length = size
  := by
  simp [ofNatBE, length_ofNatLE]

/-- The byte string of `size` zeros. -/
def zeros (size : Nat) : Bytes := List.replicate size 0

/-- The character codes of an ASCII text. -/
def ofAscii (text : String) : Bytes := text.toList.map fun c => UInt8.ofNat c.toNat

/-- The number of bytes in a list of slices. -/
def totalLength (slices : List Bytes) : Nat := (slices.map List.length).foldr (· + ·) 0

theorem length_flatten (slices : List Bytes) :
  slices.flatten.length = totalLength slices
  := List.length_flatten

/-- The consecutive pieces of `size` bytes of a byte string, the last of which may be
shorter.  There are none when `size` is zero. -/
def chunks (size : Nat) (b : Bytes) : List Bytes :=
  if _ : size = 0 ∨ b = [] then []
  else b.take size :: chunks size (b.drop size)
termination_by b.length
decreasing_by
  have := List.length_pos_iff.mpr (not_or.mp ‹¬(size = 0 ∨ b = [])›).2
  simp only [List.length_drop]
  omega

/-- The first 32 of 64 bytes. -/
def firstHalf (b : Vector UInt8 64) : Vector UInt8 32 := (b.take 32).cast (by decide)

/-- The last 32 of 64 bytes. -/
def lastHalf (b : Vector UInt8 64) : Vector UInt8 32 := (b.drop 32).cast (by decide)

theorem toList_firstHalf (b : Vector UInt8 64) :
  (firstHalf b).toList = b.toList.take 32
  := by rw [firstHalf, Vector.toList_cast, Vector.toList_take]

theorem toList_lastHalf (b : Vector UInt8 64) :
  (lastHalf b).toList = b.toList.drop 32
  := by rw [lastHalf, Vector.toList_cast, Vector.toList_drop]

end Bytes

end HashToCurve
