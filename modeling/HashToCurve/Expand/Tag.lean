import HashToCurve.Bytes.Basic

/-!
# Domain separation tags

A tag is hashed together with its length, which is written in one byte, so it has at most 255
bytes.  A longer string is shortened by a hash function, after a fixed salt, and the result
stands in for it.
-/

namespace HashToCurve

/-- A domain separation tag in the form in which it is hashed. -/
structure Tag where
  /-- The bytes of the tag. -/
  bytes : Bytes
  length_le : bytes.length ≤ 255

namespace Tag

/-- The length of a tag as a byte. -/
def lengthByte (t : Tag) : UInt8 := UInt8.ofNat t.bytes.length

/-- A tag followed by its length. -/
def framed (t : Tag) : Bytes := t.bytes ++ [t.lengthByte]

/-- What is hashed before a string that is too long for a tag. -/
def oversizeSalt : Bytes := Bytes.ofAscii "H2C-OVERSIZE-DST-"

/-- The tag of a list of slices: their concatenation if it is short enough, and otherwise what
`shorten` makes of it, if that is.  There is no tag without bytes in its slices. -/
def ofSlices {ε : Type} {size : Nat} (shorten : Bytes → Vector UInt8 size)
    (isEmpty cannotShorten : ε) (slices : List Bytes) : Except ε Tag :=
  if Bytes.totalLength slices = 0 then .error isEmpty
  else if h : Bytes.totalLength slices ≤ 255 then
    .ok ⟨slices.flatten, by rw [Bytes.length_flatten]; exact h⟩
  else if h : size ≤ 255 then
    .ok ⟨(shorten (oversizeSalt ++ slices.flatten)).toList, by simpa using h⟩
  else .error cannotShorten

end Tag

end HashToCurve
