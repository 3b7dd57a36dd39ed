import HashToCurve.Bytes.Basic

/-!
# Hexadecimal digits

The text of a byte string has two hexadecimal digits per byte, the upper half of the byte
first.  `ofHex?` reads digits of either case and refuses a text of odd length.
-/

namespace HashToCurve.Bytes

/-- The lower-case digit of a number below 16. -/
def lowerDigit (n : Nat) : Char :=
  if n < 10 then Char.ofNat ('0'.toNat + n) else Char.ofNat ('a'.toNat + (n - 10))

/-- The upper-case digit of a number below 16. -/
def upperDigit (n : Nat) : Char :=
  if n < 10 then Char.ofNat ('0'.toNat + n) else Char.ofNat ('A'.toNat + (n - 10))

/-- The digits of a byte string in the alphabet `digit`, two per byte. -/
def hexDigits (digit : Nat → Char) (b : Bytes) : List Char :=
  b.flatMap fun x => [digit (x.toNat / 16), digit (x.toNat % 16)]

/-- The text of a byte string in lower-case digits. -/
def toHex (b : Bytes) : String := String.ofList (hexDigits lowerDigit b)

/-- The text of a byte string in upper-case digits. -/
def toUpperHex (b : Bytes) : String := String.ofList (hexDigits upperDigit b)

/-- The number below 16 that a hexadecimal digit stands for. -/
def digitValue? (c : Char) : Option Nat :=
  if '0' ≤ c ∧ c ≤ '9' then some (c.toNat - '0'.toNat)
  else if 'a' ≤ c ∧ c ≤ 'f' then some (c.toNat - 'a'.toNat + 10)
  else if 'A' ≤ c ∧ c ≤ 'F' then some (c.toNat - 'A'.toNat + 10)
  else none

/-- The byte string with the given digits; `acc` holds the bytes read so far, last first. -/
def ofDigits? (acc : Bytes) : List Char → Option Bytes
  | [] => some acc.reverse
  | [_] => none
  | high :: low :: rest => do
    let h ← digitValue? high
    let l ← digitValue? low
    ofDigits? (UInt8.ofNat (16 * h + l) :: acc) rest

/-- The byte string that a text of hexadecimal digits writes. -/
def ofHex? (text : String) : Option Bytes := ofDigits? [] text.toList

end HashToCurve.Bytes
