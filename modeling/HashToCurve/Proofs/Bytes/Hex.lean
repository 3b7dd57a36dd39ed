import HashToCurve.Bytes.Hex
import Mathlib.Algebra.Order.Group.Nat
import Mathlib.Data.List.Basic

/-!
# The digits of a number in base 16

The text of the byte string of a number, most significant byte first, has the digits of the number
in base 16, most significant digit first.
-/

namespace HashToCurve.Bytes

/-- The `count` lowest digits of a number in base 16, most significant digit first. -/
def hexadecimal (digit : Nat → Char) (count n : Nat) : List Char :=
  (List.range count).map fun i => digit (n / 16 ^ (count - 1 - i) % 16)

variable (digit : Nat → Char)

/-- The two lowest digits are those of the last byte. -/
theorem hexadecimal_add_two (count n : Nat) :
  hexadecimal digit (count + 2) n
    = hexadecimal digit count (n / 256) ++ [digit (n % 256 / 16), digit (n % 16)]
  := by
  have hlast : n % 256 / 16 = n / 16 % 16 := by omega
  rw [hexadecimal, List.range_succ, List.range_succ, List.map_append, List.map_append,
    List.append_assoc, hlast]
  congr 1
  · apply List.map_congr_left
    intro i hi
    have hexponent : count + 2 - 1 - i = 2 + (count - 1 - i) := by
      rw [List.mem_range] at hi
      omega
    rw [hexponent, Nat.pow_add, ← Nat.div_div_eq_div_mul]
  · simp

/-- The digits of a number that bytes write are its hexadecimal digits, two for each byte. -/
theorem hexDigits_ofNatBE (size n : Nat) :
  hexDigits digit (ofNatBE size n) = hexadecimal digit (2 * size) n
  := by
  induction size generalizing n with
  | zero => rfl
  | succ size ih =>
    have hsucc : ofNatBE (size + 1) n = ofNatBE size (n / 256) ++ [UInt8.ofNat n] := by
      rw [ofNatBE, ofNatLE, List.reverse_cons, ofNatBE]
    rw [Nat.mul_succ, hexadecimal_add_two, ← ih, hsucc, hexDigits, List.flatMap_append, hexDigits]
    simp

/-- Digits that agree below 16 write the same text. -/
theorem hexadecimal_congr {digit digit' : Nat → Char} (h : ∀ n < 16, digit n = digit' n)
    (count n : Nat) :
  hexadecimal digit count n = hexadecimal digit' count n
  := by
  rw [hexadecimal, hexadecimal]
  apply List.map_congr_left
  intro i _
  apply h
  apply Nat.mod_lt _ (by decide)

theorem toList_toHex_ofNatBE (size n : Nat) :
  (toHex (ofNatBE size n)).toList = hexadecimal Nat.digitChar (2 * size) n
  := by
  rw [toHex, String.toList_ofList, hexDigits_ofNatBE]
  apply hexadecimal_congr (by decide)

theorem toList_toUpperHex_ofNatBE (size n : Nat) :
  (toUpperHex (ofNatBE size n)).toList
    = hexadecimal (fun d => (Nat.digitChar d).toUpper) (2 * size) n
  := by
  rw [toUpperHex, String.toList_ofList, hexDigits_ofNatBE]
  apply hexadecimal_congr (by decide)

end HashToCurve.Bytes
