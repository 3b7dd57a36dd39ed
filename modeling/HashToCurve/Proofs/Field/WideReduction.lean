import HashToCurve.Proofs.Field.Encoding

/-!
# Reading long byte strings

A string of 64 bytes is read modulo `p` by its halves without their top bits, which weigh
`2^255 = 19` and `2^511 = 722`, while the upper half weighs `2^256 = 38`.  So is a string of 48 bytes
in the other order, extended by zeros.
-/

namespace HashToCurve

open Bytes

namespace Bytes

/-- The last byte holds the highest digit. -/
theorem toNatLE_eq_take_last (b : Vector UInt8 32) :
  toNatLE b.toList = toNatLE (b.toList.take 31) + 2 ^ 248 * b.back.toNat
  := by
  have hlast : b.toList.drop 31 = [b.back] := by
    rw [List.drop_eq_getElem_cons (by simp), List.drop_eq_nil_of_le (by simp), Vector.getElem_toList]
    rfl
  conv_lhs => rw [← List.take_append_drop 31 b.toList]
  rw [toNatLE_append, hlast]
  simp [toNatLE]

end Bytes

namespace FieldElement

/-- The top bit of 32 bytes is the quotient by `2^255` of the number they write. -/
theorem toNat_topBit (b : Vector UInt8 32) :
  (topBit b).toNat = toNatLE b.toList / 2 ^ 255
  := by
  have hlow := toNatLE_lt (b.toList.take 31)
  rw [List.length_take_of_le (by simp)] at hlow
  rw [toNatLE_eq_take_last, topBit, UInt8.toNat_shiftRight]
  simp [Nat.shiftRight_eq_div_pow]
  omega

theorem bounded_ofWord {x : UInt64} (hx : x.toNat < 2 ^ 54) :
  (ofWord x).Bounded
  := ⟨hx, by simp [ofWord], by simp [ofWord], by simp [ofWord], by simp [ofWord]⟩

theorem topBit_lt (b : Vector UInt8 32) :
  (topBit b).toNat < 2
  := by
  have h := b.back.toNat_lt
  rw [topBit, UInt8.toNat_shiftRight, show (7 : UInt8).toNat % 8 = 7 from rfl,
    Nat.shiftRight_eq_div_pow]
  omega

/-- Bit 255 weighs `2^255`, where it is set. -/
theorem toNatLE_setTopBit {b : Vector UInt8 32} (hb : toNatLE b.toList < 2 ^ 255) (bit : Bool) :
  toNatLE (setTopBit b bit).toList = toNatLE b.toList + 2 ^ 255 * if bit then 1 else 0
  := by
  have htake : (setTopBit b bit).toList.take 31 = b.toList.take 31 := by
    rw [setTopBit, Vector.toList_set, List.take_set_of_le (by omega)]
  have hback : (setTopBit b bit).back = b.back ||| if bit then 0x80 else 0 := by
    change (b.set 31 (b.back ||| if bit then 0x80 else 0))[31] = _
    rw [Vector.getElem_set_self]
  have hlast : b.back.toNat < 2 ^ 7 := by
    rw [toNatLE_eq_take_last] at hb
    omega
  rw [toNatLE_eq_take_last (setTopBit b bit), htake, hback, toNatLE_eq_take_last b]
  cases bit with
  | false =>
    rw [if_neg Bool.false_ne_true, if_neg Bool.false_ne_true, UInt8.or_zero, mul_zero, add_zero]
  | true =>
    have hor : (b.back ||| 0x80).toNat = 2 ^ 7 + b.back.toNat := by
      rw [UInt8.toNat_or, Nat.or_comm]
      exact (Nat.two_pow_add_eq_or_of_lt hlast 1).symm
    rw [if_pos rfl, if_pos rfl, hor]
    omega

/-- The weight of the bits that the halves are read without. -/
theorem toNat_topBits (low high : Vector UInt8 32) :
  ((topBit low).toUInt64 * 19 + (topBit high).toUInt64 * 722).toNat
    = (topBit low).toNat * 19 + (topBit high).toNat * 722
  := by
  have hlow := topBit_lt low
  have hhigh := topBit_lt high
  simp only [UInt64.toNat_add, UInt64.toNat_mul, UInt8.toNat_toUInt64]
  simp
  omega

/-- The weights `2^255`, `2^256` and `2^511` are `19`, `38` and `722` modulo `p`. -/
private theorem reduce (low high : Nat) :
  ((low % 2 ^ 255 : Nat) : Residue) + (low / 2 ^ 255 * 19 + high / 2 ^ 255 * 722 : Nat)
      + 38 * (high % 2 ^ 255 : Nat)
    = (low + 2 ^ 256 * high : Nat)
  := by
  have hlow := Nat.mod_add_div low (2 ^ 255)
  have hhigh := Nat.mod_add_div high (2 ^ 255)
  generalize low % 2 ^ 255 = l at *
  generalize high % 2 ^ 255 = h at *
  generalize low / 2 ^ 255 = a at *
  generalize high / 2 ^ 255 = b at *
  have h255 : (2 : Residue) ^ 255 = 19 := two_pow_255
  rw [← hlow, ← hhigh]
  simp only [Nat.cast_add, Nat.cast_mul, Nat.cast_pow, Nat.cast_ofNat]
  rw [pow_succ (2 : Residue) 255, h255]
  ring

/-- The element of 64 bytes denotes the number that they write. -/
theorem residue_ofWideBytes (b : Vector UInt8 64) :
  (ofWideBytes b).residue = toNatLE b.toList
  := by
  unfold ofWideBytes
  extract_lets low high
  have hb : toNatLE b.toList = toNatLE low.toList + 2 ^ 256 * toNatLE high.toList := by
    conv_lhs => rw [← List.take_append_drop 32 b.toList]
    rw [toNatLE_append, List.length_take_of_le (by simp), toList_firstHalf, toList_lastHalf,
      show 256 ^ 32 = 2 ^ 256 by norm_num]
  have htop := toNat_topBits low high
  have hlow := topBit_lt low
  have hhigh := topBit_lt high
  have hbounded : (ofWord ((topBit low).toUInt64 * 19 + (topBit high).toUInt64 * 722)).Bounded := by
    apply bounded_ofWord
    omega
  rw [toNat_topBit, toNat_topBit] at htop
  rw [residue_add (bounded_add _ _) (bounded_mul _ _), residue_add (bounded_ofBytes _) hbounded,
    residue_mul (bounded_ofWord (by decide)) (bounded_ofBytes _), residue_ofBytes, residue_ofBytes,
    residue_ofWord, residue_ofWord, htop, hb, ← reduce]
  rfl

theorem bounded_ofWideBytes (b : Vector UInt8 64) :
  (ofWideBytes b).Bounded
  := bounded_add _ _

/-- The element of 48 bytes denotes the number that they write, most significant byte first. -/
theorem residue_ofUniformBytes (b : Vector UInt8 48) :
  (ofUniformBytes b).residue = toNatBE b.toList
  := by
  rw [ofUniformBytes, residue_ofWideBytes, Vector.toList_append, toNatLE_append,
    Vector.toList_replicate, toNatLE_replicate_zero, mul_zero, add_zero, Vector.toList_reverse,
    toNatBE]

theorem bounded_ofUniformBytes (b : Vector UInt8 48) :
  (ofUniformBytes b).Bounded
  := bounded_ofWideBytes _

end FieldElement

end HashToCurve
