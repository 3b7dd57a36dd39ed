import HashToCurve.Proofs.Overflow.Functions

/-!
# Canonical encodings

Every string of 32 bytes is read as an element, and the elements of two strings are equal if the
numbers that they write without bit 255 are congruent modulo `p`.  Of the strings of an element, its
encoding is the one that writes a number below `p`.
-/

namespace HashToCurve.FieldElement

open Bytes

theorem topBit_eq_zero {b : Vector UInt8 32} (h : toNatLE b.toList < 2 ^ 255) :
  topBit b = 0
  := by
  apply UInt8.toNat_inj.mp
  rw [toNat_topBit, Nat.div_eq_of_lt h]
  rfl

/-- The encoding writes the representative of the number that the limbs write. -/
theorem toNatLE_toBytes_eq_mod (a : FieldElement) :
  toNatLE a.toBytes.toList = a.toNat % modulus
  := by
  rw [toNatLE_toBytes, val_residue]

/-- An encoding writes a number below `p`. -/
theorem toNatLE_toBytes_lt (a : FieldElement) :
  toNatLE a.toBytes.toList < modulus
  := by
  rw [toNatLE_toBytes_eq_mod]
  apply Nat.mod_lt _ (by decide)

/-- The encoding of an element is read as the element. -/
theorem ofBytes_toBytes_beq (a : FieldElement) :
  (ofBytes a.toBytes == a) = true
  := by
  have hlt : a.residue.val < 2 ^ 255 := a.residue.val_lt.trans (by decide)
  rw [beq_iff, residue_ofBytes, toNatLE_toBytes, Nat.mod_eq_of_lt hlt]
  apply ZMod.natCast_rightInverse

/-- A string is the encoding of what it is read as, if it writes a number below `p`. -/
theorem toBytes_ofBytes_eq_iff (b : Vector UInt8 32) :
  (ofBytes b).toBytes = b ↔ toNatLE b.toList < modulus
  := by
  have hencoding : toNatLE (ofBytes b).toBytes.toList = toNatLE b.toList % 2 ^ 255 % modulus := by
    rw [toNatLE_toBytes_eq_mod, toNat_ofBytes]
  constructor
  · intro h
    rw [← h]
    apply toNatLE_toBytes_lt
  · intro h
    have hmod : toNatLE b.toList % 2 ^ 255 = toNatLE b.toList := Nat.mod_eq_of_lt (h.trans (by decide))
    rw [hmod, Nat.mod_eq_of_lt h] at hencoding
    rw [← Vector.toList_inj, ← toNatLE_inj (by simp)]
    apply hencoding

/-- Two strings are decoded to equal elements exactly if their lower 255 bits are congruent. -/
theorem ofBytes_beq_iff (b c : Vector UInt8 32) :
  (ofBytes b == ofBytes c) = true
    ↔ toNatLE b.toList % 2 ^ 255 ≡ toNatLE c.toList % 2 ^ 255 [MOD modulus]
  := by
  rw [beq_iff, residue_ofBytes, residue_ofBytes]
  apply ZMod.natCast_eq_natCast_iff

/-- The length is the only reason to refuse a string. -/
theorem ofBytes?_eq_none_iff (s : Bytes) :
  ofBytes? s = none ↔ s.length ≠ 32
  := by
  rw [ofBytes?]
  split <;> simp_all

theorem ofBytes?_toList (b : Vector UInt8 32) :
  ofBytes? b.toList = some (ofBytes b)
  := by
  rw [ofBytes?, dif_pos b.length_toList]
  rfl

/-- The encoding of an element of any limbs is computed without overflow and writes the
representative of the number of the limbs in `[0, p)`, with bit 255 clear; it is read as the element.
Every string of 32 bytes is read, as limbs below `2 ^ 51` that write its number without bit 255, and is
an encoding exactly if its number is below `p`.  Two strings are read as equal elements exactly if
their numbers without bit 255 are congruent.  A byte string of any other length is not read. -/
theorem codec_canonical :
  (∀ a : FieldElement,
    Checked.toBytes a = some a.toBytes
      ∧ toNatLE a.toBytes.toList = a.toNat % modulus
      ∧ toNatLE a.toBytes.toList < modulus
      ∧ topBit a.toBytes = 0
      ∧ (ofBytes a.toBytes == a) = true)
  ∧ (∀ b : Vector UInt8 32,
    (ofBytes b).LimbsBelow (2 ^ 51)
      ∧ (ofBytes b).toNat = toNatLE b.toList % 2 ^ 255
      ∧ ((ofBytes b).toBytes = b ↔ toNatLE b.toList < modulus))
  ∧ (∀ b c : Vector UInt8 32,
    (ofBytes b == ofBytes c) = true
      ↔ toNatLE b.toList % 2 ^ 255 ≡ toNatLE c.toList % 2 ^ 255 [MOD modulus])
  ∧ (∀ s : Bytes, ofBytes? s = none ↔ s.length ≠ 32)
  ∧ ∀ b : Vector UInt8 32, ofBytes? b.toList = some (ofBytes b)
  := by
  refine ⟨?_, ?_, ofBytes_beq_iff, ofBytes?_eq_none_iff, ofBytes?_toList⟩
  · intro a
    have hlt := a.toNatLE_toBytes_lt
    exact ⟨Checked.toBytes_eq a, a.toNatLE_toBytes_eq_mod, hlt, topBit_eq_zero (hlt.trans (by decide)),
      a.ofBytes_toBytes_beq⟩
  · intro b
    exact ⟨limbsBelow_ofBytes b, toNat_ofBytes b, toBytes_ofBytes_eq_iff b⟩

end HashToCurve.FieldElement
