import HashToCurve.Field.Arithmetic
import HashToCurve.Field.Constants
import HashToCurve.Proofs.Field.Words
import Mathlib.Data.ZMod.Basic
import Mathlib.Tactic.LinearCombination

/-!
# Residues of limb vectors

The residue of an element is the number its limbs write, modulo `p`.  The operations on limb
vectors are the operations of `ℤ/p` on residues, as long as the factors of a product and the
subtrahend of a difference are `Bounded`: have limbs below `2^54`.  The results of all operations
are `Bounded` whatever the arguments, so that operations can be chained at will.
-/

namespace HashToCurve

open Wide (mulWords)

/-- The integers modulo `p`. -/
abbrev Residue := ZMod FieldElement.modulus

namespace FieldElement

instance : NeZero modulus := ⟨by decide⟩

/-- The weight `2^255` reduces to 19. -/
theorem two_pow_255 :
  (2 : Residue) ^ 255 = 19
  := by
  have h : ((modulus + 19 : Nat) : Residue) = 19 := by
    rw [Nat.cast_add, ZMod.natCast_self, zero_add]
    rfl
  rw [← h, show modulus + 19 = 2 ^ 255 by decide]
  norm_cast

/-- The residue that an element denotes. -/
def residue (a : FieldElement) : Residue := a.toNat

/-- Numbers that differ by a multiple of `p` denote the same residue. -/
theorem natCast_eq_of_add_mul {m n k : Nat} (h : m + modulus * k = n) :
  (m : Residue) = n
  := by
  rw [← h]
  simp

/-! ### Bounds -/

/-- Every limb is below `bound`. -/
structure LimbsBelow (bound : Nat) (a : FieldElement) : Prop where
  l0 : a.l0.toNat < bound
  l1 : a.l1.toNat < bound
  l2 : a.l2.toNat < bound
  l3 : a.l3.toNat < bound
  l4 : a.l4.toNat < bound

/-- The elements that products and differences are right for: those with limbs below `2^54`. -/
def Bounded (a : FieldElement) : Prop := a.LimbsBelow (2 ^ 54)

/-- A bound on the limbs may be raised. -/
theorem LimbsBelow.mono {m n : Nat} {a : FieldElement} (h : a.LimbsBelow m) (hmn : m ≤ n) :
  a.LimbsBelow n
  where
  l0 := h.l0.trans_le hmn
  l1 := h.l1.trans_le hmn
  l2 := h.l2.trans_le hmn
  l3 := h.l3.trans_le hmn
  l4 := h.l4.trans_le hmn

/-! ### Carries -/

/-- The lowest limb after a carry, which takes what leaves the top limb 19 times. -/
theorem toNat_carry_l0 (a : FieldElement) :
  a.carry.l0.toNat = a.l0.toNat % 2 ^ 51 + 19 * (a.l4.toNat / 2 ^ 51)
  := by
  have hlt := toNat_shiftRight51_lt a.l4
  have hshift : (a.l4 >>> 51).toNat = a.l4.toNat / 2 ^ 51 := toNat_shiftRight a.l4 51 (by omega)
  have htop := toNat_mul_nineteen (x := a.l4 >>> 51) (by omega)
  rw [carry, toNat_low51_add (by omega), htop, hshift]

theorem toNat_carry_l1 (a : FieldElement) :
  a.carry.l1.toNat = a.l1.toNat % 2 ^ 51 + a.l0.toNat / 2 ^ 51
  := toNat_low51_add_shiftRight51 a.l1 a.l0

theorem toNat_carry_l2 (a : FieldElement) :
  a.carry.l2.toNat = a.l2.toNat % 2 ^ 51 + a.l1.toNat / 2 ^ 51
  := toNat_low51_add_shiftRight51 a.l2 a.l1

theorem toNat_carry_l3 (a : FieldElement) :
  a.carry.l3.toNat = a.l3.toNat % 2 ^ 51 + a.l2.toNat / 2 ^ 51
  := toNat_low51_add_shiftRight51 a.l3 a.l2

theorem toNat_carry_l4 (a : FieldElement) :
  a.carry.l4.toNat = a.l4.toNat % 2 ^ 51 + a.l3.toNat / 2 ^ 51
  := toNat_low51_add_shiftRight51 a.l4 a.l3

/-- A carry takes off a multiple of `p`: what leaves the top limb. -/
theorem toNat_carry (a : FieldElement) :
  a.carry.toNat + modulus * (a.l4.toNat / 2 ^ 51) = a.toNat
  := by
  simp only [toNat, radix, modulus, toNat_carry_l0, toNat_carry_l1, toNat_carry_l2, toNat_carry_l3,
    toNat_carry_l4]
  omega

/-- A carry leaves the residue as it is. -/
theorem residue_carry (a : FieldElement) :
  a.carry.residue = a.residue
  := natCast_eq_of_add_mul a.toNat_carry

/-- The carry into a limb is the part above 51 bits of the limb below it. -/
theorem limbsBelow_carry {a : FieldElement} {bound : Nat} (h : a.LimbsBelow (2 ^ 51 * bound)) :
  a.carry.LimbsBelow (2 ^ 51 + 19 * bound)
  := by
  obtain ⟨h0, h1, h2, h3, h4⟩ := h
  constructor
  · rw [toNat_carry_l0]
    omega
  · rw [toNat_carry_l1]
    omega
  · rw [toNat_carry_l2]
    omega
  · rw [toNat_carry_l3]
    omega
  · rw [toNat_carry_l4]
    omega

/-- The limbs of any element are 64-bit words. -/
theorem limbsBelow_word (a : FieldElement) :
  a.LimbsBelow (2 ^ 51 * 2 ^ 13)
  where
  l0 := a.l0.toNat_lt
  l1 := a.l1.toNat_lt
  l2 := a.l2.toNat_lt
  l3 := a.l3.toNat_lt
  l4 := a.l4.toNat_lt

/-- All limbs of a word each are bounded after a carry. -/
@[simp]
theorem bounded_carry (a : FieldElement) :
  a.carry.Bounded
  := (limbsBelow_carry a.limbsBelow_word).mono (by norm_num)

/-! ### Constants and choices -/

@[simp]
theorem residue_zero :
  residue 0 = 0
  := rfl

@[simp]
theorem residue_one :
  residue 1 = 1
  := by
  rw [residue, show toNat 1 = 1 from rfl, Nat.cast_one]

@[simp]
theorem bounded_zero :
  Bounded 0
  := by
  constructor <;> decide

@[simp]
theorem bounded_one :
  Bounded 1
  := by
  constructor <;> decide

@[simp]
theorem bounded_sqrtMinusOne :
  sqrtMinusOne.Bounded
  := by
  constructor <;> decide

/-- A word stands for itself. -/
@[simp]
theorem residue_ofWord (x : UInt64) :
  (ofWord x).residue = x.toNat
  := by
  simp [residue, ofWord, toNat]

theorem residue_select (a b : FieldElement) (choice : Bool) :
  (select a b choice).residue = if choice then b.residue else a.residue
  := by
  rw [select]
  split <;> rfl

@[simp]
theorem bounded_select {a b : FieldElement} (ha : a.Bounded) (hb : b.Bounded) (choice : Bool) :
  (select a b choice).Bounded
  := by
  rw [select]
  split
  · apply hb
  · apply ha

/-! ### Sums and differences -/

theorem add_def (a b : FieldElement) :
  a + b = carry ⟨a.l0 + b.l0, a.l1 + b.l1, a.l2 + b.l2, a.l3 + b.l3, a.l4 + b.l4⟩
  := rfl

/-- A sum is bounded, whatever its summands are. -/
@[simp]
theorem bounded_add (a b : FieldElement) :
  (a + b).Bounded
  := bounded_carry _

/-- Residues are added if no limb overflows. -/
@[simp]
theorem residue_add {a b : FieldElement} (ha : a.Bounded) (hb : b.Bounded) :
  (a + b).residue = a.residue + b.residue
  := by
  obtain ⟨ha0, ha1, ha2, ha3, ha4⟩ := ha
  obtain ⟨hb0, hb1, hb2, hb3, hb4⟩ := hb
  rw [add_def, residue_carry]
  simp only [residue, ← Nat.cast_add]
  congr 1
  simp only [toNat, radix, UInt64.toNat_add]
  omega

/-- A difference is bounded, whatever its operands are. -/
@[simp]
theorem bounded_sub (a b : FieldElement) :
  (a - b).Bounded
  := bounded_carry _

/-- The limbs that a difference carries write the difference plus `16 p`. -/
theorem residue_sub {a b : FieldElement} (ha : a.Bounded) (hb : b.Bounded) :
  (a - b).residue = a.residue - b.residue
  := by
  obtain ⟨ha0, ha1, ha2, ha3, ha4⟩ := ha
  obtain ⟨hb0, hb1, hb2, hb3, hb4⟩ := hb
  rw [eq_sub_iff_add_eq]
  change (carry _).residue + _ = _
  rw [residue_carry]
  simp only [residue, ← Nat.cast_add]
  symm
  apply natCast_eq_of_add_mul (k := 16)
  have hlow : lowLimbOfMultiple.toNat = 36028797018963664 := by rfl
  have hhigh : highLimbOfMultiple.toNat = 36028797018963952 := by rfl
  simp only [toNat, radix, modulus, UInt64.toNat_sub, UInt64.toNat_add, hlow, hhigh]
  omega

@[simp]
theorem bounded_neg (a : FieldElement) :
  (-a).Bounded
  := bounded_carry _

@[simp]
theorem residue_neg {a : FieldElement} (ha : a.Bounded) :
  (-a).residue = -a.residue
  := by
  change (0 - a).residue = _
  rw [residue_sub bounded_zero ha, residue_zero, zero_sub]

@[simp]
theorem bounded_negateIf {a : FieldElement} (ha : a.Bounded) (choice : Bool) :
  (a.negateIf choice).Bounded
  := bounded_select ha (bounded_neg a) choice

theorem residue_negateIf {a : FieldElement} (ha : a.Bounded) (choice : Bool) :
  (a.negateIf choice).residue = if choice then -a.residue else a.residue
  := by
  rw [negateIf, residue_select, residue_neg ha]

end FieldElement

end HashToCurve
