import HashToCurve.Proofs.Edwards.Codec
import HashToCurve.Proofs.Edwards.Order
import HashToCurve.Proofs.Elligator.Montgomery

/-!
# The Elligator 2 map to the Edwards curve

The rational map carries the equation of the Montgomery curve into that of the Edwards curve.  Its
denominators vanish at no image of Elligator 2 but the origin, the image of zero, since `A - 2` is
not a square.  Outside of the origin it can be inverted, so that the images of two residues on the
Edwards curve coincide only if the residues are equal or opposite.
-/

namespace HashToCurve

open FieldElement
open MontgomeryPoint (scale)

namespace Residue

/-! ### The rational map -/

/-- The coordinate `x` on the Edwards curve, `0` where a denominator vanishes. -/
def edwardsX (u v : Residue) : Residue := if v * (u + 1) = 0 then 0 else scale.residue * u / v

/-- The coordinate `y` on the Edwards curve, `1` where a denominator vanishes. -/
def edwardsY (u v : Residue) : Residue := if v * (u + 1) = 0 then 1 else (u - 1) / (u + 1)

/-- The scale carries the coefficient `d` over to `A - 2`. -/
theorem edwardsD_mul_scale_sq :
  edwardsD.residue * scale.residue ^ 2 = 486662 - 2
  := by
  linear_combination edwardsD.residue * scale_sq - edwardsD_mul

theorem scale_ne_zero :
  scale.residue ≠ 0
  := by decide

/-- The poles of the rational map. -/
theorem mul_add_one_eq_zero_iff {u v : Residue} :
  v * (u + 1) = 0 ↔ v = 0 ∨ u = -1
  := by rw [mul_eq_zero, eq_neg_iff_add_eq_zero]

/-- Outside of the exceptions, the two equations differ by the factor `4 u`. -/
theorem onCurve_edwards_iff {u v : Residue} :
  OnCurve edwardsD.residue (edwardsX u v) (edwardsY u v)
    ↔ v = 0 ∨ u = -1 ∨ u = 0 ∨ v ^ 2 = montgomery u
  := by
  rw [edwardsX, edwardsY, ← or_assoc, ← mul_add_one_eq_zero_iff]
  by_cases hzero : v * (u + 1) = 0
  · rw [if_pos hzero, if_pos hzero]
    apply iff_of_true _ (.inl hzero)
    simp [OnCurve]
  · obtain ⟨hv, hu⟩ := mul_ne_zero_iff.mp hzero
    have hs := scale_sq
    have hd := edwardsD_mul_scale_sq
    have hfactor : OnCurve edwardsD.residue (scale.residue * u / v) ((u - 1) / (u + 1))
        ↔ 4 * (u * (v ^ 2 - montgomery u)) = 0 := by
      rw [OnCurve, montgomery]
      field_simp
      constructor
      · intro h
        linear_combination -h - u ^ 2 * (u + 1) ^ 2 * hs - u ^ 2 * (u - 1) ^ 2 * hd
      · intro h
        linear_combination -h - u ^ 2 * (u + 1) ^ 2 * hs - u ^ 2 * (u - 1) ^ 2 * hd
    rw [if_neg hzero, if_neg hzero, or_iff_right hzero, hfactor, mul_eq_zero, mul_eq_zero,
      or_iff_right (show (4 : Residue) ≠ 0 by decide), sub_eq_zero]

/-- The rational map takes points of the Montgomery curve to points of the Edwards curve. -/
theorem onCurve_edwards {u v : Residue} (h : v ^ 2 = montgomery u) :
  OnCurve edwardsD.residue (edwardsX u v) (edwardsY u v)
  := onCurve_edwards_iff.mpr (.inr (.inr (.inr h)))

/-- No point of the Montgomery curve has `u = -1`. -/
theorem ne_neg_one_of_montgomery {u v : Residue} (h : v ^ 2 = montgomery u) :
  u + 1 ≠ 0
  := by
  intro hu
  obtain rfl : u = -1 := eq_neg_of_add_eq_zero_left hu
  apply not_isSquare_edwardsD
  use v / scale.residue
  have hs := scale_ne_zero
  rw [← sq, div_pow, eq_div_iff (pow_ne_zero 2 hs), edwardsD_mul_scale_sq, h, montgomery]
  ring

/-! ### Images of the map -/

/-- The point of the curve that represents a residue. -/
noncomputable def toCurve (r : Residue) : CurvePoint where
  x := edwardsX (elligator r).1 (elligator r).2
  y := edwardsY (elligator r).1 (elligator r).2
  equation := onCurve_edwards (elligator_equation r)

/-- The representative `0` is mapped to the neutral element. -/
theorem toCurve_zero :
  toCurve 0 = 0
  := by
  apply CurvePoint.ext
  · simp [toCurve, elligator_zero, edwardsX]
  · simp [toCurve, elligator_zero, edwardsY]

/-- The origin is the only point of the Montgomery curve with `v = 0`. -/
theorem montgomery_ne_zero {u : Residue} (hu : u ≠ 0) :
  montgomery u ≠ 0
  := by
  intro h
  have hfactor : u * (u ^ 2 + 486662 * u + 1) = 0 := by
    rw [montgomery] at h
    linear_combination h
  apply not_isSquare_discriminant
  use 2 * u + 486662
  linear_combination -4 * (mul_eq_zero.mp hfactor).resolve_left hu

/-- Only zero is an exception of the rational map. -/
theorem elligator_mul_ne_zero {r : Residue} (hr : r ≠ 0) :
  (elligator r).2 * ((elligator r).1 + 1) ≠ 0
  := by
  apply mul_ne_zero _ (ne_neg_one_of_montgomery (elligator_equation r))
  intro hv
  exact hr (elligator_snd_eq_zero_iff.mp hv)

/-- A nonzero representative has its `x` by the rational map, without a pole. -/
theorem toCurve_x {r : Residue} (hr : r ≠ 0) :
  (toCurve r).x = scale.residue * (elligator r).1 / (elligator r).2
  := by
  simp only [toCurve, edwardsX, if_neg (elligator_mul_ne_zero hr)]

theorem toCurve_y {r : Residue} (hr : r ≠ 0) :
  (toCurve r).y = ((elligator r).1 - 1) / ((elligator r).1 + 1)
  := by
  simp only [toCurve, edwardsY, if_neg (elligator_mul_ne_zero hr)]

/-- Only zero is sent to the neutral element. -/
theorem toCurve_eq_zero_iff {r : Residue} :
  toCurve r = 0 ↔ r = 0
  := by
  constructor
  · intro h
    by_contra hr
    have hx := congrArg CurvePoint.x h
    rw [toCurve_x hr, CurvePoint.zero_x, div_eq_zero_iff, mul_eq_zero] at hx
    rcases hx with (hscale | hu) | hv
    · exact scale_ne_zero hscale
    · exact hr (elligator_fst_eq_zero_iff.mp hu)
    · exact (mul_ne_zero_iff.mp (elligator_mul_ne_zero hr)).1 hv
  · rintro rfl
    apply toCurve_zero

/-- The rational map merges no images. -/
theorem elligator_eq_of_toCurve_eq {r s : Residue} (hr : r ≠ 0) (hs : s ≠ 0)
    (h : toCurve r = toCurve s) :
  elligator r = elligator s
  := by
  obtain ⟨hvr, hur⟩ := mul_ne_zero_iff.mp (elligator_mul_ne_zero hr)
  obtain ⟨hvs, hus⟩ := mul_ne_zero_iff.mp (elligator_mul_ne_zero hs)
  have hu0 : (elligator s).1 ≠ 0 := fun hu => hs (elligator_fst_eq_zero_iff.mp hu)
  have hy := congrArg CurvePoint.y h
  have hx := congrArg CurvePoint.x h
  rw [toCurve_y hr, toCurve_y hs, div_eq_div_iff hur hus] at hy
  have hu : (elligator r).1 = (elligator s).1 := by
    apply mul_left_cancel₀ (two_ne_zero (α := Residue))
    linear_combination hy
  rw [toCurve_x hr, toCurve_x hs, hu, div_eq_div_iff hvr hvs,
    mul_right_inj' (mul_ne_zero scale_ne_zero hu0)] at hx
  exact Prod.ext hu hx.symm

/-- The only other residue with the same image is the opposite one. -/
theorem toCurve_inj {r s : Residue} :
  toCurve r = toCurve s ↔ r = s ∨ r = -s
  := by
  by_cases hs : s = 0
  · rw [hs, toCurve_zero, toCurve_eq_zero_iff, neg_zero, or_self]
  by_cases hr : r = 0
  · rw [hr, toCurve_zero, eq_comm, toCurve_eq_zero_iff, zero_eq_neg, eq_comm (a := 0), or_self]
  constructor
  · intro h
    apply elligator_inj.mp (elligator_eq_of_toCurve_eq hr hs h)
  · intro h
    have himage := elligator_inj.mpr h
    simp only [toCurve, himage]

end Residue

/-! ### The computation -/

namespace MontgomeryPoint

@[simp]
theorem bounded_scale :
  scale.Bounded
  := by constructor <;> decide

/-- The affine coordinates are those of the rational map. -/
theorem toAffine_eq {P : MontgomeryPoint} (hu : P.u.Bounded) (hv : P.v.Bounded) :
  P.toAffine.Bounded
    ∧ P.toAffine.x.residue = Residue.edwardsX P.u.residue P.v.residue
    ∧ P.toAffine.y.residue = Residue.edwardsY P.u.residue P.v.residue
  := by
  unfold toAffine
  extract_lets next previous denominator r image
  have hnext : next.residue = P.u.residue + 1 := by
    rw [residue_add hu bounded_one, residue_one]
  have hprevious : previous.residue = P.u.residue - 1 := by
    rw [residue_sub hu bounded_one, residue_one]
  have hdenominator : denominator.residue = P.v.residue * (P.u.residue + 1) := by
    rw [residue_mul hv (bounded_add _ _), hnext]
  have hr : r.residue = (P.v.residue * (P.u.residue + 1))⁻¹ := by
    rw [residue_inverse (bounded_mul _ _), hdenominator]
  have hx : image.x.residue
      = scale.residue * P.u.residue * (P.u.residue + 1) * (P.v.residue * (P.u.residue + 1))⁻¹ := by
    rw [residue_mul (bounded_mul _ _) (bounded_inverse _), hr,
      residue_mul (bounded_mul _ _) (bounded_add _ _), hnext, residue_mul bounded_scale hu]
  have hy : image.y.residue
      = (P.u.residue - 1) * P.v.residue * (P.v.residue * (P.u.residue + 1))⁻¹ := by
    rw [residue_mul (bounded_mul _ _) (bounded_inverse _), hr,
      residue_mul (bounded_sub _ _) hv, hprevious]
  constructor
  · constructor
    · apply bounded_select (bounded_mul _ _) bounded_zero
    · apply bounded_select (bounded_mul _ _) bounded_one
  · rw [AffinePoint.select, residue_select, residue_select, hx, hy, Residue.edwardsX,
      Residue.edwardsY]
    simp only [isZero_iff, hdenominator]
    by_cases hzero : P.v.residue * (P.u.residue + 1) = 0
    · rw [if_pos hzero, if_pos hzero, if_pos hzero, if_pos hzero]
      simp [AffinePoint.identity]
    · obtain ⟨hv0, hu0⟩ := mul_ne_zero_iff.mp hzero
      rw [if_neg hzero, if_neg hzero, if_neg hzero, if_neg hzero]
      constructor
      · field_simp
      · field_simp

end MontgomeryPoint

namespace Elligator

open Residue

/-- The affine coordinates of the image denote the point that represents the residue. -/
theorem toAffine_denotes {r : FieldElement} (hr : r.Bounded) :
  (toMontgomery r).toAffine.Denotes (toCurve r.residue)
  := by
  obtain ⟨hu, hv⟩ := bounded_toMontgomery r
  obtain ⟨hbounded, hx, hy⟩ := MontgomeryPoint.toAffine_eq hu hv
  rw [residue_toMontgomery_u hr, residue_toMontgomery_v hr] at hx hy
  constructor
  · exact hbounded.1
  · exact hbounded.2
  · rw [hx, toCurve]
  · rw [hy, toCurve]

/-- The map returns a point, and it denotes the point that represents the residue. -/
theorem toEdwards_denotes {r : FieldElement} (hr : r.Bounded) :
  ∃ P, toEdwards r = .ok P ∧ P.Denotes (toCurve r.residue)
  := (toAffine_denotes hr).toEdwards

/-- The point of a byte string represents the number of its lower 255 bits. -/
theorem ofRepresentative_denotes (bytes : Vector UInt8 32) :
  ∃ P, ofRepresentative bytes = .ok P
    ∧ P.Denotes (toCurve (Bytes.toNatLE bytes.toList % 2 ^ 255 : Nat))
  := by
  rw [← residue_ofBytes]
  apply toEdwards_denotes (bounded_ofBytes bytes)

/-! ### Collisions -/

/-- Elements are equal up to sign exactly if their residues are. -/
theorem beq_or_beq_neg_iff {r s : FieldElement} (hs : s.Bounded) :
  ((r == s) = true ∨ (r == -s) = true) ↔ r.residue = s.residue ∨ r.residue = -s.residue
  := by
  rw [FieldElement.beq_iff, FieldElement.beq_iff, residue_neg hs]

/-- Two representatives have the same Montgomery point exactly if they are equal up to sign. -/
theorem toMontgomery_beq_iff {r s : FieldElement} (hr : r.Bounded) (hs : s.Bounded) :
  (toMontgomery r == toMontgomery s) = true ↔ r.residue = s.residue ∨ r.residue = -s.residue
  := by
  rw [MontgomeryPoint.beq_iff, toMontgomery_eq hr, toMontgomery_eq hs, elligator_inj]

/-- Numbers denote residues that are equal up to sign exactly if they are congruent, or their sum is
a multiple of `p`. -/
theorem natCast_eq_or_eq_neg_iff (m n : Nat) :
  ((m : Residue) = n ∨ (m : Residue) = -n) ↔ m % modulus = n % modulus ∨ (m + n) % modulus = 0
  := by
  rw [ZMod.natCast_eq_natCast_iff', eq_neg_iff_add_eq_zero, ← Nat.cast_add,
    ZMod.natCast_eq_zero_iff, Nat.dvd_iff_mod_eq_zero]

/-- The only collisions of the map are those of an element and its opposite, on the Montgomery curve
and on the Edwards curve, and only zero is sent to the neutral element.  Byte strings collide when
the numbers of their lower 255 bits are equal or opposite modulo `p`. -/
theorem collision_iff :
  (∀ r s : FieldElement, r.Bounded → s.Bounded →
    ((toMontgomery r == toMontgomery s) = true ↔ (r == s) = true ∨ (r == -s) = true)
    ∧ ∃ P Q, toEdwards r = .ok P ∧ toEdwards s = .ok Q
      ∧ ((P == Q) = true ↔ (r == s) = true ∨ (r == -s) = true)
      ∧ ((P == EdwardsPoint.identity) = true ↔ (r == 0) = true))
  ∧ ∀ a b : Vector UInt8 32,
    ∃ P Q, ofRepresentative a = .ok P ∧ ofRepresentative b = .ok Q
      ∧ ((P == Q) = true
        ↔ Bytes.toNatLE a.toList % 2 ^ 255 % modulus = Bytes.toNatLE b.toList % 2 ^ 255 % modulus
          ∨ (Bytes.toNatLE a.toList % 2 ^ 255 + Bytes.toNatLE b.toList % 2 ^ 255) % modulus = 0)
  := by
  constructor
  · intro r s hr hs
    obtain ⟨P, hP, hPdenotes⟩ := toEdwards_denotes hr
    obtain ⟨Q, hQ, hQdenotes⟩ := toEdwards_denotes hs
    rw [beq_or_beq_neg_iff hs]
    use toMontgomery_beq_iff hr hs, P, Q, hP, hQ
    constructor
    · rw [hPdenotes.beq_iff hQdenotes, toCurve_inj]
    · rw [hPdenotes.beq_iff EdwardsPoint.Denotes.identity, toCurve_eq_zero_iff,
        FieldElement.beq_iff, residue_zero]
  · intro a b
    obtain ⟨P, hP, hPdenotes⟩ := ofRepresentative_denotes a
    obtain ⟨Q, hQ, hQdenotes⟩ := ofRepresentative_denotes b
    use P, Q, hP, hQ
    rw [hPdenotes.beq_iff hQdenotes, toCurve_inj, natCast_eq_or_eq_neg_iff]

theorem collision_of_two :
  two.Bounded ∧ (-two).Bounded ∧ (toMontgomery two == toMontgomery (-two)) = true
  := by
  use EdwardsPoint.bounded_two, bounded_neg two
  apply (collision_iff.1 two (-two) EdwardsPoint.bounded_two (bounded_neg two)).1.mpr
  right
  decide

end Elligator

end HashToCurve
