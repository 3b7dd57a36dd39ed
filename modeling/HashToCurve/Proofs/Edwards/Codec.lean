import HashToCurve.Proofs.Edwards.Extended
import HashToCurve.Proofs.Field.SquareRoot
import HashToCurve.Proofs.Field.WideReduction

/-!
# The compressed form

The number that a compressed form writes is `y`, plus `2^255` if `x` is odd.  A number is read back
as the point with its lower 255 bits, modulo `p`, as `y`, and with the sign that its bit 255 tells,
if a point of the curve has that `y`.  So what is read is what was written, unless the lower bits
are not reduced, or bit 255 is set although `x` is zero.
-/

namespace HashToCurve

open Bytes FieldElement

/-! ### Bit 255 -/

namespace FieldElement

/-- Bit 255 is set exactly in the strings that write `2^255` or more. -/
theorem topBit_eq_one_iff (b : Vector UInt8 32) :
  (topBit b == 1) = decide (2 ^ 255 ≤ toNatLE b.toList)
  := by
  have htop := toNat_topBit b
  have hlt := toNatLE_lt b.toList
  rw [Vector.length_toList] at hlt
  rw [Bool.eq_iff_iff, beq_iff_eq, decide_eq_true_iff, ← UInt8.toNat_inj, htop]
  simp
  omega

end FieldElement

namespace AffinePoint

/-! ### Points as pairs of elements -/

/-- The limbs of both coordinates are bounded. -/
def Bounded (P : AffinePoint) : Prop := P.x.Bounded ∧ P.y.Bounded

/-- Pairs are equal if their residues are, whatever their limbs are. -/
theorem beq_iff {P Q : AffinePoint} :
  (P == Q) = true ↔ P.x.residue = Q.x.residue ∧ P.y.residue = Q.y.residue
  := by
  rw [← FieldElement.beq_iff, ← FieldElement.beq_iff, ← Bool.and_eq_true]
  rfl

/-- Pairs that denote one point are equal. -/
theorem Denotes.beq {P Q : AffinePoint} {R : CurvePoint} (hP : P.Denotes R) (hQ : Q.Denotes R) :
  (P == Q) = true
  := beq_iff.mpr ⟨hP.x_eq.trans hQ.x_eq.symm, hP.y_eq.trans hQ.y_eq.symm⟩

/-- The test of a pair decides the equation of the curve on its residues. -/
theorem isOnCurve_iff {P : AffinePoint} (hP : P.Bounded) :
  P.isOnCurve = true ↔ OnCurve edwardsD.residue P.x.residue P.y.residue
  := by
  obtain ⟨hx, hy⟩ := hP
  have hleft : (P.y.square - P.x.square).residue = P.y.residue ^ 2 - P.x.residue ^ 2 := by
    rw [residue_sub (bounded_square _) (bounded_square _), residue_square hx, residue_square hy]
  have hright : (1 + edwardsD * P.x.square * P.y.square).residue
      = 1 + edwardsD.residue * P.x.residue ^ 2 * P.y.residue ^ 2 := by
    rw [residue_add bounded_one (bounded_mul _ _), residue_mul (bounded_mul _ _) (bounded_square _),
      residue_mul EdwardsPoint.bounded_edwardsD (bounded_square _), residue_one, residue_square hx,
      residue_square hy]
  unfold isOnCurve
  rw [FieldElement.beq_iff, hleft, hright, OnCurve, neg_add_eq_sub]

/-- A pair that passes the test denotes a point. -/
theorem exists_denotes {P : AffinePoint} (hP : P.Bounded) (h : P.isOnCurve = true) :
  ∃ R, P.Denotes R
  := ⟨⟨_, _, (isOnCurve_iff hP).mp h⟩, hP.1, hP.2, rfl, rfl⟩

theorem Denotes.isOnCurve {P : AffinePoint} {R : CurvePoint} (hP : P.Denotes R) :
  P.isOnCurve = true
  := by
  rw [isOnCurve_iff ⟨hP.bounded_x, hP.bounded_y⟩, hP.x_eq, hP.y_eq]
  apply R.equation

/-! ### Writing -/

end AffinePoint

/-- The number that the compressed form of a point writes. -/
def CurvePoint.compressed (R : CurvePoint) : Nat :=
  R.y.val + 2 ^ 255 * if R.x.IsEven then 0 else 1

namespace Residue

/-- The lower 255 bits of a number with a sign in bit 255. -/
theorem signed_mod (x y : Residue) :
  (y.val + 2 ^ 255 * if x.IsEven then 0 else 1) % 2 ^ 255 = y.val
  := by
  have hlt : y.val < 2 ^ 255 := y.val_lt.trans (by decide)
  omega

/-- The sign in bit 255 of a number. -/
theorem signed_lt_iff (x y : Residue) :
  (y.val + 2 ^ 255 * if x.IsEven then 0 else 1) < 2 ^ 255 ↔ x.IsEven
  := by
  have hlt : y.val < 2 ^ 255 := y.val_lt.trans (by decide)
  split
  · rename_i h
    simpa [h] using hlt
  · rename_i h
    simp [h]

end Residue

namespace AffinePoint

/-- A compressed form writes the representative of `y`, and bit 255 tells whether `x` is odd. -/
theorem toNatLE_compress (P : AffinePoint) :
  toNatLE P.compress.toList
    = P.y.residue.val + 2 ^ 255 * if P.x.residue.IsEven then 0 else 1
  := by
  have hlt : toNatLE P.y.toBytes.toList < 2 ^ 255 := by
    rw [toNatLE_toBytes]
    apply P.y.residue.val_lt.trans (by decide)
  rw [compress, toNatLE_setTopBit hlt, toNatLE_toBytes]
  by_cases heven : P.x.residue.IsEven
  · rw [isNegative_eq_false_iff.mpr heven, if_neg Bool.false_ne_true, if_pos heven]
  · rw [isNegative_iff_not_isEven.mpr heven, if_pos rfl, if_neg heven]

/-- What a pair writes depends on its point alone. -/
theorem Denotes.toNatLE_compress {P : AffinePoint} {R : CurvePoint} (hP : P.Denotes R) :
  toNatLE P.compress.toList = R.compressed
  := by
  rw [AffinePoint.toNatLE_compress, hP.x_eq, hP.y_eq, CurvePoint.compressed]

/-! ### Reading -/

/-- The ratio that is the square of `x` is a square for the `y` of points. -/
theorem exists_onCurve_iff (y : Residue) :
  (∃ x, OnCurve edwardsD.residue x y) ↔ IsSquare ((y ^ 2 - 1) / (edwardsD.residue * y ^ 2 + 1))
  := by
  simp only [CurvePoint.onCurve_iff, isSquare_iff_exists_sq, eq_comm]

/-- An even `x` is given a sign, which shows if `x` is not zero. -/
private theorem onCurve_negateIf {x : FieldElement} {y : Residue} (hx : x.Bounded)
    (heven : x.residue.IsEven) (hcurve : OnCurve edwardsD.residue x.residue y) (negative : Bool) :
  OnCurve edwardsD.residue (x.negateIf negative).residue y
    ∧ ((x.negateIf negative).residue ≠ 0 →
      ((x.negateIf negative).residue.IsEven ↔ negative = false))
  := by
  rw [residue_negateIf hx]
  cases negative with
  | false =>
    rw [if_neg Bool.false_ne_true]
    exact ⟨hcurve, fun _ => iff_of_true heven rfl⟩
  | true =>
    rw [if_pos rfl]
    constructor
    · rw [CurvePoint.onCurve_iff] at hcurve ⊢
      rw [neg_sq, hcurve]
    · intro hne
      rw [Residue.isEven_neg_iff (neg_ne_zero.mp hne)]
      simp [heven]

/-- The coordinate `x` is found if there is one, and it has the given sign, if it is not zero. -/
theorem xOfY?_spec {y : FieldElement} (hy : y.Bounded) (negative : Bool) :
  ((xOfY? y negative).isSome = true ↔ ∃ x, OnCurve edwardsD.residue x y.residue)
    ∧ ∀ x, xOfY? y negative = some x →
      x.Bounded ∧ OnCurve edwardsD.residue x.residue y.residue
        ∧ (x.residue ≠ 0 → (x.residue.IsEven ↔ negative = false))
  := by
  unfold xOfY?
  extract_lets yy
  have hu : (yy - 1).residue = y.residue ^ 2 - 1 := by
    rw [residue_sub (bounded_square _) bounded_one, residue_square hy, residue_one]
  have hv : (edwardsD * yy + 1).residue = edwardsD.residue * y.residue ^ 2 + 1 := by
    rw [residue_add (bounded_mul _ _) bounded_one,
      residue_mul EdwardsPoint.bounded_edwardsD (bounded_square _), residue_square hy, residue_one]
  have hne := CurvePoint.xDenominator_ne_zero y.residue
  have hroot := sqrtRatio_eq (bounded_sub yy 1) (bounded_add (edwardsD * yy) 1)
  have hbounded := bounded_sqrtRatio (yy - 1) (edwardsD * yy + 1)
  rcases heq : sqrtRatio (yy - 1) (edwardsD * yy + 1) with ⟨x, isSquare⟩
  rw [heq, hu, hv] at hroot
  rw [heq] at hbounded
  have hfound := Residue.ratioRoot_snd_iff (u := y.residue ^ 2 - 1) hne
  rw [← hroot, ← exists_onCurve_iff] at hfound
  dsimp only
  cases isSquare with
  | false => simp [← hfound]
  | true =>
    have heven : x.residue.IsEven := by
      have h := Residue.isEven_ratioRoot (y.residue ^ 2 - 1) (edwardsD.residue * y.residue ^ 2 + 1)
      rwa [← hroot] at h
    have hcurve : OnCurve edwardsD.residue x.residue y.residue := by
      have hsquare := (exists_onCurve_iff y.residue).mp (hfound.mp rfl)
      rw [Residue.ratioRoot_of_isSquare hne hsquare] at hroot
      rw [CurvePoint.onCurve_iff, (Prod.mk.inj hroot).1, Residue.evenRoot_sq hsquare]
    rw [if_pos rfl]
    constructor
    · simp [← hfound]
    · intro x' hx'
      obtain rfl := Option.some.inj hx'
      use bounded_negateIf hbounded negative
      apply onCurve_negateIf hbounded heven hcurve

/-- What is read is a point with the lower 255 bits as `y` and with the sign that bit 255 tells. -/
theorem decompress?_spec (c : Vector UInt8 32) :
  ((decompress? c).isSome = true
      ↔ ∃ x, OnCurve edwardsD.residue x (toNatLE c.toList % 2 ^ 255 : Nat))
    ∧ ∀ P, decompress? c = some P → ∃ R, P.Denotes R ∧ R.y = (toNatLE c.toList % 2 ^ 255 : Nat)
      ∧ (R.x ≠ 0 → (R.x.IsEven ↔ toNatLE c.toList < 2 ^ 255))
  := by
  obtain ⟨hfound, hpoint⟩ := xOfY?_spec (bounded_ofBytes c) (topBit c == 1)
  rw [residue_ofBytes] at hfound hpoint
  unfold decompress?
  extract_lets y
  constructor
  · rw [Option.isSome_map, hfound]
  · intro P hP
    obtain ⟨x, hx, rfl⟩ := Option.map_eq_some_iff.mp hP
    obtain ⟨hbounded, hcurve, hsign⟩ := hpoint x hx
    use ⟨x.residue, _, hcurve⟩
    refine ⟨⟨hbounded, bounded_ofBytes c, rfl, residue_ofBytes c⟩, rfl, ?_⟩
    rwa [topBit_eq_one_iff, decide_eq_false_iff_not, not_le] at hsign

/-! ### Round trips -/

end AffinePoint

namespace CurvePoint

/-- The lower 255 bits of a compressed form give `y`. -/
theorem compressed_mod (R : CurvePoint) :
  R.compressed % 2 ^ 255 = R.y.val
  := Residue.signed_mod R.x R.y

/-- Bit 255 of a compressed form gives the sign of `x`. -/
theorem compressed_lt_iff (R : CurvePoint) :
  R.compressed < 2 ^ 255 ↔ R.x.IsEven
  := Residue.signed_lt_iff R.x R.y

/-- A point is determined by its compressed form. -/
theorem compressed_injective :
  Function.Injective compressed
  := by
  intro R S h
  apply ext_of_sign
  · apply ZMod.val_injective
    rw [← compressed_mod R, h, compressed_mod]
  · rw [← compressed_lt_iff R, h, compressed_lt_iff]

end CurvePoint

namespace AffinePoint

/-- The compressed form of a point is read back as the point. -/
theorem decompress?_eq_some {c : Vector UInt8 32} {R : CurvePoint}
    (hc : toNatLE c.toList = R.compressed) :
  ∃ P, decompress? c = some P ∧ P.Denotes R
  := by
  obtain ⟨hfound, hpoint⟩ := decompress?_spec c
  have hy : ((R.compressed % 2 ^ 255 : Nat) : Residue) = R.y := by
    rw [CurvePoint.compressed_mod, ZMod.natCast_val, ZMod.cast_id]
  rw [hc, hy] at hfound hpoint
  obtain ⟨P, hP⟩ := Option.isSome_iff_exists.mp (hfound.mpr ⟨R.x, R.equation⟩)
  obtain ⟨S, hS, hSy, hsign⟩ := hpoint P hP
  use P, hP
  -- the sign is told if the two coordinates `x`, which have the same square, are not zero
  have hRS : S = R := by
    apply CurvePoint.ext_of_sign hSy
    by_cases hx : S.x = 0
    · rw [hx, (CurvePoint.x_eq_zero_iff_of_y_eq hSy).mp hx]
    · rw [hsign hx, CurvePoint.compressed_lt_iff]
  rwa [← hRS]

/-- The bytes that a point is compressed to are read as itself. -/
theorem Denotes.decompress?_compress {P : AffinePoint} {R : CurvePoint} (hP : P.Denotes R) :
  ∃ Q, decompress? P.compress = some Q ∧ Q.Denotes R
  := decompress?_eq_some hP.toNatLE_compress

/-- A string is the compressed form of what is read from it, unless its lower 255 bits are not
reduced, or bit 255 is set although `x` is zero. -/
theorem compress_eq_iff {c : Vector UInt8 32} {P : AffinePoint} (h : decompress? c = some P) :
  P.compress = c ↔ toNatLE c.toList % 2 ^ 255 < modulus
      ∧ ¬ (2 ^ 255 ≤ toNatLE c.toList ∧ P.x.residue = 0)
  := by
  obtain ⟨R, hR, hy, hsign⟩ := (decompress?_spec c).2 P h
  have hlt := toNatLE_lt c.toList
  rw [Vector.length_toList] at hlt
  have hval : R.y.val = toNatLE c.toList % 2 ^ 255 % modulus := by
    rw [hy, ZMod.val_natCast]
  rw [← Vector.toList_inj, ← toNatLE_inj (by simp), hR.toNatLE_compress, hR.x_eq,
    CurvePoint.compressed, hval]
  have hmodulus : modulus < 2 ^ 255 := by decide
  have hreduced : toNatLE c.toList % 2 ^ 255 % modulus = toNatLE c.toList % 2 ^ 255
      ↔ toNatLE c.toList % 2 ^ 255 < modulus := Nat.mod_eq_iff_lt (by decide)
  have hmod := Nat.mod_lt (toNatLE c.toList % 2 ^ 255) (show modulus > 0 by decide)
  rw [← hreduced]
  generalize toNatLE c.toList % 2 ^ 255 % modulus = m at hmod ⊢
  by_cases hx : R.x = 0
  · rw [hx, if_pos Residue.isEven_zero, eq_self, and_true]
    omega
  · simp only [hsign hx, hx, and_false, not_false_eq_true, and_true]
    split <;> omega

/-! ### Conversions -/

/-- Any pair, on the curve or not, is sent to the point with its `y` and with the sign of its `x`,
and to none if no point has that `y`. -/
theorem toEdwards_spec (P : AffinePoint) :
  (P.toEdwards = .error .affineOffCurve ↔ ¬ ∃ x, OnCurve edwardsD.residue x P.y.residue)
    ∧ ((∃ x, OnCurve edwardsD.residue x P.y.residue) →
      ∃ E R, P.toEdwards = .ok E ∧ E.Denotes R ∧ R.y = P.y.residue
        ∧ (R.x ≠ 0 → (R.x.IsEven ↔ P.x.residue.IsEven)))
  := by
  obtain ⟨hfound, hpoint⟩ := decompress?_spec P.compress
  rw [P.toNatLE_compress, Residue.signed_mod, ZMod.natCast_zmod_val] at hfound hpoint
  rw [Residue.signed_lt_iff] at hpoint
  rw [AffinePoint.toEdwards, EdwardsPoint.decompress?]
  cases hread : decompress? P.compress with
  | none =>
    rw [hread] at hfound
    have hnone : ¬ ∃ x, OnCurve edwardsD.residue x P.y.residue := by simpa using hfound
    exact ⟨iff_of_true rfl hnone, fun h => absurd h hnone⟩
  | some Q =>
    rw [hread] at hfound
    obtain ⟨R, hR, hy, hsign⟩ := hpoint Q hread
    constructor
    · exact iff_of_false nofun (not_not.mpr (hfound.mp rfl))
    · intro _
      exact ⟨EdwardsPoint.ofAffine Q, R, rfl, EdwardsPoint.Denotes.ofAffine hR, hy, hsign⟩

/-- The conversion of a pair on the curve succeeds and keeps its point. -/
theorem Denotes.toEdwards {P : AffinePoint} {R : CurvePoint} (hP : P.Denotes R) :
  ∃ E, P.toEdwards = .ok E ∧ E.Denotes R
  := by
  obtain ⟨Q, hread, hQ⟩ := hP.decompress?_compress
  use EdwardsPoint.ofAffine Q
  constructor
  · rw [AffinePoint.toEdwards, EdwardsPoint.decompress?, hread]
    rfl
  · apply EdwardsPoint.Denotes.ofAffine hQ

end AffinePoint

/-- What extended coordinates write depends on their point alone. -/
theorem EdwardsPoint.Denotes.toNatLE_compress {E : EdwardsPoint} {R : CurvePoint}
    (hE : E.Denotes R) :
  toNatLE E.compress.toList = R.compressed
  := hE.normalize.toNatLE_compress

/-- The conversion of extended coordinates succeeds and keeps their point. -/
theorem EdwardsPoint.Denotes.ofEdwards {E : EdwardsPoint} {R : CurvePoint} (hE : E.Denotes R) :
  ∃ P, AffinePoint.ofEdwards E = .ok P ∧ P.Denotes R
  := by
  obtain ⟨P, hread, hP⟩ := AffinePoint.decompress?_eq_some hE.toNatLE_compress
  use P
  constructor
  · rw [AffinePoint.ofEdwards, hread]
    rfl
  · apply hP

namespace AffinePoint

/-- Points are equal when their compressed forms are. -/
theorem Denotes.beq_iff_compress {P Q : AffinePoint} {R S : CurvePoint} (hP : P.Denotes R)
    (hQ : Q.Denotes S) :
  (P == Q) = true ↔ P.compress = Q.compress
  := by
  rw [← Vector.toList_inj, ← toNatLE_inj (by simp), hP.toNatLE_compress, hQ.toNatLE_compress,
    CurvePoint.compressed_injective.eq_iff, beq_iff, hP.x_eq, hP.y_eq, hQ.x_eq, hQ.y_eq,
    CurvePoint.ext_iff]

/-- A pair on the curve is equal to what the group gives back. -/
theorem Denotes.round_trip {P : AffinePoint} {R : CurvePoint} (hP : P.Denotes R) :
  ∃ E Q, P.toEdwards = .ok E ∧ ofEdwards E = .ok Q ∧ (Q == P) = true
  := by
  obtain ⟨E, htoEdwards, hE⟩ := hP.toEdwards
  obtain ⟨Q, hofEdwards, hQ⟩ := hE.ofEdwards
  exact ⟨E, Q, htoEdwards, hofEdwards, hQ.beq hP⟩

/-- A pair that equals what is read from some string is on the curve. -/
theorem isOnCurve_of_beq {c : Vector UInt8 32} {P Q : AffinePoint} (hP : P.Bounded)
    (hQ : decompress? c = some Q) (h : (Q == P) = true) :
  P.isOnCurve = true
  := by
  obtain ⟨R, hR, -⟩ := (decompress?_spec c).2 Q hQ
  obtain ⟨hx, hy⟩ := beq_iff.mp h
  rw [isOnCurve_iff hP, ← hx, ← hy, hR.x_eq, hR.y_eq]
  apply R.equation

/-- The conversion from the group reads the compressed form. -/
theorem ofEdwards_eq_ok_iff {E : EdwardsPoint} {P : AffinePoint} :
  ofEdwards E = .ok P ↔ decompress? E.compress = some P
  := by
  rw [ofEdwards]
  generalize decompress? E.compress = point
  cases point <;> simp

/-- Coordinates are accepted exactly when they pass the test of the curve. -/
theorem ofCoordinates?_isSome_iff (x y : FieldElement) :
  (ofCoordinates? x y).isSome = true ↔ isOnCurve ⟨x, y⟩ = true
  := by
  rw [ofCoordinates?]
  split <;> simp_all

/-- The compressed form is a faithful codec.

A string is read if a point of the curve has its lower 255 bits as `y`.  The point that is read has
that `y` and the sign that bit 255 tells, and the string is its compressed form, unless the lower
255 bits are not reduced, or bit 255 is set although `x` is zero.  A point of the curve passes
through its compressed form and through the group unchanged, so that its compressed form determines
it, and the pairs that pass unchanged are those on the curve. -/
theorem compressed_faithful :
  (∀ c : Vector UInt8 32,
    ((decompress? c).isSome = true
        ↔ ∃ x, OnCurve edwardsD.residue x (toNatLE c.toList % 2 ^ 255 : Nat))
      ∧ ∀ P, decompress? c = some P →
        P.isOnCurve = true
        ∧ P.y.residue = (toNatLE c.toList % 2 ^ 255 : Nat)
        ∧ (P.x.residue ≠ 0 → (P.x.isNegative = true ↔ 2 ^ 255 ≤ toNatLE c.toList))
        ∧ (P.compress = c ↔ toNatLE c.toList % 2 ^ 255 < modulus
          ∧ ¬ (2 ^ 255 ≤ toNatLE c.toList ∧ P.x.residue = 0)))
  ∧ (∀ P : AffinePoint, P.Bounded → P.isOnCurve = true →
    (∃ Q, decompress? P.compress = some Q ∧ (Q == P) = true)
      ∧ (∃ E Q, P.toEdwards = .ok E ∧ ofEdwards E = .ok Q ∧ (Q == P) = true)
      ∧ ∀ Q : AffinePoint, Q.Bounded → Q.isOnCurve = true →
        ((P == Q) = true ↔ P.compress = Q.compress))
  ∧ ∀ P : AffinePoint, P.Bounded →
    ((ofCoordinates? P.x P.y).isSome = true
        ↔ ∃ Q, decompress? P.compress = some Q ∧ (Q == P) = true)
      ∧ ((ofCoordinates? P.x P.y).isSome = true
        ↔ ∃ E Q, P.toEdwards = .ok E ∧ ofEdwards E = .ok Q ∧ (Q == P) = true)
  := by
  refine ⟨?_, ?_, ?_⟩
  · intro c
    obtain ⟨hfound, hpoint⟩ := decompress?_spec c
    use hfound
    intro P hP
    obtain ⟨R, hR, hy, hsign⟩ := hpoint P hP
    refine ⟨hR.isOnCurve, hR.y_eq.trans hy, ?_, compress_eq_iff hP⟩
    intro hx
    rw [hR.x_eq] at hx
    rw [isNegative_iff_not_isEven, hR.x_eq, hsign hx, not_lt]
  · intro P hP hcurve
    obtain ⟨R, hR⟩ := exists_denotes hP hcurve
    refine ⟨?_, hR.round_trip, ?_⟩
    · obtain ⟨Q, hread, hQ⟩ := hR.decompress?_compress
      exact ⟨Q, hread, hQ.beq hR⟩
    · intro Q hQ hcurve'
      obtain ⟨S, hS⟩ := exists_denotes hQ hcurve'
      apply hR.beq_iff_compress hS
  · intro P hP
    rw [ofCoordinates?_isSome_iff]
    constructor
    · constructor
      · intro h
        obtain ⟨R, hR⟩ := exists_denotes hP h
        obtain ⟨Q, hread, hQ⟩ := hR.decompress?_compress
        exact ⟨Q, hread, hQ.beq hR⟩
      · rintro ⟨Q, hread, hbeq⟩
        apply isOnCurve_of_beq hP hread hbeq
    · constructor
      · intro h
        obtain ⟨R, hR⟩ := exists_denotes hP h
        apply hR.round_trip
      · rintro ⟨E, Q, -, hread, hbeq⟩
        apply isOnCurve_of_beq hP (ofEdwards_eq_ok_iff.mp hread) hbeq

/-- The generator of the subgroup. -/
def basePoint : AffinePoint where
  x := ⟨1738742601995546, 1146398526822698, 2070867633025821, 562264141797630, 587772402128613⟩
  y := ⟨1801439850948184, 1351079888211148, 450359962737049, 900719925474099, 1801439850948198⟩

theorem compressed_faithful_basePoint :
  basePoint.Bounded ∧ basePoint.isOnCurve = true
    ∧ ∃ Q, decompress? basePoint.compress = some Q ∧ (Q == basePoint) = true
  := by
  have hbounded : basePoint.Bounded := by
    constructor <;> constructor <;> decide
  have hcurve : basePoint.isOnCurve = true := by decide
  use hbounded, hcurve
  exact (compressed_faithful.2.1 basePoint hbounded hcurve).1

end AffinePoint

end HashToCurve
