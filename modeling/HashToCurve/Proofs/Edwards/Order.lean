import HashToCurve.Proofs.Edwards.Extended
import Mathlib.GroupTheory.OrderOfElement

/-!
# The order of the group

The group has `8 l` points, with `l` the prime order of the subgroup.  A point is determined by its
`y` and the sign of its `x`, so there are at most `2 p < 16 l` points.  On the other hand, there is a
point of order `l` and one of order 8, so that the number of points is a multiple of `8 l`.

The orders of the two points are found by evaluation, on extended coordinates that are held as
numbers modulo `p`.
-/

namespace HashToCurve

open FieldElement (modulus)
open EdwardsPoint (subgroupOrder)

namespace CurvePoint

/-! ### Evaluation on numbers -/

/-- Extended coordinates held as numbers. -/
structure NumberPoint where
  x : Nat
  y : Nat
  z : Nat
  t : Nat

namespace NumberPoint

/-- The numbers stand for extended coordinates of a point. -/
def Denotes (N : NumberPoint) (P : CurvePoint) : Prop := P.HasCoordinates N.x N.y N.z N.t

/-- The product modulo `p`. -/
def mulMod (a b : Nat) : Nat := a * b % modulus

/-- The difference modulo `p`, as a sum with a multiple of `p - 1`. -/
def subMod (a b : Nat) : Nat := (a + (modulus - 1) * b) % modulus

/-- Products modulo `p` of numbers are products of residues. -/
theorem cast_mulMod (a b : Nat) :
  (mulMod a b : Residue) = a * b
  := by
  rw [mulMod, ZMod.natCast_mod, Nat.cast_mul]

/-- Differences modulo `p` of numbers are differences of residues. -/
theorem cast_subMod (a b : Nat) :
  (subMod a b : Residue) = a - b
  := by
  rw [subMod, ZMod.natCast_mod, Nat.cast_add, Nat.cast_mul, Nat.cast_sub (by decide),
    ZMod.natCast_self]
  ring

/-- The formulas of the addition. -/
def add (M N : NumberPoint) : NumberPoint :=
  let a := mulMod (subMod M.y M.x) (subMod N.y N.x)
  let b := mulMod (M.y + M.x) (N.y + N.x)
  let c := mulMod (mulMod (2 * edwardsD.toNat) M.t) N.t
  let d := mulMod (2 * M.z) N.z
  let e := subMod b a
  let f := subMod d c
  let g := d + c
  let h := b + a
  ⟨mulMod e f, mulMod g h, mulMod f g, mulMod e h⟩

/-- The multiple with a factor `n` below `2 ^ bits`. -/
def multiple (N : NumberPoint) : (bits n : Nat) → NumberPoint
  | 0, _ => ⟨0, 1, 1, 0⟩
  | bits + 1, n =>
    let half := multiple N bits (n / 2)
    if n % 2 = 1 then (half.add half).add N else half.add half

/-- Whether the numbers stand for coordinates of the neutral element. -/
def IsZero (N : NumberPoint) : Prop := N.x % modulus = 0 ∧ N.y % modulus = N.z % modulus

instance (N : NumberPoint) : Decidable N.IsZero := inferInstanceAs (Decidable (_ ∧ _))

variable {M N : NumberPoint} {P Q : CurvePoint}

/-- The formulas on numbers compute the sum of two points. -/
theorem Denotes.add (hM : M.Denotes P) (hN : N.Denotes Q) :
  (M.add N).Denotes (P + Q)
  := by
  have h := HasCoordinates.add hM hN rfl rfl rfl rfl
  unfold NumberPoint.add
  simp only [Denotes, cast_mulMod, cast_subMod, Nat.cast_add, Nat.cast_mul, Nat.cast_ofNat]
  apply h

/-- Doubling and adding along the bits of a factor computes the multiple. -/
theorem Denotes.multiple (hN : N.Denotes P) {bits n : Nat} (hn : n < 2 ^ bits) :
  (N.multiple bits n).Denotes (n • P)
  := by
  induction bits generalizing n with
  | zero =>
    obtain rfl : n = 0 := by omega
    rw [zero_smul]
    constructor <;> simp [NumberPoint.multiple]
  | succ bits ih =>
    have hhalf := ih (n := n / 2) (by omega)
    have htwice := hhalf.add hhalf
    rw [← two_nsmul, smul_smul] at htwice
    rw [NumberPoint.multiple]
    split
    · rename_i hodd
      have hn : n • P = (2 * (n / 2)) • P + P := by
        rw [← succ_nsmul]
        congr 1
        omega
      rw [hn]
      apply htwice.add hN
    · rename_i heven
      rwa [show 2 * (n / 2) = n by omega] at htwice

/-- The test on numbers decides whether a point is the neutral element. -/
theorem Denotes.isZero_iff (hN : N.Denotes P) :
  N.IsZero ↔ P = 0
  := by
  rw [HasCoordinates.eq_zero_iff hN, IsZero, ZMod.natCast_eq_natCast_iff',
    ZMod.natCast_eq_zero_iff, Nat.dvd_iff_mod_eq_zero]

end NumberPoint

/-! ### Two points -/

/-- The point of the curve with given coordinates. -/
def ofNumbers (x y : Nat)
    (h : y ^ 2 % modulus = (1 + edwardsD.toNat * x ^ 2 * y ^ 2 + x ^ 2) % modulus) : CurvePoint where
  x := x
  y := y
  equation := by
    have h := Residue.natCast_eq_natCast h
    push_cast at h
    rw [OnCurve, FieldElement.residue]
    linear_combination h

/-- A point given by two numbers has extended coordinates on numbers. -/
theorem denotes_ofNumbers {x y : Nat}
    (h : y ^ 2 % modulus = (1 + edwardsD.toNat * x ^ 2 * y ^ 2 + x ^ 2) % modulus) :
  NumberPoint.Denotes ⟨x, y, 1, x * y⟩ (ofNumbers x y h)
  := by
  constructor <;> simp [ofNumbers]

/-- The multiples of a point that vanish are found by evaluation. -/
theorem nsmul_ofNumbers_eq_zero_iff {x y n : Nat}
    (h : y ^ 2 % modulus = (1 + edwardsD.toNat * x ^ 2 * y ^ 2 + x ^ 2) % modulus)
    (hn : n < 2 ^ 256) :
  n • ofNumbers x y h = 0 ↔ (NumberPoint.multiple ⟨x, y, 1, x * y⟩ 256 n).IsZero
  := ((denotes_ofNumbers h).multiple hn).isZero_iff.symm

/-- The generator of the subgroup with `y = 4 / 5`. -/
def basePoint : CurvePoint :=
  ofNumbers 15112221349535400772501151409588531511454012693041857206046113283949847762202
    46316835694926478169428394003475163141307993866256225615783033603165251855960
    (by decide)

/-- A point of order 8. -/
def torsionPoint : CurvePoint :=
  ofNumbers 14399317868200118260347934320527232580618823971194345261214217575416788799818
    55188659117513257062467267217118295137698188065244968500265048394206261417927
    (by decide)

/-- A table that ends with the order of the subgroup. -/
def orderTable : List Primality.Row :=
  [⟨1224481, 13, [2, 2, 2, 2, 2, 3, 5, 2551]⟩,
    ⟨14741173, 2, [2, 2, 3, 3, 409477]⟩,
    ⟨58964693, 2, [2, 2, 14741173]⟩,
    ⟨292386187, 2, [2, 3, 3, 3, 3, 307, 5879]⟩,
    ⟨213441916511, 13, [2, 5, 73, 292386187]⟩,
    ⟨1257559732178653, 2, [2, 2, 3, 7, 23, 531581, 1224481]⟩,
    ⟨4434155615661930479, 17, [2, 41, 43, 1257559732178653]⟩,
    ⟨3044861653679985063343, 5, [2, 3, 11, 30703, 82163, 132667, 137849]⟩,
    ⟨172054593956031949258510691, 2, [2, 5, 1361, 2851, 4434155615661930479]⟩,
    ⟨198211423230930754013084525763697, 5,
      [2, 2, 2, 2, 3, 23, 58964693, 3044861653679985063343]⟩,
    ⟨19757330305831588566944191468367130476339, 2,
      [2, 269, 213441916511, 172054593956031949258510691]⟩,
    ⟨276602624281642239937218680557139826668747, 2,
      [2, 7, 19757330305831588566944191468367130476339]⟩,
    ⟨subgroupOrder, 2,
      [2, 2, 3, 11, 198211423230930754013084525763697,
        276602624281642239937218680557139826668747]⟩]

/-- The number `l` is prime, by the last row of its table. -/
theorem prime_subgroupOrder :
  subgroupOrder.Prime
  := by
  have hvalid : Primality.Valid [] orderTable := by decide +kernel
  apply hvalid.prime_of_mem
  simp [orderTable]

/-- The generator has order `l`: its multiple with factor `l` is the neutral element, and `l` is
prime. -/
theorem addOrderOf_basePoint :
  addOrderOf basePoint = subgroupOrder
  := by
  have := Fact.mk prime_subgroupOrder
  apply addOrderOf_eq_prime
  · rw [basePoint, nsmul_ofNumbers_eq_zero_iff _ (by decide)]
    decide +kernel
  · rw [← one_nsmul basePoint, basePoint, ne_eq, nsmul_ofNumbers_eq_zero_iff _ (by decide)]
    decide +kernel

/-- The torsion point has order 8: its multiple with factor 8 is the neutral element, and that with
factor 4 is not. -/
theorem addOrderOf_torsionPoint :
  addOrderOf torsionPoint = 8
  := by
  apply addOrderOf_eq_prime_pow (p := 2) (n := 2)
  · rw [torsionPoint, nsmul_ofNumbers_eq_zero_iff _ (by decide)]
    decide +kernel
  · rw [torsionPoint, nsmul_ofNumbers_eq_zero_iff _ (by decide)]
    decide +kernel

/-! ### The number of points -/

/-- The coordinate `y` and the sign of `x`. -/
private def signed (P : CurvePoint) : Residue × Bool := (P.y, decide P.x.IsEven)

private theorem signed_injective :
  Function.Injective signed
  := by
  intro P Q h
  simp only [signed, Prod.mk.injEq, decide_eq_decide] at h
  apply ext_of_sign h.1 h.2

instance : Finite CurvePoint := Finite.of_injective signed signed_injective

/-- There are two signs for each `y` at most. -/
theorem card_le :
  Nat.card CurvePoint ≤ modulus * 2
  := by
  have hbool : Nat.card Bool = 2 := by rw [Nat.card_eq_fintype_card, Fintype.card_bool]
  have h := Nat.card_le_card_of_injective signed signed_injective
  rwa [Nat.card_prod, Nat.card_zmod, hbool] at h

/-- The order of the group. -/
theorem card_eq :
  Nat.card CurvePoint = 8 * subgroupOrder
  := by
  have hl : subgroupOrder ∣ Nat.card CurvePoint := by
    rw [← addOrderOf_basePoint]
    apply addOrderOf_dvd_natCard
  have h8 : 8 ∣ Nat.card CurvePoint := by
    rw [← addOrderOf_torsionPoint]
    apply addOrderOf_dvd_natCard
  have hcoprime : Nat.Coprime 8 subgroupOrder := by decide
  obtain ⟨k, hk⟩ := hcoprime.mul_dvd_of_dvd_of_dvd h8 hl
  have hpos : 0 < Nat.card CurvePoint := Nat.card_pos
  have hle := card_le
  have hbound : modulus * 2 < 8 * subgroupOrder * 2 := by decide
  have hk0 : k ≠ 0 := by
    rintro rfl
    omega
  have hk2 : k < 2 := by
    by_contra h
    have := Nat.mul_le_mul_left (8 * subgroupOrder) (not_lt.mp h)
    omega
  obtain rfl : k = 1 := by omega
  rw [hk, mul_one]

/-- The multiples by the cofactor are in the subgroup. -/
theorem subgroupOrder_nsmul_eight_nsmul (P : CurvePoint) :
  subgroupOrder • (8 • P) = 0
  := by
  rw [smul_smul, mul_comm, ← card_eq]
  apply card_nsmul_eq_zero'

end CurvePoint

end HashToCurve
