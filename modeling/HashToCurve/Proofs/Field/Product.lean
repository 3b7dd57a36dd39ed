import HashToCurve.Proofs.Field.Residue

/-!
# Products of limb vectors

A product is a sum of five columns of 128-bit words.  Carrying the columns takes a multiple of
`p` off the number they write, and leaves limbs of 51 bits but for a small carry into the second
one, whatever the columns are.  The columns of a product of two `Bounded` elements do not overflow,
and write the product of their numbers up to a multiple of `p`.
-/

namespace HashToCurve.FieldElement

open Wide (mulWords toNat_add toNat_double toNat_shiftRight51 toNat_ofWord toNat_lo
  toNat_mulWords)

/-! ### Columns -/

/-- The limbs of carried columns exceed 51 bits only by the carry out of the lowest one. -/
theorem limbsBelow_ofColumns (c0 c1 c2 c3 c4 : Wide) :
  (ofColumns c0 c1 c2 c3 c4).LimbsBelow (2 ^ 51 + 2 ^ 13)
  := by
  have hlow (x : UInt64) : (low51 x).toNat < 2 ^ 51 + 2 ^ 13 :=
    (toNat_low51_lt x).trans (by norm_num)
  constructor
  · apply hlow
  · have h (x y : UInt64) : (low51 x + (y >>> 51)).toNat < 2 ^ 51 + 2 ^ 13 := by
      have hy := y.toNat_lt
      rw [toNat_low51_add_shiftRight51]
      omega
    apply h
  · apply hlow
  · apply hlow
  · apply hlow

/-- A column takes the carry of the column before it without overflow. -/
theorem toNat_add_shiftRight51 {c d : Wide} (hc : c.toNat < 77 * 2 ^ 108)
    (hd : d.toNat < 2 ^ 115) :
  (c + .ofWord d.shiftRight51).toNat = c.toNat + d.toNat / 2 ^ 51
  := by
  have hd' := toNat_shiftRight51 d hd
  rw [toNat_add _ _ (by rw [toNat_ofWord]; omega), toNat_ofWord, hd']

private theorem toNat_low51_lo (w : Wide) :
  (low51 w.lo).toNat = w.toNat % 2 ^ 51
  := by
  rw [toNat_low51, toNat_lo, Nat.mod_mod_of_dvd _ (by norm_num)]

/-- Carrying columns takes a multiple of `p` off the number that they write. -/
theorem toNat_ofColumns {c0 c1 c2 c3 c4 : Wide} (h0 : c0.toNat < 77 * 2 ^ 108)
    (h1 : c1.toNat < 77 * 2 ^ 108) (h2 : c2.toNat < 77 * 2 ^ 108) (h3 : c3.toNat < 77 * 2 ^ 108)
    (h4 : c4.toNat < 5 * 2 ^ 108) :
  ∃ k, (ofColumns c0 c1 c2 c3 c4).toNat + modulus * k
    = c0.toNat + 2 ^ 51 * c1.toNat + 2 ^ 102 * c2.toNat + 2 ^ 153 * c3.toNat
      + 2 ^ 204 * c4.toNat
  := by
  -- the columns with the carries from below
  have hd1 := toNat_add_shiftRight51 (d := c0) h1 (by omega)
  generalize hd1' : c1 + .ofWord c0.shiftRight51 = d1 at hd1
  have hd2 := toNat_add_shiftRight51 (d := d1) h2 (by omega)
  generalize hd2' : c2 + .ofWord d1.shiftRight51 = d2 at hd2
  have hd3 := toNat_add_shiftRight51 (d := d2) h3 (by omega)
  generalize hd3' : c3 + .ofWord d2.shiftRight51 = d3 at hd3
  have hd4 := toNat_add_shiftRight51 (c := c4) (d := d3) (by omega) (by omega)
  generalize hd4' : c4 + .ofWord d3.shiftRight51 = d4 at hd4
  -- the lowest limb with the carry from the top
  have htop := toNat_shiftRight51 d4 (by omega)
  have hlow : (low51 c0.lo + d4.shiftRight51 * 19).toNat
      = c0.toNat % 2 ^ 51 + 19 * (d4.toNat / 2 ^ 51) := by
    rw [UInt64.toNat_add, toNat_mul_nineteen (by omega), toNat_low51_lo, htop]
    omega
  generalize hl0 : low51 c0.lo + d4.shiftRight51 * 19 = l0 at hlow
  have hcolumns : ofColumns c0 c1 c2 c3 c4
      = ⟨low51 l0, low51 d1.lo + (l0 >>> 51), low51 d2.lo, low51 d3.lo, low51 d4.lo⟩ := by
    rw [ofColumns, hd1', hd2', hd3', hd4', hl0]
  use d4.toNat / 2 ^ 51
  rw [hcolumns]
  simp only [toNat, radix, modulus, toNat_low51_lo]
  rw [toNat_low51 l0, toNat_low51_add_shiftRight51, ← toNat_low51 d1.lo, toNat_low51_lo]
  omega

/-- The residue of carried columns is that of the number that the columns write. -/
theorem residue_ofColumns {c0 c1 c2 c3 c4 : Wide} (h0 : c0.toNat < 77 * 2 ^ 108)
    (h1 : c1.toNat < 77 * 2 ^ 108) (h2 : c2.toNat < 77 * 2 ^ 108) (h3 : c3.toNat < 77 * 2 ^ 108)
    (h4 : c4.toNat < 5 * 2 ^ 108) :
  (ofColumns c0 c1 c2 c3 c4).residue
    = c0.toNat + 2 ^ 51 * c1.toNat + 2 ^ 102 * c2.toNat + 2 ^ 153 * c3.toNat
      + 2 ^ 204 * c4.toNat
  := by
  obtain ⟨k, hk⟩ := toNat_ofColumns h0 h1 h2 h3 h4
  rw [residue, natCast_eq_of_add_mul hk]
  push_cast
  rfl

/-! ### Products -/

/-- A word below `m * 2^54`: a limb, or a limb multiplied by 19. -/
abbrev Scaled (m : Nat) (x : UInt64) : Prop := x.toNat < m * 2 ^ 54

/-- A product of a limb and a scaled limb, as a number below its bound. -/
theorem toNat_mulWords_lt {x y : UInt64} {m : Nat} (hx : x.toNat < 2 ^ 54)
    (hy : Scaled m y) :
  (mulWords x y).toNat < m * 2 ^ 108
  := by
  rw [toNat_mulWords]
  calc x.toNat * y.toNat
      < 2 ^ 54 * (m * 2 ^ 54) := Nat.mul_lt_mul'' hx hy
    _ = m * 2 ^ 108 := by ring

theorem scaled_one {x : UInt64} (hx : x.toNat < 2 ^ 54) :
  Scaled 1 x
  := by
  omega

/-- A limb times 19 is scaled by 19. -/
theorem scaled_mul_nineteen {x : UInt64} (hx : x.toNat < 2 ^ 54) :
  Scaled 19 (x * 19)
  := by
  rw [Scaled, toNat_mul_nineteen (by omega)]
  omega

theorem toNat_nineteen_mul {x : UInt64} (hx : x.toNat < 2 ^ 54) :
  (19 * x).toNat = 19 * x.toNat
  := by
  rw [UInt64.mul_comm, toNat_mul_nineteen (by omega)]

theorem scaled_nineteen_mul {x : UInt64} (hx : x.toNat < 2 ^ 54) :
  Scaled 19 (19 * x)
  := by
  rw [UInt64.mul_comm]
  apply scaled_mul_nineteen hx

/-- Sums of products stay below the sums of their bounds, and do not overflow. -/
theorem toNat_add_of_lt {v w : Wide} {m n : Nat} (hv : v.toNat < m * 2 ^ 108)
    (hw : w.toNat < n * 2 ^ 108) (h : m + n ≤ 77) :
  (v + w).toNat = v.toNat + w.toNat ∧ (v + w).toNat < (m + n) * 2 ^ 108
  := by
  have hsum := toNat_add v w (by omega)
  constructor
  · exact hsum
  · omega

/-- A sum of products that is within its bound can be doubled. -/
theorem toNat_double_of_lt {w : Wide} {m : Nat} (hw : w.toNat < m * 2 ^ 108) (h : 2 * m ≤ 77) :
  w.double.toNat = 2 * w.toNat ∧ w.double.toNat < 2 * m * 2 ^ 108
  := by
  have hdouble := toNat_double w (by omega)
  constructor
  · exact hdouble
  · omega

/-- A column of five products does not overflow. -/
theorem toNat_column {x1 x2 x3 x4 x5 y1 y2 y3 y4 y5 : UInt64} {m1 m2 m3 m4 m5 : Nat}
    (hx1 : x1.toNat < 2 ^ 54) (hy1 : Scaled m1 y1) (hx2 : x2.toNat < 2 ^ 54) (hy2 : Scaled m2 y2)
    (hx3 : x3.toNat < 2 ^ 54) (hy3 : Scaled m3 y3) (hx4 : x4.toNat < 2 ^ 54) (hy4 : Scaled m4 y4)
    (hx5 : x5.toNat < 2 ^ 54) (hy5 : Scaled m5 y5) (hm : m1 + m2 + m3 + m4 + m5 ≤ 77) :
  let column := mulWords x1 y1 + mulWords x2 y2 + mulWords x3 y3 + mulWords x4 y4
    + mulWords x5 y5
  column.toNat = x1.toNat * y1.toNat + x2.toNat * y2.toNat + x3.toNat * y3.toNat
      + x4.toNat * y4.toNat + x5.toNat * y5.toNat
    ∧ column.toNat < (m1 + m2 + m3 + m4 + m5) * 2 ^ 108
  := by
  intro column
  obtain ⟨s2, lt2⟩ := toNat_add_of_lt (toNat_mulWords_lt hx1 hy1) (toNat_mulWords_lt hx2 hy2)
    (by omega)
  obtain ⟨s3, lt3⟩ := toNat_add_of_lt lt2 (toNat_mulWords_lt hx3 hy3) (by omega)
  obtain ⟨s4, lt4⟩ := toNat_add_of_lt lt3 (toNat_mulWords_lt hx4 hy4) (by omega)
  obtain ⟨s5, lt5⟩ := toNat_add_of_lt lt4 (toNat_mulWords_lt hx5 hy5) hm
  refine ⟨s5.trans ?_, lt5⟩
  rw [s4, s3, s2]
  simp only [toNat_mulWords]

/-- A column of a square, with the equal products doubled, does not overflow. -/
theorem toNat_squareColumn {x1 x2 x3 y1 y2 y3 : UInt64} {m1 m2 m3 : Nat}
    (hx1 : x1.toNat < 2 ^ 54) (hy1 : Scaled m1 y1) (hx2 : x2.toNat < 2 ^ 54) (hy2 : Scaled m2 y2)
    (hx3 : x3.toNat < 2 ^ 54) (hy3 : Scaled m3 y3) (hm : m1 + 2 * (m2 + m3) ≤ 77) :
  let column := mulWords x1 y1 + (mulWords x2 y2 + mulWords x3 y3).double
  column.toNat = x1.toNat * y1.toNat + 2 * (x2.toNat * y2.toNat + x3.toNat * y3.toNat)
    ∧ column.toNat < (m1 + 2 * (m2 + m3)) * 2 ^ 108
  := by
  intro column
  obtain ⟨s2, lt2⟩ := toNat_add_of_lt (toNat_mulWords_lt hx2 hy2) (toNat_mulWords_lt hx3 hy3)
    (by omega)
  obtain ⟨s3, lt3⟩ := toNat_double_of_lt lt2 (by omega)
  obtain ⟨s4, lt4⟩ := toNat_add_of_lt (toNat_mulWords_lt hx1 hy1) lt3 hm
  refine ⟨s4.trans ?_, lt4⟩
  rw [s3, s2]
  simp only [toNat_mulWords]

/-- The numbers of the columns of a product: in each one the products of two limbs of its weight, and
19 times those of the weight that is `2 ^ 255` times as large. -/
structure AreColumns (a b : FieldElement) (c0 c1 c2 c3 c4 : Wide) : Prop where
  toNat_c0 : c0.toNat = a.l0.toNat * b.l0.toNat
    + 19 * (a.l4.toNat * b.l1.toNat + a.l3.toNat * b.l2.toNat + a.l2.toNat * b.l3.toNat
      + a.l1.toNat * b.l4.toNat)
  toNat_c1 : c1.toNat = a.l1.toNat * b.l0.toNat + a.l0.toNat * b.l1.toNat
    + 19 * (a.l4.toNat * b.l2.toNat + a.l3.toNat * b.l3.toNat + a.l2.toNat * b.l4.toNat)
  toNat_c2 : c2.toNat = a.l2.toNat * b.l0.toNat + a.l1.toNat * b.l1.toNat + a.l0.toNat * b.l2.toNat
    + 19 * (a.l4.toNat * b.l3.toNat + a.l3.toNat * b.l4.toNat)
  toNat_c3 : c3.toNat = a.l3.toNat * b.l0.toNat + a.l2.toNat * b.l1.toNat + a.l1.toNat * b.l2.toNat
    + a.l0.toNat * b.l3.toNat + 19 * (a.l4.toNat * b.l4.toNat)
  toNat_c4 : c4.toNat = a.l4.toNat * b.l0.toNat + a.l3.toNat * b.l1.toNat + a.l2.toNat * b.l2.toNat
    + a.l1.toNat * b.l3.toNat + a.l0.toNat * b.l4.toNat
  c0_lt : c0.toNat < 77 * 2 ^ 108
  c1_lt : c1.toNat < 77 * 2 ^ 108
  c2_lt : c2.toNat < 77 * 2 ^ 108
  c3_lt : c3.toNat < 77 * 2 ^ 108
  c4_lt : c4.toNat < 5 * 2 ^ 108

/-- The columns write the product, since `2 ^ 255` is 19. -/
theorem AreColumns.residue {a b : FieldElement} {c0 c1 c2 c3 c4 : Wide}
    (h : AreColumns a b c0 c1 c2 c3 c4) :
  (ofColumns c0 c1 c2 c3 c4).residue = a.residue * b.residue
  := by
  apply Eq.trans (residue_ofColumns h.c0_lt h.c1_lt h.c2_lt h.c3_lt h.c4_lt)
  rw [h.toNat_c0, h.toNat_c1, h.toNat_c2, h.toNat_c3, h.toNat_c4]
  simp only [FieldElement.residue, toNat, radix]
  push_cast
  linear_combination -(a.l4.toNat * b.l1.toNat + a.l3.toNat * b.l2.toNat
    + a.l2.toNat * b.l3.toNat + a.l1.toNat * b.l4.toNat
    + 2 ^ 51 * (a.l4.toNat * b.l2.toNat + a.l3.toNat * b.l3.toNat + a.l2.toNat * b.l4.toNat)
    + 2 ^ 102 * (a.l4.toNat * b.l3.toNat + a.l3.toNat * b.l4.toNat)
    + 2 ^ 153 * (a.l4.toNat * b.l4.toNat) : Residue) * two_pow_255

/-- Words are determined by their numbers, so there is one way to write the columns. -/
theorem AreColumns.unique {a b : FieldElement} {c0 c1 c2 c3 c4 d0 d1 d2 d3 d4 : Wide}
    (hc : AreColumns a b c0 c1 c2 c3 c4) (hd : AreColumns a b d0 d1 d2 d3 d4) :
  ofColumns c0 c1 c2 c3 c4 = ofColumns d0 d1 d2 d3 d4
  := by
  rw [Wide.toNat_injective (hc.toNat_c0.trans hd.toNat_c0.symm),
    Wide.toNat_injective (hc.toNat_c1.trans hd.toNat_c1.symm),
    Wide.toNat_injective (hc.toNat_c2.trans hd.toNat_c2.symm),
    Wide.toNat_injective (hc.toNat_c3.trans hd.toNat_c3.symm),
    Wide.toNat_injective (hc.toNat_c4.trans hd.toNat_c4.symm)]

/-- A product is reduced from the columns of its factors. -/
theorem mul_eq_ofColumns {a b : FieldElement} (ha : a.Bounded) (hb : b.Bounded) :
  ∃ c0 c1 c2 c3 c4, a * b = ofColumns c0 c1 c2 c3 c4 ∧ AreColumns a b c0 c1 c2 c3 c4
  := by
  obtain ⟨ha0, ha1, ha2, ha3, ha4⟩ := ha
  obtain ⟨hb0, hb1, hb2, hb3, hb4⟩ := hb
  have f1 := scaled_mul_nineteen hb1
  have f2 := scaled_mul_nineteen hb2
  have f3 := scaled_mul_nineteen hb3
  have f4 := scaled_mul_nineteen hb4
  have hfold {x : UInt64} (hx : x.toNat < 2 ^ 54) : (x * 19).toNat = 19 * x.toNat :=
    toNat_mul_nineteen (by omega)
  obtain ⟨v0, lt0⟩ := toNat_column ha0 (scaled_one hb0) ha4 f1 ha3 f2 ha2 f3 ha1 f4 (by norm_num)
  obtain ⟨v1, lt1⟩ := toNat_column ha1 (scaled_one hb0) ha0 (scaled_one hb1) ha4 f2 ha3 f3 ha2 f4
    (by norm_num)
  obtain ⟨v2, lt2⟩ := toNat_column ha2 (scaled_one hb0) ha1 (scaled_one hb1) ha0 (scaled_one hb2)
    ha4 f3 ha3 f4 (by norm_num)
  obtain ⟨v3, lt3⟩ := toNat_column ha3 (scaled_one hb0) ha2 (scaled_one hb1) ha1 (scaled_one hb2)
    ha0 (scaled_one hb3) ha4 f4 (by norm_num)
  obtain ⟨v4, lt4⟩ := toNat_column ha4 (scaled_one hb0) ha3 (scaled_one hb1) ha2 (scaled_one hb2)
    ha1 (scaled_one hb3) ha0 (scaled_one hb4) (by norm_num)
  rw [hfold hb1, hfold hb2, hfold hb3, hfold hb4] at v0
  rw [hfold hb2, hfold hb3, hfold hb4] at v1
  rw [hfold hb3, hfold hb4] at v2
  rw [hfold hb4] at v3
  refine ⟨_, _, _, _, _, rfl, ?_⟩
  constructor
  · apply v0.trans
    ring
  · apply v1.trans
    ring
  · apply v2.trans
    ring
  · apply v3.trans
    ring
  · exact v4
  all_goals omega

/-- A square is reduced from the same columns, with equal products added once and doubled. -/
theorem square_eq_ofColumns {a : FieldElement} (ha : a.Bounded) :
  ∃ c0 c1 c2 c3 c4, a.square = ofColumns c0 c1 c2 c3 c4 ∧ AreColumns a a c0 c1 c2 c3 c4
  := by
  obtain ⟨ha0, ha1, ha2, ha3, ha4⟩ := ha
  have f3 := scaled_nineteen_mul ha3
  have f4 := scaled_nineteen_mul ha4
  obtain ⟨v0, lt0⟩ := toNat_squareColumn ha0 (scaled_one ha0) ha1 f4 ha2 f3 (by norm_num)
  obtain ⟨v1, lt1⟩ := toNat_squareColumn ha3 f3 ha0 (scaled_one ha1) ha2 f4 (by norm_num)
  obtain ⟨v2, lt2⟩ := toNat_squareColumn ha1 (scaled_one ha1) ha0 (scaled_one ha2) ha4 f3
    (by norm_num)
  obtain ⟨v3, lt3⟩ := toNat_squareColumn ha4 f4 ha0 (scaled_one ha3) ha1 (scaled_one ha2)
    (by norm_num)
  obtain ⟨v4, lt4⟩ := toNat_squareColumn ha2 (scaled_one ha2) ha0 (scaled_one ha4) ha1
    (scaled_one ha3) (by norm_num)
  rw [toNat_nineteen_mul ha3, toNat_nineteen_mul ha4] at v0 v1
  rw [toNat_nineteen_mul ha3] at v2
  rw [toNat_nineteen_mul ha4] at v3
  refine ⟨_, _, _, _, _, rfl, ?_⟩
  constructor
  · apply v0.trans
    ring
  · apply v1.trans
    ring
  · apply v2.trans
    ring
  · apply v3.trans
    ring
  · apply v4.trans
    ring
  all_goals omega

/-- A product is bounded, whatever its factors are. -/
@[simp]
theorem bounded_mul (a b : FieldElement) :
  (a * b).Bounded
  := (limbsBelow_ofColumns _ _ _ _ _).mono (by norm_num)

/-- Products of bounded elements denote products of residues. -/
@[simp]
theorem residue_mul {a b : FieldElement} (ha : a.Bounded) (hb : b.Bounded) :
  (a * b).residue = a.residue * b.residue
  := by
  obtain ⟨c0, c1, c2, c3, c4, hmul, hcolumns⟩ := mul_eq_ofColumns ha hb
  rw [hmul, hcolumns.residue]

/-- The doubled products make the same limbs. -/
theorem square_eq_mul {a : FieldElement} (ha : a.Bounded) :
  a.square = a * a
  := by
  obtain ⟨c0, c1, c2, c3, c4, hsquare, hc⟩ := square_eq_ofColumns ha
  obtain ⟨d0, d1, d2, d3, d4, hmul, hd⟩ := mul_eq_ofColumns ha ha
  rw [hsquare, hmul, hc.unique hd]

@[simp]
theorem bounded_square (a : FieldElement) :
  a.square.Bounded
  := (limbsBelow_ofColumns _ _ _ _ _).mono (by norm_num)

/-- Squares of bounded elements denote squares of residues. -/
@[simp]
theorem residue_square {a : FieldElement} (ha : a.Bounded) :
  a.square.residue = a.residue ^ 2
  := by rw [square_eq_mul ha, residue_mul ha ha, sq]

/-! ### Powers and doubled squares -/

/-- Any number of squarings leaves bounded limbs. -/
theorem bounded_pow2k {a : FieldElement} (ha : a.Bounded) (k : Nat) :
  (a.pow2k k).Bounded
  := by
  induction k generalizing a with
  | zero => apply ha
  | succ k ih => apply ih (bounded_square a)

/-- Squaring `k` times gives the power with exponent `2^k`. -/
theorem residue_pow2k {a : FieldElement} (ha : a.Bounded) (k : Nat) :
  (a.pow2k k).residue = a.residue ^ 2 ^ k
  := by
  induction k generalizing a with
  | zero => rw [pow2k, pow_zero, pow_one]
  | succ k ih => rw [pow2k, ih (bounded_square a), residue_square ha, ← pow_mul, ← pow_succ']

/-- Doubling the limbs of a square doubles the bound on them. -/
theorem limbsBelow_square2 (a : FieldElement) :
  a.square2.LimbsBelow (2 ^ 52 + 2 ^ 14)
  := by
  obtain ⟨h0, h1, h2, h3, h4⟩ : a.square.LimbsBelow (2 ^ 51 + 2 ^ 13) :=
    limbsBelow_ofColumns _ _ _ _ _
  constructor
  all_goals
    simp only [square2, UInt64.toNat_mul, show (2 : UInt64).toNat = 2 from rfl]
    omega

@[simp]
theorem bounded_square2 (a : FieldElement) :
  a.square2.Bounded
  := a.limbsBelow_square2.mono (by norm_num)

/-- The doubled square denotes twice the square. -/
@[simp]
theorem residue_square2 {a : FieldElement} (ha : a.Bounded) :
  a.square2.residue = 2 * a.residue ^ 2
  := by
  obtain ⟨h0, h1, h2, h3, h4⟩ := bounded_square a
  rw [← residue_square ha, residue, residue, ← Nat.cast_ofNat, ← Nat.cast_mul]
  congr 1
  simp only [square2, toNat, radix, UInt64.toNat_mul, show (2 : UInt64).toNat = 2 from rfl]
  omega

/-! ### Sums and products of lists -/

/-- A list is folded from its first element, so that there is a result to be bounded only where
the folded operation has bounded results. -/
private theorem residue_foldl {f : FieldElement → FieldElement → FieldElement}
    {g : Residue → Residue → Residue} (hf : ∀ a b, (f a b).Bounded)
    (hg : ∀ a b, a.Bounded → b.Bounded → (f a b).residue = g a.residue b.residue)
    {as : List FieldElement} (has : ∀ a ∈ as, a.Bounded) {a : FieldElement} (ha : a.Bounded) :
  (as.foldl f a).Bounded ∧ (as.foldl f a).residue = (as.map residue).foldl g a.residue
  := by
  induction as generalizing a with
  | nil =>
    constructor
    · apply ha
    · rfl
  | cons b as ih =>
    rw [List.forall_mem_cons] at has
    rw [List.foldl_cons, List.map_cons, List.foldl_cons, ← hg a b ha has.1]
    apply ih has.2 (hf a b)

theorem bounded_sum {as : List FieldElement} (has : ∀ a ∈ as, a.Bounded) :
  (sum as).Bounded
  := by
  cases as with
  | nil => apply bounded_zero
  | cons a as =>
    rw [List.forall_mem_cons] at has
    apply (residue_foldl bounded_add (fun _ _ => residue_add) has.2 has.1).1

/-- The sum of a list of bounded elements denotes the sum of their residues. -/
theorem residue_sum {as : List FieldElement} (has : ∀ a ∈ as, a.Bounded) :
  (sum as).residue = (as.map residue).sum
  := by
  cases as with
  | nil => rfl
  | cons a as =>
    rw [List.forall_mem_cons] at has
    rw [List.map_cons, List.sum_eq_foldl, List.foldl_cons, zero_add]
    apply (residue_foldl bounded_add (fun _ _ => residue_add) has.2 has.1).2

theorem bounded_product {as : List FieldElement} (has : ∀ a ∈ as, a.Bounded) :
  (product as).Bounded
  := by
  cases as with
  | nil => apply bounded_one
  | cons a as =>
    rw [List.forall_mem_cons] at has
    apply (residue_foldl bounded_mul (fun _ _ => residue_mul) has.2 has.1).1

/-- The product of a list of bounded elements denotes the product of their residues. -/
theorem residue_product {as : List FieldElement} (has : ∀ a ∈ as, a.Bounded) :
  (product as).residue = (as.map residue).prod
  := by
  cases as with
  | nil => apply residue_one
  | cons a as =>
    rw [List.forall_mem_cons] at has
    rw [List.map_cons, List.prod_eq_foldl, List.foldl_cons, one_mul]
    apply (residue_foldl bounded_mul (fun _ _ => residue_mul) has.2 has.1).2

end HashToCurve.FieldElement
