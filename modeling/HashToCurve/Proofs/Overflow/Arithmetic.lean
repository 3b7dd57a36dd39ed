import HashToCurve.Proofs.Field.Encoding

/-!
# Arithmetic without overflow

The arithmetic of limbs with every word operation checked: a function has no result if a sum, a
difference or a product leaves its word, if a column is truncated, or if a factor has a limb from
`2^54` on.  On bounded elements all checks pass, so that the results are those of the unchecked
functions.
-/

namespace HashToCurve.Checked

open FieldElement (low51 Bounded LimbsBelow Scaled scaled_one scaled_nineteen_mul
  scaled_mul_nineteen toNat_mulWords_lt toNat_add_of_lt toNat_double_of_lt)
open Wide (mulWords)

/-- A check that passes.  Not by definition, so that no check is evaluated on the way. -/
theorem bind_of_some {γ δ : Type} {x : Option γ} {a : γ} (h : x = some a) (f : γ → Option δ) :
  x >>= f = f a
  := by
  rw [h, Option.bind_eq_bind, Option.bind_some]

/-! ### Words -/

/-- The sum of two words, if it is one. -/
def addWord (x y : UInt64) : Option UInt64 :=
  if x.toNat + y.toNat < 2 ^ 64 then some (x + y) else none

/-- The difference of two words, if it is one. -/
def subWord (x y : UInt64) : Option UInt64 := if y.toNat ≤ x.toNat then some (x - y) else none

/-- The product of two words, if it is one. -/
def mulWord (x y : UInt64) : Option UInt64 :=
  if x.toNat * y.toNat < 2 ^ 64 then some (x * y) else none

/-- The sum of two 128-bit words, if it is one. -/
def addWide (v w : Wide) : Option Wide := if v.toNat + w.toNat < 2 ^ 128 then some (v + w) else none

/-- The product of two words as a 128-bit word, if it is one. -/
def mulWide (x y : UInt64) : Option Wide :=
  if x.toNat * y.toNat < 2 ^ 128 then some (mulWords x y) else none

/-- The double of a 128-bit word, if it is one. -/
def doubleWide (w : Wide) : Option Wide := if 2 * w.toNat < 2 ^ 128 then some w.double else none

/-- The bits of a 128-bit word from position 51 on, if a word holds them. -/
def shiftWide (w : Wide) : Option UInt64 :=
  if w.toNat / 2 ^ 51 < 2 ^ 64 then some w.shiftRight51 else none

/-- A sum that fits into a word passes its check. -/
theorem addWord_eq {x y : UInt64} (h : x.toNat + y.toNat < 2 ^ 64) :
  addWord x y = some (x + y)
  := if_pos h

theorem subWord_eq {x y : UInt64} (h : y.toNat ≤ x.toNat) :
  subWord x y = some (x - y)
  := if_pos h

theorem mulWord_eq {x y : UInt64} (h : x.toNat * y.toNat < 2 ^ 64) :
  mulWord x y = some (x * y)
  := if_pos h

theorem mulWord_nineteen {x : UInt64} (hx : 19 * x.toNat < 2 ^ 64) :
  mulWord x 19 = some (x * 19)
  := by
  apply mulWord_eq
  rwa [show (19 : UInt64).toNat = 19 from rfl, Nat.mul_comm]

theorem nineteen_mulWord {x : UInt64} (hx : 19 * x.toNat < 2 ^ 64) :
  mulWord 19 x = some (19 * x)
  := mulWord_eq hx

theorem addWide_eq {v w : Wide} (h : v.toNat + w.toNat < 2 ^ 128) :
  addWide v w = some (v + w)
  := if_pos h

/-- Sums of products that are below their bounds. -/
theorem addWide_of_lt {v w : Wide} {m n : Nat} (hv : v.toNat < m * 2 ^ 108)
    (hw : w.toNat < n * 2 ^ 108) (h : m + n ≤ 77) :
  addWide v w = some (v + w)
  := by
  apply addWide_eq
  omega

/-- A 128-bit word holds every product of two words. -/
theorem mulWide_eq (x y : UInt64) :
  mulWide x y = some (mulWords x y)
  := by
  apply if_pos
  calc x.toNat * y.toNat
      < 2 ^ 64 * 2 ^ 64 := Nat.mul_lt_mul'' x.toNat_lt y.toNat_lt
    _ = 2 ^ 128 := by norm_num

theorem doubleWide_eq {w : Wide} (h : 2 * w.toNat < 2 ^ 128) :
  doubleWide w = some w.double
  := if_pos h

/-- Below `2^115`, what exceeds 51 bits fits into a word. -/
theorem shiftWide_eq {w : Wide} (h : w.toNat < 2 ^ 115) :
  shiftWide w = some w.shiftRight51
  := if_pos (by omega)

/-- A limb has room for what is carried into it. -/
theorem addWord_low51 (x : UInt64) {y : UInt64} (hy : y.toNat + 2 ^ 51 < 2 ^ 64) :
  addWord (low51 x) y = some (low51 x + y)
  := by
  have hx := toNat_low51_lt x
  apply addWord_eq
  omega

/-- A limb of 51 bits takes the carry of any word. -/
theorem addWord_low51_shiftRight51 (x y : UInt64) :
  addWord (low51 x) (y >>> 51) = some (low51 x + (y >>> 51))
  := by
  have hy := toNat_shiftRight51_lt y
  apply addWord_low51
  omega

/-! ### Sums and differences -/

/-- The carry of every limb into the next one. -/
def carry (a : FieldElement) : Option FieldElement := do
  let top ← mulWord (a.l4 >>> 51) 19
  let l0 ← addWord (low51 a.l0) top
  let l1 ← addWord (low51 a.l1) (a.l0 >>> 51)
  let l2 ← addWord (low51 a.l2) (a.l1 >>> 51)
  let l3 ← addWord (low51 a.l3) (a.l2 >>> 51)
  let l4 ← addWord (low51 a.l4) (a.l3 >>> 51)
  return ⟨l0, l1, l2, l3, l4⟩

/-- A carry never overflows. -/
theorem carry_eq (a : FieldElement) :
  carry a = some a.carry
  := by
  have htop := toNat_shiftRight51_lt a.l4
  have hmul := mulWord_nineteen (x := a.l4 >>> 51) (by omega)
  have hproduct : ((a.l4 >>> 51) * 19).toNat + 2 ^ 51 < 2 ^ 64 := by
    rw [toNat_mul_nineteen (by omega)]
    omega
  simp only [carry, hmul, addWord_low51 a.l0 hproduct, addWord_low51_shiftRight51,
    Option.bind_eq_bind, Option.bind_some, Option.pure_def]
  rfl

/-- The sum of two elements. -/
def add (a b : FieldElement) : Option FieldElement := do
  carry
    ⟨← addWord a.l0 b.l0, ← addWord a.l1 b.l1, ← addWord a.l2 b.l2, ← addWord a.l3 b.l3,
      ← addWord a.l4 b.l4⟩

variable {a b : FieldElement}

/-- Limbs below `2^54` are added without overflow. -/
theorem add_eq (ha : a.Bounded) (hb : b.Bounded) :
  add a b = some (a + b)
  := by
  obtain ⟨ha0, ha1, ha2, ha3, ha4⟩ := ha
  obtain ⟨hb0, hb1, hb2, hb3, hb4⟩ := hb
  have hsum {x y : UInt64} (hx : x.toNat < 2 ^ 54) (hy : y.toNat < 2 ^ 54) :
      addWord x y = some (x + y) := addWord_eq (by omega)
  simp only [add, hsum ha0 hb0, hsum ha1 hb1, hsum ha2 hb2, hsum ha3 hb3, hsum ha4 hb4, carry_eq,
    Option.bind_eq_bind, Option.bind_some]
  rfl

/-- The difference of two limbs, with a limb of a multiple of `p` added before. -/
def subLimb (x multiple y : UInt64) : Option UInt64 := do subWord (← addWord x multiple) y

open FieldElement (lowLimbOfMultiple highLimbOfMultiple)

/-- The difference of two elements. -/
def sub (a b : FieldElement) : Option FieldElement := do
  carry
    ⟨← subLimb a.l0 lowLimbOfMultiple b.l0, ← subLimb a.l1 highLimbOfMultiple b.l1,
      ← subLimb a.l2 highLimbOfMultiple b.l2, ← subLimb a.l3 highLimbOfMultiple b.l3,
      ← subLimb a.l4 highLimbOfMultiple b.l4⟩

/-- The limbs of the multiple lie between `2^54` and `2^55`. -/
theorem subLimb_eq {x multiple y : UInt64} (hx : x.toNat < 2 ^ 54) (hy : y.toNat < 2 ^ 54)
    (hlow : 2 ^ 54 ≤ multiple.toNat) (hhigh : multiple.toNat < 2 ^ 55) :
  subLimb x multiple y = some (x + multiple - y)
  := by
  rw [subLimb, addWord_eq (by omega), Option.bind_eq_bind, Option.bind_some]
  apply subWord_eq
  rw [UInt64.toNat_add]
  omega

/-- The multiple of `p` that is added first exceeds every limb below `2^54`. -/
theorem sub_eq (ha : a.Bounded) (hb : b.Bounded) :
  sub a b = some (a - b)
  := by
  obtain ⟨ha0, ha1, ha2, ha3, ha4⟩ := ha
  obtain ⟨hb0, hb1, hb2, hb3, hb4⟩ := hb
  have hhigh {x y : UInt64} (hx : x.toNat < 2 ^ 54) (hy : y.toNat < 2 ^ 54) :
      subLimb x highLimbOfMultiple y = some (x + highLimbOfMultiple - y) :=
    subLimb_eq hx hy (by decide) (by decide)
  simp only [sub, subLimb_eq ha0 hb0 (by decide : 2 ^ 54 ≤ lowLimbOfMultiple.toNat) (by decide),
    hhigh ha1 hb1, hhigh ha2 hb2, hhigh ha3 hb3, hhigh ha4 hb4, carry_eq, Option.bind_eq_bind,
    Option.bind_some]
  rfl

/-- The opposite of an element. -/
def neg (a : FieldElement) : Option FieldElement := sub 0 a

theorem neg_eq (ha : a.Bounded) :
  neg a = some (-a)
  := sub_eq FieldElement.bounded_zero ha

/-- The opposite of an element is computed also where it is not chosen. -/
def negateIf (a : FieldElement) (choice : Bool) : Option FieldElement :=
  return a.select (← neg a) choice

theorem negateIf_eq (ha : a.Bounded) (choice : Bool) :
  negateIf a choice = some (a.negateIf choice)
  := by
  rw [negateIf, neg_eq ha]
  rfl

/-! ### Products -/

/-- The limbs of five column sums. -/
def ofColumns (c0 c1 c2 c3 c4 : Wide) : Option FieldElement := do
  let c1 ← addWide c1 (.ofWord (← shiftWide c0))
  let c2 ← addWide c2 (.ofWord (← shiftWide c1))
  let c3 ← addWide c3 (.ofWord (← shiftWide c2))
  let c4 ← addWide c4 (.ofWord (← shiftWide c3))
  let l0 ← addWord (low51 c0.lo) (← mulWord (← shiftWide c4) 19)
  let l1 ← addWord (low51 c1.lo) (l0 >>> 51)
  return ⟨low51 l0, l1, low51 c2.lo, low51 c3.lo, low51 c4.lo⟩

/-- Columns within their bounds leave carries that fit into words, up to the one into the lowest
limb. -/
theorem ofColumns_eq {c0 c1 c2 c3 c4 : Wide} (h0 : c0.toNat < 77 * 2 ^ 108)
    (h1 : c1.toNat < 77 * 2 ^ 108) (h2 : c2.toNat < 77 * 2 ^ 108) (h3 : c3.toNat < 77 * 2 ^ 108)
    (h4 : c4.toNat < 5 * 2 ^ 108) :
  ofColumns c0 c1 c2 c3 c4 = some (FieldElement.ofColumns c0 c1 c2 c3 c4)
  := by
  have hadd {c d : Wide} (hc : c.toNat < 77 * 2 ^ 108) (hd : d.toNat < 2 ^ 115) :
      addWide c (.ofWord d.shiftRight51) = some (c + .ofWord d.shiftRight51) := by
    apply addWide_eq
    rw [Wide.toNat_ofWord, Wide.toNat_shiftRight51 d hd]
    omega
  -- the columns with the carries from below
  have hd1 := FieldElement.toNat_add_shiftRight51 (d := c0) h1 (by omega)
  generalize hd1' : c1 + .ofWord c0.shiftRight51 = d1 at hd1
  have hd2 := FieldElement.toNat_add_shiftRight51 (d := d1) h2 (by omega)
  generalize hd2' : c2 + .ofWord d1.shiftRight51 = d2 at hd2
  have hd3 := FieldElement.toNat_add_shiftRight51 (d := d2) h3 (by omega)
  generalize hd3' : c3 + .ofWord d2.shiftRight51 = d3 at hd3
  have hd4 := FieldElement.toNat_add_shiftRight51 (c := c4) (d := d3) (by omega) (by omega)
  generalize hd4' : c4 + .ofWord d3.shiftRight51 = d4 at hd4
  have htop := Wide.toNat_shiftRight51 d4 (by omega)
  have hproduct : (d4.shiftRight51 * 19).toNat + 2 ^ 51 < 2 ^ 64 := by
    rw [toNat_mul_nineteen (by omega)]
    omega
  rw [ofColumns, bind_of_some (shiftWide_eq (w := c0) (by omega)),
    bind_of_some (hadd (c := c1) h1 (by omega)), hd1',
    bind_of_some (shiftWide_eq (w := d1) (by omega)),
    bind_of_some (hadd (c := c2) h2 (by omega)), hd2',
    bind_of_some (shiftWide_eq (w := d2) (by omega)),
    bind_of_some (hadd (c := c3) h3 (by omega)), hd3',
    bind_of_some (shiftWide_eq (w := d3) (by omega)),
    bind_of_some (hadd (c := c4) (by omega) (by omega)), hd4',
    bind_of_some (shiftWide_eq (w := d4) (by omega)),
    bind_of_some (mulWord_nineteen (x := d4.shiftRight51) (by omega)),
    bind_of_some (addWord_low51 c0.lo hproduct), bind_of_some (addWord_low51_shiftRight51 d1.lo _),
    FieldElement.ofColumns, hd1', hd2', hd3', hd4']
  rfl

/-- A column of five products. -/
def column (x1 y1 x2 y2 x3 y3 x4 y4 x5 y5 : UInt64) : Option Wide := do
  let s2 ← addWide (← mulWide x1 y1) (← mulWide x2 y2)
  let s3 ← addWide s2 (← mulWide x3 y3)
  let s4 ← addWide s3 (← mulWide x4 y4)
  addWide s4 (← mulWide x5 y5)

/-- A column of five products is added up without overflow if the scales of its factors sum to 77 or
less. -/
theorem column_eq {x1 x2 x3 x4 x5 y1 y2 y3 y4 y5 : UInt64} {m1 m2 m3 m4 m5 : Nat}
    (hx1 : x1.toNat < 2 ^ 54) (hy1 : Scaled m1 y1) (hx2 : x2.toNat < 2 ^ 54) (hy2 : Scaled m2 y2)
    (hx3 : x3.toNat < 2 ^ 54) (hy3 : Scaled m3 y3) (hx4 : x4.toNat < 2 ^ 54) (hy4 : Scaled m4 y4)
    (hx5 : x5.toNat < 2 ^ 54) (hy5 : Scaled m5 y5) (hm : m1 + m2 + m3 + m4 + m5 ≤ 77) :
  let sum := mulWords x1 y1 + mulWords x2 y2 + mulWords x3 y3 + mulWords x4 y4 + mulWords x5 y5
  column x1 y1 x2 y2 x3 y3 x4 y4 x5 y5 = some sum
    ∧ sum.toNat < (m1 + m2 + m3 + m4 + m5) * 2 ^ 108
  := by
  intro sum
  have hsum := (FieldElement.toNat_column hx1 hy1 hx2 hy2 hx3 hy3 hx4 hy4 hx5 hy5 hm).2
  refine ⟨?_, hsum⟩
  have h1 := toNat_mulWords_lt hx1 hy1
  have h2 := toNat_mulWords_lt hx2 hy2
  have h3 := toNat_mulWords_lt hx3 hy3
  have h4 := toNat_mulWords_lt hx4 hy4
  have h5 := toNat_mulWords_lt hx5 hy5
  obtain ⟨-, lt2⟩ := toNat_add_of_lt h1 h2 (by omega)
  obtain ⟨-, lt3⟩ := toNat_add_of_lt lt2 h3 (by omega)
  obtain ⟨-, lt4⟩ := toNat_add_of_lt lt3 h4 (by omega)
  rw [column, bind_of_some (mulWide_eq x1 y1), bind_of_some (mulWide_eq x2 y2),
    bind_of_some (addWide_of_lt h1 h2 (by omega)), bind_of_some (mulWide_eq x3 y3),
    bind_of_some (addWide_of_lt lt2 h3 (by omega)), bind_of_some (mulWide_eq x4 y4),
    bind_of_some (addWide_of_lt lt3 h4 (by omega)), bind_of_some (mulWide_eq x5 y5)]
  apply addWide_of_lt lt4 h5 hm

/-- A column of a square, with the equal products doubled. -/
def squareColumn (x1 y1 x2 y2 x3 y3 : UInt64) : Option Wide := do
  let product ← mulWide x1 y1
  let sum ← addWide (← mulWide x2 y2) (← mulWide x3 y3)
  addWide product (← doubleWide sum)

/-- A column of a square, which doubles the products that occur twice, is added up without overflow if
the scales sum to 77 or less with these counted twice. -/
theorem squareColumn_eq {x1 x2 x3 y1 y2 y3 : UInt64} {m1 m2 m3 : Nat}
    (hx1 : x1.toNat < 2 ^ 54) (hy1 : Scaled m1 y1) (hx2 : x2.toNat < 2 ^ 54) (hy2 : Scaled m2 y2)
    (hx3 : x3.toNat < 2 ^ 54) (hy3 : Scaled m3 y3) (hm : m1 + 2 * (m2 + m3) ≤ 77) :
  let sum := mulWords x1 y1 + (mulWords x2 y2 + mulWords x3 y3).double
  squareColumn x1 y1 x2 y2 x3 y3 = some sum ∧ sum.toNat < (m1 + 2 * (m2 + m3)) * 2 ^ 108
  := by
  intro sum
  have hsum := (FieldElement.toNat_squareColumn hx1 hy1 hx2 hy2 hx3 hy3 hm).2
  refine ⟨?_, hsum⟩
  have h1 := toNat_mulWords_lt hx1 hy1
  have h2 := toNat_mulWords_lt hx2 hy2
  have h3 := toNat_mulWords_lt hx3 hy3
  obtain ⟨-, lt2⟩ := toNat_add_of_lt h2 h3 (by omega)
  obtain ⟨-, lt3⟩ := toNat_double_of_lt lt2 (by omega)
  rw [squareColumn, bind_of_some (mulWide_eq x1 y1), bind_of_some (mulWide_eq x2 y2),
    bind_of_some (mulWide_eq x3 y3), bind_of_some (addWide_of_lt h2 h3 (by omega)),
    bind_of_some (doubleWide_eq (by omega))]
  apply addWide_of_lt h1 lt3 hm

instance (bound : Nat) (a : FieldElement) : Decidable (a.LimbsBelow bound) :=
  decidable_of_iff
    (a.l0.toNat < bound ∧ a.l1.toNat < bound ∧ a.l2.toNat < bound ∧ a.l3.toNat < bound
      ∧ a.l4.toNat < bound)
    ⟨fun ⟨h0, h1, h2, h3, h4⟩ => ⟨h0, h1, h2, h3, h4⟩, fun ⟨h0, h1, h2, h3, h4⟩ =>
      ⟨h0, h1, h2, h3, h4⟩⟩

instance (a : FieldElement) : Decidable a.Bounded :=
  inferInstanceAs (Decidable (a.LimbsBelow (2 ^ 54)))

/-- An element that may be multiplied. -/
def factor (a : FieldElement) : Option FieldElement := if a.LimbsBelow (2 ^ 54) then some a else none

theorem factor_eq {a : FieldElement} (ha : a.Bounded) :
  factor a = some a
  := if_pos ha

/-- The product of two elements. -/
def mul (a b : FieldElement) : Option FieldElement := do
  let a ← factor a
  let b ← factor b
  let b1 ← mulWord b.l1 19
  let b2 ← mulWord b.l2 19
  let b3 ← mulWord b.l3 19
  let b4 ← mulWord b.l4 19
  let c0 ← column a.l0 b.l0 a.l4 b1 a.l3 b2 a.l2 b3 a.l1 b4
  let c1 ← column a.l1 b.l0 a.l0 b.l1 a.l4 b2 a.l3 b3 a.l2 b4
  let c2 ← column a.l2 b.l0 a.l1 b.l1 a.l0 b.l2 a.l4 b3 a.l3 b4
  let c3 ← column a.l3 b.l0 a.l2 b.l1 a.l1 b.l2 a.l0 b.l3 a.l4 b4
  let c4 ← column a.l4 b.l0 a.l3 b.l1 a.l2 b.l2 a.l1 b.l3 a.l0 b.l4
  ofColumns c0 c1 c2 c3 c4

/-- Bounded factors have columns within their bounds. -/
theorem mul_eq (ha : a.Bounded) (hb : b.Bounded) :
  mul a b = some (a * b)
  := by
  have hfactors := And.intro (factor_eq ha) (factor_eq hb)
  obtain ⟨ha0, ha1, ha2, ha3, ha4⟩ := ha
  obtain ⟨hb0, hb1, hb2, hb3, hb4⟩ := hb
  have f1 := scaled_mul_nineteen hb1
  have f2 := scaled_mul_nineteen hb2
  have f3 := scaled_mul_nineteen hb3
  have f4 := scaled_mul_nineteen hb4
  have hfold {x : UInt64} (hx : x.toNat < 2 ^ 54) : mulWord x 19 = some (x * 19) :=
    mulWord_nineteen (by omega)
  obtain ⟨e0, lt0⟩ := column_eq ha0 (scaled_one hb0) ha4 f1 ha3 f2 ha2 f3 ha1 f4 (by norm_num)
  obtain ⟨e1, lt1⟩ := column_eq ha1 (scaled_one hb0) ha0 (scaled_one hb1) ha4 f2 ha3 f3 ha2 f4
    (by norm_num)
  obtain ⟨e2, lt2⟩ := column_eq ha2 (scaled_one hb0) ha1 (scaled_one hb1) ha0 (scaled_one hb2)
    ha4 f3 ha3 f4 (by norm_num)
  obtain ⟨e3, lt3⟩ := column_eq ha3 (scaled_one hb0) ha2 (scaled_one hb1) ha1 (scaled_one hb2)
    ha0 (scaled_one hb3) ha4 f4 (by norm_num)
  obtain ⟨e4, lt4⟩ := column_eq ha4 (scaled_one hb0) ha3 (scaled_one hb1) ha2 (scaled_one hb2)
    ha1 (scaled_one hb3) ha0 (scaled_one hb4) (by norm_num)
  rw [mul, bind_of_some hfactors.1, bind_of_some hfactors.2, bind_of_some (hfold hb1),
    bind_of_some (hfold hb2), bind_of_some (hfold hb3), bind_of_some (hfold hb4),
    bind_of_some e0, bind_of_some e1, bind_of_some e2, bind_of_some e3, bind_of_some e4]
  exact ofColumns_eq (by omega) (by omega) (by omega) (by omega) (by omega)

/-- The square of an element. -/
def square (a : FieldElement) : Option FieldElement := do
  let a ← factor a
  let a3 ← mulWord 19 a.l3
  let a4 ← mulWord 19 a.l4
  let c0 ← squareColumn a.l0 a.l0 a.l1 a4 a.l2 a3
  let c1 ← squareColumn a.l3 a3 a.l0 a.l1 a.l2 a4
  let c2 ← squareColumn a.l1 a.l1 a.l0 a.l2 a.l4 a3
  let c3 ← squareColumn a.l4 a4 a.l0 a.l3 a.l1 a.l2
  let c4 ← squareColumn a.l2 a.l2 a.l0 a.l4 a.l1 a.l3
  ofColumns c0 c1 c2 c3 c4

theorem square_eq (ha : a.Bounded) :
  square a = some a.square
  := by
  have hfactor := factor_eq ha
  obtain ⟨ha0, ha1, ha2, ha3, ha4⟩ := ha
  have f3 := scaled_nineteen_mul ha3
  have f4 := scaled_nineteen_mul ha4
  have hfold {x : UInt64} (hx : x.toNat < 2 ^ 54) : mulWord 19 x = some (19 * x) :=
    nineteen_mulWord (by omega)
  obtain ⟨e0, lt0⟩ := squareColumn_eq ha0 (scaled_one ha0) ha1 f4 ha2 f3 (by norm_num)
  obtain ⟨e1, lt1⟩ := squareColumn_eq ha3 f3 ha0 (scaled_one ha1) ha2 f4 (by norm_num)
  obtain ⟨e2, lt2⟩ := squareColumn_eq ha1 (scaled_one ha1) ha0 (scaled_one ha2) ha4 f3 (by norm_num)
  obtain ⟨e3, lt3⟩ := squareColumn_eq ha4 f4 ha0 (scaled_one ha3) ha1 (scaled_one ha2) (by norm_num)
  obtain ⟨e4, lt4⟩ := squareColumn_eq ha2 (scaled_one ha2) ha0 (scaled_one ha4) ha1 (scaled_one ha3)
    (by norm_num)
  rw [square, bind_of_some hfactor, bind_of_some (hfold ha3), bind_of_some (hfold ha4),
    bind_of_some e0, bind_of_some e1, bind_of_some e2, bind_of_some e3, bind_of_some e4]
  exact ofColumns_eq (by omega) (by omega) (by omega) (by omega) (by omega)

/-- The element after a number of squarings. -/
def squarings (a : FieldElement) : (k : Nat) → Option FieldElement
  | 0 => some a
  | k + 1 => do squarings (← square a) k

/-- Repeated squares are bounded again, so that any number of them passes the checks. -/
theorem squarings_eq (ha : a.Bounded) (k : Nat) :
  squarings a k = some (a.pow2k k)
  := by
  induction k generalizing a with
  | zero => rfl
  | succ k ih => rw [squarings, bind_of_some (square_eq ha), ih (FieldElement.bounded_square a)]; rfl

/-- The power `a^(2^k)`, by at least one squaring. -/
def pow2k (a : FieldElement) (k : Nat) : Option FieldElement :=
  if 1 ≤ k then squarings a k else none

/-- A power with at least one squaring passes its checks. -/
theorem pow2k_eq (ha : a.Bounded) {k : Nat} (hk : 1 ≤ k) :
  pow2k a k = some (a.pow2k k)
  := by rw [pow2k, if_pos hk, squarings_eq ha]

/-- Twice the square. -/
def square2 (a : FieldElement) : Option FieldElement := do
  let s ← square a
  return ⟨← mulWord s.l0 2, ← mulWord s.l1 2, ← mulWord s.l2 2, ← mulWord s.l3 2, ← mulWord s.l4 2⟩

/-- The limbs of a square can be doubled without overflow. -/
theorem square2_eq (ha : a.Bounded) :
  square2 a = some a.square2
  := by
  obtain ⟨h0, h1, h2, h3, h4⟩ := FieldElement.bounded_square a
  have hdouble {x : UInt64} (hx : x.toNat < 2 ^ 54) : mulWord x 2 = some (x * 2) := by
    apply mulWord_eq
    rw [show (2 : UInt64).toNat = 2 from rfl]
    omega
  rw [square2, bind_of_some (square_eq ha), bind_of_some (hdouble h0), bind_of_some (hdouble h1),
    bind_of_some (hdouble h2), bind_of_some (hdouble h3), bind_of_some (hdouble h4)]
  rfl

end HashToCurve.Checked
