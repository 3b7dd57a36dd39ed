import HashToCurve.Proofs.Program.Residues

/-!
# Limbs after a carry

Sums, differences and products of bounded elements end with a carry, which leaves limbs below
`2^51 + 2^15`.  So does every function whose last operation is one of them.  Only the doubled square
ends without a carry.
-/

namespace HashToCurve

namespace FieldElement

/-- The limbs are as small as a carry leaves them. -/
def Carried (a : FieldElement) : Prop := a.LimbsBelow (2 ^ 51 + 2 ^ 15)

variable {a b : FieldElement}

/-- Limbs after a carry may be factors and subtrahends again. -/
theorem Carried.bounded (h : a.Carried) :
  a.Bounded
  := h.mono (by norm_num)

/-! ### Operations -/

/-- The limbs of a sum of bounded elements are below `16 * 2^51` before the carry. -/
theorem carried_add (ha : a.Bounded) (hb : b.Bounded) :
  (a + b).Carried
  := by
  obtain ⟨ha0, ha1, ha2, ha3, ha4⟩ := ha
  obtain ⟨hb0, hb1, hb2, hb3, hb4⟩ := hb
  have hsum {x y : UInt64} (hx : x.toNat < 2 ^ 54) (hy : y.toNat < 2 ^ 54) :
      (x + y).toNat < 2 ^ 51 * 16 := by
    rw [UInt64.toNat_add]
    omega
  have hlimbs : LimbsBelow (2 ^ 51 * 16)
      ⟨a.l0 + b.l0, a.l1 + b.l1, a.l2 + b.l2, a.l3 + b.l3, a.l4 + b.l4⟩ :=
    ⟨hsum ha0 hb0, hsum ha1 hb1, hsum ha2 hb2, hsum ha3 hb3, hsum ha4 hb4⟩
  exact (limbsBelow_carry hlimbs).mono (by norm_num)

/-- The limbs of a difference, which are raised by those of a multiple of `p`, are below `24 * 2^51`
before the carry. -/
theorem carried_sub (ha : a.Bounded) (hb : b.Bounded) :
  (a - b).Carried
  := by
  obtain ⟨ha0, ha1, ha2, ha3, ha4⟩ := ha
  obtain ⟨hb0, hb1, hb2, hb3, hb4⟩ := hb
  have hdifference {x y multiple : UInt64} (hx : x.toNat < 2 ^ 54) (hy : y.toNat < 2 ^ 54)
      (hlow : 2 ^ 54 ≤ multiple.toNat) (hhigh : multiple.toNat < 2 ^ 55) :
      (x + multiple - y).toNat < 2 ^ 51 * 24 := by
    have hadd : (x + multiple).toNat = x.toNat + multiple.toNat := by
      rw [UInt64.toNat_add, Nat.mod_eq_of_lt (by omega)]
    rw [UInt64.toNat_sub, hadd]
    omega
  have hhigh {x y : UInt64} (hx : x.toNat < 2 ^ 54) (hy : y.toNat < 2 ^ 54) :
      (x + highLimbOfMultiple - y).toNat < 2 ^ 51 * 24 :=
    hdifference hx hy (by decide) (by decide)
  have hlimbs : LimbsBelow (2 ^ 51 * 24)
      ⟨a.l0 + lowLimbOfMultiple - b.l0, a.l1 + highLimbOfMultiple - b.l1,
        a.l2 + highLimbOfMultiple - b.l2, a.l3 + highLimbOfMultiple - b.l3,
        a.l4 + highLimbOfMultiple - b.l4⟩ :=
    ⟨hdifference ha0 hb0 (by decide) (by decide), hhigh ha1 hb1, hhigh ha2 hb2, hhigh ha3 hb3,
      hhigh ha4 hb4⟩
  exact (limbsBelow_carry hlimbs).mono (by norm_num)

theorem carried_neg (ha : a.Bounded) :
  (-a).Carried
  := carried_sub bounded_zero ha

/-- A product ends with a carry, whatever its factors are. -/
theorem carried_mul (a b : FieldElement) :
  (a * b).Carried
  := (limbsBelow_ofColumns _ _ _ _ _).mono (by norm_num)

theorem carried_square (a : FieldElement) :
  a.square.Carried
  := by
  have hlimbs : a.square.LimbsBelow (2 ^ 51 + 2 ^ 13) := limbsBelow_ofColumns _ _ _ _ _
  exact hlimbs.mono (by norm_num)

/-- A power by at least one squaring. -/
theorem carried_pow2k (a : FieldElement) {k : Nat} (hk : 1 ≤ k) :
  (a.pow2k k).Carried
  := by
  induction k, hk using Nat.le_induction generalizing a with
  | base =>
    rw [pow2k, pow2k]
    apply carried_square
  | succ k _ ih =>
    rw [pow2k]
    apply ih

/-- The choice between two elements computes nothing, so it is carried if both are. -/
theorem carried_select (ha : a.Carried) (hb : b.Carried) (choice : Bool) :
  (a.select b choice).Carried
  := by
  rw [select]
  split
  · exact hb
  · exact ha

theorem carried_negateIf (ha : a.Carried) (choice : Bool) :
  (a.negateIf choice).Carried
  := carried_select ha (carried_neg ha.bounded) choice

/-- A list is folded by an operation that ends with a carry, if there is something to fold. -/
theorem carried_foldl {f : FieldElement → FieldElement → FieldElement}
    (hf : ∀ a b, a.Bounded → b.Bounded → (f a b).Carried) {as : List FieldElement}
    (has : ∀ a ∈ as, a.Bounded) (ha : a.Carried) :
  (as.foldl f a).Carried
  := by
  induction as generalizing a with
  | nil => exact ha
  | cons b rest ih =>
    rw [List.forall_mem_cons] at has
    exact ih has.2 (hf a b ha.bounded has.1)

/-! ### Functions -/

theorem carried_value (c : Constant) :
  c.value.Carried
  := c.limbsBelow_value.mono (by norm_num)

/-- An encoding is cut into limbs of 51 bits. -/
theorem carried_ofBytes (bytes : Vector UInt8 32) :
  (ofBytes bytes).Carried
  := (limbsBelow_ofBytes bytes).mono (by norm_num)

/-- The last step of a wide reduction is a sum. -/
theorem carried_ofWideBytes (bytes : Vector UInt8 64) :
  (ofWideBytes bytes).Carried
  := carried_add (bounded_add _ _) (bounded_mul _ _)

theorem carried_ofUniformBytes (bytes : Vector UInt8 48) :
  (ofUniformBytes bytes).Carried
  := carried_ofWideBytes _

theorem carried_inverse (a : FieldElement) :
  a.inverse.Carried
  := carried_mul _ _

theorem carried_powP58 (a : FieldElement) :
  a.powP58.Carried
  := carried_mul _ _

/-- The root is a product of bounded elements, or the opposite of one. -/
theorem carried_sqrtRatio (u v : FieldElement) :
  (sqrtRatio u v).1.Carried
  := carried_negateIf (carried_select (carried_mul _ _) (carried_mul _ _) _) _

/-- Both coordinates of a representative's point are products, up to sign. -/
theorem carried_toMontgomery (r : FieldElement) :
  (Elligator.toMontgomery r).u.Carried ∧ (Elligator.toMontgomery r).v.Carried
  := ⟨carried_mul _ _, carried_negateIf (carried_mul _ _) _⟩

/-- Both coordinates of the rational map are products, or constants where it has a pole. -/
theorem carried_toAffine (P : MontgomeryPoint) :
  P.toAffine.x.Carried ∧ P.toAffine.y.Carried
  := ⟨carried_select (carried_mul _ _) (carried_value .zero) _,
    carried_select (carried_mul _ _) (carried_value .one) _⟩

/-- The inverses of a batch are products. -/
theorem carried_batchInverse {as inverses : List FieldElement}
    (h : batchInverse as = .ok inverses) :
  ∀ a ∈ inverses, a.Carried
  := fun a ha => ((batchInverse_ok h).2 a ha).mono (by norm_num)

end FieldElement

end HashToCurve
