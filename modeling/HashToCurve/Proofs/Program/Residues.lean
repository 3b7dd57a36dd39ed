import HashToCurve.Proofs.Bytes.Hex
import HashToCurve.Proofs.Elligator.Edwards
import HashToCurve.Proofs.Field.BatchInverse
import HashToCurve.Proofs.Field.WideReduction
import HashToCurve.Proofs.Program.Simulation

/-!
# Programs on residues

The arithmetic of residues, in which a program computes in the field of integers modulo `p`.  The
arithmetic of limbs simulates it: the limbs are bounded and denote the residue, whatever limbs the
functions produce.  What is observed of an element is a function of its residue.
-/

namespace HashToCurve

open Bytes FieldElement Residue

/-! ### The arithmetic of residues -/

/-- The residue that a constant stands for. -/
noncomputable def Constant.residue : Constant → Residue
  | zero => 0
  | one => 1
  | two => (2 : ℕ)
  | minusOne => -1
  | sqrtMinusOne => evenRoot (-1)
  | coefficient => (486662 : ℕ)
  | negCoefficient => -(486662 : ℕ)
  | coefficientSquared => (486662 : ℕ) ^ 2
  | scale => evenRoot (-((486662 : ℕ) + (2 : ℕ)))
  | uFactor => -(2 : ℕ) * evenRoot (-1)
  | vFactor => evenRoot (-(2 : ℕ) * evenRoot (-1))
  | edwardsD => -121665 / 121666

/-- A function of one residue. -/
def UnaryOperation.onResidue : UnaryOperation → Residue → Residue
  | identity, r => r
  | neg, r => -r
  | square, r => r ^ 2
  | square2, r => (2 : ℕ) * r ^ 2
  | inverse, r => r⁻¹
  | powP58, r => r ^ (2 ^ 252 - 3)

/-- A function of two residues. -/
def BinaryOperation.onResidue : BinaryOperation → Residue → Residue → Residue
  | add, r, s => r + s
  | sub, r, s => r - s
  | mul, r, s => r * s

/-- The arithmetic of residues. -/
noncomputable def residues : Arithmetic Id Residue where
  constant c := c.residue
  ofBytes? bytes := if bytes.length = 32 then some (toNatLE bytes % 2 ^ 255 : Nat) else none
  ofWideBytes bytes := (toNatLE bytes.toList : Residue)
  ofUniformBytes bytes := (toNatBE bytes.toList : Residue)
  unary op r := op.onResidue r
  binary op r s := op.onResidue r s
  pow2k r k := r ^ 2 ^ k
  select r s choice := if choice then s else r
  negateIf r choice := if choice then -r else r
  swapIf r s choice := if choice then (s, r) else (r, s)
  sum rs := rs.sum
  product rs := rs.prod
  sqrtRatio u v := ratioRoot u v
  inverseSqrt r := ratioRoot 1 r
  toMontgomery r := elligator r
  toAffine u v := (edwardsX u v, edwardsY u v)
  equal r s := decide (r = s)
  isZero r := decide (r = 0)
  isNegative r := decide (r.val % 2 = 1)
  batchInverse rs := if 0 ∈ rs then .error .zeroInBatch else .ok (rs.map (·⁻¹))

/-! ### The simulation -/

/-- The limbs are bounded and denote the residue. -/
def FieldElement.Denotes (a : FieldElement) (r : Residue) : Prop := a.Bounded ∧ a.residue = r

/-- Computations without effects return. -/
theorem Returns.ofId {γ δ : Type} {R : γ → δ → Prop} {x : Id γ} {y : Id δ} (h : R x y) :
  Returns R x y
  := ⟨x, y, rfl, rfl, h⟩

/-- The constants are written with limbs of 51 bits. -/
theorem Constant.limbsBelow_value (c : Constant) :
  c.value.LimbsBelow (2 ^ 51)
  := by
  cases c
  all_goals constructor <;> decide

/-- Every constant denotes the number or the root that it stands for. -/
theorem Constant.residue_value (c : Constant) :
  c.value.residue = c.residue
  := by
  cases c with
  | zero => exact residue_zero
  | one => exact residue_one
  | two => exact EdwardsPoint.residue_two
  | minusOne => exact residue_minusOne
  | sqrtMinusOne => exact evenRoot_neg_one.symm
  | coefficient => exact residue_coefficient
  | negCoefficient =>
    rw [Constant.residue, Nat.cast_ofNat]
    exact residue_negCoefficient
  | coefficientSquared =>
    rw [Constant.residue, Nat.cast_ofNat]
    exact residue_coefficientSquared
  | scale =>
    rw [Constant.residue, Nat.cast_ofNat, Nat.cast_ofNat]
    exact evenRoot_scale.symm
  | uFactor =>
    rw [Constant.residue, Nat.cast_ofNat, evenRoot_neg_one]
    exact residue_uFactor
  | vFactor =>
    rw [Constant.residue, Nat.cast_ofNat]
    exact evenRoot_uFactor.symm
  | edwardsD => exact residue_edwardsD

theorem Constant.denotes_value (c : Constant) :
  c.value.Denotes c.residue
  := ⟨c.limbsBelow_value.mono (by norm_num), c.residue_value⟩

/-- A function of one element computes the function of its residue, and bounded limbs. -/
theorem UnaryOperation.denotes_apply (op : UnaryOperation) {a : FieldElement} {r : Residue}
    (h : a.Denotes r) :
  (op.apply a).Denotes (op.onResidue r)
  := by
  obtain ⟨ha, rfl⟩ := h
  cases op with
  | identity => exact ⟨ha, rfl⟩
  | neg => exact ⟨bounded_neg a, residue_neg ha⟩
  | square => exact ⟨bounded_square a, residue_square ha⟩
  | square2 => exact ⟨bounded_square2 a, residue_square2 ha⟩
  | inverse => exact ⟨bounded_inverse a, residue_inverse ha⟩
  | powP58 => exact ⟨bounded_powP58 a, residue_powP58 ha⟩

/-- A sum, a difference or a product computes that of the residues, and bounded limbs. -/
theorem BinaryOperation.denotes_apply (op : BinaryOperation) {a b : FieldElement} {r s : Residue}
    (hr : a.Denotes r) (hs : b.Denotes s) :
  (op.apply a b).Denotes (op.onResidue r s)
  := by
  obtain ⟨ha, rfl⟩ := hr
  obtain ⟨hb, rfl⟩ := hs
  cases op with
  | add => exact ⟨bounded_add a b, residue_add ha hb⟩
  | sub => exact ⟨bounded_sub a b, residue_sub ha hb⟩
  | mul => exact ⟨bounded_mul a b, residue_mul ha hb⟩

/-- The choice between two elements denotes the choice between their residues. -/
theorem FieldElement.Denotes.select {a b : FieldElement} {r s : Residue} (ha : a.Denotes r)
    (hb : b.Denotes s) (choice : Bool) :
  (a.select b choice).Denotes (if choice then s else r)
  := by
  obtain ⟨ha, rfl⟩ := ha
  obtain ⟨hb, rfl⟩ := hb
  exact ⟨bounded_select ha hb choice, residue_select a b choice⟩

/-- The root of a ratio denotes the root of the ratio of the residues, with the same flag. -/
theorem FieldElement.Denotes.sqrtRatio {a b : FieldElement} {r s : Residue} (ha : a.Denotes r)
    (hb : b.Denotes s) :
  (FieldElement.sqrtRatio a b).1.Denotes (ratioRoot r s).1
    ∧ (FieldElement.sqrtRatio a b).2 = (ratioRoot r s).2
  := by
  obtain ⟨ha, rfl⟩ := ha
  obtain ⟨hb, rfl⟩ := hb
  have h := sqrtRatio_eq ha hb
  rw [← h]
  exact ⟨⟨bounded_sqrtRatio a b, rfl⟩, rfl⟩

/-- The elements of a list of related ones are bounded, and their residues are given. -/
theorem bounded_of_forall₂ {as : List FieldElement} {rs : List Residue}
    (h : List.Forall₂ FieldElement.Denotes as rs) :
  (∀ a ∈ as, a.Bounded) ∧ as.map residue = rs
  := by
  obtain ⟨hbounded, hresidues⟩ := (List.forall₂_and_left as rs).mp h
  exact ⟨hbounded, map_eq_of_forall₂ (fun _ _ h => h) hresidues⟩

theorem forall₂_denotes_map {as : List FieldElement} (has : ∀ a ∈ as, a.Bounded) :
  List.Forall₂ FieldElement.Denotes as (as.map residue)
  := by
  rw [List.forall₂_map_right_iff, List.forall₂_same]
  exact fun a ha => ⟨has a ha, rfl⟩

/-- A list is refused exactly if there is a zero among its residues, else it is replaced by elements
that denote the inverses. -/
theorem denotes_batchInverse {as : List FieldElement} (has : ∀ a ∈ as, a.Bounded) :
  ExceptRel (List.Forall₂ FieldElement.Denotes) (batchInverse as)
    (if 0 ∈ as.map residue then .error .zeroInBatch else .ok ((as.map residue).map (·⁻¹)))
  := by
  have heq := batchInverse_eq has
  cases h : batchInverse as with
  | error broken =>
    rw [h] at heq
    rw [← heq]
    exact .error broken
  | ok inverses =>
    rw [h] at heq
    rw [← heq]
    have hbounded := (batchInverse_ok h).2
    exact .ok (forall₂_denotes_map fun a ha => (hbounded a ha).mono (by norm_num))

/-- The arithmetic of limbs computes with residues. -/
theorem simulation_residues :
  Simulation FieldElement.Denotes limbs residues
  where
  constant c := .ofId c.denotes_value
  ofBytes? bytes := by
    apply Returns.ofId
    change Option.Rel _ (FieldElement.ofBytes? bytes) (if bytes.length = 32 then _ else _)
    rw [FieldElement.ofBytes?]
    split
    · exact .some ⟨bounded_ofBytes _, residue_ofBytes _⟩
    · exact .none
  ofWideBytes bytes := .ofId ⟨bounded_ofWideBytes bytes, residue_ofWideBytes bytes⟩
  ofUniformBytes bytes := .ofId ⟨bounded_ofUniformBytes bytes, residue_ofUniformBytes bytes⟩
  unary op _ _ h := .ofId (op.denotes_apply h)
  binary op _ _ _ _ h₁ h₂ := .ofId (op.denotes_apply h₁ h₂)
  pow2k h k _ := by
    obtain ⟨ha, rfl⟩ := h
    exact .ofId ⟨bounded_pow2k ha k, residue_pow2k ha k⟩
  select h₁ h₂ choice := .ofId (h₁.select h₂ choice)
  negateIf h choice := .ofId (h.select (UnaryOperation.neg.denotes_apply h) choice)
  swapIf h₁ h₂ choice := by
    apply Returns.ofId
    cases choice with
    | false => exact ⟨h₁, h₂⟩
    | true => exact ⟨h₂, h₁⟩
  sum h := by
    obtain ⟨has, rfl⟩ := bounded_of_forall₂ h
    exact .ofId ⟨bounded_sum has, residue_sum has⟩
  product h := by
    obtain ⟨has, rfl⟩ := bounded_of_forall₂ h
    exact .ofId ⟨bounded_product has, residue_product has⟩
  sqrtRatio h₁ h₂ := ⟨FieldElement.sqrtRatio _ _, ratioRoot _ _, rfl, rfl, h₁.sqrtRatio h₂⟩
  inverseSqrt h :=
    ⟨FieldElement.sqrtRatio 1 _, ratioRoot 1 _, rfl, rfl, Constant.one.denotes_value.sqrtRatio h⟩
  toMontgomery h := by
    obtain ⟨ha, rfl⟩ := h
    obtain ⟨hu, hv⟩ := Elligator.bounded_toMontgomery _
    exact .ofId ⟨⟨hu, Elligator.residue_toMontgomery_u ha⟩, hv, Elligator.residue_toMontgomery_v ha⟩
  toAffine h₁ h₂ := by
    obtain ⟨hu, rfl⟩ := h₁
    obtain ⟨hv, rfl⟩ := h₂
    obtain ⟨hbounded, hx, hy⟩ := MontgomeryPoint.toAffine_eq (P := ⟨_, _⟩) hu hv
    refine ⟨(_, _), (edwardsX _ _, edwardsY _ _), rfl, rfl, ?_⟩
    dsimp only
    exact ⟨⟨hbounded.1, hx⟩, hbounded.2, hy⟩
  equal h₁ h₂ := by
    obtain ⟨-, rfl⟩ := h₁
    obtain ⟨-, rfl⟩ := h₂
    exact .ofId (beq_eq_decide _ _)
  isZero h := by
    obtain ⟨-, rfl⟩ := h
    exact .ofId (isZero_eq_decide _)
  isNegative h := by
    obtain ⟨-, rfl⟩ := h
    exact .ofId (isNegative_eq_decide _)
  batchInverse h := by
    obtain ⟨has, rfl⟩ := bounded_of_forall₂ h
    exact .ofId (denotes_batchInverse has)

/-! ### Programs -/

namespace Instruction

/-- Every program, from no registers on, leaves limbs that denote what it computes with residues, and
shows what it shows of residues.  Of an element, its encoding and its text write the representative
of its residue, and the flags tell of the residue whether it is equal to another one, zero or odd,
whatever the limbs are. -/
theorem run_refines_residues (program : List Instruction)
    (hproper : ∀ instruction ∈ program, instruction.Proper) :
  ((runWith limbs [] program).run.2.map residue = (runWith residues [] program).run.2
    ∧ (runWith limbs [] program).run.1.map (Except.map (View.map residue))
      = (runWith residues [] program).run.1)
  ∧ (∀ a : FieldElement,
    a.toBytes.toList = ofNatLE 32 a.residue.val
    ∧ a.toHex.toList = hexadecimal Nat.digitChar 64 a.residue.val
    ∧ a.toUpperHex.toList = hexadecimal (fun d => (Nat.digitChar d).toUpper) 64 a.residue.val
    ∧ (a.isZero = true ↔ a.residue = 0)
    ∧ (a.isNegative = true ↔ a.residue.val % 2 = 1))
  ∧ ∀ a b : FieldElement, (a == b) = true ↔ a.residue = b.residue
  := by
  refine ⟨?_, ?_, fun a b => beq_iff⟩
  · obtain ⟨p, q, hp, hq, hviews, hregs⟩ := runWith_returns simulation_residues .nil hproper
    have hdenotes : ∀ a r, FieldElement.Denotes a r → residue a = r := fun _ _ h => h.2
    rw [hp, hq]
    constructor
    · exact map_eq_of_forall₂ hdenotes hregs
    · apply map_eq_of_forall₂ _ hviews
      intro x y hxy
      apply hxy.map_eq
      intro v w hvw
      apply hvw.map_eq hdenotes
  · intro a
    exact ⟨toList_toBytes a, toList_toHex a, toList_toUpperHex a, isZero_iff, isNegative_iff⟩

/-- A doubled square, whose limbs exceed those of all other results, as subtrahend and factor, and
then registers that are multiplied, negated, exchanged and cleared in place. -/
theorem run_refines_residues_square2 :
  (∀ instruction ∈ [constant .minusOne, unary .square2 0, binary .sub 0 1, pow2k 1 3,
      update .mul 0 1, negate 1 true, swap 2 3 true, clear 3],
    instruction.Proper)
  ∧ (runWith limbs [] [constant .minusOne, unary .square2 0, binary .sub 0 1, pow2k 1 3,
      update .mul 0 1, negate 1 true, swap 2 3 true, clear 3]).run.2.map residue
    = [-1 * (2 * (-1) ^ 2), -(2 * (-1) ^ 2), (2 * (-1) ^ 2) ^ 2 ^ 3, 0]
  := by
  have hproper : ∀ instruction ∈ [constant .minusOne, unary .square2 0, binary .sub 0 1, pow2k 1 3,
      update .mul 0 1, negate 1 true, swap 2 3 true, clear 3],
      instruction.Proper := by
    simp [Proper]
  exact ⟨hproper, (run_refines_residues _ hproper).1.1⟩

end Instruction

end HashToCurve
