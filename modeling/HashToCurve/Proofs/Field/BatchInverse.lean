import HashToCurve.Field.BatchInverse
import HashToCurve.Proofs.Field.Encoding
import HashToCurve.Proofs.Field.Power

/-!
# Inverting many residues at once

The pass from the right keeps the inverse of the product of what precedes an element.  Times the
product of the elements before, it gives the inverse of the element, since neither of them is zero.
-/

namespace HashToCurve.FieldElement

theorem bounded_withProductsBefore {as : List FieldElement} (has : ∀ a ∈ as, a.Bounded)
    {acc : FieldElement} (hacc : acc.Bounded) :
  (withProductsBefore acc as).2.Bounded
    ∧ ∀ pair ∈ (withProductsBefore acc as).1, pair.1.Bounded ∧ pair.2.Bounded
  := by
  induction as generalizing acc with
  | nil => exact ⟨hacc, fun _ h => absurd h List.not_mem_nil⟩
  | cons a rest ih =>
    rw [List.forall_mem_cons] at has
    obtain ⟨htotal, hpaired⟩ := ih has.2 (bounded_mul acc a)
    rw [withProductsBefore]
    refine ⟨htotal, ?_⟩
    rw [List.forall_mem_cons]
    exact ⟨⟨has.1, hacc⟩, hpaired⟩

/-- The product of all elements. -/
theorem residue_withProductsBefore {as : List FieldElement} (has : ∀ a ∈ as, a.Bounded)
    {acc : FieldElement} (hacc : acc.Bounded) :
  (withProductsBefore acc as).2.residue = acc.residue * (as.map residue).prod
  := by
  induction as generalizing acc with
  | nil => simp [withProductsBefore]
  | cons a rest ih =>
    rw [List.forall_mem_cons] at has
    rw [withProductsBefore]
    simp only [ih has.2 (bounded_mul acc a), residue_mul hacc has.1, List.map_cons, List.prod_cons,
      mul_assoc]

theorem unwind_cons (total a before : FieldElement) (paired : List (FieldElement × FieldElement)) :
  unwind total ((a, before) :: paired)
    = ((unwind total paired).2 * before :: (unwind total paired).1, (unwind total paired).2 * a)
  := rfl

/-- The pass from the right gives an inverse for every pair. -/
theorem length_unwind (total : FieldElement) (paired : List (FieldElement × FieldElement)) :
  (unwind total paired).1.length = paired.length
  := by
  induction paired with
  | nil => rfl
  | cons pair rest ih =>
    rw [unwind_cons, List.length_cons, ih, List.length_cons]

/-- The pass from the left keeps the number of elements. -/
theorem length_withProductsBefore (acc : FieldElement) (as : List FieldElement) :
  (withProductsBefore acc as).1.length = as.length
  := by
  induction as generalizing acc with
  | nil => rfl
  | cons a rest ih =>
    rw [withProductsBefore, List.length_cons, List.length_cons, ih]

/-- All inverses are products. -/
theorem limbsBelow_unwind (total : FieldElement) (paired : List (FieldElement × FieldElement)) :
  ∀ a ∈ (unwind total paired).1, a.LimbsBelow (2 ^ 51 + 2 ^ 13)
  := by
  induction paired with
  | nil => exact fun _ h => absurd h List.not_mem_nil
  | cons pair rest ih =>
    rw [unwind_cons, List.forall_mem_cons]
    exact ⟨limbsBelow_ofColumns _ _ _ _ _, ih⟩

theorem bounded_unwind {total : FieldElement} (htotal : total.Bounded)
    (paired : List (FieldElement × FieldElement)) :
  (unwind total paired).2.Bounded
  := by
  cases paired with
  | nil => exact htotal
  | cons pair rest =>
    rw [unwind_cons]
    apply bounded_mul

/-- The pass from the right, given the inverse of the product of all elements. -/
theorem residue_unwind {as : List FieldElement} (has : ∀ a ∈ as, a.Bounded) {acc : FieldElement}
    (hacc : acc.Bounded) (hzero : acc.residue ≠ 0) (hnonzero : ∀ a ∈ as, a.residue ≠ 0)
    {total : FieldElement} (htotal : total.Bounded)
    (hinverse : total.residue = (withProductsBefore acc as).2.residue⁻¹) :
  (unwind total (withProductsBefore acc as).1).1.map residue = as.map (fun a => a.residue⁻¹)
    ∧ (unwind total (withProductsBefore acc as).1).2.residue = acc.residue⁻¹
  := by
  induction as generalizing acc with
  | nil => exact ⟨rfl, hinverse⟩
  | cons a rest ih =>
    rw [List.forall_mem_cons] at has hnonzero
    have hproduct : (acc * a).residue = acc.residue * a.residue := residue_mul hacc has.1
    have hnext : (acc * a).residue ≠ 0 := by
      rw [hproduct]
      apply mul_ne_zero hzero hnonzero.1
    obtain ⟨hrest, hacc'⟩ := ih has.2 (bounded_mul acc a) hnext hnonzero.2 hinverse
    have hbounded := bounded_unwind htotal (withProductsBefore (acc * a) rest).1
    simp only [withProductsBefore, unwind_cons, List.map_cons, hrest, residue_mul hbounded hacc,
      residue_mul hbounded has.1, hacc', hproduct]
    have ha := hnonzero.1
    constructor
    · congr 1
      field_simp
    · field_simp

/-- The list is refused if there is a zero among its residues; else each one is inverted. -/
theorem batchInverse_eq {as : List FieldElement} (has : ∀ a ∈ as, a.Bounded) :
  (batchInverse as).map (List.map residue)
    = if 0 ∈ as.map residue then .error .zeroInBatch
      else .ok ((as.map residue).map (·⁻¹))
  := by
  have htotal := (bounded_withProductsBefore has bounded_one).1
  have hresidue := residue_withProductsBefore has bounded_one
  rw [residue_one, one_mul] at hresidue
  have hzero : (withProductsBefore 1 as).2.isZero = true ↔ 0 ∈ as.map residue := by
    rw [isZero_iff, hresidue, List.prod_eq_zero_iff]
  change (if (withProductsBefore 1 as).2.isZero then _ else _ : Except _ _).map _ = _
  by_cases hmem : 0 ∈ as.map residue
  · rw [if_pos (hzero.mpr hmem), if_pos hmem]
    rfl
  · have hnonzero : ∀ a ∈ as, a.residue ≠ 0 := by
      intro a ha h
      exact hmem (h ▸ List.mem_map_of_mem ha)
    have hunwind := residue_unwind has bounded_one (by rw [residue_one]; exact one_ne_zero) hnonzero
      (bounded_inverse _) (residue_inverse htotal)
    rw [if_neg (hzero.not.mpr hmem), if_neg hmem, List.map_map]
    exact congrArg Except.ok hunwind.1

/-- The inverses are as many as the elements, and products. -/
theorem batchInverse_ok {as inverses : List FieldElement} (h : batchInverse as = .ok inverses) :
  inverses.length = as.length ∧ ∀ a ∈ inverses, a.LimbsBelow (2 ^ 51 + 2 ^ 13)
  := by
  change (if (withProductsBefore 1 as).2.isZero then _ else _ : Except _ _) = _ at h
  split at h
  · cases h
  · cases h
    exact ⟨(length_unwind _ _).trans (length_withProductsBefore 1 as), limbsBelow_unwind _ _⟩

end HashToCurve.FieldElement
