import HashToCurve.Proofs.Overflow.Functions

/-!
# Inverting a buffer

A buffer of elements is overwritten with their inverses, each at the place of its element, or is
refused and left as it was.  A zero in it is the only reason to refuse, in whatever limbs it is held.
-/

namespace HashToCurve.FieldElement

/-- The list is refused for a zero among its residues and for nothing else. -/
theorem batchInverse_eq_error {as : List FieldElement} (has : ∀ a ∈ as, a.Bounded)
    (hzero : ∃ a ∈ as, a.residue = 0) :
  batchInverse as = .error .zeroInBatch
  := by
  have hmem : 0 ∈ as.map residue := List.mem_map.mpr hzero
  have hresidues := batchInverse_eq has
  rw [if_pos hmem] at hresidues
  cases h : batchInverse as with
  | error fault =>
    rw [h] at hresidues
    exact congrArg _ (Except.error.inj hresidues)
  | ok inverses =>
    rw [h] at hresidues
    cases hresidues

/-- A list without a zero among its residues is not refused, and each of its elements is replaced by
its inverse. -/
theorem batchInverse_eq_ok {as : List FieldElement} (has : ∀ a ∈ as, a.Bounded)
    (hnonzero : ∀ a ∈ as, a.residue ≠ 0) :
  ∃ inverses, batchInverse as = .ok inverses
    ∧ List.Forall₂ (fun a b => b.residue = a.residue⁻¹) as inverses
  := by
  have hmem : 0 ∉ as.map residue := by
    rw [List.mem_map]
    rintro ⟨a, ha, hzero⟩
    exact hnonzero a ha hzero
  have hresidues := batchInverse_eq has
  rw [if_neg hmem, List.map_map] at hresidues
  cases h : batchInverse as with
  | error fault =>
    rw [h] at hresidues
    cases hresidues
  | ok inverses =>
    rw [h] at hresidues
    have hinverses : inverses.map residue = as.map ((·⁻¹) ∘ residue) := Except.ok.inj hresidues
    have hmapped : List.Forall₂ (fun a r => r = a.residue⁻¹) as (inverses.map residue) := by
      rw [hinverses, List.forall₂_map_right_iff, List.forall₂_same]
      exact fun _ _ => rfl
    exact ⟨inverses, rfl, List.forall₂_map_right_iff.mp hmapped⟩

/-- No check fails while the elements of a buffer are inverted.  If none of them is zero, each one is
replaced by its inverse, which equals the inverse computed for it alone.  If one of them is zero, the
buffer is refused and keeps its content. -/
theorem invertAll_exact {as : List FieldElement} (has : ∀ a ∈ as, a.Bounded) :
  Checked.batchInverse as = some (batchInverse as)
  ∧ ((∀ a ∈ as, a.residue ≠ 0) →
    ∃ inverses, invertAll as = .ok () inverses
      ∧ List.Forall₂ (fun a b => a.residue * b.residue = 1 ∧ (b == a.inverse) = true) as inverses)
  ∧ ((∃ a ∈ as, a.residue = 0) → invertAll as = .error .zeroInBatch as)
  ∧ Fault.zeroInBatch.message = "batch_invert input contains zero"
  := by
  refine ⟨Checked.batchInverse_eq has, ?_, ?_, rfl⟩
  · intro hnonzero
    obtain ⟨inverses, hinverses, hresidues⟩ := batchInverse_eq_ok has hnonzero
    refine ⟨inverses, Buffer.replaceBy_of_ok hinverses, ?_⟩
    have hall : ∀ a ∈ as, a.Bounded ∧ a.residue ≠ 0 := fun a ha => ⟨has a ha, hnonzero a ha⟩
    have hboth := (List.forall₂_and_left _ _).mpr ⟨hall, hresidues⟩
    apply hboth.imp
    rintro a b ⟨⟨hbounded, hne⟩, hb⟩
    rw [beq_iff, residue_inverse hbounded, hb]
    exact ⟨mul_inv_cancel₀ hne, rfl⟩
  · intro hzero
    exact Buffer.replaceBy_of_error (batchInverse_eq_error has hzero)

/-- The inverses of `-1` and of the root of `-1`, and a zero in the limbs of `p`. -/
theorem invertAll_exact_zero_as_modulus :
  (∃ inverses, invertAll [minusOne, sqrtMinusOne] = .ok () inverses
    ∧ List.Forall₂ (fun a b => a.residue * b.residue = 1 ∧ (b == a.inverse) = true)
      [minusOne, sqrtMinusOne] inverses)
  ∧ invertAll [minusOne, ⟨2251799813685229, 2251799813685247, 2251799813685247, 2251799813685247,
      2251799813685247⟩]
    = .error .zeroInBatch [minusOne, ⟨2251799813685229, 2251799813685247, 2251799813685247,
      2251799813685247, 2251799813685247⟩]
  := by
  constructor
  · have hbounded : ∀ a ∈ [minusOne, sqrtMinusOne], a.Bounded := by decide
    have hnonzero : ∀ a ∈ [minusOne, sqrtMinusOne], a.residue ≠ 0 := by
      simp only [ne_eq, ← isZero_iff]
      decide
    exact (invertAll_exact hbounded).2.1 hnonzero
  · have hbounded : ∀ a ∈ [minusOne, ⟨2251799813685229, 2251799813685247, 2251799813685247,
        2251799813685247, 2251799813685247⟩], a.Bounded := by decide
    apply (invertAll_exact hbounded).2.2.1
    simp only [← isZero_iff]
    decide

end HashToCurve.FieldElement
