import HashToCurve.Proofs.Field.Residue
import HashToCurve.Proofs.Primality

/-!
# The field of residues

The number `p` is prime, so that residues form a field.
-/

namespace HashToCurve.FieldElement

/-- A table that ends with `p`. -/
def modulusTable : List Primality.Row :=
  [⟨1923133, 2, [2, 2, 3, 43, 3727]⟩,
    ⟨31757755568855353, 10, [2, 2, 2, 3, 31, 107, 223, 4153, 430751]⟩,
    ⟨2773320623, 5, [2, 2437, 569003]⟩,
    ⟨72106336199, 7, [2, 13, 2773320623]⟩,
    ⟨8574133, 2, [2, 2, 3, 7, 103, 991]⟩,
    ⟨1919519569386763, 2, [2, 3, 7, 19, 47, 47, 127, 8574133]⟩,
    ⟨75445702479781427272750846543864801, 7,
      [2, 2, 2, 2, 2, 3, 3, 5, 5, 75707, 72106336199, 1919519569386763]⟩,
    ⟨74058212732561358302231226437062788676166966415465897661863160754340907, 2,
      [2, 3, 353, 57467, 132049, 1923133, 31757755568855353,
        75445702479781427272750846543864801]⟩,
    ⟨modulus, 2,
      [2, 2, 3, 65147,
        74058212732561358302231226437062788676166966415465897661863160754340907]⟩]

/-- The number `p` is prime, by the last row of the table. -/
theorem prime_modulus :
  modulus.Prime
  := by
  have hvalid : Primality.Valid [] modulusTable := by decide +kernel
  apply hvalid.prime_of_mem
  simp [modulusTable]

instance : Fact modulus.Prime := ⟨prime_modulus⟩

/-- The characteristic is not `2`. -/
instance : NeZero (2 : Residue) := ⟨by decide⟩

end HashToCurve.FieldElement
