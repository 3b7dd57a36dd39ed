import HashToCurve.Proofs.Bytes.Source
import HashToCurve.Proofs.Field.Canonical

/-!
# Reduction of long byte strings

Strings of 64 and of 48 bytes are reduced modulo `p`.  An element drawn from a source is the
reduction of the next 64 bytes of the source, so that elements drawn one after the other are those of
consecutive strings of 64 bytes.
-/

namespace HashToCurve.FieldElement

open Bytes ByteSource

/-- An element that denotes a number is encoded as the remainder of the number by `p`. -/
theorem toNatLE_toBytes_of_residue {a : FieldElement} {n : Nat} (h : a.residue = n) :
  toNatLE a.toBytes.toList = n % modulus
  := by
  rw [toNatLE_toBytes, h, ZMod.val_natCast]

/-! ### Elements drawn from a source -/

variable {σ : Type} [ByteSource σ]

/-- Each call consumes 64 bytes. -/
theorem random_state (s : σ) :
  (random s).2 = after 64 s
  := congrArg Prod.snd (draw_eq 64 s)

/-- The element that is drawn denotes the number that the 64 bytes write. -/
theorem residue_random (s : σ) :
  (random s).1.residue = toNatLE (window s 0 64)
  := by
  have hbytes : (drawVector 64 s).1.toList = window s 0 64 := congrArg Prod.fst (draw_eq 64 s)
  rw [random, residue_ofWideBytes, hbytes]

/-- The state of a source after a number of elements have been drawn from it. -/
def afterRandoms (count : Nat) : σ → σ := (fun s => (random s).2)^[count]

/-- Every element takes 64 bytes. -/
theorem afterRandoms_eq (count : Nat) (s : σ) :
  afterRandoms count s = after (64 * count) s
  := by
  have hstep : (fun s : σ => (random s).2) = after 64 := funext random_state
  rw [afterRandoms, hstep, after, after, Function.iterate_mul]

/-- The elements drawn from a state on are those of the consecutive strings of 64 bytes. -/
theorem residue_randoms (count : Nat) (s : σ) :
  (randoms count s).map residue
    = (List.range count).map fun i => (toNatLE (window s (64 * i) 64) : Residue)
  := by
  induction count generalizing s with
  | zero => rfl
  | succ count ih =>
    have hrest (i : Nat) : window (after 64 s) (64 * i) 64 = window s (64 * (i + 1)) 64 := by
      rw [window_after, Nat.mul_succ, Nat.add_comm]
    rw [randoms, List.map_cons, residue_random, random_state, ih, List.range_succ_eq_map,
      List.map_cons, List.map_map, Nat.mul_zero]
    simp only [hrest, Function.comp_def, Nat.succ_eq_add_one]

/-- The elements of several calls are encodings of the numbers of consecutive windows, modulo `p`.
-/
theorem toNatLE_toBytes_randoms (count : Nat) (s : σ) :
  (randoms count s).map (fun a => toNatLE a.toBytes.toList)
    = (List.range count).map fun i => toNatLE (window s (64 * i) 64) % modulus
  := by
  have hval : (fun a : FieldElement => toNatLE a.toBytes.toList) = ZMod.val ∘ residue :=
    funext toNatLE_toBytes
  rw [hval, ← List.map_map, residue_randoms, List.map_map]
  apply List.map_congr_left
  intro i _
  apply ZMod.val_natCast

/-- A string of 64 bytes, least significant byte first, and one of 48 bytes, most significant byte
first, is read without overflow as the element encoded as the remainder of its number by `p`.  The
elements drawn from a source one after the other are encoded as the remainders of the consecutive
strings of 64 bytes of the source, and no byte after those is taken from it. -/
theorem reduction_exact :
  (∀ b : Vector UInt8 64,
    Checked.ofWideBytes b = some (ofWideBytes b)
      ∧ toNatLE (ofWideBytes b).toBytes.toList = toNatLE b.toList % modulus)
  ∧ (∀ b : Vector UInt8 48,
    Checked.ofUniformBytes b = some (ofUniformBytes b)
      ∧ toNatLE (ofUniformBytes b).toBytes.toList = toNatBE b.toList % modulus)
  ∧ ∀ (σ : Type) [ByteSource σ] (s : σ) (count : Nat),
    (randoms count s).map (fun a => toNatLE a.toBytes.toList)
        = (List.range count).map (fun i => toNatLE (window s (64 * i) 64) % modulus)
      ∧ afterRandoms count s = after (64 * count) s
  := by
  refine ⟨?_, ?_, ?_⟩
  · intro b
    exact ⟨Checked.ofWideBytes_eq b, toNatLE_toBytes_of_residue (residue_ofWideBytes b)⟩
  · intro b
    exact ⟨Checked.ofUniformBytes_eq b, toNatLE_toBytes_of_residue (residue_ofUniformBytes b)⟩
  · intro σ _ s count
    exact ⟨toNatLE_toBytes_randoms count s, afterRandoms_eq count s⟩

/-- With all bits set, the number is `2 ^ 512 - 1`, and `2 ^ 256` is 38. -/
example : toNatLE (ofWideBytes (Vector.replicate 64 0xff)).toBytes.toList = 38 ^ 2 - 1 := by
  decide +kernel

end HashToCurve.FieldElement
