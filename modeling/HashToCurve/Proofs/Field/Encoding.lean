import HashToCurve.Field.Codec
import HashToCurve.Proofs.Bytes.Digits
import HashToCurve.Proofs.Bytes.Hex
import HashToCurve.Proofs.Field.Product
import Mathlib.Tactic.IntervalCases

/-!
# Encodings of residues

An encoding that is read denotes the number it writes without bit 255, and the encoding of an
element writes its number modulo `p`, whatever its limbs.  So equality, the sign and the texts
of an element are functions of its residue.
-/

namespace HashToCurve.FieldElement

open Bytes

/-! ### Reading -/

private theorem toNat_or_byte {x : UInt64} (c : UInt8) (k : Nat) (hk : k ≤ 56)
    (hx : x.toNat < 2 ^ k) :
  (x ||| (c.toUInt64 <<< (OfNat.ofNat k : UInt64))).toNat = x.toNat + 2 ^ k * c.toNat
  := by
  have hc : c.toNat < 2 ^ (64 - k) :=
    c.toNat_lt.trans_le (Nat.pow_le_pow_right (by omega) (by omega))
  rw [toNat_or_shiftLeft _ _ k (by omega) hx, UInt8.toNat_toUInt64, Nat.mod_eq_of_lt hc]

private theorem take_drop_eq (b : Vector UInt8 32) (start : Nat) (h : start + 7 < 32) :
  (b.toList.drop start).take 8
    = List.ofFn fun i : Fin 8 => b[start + i.val]
  := by
  apply List.ext_getElem
  · simp
    omega
  · intro i hi hi'
    rw [List.getElem_take, List.getElem_drop, List.getElem_ofFn, Vector.getElem_toList]

/-- A word that is loaded is the number of eight bytes from its position on. -/
theorem toNat_loadWord (b : Vector UInt8 32) (start : Nat) (h : start + 7 < 32) :
  (loadWord b start h).toNat = toNatLE b.toList / 256 ^ start % 256 ^ 8
  := by
  have h0 := b[start].toNat_lt
  have h1 := b[start + 1].toNat_lt
  have h2 := b[start + 2].toNat_lt
  have h3 := b[start + 3].toNat_lt
  have h4 := b[start + 4].toNat_lt
  have h5 := b[start + 5].toNat_lt
  have h6 := b[start + 6].toNat_lt
  have e0 := b[start].toNat_toUInt64
  have e1 := toNat_or_byte b[start + 1] 8 (by omega) (x := b[start].toUInt64) (by omega)
  have e2 := toNat_or_byte b[start + 2] 16 (by omega) (x := _ ||| _) (by rw [e1]; omega)
  have e3 := toNat_or_byte b[start + 3] 24 (by omega) (x := _ ||| _) (by rw [e2]; omega)
  have e4 := toNat_or_byte b[start + 4] 32 (by omega) (x := _ ||| _) (by rw [e3]; omega)
  have e5 := toNat_or_byte b[start + 5] 40 (by omega) (x := _ ||| _) (by rw [e4]; omega)
  have e6 := toNat_or_byte b[start + 6] 48 (by omega) (x := _ ||| _) (by rw [e5]; omega)
  have e7 := toNat_or_byte b[start + 7] 56 (by omega) (x := _ ||| _) (by rw [e6]; omega)
  rw [← toNatLE_drop, ← toNatLE_take, take_drop_eq b start h]
  apply Eq.trans e7
  rw [e6, e5, e4, e3, e2, e1, e0]
  change _ = toNatLE [b[start], b[start + 1], b[start + 2], b[start + 3], b[start + 4],
    b[start + 5], b[start + 6], b[start + 7]]
  simp only [toNatLE]
  omega

/-- Decoding cuts a string into limbs of 51 bits. -/
theorem limbsBelow_ofBytes (b : Vector UInt8 32) :
  (ofBytes b).LimbsBelow (2 ^ 51)
  := by
  constructor
  all_goals apply toNat_low51_lt

@[simp]
theorem bounded_ofBytes (b : Vector UInt8 32) :
  (ofBytes b).Bounded
  := (limbsBelow_ofBytes b).mono (by norm_num)

/-- Reading leaves out bit 255 and the bits above it. -/
theorem toNat_ofBytes (b : Vector UInt8 32) :
  (ofBytes b).toNat = toNatLE b.toList % 2 ^ 255
  := by
  simp only [ofBytes, toNat, radix, toNat_low51, toNat_shiftRight _ 3 (by omega),
    toNat_shiftRight _ 6 (by omega), toNat_shiftRight _ 1 (by omega),
    toNat_shiftRight _ 12 (by omega), toNat_loadWord]
  omega

/-- A string is decoded to the residue of its lower 255 bits. -/
theorem residue_ofBytes (b : Vector UInt8 32) :
  (ofBytes b).residue = (toNatLE b.toList % 2 ^ 255 : Nat)
  := by
  rw [residue, toNat_ofBytes]

/-! ### The canonical limbs -/

/-- The limbs after a word is added and what exceeds 51 bits is moved up, and what leaves the top
limb. -/
private def addSpread (a : FieldElement) (x : UInt64) : FieldElement × UInt64 :=
  let l0 := a.l0 + x
  let l1 := a.l1 + (l0 >>> 51)
  let l2 := a.l2 + (l1 >>> 51)
  let l3 := a.l3 + (l2 >>> 51)
  let l4 := a.l4 + (l3 >>> 51)
  (⟨low51 l0, low51 l1, low51 l2, low51 l3, low51 l4⟩, l4 >>> 51)

/-- Adding a word and moving up what exceeds 51 bits divides the sum by `2^255`. -/
private theorem toNat_addSpread {a : FieldElement} (ha : a.LimbsBelow (2 ^ 52)) {x : UInt64}
    (hx : x.toNat < 2 ^ 52) :
  (addSpread a x).1.toNat = (a.toNat + x.toNat) % 2 ^ 255
    ∧ (addSpread a x).2.toNat = (a.toNat + x.toNat) / 2 ^ 255
  := by
  obtain ⟨h0, h1, h2, h3, h4⟩ := ha
  have shift (y z : UInt64) (h : y.toNat + z.toNat < 2 ^ 64) :
      (y + z).toNat = y.toNat + z.toNat ∧ ((y + z) >>> 51).toNat = (y.toNat + z.toNat) / 2 ^ 51 := by
    rw [toNat_shiftRight _ 51 (by omega), UInt64.toNat_add, Nat.mod_eq_of_lt h]
    use rfl
  rw [addSpread]
  obtain ⟨f0, e0⟩ := shift a.l0 x (by omega)
  generalize a.l0 + x = l0 at *
  obtain ⟨f1, e1⟩ := shift a.l1 (l0 >>> 51) (by omega)
  generalize a.l1 + (l0 >>> 51) = l1 at *
  obtain ⟨f2, e2⟩ := shift a.l2 (l1 >>> 51) (by omega)
  generalize a.l2 + (l1 >>> 51) = l2 at *
  obtain ⟨f3, e3⟩ := shift a.l3 (l2 >>> 51) (by omega)
  generalize a.l3 + (l2 >>> 51) = l3 at *
  obtain ⟨f4, e4⟩ := shift a.l4 (l3 >>> 51) (by omega)
  generalize a.l4 + (l3 >>> 51) = l4 at *
  constructor
  · simp only [toNat, radix, toNat_low51]
    omega
  · simp only [toNat, radix]
    omega

/-- Below `2 p`, the quotient by `p` is found by adding 19, and taken off by adding 19 for it. -/
private theorem mod_modulus_of_lt {n : Nat} (hn : n < 2 * modulus) :
  (n + 19 * ((n + 19) / 2 ^ 255)) % 2 ^ 255 = n % modulus
  := by
  rcases Nat.lt_or_ge n modulus with hlt | hge
  · have hq : (n + 19) / 2 ^ 255 = 0 := by
      rw [modulus] at hlt
      omega
    rw [hq, Nat.mod_eq_of_lt hlt]
    rw [modulus] at hlt
    omega
  · have hq : (n + 19) / 2 ^ 255 = 1 := by
      rw [modulus] at hn hge
      omega
    rw [hq, Nat.mod_eq_sub_mod hge, Nat.mod_eq_of_lt (a := n - modulus) (by omega)]
    rw [modulus] at *
    omega

/-- The limbs of the representative write the number modulo `p`. -/
theorem toNat_canonical (a : FieldElement) :
  a.canonical.toNat = a.toNat % modulus
  := by
  have hcanonical : a.canonical = (addSpread a.carry (19 * (addSpread a.carry 19).2)).1 := rfl
  have hlimbs := limbsBelow_carry a.limbsBelow_word
  -- one carry leaves a number below `2 p`
  have hlt : a.carry.toNat < 2 * modulus := by
    obtain ⟨h0, h1, h2, h3, h4⟩ := hlimbs
    simp only [toNat, radix, modulus]
    omega
  have hbelow := hlimbs.mono (n := 2 ^ 52) (by norm_num)
  obtain ⟨-, hq⟩ := toNat_addSpread hbelow (x := 19) (by decide)
  rw [show (19 : UInt64).toNat = 19 from rfl] at hq
  have hq19 : (19 * (addSpread a.carry 19).2).toNat = 19 * ((a.carry.toNat + 19) / 2 ^ 255) := by
    rw [modulus] at hlt
    rw [UInt64.mul_comm, toNat_mul_nineteen (by omega), hq]
  obtain ⟨hn, -⟩ := toNat_addSpread hbelow (x := 19 * (addSpread a.carry 19).2) (by
    rw [modulus] at hlt
    omega)
  rw [hcanonical, hn, hq19, mod_modulus_of_lt hlt, ← a.toNat_carry, Nat.add_mul_mod_self_left]

/-- The representative in `[0, p)` has limbs of 51 bits. -/
theorem limbsBelow_canonical (a : FieldElement) :
  a.canonical.LimbsBelow (2 ^ 51)
  := by
  constructor
  all_goals apply toNat_low51_lt

/-! ### Writing -/

/-- A byte that joins the upper bits of one limb with the lower bits of the next. -/
private theorem toNat_join_byte {x y : UInt64} (k : Nat) (hk : k < 8) (hx : x.toNat < 2 ^ k) :
  (x ||| (y <<< (OfNat.ofNat k : UInt64))).toNat % 2 ^ 8
    = x.toNat + 2 ^ k * (y.toNat % 2 ^ (8 - k))
  := by
  rw [toNat_or_shiftLeft x y k (by omega) hx]
  interval_cases k <;> omega

/-- The bits of a limb from a position on: a byte, and the bits above it. -/
private theorem toNat_shiftRight_byte (x : UInt64) (first : Nat) (h : first + 8 < 64) :
  (x >>> (OfNat.ofNat first : UInt64)).toNat % 2 ^ 8
      + 2 ^ 8 * (x >>> (OfNat.ofNat (first + 8) : UInt64)).toNat
    = (x >>> (OfNat.ofNat first : UInt64)).toNat
  := by
  rw [toNat_shiftRight x first (by omega), toNat_shiftRight x (first + 8) h, pow_add,
    ← Nat.div_div_eq_div_mul, Nat.mod_add_div]

/-- The lowest bits of a limb, and the bits above them. -/
private theorem toNat_mod_add_shiftRight (x : UInt64) (first : Nat) (h : first < 64) :
  x.toNat % 2 ^ first + 2 ^ first * (x >>> (OfNat.ofNat first : UInt64)).toNat = x.toNat
  := by
  rw [toNat_shiftRight x first h, Nat.mod_add_div]

/-- The bytes of limbs of 51 bits write their number. -/
theorem toNatLE_pack {a : FieldElement} (ha : a.LimbsBelow (2 ^ 51)) :
  toNatLE (pack a).toList = a.toNat
  := by
  obtain ⟨h0, h1, h2, h3, h4⟩ := ha
  have upper {x : UInt64} (hx : x.toNat < 2 ^ 51) (k : Nat) (hk : k < 64) :
      (x >>> (OfNat.ofNat k : UInt64)).toNat < 2 ^ (51 - k) ∨ 51 < k := by
    rw [toNat_shiftRight x k hk, or_iff_not_imp_right, not_lt]
    intro hk51
    apply Nat.div_lt_of_lt_mul
    rwa [← pow_add, show k + (51 - k) = 51 by omega]
  -- the four bytes that two limbs share, and the last byte
  have j6 := toNat_join_byte (y := a.l1) 3 (by omega) ((upper h0 48 (by omega)).resolve_right (by omega))
  have j12 := toNat_join_byte (y := a.l2) 6 (by omega) ((upper h1 45 (by omega)).resolve_right (by omega))
  have j19 := toNat_join_byte (y := a.l3) 1 (by omega) ((upper h2 50 (by omega)).resolve_right (by omega))
  have j25 := toNat_join_byte (y := a.l4) 4 (by omega) ((upper h3 47 (by omega)).resolve_right (by omega))
  have j31 : (a.l4 >>> 44).toNat % 2 ^ 8 = (a.l4 >>> 44).toNat :=
    Nat.mod_eq_of_lt (((upper h4 44 (by omega)).resolve_right (by omega)).trans (by norm_num))
  have b0 := toNat_shiftRight_byte a.l0
  have b1 := toNat_shiftRight_byte a.l1
  have b2 := toNat_shiftRight_byte a.l2
  have b3 := toNat_shiftRight_byte a.l3
  have b4 := toNat_shiftRight_byte a.l4
  simp only [pack, Vector.toList_mk, toNatLE, UInt64.toNat_toUInt8]
  rw [j6, j12, j19, j25, j31, toNat, radix]
  linarith [toNat_mod_add_shiftRight a.l0 8 (by omega), b0 8 (by omega), b0 16 (by omega),
    b0 24 (by omega), b0 32 (by omega), b0 40 (by omega),
    toNat_mod_add_shiftRight a.l1 5 (by omega), b1 5 (by omega), b1 13 (by omega),
    b1 21 (by omega), b1 29 (by omega), b1 37 (by omega),
    toNat_mod_add_shiftRight a.l2 2 (by omega), b2 2 (by omega), b2 10 (by omega),
    b2 18 (by omega), b2 26 (by omega), b2 34 (by omega), b2 42 (by omega),
    toNat_mod_add_shiftRight a.l3 7 (by omega), b3 7 (by omega), b3 15 (by omega),
    b3 23 (by omega), b3 31 (by omega), b3 39 (by omega),
    toNat_mod_add_shiftRight a.l4 4 (by omega), b4 4 (by omega), b4 12 (by omega),
    b4 20 (by omega), b4 28 (by omega), b4 36 (by omega)]

/-! ### Residues -/

/-- The encoding of a residue: its representative in `[0, p)`, least significant byte first. -/
def encode (r : Residue) : Bytes := ofNatLE 32 r.val

theorem val_residue (a : FieldElement) :
  a.residue.val = a.toNat % modulus
  := ZMod.val_natCast modulus a.toNat

/-- An encoding writes the representative of the residue. -/
theorem toNatLE_toBytes (a : FieldElement) :
  toNatLE a.toBytes.toList = a.residue.val
  := by
  rw [toBytes, toNatLE_pack a.limbsBelow_canonical, toNat_canonical, val_residue]

/-- The encoding of an element depends on its residue alone. -/
theorem toList_toBytes (a : FieldElement) :
  a.toBytes.toList = encode a.residue
  := by
  have h := ofNatLE_toNatLE a.toBytes.toList
  rw [toNatLE_toBytes, Vector.length_toList] at h
  apply h.symm

theorem toNatLE_encode (r : Residue) :
  toNatLE (encode r) = r.val
  := by
  have hlt : r.val < 256 ^ 32 := r.val_lt.trans (by decide)
  rw [encode, toNatLE_ofNatLE, Nat.mod_eq_of_lt hlt]

/-- Every residue is denoted by an element with bounded limbs. -/
theorem exists_residue_eq (r : Residue) :
  ∃ a : FieldElement, a.Bounded ∧ a.residue = r
  := by
  have hlength : (encode r).toArray.size = 32 := length_ofNatLE 32 r.val
  have hlt : r.val < 2 ^ 255 := r.val_lt.trans (by decide)
  use ofBytes ⟨(encode r).toArray, hlength⟩, bounded_ofBytes _
  rw [residue_ofBytes, Vector.toList_mk, List.toList_toArray, toNatLE_encode, Nat.mod_eq_of_lt hlt,
    ZMod.natCast_zmod_val]

/-- Different residues have different encodings. -/
theorem encode_inj {r s : Residue} :
  encode r = encode s ↔ r = s
  := by
  constructor
  · intro h
    apply ZMod.val_injective modulus
    rw [← toNatLE_encode r, h, toNatLE_encode]
  · rintro rfl
    rfl

/-- Two elements have the same encoding exactly if they denote the same residue. -/
theorem toBytes_inj {a b : FieldElement} :
  a.toBytes = b.toBytes ↔ a.residue = b.residue
  := by
  rw [← Vector.toList_inj, toList_toBytes, toList_toBytes, encode_inj]

/-- Elements are equal when their residues are, whatever their limbs. -/
theorem beq_iff {a b : FieldElement} :
  (a == b) = true ↔ a.residue = b.residue
  := by
  rw [← toBytes_inj]
  apply beq_iff_eq (a := a.toBytes)

/-- Elements are compared by their residues. -/
theorem beq_eq_decide (a b : FieldElement) :
  (a == b) = decide (a.residue = b.residue)
  := by
  rw [Bool.eq_iff_iff, beq_iff, decide_eq_true_iff]

/-- An element is zero if its residue is, whatever its limbs are. -/
theorem isZero_iff {a : FieldElement} :
  a.isZero = true ↔ a.residue = 0
  := by
  rw [isZero, beq_iff_eq, ← Vector.toList_inj, toList_toBytes, ← encode_inj]
  rfl

theorem isZero_eq_decide (a : FieldElement) :
  a.isZero = decide (a.residue = 0)
  := by
  rw [Bool.eq_iff_iff, isZero_iff, decide_eq_true_iff]

/-- The sign of an element is the parity of its representative. -/
theorem isNegative_iff {a : FieldElement} :
  a.isNegative = true ↔ a.residue.val % 2 = 1
  := by
  have hdigits : toNatLE a.toBytes.toList
      = a.toBytes.head.toNat + 256 * toNatLE a.toBytes.toList.tail := by
    obtain ⟨x, rest, h⟩ := List.exists_cons_of_length_pos (l := a.toBytes.toList) (by simp)
    have hx : a.toBytes.head = x := by
      change a.toBytes[0] = x
      rw [← Vector.getElem_toList (h := by simp)]
      simp [h]
    rw [hx, h, toNatLE, List.tail_cons]
  rw [← toNatLE_toBytes, hdigits, isNegative, lowBit, beq_iff_eq, ← UInt8.toNat_inj, UInt8.toNat_and,
    show (1 : UInt8).toNat = 1 from rfl, Nat.and_one_is_mod]
  omega

/-- The sign is the parity of the representative in `[0, p)`. -/
theorem isNegative_eq_decide (a : FieldElement) :
  a.isNegative = decide (a.residue.val % 2 = 1)
  := by
  rw [Bool.eq_iff_iff, isNegative_iff, decide_eq_true_iff]

/-! ### Texts -/

theorem reverse_toBytes (a : FieldElement) :
  a.toBytes.toList.reverse = ofNatBE 32 a.residue.val
  := by rw [toList_toBytes, encode, ofNatBE]

/-- The digits of the representative, most significant digit first. -/
theorem toList_toHex (a : FieldElement) :
  a.toHex.toList = hexadecimal Nat.digitChar 64 a.residue.val
  := by rw [toHex, reverse_toBytes, toList_toHex_ofNatBE]

theorem toList_toUpperHex (a : FieldElement) :
  a.toUpperHex.toList = hexadecimal (fun d => (Nat.digitChar d).toUpper) 64 a.residue.val
  := by rw [toUpperHex, reverse_toBytes, toList_toUpperHex_ofNatBE]

end HashToCurve.FieldElement
