import HashToCurve.Proofs.Elligator.Edwards
import HashToCurve.Proofs.Field.BatchInverse
import HashToCurve.Proofs.Field.WideReduction
import HashToCurve.Proofs.Overflow.Arithmetic
import Mathlib.Data.Nat.Bitwise

/-!
# Functions without overflow

The functions of field elements with the checked arithmetic in place of the unchecked one.  All
intermediate results are bounded, so that on bounded elements the checks pass.  The encoding of an
element passes its checks whatever the limbs are.
-/

namespace HashToCurve.Checked

open FieldElement

variable {a b : FieldElement}

/-! ### Encodings -/

/-- What leaves the top limb when a word is added and what exceeds 51 bits is moved up. -/
def carryOut (a : FieldElement) (x : UInt64) : Option UInt64 := do
  let q ← addWord a.l0 x
  let q ← addWord a.l1 (q >>> 51)
  let q ← addWord a.l2 (q >>> 51)
  let q ← addWord a.l3 (q >>> 51)
  let q ← addWord a.l4 (q >>> 51)
  return q >>> 51

/-- The limbs below `2^51` of the representative in `[0, p)`. -/
def canonical (a : FieldElement) : Option FieldElement := do
  let a ← carry a
  let q ← carryOut a 19
  let l0 ← addWord a.l0 (← mulWord 19 q)
  let l1 ← addWord a.l1 (l0 >>> 51)
  let l2 ← addWord a.l2 (l1 >>> 51)
  let l3 ← addWord a.l3 (l2 >>> 51)
  let l4 ← addWord a.l4 (l3 >>> 51)
  return ⟨low51 l0, low51 l1, low51 l2, low51 l3, low51 l4⟩

/-- The encoding of an element, if bit 255 is clear. -/
def toBytes (a : FieldElement) : Option (Vector UInt8 32) := do
  let bytes := pack (← canonical a)
  if topBit bytes = 0 then some bytes else none

/-- A limb below `2^52` takes the carry of any word. -/
theorem addWord_shiftRight51 {x : UInt64} (hx : x.toNat < 2 ^ 52) (y : UInt64) :
  addWord x (y >>> 51) = some (x + (y >>> 51))
  := by
  have hy := toNat_shiftRight51_lt y
  apply addWord_eq
  omega

/-- The carry that a word sends through all limbs never overflows on limbs below `2^52`. -/
theorem carryOut_eq {a : FieldElement} (ha : a.LimbsBelow (2 ^ 52)) {x : UInt64}
    (hx : x.toNat < 2 ^ 52) :
  ∃ y : UInt64, carryOut a x = some (y >>> 51)
    ∧ y = a.l4 + ((a.l3 + ((a.l2 + ((a.l1 + ((a.l0 + x) >>> 51)) >>> 51)) >>> 51)) >>> 51)
  := by
  obtain ⟨h0, h1, h2, h3, h4⟩ := ha
  refine ⟨_, ?_, rfl⟩
  rw [carryOut, bind_of_some (addWord_eq (by omega)), bind_of_some (addWord_shiftRight51 h1 _),
    bind_of_some (addWord_shiftRight51 h2 _), bind_of_some (addWord_shiftRight51 h3 _),
    bind_of_some (addWord_shiftRight51 h4 _)]
  rfl

/-- The representative in `[0, p)` is computed without overflow for all limbs. -/
theorem canonical_eq (a : FieldElement) :
  canonical a = some a.canonical
  := by
  have hlimbs := (limbsBelow_carry a.limbsBelow_word).mono (n := 2 ^ 52) (by norm_num)
  obtain ⟨y, hq, hy⟩ := carryOut_eq hlimbs (x := 19) (by decide)
  obtain ⟨h0, h1, h2, h3, h4⟩ := hlimbs
  have hlt := toNat_shiftRight51_lt y
  have hproduct : ((19 : UInt64) * (y >>> 51)).toNat < 2 ^ 52 := by
    rw [UInt64.mul_comm, toNat_mul_nineteen (by omega)]
    omega
  rw [canonical, bind_of_some (carry_eq a), bind_of_some hq,
    bind_of_some (nineteen_mulWord (x := y >>> 51) (by omega)),
    bind_of_some (addWord_eq (by omega)), bind_of_some (addWord_shiftRight51 h1 _),
    bind_of_some (addWord_shiftRight51 h2 _), bind_of_some (addWord_shiftRight51 h3 _),
    bind_of_some (addWord_shiftRight51 h4 _), hy]
  rfl

/-- The last byte of limbs of 51 bits has seven bits. -/
theorem pack_topBit {a : FieldElement} (ha : a.LimbsBelow (2 ^ 51)) :
  topBit (pack a) = 0
  := by
  have hl4 := ha.l4
  have hshift : (a.l4 >>> 44).toNat = a.l4.toNat / 2 ^ 44 := toNat_shiftRight a.l4 44 (by omega)
  have hbyte : (a.l4 >>> 44).toUInt8.toNat < 2 ^ 7 := by
    rw [UInt64.toNat_toUInt8]
    omega
  change (a.l4 >>> 44).toUInt8 >>> 7 = 0
  rw [← UInt8.toNat_inj, UInt8.toNat_shiftRight, show (7 : UInt8).toNat % 8 = 7 from rfl,
    Nat.shiftRight_eq_div_pow, Nat.div_eq_of_lt hbyte]
  rfl

/-- The encoding passes its checks for all limbs. -/
theorem toBytes_eq (a : FieldElement) :
  toBytes a = some a.toBytes
  := by
  rw [toBytes, bind_of_some (canonical_eq a)]
  apply if_pos (pack_topBit a.limbsBelow_canonical)

/-- Whether two elements are equal. -/
def equal (a b : FieldElement) : Option Bool := return (← toBytes a) == (← toBytes b)

/-- The comparison of encodings passes its checks for all limbs. -/
theorem equal_eq (a b : FieldElement) :
  equal a b = some (a == b)
  := by
  rw [equal, bind_of_some (toBytes_eq a), bind_of_some (toBytes_eq b)]
  rfl

/-- Whether an element is zero. -/
def isZero (a : FieldElement) : Option Bool := return (← toBytes a) == Vector.replicate 32 0

theorem isZero_eq (a : FieldElement) :
  isZero a = some a.isZero
  := by
  rw [isZero, bind_of_some (toBytes_eq a)]
  rfl

/-- Whether the representative in `[0, p)` is odd. -/
def isNegative (a : FieldElement) : Option Bool := return lowBit (← toBytes a) == 1

/-- The sign is read off an encoding, so its checks pass for all limbs. -/
theorem isNegative_eq (a : FieldElement) :
  isNegative a = some a.isNegative
  := by
  rw [isNegative, bind_of_some (toBytes_eq a)]
  rfl

/-- The weight of the top bits of two halves, if 16 bits hold it. -/
def topBits (low high : Vector UInt8 32) : Option UInt64 :=
  if (topBit low).toNat * 19 + (topBit high).toNat * 722 < 2 ^ 16
  then some ((topBit low).toUInt64 * 19 + (topBit high).toUInt64 * 722)
  else none

/-- The element that 64 bytes write, least significant byte first. -/
def ofWideBytes (b : Vector UInt8 64) : Option FieldElement := do
  let low := Bytes.firstHalf b
  let high := Bytes.lastHalf b
  let top ← topBits low high
  add (← add (ofBytes low) (ofWord top)) (← mul (ofWord 38) (ofBytes high))

/-- The element of 64 bytes is computed without overflow, as the top bits of both halves weigh less
than `2^16`. -/
theorem ofWideBytes_eq (b : Vector UInt8 64) :
  ofWideBytes b = some (FieldElement.ofWideBytes b)
  := by
  unfold ofWideBytes FieldElement.ofWideBytes
  extract_lets low high
  have hlow := topBit_lt low
  have hhigh := topBit_lt high
  have htop : topBits low high
      = some ((topBit low).toUInt64 * 19 + (topBit high).toUInt64 * 722) := if_pos (by omega)
  have hbounded : (ofWord ((topBit low).toUInt64 * 19 + (topBit high).toUInt64 * 722)).Bounded := by
    apply bounded_ofWord
    rw [toNat_topBits]
    omega
  rw [bind_of_some htop, bind_of_some (add_eq (bounded_ofBytes low) hbounded),
    bind_of_some (mul_eq (bounded_ofWord (by decide)) (bounded_ofBytes high)),
    add_eq (bounded_add _ _) (bounded_mul _ _)]

/-- The element that 48 bytes write, most significant byte first. -/
def ofUniformBytes (b : Vector UInt8 48) : Option FieldElement :=
  ofWideBytes (b.reverse ++ (Vector.replicate 16 0 : Vector UInt8 16))

theorem ofUniformBytes_eq (b : Vector UInt8 48) :
  ofUniformBytes b = some (FieldElement.ofUniformBytes b)
  := ofWideBytes_eq _

/-! ### Sums and products of lists -/

/-- The sum of a list, `0` for the empty one. -/
def sum : List FieldElement → Option FieldElement
  | [] => some 0
  | a :: rest => rest.foldlM add a

/-- The product of a list, `1` for the empty one. -/
def product : List FieldElement → Option FieldElement
  | [] => some 1
  | a :: rest => rest.foldlM mul a

/-- An operation that is checked on bounded elements, and has bounded results, can be folded over a
list of them. -/
theorem foldlM_eq {f : FieldElement → FieldElement → Option FieldElement}
    {g : FieldElement → FieldElement → FieldElement}
    (hf : ∀ a b, a.Bounded → b.Bounded → f a b = some (g a b)) (hg : ∀ a b, (g a b).Bounded)
    {as : List FieldElement} (has : ∀ a ∈ as, a.Bounded) (ha : a.Bounded) :
  as.foldlM f a = some (as.foldl g a)
  := by
  induction as generalizing a with
  | nil => rfl
  | cons b rest ih =>
    rw [List.forall_mem_cons] at has
    rw [List.foldlM_cons, bind_of_some (hf a b ha has.1), ih has.2 (hg a b), List.foldl_cons]

theorem sum_eq {as : List FieldElement} (has : ∀ a ∈ as, a.Bounded) :
  sum as = some (FieldElement.sum as)
  := by
  cases as with
  | nil => rfl
  | cons a rest =>
    rw [List.forall_mem_cons] at has
    exact foldlM_eq (fun _ _ => add_eq) bounded_add has.2 has.1

theorem product_eq {as : List FieldElement} (has : ∀ a ∈ as, a.Bounded) :
  product as = some (FieldElement.product as)
  := by
  cases as with
  | nil => rfl
  | cons a rest =>
    rw [List.forall_mem_cons] at has
    exact foldlM_eq (fun _ _ => mul_eq) bounded_mul has.2 has.1

/-! ### Fixed powers -/

/-- The powers `a^(2^250 - 1)` and `a^11`. -/
def sharedPowers (a : FieldElement) : Option (FieldElement × FieldElement) := do
  let e2 ← square a
  let e8 ← pow2k e2 2
  let e9 ← mul a e8
  let e11 ← mul e2 e9
  let e22 ← square e11
  let ones5 ← mul e9 e22
  let ones10 ← mul (← pow2k ones5 5) ones5
  let ones20 ← mul (← pow2k ones10 10) ones10
  let ones40 ← mul (← pow2k ones20 20) ones20
  let ones50 ← mul (← pow2k ones40 10) ones10
  let ones100 ← mul (← pow2k ones50 50) ones50
  let ones200 ← mul (← pow2k ones100 100) ones100
  let ones250 ← mul (← pow2k ones200 50) ones50
  return (ones250, e11)

/-- The chain of powers multiplies and squares bounded elements only. -/
theorem sharedPowers_eq (ha : a.Bounded) :
  sharedPowers a = some a.sharedPowers
  := by
  have hpow (x y : FieldElement) {k : Nat} (hk : 1 ≤ k) :
      pow2k (x * y) k = some ((x * y).pow2k k) := pow2k_eq (bounded_mul x y) hk
  have hmul (w x y z : FieldElement) (k : Nat) :
      mul ((w * x).pow2k k) (y * z) = some ((w * x).pow2k k * (y * z)) :=
    mul_eq (bounded_pow2k (bounded_mul w x) k) (bounded_mul y z)
  rw [sharedPowers, bind_of_some (square_eq ha),
    bind_of_some (pow2k_eq (bounded_square a) (by norm_num)),
    bind_of_some (mul_eq ha (bounded_pow2k (bounded_square a) 2)),
    bind_of_some (mul_eq (bounded_square a) (bounded_mul _ _)),
    bind_of_some (square_eq (bounded_mul _ _)),
    bind_of_some (mul_eq (bounded_mul _ _) (bounded_square _)),
    bind_of_some (hpow _ _ (by norm_num)), bind_of_some (hmul _ _ _ _ _),
    bind_of_some (hpow _ _ (by norm_num)), bind_of_some (hmul _ _ _ _ _),
    bind_of_some (hpow _ _ (by norm_num)), bind_of_some (hmul _ _ _ _ _),
    bind_of_some (hpow _ _ (by norm_num)), bind_of_some (hmul _ _ _ _ _),
    bind_of_some (hpow _ _ (by norm_num)), bind_of_some (hmul _ _ _ _ _),
    bind_of_some (hpow _ _ (by norm_num)), bind_of_some (hmul _ _ _ _ _),
    bind_of_some (hpow _ _ (by norm_num)), bind_of_some (hmul _ _ _ _ _)]
  rfl

/-- The inverse of an element. -/
def inverse (a : FieldElement) : Option FieldElement := do
  let (ones250, e11) ← sharedPowers a
  mul (← pow2k ones250 5) e11

theorem inverse_eq (ha : a.Bounded) :
  inverse a = some a.inverse
  := by
  obtain ⟨hones, h11⟩ := a.bounded_sharedPowers
  rw [inverse, bind_of_some (sharedPowers_eq ha)]
  change (pow2k a.sharedPowers.1 5 >>= fun x => mul x a.sharedPowers.2) = _
  rw [bind_of_some (pow2k_eq hones (by norm_num)), mul_eq (bounded_pow2k hones 5) h11]
  rfl

/-- The power with exponent `(p - 5) / 8`. -/
def powP58 (a : FieldElement) : Option FieldElement := do
  let (ones250, _) ← sharedPowers a
  mul (← pow2k ones250 2) a

theorem powP58_eq (ha : a.Bounded) :
  powP58 a = some a.powP58
  := by
  obtain ⟨hones, -⟩ := a.bounded_sharedPowers
  rw [powP58, bind_of_some (sharedPowers_eq ha)]
  change (pow2k a.sharedPowers.1 2 >>= fun x => mul x a) = _
  rw [bind_of_some (pow2k_eq hones (by norm_num)), mul_eq (bounded_pow2k hones 2) ha]
  rfl

/-! ### Square roots -/

/-- The square root of a ratio, in the sense of `FieldElement.sqrtRatio`. -/
def sqrtRatio (u v : FieldElement) : Option (FieldElement × Bool) := do
  let v3 ← mul (← square v) v
  let v7 ← mul (← square v3) v
  let r ← mul (← mul u v3) (← powP58 (← mul u v7))
  let check ← mul v (← square r)
  let correct ← equal check u
  let flipped ← equal check (← neg u)
  let flippedByRoot ← equal check (← mul (← neg u) sqrtMinusOne)
  let r := r.select (← mul sqrtMinusOne r) (flipped || flippedByRoot)
  return (← negateIf r (← isNegative r), correct || flipped)

/-- All candidates for the root and all comparisons pass their checks. -/
theorem sqrtRatio_eq {u v : FieldElement} (hu : u.Bounded) (hv : v.Bounded) :
  sqrtRatio u v = some (FieldElement.sqrtRatio u v)
  := by
  rw [sqrtRatio, bind_of_some (square_eq hv), bind_of_some (mul_eq (bounded_square v) hv),
    bind_of_some (square_eq (bounded_mul _ _)), bind_of_some (mul_eq (bounded_square _) hv),
    bind_of_some (mul_eq hu (bounded_mul _ _)), bind_of_some (mul_eq hu (bounded_mul _ _)),
    bind_of_some (powP58_eq (bounded_mul _ _)),
    bind_of_some (mul_eq (bounded_mul _ _) (bounded_powP58 _)),
    bind_of_some (square_eq (bounded_mul _ _)), bind_of_some (mul_eq hv (bounded_square _)),
    bind_of_some (equal_eq _ u), bind_of_some (neg_eq hu), bind_of_some (equal_eq _ (-u)),
    bind_of_some (neg_eq hu), bind_of_some (mul_eq (bounded_neg u) bounded_sqrtMinusOne),
    bind_of_some (equal_eq _ (-u * sqrtMinusOne)),
    bind_of_some (mul_eq bounded_sqrtMinusOne (bounded_mul _ _)), bind_of_some (isNegative_eq _),
    bind_of_some (negateIf_eq (bounded_select (bounded_mul _ _) (bounded_mul _ _) _) _)]
  rfl

/-- The square root of `1 / a`. -/
def inverseSqrt (a : FieldElement) : Option (FieldElement × Bool) := sqrtRatio 1 a

theorem inverseSqrt_eq (ha : a.Bounded) :
  inverseSqrt a = some a.inverseSqrt
  := sqrtRatio_eq bounded_one ha

/-! ### The maps to the curves -/

open MontgomeryPoint (coefficient negCoefficient coefficientSquared scale)
open Elligator (uFactor vFactor)

/-- The coordinates of the Montgomery point that represents `r`. -/
def toMontgomery (r : FieldElement) : Option (FieldElement × FieldElement) := do
  let rr ← square r
  let twice ← square2 r
  let w ← add twice 1
  let ww ← square w
  let numerator ← mul coefficient (← sub (← mul coefficientSquared twice) ww)
  let denominator ← mul ww w
  let root ← inverseSqrt (← mul denominator numerator)
  let uOther ← mul rr uFactor
  let vOther ← mul r vFactor
  let v ← mul (← mul (vOther.select 1 root.2) numerator) root.1
  let qq ← square root.1
  let u ← mul (← mul (← mul (← mul (uOther.select 1 root.2) negCoefficient) numerator) ww) qq
  return (u, ← negateIf v (root.2 ^^ (← isNegative v)))

/-- The Montgomery point of a bounded representative is computed without overflow. -/
theorem toMontgomery_eq {r : FieldElement} (hr : r.Bounded) :
  toMontgomery r = some ((Elligator.toMontgomery r).u, (Elligator.toMontgomery r).v)
  := by
  have hselect (x y : FieldElement) (choice : Bool) : ((x * y).select 1 choice).Bounded :=
    bounded_select (bounded_mul x y) bounded_one choice
  have hroot (x : FieldElement) : x.inverseSqrt.1.Bounded := bounded_sqrtRatio 1 x
  rw [toMontgomery, bind_of_some (square_eq hr), bind_of_some (square2_eq hr),
    bind_of_some (add_eq (bounded_square2 r) bounded_one),
    bind_of_some (square_eq (bounded_add _ _)),
    bind_of_some (mul_eq MontgomeryPoint.bounded_coefficientSquared (bounded_square2 r)),
    bind_of_some (sub_eq (bounded_mul _ _) (bounded_square _)),
    bind_of_some (mul_eq MontgomeryPoint.bounded_coefficient (bounded_sub _ _)),
    bind_of_some (mul_eq (bounded_square _) (bounded_add _ _)),
    bind_of_some (mul_eq (bounded_mul _ _) (bounded_mul _ _)),
    bind_of_some (inverseSqrt_eq (bounded_mul _ _)),
    bind_of_some (mul_eq (bounded_square r) Elligator.bounded_uFactor),
    bind_of_some (mul_eq hr Elligator.bounded_vFactor),
    bind_of_some (mul_eq (hselect _ _ _) (bounded_mul _ _)),
    bind_of_some (mul_eq (bounded_mul _ _) (hroot _)), bind_of_some (square_eq (hroot _)),
    bind_of_some (mul_eq (hselect _ _ _) MontgomeryPoint.bounded_negCoefficient),
    bind_of_some (mul_eq (bounded_mul _ _) (bounded_mul _ _)),
    bind_of_some (mul_eq (bounded_mul _ _) (bounded_square _)),
    bind_of_some (mul_eq (bounded_mul _ _) (bounded_square _)),
    bind_of_some (isNegative_eq _), bind_of_some (negateIf_eq (bounded_mul _ _) _)]
  rfl

/-- The affine coordinates on `edwards25519` of a Montgomery point. -/
def toAffine (P : MontgomeryPoint) : Option AffinePoint := do
  let next ← add P.u 1
  let previous ← sub P.u 1
  let denominator ← mul P.v next
  let r ← inverse denominator
  let x ← mul (← mul (← mul scale P.u) next) r
  let y ← mul (← mul previous P.v) r
  return AffinePoint.select ⟨x, y⟩ .identity (← isZero denominator)

/-- The rational map passes its checks for all bounded pairs, its poles included. -/
theorem toAffine_eq {P : MontgomeryPoint} (hu : P.u.Bounded) (hv : P.v.Bounded) :
  toAffine P = some P.toAffine
  := by
  rw [toAffine, bind_of_some (add_eq hu bounded_one), bind_of_some (sub_eq hu bounded_one),
    bind_of_some (mul_eq hv (bounded_add _ _)), bind_of_some (inverse_eq (bounded_mul _ _)),
    bind_of_some (mul_eq MontgomeryPoint.bounded_scale hu),
    bind_of_some (mul_eq (bounded_mul _ _) (bounded_add _ _)),
    bind_of_some (mul_eq (bounded_mul _ _) (bounded_inverse _)),
    bind_of_some (mul_eq (bounded_sub _ _) hv),
    bind_of_some (mul_eq (bounded_mul _ _) (bounded_inverse _)), bind_of_some (isZero_eq _)]
  rfl

/-- The compressed form of a pair of coordinates. -/
def compress (P : AffinePoint) : Option (Vector UInt8 32) := do
  return setTopBit (← toBytes P.y) (← isNegative P.x)

/-- A pair of coordinates is compressed without a failing check, whatever its limbs are. -/
theorem compress_eq (P : AffinePoint) :
  compress P = some P.compress
  := by
  rw [compress, bind_of_some (toBytes_eq P.y), bind_of_some (isNegative_eq P.x)]
  rfl

/-- The compressed form of the point that represents the element of a block of 48 bytes. -/
def compressedOfBlock (block : Vector UInt8 48) : Option (Vector UInt8 32) := do
  let (u, v) ← toMontgomery (← ofUniformBytes block)
  compress (← toAffine ⟨u, v⟩)

/-- Nothing overflows on the way from a block to a point. -/
theorem compressedOfBlock_eq (block : Vector UInt8 48) :
  compressedOfBlock block
    = some (Elligator.toMontgomery (FieldElement.ofUniformBytes block)).toAffine.compress
  := by
  have hr := bounded_ofUniformBytes block
  obtain ⟨hu, hv⟩ := Elligator.bounded_toMontgomery (FieldElement.ofUniformBytes block)
  rw [compressedOfBlock, bind_of_some (ofUniformBytes_eq block), bind_of_some (toMontgomery_eq hr)]
  apply (bind_of_some (toAffine_eq hu hv) _).trans
  apply compress_eq

/-! ### Inverting many elements at once -/

/-- Each element with the product of `acc` and the elements before it, and the product of `acc` and
all elements. -/
def withProductsBefore (acc : FieldElement) :
    List FieldElement → Option (List (FieldElement × FieldElement) × FieldElement)
  | [] => some ([], acc)
  | a :: rest => do
    let (paired, total) ← withProductsBefore (← mul acc a) rest
    return ((a, acc) :: paired, total)

/-- The pass from the left multiplies bounded elements only. -/
theorem withProductsBefore_eq {as : List FieldElement} (has : ∀ a ∈ as, a.Bounded)
    {acc : FieldElement} (hacc : acc.Bounded) :
  withProductsBefore acc as = some (FieldElement.withProductsBefore acc as)
  := by
  induction as generalizing acc with
  | nil => rfl
  | cons a rest ih =>
    rw [List.forall_mem_cons] at has
    rw [withProductsBefore, bind_of_some (mul_eq hacc has.1),
      bind_of_some (ih has.2 (bounded_mul acc a))]
    rfl

/-- The inverses of a list of pairs of an element and the product of those before it, and the
inverse of what precedes the list. -/
def unwind (total : FieldElement) :
    List (FieldElement × FieldElement) → Option (List FieldElement × FieldElement)
  | [] => some ([], total)
  | (a, before) :: rest => do
    let (inverses, acc) ← unwind total rest
    return ((← mul acc before) :: inverses, ← mul acc a)

/-- The pass from the right multiplies bounded elements only. -/
theorem unwind_eq {total : FieldElement} (htotal : total.Bounded)
    {paired : List (FieldElement × FieldElement)}
    (hpaired : ∀ pair ∈ paired, pair.1.Bounded ∧ pair.2.Bounded) :
  unwind total paired = some (FieldElement.unwind total paired)
  := by
  induction paired with
  | nil => rfl
  | cons pair rest ih =>
    rw [List.forall_mem_cons] at hpaired
    have hacc := bounded_unwind htotal rest
    rw [unwind, bind_of_some (ih hpaired.2)]
    apply (bind_of_some (mul_eq hacc hpaired.1.2) _).trans
    apply (bind_of_some (mul_eq hacc hpaired.1.1) _).trans
    rfl

/-- The inverses of a list of elements, none of which may be zero. -/
def batchInverse (inputs : List FieldElement) : Option (Except Fault (List FieldElement)) := do
  let (paired, total) ← withProductsBefore 1 inputs
  if ← isZero total then return .error .zeroInBatch
  else
    let (inverses, _) ← unwind (← inverse total) paired
    return .ok inverses

/-- A list of bounded elements is inverted or refused without a failing check. -/
theorem batchInverse_eq {as : List FieldElement} (has : ∀ a ∈ as, a.Bounded) :
  batchInverse as = some (FieldElement.batchInverse as)
  := by
  obtain ⟨htotal, hpaired⟩ := bounded_withProductsBefore has bounded_one
  rw [batchInverse, bind_of_some (withProductsBefore_eq has bounded_one)]
  generalize hproducts : FieldElement.withProductsBefore 1 as = products at htotal hpaired ⊢
  obtain ⟨paired, total⟩ := products
  apply (bind_of_some (isZero_eq total) _).trans
  have hresult : FieldElement.batchInverse as
      = if total.isZero then .error .zeroInBatch
        else .ok (FieldElement.unwind total.inverse paired).1 := by
    rw [FieldElement.batchInverse, hproducts]
  rw [hresult]
  split
  · rfl
  · apply (bind_of_some (inverse_eq htotal) _).trans
    apply bind_of_some (unwind_eq (bounded_inverse total) hpaired)

end HashToCurve.Checked
