import HashToCurve.Field.Basic
import HashToCurve.Field.Wide
import Mathlib.Tactic.Linarith
import Mathlib.Tactic.Ring

/-!
# Words as numbers

The number of a word after a mask, a shift or a disjoint "or", and the numbers of 128-bit words
under the operations that multiply limbs.  Where a word operation can wrap, the statement names
the bound below which it does not.
-/

namespace HashToCurve

/-! ### Bits of 64-bit words -/

/-- The low 51 bits of a word are its remainder modulo `2^51`. -/
theorem toNat_low51 (x : UInt64) :
  (FieldElement.low51 x).toNat = x.toNat % 2 ^ 51
  := by
  rw [FieldElement.low51, UInt64.toNat_and]
  apply Nat.and_two_pow_sub_one_eq_mod _ 51

theorem toNat_low51_lt (x : UInt64) :
  (FieldElement.low51 x).toNat < 2 ^ 51
  := by
  rw [toNat_low51]
  apply Nat.mod_lt _ (by norm_num)

/-- A shift to the right is a quotient by a power of two. -/
theorem toNat_shiftRight (x : UInt64) (k : Nat) (hk : k < 64) :
  (x >>> (OfNat.ofNat k : UInt64)).toNat = x.toNat / 2 ^ k
  := by
  rw [UInt64.toNat_shiftRight, UInt64.toNat_ofNat, Nat.mod_eq_of_lt (a := k) (by omega),
    Nat.mod_eq_of_lt hk, Nat.shiftRight_eq_div_pow]

/-- A word shifted up by `k` bits loses its upper `k` bits. -/
theorem toNat_shiftLeft (x : UInt64) (k : Nat) (hk : k < 64) :
  (x <<< (OfNat.ofNat k : UInt64)).toNat = 2 ^ k * (x.toNat % 2 ^ (64 - k))
  := by
  rw [UInt64.toNat_shiftLeft, UInt64.toNat_ofNat, Nat.mod_eq_of_lt (a := k) (by omega),
    Nat.mod_eq_of_lt hk, Nat.shiftLeft_eq, Nat.mul_comm, ← Nat.mul_mod_mul_left, ← Nat.pow_add,
    show k + (64 - k) = 64 by omega]

theorem toNat_low51_add {x y : UInt64} (hy : y.toNat < 2 ^ 63) :
  (FieldElement.low51 x + y).toNat = x.toNat % 2 ^ 51 + y.toNat
  := by
  rw [UInt64.toNat_add, toNat_low51, Nat.mod_eq_of_lt (by omega)]

/-- A limb of 51 bits and the carry of another word are added without overflow. -/
theorem toNat_low51_add_shiftRight51 (x y : UInt64) :
  (FieldElement.low51 x + (y >>> 51)).toNat = x.toNat % 2 ^ 51 + y.toNat / 2 ^ 51
  := by
  have hy := y.toNat_lt
  have hshift : (y >>> 51).toNat = y.toNat / 2 ^ 51 := toNat_shiftRight y 51 (by omega)
  rw [toNat_low51_add (by omega), hshift]

/-- A carry has 13 bits at most. -/
theorem toNat_shiftRight51_lt (x : UInt64) :
  (x >>> 51).toNat < 2 ^ 13
  := by
  have hx := x.toNat_lt
  have hshift : (x >>> 51).toNat = x.toNat / 2 ^ 51 := toNat_shiftRight x 51 (by omega)
  omega

/-- Multiplying by 19, for words that leave room for it. -/
theorem toNat_mul_nineteen {x : UInt64} (hx : 19 * x.toNat < 2 ^ 64) :
  (x * 19).toNat = 19 * x.toNat
  := by
  rw [UInt64.toNat_mul, show (19 : UInt64).toNat = 19 from rfl]
  omega

/-- Disjoint bits are joined by addition. -/
theorem or_mul_two_pow {a k : Nat} (b : Nat) (ha : a < 2 ^ k) :
  a ||| 2 ^ k * b = a + 2 ^ k * b
  := by
  rw [Nat.or_comm, ← Nat.two_pow_add_eq_or_of_lt ha, Nat.add_comm]

/-- A word with `k` bits, joined with a word shifted up by `k` bits. -/
theorem toNat_or_shiftLeft (x y : UInt64) (k : Nat) (hk : k < 64) (hx : x.toNat < 2 ^ k) :
  (x ||| (y <<< (OfNat.ofNat k : UInt64))).toNat = x.toNat + 2 ^ k * (y.toNat % 2 ^ (64 - k))
  := by
  rw [UInt64.toNat_or, toNat_shiftLeft y k hk, or_mul_two_pow _ hx]

namespace Wide

/-! ### 128-bit words -/

theorem toNat_lowHalf (x : UInt64) :
  (lowHalf x).toNat = x.toNat % 2 ^ 32
  := by
  rw [lowHalf, UInt64.toNat_and]
  apply Nat.and_two_pow_sub_one_eq_mod _ 32

theorem toNat_highHalf (x : UInt64) :
  (highHalf x).toNat = x.toNat / 2 ^ 32
  := toNat_shiftRight x 32 (by omega)

theorem toNat_ofWord (x : UInt64) :
  (ofWord x).toNat = x.toNat
  := by
  simp [ofWord, toNat]

theorem toNat_lo (w : Wide) :
  w.lo.toNat = w.toNat % 2 ^ 64
  := by
  have hlo := w.lo.toNat_lt
  simp only [toNat]
  omega

/-- A 128-bit word is determined by its number. -/
theorem toNat_injective :
  Function.Injective toNat
  := by
  rintro ⟨vhi, vlo⟩ ⟨whi, wlo⟩ h
  have hv := vlo.toNat_lt
  have hw := wlo.toNat_lt
  simp only [toNat] at h
  obtain rfl : vhi = whi := UInt64.toNat_inj.mp (by omega)
  obtain rfl : vlo = wlo := UInt64.toNat_inj.mp (by omega)
  rfl

/-- Sums of 128-bit words are sums of numbers if they do not overflow. -/
theorem toNat_add (v w : Wide) (h : v.toNat + w.toNat < 2 ^ 128) :
  (v + w).toNat = v.toNat + w.toNat
  := by
  obtain ⟨vhi, vlo⟩ := v
  obtain ⟨whi, wlo⟩ := w
  have hv := vlo.toNat_lt
  have hw := wlo.toNat_lt
  simp only [toNat] at h
  change (Wide.add _ _).toNat = _
  simp only [add, toNat, UInt64.toNat_add, UInt64.lt_iff_toNat_lt]
  split
  · rw [show (1 : UInt64).toNat = 1 from rfl]
    omega
  · rw [show (0 : UInt64).toNat = 0 from rfl]
    omega

theorem toNat_double (w : Wide) (h : 2 * w.toNat < 2 ^ 128) :
  w.double.toNat = 2 * w.toNat
  := by
  rw [double, toNat_add w w (by omega)]
  omega

/-- What exceeds 51 bits of a 128-bit word fits into a word below `2^115`. -/
theorem toNat_shiftRight51 (w : Wide) (h : w.toNat < 2 ^ 115) :
  w.shiftRight51.toNat = w.toNat / 2 ^ 51
  := by
  have hlo := w.lo.toNat_lt
  have hlow : (w.lo >>> 51).toNat = w.lo.toNat / 2 ^ 51 := toNat_shiftRight w.lo 51 (by omega)
  simp only [toNat] at h ⊢
  rw [shiftRight51, toNat_or_shiftLeft _ _ 13 (by omega) (by omega), hlow,
    Nat.mod_eq_of_lt (by omega)]
  omega

/-- The product of two numbers, from the products of their halves. -/
private theorem mul_eq_halves (x y : Nat) :
  x * y = 2 ^ 64 * (x / 2 ^ 32 * (y / 2 ^ 32))
    + 2 ^ 32 * (x % 2 ^ 32 * (y / 2 ^ 32) + x / 2 ^ 32 * (y % 2 ^ 32))
    + x % 2 ^ 32 * (y % 2 ^ 32)
  := by
  conv_lhs => rw [← Nat.mod_add_div x (2 ^ 32), ← Nat.mod_add_div y (2 ^ 32)]
  ring

/-- The largest product of two numbers below `2^32`. -/
private def maxProduct : Nat := (2 ^ 32 - 1) * (2 ^ 32 - 1)

/-- The product of two halves fits in a word. -/
private theorem toNat_mul_halves {x y : UInt64} (hx : x.toNat < 2 ^ 32) (hy : y.toNat < 2 ^ 32) :
  (x * y).toNat = x.toNat * y.toNat ∧ (x * y).toNat ≤ maxProduct
  := by
  have h : x.toNat * y.toNat ≤ maxProduct :=
    Nat.mul_le_mul (Nat.le_sub_one_of_lt hx) (Nat.le_sub_one_of_lt hy)
  have hmax : maxProduct < 2 ^ 64 := by decide
  rw [UInt64.toNat_mul, Nat.mod_eq_of_lt (by omega)]
  use rfl

/-- The four products of halves, each added in at its weight. -/
private theorem toNat_joinProducts {low cross cross' high : UInt64} (hlow : low.toNat ≤ maxProduct)
    (hcross : cross.toNat ≤ maxProduct) (hcross' : cross'.toNat ≤ maxProduct)
    (hhigh : high.toNat ≤ maxProduct) :
  toNat
    ⟨high + highHalf cross + highHalf cross'
        + highHalf (highHalf low + lowHalf cross + lowHalf cross'),
      ((highHalf low + lowHalf cross + lowHalf cross') <<< 32) ||| lowHalf low⟩
    = 2 ^ 64 * high.toNat + 2 ^ 32 * (cross.toNat + cross'.toNat) + low.toNat
  := by
  rw [maxProduct] at hlow hcross hcross' hhigh
  have hmiddle : (highHalf low + lowHalf cross + lowHalf cross').toNat
      = low.toNat / 2 ^ 32 + cross.toNat % 2 ^ 32 + cross'.toNat % 2 ^ 32 := by
    simp only [UInt64.toNat_add, toNat_highHalf, toNat_lowHalf]
    omega
  have hlowHalf := toNat_lowHalf low
  simp only [toNat]
  rw [UInt64.or_comm, toNat_or_shiftLeft _ _ 32 (by omega) (by omega), hmiddle, hlowHalf]
  simp only [UInt64.toNat_add, toNat_highHalf, hmiddle]
  omega

/-- The product of two words as a 128-bit word is the product of their numbers. -/
theorem toNat_mulWords (x y : UInt64) :
  (mulWords x y).toNat = x.toNat * y.toNat
  := by
  have hx := x.toNat_lt
  have hy := y.toNat_lt
  have hxl : (lowHalf x).toNat < 2 ^ 32 := by rw [toNat_lowHalf]; omega
  have hyl : (lowHalf y).toNat < 2 ^ 32 := by rw [toNat_lowHalf]; omega
  have hxh : (highHalf x).toNat < 2 ^ 32 := by rw [toNat_highHalf]; omega
  have hyh : (highHalf y).toNat < 2 ^ 32 := by rw [toNat_highHalf]; omega
  obtain ⟨hll, low⟩ := toNat_mul_halves hxl hyl
  obtain ⟨hlh, cross⟩ := toNat_mul_halves hxl hyh
  obtain ⟨hhl, cross'⟩ := toNat_mul_halves hxh hyl
  obtain ⟨hhh, high⟩ := toNat_mul_halves hxh hyh
  apply Eq.trans (toNat_joinProducts low cross cross' high)
  rw [hll, hlh, hhl, hhh, mul_eq_halves x.toNat y.toNat]
  simp only [toNat_lowHalf, toNat_highHalf]

end Wide

end HashToCurve
