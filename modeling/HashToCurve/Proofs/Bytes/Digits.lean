import HashToCurve.Bytes.Basic
import Mathlib.Algebra.Order.Ring.Nat
import Mathlib.Tactic.Ring

/-!
# Byte strings and numbers

A byte string is determined by its length and the number it writes in base 256.  Cutting a string
in two divides the number with remainder.
-/

namespace HashToCurve.Bytes

/-- The bytes that follow a string weigh `256` to the power of its length. -/
theorem toNatLE_append (a b : Bytes) :
  toNatLE (a ++ b) = toNatLE a + 256 ^ a.length * toNatLE b
  := by
  induction a with
  | nil => simp [toNatLE]
  | cons x a ih =>
    rw [List.cons_append, toNatLE, toNatLE, ih, List.length_cons]
    ring

/-- A string of bytes writes a number below the power of `256` that its length gives. -/
theorem toNatLE_lt (b : Bytes) :
  toNatLE b < 256 ^ b.length
  := by
  induction b with
  | nil => simp [toNatLE]
  | cons x b ih =>
    have hx : x.toNat < 256 := x.toNat_lt
    rw [toNatLE, List.length_cons, pow_succ]
    omega

/-- The first bytes write the remainder. -/
theorem toNatLE_take (k : Nat) (b : Bytes) :
  toNatLE (b.take k) = toNatLE b % 256 ^ k
  := by
  rcases Nat.le_total k b.length with hk | hk
  · have hlt := toNatLE_lt (b.take k)
    rw [List.length_take_of_le hk] at hlt
    conv_rhs => rw [← List.take_append_drop k b]
    rw [toNatLE_append, List.length_take_of_le hk, Nat.add_mul_mod_self_left, Nat.mod_eq_of_lt hlt]
  · have hlt := toNatLE_lt b
    rw [List.take_of_length_le hk, Nat.mod_eq_of_lt]
    apply hlt.trans_le (Nat.pow_le_pow_right (by omega) hk)

/-- The bytes after the first ones write the quotient. -/
theorem toNatLE_drop (k : Nat) (b : Bytes) :
  toNatLE (b.drop k) = toNatLE b / 256 ^ k
  := by
  rcases Nat.le_total k b.length with hk | hk
  · have hlt := toNatLE_lt (b.take k)
    rw [List.length_take_of_le hk] at hlt
    conv_rhs => rw [← List.take_append_drop k b]
    rw [toNatLE_append, List.length_take_of_le hk,
      Nat.add_mul_div_left _ _ (Nat.pow_pos (by omega)), Nat.div_eq_of_lt hlt, zero_add]
  · have hlt := toNatLE_lt b
    rw [List.drop_eq_nil_of_le hk, Nat.div_eq_of_lt]
    · rfl
    · apply hlt.trans_le (Nat.pow_le_pow_right (by omega) hk)

/-- Writing a number with a given size reduces it modulo a power of `256`. -/
theorem toNatLE_ofNatLE (size n : Nat) :
  toNatLE (ofNatLE size n) = n % 256 ^ size
  := by
  induction size generalizing n with
  | zero => simp [ofNatLE, toNatLE, Nat.mod_one]
  | succ size ih =>
    rw [ofNatLE, toNatLE, ih, pow_succ', Nat.mod_mul, UInt8.toNat_ofNat']

/-- Byte strings of one length that write the same number are equal. -/
theorem toNatLE_inj {a b : Bytes} (hlength : a.length = b.length) :
  toNatLE a = toNatLE b ↔ a = b
  := by
  constructor
  · intro h
    induction a generalizing b with
    | nil =>
      symm
      apply List.eq_nil_of_length_eq_zero hlength.symm
    | cons x a ih =>
      obtain _ | ⟨y, b⟩ := b
      · simp at hlength
      · have hx : x.toNat < 256 := x.toNat_lt
        have hy : y.toNat < 256 := y.toNat_lt
        rw [toNatLE, toNatLE] at h
        obtain rfl := UInt8.toNat_inj.mp (show x.toNat = y.toNat by omega)
        rw [ih (Nat.succ.inj hlength) (by omega)]
  · rintro rfl
    rfl

/-- Writing the number of a string with the length of the string gives it back. -/
theorem ofNatLE_toNatLE (b : Bytes) :
  ofNatLE b.length (toNatLE b) = b
  := by
  apply (toNatLE_inj (length_ofNatLE _ _)).mp
  rw [toNatLE_ofNatLE, Nat.mod_eq_of_lt (toNatLE_lt b)]

/-- A number with few enough digits is determined by the byte string that writes it. -/
theorem ofNatBE_inj {size m n : Nat} (hm : m < 256 ^ size) (hn : n < 256 ^ size) :
  ofNatBE size m = ofNatBE size n ↔ m = n
  := by
  constructor
  · intro h
    have hnumber := congrArg toNatLE (List.reverse_inj.mp h)
    rwa [toNatLE_ofNatLE, toNatLE_ofNatLE, Nat.mod_eq_of_lt hm, Nat.mod_eq_of_lt hn] at hnumber
  · rintro rfl
    rfl

theorem toNatLE_replicate_zero (n : Nat) :
  toNatLE (List.replicate n 0) = 0
  := by
  induction n with
  | zero => rfl
  | succ n ih => rw [List.replicate_succ, toNatLE, ih]; rfl

end HashToCurve.Bytes
