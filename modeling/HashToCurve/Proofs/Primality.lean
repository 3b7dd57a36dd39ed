import Mathlib.Data.List.Prime
import Mathlib.NumberTheory.LucasPrimality
import Mathlib.Tactic.Linarith

/-!
# Primality by tables

A number `n` is prime if some base has order `n - 1` modulo `n`.  A row of a table gives such a
base, and the prime factors of `n - 1`, through which the order is tested.  Each of these is below
`2^20`, and found to be prime by trial division, or is the number of an earlier row.  Whether a
table is valid is decided by evaluation.
-/

namespace HashToCurve.Primality

/-- The power `a ^ e` modulo `n`, for an exponent below `2 ^ bits`. -/
def powMod (n a : Nat) : (bits e : Nat) → Nat
  | 0, _ => 1 % n
  | bits + 1, e => powMod n a bits (e / 2) ^ 2 * a ^ (e % 2) % n

/-- The power is computed by squaring, along the bits of the exponent. -/
theorem powMod_eq (n a : Nat) {bits e : Nat} (he : e < 2 ^ bits) :
  powMod n a bits e = a ^ e % n
  := by
  induction bits generalizing e with
  | zero =>
    obtain rfl : e = 0 := by omega
    rfl
  | succ bits ih =>
    have hhalf : e / 2 < 2 ^ bits := by
      rw [pow_succ] at he
      omega
    calc powMod n a bits (e / 2) ^ 2 * a ^ (e % 2) % n
        = (a ^ (e / 2) % n) ^ 2 * a ^ (e % 2) % n := by rw [ih hhalf]
      _ = (a ^ (e / 2)) ^ 2 * a ^ (e % 2) % n := by rw [Nat.mul_mod, ← Nat.pow_mod, ← Nat.mul_mod]
      _ = a ^ e % n := by rw [← pow_mul, ← pow_add, Nat.div_add_mod']

/-- Whether `n` has no divisor from `2` to `d + 1`, but for those whose square exceeds it. -/
def noDivisor (n : Nat) : (d : Nat) → Bool
  | 0 => true
  | d + 1 => (Nat.blt n ((d + 2) * (d + 2)) || !Nat.beq (n % (d + 2)) 0) && noDivisor n d

/-- Trial division leaves out no divisor whose square is at most `n`. -/
theorem not_dvd_of_noDivisor {n k : Nat} (h : noDivisor n k = true) {d : Nat} (h2 : 2 ≤ d)
    (hk : d ≤ k + 1) (hd : d * d ≤ n) :
  ¬ d ∣ n
  := by
  induction k with
  | zero => omega
  | succ k ih =>
    simp only [noDivisor, Bool.and_eq_true, Bool.or_eq_true, Nat.blt_eq, Bool.not_eq_true'] at h
    rcases Nat.lt_or_ge d (k + 2) with hlt | hge
    · apply ih h.2 (by omega)
    · obtain rfl : d = k + 2 := by omega
      intro hdvd
      rcases h.1 with hlt | hne
      · omega
      · simp [Nat.mod_eq_zero_of_dvd hdvd] at hne

/-- Whether a number below `2^20` is prime, by trial division. -/
def isSmallPrime (n : Nat) : Bool := Nat.ble 2 n && Nat.blt n (2 ^ 20) && noDivisor n 1022

/-- A number below `2^20` that has no divisor below `2^10` is prime. -/
theorem prime_of_isSmallPrime {n : Nat} (h : isSmallPrime n = true) :
  n.Prime
  := by
  simp only [isSmallPrime, Bool.and_eq_true, Nat.ble_eq, Nat.blt_eq] at h
  obtain ⟨⟨h2, hn⟩, hd⟩ := h
  apply Nat.prime_def_le_sqrt.mpr
  use h2
  intro d hd2 hsqrt
  have hdd : d * d ≤ n := Nat.le_sqrt.mp hsqrt
  apply not_dvd_of_noDivisor hd hd2 (by nlinarith) hdd

/-- A number, a base of the order the number minus one, and the prime factors of that order. -/
structure Row where
  /-- The number that is prime. -/
  number : Nat
  /-- The base. -/
  base : Nat
  /-- The prime factors of the number minus one, repeated by their multiplicity. -/
  factors : List Nat

/-- The power of the base of a row with exponent `e`. -/
def Row.power (row : Row) (e : Nat) : Nat := powMod row.number row.base 256 e

/-- A row proves its number prime, given that the known numbers are. -/
def Row.Valid (known : List Nat) (row : Row) : Prop :=
  2 ≤ row.number ∧ row.number ≤ 2 ^ 256 ∧ row.factors.prod = row.number - 1
    ∧ row.power (row.number - 1) = 1
    ∧ ∀ q ∈ row.factors, (q ∈ known ∨ isSmallPrime q = true) ∧ row.power ((row.number - 1) / q) ≠ 1

instance (known : List Nat) (row : Row) : Decidable (row.Valid known) :=
  inferInstanceAs (Decidable (_ ∧ _ ∧ _ ∧ _ ∧ _))

/-- Every row of a table proves its number prime, given that the known numbers are. -/
def Valid (known : List Nat) : List Row → Prop
  | [] => True
  | row :: rows => row.Valid known ∧ Valid (row.number :: known) rows

instance decidableValid (known : List Nat) : (table : List Row) → Decidable (Valid known table)
  | [] => inferInstanceAs (Decidable True)
  | row :: rows =>
    have := decidableValid (row.number :: known) rows
    inferInstanceAs (Decidable (_ ∧ _))

/-- A power of the base of a row in the integers modulo its number. -/
theorem Row.power_eq_one_iff {row : Row} (h2 : 2 ≤ row.number) {e : Nat} (he : e < 2 ^ 256) :
  (row.base : ZMod row.number) ^ e = 1 ↔ row.power e = 1
  := by
  rw [Row.power, powMod_eq _ _ he, ← Nat.cast_pow, ← Nat.cast_one, ZMod.natCast_eq_natCast_iff',
    Nat.mod_eq_of_lt (a := 1) h2]

/-- The number of a valid row is prime if the numbers of the earlier rows are, by Lucas's test. -/
theorem Row.Valid.prime {known : List Nat} {row : Row} (h : row.Valid known)
    (hknown : ∀ q ∈ known, q.Prime) :
  row.number.Prime
  := by
  obtain ⟨h2, hbits, hprod, hpower, hfactors⟩ := h
  have hprime : ∀ q ∈ row.factors, q.Prime := by
    intro q hq
    obtain ⟨hq | hq, -⟩ := hfactors q hq
    · apply hknown q hq
    · apply prime_of_isSmallPrime hq
  apply lucas_primality row.number row.base
  · apply (power_eq_one_iff h2 (by omega)).mpr hpower
  · intro q hq hdvd
    rw [← hprod] at hdvd
    have hmem : q ∈ row.factors := mem_list_primes_of_dvd_prod hq.prime
      (fun r hr => (hprime r hr).prime) hdvd
    rw [ne_eq, power_eq_one_iff h2 (lt_of_le_of_lt (Nat.div_le_self _ _) (by omega))]
    apply (hfactors q hmem).2

/-- The numbers of a valid table are prime. -/
theorem Valid.prime {known : List Nat} {table : List Row} (h : Valid known table)
    (hknown : ∀ q ∈ known, q.Prime) :
  ∀ row ∈ table, row.number.Prime
  := by
  induction table generalizing known with
  | nil => simp
  | cons row rows ih =>
    have hrow := h.1.prime hknown
    rw [List.forall_mem_cons]
    constructor
    · apply hrow
    · apply ih h.2
      rw [List.forall_mem_cons]
      use hrow

/-- All numbers of a valid table are prime. -/
theorem Valid.prime_of_mem {table : List Row} (h : Valid [] table) {n : Nat}
    (hn : n ∈ table.map Row.number) :
  n.Prime
  := by
  obtain ⟨row, hrow, rfl⟩ := List.mem_map.mp hn
  apply h.prime (by simp) row hrow

end HashToCurve.Primality
