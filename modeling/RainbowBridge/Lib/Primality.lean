import Mathlib.NumberTheory.LucasPrimality
import Mathlib.Tactic.NormNum.Prime

/-! Powers modulo a number, computed by repeated squaring, and the proof of a
large prime from the factors of its predecessor. -/

namespace RainbowBridge.Lib

/-- `result * base ^ exponent % modulus`, one bit of the exponent at a time. -/
def powModFrom (modulus : Nat) : Nat → Nat → Nat → Nat → Nat
  | 0, _, _, result => result % modulus
  | bits + 1, base, exponent, result =>
    powModFrom modulus bits (base * base % modulus) (exponent / 2)
      (if exponent % 2 = 1 then result * base % modulus else result)

/-- `base ^ exponent % modulus` for an exponent of at most 256 bits. -/
def powMod (base exponent modulus : Nat) : Nat := powModFrom modulus 256 base exponent 1

theorem powModFrom_eq (modulus bits base exponent result : Nat) (fits : exponent < 2 ^ bits) :
    powModFrom modulus bits base exponent result = result * base ^ exponent % modulus := by
  induction bits generalizing base exponent result with
  | zero =>
    have zero : exponent = 0 := by simpa using fits
    simp [powModFrom, zero]
  | succ bits ih =>
    have half : exponent / 2 < 2 ^ bits := by
      rw [pow_succ] at fits
      omega
    have squared (factor : Nat) : factor * (base * base % modulus) ^ (exponent / 2) ≡
        factor * base ^ (2 * (exponent / 2)) [MOD modulus] := by
      rw [pow_mul, pow_two]
      exact ((Nat.mod_modEq _ _).pow _).mul_left _
    rw [powModFrom, ih _ _ _ half]
    split
    case isTrue odd =>
      have split : exponent = 2 * (exponent / 2) + 1 := by omega
      have rest := squared (result * base % modulus)
      have first := (Nat.mod_modEq (result * base) modulus).mul_right (base ^ (2 * (exponent / 2)))
      have product : result * base * base ^ (2 * (exponent / 2)) = result * base ^ exponent := by
        conv_rhs => rw [split]
        rw [pow_succ', mul_assoc]
      exact product ▸ rest.trans first
    case isFalse even =>
      have split : exponent = 2 * (exponent / 2) := by omega
      conv_rhs => rw [split]
      exact squared result

theorem powMod_eq {base exponent modulus : Nat} (fits : exponent < 2 ^ 256) :
    powMod base exponent modulus = base ^ exponent % modulus := by
  rw [powMod, powModFrom_eq _ _ _ _ _ fits, one_mul]

theorem cast_pow_eq_iff {modulus : Nat} {base exponent value : Nat} (fits : exponent < 2 ^ 256)
    (reduced : value < modulus) :
    (base : ZMod modulus) ^ exponent = value ↔ powMod base exponent modulus = value := by
  rw [powMod_eq fits, ← Nat.cast_pow, ZMod.natCast_eq_natCast_iff', Nat.mod_eq_of_lt reduced]

/-- A proof that a number is prime by Lucas' test: the order of `witness` is one
less than the number, and the prime factors of that are given. -/
def Certified (n witness : Nat) (factors : List Nat) : Prop :=
  (1 < n ∧ n ≤ 2 ^ 256) ∧ factors.prod = n - 1 ∧ powMod witness (n - 1) n = 1 ∧
    ∀ q ∈ factors, powMod witness ((n - 1) / q) n ≠ 1

instance (n witness : Nat) (factors : List Nat) : Decidable (Certified n witness factors) := by
  unfold Certified
  infer_instance

theorem Certified.prime {n witness : Nat} {small large : List Nat}
    (certified : Certified n witness (small ++ large)) (prime : ∀ q ∈ small, q.Prime)
    (others : List.Forall Nat.Prime large) : n.Prime := by
  obtain ⟨⟨above, below⟩, product, full, parts⟩ := certified
  have test {exponent : Nat} (small : exponent ≤ n - 1) :
      (witness : ZMod n) ^ exponent = 1 ↔ powMod witness exponent n = 1 := by
    have iff : (witness : ZMod n) ^ exponent = (1 : Nat) ↔ powMod witness exponent n = 1 :=
      cast_pow_eq_iff (lt_of_le_of_lt small (by omega)) above
    rwa [Nat.cast_one] at iff
  apply lucas_primality n witness
  · exact (test le_rfl).mpr full
  · intro q isPrime divides
    rw [← product] at divides
    obtain ⟨factor, present, divided⟩ := isPrime.prime.dvd_prod_iff.mp divides
    have factorPrime : factor.Prime := by
      obtain first | second := List.mem_append.mp present
      · exact prime factor first
      · exact List.forall_iff_forall_mem.mp others factor second
    rw [ne_eq, test (Nat.div_le_self _ _), (Nat.prime_dvd_prime_iff_eq isPrime factorPrime).mp divided]
    exact parts factor present

end RainbowBridge.Lib
