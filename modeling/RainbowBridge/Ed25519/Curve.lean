import RainbowBridge.Lib.Edwards
import RainbowBridge.Ed25519.Field
import Mathlib.GroupTheory.OrderOfElement
import Mathlib.NumberTheory.LegendreSymbol.Basic

/-! The curve of Ed25519, its base point and the number of its points. -/

namespace RainbowBridge.Ed25519

open RainbowBridge.Lib

instance : Fact p.Prime := ⟨prime_p⟩

abbrev Fp := ZMod p

theorem cast_eq_of_mod {a b : Nat} (same : a % p = b % p) : (a : Fp) = b :=
  (ZMod.natCast_eq_natCast_iff' a b p).mpr same

/-- The constant of the curve, `-121665 / 121666`. -/
def dNat : Nat := 0x52036cee_2b6ffe73_8cc74079_7779e898_00700a4d_4141d8ab_75eb4dca_135978a3

def d : Fp := dNat

theorem d_mul : d * 121666 = -121665 := by
  have numbers : ((dNat * 121666 + 121665 : Nat) : Fp) = (0 : Nat) := cast_eq_of_mod (by decide)
  push_cast at numbers
  rw [d]
  linear_combination numbers

/-- A root of `-1`. -/
def rootNat : Nat := 0x2b832480_4fc1df0b_2b4d0099_3dfbd7a7_2f431806_ad2fe478_c4ee1b27_4a0ea0b0

theorem root_sq : (rootNat : Fp) * rootNat = -1 := by
  have numbers : ((rootNat * rootNat + 1 : Nat) : Fp) = (0 : Nat) := cast_eq_of_mod (by decide)
  push_cast at numbers
  linear_combination numbers

theorem two_ne_zero : (2 : Fp) ≠ 0 := by
  have : ((2 : Nat) : Fp) ≠ 0 := by
    rw [ne_eq, ZMod.natCast_eq_zero_iff]
    exact Nat.not_dvd_of_pos_of_lt (by decide) (by decide)
  exact_mod_cast this

theorem d_nonsquare : ¬ IsSquare d := by
  have nonzero : d ≠ 0 := by
    rw [d, ne_eq, ZMod.natCast_eq_zero_iff]
    exact Nat.not_dvd_of_pos_of_lt (by decide) (by decide)
  have power : powMod dNat (p / 2) p ≠ 1 := by decide +kernel
  rw [ZMod.euler_criterion p nonzero]
  intro one
  apply power
  apply (cast_pow_eq_iff (by decide) (by decide +kernel)).mp
  rw [Nat.cast_one]
  exact one

instance : CompleteEdwards d where
  two_ne_zero := two_ne_zero
  neg_one := ⟨rootNat, root_sq.symm⟩
  nonsquare := d_nonsquare

abbrev Point := EdwardsPoint d

/-- The sign of a coordinate is the parity of its least representative. -/
def odd (a : Fp) : Bool := a.val % 2 == 1

theorem odd_neg (a : Fp) (nonzero : a ≠ 0) : odd (-a) ≠ odd a := by
  have value := ZMod.neg_val a
  rw [if_neg nonzero] at value
  have small := ZMod.val_lt a
  have parity : p % 2 = 1 := by decide
  simp only [odd, value, ne_eq, beq_eq_beq]
  omega

/-- A point given by numbers. -/
def pointOf (x y : Nat) (onCurve : y ^ 2 % p = (1 + dNat * x ^ 2 * y ^ 2 + x ^ 2) % p) : Point where
  x := x
  y := y
  onCurve := by
    have numbers : ((y ^ 2 : Nat) : Fp) = (1 + dNat * x ^ 2 * y ^ 2 + x ^ 2 : Nat) := cast_eq_of_mod onCurve
    push_cast at numbers
    rw [d]
    linear_combination numbers

/-- The base point: its ordinate is `4 / 5` and its abscissa is even. -/
def basePoint : Point :=
  pointOf 0x216936d3_cd6e53fe_c0a4e231_fdd6dc5c_692cc760_9525a7b2_c9562d60_8f25d51a
    0x66666666_66666666_66666666_66666666_66666666_66666666_66666666_66666658 (by decide)

theorem basePoint_y : 5 * basePoint.y = 4 := by
  have numbers : ((5 * 0x66666666_66666666_66666666_66666666_66666666_66666666_66666666_66666658 : Nat) : Fp) =
    (4 : Nat) := cast_eq_of_mod (by decide)
  push_cast at numbers
  exact numbers

/-- A point of the largest order. -/
def generator : Point :=
  pointOf 47490639360184182837601875270316946735278442122217188244898328344323804759522 3 (by decide)

theorem nsmul_generator_eq_zero_iff {n : Nat} (fits : n < 2 ^ 256) :
    n • generator = 0 ↔
      (EdwardsPoint.multiplied generator 256 n).x = 0 ∧
        (EdwardsPoint.multiplied generator 256 n).y = (EdwardsPoint.multiplied generator 256 n).v :=
  (EdwardsPoint.represents_multiplied generator 256 n fits).eq_zero_iff

theorem addOrderOf_generator : addOrderOf generator = 8 * L := by
  have full : (8 * L) • generator = 0 := by
    rw [nsmul_generator_eq_zero_iff (by decide)]
    decide +kernel
  have half : ¬ (4 * L) • generator = 0 := by
    rw [nsmul_generator_eq_zero_iff (by decide)]
    decide +kernel
  have eighth : ¬ 8 • generator = 0 := by
    rw [nsmul_generator_eq_zero_iff (by decide)]
    decide +kernel
  apply addOrderOf_eq_of_nsmul_and_div_prime_nsmul (by decide) full
  intro q isPrime divides
  obtain eight | isL := (Nat.Prime.dvd_mul isPrime).mp divides
  · have two : q = 2 := (Nat.prime_dvd_prime_iff_eq isPrime Nat.prime_two).mp
      (isPrime.dvd_of_dvd_pow (show q ∣ 2 ^ 3 from eight))
    have quotient : 8 * L / 2 = 4 * L := by omega
    simpa only [two, quotient] using half
  · have same : q = L := (Nat.prime_dvd_prime_iff_eq isPrime prime_L).mp isL
    have quotient : 8 * L / L = 8 := Nat.mul_div_cancel _ prime_L.pos
    simpa only [same, quotient] using eighth

/-- The curve has `8 L` points: this divides their number, and there are at most two
for each ordinate. -/
theorem card_point : Nat.card Point = 8 * L := by
  have divides : 8 * L ∣ Nat.card Point := addOrderOf_generator ▸ addOrderOf_dvd_natCard generator
  have bound : Nat.card Point ≤ 2 * p := by
    have := EdwardsPoint.card_le (d := d) odd_neg
    rwa [Nat.card_zmod] at this
  have positive : 0 < Nat.card Point := Nat.card_pos
  have sizes : 2 * p < 2 * (8 * L) := by decide
  obtain ⟨factor, same⟩ := divides
  have one : factor = 1 := by
    have below : factor < 2 := by
      by_contra above
      have := Nat.mul_le_mul_left (8 * L) (Nat.not_lt.mp above)
      omega
    have above : factor ≠ 0 := by
      rintro rfl
      omega
    omega
  rw [same, one, Nat.mul_one]

theorem nsmul_order (A : Point) : (8 * L) • A = 0 := by
  rw [← card_point]
  exact card_nsmul_eq_zero' 

end RainbowBridge.Ed25519
