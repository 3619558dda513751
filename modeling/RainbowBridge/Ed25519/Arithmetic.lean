import RainbowBridge.Ed25519.Contract
import RainbowBridge.Ed25519.Curve

/-! The words of `Ed25519.check` as elements of the field: the chain of powers, the
inversion and the square root. -/

namespace RainbowBridge.Ed25519

open RainbowBridge.Lib
open RainbowBridge.Solidity

/-- The element that a word, reduced or not, stands for. -/
def residue (w : Uint256) : Fp := w.toNat

theorem modulus_toNat : modulus.toNat = p := by
  decide

theorem p_lt : p < 2 ^ 255 := by
  decide

theorem toNat_mulmod_lt (a b : Uint256) : (mulmod a b modulus).toNat < p := by
  have positive : 0 < modulus.toNat := by decide
  rw [toNat_mulmod positive, modulus_toNat]
  exact Nat.mod_lt _ prime_p.pos

theorem toNat_addmod_lt (a b : Uint256) : (addmod a b modulus).toNat < p := by
  have positive : 0 < modulus.toNat := by decide
  rw [toNat_addmod positive, modulus_toNat]
  exact Nat.mod_lt _ prime_p.pos

@[simp] theorem residue_mulmod (a b : Uint256) : residue (mulmod a b modulus) = residue a * residue b := by
  have positive : 0 < modulus.toNat := by decide
  rw [residue, toNat_mulmod positive, modulus_toNat, ZMod.natCast_mod, Nat.cast_mul]
  rfl

@[simp] theorem residue_addmod (a b : Uint256) : residue (addmod a b modulus) = residue a + residue b := by
  have positive : 0 < modulus.toNat := by decide
  rw [residue, toNat_addmod positive, modulus_toNat, ZMod.natCast_mod, Nat.cast_add]
  rfl

@[simp] theorem residue_modulus : residue modulus = 0 := by
  rw [residue, modulus_toNat, ZMod.natCast_self]

@[simp] theorem residue_one : residue 1 = 1 := by
  simp [residue]

@[simp] theorem residue_zero : residue 0 = 0 := by
  simp [residue]

/-- An exact sum or difference is one of the field, too. -/
theorem residue_wrapped {e : Linear} (exact : e.IsExact) : residue e.wrapped = (e.exact : Fp) := by
  rw [residue, ← exact, Int.cast_natCast]

theorem val_residue {w : Uint256} (reduced : w.toNat < p) : (residue w).val = w.toNat := by
  rw [residue, ZMod.val_natCast, Nat.mod_eq_of_lt reduced]

theorem eq_iff_residue {a b : Uint256} (left : a.toNat < p) (right : b.toNat < p) :
    a = b ↔ residue a = residue b := by
  constructor
  · intro same
    rw [same]
  · intro same
    apply BitVec.eq_of_toNat_eq
    rw [← val_residue left, ← val_residue right, same]

/-! The powers. -/

theorem residue_square (n : Nat) (a : Uint256) : residue (square n a) = residue a ^ 2 ^ n := by
  induction n generalizing a with
  | zero => simp [square]
  | succ n ih => rw [square, ih, residue_mulmod, ← pow_two, ← pow_mul, pow_succ']

/-- One link of the chain: exponents of `a` and `b` ones make one of `a + b` ones. -/
theorem pow_ones {x y v : Fp} {a b : Nat} (left : x = v ^ (2 ^ a - 1)) (right : y = v ^ (2 ^ b - 1)) :
    x ^ 2 ^ b * y = v ^ (2 ^ (a + b) - 1) := by
  have above : 1 ≤ 2 ^ a := Nat.one_le_two_pow
  have exponent : (2 ^ a - 1) * 2 ^ b + (2 ^ b - 1) = 2 ^ (a + b) - 1 := by
    have below : 2 ^ b ≤ 2 ^ a * 2 ^ b := Nat.le_mul_of_pos_left _ (Nat.two_pow_pos a)
    have one : 1 ≤ 2 ^ b := Nat.one_le_two_pow
    rw [pow_add, Nat.sub_mul, Nat.one_mul]
    omega
  rw [left, right, ← pow_mul, ← pow_add, exponent]

theorem residue_pow22501 (v : Uint256) :
    residue (pow22501 v).1 = residue v ^ (2 ^ 250 - 1) ∧ residue (pow22501 v).2 = residue v ^ 11 := by
  unfold pow22501
  extract_lets v2 v4 v9 v11 o5 a5 o10 a10 o20 b20 o40 a40 o50 a50 o100 b100 o200 a200 o250
  have nine : residue v9 = residue v ^ 9 := by
    simp only [v9, v4, v2, residue_mulmod]
    ring
  have eleven : residue v11 = residue v ^ 11 := by
    simp only [v11, nine, v2, residue_mulmod]
    ring
  have five : residue o5 = residue v ^ (2 ^ 5 - 1) := by
    simp only [o5, nine, eleven, residue_mulmod]
    ring
  have ten : residue o10 = residue v ^ (2 ^ 10 - 1) := by
    rw [residue_mulmod, residue_square, mul_comm]
    exact pow_ones five five
  have twenty : residue o20 = residue v ^ (2 ^ 20 - 1) := by
    rw [residue_mulmod, residue_square, mul_comm]
    exact pow_ones ten ten
  have forty : residue o40 = residue v ^ (2 ^ 40 - 1) := by
    rw [residue_mulmod, residue_square, mul_comm]
    exact pow_ones twenty twenty
  have fifty : residue o50 = residue v ^ (2 ^ 50 - 1) := by
    rw [residue_mulmod, residue_square, mul_comm]
    exact pow_ones forty ten
  have hundred : residue o100 = residue v ^ (2 ^ 100 - 1) := by
    rw [residue_mulmod, residue_square, mul_comm]
    exact pow_ones fifty fifty
  have twoHundred : residue o200 = residue v ^ (2 ^ 200 - 1) := by
    rw [residue_mulmod, residue_square, mul_comm]
    exact pow_ones hundred hundred
  refine ⟨?_, eleven⟩
  rw [residue_mulmod, residue_square, mul_comm]
  exact pow_ones twoHundred fifty

theorem toNat_pow22501_lt (v : Uint256) : (pow22501 v).1.toNat < p ∧ (pow22501 v).2.toNat < p :=
  ⟨toNat_mulmod_lt _ _, toNat_mulmod_lt _ _⟩

theorem toNat_eq_of_residue {w : Uint256} {n : Nat} (reduced : w.toNat < p) (same : residue w = n) :
    w.toNat = n % p := by
  rw [← val_residue reduced, same, ZMod.val_natCast]

theorem toNat_pow22501 (v : Uint256) :
    (pow22501 v).1.toNat = v.toNat ^ (2 ^ 250 - 1) % p ∧ (pow22501 v).2.toNat = v.toNat ^ 11 % p := by
  obtain ⟨ones, eleven⟩ := residue_pow22501 v
  obtain ⟨first, second⟩ := toNat_pow22501_lt v
  constructor
  · apply toNat_eq_of_residue first
    rw [ones, residue, Nat.cast_pow]
  · apply toNat_eq_of_residue second
    rw [eleven, residue, Nat.cast_pow]

/-- `v^(p-2)` is the inverse, and zero for zero. -/
theorem residue_invert (v : Uint256) : residue (invert v) = (residue v)⁻¹ := by
  obtain ⟨ones, eleven⟩ := residue_pow22501 v
  have exponent : (2 ^ 250 - 1) * 2 ^ 5 + 11 = p - 2 := by decide
  have power : residue (invert v) = residue v ^ (p - 2) := by
    rw [invert, residue_mulmod, residue_square, ones, eleven, ← pow_mul, ← pow_add, exponent]
  by_cases zero : residue v = 0
  · rw [power, zero, inv_zero, zero_pow (by decide)]
  · have fermat := ZMod.pow_card_sub_one_eq_one zero
    rw [power]
    apply eq_inv_of_mul_eq_one_left
    rw [← pow_succ, ← fermat]
    congr 1

theorem invert_mul (v : Uint256) : (invert v).toNat * v.toNat % p = if v.toNat % p = 0 then 0 else 1 := by
  have zero_iff : v.toNat % p = 0 ↔ residue v = 0 := by
    rw [residue, ZMod.natCast_eq_zero_iff, Nat.dvd_iff_mod_eq_zero]
  have inverse := residue_invert v
  have one : 1 % p = 1 := Nat.mod_eq_of_lt prime_p.one_lt
  rw [← one]
  split
  case isTrue zero =>
    rw [Nat.mul_mod, zero, Nat.mul_zero, Nat.zero_mod]
  case isFalse nonzero =>
    rw [zero_iff] at nonzero
    apply (ZMod.natCast_eq_natCast_iff' _ _ p).mp
    rw [Nat.cast_mul, ← residue, ← residue, inverse, inv_mul_cancel₀ nonzero, Nat.cast_one]

/-! The square root. Which fourth root of one the candidate is off by, the source
finds by comparing. -/

theorem residue_candidate (u v : Uint256) :
    residue (candidate u v) = residue u * (residue u * residue v) ^ (2 ^ 252 - 3) := by
  have exponent : (2 ^ 250 - 1) * 2 * 2 + 1 = 2 ^ 252 - 3 := by decide
  have split (t : Fp) : t ^ (2 ^ 252 - 3) = ((t ^ (2 ^ 250 - 1)) ^ 2) ^ 2 * t := by
    rw [← exponent, pow_succ, pow_mul, pow_mul]
  obtain ⟨ones, -⟩ := residue_pow22501 (mulmod u v modulus)
  simp only [candidate, residue_mulmod, ones, split]
  generalize (residue u * residue v) ^ (2 ^ 250 - 1) = power
  ring

theorem candidate_sq (u v : Fp) :
    (u * (u * v) ^ (2 ^ 252 - 3)) ^ 2 * v = u * (u * v) ^ (2 ^ 253 - 5) := by
  have exponent : 2 ^ 253 - 5 = (2 ^ 252 - 3) * 2 + 1 := by decide
  have split : (u * v) ^ (2 ^ 253 - 5) = ((u * v) ^ (2 ^ 252 - 3)) ^ 2 * (u * v) := by
    rw [exponent, pow_succ _ (_ * 2), pow_mul]
  rw [split]
  ring

theorem quarter_sq (t : Fp) : (t ^ (2 ^ 253 - 5)) ^ 2 = t ^ (p / 2) := by
  rw [← pow_mul]
  congr 1

theorem candidate_cases (u v : Fp) (denominator : v ≠ 0) {x : Fp} (candidate : x = u * (u * v) ^ (2 ^ 252 - 3)) :
    x ^ 2 * v = u ∨ (u ≠ 0 ∧ x ^ 2 * v = -u) ∨
      (u ≠ 0 ∧ x ^ 2 * v ≠ u ∧ x ^ 2 * v ≠ -u ∧ ¬ IsSquare (u / v)) := by
  have root := candidate_sq u v
  rw [← candidate] at root
  by_cases zero : u = 0
  · left
    rw [root, zero, zero_mul]
  have nonzero : u * v ≠ 0 := mul_ne_zero zero denominator
  have square := quarter_sq (u * v)
  obtain one | minus := ZMod.pow_div_two_eq_neg_one_or_one p nonzero
  · rw [one] at square
    obtain plus | minus := sq_eq_one_iff.mp square
    · left
      rw [root, plus, mul_one]
    · right
      left
      exact ⟨zero, by rw [root, minus, mul_neg, mul_one]⟩
  · have apart : (u * v) ^ (2 ^ 253 - 5) ≠ 1 ∧ (u * v) ^ (2 ^ 253 - 5) ≠ -1 := by
      constructor
      all_goals
        intro same
        rw [same, minus] at square
        apply two_ne_zero
        linear_combination square
    right
    right
    refine ⟨zero, ?_, ?_, ?_⟩
    · intro same
      rw [root] at same
      exact apart.1 (mul_left_cancel₀ zero (same.trans (mul_one u).symm))
    · intro same
      rw [root] at same
      exact apart.2 (mul_left_cancel₀ zero (by rw [same, mul_neg, mul_one]))
    · intro ⟨r, quotient⟩
      have isSquare : IsSquare (u * v) := by
        refine ⟨r * v, ?_⟩
        rw [div_eq_iff denominator] at quotient
        rw [quotient]
        ring
      rw [ZMod.euler_criterion p nonzero, minus] at isSquare
      apply two_ne_zero
      linear_combination -isSquare

/-- The square of the abscissa of a point with the ordinate `y`. -/
def abscissaSq (y : Fp) : Fp := (y ^ 2 - 1) / (d * y ^ 2 + 1)

theorem residue_d :
    residue 0x52036cee_2b6ffe73_8cc74079_7779e898_00700a4d_4141d8ab_75eb4dca_135978a3 = d :=
  congrArg (Nat.cast (R := Fp)) (by decide)

theorem residue_root :
    residue 0x2b832480_4fc1df0b_2b4d0099_3dfbd7a7_2f431806_ad2fe478_c4ee1b27_4a0ea0b0 = rootNat :=
  congrArg (Nat.cast (R := Fp)) (by decide)

theorem residue_minus_one :
    residue 0x7fffffff_ffffffff_ffffffff_ffffffff_ffffffff_ffffffff_ffffffff_ffffffec = -1 := by
  have numbers : residue 0x7fffffff_ffffffff_ffffffff_ffffffff_ffffffff_ffffffff_ffffffff_ffffffec =
      (p - 1 : Nat) := congrArg (Nat.cast (R := Fp)) (by decide)
  rw [numbers, Nat.cast_sub prime_p.one_le, ZMod.natCast_self, Nat.cast_one, zero_sub]

theorem isExact_opposite {w : Uint256} (reduced : w.toNat ≤ p) : (.word modulus - .word w : Linear).IsExact := by
  have bound := p_lt
  rw [Linear.isExact_iff, Linear.exact_sub, Linear.exact_word, Linear.exact_word, modulus_toNat]
  constructor <;> omega

theorem toNat_opposite {w : Uint256} (reduced : w.toNat ≤ p) :
    (.word modulus - .word w : Linear).wrapped.toNat = p - w.toNat := by
  have same := isExact_opposite reduced
  rw [Linear.IsExact, Linear.exact_sub, Linear.exact_word, Linear.exact_word, modulus_toNat] at same
  omega

theorem residue_opposite {w : Uint256} (reduced : w.toNat ≤ p) :
    residue (.word modulus - .word w : Linear).wrapped = -residue w := by
  rw [residue_wrapped (isExact_opposite reduced)]
  rw [Linear.exact_sub, Linear.exact_word, Linear.exact_word, modulus_toNat]
  push_cast
  rw [ZMod.natCast_self, zero_sub]
  rfl

theorem squareRoot_spec (ky : Uint256) :
    (squareRoot ky).Exact ∧
      match (squareRoot ky).value with
      | none => ¬ IsSquare (abscissaSq (residue ky))
      | some kx => kx.toNat < p ∧ residue kx ^ 2 = abscissaSq (residue ky) := by
  unfold squareRoot
  extract_lets ky2 u
  have one : (1 : Uint256).toNat = 1 := rfl
  generalize dTerm : mulmod ky2 _ modulus = dy2
  have vExact : (.word dy2 + .word 1 : Linear).IsExact := by
    have small : dy2.toNat < p := dTerm ▸ toNat_mulmod_lt _ _
    have bound := p_lt
    rw [Linear.isExact_iff, Linear.exact_add, Linear.exact_word, Linear.exact_word, one]
    constructor <;> omega
  have uSmall : u.toNat < p := toNat_addmod_lt _ _
  have uResidue : residue u = residue ky ^ 2 - 1 := by
    rw [residue_addmod, residue_mulmod, residue_minus_one, pow_two, sub_eq_add_neg]
  have vResidue : residue (.word dy2 + .word 1 : Linear).wrapped = d * residue ky ^ 2 + 1 := by
    rw [residue_wrapped vExact, Linear.exact_add, Linear.exact_word, Linear.exact_word, ← dTerm, one,
      Int.cast_add, Int.cast_natCast, ← residue, residue_mulmod, residue_mulmod, residue_d]
    ring
  rw [Traced.exact_bind, Traced.value_bind, exact_unchecked, value_unchecked]
  generalize (.word dy2 + .word 1 : Linear).wrapped = v at *
  extract_lets kx t
  have denominator : residue v ≠ 0 := by
    rw [vResidue]
    exact EdwardsPoint.mul_sq_add_one_ne_zero inferInstance _
  have quotient : abscissaSq (residue ky) = residue u / residue v := by
    rw [abscissaSq, uResidue, vResidue]
  have tResidue : residue t = residue kx ^ 2 * residue v := by
    rw [residue_mulmod, residue_mulmod, pow_two]
  have tSmall : t.toNat < p := toNat_mulmod_lt _ _
  have kxSmall : kx.toNat < p := toNat_mulmod_lt _ _
  have equal : t = u ↔ residue kx ^ 2 * residue v = residue u := by
    rw [eq_iff_residue tSmall uSmall, tResidue]
  rw [quotient]
  obtain root | ⟨nonzero, root⟩ | ⟨nonzero, notRoot, notOpposite, noRoot⟩ :=
    candidate_cases (residue u) (residue v) denominator (residue_candidate u v)
  · rw [if_neg (not_not.mpr (equal.mpr root))]
    refine ⟨⟨vExact, Traced.exact_pure _⟩, kxSmall, ?_⟩
    exact eq_div_of_mul_eq denominator root
  all_goals
    have positive : u.toNat ≠ 0 := by
      intro zero
      rw [residue, zero, Nat.cast_zero] at nonzero
      exact nonzero rfl
    have oppositeExact := isExact_opposite uSmall.le
    have oppositeSmall : (.word modulus - .word u : Linear).wrapped.toNat < p := by
      rw [toNat_opposite uSmall.le]
      omega
    have opposite : t = (.word modulus - .word u : Linear).wrapped ↔
        residue kx ^ 2 * residue v = -residue u := by
      rw [eq_iff_residue tSmall oppositeSmall, tResidue, residue_opposite uSmall.le]
  · have differ : residue kx ^ 2 * residue v ≠ residue u := by
      intro same
      apply (mul_ne_zero two_ne_zero nonzero)
      linear_combination root - same
    rw [if_pos (equal.not.mpr differ), Traced.exact_bind, Traced.value_bind, exact_unchecked,
      value_unchecked, if_neg (not_not.mpr (opposite.mpr root))]
    refine ⟨⟨vExact, oppositeExact, Traced.exact_pure _⟩, toNat_mulmod_lt _ _, ?_⟩
    rw [residue_mulmod, residue_root]
    apply eq_div_of_mul_eq denominator
    linear_combination -root + residue kx ^ 2 * residue v * root_sq
  · rw [if_pos (equal.not.mpr notRoot), Traced.exact_bind, Traced.value_bind, exact_unchecked,
      value_unchecked, if_pos (opposite.not.mpr notOpposite)]
    exact ⟨⟨vExact, oppositeExact, Traced.exact_pure _⟩, noRoot⟩

end RainbowBridge.Ed25519
