import Mathlib.Algebra.Field.Basic
import Mathlib.Algebra.Group.Even
import Mathlib.SetTheory.Cardinal.Finite
import Mathlib.Tactic.FieldSimp
import Mathlib.Tactic.LinearCombination
import Mathlib.Tactic.Ring

/-! The group of a complete twisted Edwards curve `y² - x² = 1 + d x² y²`, and the
coordinates in which it is computed without divisions. -/

namespace RainbowBridge.Lib

universe u

variable {K : Type u} [Field K]

/-- The curve's constant makes every sum of two points finite. -/
class CompleteEdwards (d : K) : Prop where
  two_ne_zero : (2 : K) ≠ 0
  neg_one : IsSquare (-1 : K)
  nonsquare : ¬ IsSquare d

@[ext] structure EdwardsPoint (d : K) where
  x : K
  y : K
  onCurve : y ^ 2 - x ^ 2 = 1 + d * x ^ 2 * y ^ 2

namespace EdwardsPoint

variable {d : K}

section Completeness

variable [complete : CompleteEdwards d] (P Q : EdwardsPoint d)

/-- Were a denominator zero, `d` would be a square: both of these squares are
`d` times a square, and not both of the latter are zero. -/
theorem product_sq_ne_one : (d * P.x * Q.x * P.y * Q.y) ^ 2 ≠ 1 := by
  intro one
  obtain ⟨i, root⟩ := complete.neg_one
  set e := d * P.x * Q.x * P.y * Q.y with product
  have nonzero : e ≠ 0 := by
    intro zero
    simp [zero] at one
  have first : (i * P.x + e * P.y) ^ 2 = d * (P.x * P.y * (i * Q.x + Q.y)) ^ 2 := by
    linear_combination
      (P.x ^ 2 - d * P.x ^ 2 * P.y ^ 2 * Q.x ^ 2) * (-root) + P.onCurve + P.y ^ 2 * one -
        d * P.x ^ 2 * P.y ^ 2 * Q.onCurve + (2 * i * P.x * P.y + e + d * P.x * Q.x * P.y * Q.y) * product -
        one
  have second : (i * P.x - e * P.y) ^ 2 = d * (P.x * P.y * (i * Q.x - Q.y)) ^ 2 := by
    linear_combination
      (P.x ^ 2 - d * P.x ^ 2 * P.y ^ 2 * Q.x ^ 2) * (-root) + P.onCurve + P.y ^ 2 * one -
        d * P.x ^ 2 * P.y ^ 2 * Q.onCurve - (2 * i * P.x * P.y - e - d * P.x * Q.x * P.y * Q.y) * product -
        one
  have apart : P.x * P.y ≠ 0 := by
    intro zero
    apply nonzero
    linear_combination product + d * Q.x * Q.y * zero
  have square {a b : K} (split : a ^ 2 = d * (P.x * P.y * b) ^ 2) (other : b ≠ 0) : False := by
    apply complete.nonsquare
    refine ⟨a / (P.x * P.y * b), ?_⟩
    rw [← pow_two, div_pow, eq_div_iff (pow_ne_zero 2 (mul_ne_zero apart other))]
    exact split.symm
  by_cases plus : i * Q.x + Q.y = 0
  · by_cases minus : i * Q.x - Q.y = 0
    · have vanish : Q.y = 0 := by
        apply (mul_eq_zero.mp _).resolve_left complete.two_ne_zero
        linear_combination plus - minus
      apply nonzero
      rw [product, vanish, mul_zero]
    · exact square second minus
  · exact square first plus

theorem one_add_ne_zero : 1 + d * P.x * Q.x * P.y * Q.y ≠ 0 := by
  intro zero
  apply product_sq_ne_one P Q
  linear_combination (d * P.x * Q.x * P.y * Q.y - 1) * zero

theorem one_sub_ne_zero : 1 - d * P.x * Q.x * P.y * Q.y ≠ 0 := by
  intro zero
  apply product_sq_ne_one P Q
  linear_combination (-d * P.x * Q.x * P.y * Q.y - 1) * zero

omit complete in
/-- The denominator of `x²` in terms of `y`. -/
theorem mul_sq_add_one_ne_zero (complete : CompleteEdwards d) (y : K) : d * y ^ 2 + 1 ≠ 0 := by
  intro zero
  obtain ⟨i, root⟩ := complete.neg_one
  have nonzero : y ≠ 0 := by
    intro vanish
    simp [vanish] at zero
  apply complete.nonsquare
  refine ⟨i / y, ?_⟩
  field_simp
  linear_combination zero + root

end Completeness

theorem x_sq_eq [complete : CompleteEdwards d] (P : EdwardsPoint d) :
    P.x ^ 2 = (P.y ^ 2 - 1) / (d * P.y ^ 2 + 1) := by
  rw [eq_div_iff (mul_sq_add_one_ne_zero complete P.y)]
  linear_combination -P.onCurve

/-- A point from its ordinate and a root of the quotient that the curve gives. -/
def ofRoot [complete : CompleteEdwards d] (x y : K)
    (root : x ^ 2 = (y ^ 2 - 1) / (d * y ^ 2 + 1)) : EdwardsPoint d where
  x := x
  y := y
  onCurve := by
    rw [eq_div_iff (mul_sq_add_one_ne_zero complete y)] at root
    linear_combination -root

/-- Points with one ordinate are equal or opposite; a sign tells them apart. -/
theorem eq_of_sign [complete : CompleteEdwards d] {sign : K → Bool}
    (opposite : ∀ a, a ≠ 0 → sign (-a) ≠ sign a) {P Q : EdwardsPoint d} (ordinate : P.y = Q.y)
    (agree : P.x = 0 ∨ Q.x = 0 ∨ sign P.x = sign Q.x) : P = Q := by
  have squares : P.x ^ 2 = Q.x ^ 2 := by rw [P.x_sq_eq, Q.x_sq_eq, ordinate]
  apply EdwardsPoint.ext _ ordinate
  obtain same | negated := sq_eq_sq_iff_eq_or_eq_neg.mp squares
  · exact same
  · obtain zero | zero | signs := agree
    · simp_all
    · simp_all
    · by_cases zero : Q.x = 0
      · simp_all
      · rw [negated] at signs
        exact absurd signs (opposite Q.x zero)

/-- There are at most two points for each ordinate. -/
theorem card_le [Finite K] [CompleteEdwards d] {sign : K → Bool}
    (opposite : ∀ a, a ≠ 0 → sign (-a) ≠ sign a) : Nat.card (EdwardsPoint d) ≤ 2 * Nat.card K := by
  have injective : Function.Injective fun P : EdwardsPoint d => (sign P.x, P.y) := by
    intro P Q same
    simp only [Prod.mk.injEq] at same
    exact eq_of_sign opposite same.2 (.inr (.inr same.1))
  calc Nat.card (EdwardsPoint d) ≤ Nat.card (Bool × K) := Nat.card_le_card_of_injective _ injective
    _ = 2 * Nat.card K := by simp [Nat.card_prod]

instance [Finite K] : Finite (EdwardsPoint d) :=
  Finite.of_injective (fun P : EdwardsPoint d => (P.x, P.y)) fun _ _ same =>
    EdwardsPoint.ext (congrArg Prod.fst same) (congrArg Prod.snd same)

/-! The group. Closure and associativity are polynomial identities modulo the
curve's equation, once the denominators are cleared. -/

instance : Zero (EdwardsPoint d) := ⟨0, 1, by ring⟩

instance : Neg (EdwardsPoint d) := ⟨fun P => ⟨-P.x, P.y, by linear_combination P.onCurve⟩⟩

@[simp] theorem zero_x : (0 : EdwardsPoint d).x = 0 := rfl

@[simp] theorem zero_y : (0 : EdwardsPoint d).y = 1 := rfl

@[simp] theorem neg_x (P : EdwardsPoint d) : (-P).x = -P.x := rfl

@[simp] theorem neg_y (P : EdwardsPoint d) : (-P).y = P.y := rfl

variable [CompleteEdwards d]

theorem sum_onCurve (P Q : EdwardsPoint d) :
    ((P.y * Q.y + P.x * Q.x) / (1 - d * P.x * Q.x * P.y * Q.y)) ^ 2 -
        ((P.x * Q.y + P.y * Q.x) / (1 + d * P.x * Q.x * P.y * Q.y)) ^ 2 =
      1 + d * ((P.x * Q.y + P.y * Q.x) / (1 + d * P.x * Q.x * P.y * Q.y)) ^ 2 *
        ((P.y * Q.y + P.x * Q.x) / (1 - d * P.x * Q.x * P.y * Q.y)) ^ 2 := by
  have plus := one_add_ne_zero P Q
  have minus := one_sub_ne_zero P Q
  set e := d * P.x * Q.x * P.y * Q.y with product
  set v := d * P.x ^ 2 * P.y ^ 2 with first
  set w := d * Q.x ^ 2 * Q.y ^ 2 with second
  have cleared : (P.y * Q.y + P.x * Q.x) ^ 2 * (1 + e) ^ 2 - (P.x * Q.y + P.y * Q.x) ^ 2 * (1 - e) ^ 2 =
      (1 + e) ^ 2 * (1 - e) ^ 2 + d * (P.x * Q.y + P.y * Q.x) ^ 2 * (P.y * Q.y + P.x * Q.x) ^ 2 := by
    rw [product]
    have left := P.onCurve
    have right := Q.onCurve
    linear_combination
      ((Q.y ^ 2 - Q.x ^ 2) * (1 + v * w) - w * (1 + v + P.y ^ 2 - P.x ^ 2)) * left +
        ((1 + v) * (1 + v * w) - v * (1 + w + Q.y ^ 2 - Q.x ^ 2)) * right
  field_simp
  linear_combination cleared

instance : Add (EdwardsPoint d) :=
  ⟨fun P Q => ⟨(P.x * Q.y + P.y * Q.x) / (1 + d * P.x * Q.x * P.y * Q.y),
    (P.y * Q.y + P.x * Q.x) / (1 - d * P.x * Q.x * P.y * Q.y), sum_onCurve P Q⟩⟩

theorem add_x (P Q : EdwardsPoint d) :
    (P + Q).x = (P.x * Q.y + P.y * Q.x) / (1 + d * P.x * Q.x * P.y * Q.y) := rfl

theorem add_y (P Q : EdwardsPoint d) :
    (P + Q).y = (P.y * Q.y + P.x * Q.x) / (1 - d * P.x * Q.x * P.y * Q.y) := rfl

theorem add_x_mul (P Q : EdwardsPoint d) :
    (P + Q).x * (1 + d * P.x * Q.x * P.y * Q.y) = P.x * Q.y + P.y * Q.x :=
  div_mul_cancel₀ _ (one_add_ne_zero P Q)

theorem add_y_mul (P Q : EdwardsPoint d) :
    (P + Q).y * (1 - d * P.x * Q.x * P.y * Q.y) = P.y * Q.y + P.x * Q.x :=
  div_mul_cancel₀ _ (one_sub_ne_zero P Q)

/-- A sum of three points over one denominator. -/
theorem add_add_x (P Q R : EdwardsPoint d) :
    let e := d * P.x * Q.x * P.y * Q.y
    let a := P.x * Q.y + P.y * Q.x
    let b := P.y * Q.y + P.x * Q.x
    (P + Q + R).x = (a * (1 - e) * R.y + b * (1 + e) * R.x) / (1 - e ^ 2 + d * a * b * R.x * R.y) ∧
      1 - e ^ 2 + d * a * b * R.x * R.y ≠ 0 := by
  intro e a b
  have plus : 1 + e ≠ 0 := one_add_ne_zero P Q
  have minus : 1 - e ≠ 0 := one_sub_ne_zero P Q
  have outer := one_add_ne_zero (P + Q) R
  have x : (P + Q).x = a / (1 + e) := rfl
  have y : (P + Q).y = b / (1 - e) := rfl
  have scaled : (1 + d * (P + Q).x * R.x * (P + Q).y * R.y) * ((1 + e) * (1 - e)) =
      1 - e ^ 2 + d * a * b * R.x * R.y := by
    rw [x, y]
    field_simp
    ring
  refine ⟨?_, scaled ▸ mul_ne_zero outer (mul_ne_zero plus minus)⟩
  rw [add_x, ← scaled, ← mul_div_mul_right _ _ (mul_ne_zero plus minus), x, y]
  congr 1
  field_simp

theorem add_add_y (P Q R : EdwardsPoint d) :
    let e := d * P.x * Q.x * P.y * Q.y
    let a := P.x * Q.y + P.y * Q.x
    let b := P.y * Q.y + P.x * Q.x
    (P + Q + R).y = (b * (1 + e) * R.y + a * (1 - e) * R.x) / (1 - e ^ 2 - d * a * b * R.x * R.y) ∧
      1 - e ^ 2 - d * a * b * R.x * R.y ≠ 0 := by
  intro e a b
  have plus : 1 + e ≠ 0 := one_add_ne_zero P Q
  have minus : 1 - e ≠ 0 := one_sub_ne_zero P Q
  have outer := one_sub_ne_zero (P + Q) R
  have x : (P + Q).x = a / (1 + e) := rfl
  have y : (P + Q).y = b / (1 - e) := rfl
  have scaled : (1 - d * (P + Q).x * R.x * (P + Q).y * R.y) * ((1 + e) * (1 - e)) =
      1 - e ^ 2 - d * a * b * R.x * R.y := by
    rw [x, y]
    field_simp
    ring
  refine ⟨?_, scaled ▸ mul_ne_zero outer (mul_ne_zero plus minus)⟩
  rw [add_y, ← scaled, ← mul_div_mul_right _ _ (mul_ne_zero plus minus), x, y]
  congr 1
  field_simp

protected theorem add_comm (P Q : EdwardsPoint d) : P + Q = Q + P := by
  ext
  · rw [add_x, add_x]
    congr 1 <;> ring
  · rw [add_y, add_y]
    congr 1 <;> ring

/-- The sum is moved on by one place, `(P + Q) + R = (Q + R) + P`. -/
theorem add_rotate (P Q R : EdwardsPoint d) : P + Q + R = Q + R + P := by
  have first := P.onCurve
  have second := Q.onCurve
  have third := R.onCurve
  ext
  · obtain ⟨left, leftNonzero⟩ := add_add_x P Q R
    obtain ⟨right, rightNonzero⟩ := add_add_x Q R P
    rw [left, right, div_eq_div_iff leftNonzero rightNonzero]
    linear_combination
      ((Q.y ^ 2 - Q.x ^ 2 - 1) * (R.y ^ 2 - R.x ^ 2 - 1) *
            ((P.x * Q.y + P.y * Q.x) * R.y + (P.y * Q.y + P.x * Q.x) * R.x) -
          d * Q.x * Q.y * R.x * R.y *
            ((Q.x * R.y + Q.y * R.x) * P.y - (Q.y * R.y + Q.x * R.x) * P.x)) * first +
        (d * ((P.x * Q.y + P.y * Q.x) * R.y + (P.y * Q.y + P.x * Q.x) * R.x) *
            (P.x ^ 2 * P.y ^ 2 * (R.y ^ 2 - R.x ^ 2 - 1) - R.x ^ 2 * R.y ^ 2 * (P.y ^ 2 - P.x ^ 2 - 1)) +
          d ^ 2 * P.x * P.y * Q.x * Q.y * R.x * R.y *
            (P.x * P.y * ((Q.x * R.y + Q.y * R.x) * P.y - (Q.y * R.y + Q.x * R.x) * P.x) -
              R.x * R.y * ((P.x * Q.y + P.y * Q.x) * R.y - (P.y * Q.y + P.x * Q.x) * R.x))) * second -
        ((P.y ^ 2 - P.x ^ 2 - 1) * (Q.y ^ 2 - Q.x ^ 2 - 1) *
            ((P.x * Q.y + P.y * Q.x) * R.y + (P.y * Q.y + P.x * Q.x) * R.x) -
          d * P.x * P.y * Q.x * Q.y *
            ((P.x * Q.y + P.y * Q.x) * R.y - (P.y * Q.y + P.x * Q.x) * R.x)) * third
  · obtain ⟨left, leftNonzero⟩ := add_add_y P Q R
    obtain ⟨right, rightNonzero⟩ := add_add_y Q R P
    rw [left, right, div_eq_div_iff leftNonzero rightNonzero]
    linear_combination
      ((Q.y ^ 2 - Q.x ^ 2 - 1) * (R.y ^ 2 - R.x ^ 2 - 1) *
            ((P.x * Q.y + P.y * Q.x) * R.x + (P.y * Q.y + P.x * Q.x) * R.y) +
          d * Q.x * Q.y * R.x * R.y *
            ((Q.y * R.y + Q.x * R.x) * P.y - (Q.x * R.y + Q.y * R.x) * P.x)) * first +
        (d * ((P.x * Q.y + P.y * Q.x) * R.x + (P.y * Q.y + P.x * Q.x) * R.y) *
            (P.x ^ 2 * P.y ^ 2 * (R.y ^ 2 - R.x ^ 2 - 1) - R.x ^ 2 * R.y ^ 2 * (P.y ^ 2 - P.x ^ 2 - 1)) -
          d ^ 2 * P.x * P.y * Q.x * Q.y * R.x * R.y *
            (P.x * P.y * ((Q.y * R.y + Q.x * R.x) * P.y - (Q.x * R.y + Q.y * R.x) * P.x) +
              R.x * R.y * ((P.x * Q.y + P.y * Q.x) * R.x - (P.y * Q.y + P.x * Q.x) * R.y))) * second -
        ((P.y ^ 2 - P.x ^ 2 - 1) * (Q.y ^ 2 - Q.x ^ 2 - 1) *
            ((P.x * Q.y + P.y * Q.x) * R.x + (P.y * Q.y + P.x * Q.x) * R.y) -
          d * P.x * P.y * Q.x * Q.y *
            ((P.x * Q.y + P.y * Q.x) * R.x - (P.y * Q.y + P.x * Q.x) * R.y)) * third

instance : AddCommGroup (EdwardsPoint d) where
  add_assoc P Q R := by rw [add_rotate, EdwardsPoint.add_comm]
  zero_add P := by ext <;> simp [add_x, add_y]
  add_zero P := by ext <;> simp [add_x, add_y]
  add_comm := EdwardsPoint.add_comm
  neg_add_cancel P := by
    ext
    · simp [add_x, mul_comm]
    · rw [add_y, div_eq_iff (one_sub_ne_zero (-P) P)]
      simp only [neg_x, neg_y, zero_y]
      linear_combination P.onCurve
  nsmul := nsmulRec
  zsmul := zsmulRec

/-! Coordinates without divisions: a point is kept as two fractions, and a point
to be added as the sum, the difference and the product of its coordinates. -/

section Coordinates

variable {x u y v : K} {P Q : EdwardsPoint d}

/-- The fractions `x / u` and `y / v` are the coordinates of the point. -/
structure Represents (x u y v : K) (P : EdwardsPoint d) : Prop where
  u_ne_zero : u ≠ 0
  v_ne_zero : v ≠ 0
  x_eq : x = P.x * u
  y_eq : y = P.y * v

/-- What an addition reads of its second point, scaled by `c`. -/
structure Caches (c sum difference product : K) (Q : EdwardsPoint d) : Prop where
  scale : c ≠ 0
  sum_eq : sum = c * (Q.y + Q.x)
  difference_eq : difference = c * (Q.y - Q.x)
  product_eq : product = 2 * c * d * Q.x * Q.y

omit [CompleteEdwards d] in
theorem represents_affine (P : EdwardsPoint d) : Represents P.x 1 P.y 1 P :=
  ⟨one_ne_zero, one_ne_zero, (mul_one _).symm, (mul_one _).symm⟩

theorem Represents.double (represents : Represents x u y v P) :
    Represents (x * v * (y * u) + x * v * (y * u)) ((y * u) ^ 2 - (x * v) ^ 2)
      ((x * v) ^ 2 + (y * u) ^ 2) (2 * (u * v) ^ 2 - ((y * u) ^ 2 - (x * v) ^ 2)) (P + P) := by
  obtain ⟨u_ne_zero, v_ne_zero, rfl, rfl⟩ := represents
  have plus := one_add_ne_zero P P
  have minus := one_sub_ne_zero P P
  have scale : (u * v) ^ 2 ≠ 0 := pow_ne_zero 2 (mul_ne_zero u_ne_zero v_ne_zero)
  have upper : (P.y * v * u) ^ 2 - (P.x * u * v) ^ 2 =
      (u * v) ^ 2 * (1 + d * P.x * P.x * P.y * P.y) := by
    linear_combination (u * v) ^ 2 * P.onCurve
  have lower : 2 * (u * v) ^ 2 - ((P.y * v * u) ^ 2 - (P.x * u * v) ^ 2) =
      (u * v) ^ 2 * (1 - d * P.x * P.x * P.y * P.y) := by
    linear_combination -((u * v) ^ 2) * P.onCurve
  refine ⟨?_, ?_, ?_, ?_⟩
  · exact upper ▸ mul_ne_zero scale plus
  · exact lower ▸ mul_ne_zero scale minus
  · rw [upper]
    linear_combination -((u * v) ^ 2) * add_x_mul P P
  · rw [lower]
    linear_combination -((u * v) ^ 2) * add_y_mul P P

theorem Represents.add (represents : Represents x u y v P) {c sum difference product : K}
    (caches : Caches c sum difference product Q) :
    Represents ((y * u + x * v) * sum - (y * u - x * v) * difference)
      (2 * c * (u * v) + x * y * product) ((y * u + x * v) * sum + (y * u - x * v) * difference)
      (2 * c * (u * v) - x * y * product) (P + Q) := by
  obtain ⟨u_ne_zero, v_ne_zero, rfl, rfl⟩ := represents
  obtain ⟨scale, rfl, rfl, rfl⟩ := caches
  have plus := one_add_ne_zero P Q
  have minus := one_sub_ne_zero P Q
  have nonzero : 2 * c * (u * v) ≠ 0 :=
    mul_ne_zero (mul_ne_zero (CompleteEdwards.two_ne_zero d) scale) (mul_ne_zero u_ne_zero v_ne_zero)
  have upper : 2 * c * (u * v) + P.x * u * (P.y * v) * (2 * c * d * Q.x * Q.y) =
      2 * c * (u * v) * (1 + d * P.x * Q.x * P.y * Q.y) := by
    ring
  have lower : 2 * c * (u * v) - P.x * u * (P.y * v) * (2 * c * d * Q.x * Q.y) =
      2 * c * (u * v) * (1 - d * P.x * Q.x * P.y * Q.y) := by
    ring
  refine ⟨?_, ?_, ?_, ?_⟩
  · exact upper ▸ mul_ne_zero nonzero plus
  · exact lower ▸ mul_ne_zero nonzero minus
  · rw [upper]
    linear_combination -(2 * c * (u * v)) * add_x_mul P Q
  · rw [lower]
    linear_combination -(2 * c * (u * v)) * add_y_mul P Q

omit [CompleteEdwards d] in
theorem Caches.scaled {c sum difference product k : K} (caches : Caches c sum difference product Q)
    (nonzero : k ≠ 0) : Caches (c * k) (sum * k) (difference * k) (product * k) Q := by
  obtain ⟨scale, rfl, rfl, rfl⟩ := caches
  refine ⟨mul_ne_zero scale nonzero, ?_, ?_, ?_⟩ <;> ring

omit [CompleteEdwards d] in
/-- The opposite of a cached point: sum and difference change places. -/
theorem Caches.neg {c sum difference product : K} (caches : Caches c sum difference product Q) :
    Caches c difference sum (-product) (-Q) := by
  obtain ⟨scale, rfl, rfl, rfl⟩ := caches
  refine ⟨scale, ?_, ?_, ?_⟩ <;> simp only [neg_x, neg_y] <;> ring

theorem Represents.sub (represents : Represents x u y v P) {c sum difference product : K}
    (caches : Caches c sum difference product Q) :
    Represents ((y * u + x * v) * difference - (y * u - x * v) * sum)
      (2 * c * (u * v) - x * y * product) ((y * u + x * v) * difference + (y * u - x * v) * sum)
      (2 * c * (u * v) + x * y * product) (P - Q) := by
  have added := represents.add caches.neg
  rw [mul_neg, ← sub_eq_add_neg, sub_neg_eq_add, ← sub_eq_add_neg] at added
  exact added

/-- The sum, difference and product over twice the common denominator. -/
theorem Represents.caches (represents : Represents x u y v P) {inverse : K}
    (inverted : inverse * (2 * (u * v)) = 1) :
    Caches 2⁻¹ ((y * u + x * v) * inverse) ((y * u - x * v) * inverse) (x * y * (2 * d) * inverse) P := by
  obtain ⟨u_ne_zero, v_ne_zero, rfl, rfl⟩ := represents
  have two := CompleteEdwards.two_ne_zero d
  have half : u * v * inverse = 2⁻¹ := by
    apply eq_inv_of_mul_eq_one_left
    linear_combination inverted
  refine ⟨inv_ne_zero two, ?_, ?_, ?_⟩
  · linear_combination (P.y + P.x) * half
  · linear_combination (P.y - P.x) * half
  · linear_combination 2 * d * P.x * P.y * half

/-- The same, of numbers that are known to be these quotients. -/
theorem Represents.caches_of_mul (represents : Represents x u y v P) {sum difference product : K}
    (sum_mul : sum * (2 * (u * v)) = y * u + x * v) (difference_mul : difference * (2 * (u * v)) = y * u - x * v)
    (product_mul : product * (2 * (u * v)) = x * y * (2 * d)) : Caches 2⁻¹ sum difference product P := by
  have nonzero : 2 * (u * v) ≠ 0 :=
    mul_ne_zero (CompleteEdwards.two_ne_zero d) (mul_ne_zero represents.u_ne_zero represents.v_ne_zero)
  have caches := represents.caches (inv_mul_cancel₀ nonzero)
  rwa [← sum_mul, ← difference_mul, ← product_mul, mul_inv_cancel_right₀ nonzero,
    mul_inv_cancel_right₀ nonzero, mul_inv_cancel_right₀ nonzero] at caches

omit [CompleteEdwards d] in
theorem Represents.eq_of_mul (represents : Represents x u y v P) (abscissa : x = Q.x * u)
    (ordinate : y = Q.y * v) : P = Q := by
  obtain ⟨u_ne_zero, v_ne_zero, x_eq, y_eq⟩ := represents
  apply EdwardsPoint.ext
  · exact mul_right_cancel₀ u_ne_zero (x_eq.symm.trans abscissa)
  · exact mul_right_cancel₀ v_ne_zero (y_eq.symm.trans ordinate)

omit [CompleteEdwards d] in
theorem Represents.eq_zero_iff (represents : Represents x u y v P) : P = 0 ↔ x = 0 ∧ y = v := by
  obtain ⟨u_ne_zero, v_ne_zero, rfl, rfl⟩ := represents
  constructor
  · rintro rfl
    simp
  · intro ⟨x_zero, y_one⟩
    apply EdwardsPoint.ext
    · exact (mul_eq_zero.mp x_zero).resolve_right u_ne_zero
    · exact mul_right_cancel₀ v_ne_zero (by simpa using y_one)

end Coordinates

/-! A multiple of a point, computed from the binary digits of the factor. -/

section Multiples

local instance : Nat.AtLeastTwo 2 := inferInstance

/-- Numerators and denominators of the two coordinates. -/
structure Fractions (K : Type u) where
  (x u y v : K)

def Fractions.double (q : Fractions K) : Fractions K :=
  let xx := q.x * q.v
  let yy := q.y * q.u
  let difference := yy ^ 2 - xx ^ 2
  ⟨xx * yy + xx * yy, difference, xx ^ 2 + yy ^ 2, 2 * (q.u * q.v) ^ 2 - difference⟩

def Fractions.add (q : Fractions K) (Q : EdwardsPoint d) : Fractions K :=
  let upper := (q.y * q.u + q.x * q.v) * (Q.y + Q.x)
  let lower := (q.y * q.u - q.x * q.v) * (Q.y - Q.x)
  let product := q.x * q.y * (2 * d * Q.x * Q.y)
  ⟨upper - lower, 2 * (q.u * q.v) + product, upper + lower, 2 * (q.u * q.v) - product⟩

def multiplied (Q : EdwardsPoint d) : Nat → Nat → Fractions K
  | 0, _ => ⟨0, 1, 1, 1⟩
  | bits + 1, n =>
    let twice := (multiplied Q bits (n / 2)).double
    if n % 2 = 1 then twice.add Q else twice

theorem represents_multiplied (Q : EdwardsPoint d) (bits n : Nat) (fits : n < 2 ^ bits) :
    let q := multiplied Q bits n
    Represents q.x q.u q.y q.v (n • Q) := by
  induction bits generalizing n with
  | zero =>
    have zero : n = 0 := by simpa using fits
    rw [zero, zero_smul]
    exact represents_affine 0
  | succ bits ih =>
    have half := (ih (n / 2) (by rw [pow_succ] at fits; omega)).double
    rw [← add_smul] at half
    rw [multiplied]
    split
    case isTrue odd =>
      have caches : Caches 1 (Q.y + Q.x) (Q.y - Q.x) (2 * d * Q.x * Q.y) Q := by
        refine ⟨one_ne_zero, ?_, ?_, ?_⟩ <;> ring
      have added := half.add caches
      rw [← succ_nsmul, show n / 2 + n / 2 + 1 = n by omega, mul_one] at added
      exact added
    case isFalse even =>
      rw [show n / 2 + n / 2 = n by omega] at half
      exact half

end Multiples

end EdwardsPoint

end RainbowBridge.Lib
