import RainbowBridge.Ed25519.Arithmetic

/-! Step 3 of `Ed25519.check`: the multiples of the key's point and their division by
one inversion. -/

namespace RainbowBridge.Ed25519

open RainbowBridge.Lib
open RainbowBridge.Solidity

section Sums

variable {a b : Uint256}

theorem isExact_sum (left : a.toNat < p) (right : b.toNat < p) : (.word a + .word b : Linear).IsExact := by
  have bound := p_lt
  rw [Linear.isExact_iff, Linear.exact_add, Linear.exact_word, Linear.exact_word]
  constructor <;> omega

theorem residue_sum (left : a.toNat < p) (right : b.toNat < p) :
    residue (.word a + .word b : Linear).wrapped = residue a + residue b := by
  rw [residue_wrapped (isExact_sum left right), Linear.exact_add, Linear.exact_word, Linear.exact_word,
    Int.cast_add, Int.cast_natCast, Int.cast_natCast]
  rfl

theorem isExact_difference (left : a.toNat < p) (right : b.toNat < p) :
    (.word a - .word b + .word modulus : Linear).IsExact := by
  have bound := p_lt
  rw [Linear.isExact_iff, Linear.exact_add, Linear.exact_sub, Linear.exact_word, Linear.exact_word,
    Linear.exact_word, modulus_toNat]
  constructor <;> omega

theorem toNat_difference_lt (left : a.toNat < p) (right : b.toNat < p) :
    (.word a - .word b + .word modulus : Linear).wrapped.toNat < 2 * p := by
  have same := isExact_difference left right
  rw [Linear.IsExact, Linear.exact_add, Linear.exact_sub, Linear.exact_word, Linear.exact_word,
    Linear.exact_word, modulus_toNat] at same
  omega

theorem residue_difference (left : a.toNat < p) (right : b.toNat < p) :
    residue (.word a - .word b + .word modulus : Linear).wrapped = residue a - residue b := by
  rw [residue_wrapped (isExact_difference left right), Linear.exact_add, Linear.exact_sub,
    Linear.exact_word, Linear.exact_word, Linear.exact_word, modulus_toNat, Int.cast_add, Int.cast_sub,
    Int.cast_natCast, Int.cast_natCast, Int.cast_natCast, ZMod.natCast_self, add_zero]
  rfl

end Sums

/-- Words that are the coordinates of a point, as fractions. -/
def Represented (q : Fractions) (P : Point) : Prop :=
  EdwardsPoint.Represents (residue q.x) (residue q.u) (residue q.y) (residue q.v) P

/-- Twice the modulus, less a word that is below it. -/
theorem isExact_twice {u : Uint256} (below : u.toNat < 2 * p) :
    (.word 0xffffffff_ffffffff_ffffffff_ffffffff_ffffffff_ffffffff_ffffffff_ffffffda - .word u :
      Linear).IsExact := by
  have twice : (0xffffffff_ffffffff_ffffffff_ffffffff_ffffffff_ffffffff_ffffffff_ffffffda :
      Uint256).toNat = 2 * p := by
    decide
  have bound := p_lt
  rw [Linear.isExact_iff, Linear.exact_sub, Linear.exact_word, Linear.exact_word, twice]
  constructor <;> omega

theorem residue_twice {u : Uint256} (below : u.toNat < 2 * p) :
    residue (.word 0xffffffff_ffffffff_ffffffff_ffffffff_ffffffff_ffffffff_ffffffff_ffffffda - .word u :
      Linear).wrapped = -residue u := by
  have twice : (0xffffffff_ffffffff_ffffffff_ffffffff_ffffffff_ffffffff_ffffffff_ffffffda :
      Uint256).toNat = 2 * p := by
    decide
  rw [residue_wrapped (isExact_twice below), Linear.exact_sub, Linear.exact_word, Linear.exact_word, twice,
    Int.cast_sub, Int.cast_natCast, Int.cast_natCast, Nat.cast_mul, ZMod.natCast_self, mul_zero, zero_sub]
  rfl

theorem double_exact (q : Fractions) : (double q).Exact := by
  unfold double
  simp only [Traced.exact_bind, value_unchecked, exact_unchecked, Traced.exact_pure, and_true]
  exact ⟨isExact_sum (toNat_mulmod_lt _ _) (toNat_mulmod_lt _ _),
    isExact_difference (toNat_mulmod_lt _ _) (toNat_mulmod_lt _ _),
    isExact_sum (toNat_mulmod_lt _ _) (toNat_mulmod_lt _ _),
    isExact_sum (toNat_mulmod_lt _ _) (toNat_mulmod_lt _ _),
    isExact_twice (toNat_difference_lt (toNat_mulmod_lt _ _) (toNat_mulmod_lt _ _))⟩

theorem Represented.double {q : Fractions} {P : Point} (represented : Represented q P) :
    Represented (double q).value (P + P) := by
  have twice := EdwardsPoint.Represents.double represented
  unfold Ed25519.double
  simp only [Traced.value_bind, value_unchecked, Traced.value_pure, Represented]
  rw [residue_sum (toNat_mulmod_lt _ _) (toNat_mulmod_lt _ _),
    residue_difference (toNat_mulmod_lt _ _) (toNat_mulmod_lt _ _),
    residue_sum (toNat_mulmod_lt _ _) (toNat_mulmod_lt _ _), residue_addmod,
    residue_sum (toNat_mulmod_lt _ _) (toNat_mulmod_lt _ _),
    residue_twice (toNat_difference_lt (toNat_mulmod_lt _ _) (toNat_mulmod_lt _ _)),
    residue_difference (toNat_mulmod_lt _ _) (toNat_mulmod_lt _ _)]
  simp only [residue_mulmod]
  convert twice using 1 <;> ring

theorem multiple_exact (ks kd k2dt : Uint256) (i : Nat) (m : Multiples) : (multiple ks kd k2dt i m).Exact := by
  unfold multiple
  have product {a b : Uint256} : (mulmod a b modulus).toNat < p := toNat_mulmod_lt _ _
  simp only [Traced.exact_bind, value_unchecked, exact_unchecked]
  refine ⟨isExact_sum product product, isExact_difference product product, isExact_sum product product, ?_⟩
  split
  case isTrue => exact Traced.exact_pure _
  case isFalse =>
    simp only [Traced.exact_bind, exact_unchecked, Traced.exact_pure, and_true]
    exact ⟨isExact_difference product product, isExact_sum product product, isExact_opposite product.le⟩

theorem divide_exact (i : Nat) (state : Uint256 × Tables) : (divide i state).Exact := by
  obtain ⟨cprod, tables⟩ := state
  simp only [divide]
  split
  case isTrue => exact Traced.exact_pure _
  case isFalse => exact Traced.exact_pure _

/-- A row of the tables that is not divided yet: the coordinates and their product
are scaled by half of what the row is to be divided by. -/
def Row (tables : Tables) (j : Nat) (P : Point) : Prop :=
  EdwardsPoint.Caches (residue (tables 0 0 j) / 2) (residue (tables 1 0 j)) (residue (tables 1 1 j))
    (residue (tables 1 2 j)) P

/-- The product of the denominators of the first `i` rows. -/
def denominators (tables : Tables) (i : Nat) : Fp := ∏ j ∈ Finset.range i, residue (tables 0 0 j)

/-- Before turn `i` of the first loop. -/
structure Filled (A : Point) (i : Nat) (m : Multiples) : Prop where
  next : i < 8 → Represented m.kk ((8 + i) • A)
  rows : ∀ j < i, Row m.tables j ((8 + j) • A)
  prefixes : ∀ j < i, residue (m.tables 0 1 j) = denominators m.tables j
  product : residue m.cprod = denominators m.tables i

/-- The row that turn `i` of the first loop stores. -/
def Tables.fill (tables : Tables) (i : Nat) (cs cd ct c2z cprod : Uint256) : Tables :=
  ((((tables.store 1 0 i cs).store 1 1 i cd).store 1 2 i ct).store 0 0 i c2z).store 0 1 i cprod

theorem Tables.fill_of_ne (tables : Tables) {i j : Nat} (other : j ≠ i) (cs cd ct c2z cprod : Uint256)
    (table column : Nat) : tables.fill i cs cd ct c2z cprod table column j = tables table column j := by
  simp [Tables.fill, Tables.store, other]

theorem denominators_congr {tables tables' : Tables} {i : Nat}
    (same : ∀ j < i, tables 0 0 j = tables' 0 0 j) : denominators tables i = denominators tables' i := by
  apply Finset.prod_congr rfl
  intro j inside
  rw [same j (Finset.mem_range.mp inside)]

theorem residue_twice_d :
    residue 0x2406d9dc_56dffce7_198e80f2_eef3d130_00e0149a_8283b156_ebd69b94_26b2f159 = 2 * d := by
  have numbers : residue 0x2406d9dc_56dffce7_198e80f2_eef3d130_00e0149a_8283b156_ebd69b94_26b2f159 =
      (2 * dNat : Nat) := by
    exact cast_eq_of_mod (by decide)
  rw [numbers, Nat.cast_mul]
  rfl

/-- The row of a point's fractions. -/
theorem row_fill {q : Fractions} {P : Point} (represented : Represented q P) (tables : Tables) (i : Nat)
    {cs cd ct c2z cprod : Uint256}
    (sum : residue cs = residue q.y * residue q.u + residue q.x * residue q.v)
    (difference : residue cd = residue q.y * residue q.u - residue q.x * residue q.v)
    (product : residue ct = residue q.x * residue q.y * (2 * d))
    (twice : residue c2z = residue q.u * residue q.v + residue q.u * residue q.v) :
    Row (tables.fill i cs cd ct c2z cprod) i P := by
  obtain ⟨u_ne_zero, v_ne_zero, x_eq, y_eq⟩ := represented
  have half : residue c2z / 2 = residue q.u * residue q.v := by
    rw [twice, ← two_mul, mul_div_cancel_left₀ _ two_ne_zero]
  have entries : Row (tables.fill i cs cd ct c2z cprod) i P ↔
      EdwardsPoint.Caches (residue c2z / 2) (residue cs) (residue cd) (residue ct) P := by
    simp [Row, Tables.fill, Tables.store]
  rw [entries, half]
  refine ⟨mul_ne_zero u_ne_zero v_ne_zero, ?_, ?_, ?_⟩
  · rw [sum, x_eq, y_eq]
    ring
  · rw [difference, x_eq, y_eq]
    ring
  · rw [product, x_eq, y_eq]
    ring

theorem Filled.turn {A : Point} {i : Nat} {m : Multiples} {ks kd k2dt : Uint256} (inside : i < 8)
    (caches : EdwardsPoint.Caches 1 (residue ks) (residue kd) (residue k2dt) A) (filled : Filled A i m) :
    Filled A (i + 1) (multiple ks kd k2dt i m).value := by
  have reduced {a b : Uint256} : (mulmod a b modulus).toNat < p := toNat_mulmod_lt _ _
  have represented := filled.next inside
  unfold multiple
  simp only [Traced.value_bind, value_unchecked]
  have sum := residue_sum (a := mulmod m.kk.y m.kk.u modulus) (b := mulmod m.kk.x m.kk.v modulus)
    reduced reduced
  have difference := residue_difference (a := mulmod m.kk.y m.kk.u modulus)
    (b := mulmod m.kk.x m.kk.v modulus) reduced reduced
  have twice := residue_sum (a := mulmod m.kk.u m.kk.v modulus) (b := mulmod m.kk.u m.kk.v modulus)
    reduced reduced
  have scaled := residue_mulmod (mulmod m.kk.x m.kk.y modulus)
    0x2406d9dc_56dffce7_198e80f2_eef3d130_00e0149a_8283b156_ebd69b94_26b2f159
  generalize (.word (mulmod m.kk.y m.kk.u modulus) + .word (mulmod m.kk.x m.kk.v modulus) :
    Linear).wrapped = cs at *
  generalize (.word (mulmod m.kk.y m.kk.u modulus) - .word (mulmod m.kk.x m.kk.v modulus) +
    .word modulus : Linear).wrapped = cd at *
  generalize (.word (mulmod m.kk.u m.kk.v modulus) + .word (mulmod m.kk.u m.kk.v modulus) :
    Linear).wrapped = c2z at *
  generalize mulmod (mulmod m.kk.x m.kk.y modulus) _ modulus = ct at *
  rw [residue_mulmod, residue_mulmod] at sum difference
  rw [residue_mulmod] at twice
  rw [residue_mulmod, residue_twice_d] at scaled
  have rows : ∀ kk, (i + 1 < 8 → Represented kk ((8 + (i + 1)) • A)) →
      Filled A (i + 1) ⟨kk, mulmod m.cprod c2z modulus, m.tables.fill i cs cd ct c2z m.cprod⟩ := by
    intro kk next
    set tables := m.tables.fill i cs cd ct c2z m.cprod with filling
    have older (j : Nat) (below : j < i) (table column : Nat) :
        tables table column j = m.tables table column j :=
      m.tables.fill_of_ne (by omega) _ _ _ _ _ _ _
    have denominator : tables 0 0 i = c2z := by simp [filling, Tables.fill, Tables.store]
    have factor : tables 0 1 i = m.cprod := by simp [filling, Tables.fill, Tables.store]
    have same : denominators tables i = denominators m.tables i :=
      denominators_congr fun j below => older j below 0 0
    refine ⟨next, ?_, ?_, ?_⟩
    · intro j below
      obtain earlier | rfl := Nat.lt_succ_iff_lt_or_eq.mp below
      · have row := filled.rows j earlier
        simpa only [Row, older j earlier] using row
      · exact row_fill represented _ _ sum difference scaled twice
    · intro j below
      change residue (tables 0 1 j) = denominators tables j
      obtain earlier | rfl := Nat.lt_succ_iff_lt_or_eq.mp below
      · rw [older j earlier, filled.prefixes j earlier]
        exact (denominators_congr fun l inner => older l (by omega) 0 0).symm
      · rw [factor, filled.product, same]
    · change residue (mulmod m.cprod c2z modulus) = denominators tables (i + 1)
      rw [residue_mulmod, filled.product, ← same, denominators, denominators, Finset.prod_range_succ,
        denominator]
  split
  case isTrue last => exact rows _ (by omega)
  case isFalse more =>
    apply rows
    intro _
    have added := EdwardsPoint.Represents.add represented caches
    rw [← succ_nsmul, Nat.add_assoc] at added
    simp only [value_unchecked, Represented]
    rw [residue_difference reduced reduced, residue_sum reduced reduced, residue_addmod, residue_addmod,
      residue_opposite reduced.le]
    simp only [residue_mulmod, sum, difference, twice]
    convert added using 1 <;> ring

/-- A row that is divided: its numbers are reduced and those of the source. -/
structure Divided (tables : Tables) (j : Nat) (P : Point) : Prop where
  reduced : ∀ column < 3, (tables 1 column j).toNat < p
  caches : EdwardsPoint.Caches 2⁻¹ (residue (tables 1 0 j)) (residue (tables 1 1 j))
    (residue (tables 1 2 j)) P

theorem Divided.values {tables : Tables} {j : Nat} {P : Point} (divided : Divided tables j P) :
    (tables 1 0 j).toNat = ((P.y + P.x) / 2).val ∧ (tables 1 1 j).toNat = ((P.y - P.x) / 2).val ∧
      (tables 1 2 j).toNat = (d * P.x * P.y).val := by
  obtain ⟨reduced, caches⟩ := divided
  have two := two_ne_zero
  refine ⟨?_, ?_, ?_⟩
  · rw [← val_residue (reduced 0 (by decide)), caches.sum_eq, div_eq_inv_mul]
  · rw [← val_residue (reduced 1 (by decide)), caches.difference_eq, div_eq_inv_mul]
  · rw [← val_residue (reduced 2 (by decide)), caches.product_eq, mul_inv_cancel₀ two, one_mul]

/-- Before the turn of the second loop that divides row `i - 1`. -/
structure Dividing (A : Point) (i : Nat) (state : Uint256 × Tables) : Prop where
  rows : ∀ j < i, Row state.2 j ((8 + j) • A)
  prefixes : ∀ j < i, residue (state.2 0 1 j) = denominators state.2 j
  inverse : 0 < i → residue state.1 * denominators state.2 i = 1
  divided : ∀ j < 8, i ≤ j → Divided state.2 j ((8 + j) • A)

/-- What a turn of the second loop does to its row. -/
def Tables.divideRow (tables : Tables) (i : Nat) (cinv : Uint256) : Tables :=
  ((tables.store 1 0 i (mulmod (tables 1 0 i) cinv modulus)).store 1 1 i
    (mulmod (tables 1 1 i) cinv modulus)).store 1 2 i (mulmod (tables 1 2 i) cinv modulus)

theorem divide_value (i : Nat) (cprod : Uint256) (tables : Tables) :
    (divide i (cprod, tables)).value =
      (if i = 0 then cprod else mulmod cprod (tables 0 0 i) modulus,
        tables.divideRow i (mulmod cprod (tables 0 1 i) modulus)) := by
  simp only [divide]
  split <;> simp [Tables.divideRow, Tables.store]

theorem Tables.divideRow_of_ne (tables : Tables) {i j : Nat} (other : j ≠ i) (cinv : Uint256)
    (table column : Nat) : tables.divideRow i cinv table column j = tables table column j := by
  simp [Tables.divideRow, Tables.store, other]

theorem Tables.divideRow_zero (tables : Tables) (i : Nat) (cinv : Uint256) (column j : Nat) :
    tables.divideRow i cinv 0 column j = tables 0 column j := by
  simp [Tables.divideRow, Tables.store]

theorem divided_divideRow {tables : Tables} {i : Nat} {P : Point} (row : Row tables i P) {cinv : Uint256}
    (cancels : residue cinv * residue (tables 0 0 i) = 1) : Divided (tables.divideRow i cinv) i P := by
  have entries : ∀ column < 3, tables.divideRow i cinv 1 column i = mulmod (tables 1 column i) cinv modulus := by
    intro column inside
    interval_cases column <;> simp [Tables.divideRow, Tables.store]
  refine ⟨?_, ?_⟩
  · intro column inside
    rw [entries column inside]
    exact toNat_mulmod_lt _ _
  · have scaled := row.scaled (left_ne_zero_of_mul_eq_one cancels)
    have half : residue (tables 0 0 i) / 2 * residue cinv = 2⁻¹ := by
      linear_combination 2⁻¹ * cancels
    rw [entries 0 (by decide), entries 1 (by decide), entries 2 (by decide)]
    simpa only [residue_mulmod, half] using scaled

theorem Dividing.turn {A : Point} {i : Nat} {state : Uint256 × Tables} (dividing : Dividing A (i + 1) state) :
    Dividing A i (divide i state).value := by
  obtain ⟨cprod, tables⟩ := state
  obtain ⟨rows, prefixes, inverse, divided⟩ := dividing
  have inverted := inverse (Nat.succ_pos i)
  rw [denominators, Finset.prod_range_succ, ← denominators, ← prefixes i (Nat.lt_succ_self i)] at inverted
  have cancels : residue (mulmod cprod (tables 0 1 i) modulus) * residue (tables 0 0 i) = 1 := by
    rw [residue_mulmod]
    linear_combination inverted
  rw [divide_value]
  generalize mulmod cprod (tables 0 1 i) modulus = cinv at cancels
  have same (j : Nat) : denominators (tables.divideRow i cinv) j = denominators tables j :=
    denominators_congr fun l _ => tables.divideRow_zero i cinv 0 l
  refine ⟨?_, ?_, ?_, ?_⟩
  · intro j below
    have row := rows j (by omega)
    simpa only [Row, tables.divideRow_of_ne (by omega : j ≠ i)] using row
  · intro j below
    change residue (tables.divideRow i cinv 0 1 j) = denominators (tables.divideRow i cinv) j
    rw [tables.divideRow_zero, same]
    exact prefixes j (by omega)
  · intro positive
    change residue (if i = 0 then cprod else mulmod cprod (tables 0 0 i) modulus) *
      denominators (tables.divideRow i cinv) i = 1
    rw [if_neg (by omega), residue_mulmod, same, ← prefixes i (Nat.lt_succ_self i)]
    linear_combination inverted
  · intro j inside above
    obtain rfl | later := Nat.eq_or_lt_of_le above
    · exact divided_divideRow (rows i (Nat.lt_succ_self i)) cancels
    · obtain ⟨reduced, caches⟩ := divided j inside later
      refine ⟨?_, ?_⟩
      · simpa only [tables.divideRow_of_ne (by omega : j ≠ i)] using reduced
      · simpa only [tables.divideRow_of_ne (by omega : j ≠ i)] using caches

/-- The key's point as step 3 receives it: the coordinates may be unreduced. -/
structure KeyWords where
  kx : Uint256
  ky : Uint256
  point : Point
  kx_le : kx.toNat ≤ p
  ky_lt : ky.toNat < 2 ^ 255
  x_eq : residue kx = point.x
  y_eq : residue ky = point.y

namespace KeyWords

theorem exists_point (A : Point) : ∃ key : KeyWords, key.point = A := by
  have words (a : Fp) : (BitVec.ofNat 256 a.val : Uint256).toNat = a.val := by
    have small := ZMod.val_lt a
    have bound := p_lt
    rw [BitVec.toNat_ofNat, Nat.mod_eq_of_lt (by omega)]
  refine ⟨⟨BitVec.ofNat 256 A.x.val, BitVec.ofNat 256 A.y.val, A, ?_, ?_, ?_, ?_⟩, rfl⟩
  · rw [words]
    exact (ZMod.val_lt A.x).le
  · rw [words]
    exact (ZMod.val_lt A.y).trans p_lt
  · rw [residue, words, ZMod.natCast_zmod_val]
  · rw [residue, words, ZMod.natCast_zmod_val]

variable (key : KeyWords)

theorem isExact_add : (.word key.ky + .word key.kx : Linear).IsExact := by
  have bound := p_lt
  have := key.kx_le
  have := key.ky_lt
  rw [Linear.isExact_iff, Linear.exact_add, Linear.exact_word, Linear.exact_word]
  constructor <;> omega

theorem isExact_sub : (.word key.ky + .word modulus - .word key.kx : Linear).IsExact := by
  have bound := p_lt
  have := key.kx_le
  have := key.ky_lt
  rw [Linear.isExact_iff, Linear.exact_sub, Linear.exact_add, Linear.exact_word, Linear.exact_word,
    Linear.exact_word, modulus_toNat]
  constructor <;> omega

theorem represented : Represented ⟨key.kx, 1, key.ky, 1⟩ key.point := by
  have affine := EdwardsPoint.represents_affine key.point
  rw [← key.x_eq, ← key.y_eq] at affine
  simpa only [Represented, residue_one] using affine

/-- The key's point as the first loop adds it. -/
theorem caches :
    EdwardsPoint.Caches 1 (residue (.word key.ky + .word key.kx : Linear).wrapped)
      (residue (.word key.ky + .word modulus - .word key.kx : Linear).wrapped)
      (residue (mulmod (mulmod key.kx key.ky modulus)
        0x2406d9dc_56dffce7_198e80f2_eef3d130_00e0149a_8283b156_ebd69b94_26b2f159 modulus)) key.point := by
  refine ⟨one_ne_zero, ?_, ?_, ?_⟩
  · rw [residue_wrapped key.isExact_add, Linear.exact_add, Linear.exact_word, Linear.exact_word,
      Int.cast_add, Int.cast_natCast, Int.cast_natCast, ← residue, ← residue, key.x_eq, key.y_eq, one_mul]
  · rw [residue_wrapped key.isExact_sub, Linear.exact_sub, Linear.exact_add, Linear.exact_word,
      Linear.exact_word, Linear.exact_word, modulus_toNat, Int.cast_sub, Int.cast_add, Int.cast_natCast,
      Int.cast_natCast, Int.cast_natCast, ZMod.natCast_self, ← residue, ← residue, key.x_eq, key.y_eq]
    ring
  · rw [residue_mulmod, residue_mulmod, residue_twice_d, key.x_eq, key.y_eq]
    ring

theorem multiples_exact : (multiples key.kx key.ky).Exact := by
  unfold multiples
  simp only [Traced.exact_bind, exact_unchecked, Traced.exact_pure, and_true]
  exact ⟨key.isExact_add, key.isExact_sub, double_exact _, double_exact _, double_exact _,
    countUp_exact (multiple_exact _ _ _) (by decide) _, countDown_exact divide_exact (by decide) _⟩

/-- Before the first loop eight times the point is computed. -/
theorem filled_start {q : Fractions} (represented : Represented q (8 • key.point)) :
    Filled key.point 0 ⟨q, 1, fun _ _ _ => 0⟩ where
  next _ := represented
  rows _ below := absurd below (Nat.not_lt_zero _)
  prefixes _ below := absurd below (Nat.not_lt_zero _)
  product := by rw [residue_one, denominators, Finset.range_zero, Finset.prod_empty]

theorem Filled.dividing {A : Point} {m : Multiples} (filled : Filled A 8 m) :
    Dividing A 8 (invert m.cprod, m.tables) where
  rows := filled.rows
  prefixes := filled.prefixes
  inverse _ := by
    have nonzero : denominators m.tables 8 ≠ 0 := by
      rw [denominators, Finset.prod_ne_zero_iff]
      intro j inside zero
      have scale := (filled.rows j (Finset.mem_range.mp inside)).scale
      rw [zero, zero_div] at scale
      exact scale rfl
    rw [residue_invert, filled.product, inv_mul_cancel₀ nonzero]
  divided _ inside above := absurd inside (Nat.not_lt.mpr above)

theorem multiples_divided {j : Nat} (inside : j < 8) :
    Divided (multiples key.kx key.ky).value j ((8 + j) • key.point) := by
  have caches := key.caches
  have octuple := key.represented.double.double.double
  have eight : key.point + key.point + (key.point + key.point) +
      (key.point + key.point + (key.point + key.point)) = 8 • key.point := by
    abel
  rw [eight] at octuple
  unfold multiples
  rw [Traced.value_bind, value_unchecked, Traced.value_bind, value_unchecked]
  generalize (.word key.ky + .word key.kx : Linear).wrapped = ks at *
  generalize (.word key.ky + .word modulus - .word key.kx : Linear).wrapped = kd at *
  generalize mulmod (mulmod key.kx key.ky modulus) _ modulus = k2dt at *
  rw [Traced.value_bind, Traced.value_bind, Traced.value_bind]
  generalize (double (double (double ⟨key.kx, 1, key.ky, 1⟩).value).value).value = q at *
  have filled := @countUp_invariant Multiples (multiple ks kd k2dt) (fun i m => i ≤ 8 → Filled key.point i m)
    (fun i m before inside => (before (by omega)).turn (by omega) caches) 7 0 _
    (fun _ => key.filled_start octuple)
  have dividing := Filled.dividing (filled le_rfl)
  rw [Traced.value_bind]
  generalize (countUp (multiple ks kd k2dt) 7 0 ⟨q, 1, fun _ _ _ => 0⟩).value = m at *
  obtain ⟨last, before, same⟩ := @countDown_invariant (Uint256 × Tables) divide
    (fun i state => Dividing key.point (i + 1) state) (fun i state before => before.turn) 7 _ dividing
  rw [Traced.value_bind, same]
  have divided := before.turn.divided j inside (Nat.zero_le j)
  generalize (divide 0 last).value = final at *
  exact ⟨divided.reduced, divided.caches⟩

theorem multiples_base (column j : Nat) :
    (multiples key.kx key.ky).value 0 column j = (baseTable.getD column []).getD j 0 :=
  rfl

end KeyWords

theorem exponentiation_and_normalisation :
    (∀ v : Uint256,
      (pow22501 v).1.toNat = v.toNat ^ (2 ^ 250 - 1) % p ∧ (pow22501 v).2.toNat = v.toNat ^ 11 % p) ∧
    (∀ v : Uint256, (invert v).toNat * v.toNat % p = if v.toNat % p = 0 then 0 else 1) ∧
    (∀ ky : Uint256, match (squareRoot ky).value with
      | some kx => residue kx ^ 2 = (residue ky ^ 2 - 1) / (d * residue ky ^ 2 + 1)
      | none => ∀ x : Fp, x ^ 2 ≠ (residue ky ^ 2 - 1) / (d * residue ky ^ 2 + 1)) ∧
    (∀ A : Point, ∃ key : KeyWords, key.point = A) ∧
    ∀ (key : KeyWords) (j : Fin 8),
      let P := (8 + j.val) • key.point
      let tables := (multiples key.kx key.ky).value
      (tables 1 0 j).toNat = ((P.y + P.x) / 2).val ∧ (tables 1 1 j).toNat = ((P.y - P.x) / 2).val ∧
        (tables 1 2 j).toNat = (d * P.x * P.y).val := by
  refine ⟨toNat_pow22501, invert_mul, ?_, KeyWords.exists_point, fun key j =>
    (key.multiples_divided j.isLt).values⟩
  intro ky
  have spec := (squareRoot_spec ky).2
  split
  case h_1 kx found =>
    rw [found] at spec
    exact spec.2
  case h_2 notFound =>
    rw [notFound] at spec
    intro x root
    exact spec ⟨x, by rw [← pow_two, root, abscissaSq]⟩

end RainbowBridge.Ed25519
