import RainbowBridge.Ed25519.DoubleScalar
import RainbowBridge.Ed25519.Hash
import RainbowBridge.Ed25519.Multiples

/-! `Ed25519.check` is the verification of a signature: the coordinates of step 4
represent the points of the group, and the encodings of step 5 are canonical. -/

namespace RainbowBridge.Ed25519

open RainbowBridge.Lib
open RainbowBridge.Solidity

/-! The formulas of step 4. -/

section Formulas

variable {tables : Tables} {q : Fractions} {P Q : Point}

theorem reduced {a b : Uint256} : (mulmod a b modulus).toNat < p := toNat_mulmod_lt a b

theorem widen_exact (q : Fractions) : (widen q).Exact := by
  unfold widen
  simp only [Traced.exact_bind, exact_unchecked, Traced.exact_pure, and_true]
  exact ⟨isExact_sum reduced reduced, isExact_difference reduced reduced⟩

theorem addMultiple_exact (tables : Tables) (j : Nat) (q : Fractions) : (addMultiple tables j q).Exact := by
  unfold addMultiple
  simp only [Traced.exact_bind, exact_unchecked, Traced.exact_pure, and_true]
  exact ⟨widen_exact q, isExact_difference reduced reduced, isExact_sum reduced reduced,
    isExact_sum reduced reduced, isExact_difference reduced reduced⟩

theorem subMultiple_exact (tables : Tables) (j : Nat) (q : Fractions) : (subMultiple tables j q).Exact := by
  unfold subMultiple
  simp only [Traced.exact_bind, exact_unchecked, Traced.exact_pure, and_true]
  exact ⟨widen_exact q, isExact_difference reduced reduced, isExact_difference reduced reduced,
    isExact_sum reduced reduced, isExact_sum reduced reduced⟩

theorem coordinates_exact (tables : Tables) : (coordinates tables).IsExact :=
  ⟨addMultiple_exact tables, subMultiple_exact tables, double_exact⟩

theorem Represented.addMultiple (represented : Represented q P) {j : Nat}
    (caches : EdwardsPoint.Caches 2⁻¹ (residue (tables 0 0 j)) (residue (tables 0 1 j))
      (residue (tables 0 2 j)) Q) : Represented (addMultiple tables j q).value (P + Q) := by
  have added := EdwardsPoint.Represents.add represented caches
  unfold Ed25519.addMultiple widen
  simp only [Traced.value_bind, value_unchecked, Traced.value_pure, Represented]
  rw [residue_difference reduced reduced, residue_sum reduced reduced, residue_sum reduced reduced,
    residue_difference reduced reduced]
  simp only [residue_mulmod]
  rw [residue_difference reduced reduced, residue_sum reduced reduced]
  simp only [residue_mulmod]
  rw [mul_inv_cancel₀ two_ne_zero, one_mul] at added
  exact added

theorem Represented.subMultiple (represented : Represented q P) {j : Nat}
    (caches : EdwardsPoint.Caches 2⁻¹ (residue (tables 1 0 j)) (residue (tables 1 1 j))
      (residue (tables 1 2 j)) Q) : Represented (subMultiple tables j q).value (P - Q) := by
  have subtracted := EdwardsPoint.Represents.sub represented caches
  unfold Ed25519.subMultiple widen
  simp only [Traced.value_bind, value_unchecked, Traced.value_pure, Represented]
  rw [residue_difference reduced reduced, residue_difference reduced reduced, residue_sum reduced reduced,
    residue_sum reduced reduced]
  simp only [residue_mulmod]
  rw [residue_difference reduced reduced, residue_sum reduced reduced]
  simp only [residue_mulmod]
  rw [mul_inv_cancel₀ two_ne_zero, one_mul] at subtracted
  exact subtracted

end Formulas

/-! The table of the base point. -/

/-- The point of odd order that is an eighth of the base point. -/
def eighth : Point :=
  pointOf 35604061283131262236237912080593388040538131583714990752973521819155773715252
    27851808521341356751558414065160235650345903714080310552172372736657214748571 (by decide)

theorem eight_nsmul_eighth : 8 • eighth = basePoint := by
  apply (EdwardsPoint.represents_multiplied eighth 4 8 (by decide)).eq_of_mul
  · decide
  · decide

/-- The entry of a row of the table. -/
def baseEntry (column j : Nat) : Fp := residue ((baseTable.getD column []).getD j 0)

theorem caches_baseTable {j : Nat} (inside : j < 8) :
    EdwardsPoint.Caches 2⁻¹ (baseEntry 0 j) (baseEntry 1 j) (baseEntry 2 j) ((8 + j) • eighth) := by
  have entries : ∀ j < 8,
      let q := EdwardsPoint.multiplied eighth 4 (8 + j)
      baseEntry 0 j * (2 * (q.u * q.v)) = q.y * q.u + q.x * q.v ∧
        baseEntry 1 j * (2 * (q.u * q.v)) = q.y * q.u - q.x * q.v ∧
          baseEntry 2 j * (2 * (q.u * q.v)) = q.x * q.y * (2 * d) := by
    decide
  obtain ⟨sum, difference, product⟩ := entries j inside
  exact (EdwardsPoint.represents_multiplied eighth 4 (8 + j) (by omega)).caches_of_mul sum difference product

theorem coordinates_simulates (key : KeyWords) :
    Simulates Represented (coordinates (multiples key.kx key.ky).value)
      (groupOps (fun j => (8 + j) • eighth) fun j => (8 + j) • key.point) where
  addMultiple j inside q P same := by
    apply Represented.addMultiple same
    simp only [key.multiples_base]
    exact caches_baseTable inside
  subMultiple j inside q P same := same.subMultiple (key.multiples_divided inside).caches
  double q P same := same.double

theorem represented_combine (key : KeyWords) {s h : Uint256} (sSmall : s.toNat < L) (hSmall : h.toNat < L) :
    Represented (combine (coordinates (multiples key.kx key.ky).value) ⟨0, 1, 1, 1⟩ s h).value
      (s.toNat • basePoint - h.toNat • key.point) := by
  have identity : Represented ⟨0, 1, 1, 1⟩ 0 := by
    have affine := EdwardsPoint.represents_affine (0 : Point)
    simpa only [Represented, residue_one, residue_zero, EdwardsPoint.zero_x, EdwardsPoint.zero_y] using affine
  have related := combine_simulates (coordinates_simulates key) identity s h
  rw [combine_group (fun _ _ => rfl) (fun _ _ => rfl) (nsmul_order key.point) sSmall hSmall, mul_nsmul,
    eight_nsmul_eighth] at related
  exact related

/-! Decoding the key. -/

/-- The bytes are a point: its ordinate in all but the top bit, in that the sign of
its abscissa. -/
def Decodes (k : Bytes32) (A : Point) : Prop :=
  A.y = (leNat k.toList % 2 ^ 255 : Nat) ∧ (A.x = 0 ∨ odd A.x = (leNat k.toList / 2 ^ 255 == 1))

theorem Decodes.unique {k : Bytes32} {A A' : Point} (first : Decodes k A) (second : Decodes k A') : A = A' := by
  apply EdwardsPoint.eq_of_sign odd_neg (first.1.trans second.1.symm)
  obtain zero | sign := first.2
  · exact .inl zero
  · obtain zero | sign' := second.2
    · exact .inr (.inl zero)
    · exact .inr (.inr (sign.trans sign'.symm))

theorem withSign_spec (k : Uint256) {kx : Uint256} (small : kx.toNat < p) :
    (withSign k kx).Exact ∧ (withSign k kx).value.toNat ≤ p ∧
      residue (withSign k kx).value ^ 2 = residue kx ^ 2 ∧
      (residue (withSign k kx).value = 0 ∨ odd (residue (withSign k kx).value) = (k.toNat / 2 ^ 255 == 1)) := by
  have parity : (kx &&& (1 : Uint256)).toNat = kx.toNat % 2 := by
    rw [BitVec.toNat_and]
    exact Nat.and_one_is_mod _
  have top : (k >>> 255).toNat = k.toNat / 2 ^ 255 := by
    rw [BitVec.toNat_ushiftRight, Nat.shiftRight_eq_div_pow]
  have bit : k.toNat / 2 ^ 255 < 2 := by
    rw [Nat.div_lt_iff_lt_mul (Nat.two_pow_pos _)]
    exact k.isLt
  have same : kx &&& (1 : Uint256) = k >>> 255 ↔ kx.toNat % 2 = k.toNat / 2 ^ 255 := by
    rw [← parity, ← top, BitVec.toNat_inj]
  unfold withSign
  split
  case isTrue differ =>
    rw [ne_eq, same] at differ
    rw [value_unchecked, exact_unchecked, residue_opposite small.le, toNat_opposite small.le]
    refine ⟨isExact_opposite small.le, Nat.sub_le _ _, neg_sq _, ?_⟩
    by_cases zero : residue kx = 0
    · left
      rw [zero, neg_zero]
    · right
      have flipped := odd_neg _ zero
      have own : odd (residue kx) = (kx.toNat % 2 == 1) := by rw [odd, val_residue small]
      rw [own] at flipped
      have other : (k.toNat / 2 ^ 255 == 1) = !(kx.toNat % 2 == 1) := by
        rw [Bool.eq_iff_iff, beq_iff_eq, Bool.not_eq_true', beq_eq_false_iff_ne]
        omega
      rw [other]
      exact Bool.eq_not.mpr flipped
  case isFalse agree =>
    rw [not_not, same] at agree
    refine ⟨Traced.exact_pure _, small.le, rfl, .inr ?_⟩
    rw [Traced.value_pure, odd, val_residue small, agree]

theorem toNat_ordinate (k : Uint256) : (ordinate k).toNat = k.toNat % 2 ^ 255 := by
  rw [ordinate, BitVec.toNat_and]
  exact Nat.and_two_pow_sub_one_eq_mod _ 255

theorem not_decodes {k : Bytes32} (none : (squareRoot (ordinate (reverseBytes (uint256 k)))).value = none)
    (A : Point) : ¬ Decodes k A := by
  intro decodes
  have noRoot := (squareRoot_spec (ordinate (reverseBytes (uint256 k)))).2
  rw [none] at noRoot
  apply noRoot
  refine ⟨A.x, ?_⟩
  rw [← pow_two, A.x_sq_eq, decodes.1, residue, toNat_ordinate, toNat_reverseBytes]
  rfl

/-- What step 2 computes from a key is the point that the key decodes to. -/
theorem exists_key {k : Bytes32} {kx : Uint256}
    (root : (squareRoot (ordinate (reverseBytes (uint256 k)))).value = some kx) :
    ∃ key : KeyWords, key.kx = (withSign (reverseBytes (uint256 k)) kx).value ∧
      key.ky = ordinate (reverseBytes (uint256 k)) ∧ Decodes k key.point := by
  have spec := (squareRoot_spec (ordinate (reverseBytes (uint256 k)))).2
  rw [root] at spec
  obtain ⟨small, square⟩ := spec
  obtain ⟨-, bound, same, sign⟩ := withSign_spec (reverseBytes (uint256 k)) small
  have below : (ordinate (reverseBytes (uint256 k))).toNat < 2 ^ 255 := by
    rw [toNat_ordinate]
    exact Nat.mod_lt _ (Nat.two_pow_pos _)
  refine ⟨⟨_, _, EdwardsPoint.ofRoot _ _ (same.trans square), bound, below, rfl, rfl⟩, rfl, rfl, ?_, ?_⟩
  · change residue _ = _
    rw [residue, toNat_ordinate, toNat_reverseBytes]
  · rw [toNat_reverseBytes] at sign
    exact sign

/-! Encoding the result. -/

/-- The canonical encoding of a point in 32 bytes. -/
def encoding (P : Point) : Bytes := leBytes 32 (P.y.val + 2 ^ 255 * (P.x.val % 2))

theorem reverseBytes_reverseBytes (w : Uint256) : reverseBytes (reverseBytes w) = w := by
  apply BitVec.eq_of_getLsbD_eq
  intro j inside
  have other : j ^^^ 248 < 256 := Nat.xor_lt_two_pow inside (by decide : 248 < 2 ^ 8)
  rw [getLsbD_reverseBytes _ inside, getLsbD_reverseBytes _ other, Nat.xor_assoc, Nat.xor_self, Nat.xor_zero]

theorem toNat_encode {q : Fractions} {P : Point} (represented : Represented q P) :
    (reverseBytes (encode q)).toNat = P.y.val + 2 ^ 255 * (P.x.val % 2) := by
  obtain ⟨u_ne_zero, v_ne_zero, x_eq, y_eq⟩ := represented
  unfold encode
  extract_lets vi vx vy
  have inverse : residue vi = (residue q.u * residue q.v)⁻¹ := by rw [residue_invert, residue_mulmod]
  have abscissa : vx.toNat = P.x.val := by
    have value : residue vx = P.x := by
      simp only [vx, residue_mulmod, inverse, x_eq]
      field_simp
    rw [← value, val_residue reduced]
  have ordinate : vy.toNat = P.y.val := by
    have value : residue vy = P.y := by
      simp only [vy, residue_mulmod, inverse, y_eq]
      field_simp
    rw [← value, val_residue reduced]
  have low : P.y.val < 2 ^ 255 := (ZMod.val_lt P.y).trans p_lt
  have top : P.x.val * 2 ^ 255 % 2 ^ 256 = 2 ^ 255 * (P.x.val % 2) := by
    rw [show (2 : Nat) ^ 256 = 2 * 2 ^ 255 from pow_succ' 2 255, Nat.mul_mod_mul_right, Nat.mul_comm]
  rw [reverseBytes_reverseBytes, BitVec.toNat_or, BitVec.toNat_shiftLeft, Nat.shiftLeft_eq, abscissa, ordinate,
    top, Nat.or_comm, ← Nat.two_pow_add_eq_or_of_lt low, Nat.add_comm]

theorem encode_eq_iff {q : Fractions} {P : Point} (represented : Represented q P) (r : Bytes32) :
    encode q = uint256 r ↔ r.toList = encoding P := by
  have number := toNat_encode represented
  constructor
  · intro same
    rw [same, toNat_reverseBytes] at number
    have bytes := leBytes_leNat r.toList
    rw [List.Vector.toList_length, number] at bytes
    exact bytes.symm
  · intro same
    have fits : P.y.val + 2 ^ 255 * (P.x.val % 2) < 256 ^ 32 := by
      rw [← number]
      exact BitVec.isLt _
    have mirrored : reverseBytes (encode q) = reverseBytes (uint256 r) := by
      apply BitVec.eq_of_toNat_eq
      rw [number, toNat_reverseBytes, same, encoding, leNat_leBytes _ _ fits]
    rw [← reverseBytes_reverseBytes (encode q), mirrored, reverseBytes_reverseBytes]

/-! The whole of the check. -/

/-- The number that binds a signature to its message. -/
def challenge (k r m1 : Bytes32) (m2 : FixedBytes 9) : Nat :=
  leNat (Sha512.hash (r.toList ++ k.toList ++ m1.toList ++ m2.toList)).toList % L

/-- Step 1 is SHA-512 modulo the order. -/
theorem packed_hash_eq_challenge (k r m1 : Bytes32) (m2 : FixedBytes 9) :
    (hashModOrder k r m1 m2).toNat = challenge k r m1 m2 :=
  hashModOrder_eq k r m1 m2

/-- Verification without the cofactor. -/
def Verifies (k r s m1 : Bytes32) (m2 : FixedBytes 9) : Prop :=
  leNat s.toList < L ∧
    ∃ A, Decodes k A ∧ r.toList = encoding (leNat s.toList • basePoint - challenge k r m1 m2 • A)

theorem comparePoints_exact (key : KeyWords) (r : Bytes32) (s : Uint256) {hh : Uint256} (small : hh.toNat < L) :
    (comparePoints key.kx key.ky r s hh).Exact := by
  unfold comparePoints
  rw [Traced.exact_bind, Traced.exact_bind]
  exact ⟨key.multiples_exact, combine_exact (coordinates_exact _) _ _ small, Traced.exact_pure _⟩

theorem comparePoints_iff (key : KeyWords) (r : Bytes32) {s hh : Uint256} (sSmall : s.toNat < L) (hSmall : hh.toNat < L) :
    (comparePoints key.kx key.ky r s hh).value = true ↔
      r.toList = encoding (s.toNat • basePoint - hh.toNat • key.point) := by
  unfold comparePoints
  rw [Traced.value_bind, Traced.value_bind, Traced.value_pure, beq_iff_eq]
  exact encode_eq_iff (represented_combine key sSmall hSmall) r

theorem check_verifies (k r s m1 : Bytes32) (m2 : FixedBytes 9) :
    (check k r s m1 m2).Exact ∧ ((check k r s m1 m2).value = true ↔ Verifies k r s m1 m2) := by
  have small : (hashModOrder k r m1 m2).toNat < L := by
    rw [hashModOrder_eq]
    exact Nat.mod_lt _ prime_L.pos
  have scalar := toNat_reverseBytes s
  have inOrder : reverseBytes (uint256 s) ≥ order ↔ ¬ leNat s.toList < L := by
    rw [← scalar, ge_iff_le, BitVec.le_def, order_toNat, Nat.not_lt]
  have rootExact := (squareRoot_spec (ordinate (reverseBytes (uint256 k)))).1
  unfold check
  rw [Traced.exact_bind, Traced.value_bind]
  split
  case h_1 noRoot =>
    refine ⟨⟨rootExact, Traced.exact_pure _⟩, ?_⟩
    constructor
    · intro verified
      cases verified
    · intro ⟨_, A, decodes, _⟩
      exact absurd decodes (not_decodes noRoot A)
  case h_2 kx root =>
    have spec := (squareRoot_spec (ordinate (reverseBytes (uint256 k)))).2
    rw [root] at spec
    obtain ⟨key, kx_eq, ky_eq, decodes⟩ := exists_key root
    have signExact := (withSign_spec (reverseBytes (uint256 k)) spec.1).1
    rw [← ky_eq] at rootExact
    rw [Traced.exact_bind, Traced.value_bind, ← kx_eq, ← ky_eq]
    split
    case isTrue tooLarge =>
      refine ⟨⟨rootExact, signExact, Traced.exact_pure _⟩, ?_⟩
      constructor
      · intro verified
        cases verified
      · intro ⟨inside, _⟩
        exact absurd inside (inOrder.mp tooLarge)
    case isFalse inside =>
      have below : leNat s.toList < L := by_contra fun above => inside (inOrder.mpr above)
      refine ⟨⟨rootExact, signExact, comparePoints_exact key r _ small⟩, ?_⟩
      rw [comparePoints_iff key r (scalar ▸ below) small, scalar, hashModOrder_eq]
      constructor
      · intro equal
        exact ⟨below, key.point, decodes, equal⟩
      · intro ⟨_, A, decodes', equal⟩
        rw [decodes.unique decodes']
        exact equal

end RainbowBridge.Ed25519
