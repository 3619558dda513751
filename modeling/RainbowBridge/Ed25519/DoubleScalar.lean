import RainbowBridge.Ed25519.Field
import RainbowBridge.Ed25519.Contract
import Mathlib.Algebra.Group.Basic
import Mathlib.Data.List.Count

/-! Step 4 of `Ed25519.check`, for any commutative group. The windows of a scalar make
up the scalar, and the accumulator is what the windows so far add up to. -/

namespace RainbowBridge.Ed25519

open RainbowBridge.Lib
open RainbowBridge.Solidity

/-! One window. -/

theorem slide_eq (i : Nat) (inside : i ≤ 252) (scalar : Uint256) :
    slide i scalar = if scalar.getLsbD (i + 3) then
      (some ((scalar >>> i) &&& 7).toNat, scalar &&& ~~~((7 : Uint256) <<< i)) else (none, scalar) := by
  have power : (8 : Uint256) <<< i = BitVec.twoPow 256 (i + 3) := by
    rw [BitVec.twoPow_eq, Nat.add_comm, BitVec.shiftLeft_add]
    rfl
  have nonzero : BitVec.twoPow 256 (i + 3) ≠ 0 := by
    intro zero
    have value := BitVec.toNat_twoPow_of_lt (by omega : i + 3 < 256)
    rw [zero] at value
    exact (Nat.two_pow_pos (i + 3)).ne value
  have bit : scalar &&& (8 : Uint256) <<< i ≠ 0 ↔ scalar.getLsbD (i + 3) = true := by
    rw [power, BitVec.and_twoPow]
    split
    case isTrue set => exact ⟨fun _ => set, fun _ => nonzero⟩
    case isFalse clear => exact ⟨fun other => absurd rfl other, fun set => absurd set clear⟩
  simp only [slide, bit]

theorem digit_toNat {i : Nat} {scalar : Uint256} (top : scalar.getLsbD (i + 3) = true) :
    8 + ((scalar >>> i) &&& 7).toNat = scalar.toNat / 2 ^ i % 16 := by
  have low : ((scalar >>> i) &&& 7).toNat = scalar.toNat / 2 ^ i % 8 := by
    rw [BitVec.toNat_and, BitVec.toNat_ushiftRight, Nat.shiftRight_eq_div_pow]
    exact Nat.and_two_pow_sub_one_eq_mod _ 3
  rw [← BitVec.testBit_toNat, Nat.testBit_eq_decide_div_mod_eq, decide_eq_true_iff, pow_add,
    ← Nat.div_div_eq_div_mul] at top
  omega

theorem getLsbD_cleared (i b : Nat) (scalar : Uint256) :
    (scalar &&& ~~~((7 : Uint256) <<< i)).getLsbD b =
      (scalar.getLsbD b && !(decide (i ≤ b) && decide (b < i + 3))) := by
  have seven (c : Nat) : (7 : Uint256).getLsbD c = decide (c < 3) := by
    rw [← BitVec.testBit_toNat]
    exact Nat.testBit_two_pow_sub_one 3 c
  by_cases inside : b < 256
  · rw [BitVec.getLsbD_and, BitVec.getLsbD_not, BitVec.getLsbD_shiftLeft, seven]
    simp only [inside, decide_true, Bool.true_and]
    congr 2
    rw [Bool.eq_iff_iff]
    simp only [Bool.and_eq_true, Bool.not_eq_true', decide_eq_true_eq, decide_eq_false_iff_not]
    omega
  · rw [BitVec.getLsbD_of_ge _ b (by omega), BitVec.getLsbD_of_ge scalar b (by omega), Bool.false_and]

/-! All the windows of a scalar. -/

/-- The windows that the turns from `i` on take: where they are and their low bits. -/
def windows : Nat → Uint256 → List (Nat × Nat)
  | 0, scalar => (slide 0 scalar).1.toList.map (0, ·)
  | i + 1, scalar => (slide (i + 1) scalar).1.toList.map (i + 1, ·) ++ windows i (slide (i + 1) scalar).2

/-- What these turns leave of the scalar. -/
def remainder : Nat → Uint256 → Uint256
  | 0, scalar => (slide 0 scalar).2
  | i + 1, scalar => remainder i (slide (i + 1) scalar).2

/-- What the windows contribute. -/
def weight (taken : List (Nat × Nat)) : Nat := (taken.map fun (i, j) => (8 + j) * 2 ^ i).sum

/-- Whether a window has a bit of the scalar set. -/
def consumes (b : Nat) (window : Nat × Nat) : Bool :=
  decide (window.1 ≤ b) && (8 + window.2).testBit (b - window.1)

theorem weight_slide {i : Nat} (inside : i ≤ 252) (scalar : Uint256) :
    weight ((slide i scalar).1.toList.map (i, ·)) + (slide i scalar).2.toNat % 2 ^ (i + 3) =
      scalar.toNat % 2 ^ (i + 4) := by
  rw [slide_eq i inside]
  split
  case isTrue top =>
    have cleared : (scalar &&& ~~~((7 : Uint256) <<< i)).toNat % 2 ^ (i + 3) = scalar.toNat % 2 ^ i := by
      apply Nat.eq_of_testBit_eq
      intro b
      rw [Nat.testBit_mod_two_pow, Nat.testBit_mod_two_pow, BitVec.testBit_toNat, BitVec.testBit_toNat,
        getLsbD_cleared, Bool.eq_iff_iff]
      simp only [Bool.and_eq_true, Bool.not_eq_true', decide_eq_true_eq, Bool.and_eq_false_iff,
        decide_eq_false_iff_not]
      constructor
      · intro ⟨below, set, outside⟩
        exact ⟨by omega, set⟩
      · intro ⟨below, set⟩
        exact ⟨by omega, set, by omega⟩
    have split := Nat.mod_mul (x := scalar.toNat) (a := 2 ^ i) (b := 16)
    rw [show 2 ^ i * 16 = 2 ^ (i + 4) from (pow_add 2 i 4).symm] at split
    simp only [weight, Option.toList_some, List.map_cons, List.map_nil, List.sum_cons, List.sum_nil]
    rw [cleared, digit_toNat top, split]
    ring
  case isFalse clear =>
    have same : scalar.toNat % 2 ^ (i + 4) = scalar.toNat % 2 ^ (i + 3) := by
      apply Nat.eq_of_testBit_eq
      intro b
      rw [Nat.testBit_mod_two_pow, Nat.testBit_mod_two_pow, BitVec.testBit_toNat]
      by_cases last : b = i + 3
      · simp [last, clear]
      · have : b < i + 4 ↔ b < i + 3 := by omega
        simp only [this]
    simp [weight, same]

theorem weight_append (front back : List (Nat × Nat)) : weight (front ++ back) = weight front + weight back := by
  simp [weight]

/-- The windows and the last three bits make up the scalar. -/
theorem weight_windows {i : Nat} (inside : i ≤ 252) (scalar : Uint256) :
    weight (windows i scalar) + (remainder i scalar).toNat % 8 = scalar.toNat % 2 ^ (i + 4) := by
  induction i generalizing scalar with
  | zero => exact weight_slide inside scalar
  | succ i ih =>
    rw [windows, remainder, weight_append, Nat.add_assoc, ih (by omega), weight_slide inside]

theorem consumes_digit {i b : Nat} {scalar : Uint256} (top : scalar.getLsbD (i + 3) = true) :
    consumes b (i, ((scalar >>> i) &&& 7).toNat) =
      (decide (i ≤ b) && (decide (b < i + 4) && scalar.getLsbD b)) := by
  rw [consumes, digit_toNat top]
  by_cases above : i ≤ b
  · have digit : (scalar.toNat / 2 ^ i % 16).testBit (b - i) =
        (decide (b - i < 4) && scalar.toNat.testBit (i + (b - i))) := by
      rw [show 16 = 2 ^ 4 from rfl, Nat.testBit_mod_two_pow, Nat.testBit_div_two_pow, Nat.add_comm]
    have position : b - i < 4 ↔ b < i + 4 := by omega
    simp only [digit, position, Nat.add_sub_cancel' above, BitVec.testBit_toNat]
  · simp [above]

theorem count_slide {i : Nat} (inside : i ≤ 252) (scalar : Uint256) (b : Nat) :
    ((slide i scalar).1.toList.map (i, ·)).countP (consumes b) +
        (if b < i + 3 ∧ (slide i scalar).2.getLsbD b = true then 1 else 0) =
      if b < i + 4 ∧ scalar.getLsbD b = true then 1 else 0 := by
  rw [slide_eq i inside]
  split
  case isTrue top =>
    simp only [Option.toList_some, List.map_cons, List.map_nil, List.countP_cons, List.countP_nil,
      consumes_digit top, getLsbD_cleared, Bool.and_eq_true, Bool.not_eq_true', decide_eq_true_eq,
      Bool.and_eq_false_iff, decide_eq_false_iff_not]
    by_cases set : scalar.getLsbD b = true
    · simp only [set, and_true, true_and]
      split_ifs <;> omega
    · simp [set]
  case isFalse clear =>
    by_cases last : b = i + 3
    · simp [last, clear]
    · have : b < i + 4 ↔ b < i + 3 := by omega
      simp [this]

/-- Each set bit is in one window or among the last three, and in no other. -/
theorem count_windows {i : Nat} (inside : i ≤ 252) (scalar : Uint256) (b : Nat) :
    (windows i scalar).countP (consumes b) +
        (if b < 3 ∧ (remainder i scalar).getLsbD b = true then 1 else 0) =
      if b < i + 4 ∧ scalar.getLsbD b = true then 1 else 0 := by
  induction i generalizing scalar with
  | zero => exact count_slide inside scalar b
  | succ i ih =>
    rw [windows, remainder, List.countP_append, Nat.add_assoc, ih (by omega), count_slide inside]

theorem offset_toNat :
    (0x80000000_00000000_00000000_00000000_a6f7cef5_17bce6b2_c09318d2_e7ae9f60 : Uint256).toNat = 8 * L - 8 := by
  decide

theorem isExact_offset {h : Uint256} (small : h.toNat < L) :
    (.word h + .word 0x80000000_00000000_00000000_00000000_a6f7cef5_17bce6b2_c09318d2_e7ae9f60 :
      Linear).IsExact := by
  have bound : 9 * L < 2 ^ 256 := by decide
  rw [Linear.isExact_iff, Linear.exact_add, Linear.exact_word, Linear.exact_word, offset_toNat]
  constructor <;> omega

theorem toNat_offset {h : Uint256} (small : h.toNat < L) :
    (.word h + .word 0x80000000_00000000_00000000_00000000_a6f7cef5_17bce6b2_c09318d2_e7ae9f60 :
      Linear).wrapped.toNat = h.toNat + (8 * L - 8) := by
  have same := isExact_offset small
  rw [Linear.IsExact, Linear.exact_add, Linear.exact_word, Linear.exact_word, offset_toNat] at same
  omega

/-! The loop for any operations: it is exact when they are, and what they preserve of
two kinds of points the loop preserves. -/

section Loop

/-- Every sum of the operations is exact. -/
structure PointOps.IsExact {Point : Type} (ops : PointOps Point) : Prop where
  addMultiple : ∀ j v, (ops.addMultiple j v).Exact
  subMultiple : ∀ j v, (ops.subMultiple j v).Exact
  double : ∀ v, (ops.double v).Exact

theorem window_exact {Point : Type} {ops : PointOps Point} (exact : ops.IsExact) (i : Nat)
    (state : Window Point) : (window ops i state).Exact := by
  unfold window
  generalize slide i state.ss = first
  generalize slide i state.hhh = second
  obtain ⟨_ | j, ss⟩ := first <;> obtain ⟨_ | l, hhh⟩ := second <;> dsimp only <;> split <;>
    simp [exact.addMultiple, exact.subMultiple, exact.double]

/-- Related points stay related. -/
structure Simulates {Point Point' : Type} (related : Point → Point' → Prop) (ops : PointOps Point)
    (ops' : PointOps Point') : Prop where
  addMultiple : ∀ j < 8, ∀ v v', related v v' →
    related (ops.addMultiple j v).value (ops'.addMultiple j v').value
  subMultiple : ∀ j < 8, ∀ v v', related v v' →
    related (ops.subMultiple j v).value (ops'.subMultiple j v').value
  double : ∀ v v', related v v' → related (ops.double v).value (ops'.double v').value

variable {Point Point' : Type} {related : Point → Point' → Prop} {ops : PointOps Point} {ops' : PointOps Point'}

theorem low_lt (scalar : Uint256) : (scalar &&& 7).toNat < 8 := by
  have low : (scalar &&& 7).toNat = scalar.toNat % 8 := by
    rw [BitVec.toNat_and]
    exact Nat.and_two_pow_sub_one_eq_mod _ 3
  omega

theorem slide_lt {i j : Nat} {scalar rest : Uint256} (taken : slide i scalar = (some j, rest)) : j < 8 := by
  simp only [slide] at taken
  split at taken
  case isTrue =>
    cases taken
    exact low_lt _
  case isFalse => cases taken

/-- The scalars are the same and the points related. -/
structure RelatedWindows (related : Point → Point' → Prop) (state : Window Point) (state' : Window Point') :
    Prop where
  ss : state.ss = state'.ss
  hhh : state.hhh = state'.hhh
  vv : related state.vv state'.vv

/-- One of the operations, if there is a window. -/
def apply (operation : Nat → Point → Traced Point) (digit : Option Nat) (v : Point) : Traced Point :=
  match digit with
  | some j => operation j v
  | none => pure v

/-- The point after the windows of turn `i`. -/
def accumulate (ops : PointOps Point) (i : Nat) (state : Window Point) : Point :=
  (apply ops.subMultiple (slide i state.hhh).1 (apply ops.addMultiple (slide i state.ss).1 state.vv).value).value

theorem window_value (ops : PointOps Point) (i : Nat) (state : Window Point) :
    (window ops i state).value =
      ⟨(slide i state.ss).2, (slide i state.hhh).2,
        if i = 0 then (ops.subMultiple ((slide i state.hhh).2 &&& 7).toNat (accumulate ops i state)).value
        else (ops.double (accumulate ops i state)).value⟩ := by
  unfold window accumulate
  generalize slide i state.ss = first
  generalize slide i state.hhh = second
  obtain ⟨_ | j, ss⟩ := first <;> obtain ⟨_ | l, hhh⟩ := second <;> dsimp only [apply] <;> split <;> rfl

theorem apply_simulates {operation : Nat → Point → Traced Point} {operation' : Nat → Point' → Traced Point'}
    (simulates : ∀ j < 8, ∀ v v', related v v' → related (operation j v).value (operation' j v').value)
    (i : Nat) (scalar : Uint256) {v : Point} {v' : Point'} (same : related v v') :
    related (apply operation (slide i scalar).1 v).value (apply operation' (slide i scalar).1 v').value := by
  generalize taken : slide i scalar = window
  obtain ⟨_ | j, rest⟩ := window
  · exact same
  · exact simulates j (slide_lt taken) v v' same

theorem window_simulates (simulates : Simulates related ops ops') (i : Nat) {state : Window Point}
    {state' : Window Point'} (start : RelatedWindows related state state') :
    RelatedWindows related (window ops i state).value (window ops' i state').value := by
  obtain ⟨ss, hhh, v⟩ := state
  obtain ⟨ss', hhh', v'⟩ := state'
  obtain ⟨rfl, rfl, same⟩ := start
  have both : related (accumulate ops i ⟨ss, hhh, v⟩) (accumulate ops' i ⟨ss, hhh, v'⟩) :=
    apply_simulates simulates.subMultiple i hhh (apply_simulates simulates.addMultiple i ss same)
  rw [window_value, window_value]
  refine ⟨rfl, rfl, ?_⟩
  dsimp only
  split
  case isTrue last => exact simulates.subMultiple _ (low_lt _) _ _ both
  case isFalse more => exact simulates.double _ _ both

theorem countDown_simulates (simulates : Simulates related ops ops') (i : Nat) {state : Window Point}
    {state' : Window Point'} (start : RelatedWindows related state state') :
    RelatedWindows related (countDown (window ops) i state).value (countDown (window ops') i state').value := by
  induction i generalizing state state' with
  | zero => exact window_simulates simulates 0 start
  | succ i ih => exact ih (window_simulates simulates (i + 1) start)

theorem combine_simulates (simulates : Simulates related ops ops') {identity : Point} {identity' : Point'}
    (start : related identity identity') (s h : Uint256) :
    related (combine ops identity s h).value (combine ops' identity' s h).value := by
  unfold combine
  simp only [Traced.value_bind, Traced.value_pure]
  exact (countDown_simulates simulates 252 (RelatedWindows.mk rfl rfl start)).vv

theorem combine_exact (exact : ops.IsExact) (identity : Point) (s : Uint256) {h : Uint256}
    (small : h.toNat < L) : (combine ops identity s h).Exact := by
  unfold combine
  rw [Traced.exact_bind, Traced.exact_bind, exact_unchecked]
  exact ⟨isExact_offset small, countDown_exact (window_exact exact) (by decide) _, Traced.exact_pure _⟩

end Loop

/-! The loop in a group. -/

section Group

variable {G : Type} [AddCommGroup G]

/-- The loop's operations by two tables of multiples. -/
def groupOps (base key : Nat → G) : PointOps G :=
  ⟨fun j v => pure (v + base j), fun j v => pure (v - key j), fun v => pure (v + v)⟩

variable {base key : Nat → G} {P A : G}

@[simp] theorem value_groupOps_add (base key : Nat → G) (j : Nat) (v : G) :
    ((groupOps base key).addMultiple j v).value = v + base j := rfl

@[simp] theorem value_groupOps_sub (base key : Nat → G) (j : Nat) (v : G) :
    ((groupOps base key).subMultiple j v).value = v - key j := rfl

@[simp] theorem value_groupOps_double (base key : Nat → G) (v : G) :
    ((groupOps base key).double v).value = v + v := rfl

theorem groupOps_exact (base key : Nat → G) : (groupOps base key).IsExact :=
  ⟨fun _ _ => Traced.exact_pure _, fun _ _ => Traced.exact_pure _, fun _ => Traced.exact_pure _⟩

theorem value_apply_add (base key : Nat → G) (digit : Option Nat) (v : G) :
    (apply (groupOps base key).addMultiple digit v).value = v + (digit.map base).getD 0 := by
  cases digit <;> simp [apply]

theorem value_apply_sub (base key : Nat → G) (digit : Option Nat) (v : G) :
    (apply (groupOps base key).subMultiple digit v).value = v - (digit.map key).getD 0 := by
  cases digit <;> simp [apply]

theorem nsmul_slide (multiples : ∀ j < 8, base j = (8 + j) • P) {i : Nat} (inside : i ≤ 252) (scalar : Uint256) :
    2 ^ i • ((slide i scalar).1.map base).getD 0 = weight ((slide i scalar).1.toList.map (i, ·)) • P := by
  rw [slide_eq i inside]
  split
  case isTrue top =>
    have small : ((scalar >>> i) &&& 7).toNat < 8 := by
      have digit := digit_toNat top
      omega
    simp only [Option.map_some, Option.getD_some, multiples _ small, weight, Option.toList_some,
      List.map_cons, List.map_nil, List.sum_cons, List.sum_nil, Nat.add_zero]
    rw [← mul_nsmul, Nat.mul_comm]
  case isFalse clear => simp [weight]

/-- What the turns from `i` on make of the accumulator. -/
theorem loop_value (baseMultiples : ∀ j < 8, base j = (8 + j) • P)
    (keyMultiples : ∀ j < 8, key j = (8 + j) • A) {i : Nat} (inside : i ≤ 252) (ss hhh : Uint256) (v : G) :
    (countDown (window (groupOps base key)) i ⟨ss, hhh, v⟩).value.vv =
      2 ^ i • v + weight (windows i ss) • P -
        (weight (windows i hhh) + (8 + (remainder i hhh).toNat % 8)) • A := by
  have turn {i : Nat} (inside : i ≤ 252) (ss hhh : Uint256) (v : G) :
      2 ^ i • accumulate (groupOps base key) i ⟨ss, hhh, v⟩ =
        2 ^ i • v + weight ((slide i ss).1.toList.map (i, ·)) • P -
          weight ((slide i hhh).1.toList.map (i, ·)) • A := by
    rw [accumulate, value_apply_sub, value_apply_add, nsmul_sub, nsmul_add, nsmul_slide baseMultiples inside,
      nsmul_slide keyMultiples inside]
  induction i generalizing ss hhh v with
  | zero =>
    have low : ((slide 0 hhh).2 &&& 7).toNat = (slide 0 hhh).2.toNat % 8 := by
      rw [BitVec.toNat_and]
      exact Nat.and_two_pow_sub_one_eq_mod _ 3
    have last := turn inside ss hhh v
    rw [pow_zero, one_nsmul, one_nsmul] at last
    rw [countDown, window_value, if_pos rfl, low, last, value_groupOps_sub, keyMultiples _ (Nat.mod_lt _ (by decide)), windows,
      windows, remainder, pow_zero, one_nsmul, add_nsmul _ (weight _)]
    dsimp only
    abel
  | succ i ih =>
    rw [countDown, Traced.value_bind, Traced.value_bind, window_value, if_neg (Nat.succ_ne_zero i),
      ih (by omega), value_groupOps_double, ← two_nsmul, ← mul_nsmul, ← pow_succ', turn inside, windows, windows, remainder,
      weight_append, weight_append]
    simp only [add_nsmul]
    abel

theorem toNat_octuple {s : Uint256} (small : s.toNat < L) : (s <<< 3).toNat = 8 * s.toNat := by
  have bound : 8 * L < 2 ^ 256 := by decide
  rw [BitVec.toNat_shiftLeft, Nat.shiftLeft_eq, Nat.mod_eq_of_lt (by omega), Nat.mul_comm]

/-- A multiple of eight leaves no last bits. -/
theorem remainder_octuple {s : Uint256} (low : s.toNat % 8 = 0) {i : Nat} (inside : i ≤ 252) :
    (remainder i s).toNat % 8 = 0 := by
  apply Nat.eq_of_testBit_eq
  intro b
  rw [show 8 = 2 ^ 3 from rfl, Nat.testBit_mod_two_pow, Nat.zero_testBit, Bool.and_eq_false_iff]
  by_cases last : b < 3
  · right
    have clear : s.getLsbD b = false := by
      rw [← BitVec.testBit_toNat]
      have bit := Nat.testBit_mod_two_pow s.toNat 3 b
      rw [show 2 ^ 3 = 8 from rfl, low, Nat.zero_testBit, decide_eq_true last, Bool.true_and] at bit
      exact bit.symm
    have count := count_windows inside s b
    rw [clear] at count
    rw [BitVec.testBit_toNat, ← Bool.not_eq_true]
    intro set
    simp [last, set] at count
  · left
    exact decide_eq_false last

theorem combine_value (baseMultiples : ∀ j < 8, base j = (8 + j) • P)
    (keyMultiples : ∀ j < 8, key j = (8 + j) • A) (s h : Uint256) :
    let hhh :=
      (.word h + .word 0x80000000_00000000_00000000_00000000_a6f7cef5_17bce6b2_c09318d2_e7ae9f60 : Linear).wrapped
    (combine (groupOps base key) 0 s h).value =
      weight (windows 252 (s <<< 3)) • P - (weight (windows 252 hhh) + (8 + (remainder 252 hhh).toNat % 8)) • A := by
  unfold combine
  rw [Traced.value_bind, value_unchecked, Traced.value_bind, Traced.value_pure,
    loop_value baseMultiples keyMultiples le_rfl, nsmul_zero, zero_add]

theorem weight_octuple {s : Uint256} (small : s.toNat < L) : weight (windows 252 (s <<< 3)) = 8 * s.toNat := by
  have low : (s <<< 3).toNat % 8 = 0 := by
    rw [toNat_octuple small]
    omega
  have whole := weight_windows le_rfl (s <<< 3)
  rwa [remainder_octuple low le_rfl, Nat.add_zero, Nat.mod_eq_of_lt (BitVec.isLt _), toNat_octuple small] at whole

theorem combine_group (baseMultiples : ∀ j < 8, base j = (8 + j) • P)
    (keyMultiples : ∀ j < 8, key j = (8 + j) • A) (order : (8 * L) • A = 0) {s h : Uint256}
    (sSmall : s.toNat < L) (hSmall : h.toNat < L) :
    (combine (groupOps base key) 0 s h).value = (8 * s.toNat) • P - h.toNat • A := by
  have offset := toNat_offset hSmall
  rw [combine_value baseMultiples keyMultiples]
  generalize (.word h + .word 0x80000000_00000000_00000000_00000000_a6f7cef5_17bce6b2_c09318d2_e7ae9f60 :
    Linear).wrapped = hhh at *
  have keyWeight := weight_windows le_rfl hhh
  rw [Nat.mod_eq_of_lt (BitVec.isLt _), offset] at keyWeight
  have total : weight (windows 252 hhh) + (8 + (remainder 252 hhh).toNat % 8) = h.toNat + 8 * L := by
    have positive := prime_L.pos
    omega
  rw [weight_octuple sSmall, total, add_nsmul, order, add_zero]

theorem toNat_shifted_mask {i : Nat} (inside : i ≤ 252) {mask : Uint256} (small : mask.toNat ≤ 8) :
    (mask <<< i).toNat = mask.toNat * 2 ^ i := by
  have below : 2 ^ i ≤ 2 ^ 252 := Nat.pow_le_pow_right (by decide) inside
  have fits : mask.toNat * 2 ^ i < 2 ^ 256 := by
    calc mask.toNat * 2 ^ i ≤ 8 * 2 ^ 252 := Nat.mul_le_mul small below
      _ < 2 ^ 256 := by decide
  rw [BitVec.toNat_shiftLeft, Nat.shiftLeft_eq, Nat.mod_eq_of_lt fits]

/-- The loop computes `s G - h A`, if `P` is an eighth of `G`. -/
theorem double_scalar_loop (baseMultiples : ∀ j < 8, base j = (8 + j) • P)
    (keyMultiples : ∀ j < 8, key j = (8 + j) • A) (order : (8 * L) • A = 0) (s h : Uint256)
    (sSmall : s.toNat < L) (hSmall : h.toNat < L) :
    let offset : Linear :=
      .word h + .word 0x80000000_00000000_00000000_00000000_a6f7cef5_17bce6b2_c09318d2_e7ae9f60
    let ss := s <<< 3
    let hhh := offset.wrapped
    let result := combine (groupOps base key) 0 s h
    result.value = (8 * s.toNat) • P - h.toNat • A ∧ result.Exact ∧
      ss.toNat = 8 * s.toNat ∧ hhh.toNat = h.toNat + 8 * L - 8 ∧
      (∀ i ≤ 252, ((8 : Uint256) <<< i).toNat = 8 * 2 ^ i ∧ ((7 : Uint256) <<< i).toNat = 7 * 2 ^ i) ∧
      (∀ b, (windows 252 ss).countP (consumes b) = if ss.getLsbD b then 1 else 0) ∧
      (∀ b, (windows 252 hhh).countP (consumes b) + (if b < 3 ∧ (remainder 252 hhh).getLsbD b then 1 else 0) =
        if hhh.getLsbD b then 1 else 0) ∧
      result.value = weight (windows 252 ss) • P -
        (weight (windows 252 hhh) + (8 + (remainder 252 hhh).toNat % 8)) • A := by
  intro offset ss hhh result
  have inside (scalar : Uint256) (b : Nat) : b < 252 + 4 ∧ scalar.getLsbD b = true ↔ scalar.getLsbD b = true := by
    constructor
    · exact And.right
    · intro set
      exact ⟨BitVec.lt_of_getLsbD set, set⟩
  have last : ∀ b, ¬ (b < 3 ∧ (remainder 252 ss).getLsbD b = true) := by
    intro b ⟨low, set⟩
    have zero := remainder_octuple (s := ss) (by rw [toNat_octuple sSmall]; omega) le_rfl
    have bit := Nat.testBit_mod_two_pow (remainder 252 ss).toNat 3 b
    rw [show 2 ^ 3 = 8 from rfl, zero, Nat.zero_testBit, decide_eq_true low, BitVec.testBit_toNat, set] at bit
    cases bit
  refine ⟨combine_group baseMultiples keyMultiples order sSmall hSmall,
    combine_exact (groupOps_exact base key) 0 s hSmall, toNat_octuple sSmall, ?_, ?_, ?_, ?_,
    combine_value baseMultiples keyMultiples s h⟩
  · have positive := prime_L.pos
    have value : hhh.toNat = h.toNat + (8 * L - 8) := toNat_offset hSmall
    omega
  · intro i below
    exact ⟨toNat_shifted_mask below (by decide), toNat_shifted_mask below (by decide)⟩
  · intro b
    have count := count_windows le_rfl ss b
    rwa [if_neg (last b), Nat.add_zero, if_congr (inside ss b) rfl rfl] at count
  · intro b
    rw [count_windows le_rfl, if_congr (inside hhh b) rfl rfl]

/-- A cyclic group of order `8 L`, in which both scalars count. -/
theorem double_scalar_loop_cyclic :
    (combine (groupOps (fun j => ((8 + j) • 3 : ZMod (8 * L))) fun j => (8 + j) • 1) 0 5 7).value =
      (8 * 5) • (3 : ZMod (8 * L)) - 7 • 1 :=
  (double_scalar_loop (fun _ _ => rfl) (fun _ _ => rfl)
    (by rw [nsmul_one, ZMod.natCast_self]) 5 7 (by decide) (by decide)).1

end Group

end RainbowBridge.Ed25519
