import Mathlib.Data.BitVec
import Mathlib.Tactic.Ring

/-! A 256-bit word as four lanes of 64 bits: what bit operations, shifts and
additions do to each lane. -/

namespace RainbowBridge.Lib

/-- Lane `i` of a word, counted from its low end. -/
def lane (i : Nat) (w : BitVec 256) : BitVec 64 := w.extractLsb' (64 * i) 64

theorem getLsbD_lane (i j : Nat) (w : BitVec 256) :
    (lane i w).getLsbD j = (decide (j < 64) && w.getLsbD (64 * i + j)) := by
  simp [lane]

theorem toNat_lane (i : Nat) (w : BitVec 256) : (lane i w).toNat = w.toNat / 2 ^ (64 * i) % 2 ^ 64 := by
  simp [lane, Nat.shiftRight_eq_div_pow]

theorem toNat_eq_lanes (w : BitVec 256) :
    w.toNat = (lane 0 w).toNat + 2 ^ 64 * (lane 1 w).toNat + 2 ^ 128 * (lane 2 w).toNat +
      2 ^ 192 * (lane 3 w).toNat := by
  have small := w.isLt
  simp only [toNat_lane]
  omega

@[simp] theorem lane_eq_zero {i : Nat} (outside : 4 ≤ i) (w : BitVec 256) : lane i w = 0 := by
  apply BitVec.eq_of_getLsbD_eq
  intro j _
  rw [getLsbD_lane, BitVec.getLsbD_of_ge w _ (by omega)]
  simp

@[simp] theorem lane_and (i : Nat) (v w : BitVec 256) : lane i (v &&& w) = lane i v &&& lane i w := by
  simp [lane, BitVec.extractLsb'_and]

@[simp] theorem lane_or (i : Nat) (v w : BitVec 256) : lane i (v ||| w) = lane i v ||| lane i w := by
  simp [lane, BitVec.extractLsb'_or]

@[simp] theorem lane_xor (i : Nat) (v w : BitVec 256) : lane i (v ^^^ w) = lane i v ^^^ lane i w := by
  simp [lane, BitVec.extractLsb'_xor]

/-- A shift by whole lanes moves them. -/
theorem lane_shiftLeft_lanes {i : Nat} (inside : i < 4) (k : Nat) (w : BitVec 256) :
    lane i (w <<< (64 * k)) = if k ≤ i then lane (i - k) w else 0 := by
  apply BitVec.eq_of_getLsbD_eq
  intro j small
  split
  case isTrue le =>
    have index : 64 * i + j - 64 * k = 64 * (i - k) + j := by omega
    simp only [getLsbD_lane, BitVec.getLsbD_shiftLeft, index]
    simp [small]
    omega
  case isFalse gt =>
    have below : 64 * i + j < 64 * k := by omega
    simp [getLsbD_lane, BitVec.getLsbD_shiftLeft, below]

theorem lane_shiftRight_lanes (i k : Nat) (w : BitVec 256) :
    lane i (w >>> (64 * k)) = lane (i + k) w := by
  apply BitVec.eq_of_getLsbD_eq
  intro j small
  have index : 64 * k + (64 * i + j) = 64 * (i + k) + j := by ring
  simp [getLsbD_lane, BitVec.getLsbD_ushiftRight, index]

section

variable {i : Nat} (inside : i < 4) (w : BitVec 256)
include inside

@[simp] theorem lane_shiftLeft_64 : lane i (w <<< 64) = if 1 ≤ i then lane (i - 1) w else 0 :=
  lane_shiftLeft_lanes inside 1 w

@[simp] theorem lane_shiftLeft_128 : lane i (w <<< 128) = if 2 ≤ i then lane (i - 2) w else 0 :=
  lane_shiftLeft_lanes inside 2 w

@[simp] theorem lane_shiftLeft_192 : lane i (w <<< 192) = if 3 ≤ i then lane (i - 3) w else 0 :=
  lane_shiftLeft_lanes inside 3 w

end

@[simp] theorem lane_shiftRight_64 (i : Nat) (w : BitVec 256) : lane i (w >>> 64) = lane (i + 1) w :=
  lane_shiftRight_lanes i 1 w

@[simp] theorem lane_shiftRight_128 (i : Nat) (w : BitVec 256) : lane i (w >>> 128) = lane (i + 2) w :=
  lane_shiftRight_lanes i 2 w

@[simp] theorem lane_shiftRight_192 (i : Nat) (w : BitVec 256) : lane i (w >>> 192) = lane (i + 3) w :=
  lane_shiftRight_lanes i 3 w

/-- A shift to the left by less than a lane brings bits up from the lane below. -/
@[simp] theorem lane_shiftLeft {i : Nat} (inside : i < 3) {k : Nat} (part : k < 64) (w : BitVec 256) :
    lane (i + 1) (w <<< k) = lane (i + 1) w <<< k ||| lane i w >>> (64 - k) := by
  apply BitVec.eq_of_getLsbD_eq
  intro j small
  have bound : 64 * (i + 1) + j < 256 := by omega
  have outer : ¬ 64 * (i + 1) + j < k := by omega
  by_cases low : j < k
  · have index : 64 * (i + 1) + j - k = 64 * i + (64 - k + j) := by omega
    have inner : 64 - k + j < 64 := by omega
    simp only [getLsbD_lane, BitVec.getLsbD_shiftLeft, BitVec.getLsbD_or, BitVec.getLsbD_ushiftRight, index,
      low, small, inner, outer, bound]
    simp
  · have index : 64 * (i + 1) + j - k = 64 * (i + 1) + (j - k) := by omega
    have inner : j - k < 64 := by omega
    have above : ¬ 64 - k + j < 64 := by omega
    simp only [getLsbD_lane, BitVec.getLsbD_shiftLeft, BitVec.getLsbD_or, BitVec.getLsbD_ushiftRight, index,
      low, small, inner, outer, bound, above]
    simp

/-- A shift to the right by less than a lane brings bits down from the lane above. -/
@[simp] theorem lane_shiftRight (i : Nat) {k : Nat} (part : k < 64) (w : BitVec 256) :
    lane i (w >>> k) = lane i w >>> k ||| lane (i + 1) w <<< (64 - k) := by
  apply BitVec.eq_of_getLsbD_eq
  intro j small
  by_cases low : j < 64 - k
  · have index : k + (64 * i + j) = 64 * i + (k + j) := by ring
    have inner : k + j < 64 := by omega
    simp only [getLsbD_lane, BitVec.getLsbD_shiftLeft, BitVec.getLsbD_or, BitVec.getLsbD_ushiftRight, index,
      low, small, inner]
    simp
  · have index : k + (64 * i + j) = 64 * (i + 1) + (j - (64 - k)) := by omega
    have inner : j - (64 - k) < 64 := by omega
    have above : ¬ k + j < 64 := by omega
    simp only [getLsbD_lane, BitVec.getLsbD_shiftLeft, BitVec.getLsbD_or, BitVec.getLsbD_ushiftRight, index,
      low, small, inner, above]
    simp

/-- Two equal lanes turn a shift to the left into a rotation of the upper one. -/
theorem lane_rotateUp {i k : Nat} (inside : i < 3) (part : 0 < k ∧ k < 64) {w : BitVec 256} {x : BitVec 64}
    (upper : lane (i + 1) w = x) (lower : lane i w = x) : lane (i + 1) (w <<< k) = x.rotateRight (64 - k) := by
  rw [lane_shiftLeft inside part.2, upper, lower, BitVec.rotateRight_def, Nat.mod_eq_of_lt (by omega),
    show 64 - (64 - k) = k by omega, BitVec.or_comm]

/-- Two equal lanes turn a shift to the right into a rotation of the lower one. -/
theorem lane_rotateDown {i k : Nat} (part : 0 < k ∧ k < 64) {w : BitVec 256} {x : BitVec 64}
    (lower : lane i w = x) (upper : lane (i + 1) w = x) : lane i (w >>> k) = x.rotateRight k := by
  rw [lane_shiftRight i part.2, upper, lower, BitVec.rotateRight_def, Nat.mod_eq_of_lt part.2]

/-- Two rotations and a shift at once, of a lane that stands in `u` and, beside its
copy, in `uu`: the result is in the upper lane. -/
theorem lane_mixUp {i j k l : Nat} (inside : i < 3) (part : (0 < j ∧ j < 64) ∧ (0 < k ∧ k < 64) ∧ l < 64)
    {u uu : BitVec 256} {x : BitVec 64} (upper : lane (i + 1) uu = x) (lower : lane i uu = x)
    (above : lane (i + 1) u = 0) (source : lane i u = x) :
    lane (i + 1) ((uu <<< j) ^^^ (uu <<< k) ^^^ (u <<< l)) =
      x.rotateRight (64 - j) ^^^ x.rotateRight (64 - k) ^^^ (x >>> (64 - l)) := by
  rw [lane_xor, lane_xor, lane_rotateUp inside part.1 upper lower, lane_rotateUp inside part.2.1 upper lower,
    lane_shiftLeft inside part.2.2, above, source]
  simp

/-- The same with the result in the lower lane. -/
theorem lane_mixDown {i j k l : Nat} (part : (0 < j ∧ j < 64) ∧ (0 < k ∧ k < 64) ∧ l < 64)
    {u uu : BitVec 256} {x : BitVec 64} (lower : lane i uu = x) (upper : lane (i + 1) uu = x)
    (source : lane i u = x) (above : lane (i + 1) u = 0) :
    lane i ((uu >>> j) ^^^ (uu >>> k) ^^^ (u >>> l)) =
      x.rotateRight j ^^^ x.rotateRight k ^^^ (x >>> l) := by
  rw [lane_xor, lane_xor, lane_rotateDown part.1 lower upper, lane_rotateDown part.2.1 lower upper,
    lane_shiftRight i part.2.2, above, source]
  simp

@[simp] theorem and_lane_ones (x : BitVec 64) : x &&& 18446744073709551615#64 = x :=
  BitVec.and_allOnes

@[simp] theorem lane_ofNat (i n : Nat) :
    lane i (BitVec.ofNat 256 n) = BitVec.ofNat 64 (n % 2 ^ 256 / 2 ^ (64 * i)) := by
  apply BitVec.eq_of_toNat_eq
  simp [toNat_lane]

/-- The low lane of a sum is the sum of the low lanes: nothing is carried in. -/
@[simp] theorem lane_zero_add (v w : BitVec 256) : lane 0 (v + w) = lane 0 v + lane 0 w := by
  apply BitVec.eq_of_toNat_eq
  simp only [toNat_lane, BitVec.toNat_add]
  omega

/-- Four sums in lanes 1 and 3 at once: what lane 1 carries stays in lane 2. -/
theorem lane_sum_odd {a b c d : BitVec 256} (even : ∀ w ∈ [a, b, c, d], lane 0 w = 0 ∧ lane 2 w = 0) :
    lane 1 (a + b + c + d) = lane 1 a + lane 1 b + lane 1 c + lane 1 d ∧
      lane 3 (a + b + c + d) = lane 3 a + lane 3 b + lane 3 c + lane 3 d := by
  have split : ∀ w ∈ [a, b, c, d], w.toNat = 2 ^ 64 * (lane 1 w).toNat + 2 ^ 192 * (lane 3 w).toNat := by
    intro w member
    have := toNat_eq_lanes w
    simpa [(even w member).1, (even w member).2] using this
  simp only [List.forall_mem_cons, List.not_mem_nil, false_imp_iff, implies_true, and_true] at split
  obtain ⟨sa, sb, sc, sd⟩ := split
  have ba := (lane 1 a).isLt
  have bb := (lane 1 b).isLt
  have bc := (lane 1 c).isLt
  have bd := (lane 1 d).isLt
  constructor <;> apply BitVec.eq_of_toNat_eq <;>
    simp only [toNat_lane _ (a + b + c + d), BitVec.toNat_add, sa, sb, sc, sd] <;> omega

/-- The same for lanes 0 and 2. -/
theorem lane_sum_even {a b c d : BitVec 256} (odd : ∀ w ∈ [a, b, c, d], lane 1 w = 0 ∧ lane 3 w = 0) :
    lane 0 (a + b + c + d) = lane 0 a + lane 0 b + lane 0 c + lane 0 d ∧
      lane 2 (a + b + c + d) = lane 2 a + lane 2 b + lane 2 c + lane 2 d := by
  have split : ∀ w ∈ [a, b, c, d], w.toNat = (lane 0 w).toNat + 2 ^ 128 * (lane 2 w).toNat := by
    intro w member
    have := toNat_eq_lanes w
    simpa [(odd w member).1, (odd w member).2] using this
  simp only [List.forall_mem_cons, List.not_mem_nil, false_imp_iff, implies_true, and_true] at split
  obtain ⟨sa, sb, sc, sd⟩ := split
  have ba := (lane 0 a).isLt
  have bb := (lane 0 b).isLt
  have bc := (lane 0 c).isLt
  have bd := (lane 0 d).isLt
  constructor <;> apply BitVec.eq_of_toNat_eq <;>
    simp only [toNat_lane _ (a + b + c + d), BitVec.toNat_add, sa, sb, sc, sd] <;> omega

end RainbowBridge.Lib
