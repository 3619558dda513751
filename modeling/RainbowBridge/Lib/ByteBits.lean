import RainbowBridge.Lib.Bytes
import Mathlib.Data.Nat.Bitwise

/-! The bits of the number that a byte string stands for, and how exchanges of
neighbouring bytes, neighbouring pairs and so on put the bytes of a word into the
opposite order: bit `j` then comes from bit `j ^^^ n`. -/

namespace RainbowBridge.Lib

theorem leNat_append (front back : Bytes) :
    leNat (front ++ back) = leNat front + 256 ^ front.length * leNat back := by
  induction front with
  | nil => simp [leNat]
  | cons byte rest ih =>
    simp only [List.cons_append, leNat, ih, List.length_cons, pow_succ]
    ring

theorem beNat_eq_leNat_reverse (data : Bytes) : beNat data = leNat data.reverse := by
  induction data with
  | nil => rfl
  | cons byte rest ih =>
    rw [List.reverse_cons, leNat_append, beNat, ih]
    simp [leNat]
    ring

theorem beNat_injective {first second : Bytes} (long : first.length = second.length)
    (same : beNat first = beNat second) : first = second := by
  rw [beNat_eq_leNat_reverse, beNat_eq_leNat_reverse] at same
  apply List.reverse_injective
  rw [← leBytes_leNat first.reverse, ← leBytes_leNat second.reverse, same]
  simp [long]

theorem beBytes_beNat (data : Bytes) : beBytes data.length (beNat data) = data := by
  apply beNat_injective (length_beBytes _ _)
  rw [beNat_beBytes, Nat.mod_eq_of_lt (beNat_lt data)]

theorem testBit_leNat (data : Bytes) (i : Nat) :
    (leNat data).testBit i = (data.getD (i / 8) 0).toNat.testBit (i % 8) := by
  induction data generalizing i with
  | nil => simp [leNat]
  | cons byte rest ih =>
    have small : byte.toNat < 2 ^ 8 := byte.toNat_lt
    rw [leNat, Nat.add_comm, show 256 = 2 ^ 8 from rfl, Nat.testBit_two_pow_mul_add _ small]
    split
    case isTrue low =>
      rw [Nat.div_eq_of_lt low, Nat.mod_eq_of_lt low]
      rfl
    case isFalse high =>
      rw [ih, show i / 8 = (i - 8) / 8 + 1 by omega, show (i - 8) % 8 = i % 8 by omega]
      rfl

/-- The two readings of a byte string have a bit in mirrored bytes. -/
theorem testBit_leNat_eq (data : Bytes) {i : Nat} (inside : i < 8 * data.length) :
    (leNat data).testBit i = (beNat data).testBit (8 * (data.length - 1 - i / 8) + i % 8) := by
  have byte : (8 * (data.length - 1 - i / 8) + i % 8) / 8 = data.length - 1 - i / 8 := by omega
  have bit : (8 * (data.length - 1 - i / 8) + i % 8) % 8 = i % 8 := by omega
  have mirror : data.length - 1 - (data.length - 1 - i / 8) = i / 8 := by omega
  rw [beNat_eq_leNat_reverse, testBit_leNat, testBit_leNat, byte, bit, List.getD_eq_getElem?_getD,
    List.getD_eq_getElem?_getD, List.getElem?_reverse (by omega), mirror]

section Exchange

variable {w : Nat}

/-- The bits of one mask moved up, and those of the other down. -/
def exchange (low high : BitVec w) (n : Nat) (v : BitVec w) : BitVec w :=
  ((v &&& low) <<< n) ||| ((v &&& high) >>> n)

/-- The masks of an exchange by `n`: of the positions `j` and `j ^^^ n`, the lower is
in the first and the upper in the second. -/
def Exchanges (low high : BitVec w) (n : Nat) : Prop :=
  ∀ j < w, j ^^^ n < w ∧
    (n ≤ j ∧ j - n = j ^^^ n ∧ low.getLsbD (j - n) = true ∧ high.getLsbD (n + j) = false ∨
      (j < n ∨ low.getLsbD (j - n) = false) ∧ n + j = j ^^^ n ∧ high.getLsbD (n + j) = true)

instance (low high : BitVec w) (n : Nat) : Decidable (Exchanges low high n) := by
  unfold Exchanges
  infer_instance

theorem Exchanges.getLsbD {low high : BitVec w} {n : Nat} (exchanges : Exchanges low high n) (v : BitVec w)
    {j : Nat} (inside : j < w) : (exchange low high n v).getLsbD j = v.getLsbD (j ^^^ n) := by
  simp only [exchange, BitVec.getLsbD_or, BitVec.getLsbD_shiftLeft, BitVec.getLsbD_ushiftRight,
    BitVec.getLsbD_and]
  obtain ⟨-, ⟨above, index, first, second⟩ | ⟨none, index, second⟩⟩ := exchanges j inside
  · rw [← index]
    simp [inside, Nat.not_lt.mpr above, first, second]
  · rw [← index]
    obtain below | first := none
    · simp [below, second]
    · simp [first, second]

/-- The two halves of a word, of `n` bits each, need no masks. -/
def AreHalves (w n : Nat) : Prop :=
  ∀ j < w, j ^^^ n < w ∧ (j < n ∧ n + j = j ^^^ n ∨ n ≤ j ∧ j - n = j ^^^ n ∧ w ≤ n + j)

instance (w n : Nat) : Decidable (AreHalves w n) := by
  unfold AreHalves
  infer_instance

theorem AreHalves.getLsbD {n : Nat} (halves : AreHalves w n) (v : BitVec w) {j : Nat} (inside : j < w) :
    ((v <<< n) ||| (v >>> n)).getLsbD j = v.getLsbD (j ^^^ n) := by
  simp only [BitVec.getLsbD_or, BitVec.getLsbD_shiftLeft, BitVec.getLsbD_ushiftRight]
  obtain ⟨-, ⟨below, same⟩ | ⟨above, same, outside⟩⟩ := halves j inside
  · simp [below, same]
  · rw [BitVec.getLsbD_of_ge v (n + j) outside]
    simp [Nat.not_lt.mpr above, same, inside]

/-- A word whose bits come from the mirrored bytes of a big-endian number is the
little-endian one. -/
theorem toNat_of_mirrored {v mirrored : BitVec w} {data : Bytes} (width : w = 8 * data.length)
    (index : ∀ j < w, j ^^^ (w - 8) = 8 * (w / 8 - 1 - j / 8) + j % 8)
    (bits : ∀ j < w, mirrored.getLsbD j = v.getLsbD (j ^^^ (w - 8))) (value : v.toNat = beNat data) :
    mirrored.toNat = leNat data := by
  apply Nat.eq_of_testBit_eq
  intro j
  have length : w / 8 = data.length := by omega
  by_cases inside : j < w
  · rw [BitVec.testBit_toNat, bits j inside, testBit_leNat_eq data (by omega), ← length, ← index j inside,
      ← BitVec.testBit_toNat, value]
  · have bound := leNat_lt data
    have power : 256 ^ data.length = 2 ^ w := by rw [width, Nat.pow_mul]
    have above : 2 ^ w ≤ 2 ^ j := Nat.pow_le_pow_right (by decide) (by omega)
    rw [Nat.testBit_eq_false_of_lt (lt_of_lt_of_le mirrored.isLt above),
      Nat.testBit_eq_false_of_lt (lt_of_lt_of_le bound (power ▸ above))]

end Exchange

end RainbowBridge.Lib
