import RainbowBridge.Lib.Bytes
import Mathlib.Data.List.Induction
import Mathlib.Data.Nat.Digits.Defs

/-! Hexadecimal digits of byte strings and of numbers. -/

namespace RainbowBridge.Lib

/-- Two digits for each byte. -/
def hexOf (data : Bytes) : List Char :=
  data.flatMap fun byte => [(byte.toNat / 16).digitChar, (byte.toNat % 16).digitChar]

theorem hexOf_append (first second : Bytes) : hexOf (first ++ second) = hexOf first ++ hexOf second := by
  simp [hexOf]

/-- The `width` low digits of a number, most significant first. -/
def hexFixed : Nat → Nat → List Char
  | 0, _ => []
  | width + 1, value => hexFixed width (value / 16) ++ [(value % 16).digitChar]

theorem beNat_replicate_zero (count : Nat) : beNat (List.replicate count 0) = 0 := by
  induction count with
  | zero => rfl
  | succ count ih => simp [List.replicate_succ, beNat, ih]

theorem hexFixed_beNat (data : Bytes) : hexFixed (2 * data.length) (beNat data) = hexOf data := by
  induction data using List.reverseRecOn with
  | nil => rfl
  | append_singleton front byte ih =>
    have small : byte.toNat < 256 := byte.toNat_lt
    have width : 2 * (front ++ [byte]).length = 2 * front.length + 1 + 1 := by
      simp
      omega
    have value : beNat (front ++ [byte]) = beNat front * 256 + byte.toNat := by
      simp [beNat_append, beNat]
    have upper : (beNat front * 256 + byte.toNat) / 16 / 16 = beNat front := by omega
    have high : (beNat front * 256 + byte.toNat) / 16 % 16 = byte.toNat / 16 := by omega
    have low : (beNat front * 256 + byte.toNat) % 16 = byte.toNat % 16 := by omega
    rw [width, value, hexFixed, hexFixed, upper, high, low, ih]
    simp [hexOf]

theorem hexFixed_zero (width : Nat) : hexFixed width 0 = List.replicate width '0' := by
  induction width with
  | zero => rfl
  | succ width ih => rw [hexFixed, Nat.zero_div, ih, List.replicate_succ']; rfl

/-- The digits of a number, filled up with zeros. -/
theorem replicate_append_toDigits {width value : Nat} (positive : 0 < width) (fits : value < 16 ^ width) :
    List.replicate (width - (Nat.toDigits 16 value).length) '0' ++ Nat.toDigits 16 value =
      hexFixed width value := by
  induction width generalizing value with
  | zero => omega
  | succ width ih =>
    by_cases small : value < 16
    · rw [Nat.toDigits_of_lt_base small, hexFixed, Nat.div_eq_of_lt small, hexFixed_zero,
        Nat.mod_eq_of_lt small]
      simp
    · have lower : 0 < width := by
        by_contra none
        simp only [show width = 0 by omega] at fits
        omega
      have quotient : value / 16 < 16 ^ width := by
        rw [pow_succ] at fits
        omega
      rw [Nat.toDigits_of_base_le (by omega) (by omega), hexFixed, ← ih lower quotient]
      simp [Nat.add_sub_add_right]

end RainbowBridge.Lib
