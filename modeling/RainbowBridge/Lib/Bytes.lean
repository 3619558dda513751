import Mathlib.Data.Vector.Basic
import Mathlib.Tactic.Ring

/-! Byte strings, byte strings of a fixed length, and the two positional
encodings of natural numbers. -/

namespace RainbowBridge

abbrev Bytes := List UInt8

/-- Exactly `n` bytes. -/
abbrev FixedBytes (n : Nat) := List.Vector UInt8 n

abbrev Bytes32 := FixedBytes 32

/-- The all-zero word, which Solidity and the NEAR runtime use as a default. -/
def zeroBytes (n : Nat) : FixedBytes n := List.Vector.replicate n 0

namespace Lib

theorem toList_injective {n : Nat} {first second : FixedBytes n}
    (same : first.toList = second.toList) : first = second :=
  List.Vector.eq _ _ same

/-- Two concatenations of equally long heads agree piece by piece. -/
theorem append_fixed_inj {n : Nat} {first second : FixedBytes n} {left right : Bytes}
    (same : first.toList ++ left = second.toList ++ right) : first = second ∧ left = right := by
  have parts := List.append_inj same (by simp)
  exact ⟨toList_injective parts.1, parts.2⟩

/-- A piece of a list that is made of equally long pieces. -/
theorem flatMap_slice {α γ : Type} {blocks : List γ} {f : γ → List α} {size : Nat}
    (sizes : ∀ block ∈ blocks, (f block).length = size) {i : Nat} {block : γ}
    (found : blocks[i]? = some block) : ((blocks.flatMap f).drop (i * size)).take size = f block := by
  induction blocks generalizing i with
  | nil => simp at found
  | cons first rest ih =>
    have long := sizes first (by simp)
    rw [List.flatMap_cons]
    cases i with
    | zero =>
      cases found
      simp [← long]
    | succ i =>
      rw [Nat.add_mul, Nat.one_mul, Nat.add_comm, ← long, List.drop_length_add_append, long]
      exact ih (fun block member => sizes block (by simp [member])) (by simpa using found)

/-- Little-endian value of a byte string. -/
def leNat : Bytes → Nat
  | [] => 0
  | byte :: rest => byte.toNat + 256 * leNat rest

/-- The `width` low bytes of a number, least significant first. -/
def leBytes : Nat → Nat → Bytes
  | 0, _ => []
  | width + 1, value => UInt8.ofNat (value % 256) :: leBytes width (value / 256)

@[simp] theorem length_leBytes (width value : Nat) : (leBytes width value).length = width := by
  induction width generalizing value with
  | zero => rfl
  | succ width ih => simp [leBytes, ih]

theorem leNat_lt (data : Bytes) : leNat data < 256 ^ data.length := by
  induction data with
  | nil => simp [leNat]
  | cons byte rest ih =>
    have small : byte.toNat < 256 := byte.toNat_lt
    simp only [leNat, List.length_cons, pow_succ]
    omega

theorem leNat_leBytes (width value : Nat) (fits : value < 256 ^ width) :
    leNat (leBytes width value) = value := by
  induction width generalizing value with
  | zero =>
    have : value = 0 := by simpa using fits
    simp [leBytes, leNat, this]
  | succ width ih =>
    have quotient : value / 256 < 256 ^ width := by
      rw [pow_succ] at fits
      omega
    simp only [leBytes, leNat, ih _ quotient, UInt8.toNat_ofNat']
    omega

theorem leBytes_leNat (data : Bytes) : leBytes data.length (leNat data) = data := by
  induction data with
  | nil => rfl
  | cons byte rest ih =>
    have small : byte.toNat < 256 := byte.toNat_lt
    have low : (byte.toNat + 256 * leNat rest) % 256 = byte.toNat := by omega
    have high : (byte.toNat + 256 * leNat rest) / 256 = leNat rest := by omega
    simp [leBytes, leNat, low, high, ih]

/-- The `width` low bytes of a number, most significant first. -/
def beBytes : Nat → Nat → Bytes
  | 0, _ => []
  | width + 1, value => UInt8.ofNat (value / 256 ^ width % 256) :: beBytes width value

/-- Big-endian value of a byte string. -/
def beNat : Bytes → Nat
  | [] => 0
  | byte :: rest => byte.toNat * 256 ^ rest.length + beNat rest

@[simp] theorem length_beBytes (width value : Nat) : (beBytes width value).length = width := by
  induction width with
  | zero => rfl
  | succ width ih => simp [beBytes, ih]

theorem beNat_beBytes (width value : Nat) : beNat (beBytes width value) = value % 256 ^ width := by
  induction width with
  | zero => simp [beBytes, beNat, Nat.mod_one]
  | succ width ih =>
    have digit : value / 256 ^ width % 256 < 256 := Nat.mod_lt _ (by decide)
    have byte : (UInt8.ofNat (value / 256 ^ width % 256)).toNat = value / 256 ^ width % 256 := by
      simp
    simp only [beBytes, beNat, length_beBytes, ih, byte]
    rw [pow_succ, Nat.mod_mul, Nat.mul_comm, Nat.add_comm]

theorem beNat_append (front back : Bytes) :
    beNat (front ++ back) = beNat front * 256 ^ back.length + beNat back := by
  induction front with
  | nil => simp [beNat]
  | cons byte rest ih =>
    simp only [List.cons_append, beNat, List.length_append, ih, pow_add]
    ring

theorem beNat_lt (data : Bytes) : beNat data < 256 ^ data.length := by
  induction data with
  | nil => simp [beNat]
  | cons byte rest ih =>
    have small : byte.toNat ≤ 255 := Nat.le_of_lt_succ byte.toNat_lt
    have digit := Nat.mul_le_mul_right (256 ^ rest.length) small
    simp only [beNat, List.length_cons, pow_succ]
    omega

/-- Bytes that a positive number needs; none for zero. -/
def byteLength (value : Nat) : Nat := if value = 0 then 0 else value.log2 / 8 + 1

/-- A number in as few bytes as possible, most significant first. -/
def uintBytes (value : Nat) : Bytes := beBytes (byteLength value) value

theorem lt_pow_byteLength (value : Nat) : value < 256 ^ byteLength value := by
  unfold byteLength
  split
  · rename_i zero
    simp [zero]
  · have log := Nat.lt_log2_self (n := value)
    have power : 256 ^ (value.log2 / 8 + 1) = 2 ^ (8 * (value.log2 / 8 + 1)) := by
      rw [Nat.pow_mul]
    rw [power]
    exact Nat.lt_of_lt_of_le log (Nat.pow_le_pow_right (by decide) (by omega))

theorem beNat_uintBytes (value : Nat) : beNat (uintBytes value) = value := by
  rw [uintBytes, beNat_beBytes, Nat.mod_eq_of_lt (lt_pow_byteLength value)]

@[simp] theorem length_uintBytes (value : Nat) : (uintBytes value).length = byteLength value :=
  length_beBytes _ _

theorem byteLength_le {value width : Nat} (fits : value < 256 ^ width) : byteLength value ≤ width := by
  unfold byteLength
  split
  · exact Nat.zero_le _
  · rename_i positive
    have power : 256 ^ width = 2 ^ (8 * width) := by rw [Nat.pow_mul]
    have log := (Nat.log2_lt positive).mpr (power ▸ fits)
    omega

theorem byteLength_pos {value : Nat} (positive : value ≠ 0) : 0 < byteLength value := by
  simp [byteLength, positive]

end Lib

end RainbowBridge
