import RainbowBridge.Crypto.Hashing
import RainbowBridge.Lib.Memory

/-! `Utils.sol`: the bytes of an integer in the opposite order, and the functions that
read, copy and hash memory in assembly. Addresses are words, and nothing checks that
their sums are. -/

namespace RainbowBridge.Solidity.Utils

open Lib

def swapBytes2 (v : BitVec 16) : BitVec 16 := (v <<< 8) ||| (v >>> 8)

def swapBytes4 (v : BitVec 32) : BitVec 32 :=
  let v := exchange 0x00ff00ff 0xff00ff00 8 v
  (v <<< 16) ||| (v >>> 16)

def swapBytes8 (v : BitVec 64) : BitVec 64 :=
  let v := exchange 0x00ff00ff00ff00ff 0xff00ff00ff00ff00 8 v
  let v := exchange 0x0000ffff0000ffff 0xffff0000ffff0000 16 v
  (v <<< 32) ||| (v >>> 32)

def swapBytes16 (v : BitVec 128) : BitVec 128 :=
  let v := exchange 0x00ff00ff00ff00ff00ff00ff00ff00ff 0xff00ff00ff00ff00ff00ff00ff00ff00 8 v
  let v := exchange 0x0000ffff0000ffff0000ffff0000ffff 0xffff0000ffff0000ffff0000ffff0000 16 v
  let v := exchange 0x00000000ffffffff00000000ffffffff 0xffffffff00000000ffffffff00000000 32 v
  (v <<< 64) ||| (v >>> 64)

def swapBytes32 (v : BitVec 256) : BitVec 256 :=
  let v := exchange
    0x00ff00ff00ff00ff00ff00ff00ff00ff00ff00ff00ff00ff00ff00ff00ff00ff
    0xff00ff00ff00ff00ff00ff00ff00ff00ff00ff00ff00ff00ff00ff00ff00ff00 8 v
  let v := exchange
    0x0000ffff0000ffff0000ffff0000ffff0000ffff0000ffff0000ffff0000ffff
    0xffff0000ffff0000ffff0000ffff0000ffff0000ffff0000ffff0000ffff0000 16 v
  let v := exchange
    0x00000000ffffffff00000000ffffffff00000000ffffffff00000000ffffffff
    0xffffffff00000000ffffffff00000000ffffffff00000000ffffffff00000000 32 v
  let v := exchange
    0x0000000000000000ffffffffffffffff0000000000000000ffffffffffffffff
    0xffffffffffffffff0000000000000000ffffffffffffffff0000000000000000 64 v
  (v <<< 128) ||| (v >>> 128)

/-- `readMemory`. -/
def readMemory (memory : Memory) (ptr : Nat) : Nat := memory.mload ptr

/-- Where the free memory pointer is kept. -/
def freeMemoryPointer : Nat := 0x40

/-- Where Solidity keeps a word of zeros, which is an empty `bytes memory`. -/
def zeroSlot : Nat := 0x60

/-- `and(length + 63, not(31))`. -/
def roundedUp (length : Nat) : Nat :=
  (BitVec.ofNat 256 (length + 63) &&&
    0xffffffffffffffffffffffffffffffffffffffffffffffffffffffffffffffe0).toNat

/-- `memoryToBytes`: the address of the copy, or nothing if the loop were not to end
after as many turns as there are bytes. -/
def memoryToBytes (memory : Memory) (ptr length : Nat) : Option (Nat × Memory) :=
  if length ≠ 0 then do
    let res := memory.mload freeMemoryPointer
    let stop := (res + roundedUp length) % 2 ^ 256
    let memory := memory.mstore freeMemoryPointer stop
    let memory := memory.mstore res length
    let memory ← memory.copyWords (length + 1) ptr ((res + 32) % 2 ^ 256) stop
    return (res, memory)
  else some (zeroSlot, memory)

/-- What a `bytes memory` at an address holds. -/
def bytesAt (memory : Memory) (ptr : Nat) : Bytes := memory.slice ((ptr + 32) % 2 ^ 256) (memory.mload ptr)

/-- Memory from here on costs more gas than a word can count. -/
def memoryLimit : Nat := 2 ^ 138

/-- Whether there can be gas for an instruction that touches this memory. -/
def Payable (ptr length : Nat) : Prop := length = 0 ∨ ptr + length ≤ memoryLimit

instance (ptr length : Nat) : Decidable (Payable ptr length) := inferInstanceAs (Decidable (_ ∨ _))

section

variable [Hashing]

def keccak256Raw (memory : Memory) (ptr length : Nat) : Option Bytes32 :=
  if Payable ptr length then some (keccak256 (memory.slice ptr length)) else none

/-- The precompiled contract writes its result over the first word. -/
def sha256Raw (memory : Memory) (ptr length : Nat) : Option (Nat × Memory) :=
  if Payable ptr length then
    let memory := memory.mstore 0 (beNat (sha256 (memory.slice ptr length)).toList)
    some (memory.mload 0, memory)
  else none

end

section Swap

variable {data : Bytes}

theorem toNat_swapBytes2 {v : BitVec 16} (long : data.length = 2) (value : v.toNat = beNat data) :
    (swapBytes2 v).toNat = leNat data := by
  have halves : AreHalves 16 8 := by decide
  exact toNat_of_mirrored (by rw [long]) (by decide) (fun _ => halves.getLsbD v) value

theorem toNat_swapBytes4 {v : BitVec 32} (long : data.length = 4) (value : v.toNat = beNat data) :
    (swapBytes4 v).toNat = leNat data := by
  have eight : @Exchanges 32 0x00ff00ff 0xff00ff00 8 := by decide
  have halves : AreHalves 32 16 := by decide
  refine toNat_of_mirrored (by rw [long]) (by decide) (fun j inside => ?_) value
  have first := (halves j inside).1
  rw [swapBytes4, halves.getLsbD _ inside, eight.getLsbD _ first, Nat.xor_assoc]
  rfl

theorem toNat_swapBytes8 {v : BitVec 64} (long : data.length = 8) (value : v.toNat = beNat data) :
    (swapBytes8 v).toNat = leNat data := by
  have eight : @Exchanges 64 0x00ff00ff00ff00ff 0xff00ff00ff00ff00 8 := by decide +kernel
  have sixteen : @Exchanges 64 0x0000ffff0000ffff 0xffff0000ffff0000 16 := by decide +kernel
  have halves : AreHalves 64 32 := by decide +kernel
  refine toNat_of_mirrored (by rw [long]) (by decide +kernel) (fun j inside => ?_) value
  have first := (halves j inside).1
  have second := (sixteen _ first).1
  rw [swapBytes8, halves.getLsbD _ inside, sixteen.getLsbD _ first, eight.getLsbD _ second,
    Nat.xor_assoc, Nat.xor_assoc]
  rfl

theorem toNat_swapBytes16 {v : BitVec 128} (long : data.length = 16) (value : v.toNat = beNat data) :
    (swapBytes16 v).toNat = leNat data := by
  have eight : @Exchanges 128 0x00ff00ff00ff00ff00ff00ff00ff00ff 0xff00ff00ff00ff00ff00ff00ff00ff00 8 := by
    decide +kernel
  have sixteen : @Exchanges 128 0x0000ffff0000ffff0000ffff0000ffff 0xffff0000ffff0000ffff0000ffff0000 16 := by
    decide +kernel
  have half : @Exchanges 128 0x00000000ffffffff00000000ffffffff 0xffffffff00000000ffffffff00000000 32 := by
    decide +kernel
  have halves : AreHalves 128 64 := by decide +kernel
  refine toNat_of_mirrored (by rw [long]) (by decide +kernel) (fun j inside => ?_) value
  have first := (halves j inside).1
  have second := (half _ first).1
  have third := (sixteen _ second).1
  rw [swapBytes16, halves.getLsbD _ inside, half.getLsbD _ first, sixteen.getLsbD _ second,
    eight.getLsbD _ third, Nat.xor_assoc, Nat.xor_assoc, Nat.xor_assoc]
  rfl

theorem toNat_swapBytes32 {v : BitVec 256} (long : data.length = 32) (value : v.toNat = beNat data) :
    (swapBytes32 v).toNat = leNat data := by
  have eight : @Exchanges 256
      0x00ff00ff00ff00ff00ff00ff00ff00ff00ff00ff00ff00ff00ff00ff00ff00ff
      0xff00ff00ff00ff00ff00ff00ff00ff00ff00ff00ff00ff00ff00ff00ff00ff00 8 := by decide +kernel
  have sixteen : @Exchanges 256
      0x0000ffff0000ffff0000ffff0000ffff0000ffff0000ffff0000ffff0000ffff
      0xffff0000ffff0000ffff0000ffff0000ffff0000ffff0000ffff0000ffff0000 16 := by decide +kernel
  have quarter : @Exchanges 256
      0x00000000ffffffff00000000ffffffff00000000ffffffff00000000ffffffff
      0xffffffff00000000ffffffff00000000ffffffff00000000ffffffff00000000 32 := by decide +kernel
  have half : @Exchanges 256
      0x0000000000000000ffffffffffffffff0000000000000000ffffffffffffffff
      0xffffffffffffffff0000000000000000ffffffffffffffff0000000000000000 64 := by decide +kernel
  have halves : AreHalves 256 128 := by decide +kernel
  refine toNat_of_mirrored (by rw [long]) (by decide +kernel) (fun j inside => ?_) value
  have first := (halves j inside).1
  have second := (half _ first).1
  have third := (quarter _ second).1
  have fourth := (sixteen _ third).1
  rw [swapBytes32, halves.getLsbD _ inside, half.getLsbD _ first, quarter.getLsbD _ second,
    sixteen.getLsbD _ third, eight.getLsbD _ fourth, Nat.xor_assoc, Nat.xor_assoc, Nat.xor_assoc,
    Nat.xor_assoc]
  rfl

end Swap

theorem roundedUp_eq {length : Nat} (fits : length + 63 < 2 ^ 256) :
    roundedUp length = 32 * ((length + 63) / 32) := by
  have mask : ∀ j < 256, (0xffffffffffffffffffffffffffffffffffffffffffffffffffffffffffffffe0 :
      BitVec 256).getLsbD j = decide (5 ≤ j) := by decide +kernel
  apply Nat.eq_of_testBit_eq
  intro j
  rw [show 32 * ((length + 63) / 32) = 2 ^ 5 * ((length + 63) / 2 ^ 5) from rfl, Nat.testBit_two_pow_mul,
    Nat.testBit_div_two_pow, roundedUp, BitVec.testBit_toNat, BitVec.getLsbD_and]
  by_cases inside : j < 256
  · rw [mask j inside, BitVec.getLsbD_ofNat]
    by_cases high : 5 ≤ j
    · simp [high, inside]
    · simp [high]
  · have above : 2 ^ 256 ≤ 2 ^ j := Nat.pow_le_pow_right (by decide) (by omega)
    have zero : (length + 63).testBit (j - 5 + 5) = false := by
      rw [Nat.sub_add_cancel (by omega)]
      exact Nat.testBit_eq_false_of_lt (lt_of_lt_of_le fits above)
    rw [BitVec.getLsbD_of_ge _ _ (by omega)]
    simp [zero]

/-- The copy of bytes that lie below the free memory holds them. It is made in the free
memory, of which it takes as many words as it needs. -/
theorem memoryToBytes_eq {memory : Memory} {ptr length : Nat} (above : 0x60 ≤ ptr)
    (reserved : 0x80 ≤ memory.mload freeMemoryPointer) (below : ptr + length ≤ memory.mload freeMemoryPointer)
    (fits : memory.mload freeMemoryPointer + length + 64 < 2 ^ 256) (zeros : memory.mload zeroSlot = 0) :
    ∃ res later, memoryToBytes memory ptr length = some (res, later) ∧
      bytesAt later res = memory.slice ptr length ∧
      (∀ other < memory.mload freeMemoryPointer, 0x60 ≤ other → later other = memory other) ∧
      memory.mload freeMemoryPointer ≤ later.mload freeMemoryPointer ∧
      later.mload freeMemoryPointer ≤ memory.mload freeMemoryPointer + length + 63 := by
  by_cases empty : length = 0
  · subst empty
    refine ⟨zeroSlot, memory, rfl, ?_, fun _ _ _ => rfl, Nat.le_refl _, by omega⟩
    rw [bytesAt, zeros]
    rfl
  · generalize free : memory.mload freeMemoryPointer = res at *
    obtain ⟨words, count⟩ : ∃ words, (length + 63) / 32 = words + 1 + 1 :=
      ⟨(length + 63) / 32 - 2, by omega⟩
    have enough : 32 * (words + 1 + 1) ≤ length + 63 ∧ length + 32 ≤ 32 * (words + 1 + 1) := by omega
    have stop : (res + roundedUp length) % 2 ^ 256 = res + 32 + 32 * (words + 1) := by
      rw [roundedUp_eq (by omega), count, Nat.mod_eq_of_lt (by omega)]
      omega
    obtain ⟨later, copied, lower, bytes⟩ := @Memory.copyWords_eq
      ((memory.mstore freeMemoryPointer (res + 32 + 32 * (words + 1))).mstore res length) words (length + 1) ptr
      (res + 32) (by omega) (by omega) (by omega)
    -- Below the copy, only the free memory pointer has changed.
    have frame : ∀ other < res, later other =
        memory.mstore freeMemoryPointer (res + 32 + 32 * (words + 1)) other := fun other low => by
      rw [lower other (by omega), Memory.mstore_of_outside (.inl low)]
    have kept : ∀ other < res, 0x60 ≤ other → later other = memory other := fun other low high => by
      rw [frame other low, Memory.mstore_of_outside (.inr (by simpa [freeMemoryPointer] using high))]
    have pointer : later.mload freeMemoryPointer = res + 32 + 32 * (words + 1) := by
      rw [Memory.mload_congr fun i inside => frame (freeMemoryPointer + i) (by simp only [freeMemoryPointer]; omega)]
      exact Memory.mload_mstore (by omega)
    have written : later.mload res = length := by
      rw [Memory.mload_congr fun i inside => lower (res + i) (by omega)]
      exact Memory.mload_mstore (by omega)
    refine ⟨res, later, ?_, ?_, kept, by omega, by omega⟩
    · rw [memoryToBytes, if_pos empty]
      simp only [free, stop, Nat.mod_eq_of_lt (show res + 32 < 2 ^ 256 by omega), copied]
      rfl
    · rw [bytesAt, written, Nat.mod_eq_of_lt (by omega)]
      apply Memory.slice_congr
      intro i inside
      rw [bytes i (by omega) (by omega), Memory.mstore_of_outside (.inl (by omega)),
        Memory.mstore_of_outside (.inr (by simp only [freeMemoryPointer]; omega))]

end RainbowBridge.Solidity.Utils
