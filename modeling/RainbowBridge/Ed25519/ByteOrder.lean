import RainbowBridge.Lib.Lanes
import RainbowBridge.Ed25519.Contract

/-! The exchanges of `Ed25519.sol` reverse the bytes of a word, or of each of its
lanes: bit `j` comes from bit `j ^^^ 248`, or `j ^^^ 56`. -/

namespace RainbowBridge.Ed25519

open RainbowBridge.Lib
open RainbowBridge.Solidity

theorem getLsbD_exchange128 (w : Uint256) {j : Nat} (inside : j < 256) :
    (exchange128 w).getLsbD j = w.getLsbD (j ^^^ 128) :=
  AreHalves.getLsbD (by decide +kernel) w inside

theorem getLsbD_reverseLanes (w : Uint256) {j : Nat} (inside : j < 256) :
    (reverseLanes w).getLsbD j = w.getLsbD (j ^^^ 56) := by
  have eight : Exchanges _ _ 8 := (by decide +kernel : @Exchanges 256
    0xff00ff_00ff00ff_00ff00ff_00ff00ff_00ff00ff_00ff00ff_00ff00ff_00ff00ff
    0xff00ff00_ff00ff00_ff00ff00_ff00ff00_ff00ff00_ff00ff00_ff00ff00_ff00ff00 8)
  have sixteen : Exchanges _ _ 16 := (by decide +kernel : @Exchanges 256
    0xffff_0000ffff_0000ffff_0000ffff_0000ffff_0000ffff_0000ffff_0000ffff
    0xffff0000_ffff0000_ffff0000_ffff0000_ffff0000_ffff0000_ffff0000_ffff0000 16)
  have half : Exchanges _ _ 32 := (by decide +kernel : @Exchanges 256
    0xffffffff_00000000_ffffffff_00000000_ffffffff_00000000_ffffffff
    0xffffffff_00000000_ffffffff_00000000_ffffffff_00000000_ffffffff_00000000 32)
  have first := (half j inside).1
  have second := (sixteen _ first).1
  rw [reverseLanes, exchange32, half.getLsbD _ inside, exchange16, sixteen.getLsbD _ first, exchange8,
    eight.getLsbD _ second, Nat.xor_assoc, Nat.xor_assoc]
  rfl

theorem getLsbD_reverseBytes (w : Uint256) {j : Nat} (inside : j < 256) :
    (reverseBytes w).getLsbD j = w.getLsbD (j ^^^ 248) := by
  have quarter : Exchanges _ _ 64 := (by decide +kernel : @Exchanges 256
    0xffffffff_ffffffff_00000000_00000000_ffffffff_ffffffff
    0xffffffff_ffffffff_00000000_00000000_ffffffff_ffffffff_00000000_00000000 64)
  have first : j ^^^ 128 < 256 := Nat.xor_lt_two_pow inside (by decide : 128 < 2 ^ 8)
  have second := (quarter _ first).1
  rw [reverseBytes, getLsbD_exchange128 _ inside, exchange64, quarter.getLsbD _ first,
    getLsbD_reverseLanes _ second, Nat.xor_assoc, Nat.xor_assoc]
  rfl

theorem toNat_uint256 (b : Bytes32) : (uint256 b).toNat = beNat b.toList := by
  have bound := beNat_lt b.toList
  rw [List.Vector.toList_length] at bound
  rw [uint256, BitVec.toNat_ofNat]
  exact Nat.mod_eq_of_lt bound

/-- Reversed, a `bytes32` is read with its first byte lowest. -/
theorem toNat_reverseBytes (b : Bytes32) : (reverseBytes (uint256 b)).toNat = leNat b.toList :=
  toNat_of_mirrored (by simp) (by decide +kernel) (fun _ => getLsbD_reverseBytes _) (toNat_uint256 b)

/-- The bytes of a lane, least significant first, are its value's most significant first. -/
theorem toNat_lane_reverseLanes (w : Uint256) {i : Nat} (inside : i < 4) :
    (lane i (reverseLanes w)).toNat = leNat (beBytes 8 (lane i w).toNat) := by
  have fits : (lane i w).toNat < 256 ^ 8 := (lane i w).isLt
  have split : ∀ j < 64, j ^^^ 56 < 64 ∧ ∀ i < 4, (64 * i + j) ^^^ 56 = 64 * i + (j ^^^ 56) := by
    decide +kernel
  have bits : ∀ j < 64, (lane i (reverseLanes w)).getLsbD j = (lane i w).getLsbD (j ^^^ (64 - 8)) := by
    intro j small
    obtain ⟨bound, same⟩ := split j small
    rw [getLsbD_lane, getLsbD_lane, getLsbD_reverseLanes w (by omega), same i inside]
    simp [small, bound]
  apply toNat_of_mirrored (by simp) (by decide +kernel) bits
  rw [beNat_beBytes, Nat.mod_eq_of_lt fits]

end RainbowBridge.Ed25519
