import RainbowBridge.Crypto.Keccak

/-! Keccak-512, as `crypto.Keccak512` and `sha3.NewLegacyKeccak512` compute it: the
sponge of Keccak-256 with a smaller rate. -/

namespace RainbowBridge

namespace Keccak512

open Lib Keccak

/-- The number of bytes absorbed between two permutations for a 512-bit digest. -/
def rate : Nat := 72

def absorb : Nat → Bytes → Sponge → Sponge
  | 0, _, x => x
  | blocks + 1, data, x => absorb blocks (data.drop rate) (permute (x.xor (.ofLanes (lanes 9 data))))

def pad (message : Bytes) : Bytes :=
  let missing := rate - message.length % rate
  if missing = 1 then message ++ [0x81]
  else message ++ 0x01 :: List.replicate (missing - 2) 0 ++ [0x80]

def digest (x : Sponge) : Bytes :=
  [x.p.a, x.p.b, x.p.c, x.p.d, x.p.e, x.q.a, x.q.b, x.q.c].flatMap fun lane => leBytes 8 lane.toNat

def hash (message : Bytes) : FixedBytes 64 :=
  let padded := pad message
  let sponge := absorb (padded.length / rate) padded (.ofLanes [])
  ⟨digest sponge, by simp [digest]⟩

example : (hash []).toList.take 16 =
    [0x0e, 0xab, 0x42, 0xde, 0x4c, 0x3c, 0xeb, 0x92, 0x35, 0xfc, 0x91, 0xac, 0xff, 0xe7, 0x46, 0xb2] := by
  decide +kernel

end Keccak512

/-- `crypto.Keccak512` and the hasher of `sha3.NewLegacyKeccak512`. -/
class WideHashing where
  keccak512 : Bytes → FixedBytes 64

export WideHashing (keccak512)

@[reducible] def WideHashing.platform : WideHashing := ⟨Keccak512.hash⟩

end RainbowBridge
