import RainbowBridge.Lib.Bytes
import Mathlib.Data.BitVec

/-! Keccak-256 with the original padding, as Ethereum and `env::keccak256` use it. -/

namespace RainbowBridge.Keccak

open RainbowBridge.Lib

abbrev Lane := BitVec 64

/-- The five lanes of one row of the sponge state. -/
structure Plane where
  (a b c d e : Lane)

/-- The sponge state, row by row. -/
structure Sponge where
  (p q r s t : Plane)

def roundConstants : List Lane :=
  [0x0000000000000001, 0x0000000000008082, 0x800000000000808a, 0x8000000080008000,
   0x000000000000808b, 0x0000000080000001, 0x8000000080008081, 0x8000000000008009,
   0x000000000000008a, 0x0000000000000088, 0x0000000080008009, 0x000000008000000a,
   0x000000008000808b, 0x800000000000008b, 0x8000000000008089, 0x8000000000008003,
   0x8000000000008002, 0x8000000000000080, 0x000000000000800a, 0x800000008000000a,
   0x8000000080008081, 0x8000000000008080, 0x0000000080000001, 0x8000000080008008]

def rotate (x : Lane) (n : Nat) : Lane := (x <<< n) ||| (x >>> (64 - n))

def Plane.xor (x y : Plane) : Plane :=
  ⟨x.a ^^^ y.a, x.b ^^^ y.b, x.c ^^^ y.c, x.d ^^^ y.d, x.e ^^^ y.e⟩

def Sponge.xor (x y : Sponge) : Sponge :=
  ⟨x.p.xor y.p, x.q.xor y.q, x.r.xor y.r, x.s.xor y.s, x.t.xor y.t⟩

def theta (x : Sponge) : Sponge :=
  let c := x.p.xor (x.q.xor (x.r.xor (x.s.xor x.t)))
  let d : Plane := ⟨c.e ^^^ rotate c.b 1, c.a ^^^ rotate c.c 1, c.b ^^^ rotate c.d 1,
    c.c ^^^ rotate c.e 1, c.d ^^^ rotate c.a 1⟩
  ⟨x.p.xor d, x.q.xor d, x.r.xor d, x.s.xor d, x.t.xor d⟩

def rhoPi (x : Sponge) : Sponge :=
  ⟨⟨x.p.a, rotate x.q.b 44, rotate x.r.c 43, rotate x.s.d 21, rotate x.t.e 14⟩,
   ⟨rotate x.p.d 28, rotate x.q.e 20, rotate x.r.a 3, rotate x.s.b 45, rotate x.t.c 61⟩,
   ⟨rotate x.p.b 1, rotate x.q.c 6, rotate x.r.d 25, rotate x.s.e 8, rotate x.t.a 18⟩,
   ⟨rotate x.p.e 27, rotate x.q.a 36, rotate x.r.b 10, rotate x.s.c 15, rotate x.t.d 56⟩,
   ⟨rotate x.p.c 62, rotate x.q.d 55, rotate x.r.e 39, rotate x.s.a 41, rotate x.t.b 2⟩⟩

def Plane.chi (x : Plane) : Plane :=
  ⟨x.a ^^^ (~~~x.b &&& x.c), x.b ^^^ (~~~x.c &&& x.d), x.c ^^^ (~~~x.d &&& x.e),
   x.d ^^^ (~~~x.e &&& x.a), x.e ^^^ (~~~x.a &&& x.b)⟩

def round (x : Sponge) (constant : Lane) : Sponge :=
  let y := rhoPi (theta x)
  let p := y.p.chi
  ⟨{ p with a := p.a ^^^ constant }, y.q.chi, y.r.chi, y.s.chi, y.t.chi⟩

def permute (x : Sponge) : Sponge := roundConstants.foldl round x

def lanes : Nat → Bytes → List Lane
  | 0, _ => []
  | count + 1, data => BitVec.ofNat 64 (leNat (data.take 8)) :: lanes count (data.drop 8)

def Sponge.ofLanes (lane : List Lane) : Sponge :=
  let row (y : Nat) : Plane :=
    ⟨lane.getD (5 * y) 0, lane.getD (5 * y + 1) 0, lane.getD (5 * y + 2) 0,
     lane.getD (5 * y + 3) 0, lane.getD (5 * y + 4) 0⟩
  ⟨row 0, row 1, row 2, row 3, row 4⟩

/-- The number of bytes absorbed between two permutations for a 256-bit digest. -/
def rate : Nat := 136

def absorb : Nat → Bytes → Sponge → Sponge
  | 0, _, x => x
  | blocks + 1, data, x =>
    absorb blocks (data.drop rate) (permute (x.xor (.ofLanes (lanes 17 data))))

def pad (message : Bytes) : Bytes :=
  let missing := rate - message.length % rate
  if missing = 1 then message ++ [0x81]
  else message ++ 0x01 :: List.replicate (missing - 2) 0 ++ [0x80]

def digest (x : Sponge) : Bytes :=
  [x.p.a, x.p.b, x.p.c, x.p.d].flatMap fun lane => leBytes 8 lane.toNat

def hash (message : Bytes) : Bytes32 :=
  let padded := pad message
  let sponge := absorb (padded.length / rate) padded (.ofLanes [])
  ⟨digest sponge, by simp [digest]⟩

example : (hash []).toList =
    [0xc5, 0xd2, 0x46, 0x01, 0x86, 0xf7, 0x23, 0x3c, 0x92, 0x7e, 0x7d, 0xb2, 0xdc, 0xc7, 0x03, 0xc0,
     0xe5, 0x00, 0xb6, 0x53, 0xca, 0x82, 0x27, 0x3b, 0x7b, 0xfa, 0xd8, 0x04, 0x5d, 0x85, 0xa4,
     0x70] := by
  decide +kernel

end RainbowBridge.Keccak
