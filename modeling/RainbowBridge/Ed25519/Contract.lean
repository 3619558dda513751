import RainbowBridge.Lib.ByteBits
import RainbowBridge.Solidity.Unchecked

/-! `Ed25519.sol`: the verification of a signature of 41 bytes in one call. The
source is unrolled; a block that it repeats is one function here. -/

namespace RainbowBridge.Ed25519

open RainbowBridge.Lib
open RainbowBridge.Solidity

/-- `uint256(b)` of a `bytes32`. -/
def uint256 (b : Bytes32) : Uint256 := BitVec.ofNat 256 (beNat b.toList)

/-- `bytes32(b)` of a `bytes9`, which is filled up on the right. -/
def bytes32 (b : FixedBytes 9) : Bytes32 := ⟨b.toList ++ List.replicate 23 0, by simp⟩

/-- The modulus `2^255 - 19` of the field. -/
def modulus : Uint256 := 0x7fffffff_ffffffff_ffffffff_ffffffff_ffffffff_ffffffff_ffffffff_ffffffed

/-- The order of the base point. -/
def order : Uint256 := 0x10000000_00000000_00000000_00000000_14def9de_a2f79cd6_5812631a_5cf5d3ed

/-! Bytes are reversed by exchanging neighbours, neighbouring pairs, and so on. -/

def exchange8 : Uint256 → Uint256 :=
  exchange 0xff00ff_00ff00ff_00ff00ff_00ff00ff_00ff00ff_00ff00ff_00ff00ff_00ff00ff
    0xff00ff00_ff00ff00_ff00ff00_ff00ff00_ff00ff00_ff00ff00_ff00ff00_ff00ff00 8

def exchange16 : Uint256 → Uint256 :=
  exchange 0xffff_0000ffff_0000ffff_0000ffff_0000ffff_0000ffff_0000ffff_0000ffff
    0xffff0000_ffff0000_ffff0000_ffff0000_ffff0000_ffff0000_ffff0000_ffff0000 16

def exchange32 : Uint256 → Uint256 :=
  exchange 0xffffffff_00000000_ffffffff_00000000_ffffffff_00000000_ffffffff
    0xffffffff_00000000_ffffffff_00000000_ffffffff_00000000_ffffffff_00000000 32

def exchange64 : Uint256 → Uint256 :=
  exchange 0xffffffff_ffffffff_00000000_00000000_ffffffff_ffffffff
    0xffffffff_ffffffff_00000000_00000000_ffffffff_ffffffff_00000000_00000000 64

def exchange128 (w : Uint256) : Uint256 := (w <<< 128) ||| (w >>> 128)

/-- The bytes of each 64-bit lane in the opposite order. -/
def reverseLanes (w : Uint256) : Uint256 := exchange32 (exchange16 (exchange8 w))

def reverseBytes (w : Uint256) : Uint256 := exchange128 (exchange64 (reverseLanes w))

/-! Step 1: `SHA-512(R, A, M)`. Four words of the schedule share a variable, and of
the working variables only the low 64 bits count. -/

/-! The masks of the lanes of a variable. -/

def mask31 : Uint256 := 0xffffffff_ffffffff_00000000_00000000_ffffffff_ffffffff_00000000_00000000

def mask20 : Uint256 := 0xffffffff_ffffffff_00000000_00000000_ffffffff_ffffffff

def mask30 : Uint256 := 0xffffffff_ffffffff_00000000_00000000_00000000_00000000_ffffffff_ffffffff

def mask3 : Uint256 := 0xffffffff_ffffffff_00000000_00000000_00000000_00000000_00000000_00000000

def mask2 : Uint256 := 0xffffffff_ffffffff_00000000_00000000_00000000_00000000

def mask1 : Uint256 := 0xffffffff_ffffffff_00000000_00000000

def mask0 : Uint256 := 0xffffffff_ffffffff

/-- The round constants, by the round within a group and then by the group. -/
def kk : List (List Uint256) :=
  [[0x428a2f98_d728ae22, 0xe49b69c1_9ef14ad2, 0x27b70a85_46d22ffc, 0x19a4c116_b8d2d0c8, 0xca273ece_ea26619c],
   [0x71374491_23ef65cd, 0xefbe4786_384f25e3, 0x2e1b2138_5c26c926, 0x1e376c08_5141ab53, 0xd186b8c7_21c0c207],
   [0xb5c0fbcf_ec4d3b2f, 0xfc19dc6_8b8cd5b5, 0x4d2c6dfc_5ac42aed, 0x2748774c_df8eeb99, 0xeada7dd6_cde0eb1e],
   [0xe9b5dba5_8189dbbc, 0x240ca1cc_77ac9c65, 0x53380d13_9d95b3df, 0x34b0bcb5_e19b48a8, 0xf57d4f7f_ee6ed178],
   [0x3956c25b_f348b538, 0x2de92c6f_592b0275, 0x650a7354_8baf63de, 0x391c0cb3_c5c95a63, 0x6f067aa_72176fba],
   [0x59f111f1_b605d019, 0x4a7484aa_6ea6e483, 0x766a0abb_3c77b2a8, 0x4ed8aa4a_e3418acb, 0xa637dc5_a2c898a6],
   [0x923f82a4_af194f9b, 0x5cb0a9dc_bd41fbd4, 0x81c2c92e_47edaee6, 0x5b9cca4f_7763e373, 0x113f9804_bef90dae],
   [0xab1c5ed5_da6d8118, 0x76f988da_831153b5, 0x92722c85_1482353b, 0x682e6ff3_d6b2b8a3, 0x1b710b35_131c471b],
   [0xd807aa98_a3030242, 0x983e5152_ee66dfab, 0xa2bfe8a1_4cf10364, 0x748f82ee_5defb2fc, 0x28db77f5_23047d84],
   [0x12835b01_45706fbe, 0xa831c66d_2db43210, 0xa81a664b_bc423001, 0x78a5636f_43172f60, 0x32caab7b_40c72493],
   [0x243185be_4ee4b28c, 0xb00327c8_98fb213f, 0xc24b8b70_d0f89791, 0x84c87814_a1f0ab72, 0x3c9ebe0a_15c9bebc],
   [0x550c7dc3_d5ffb4e2, 0xbf597fc7_beef0ee4, 0xc76c51a3_0654be30, 0x8cc70208_1a6439ec, 0x431d67c4_9c100d4c],
   [0x72be5d74_f27b896f, 0xc6e00bf3_3da88fc2, 0xd192e819_d6ef5218, 0x90befffa_23631e28, 0x4cc5d4be_cb3e42b6],
   [0x80deb1fe_3b1696b1, 0xd5a79147_930aa725, 0xd6990624_5565a910, 0xa4506ceb_de82bde9, 0x597f299c_fc657e2a],
   [0x9bdc06a7_25c71235, 0x6ca6351_e003826f, 0xf40e3585_5771202a, 0xbef9a3f7_b2c67915, 0x5fcb6fab_3ad6faec],
   [0xc19bf174_cf692694, 0x14292967_0a0e6e70, 0x106aa070_32bbd1b8, 0xc67178f2_e372532b, 0x6c44198c_4a475817]]

/-- The working variables `a` to `h`. -/
structure Working where
  (a b c d e f g h : Uint256)

/-- The variables `w0` to `w3`, of four words each. -/
structure Schedule where
  (w0 w1 w2 w3 : Uint256)

def round (constant word : Uint256) (s : Working) : Working :=
  let e := s.e &&& mask0
  let ss := e ||| (e <<< 64)
  let s1 := (ss >>> 14) ^^^ (ss >>> 18) ^^^ (ss >>> 41)
  let ch := (e &&& (s.f ^^^ s.g)) ^^^ s.g
  let temp1 := s.h + s1 + ch + constant + word
  let a := s.a &&& mask0
  let tt := a ||| (a <<< 64)
  let s0 := (tt >>> 28) ^^^ (tt >>> 34) ^^^ (tt >>> 39)
  let maj := (a &&& (s.b ||| s.c)) ||| (s.b &&& s.c)
  let temp2 := s0 + maj
  ⟨temp1 + temp2, a, s.b, s.c, s.d + temp1, e, s.f, s.g⟩

/-- The words of one variable in the order of the rounds. -/
def unpack (w : Uint256) : List Uint256 := [w >>> 192, w >>> 64, w >>> 128, w]

/-- The sixteen rounds of group `i`. -/
def rounds (i : Nat) (w : Schedule) (s : Working) : Working :=
  (List.zip kk (unpack w.w0 ++ unpack w.w1 ++ unpack w.w2 ++ unpack w.w3)).foldl
    (fun s (constants, word) => round (constants.getD i 0) word s) s

/-- The next two words from the last sixteen, in lanes 3 and 1. -/
def expandFirst (t0 t2 t3 : Uint256) : Uint256 :=
  let n1 := t0 &&& mask31
  let n1 := n1 + (((t2 &&& mask1) <<< 128) ||| ((t2 &&& mask2) >>> 64))
  let u1 := ((t0 &&& mask1) <<< 64) ||| ((t0 &&& mask2) >>> 128)
  let uu1 := u1 ||| (u1 <<< 64)
  let n1 := n1 + (((uu1 <<< 63) ^^^ (uu1 <<< 56) ^^^ (u1 <<< 57)) &&& mask31)
  let v1 := t3 &&& mask20
  let vv1 := v1 ||| (v1 <<< 64)
  let n1 := n1 + (((vv1 <<< 45) ^^^ (vv1 <<< 3) ^^^ (v1 <<< 58)) &&& mask31)
  n1 &&& mask31

/-- The two words after these, in lanes 2 and 0. -/
def expandSecond (t0 t1 t2 t3 n1 : Uint256) : Uint256 :=
  let n2 := t0 &&& mask20
  let n2 := n2 + (((t2 &&& mask0) <<< 128) ||| (t3 >>> 192))
  let u2 := ((t0 &&& mask0) <<< 128) ||| (t1 >>> 192)
  let uu2 := u2 ||| (u2 <<< 64)
  let n2 := n2 + (((uu2 >>> 1) ^^^ (uu2 >>> 8) ^^^ (u2 >>> 7)) &&& mask20)
  let vv2 := n1 ||| (n1 >>> 64)
  let n2 := n2 + (((vv2 >>> 19) ^^^ (vv2 >>> 61) ^^^ (n1 >>> 70)) &&& mask20)
  n2 &&& mask20

def expand (t0 t1 t2 t3 : Uint256) : Uint256 :=
  let n1 := expandFirst t0 t2 t3
  n1 ||| expandSecond t0 t1 t2 t3 n1

def Schedule.next (w : Schedule) : Schedule :=
  let t0 := expand w.w0 w.w1 w.w2 w.w3
  let t1 := expand w.w1 w.w2 w.w3 t0
  let t2 := expand w.w2 w.w3 t0 t1
  let t3 := expand w.w3 t0 t1 t2
  ⟨t0, t1, t2, t3⟩

/-- The loop over the groups from `i` on; after the last there is no expansion. -/
def hashLoop : Nat → Nat → Schedule → Working → Working
  | 0, i, w, s => rounds i w s
  | more + 1, i, w, s => hashLoop more (i + 1) w.next (rounds i w s)

/-- The words of 32 bytes of the message, the middle two exchanged. -/
def pack (m : Uint256) : Uint256 :=
  (m &&& mask30) ||| ((m &&& mask2) >>> 64) ||| ((m &&& mask1) <<< 64)

/-- The last nine bytes of the message, with the padding and the length in bits. -/
def packLast (m2 : Uint256) : Uint256 :=
  (m2 &&& mask3) ||| ((m2 &&& mask2) >>> 64) ||| 0x800000_00000000_00000000_00000348

/-- The working variables before the rounds; the same is added to them afterwards. -/
def initial : Working :=
  ⟨0x6a09e667_f3bcc908, 0xbb67ae85_84caa73b, 0x3c6ef372_fe94f82b, 0xa54ff53a_5f1d36f1,
   0x510e527f_ade682d1, 0x9b05688c_2b3e6c1f, 0x1f83d9ab_fb41bd6b, 0x5be0cd19_137e2179⟩

/-- Four words of the digest in one, each with its bytes reversed. -/
def join (a b c d : Uint256) : Uint256 :=
  reverseLanes ((a &&& mask0) ||| ((b &&& mask0) <<< 64) ||| ((c &&& mask0) <<< 128) ||| (d <<< 192))

/-- The hash as a number modulo the order, `hh` of the source. -/
def hashModOrder (k r m1 : Bytes32) (m2 : FixedBytes 9) : Uint256 :=
  let w : Schedule :=
    ⟨pack (uint256 r), pack (uint256 k), pack (uint256 m1), packLast (uint256 (bytes32 m2))⟩
  let s := hashLoop 4 0 w initial
  let h0 := join (s.a + initial.a) (s.b + initial.b) (s.c + initial.c) (s.d + initial.d)
  let h1 := join (s.e + initial.e) (s.f + initial.f) (s.g + initial.g) (s.h + initial.h)
  addmod h0 (mulmod h1 0xfffffff_ffffffff_ffffffff_fffffffe_c6ef5bf4_737dcf70_d6ec3174_8d98951d order)
    order

/-! Step 2: the point of the key. -/

/-- `ky`, the key without its top bit. -/
def ordinate (k : Uint256) : Uint256 :=
  k &&& 0x7fffffff_ffffffff_ffffffff_ffffffff_ffffffff_ffffffff_ffffffff_ffffffff

/-- The source's `a = mulmod(a, a, p)`, written `n` times. -/
def square : Nat → Uint256 → Uint256
  | 0, a => a
  | n + 1, a => square n (mulmod a a modulus)

/-- `(v^(2^250-1), v^11) mod p`. -/
def pow22501 (v : Uint256) : Uint256 × Uint256 :=
  let p11 := mulmod v v modulus
  let p22501 := mulmod p11 p11 modulus
  let p22501 := mulmod (mulmod p22501 p22501 modulus) v modulus
  let p11 := mulmod p22501 p11 modulus
  let p22501 := mulmod (mulmod p11 p11 modulus) p22501 modulus
  let a := square 5 p22501
  let p22501 := mulmod p22501 a modulus
  let a := square 10 p22501
  let a := mulmod p22501 a modulus
  let b := square 20 a
  let a := mulmod a b modulus
  let a := square 10 a
  let p22501 := mulmod p22501 a modulus
  let a := square 50 p22501
  let a := mulmod p22501 a modulus
  let b := square 100 a
  let a := mulmod a b modulus
  let a := square 50 a
  let p22501 := mulmod p22501 a modulus
  (p22501, p11)

/-- `v^(p-2)`, as steps 3 and 5 compute it. -/
def invert (v : Uint256) : Uint256 :=
  let (vi, vj) := pow22501 v
  mulmod (square 5 vi) vj modulus

/-- `u (uv)^((p-5)/8)`, a root of `u / v` up to a fourth root of one. -/
def candidate (u v : Uint256) : Uint256 :=
  let t := mulmod u v modulus
  let kx := (pow22501 t).1
  let kx := mulmod kx kx modulus
  mulmod u (mulmod (mulmod kx kx modulus) t modulus) modulus

/-- A root of `(ky^2 - 1) / (d ky^2 + 1)`, if there is one. -/
def squareRoot (ky : Uint256) : Traced (Option Uint256) := do
  let ky2 := mulmod ky ky modulus
  let u := addmod ky2 0x7fffffff_ffffffff_ffffffff_ffffffff_ffffffff_ffffffff_ffffffff_ffffffec modulus
  let v ← unchecked (.word (mulmod ky2
    0x52036cee_2b6ffe73_8cc74079_7779e898_00700a4d_4141d8ab_75eb4dca_135978a3 modulus) + .word 1)
  let kx := candidate u v
  let t := mulmod (mulmod kx kx modulus) v modulus
  if t ≠ u then
    let opposite ← unchecked (.word modulus - .word u)
    if t ≠ opposite then
      return none
    return some (mulmod kx
      0x2b832480_4fc1df0b_2b4d0099_3dfbd7a7_2f431806_ad2fe478_c4ee1b27_4a0ea0b0 modulus)
  return some kx

/-- The sign is taken from the top bit of the key. -/
def withSign (k kx : Uint256) : Traced Uint256 :=
  if kx &&& (1 : Uint256) ≠ k >>> 255 then unchecked (.word modulus - .word kx) else pure kx

/-! Step 3: the multiples of the key's point. -/

/-- A point as the fractions `x / u` and `y / v`. -/
structure Fractions where
  (x u y v : Uint256)

def double (q : Fractions) : Traced Fractions := do
  let xx := mulmod q.x q.v modulus
  let yy := mulmod q.y q.u modulus
  let zz := mulmod q.u q.v modulus
  let xx2 := mulmod xx xx modulus
  let yy2 := mulmod yy yy modulus
  let xxyy := mulmod xx yy modulus
  let zz2 := mulmod zz zz modulus
  let x ← unchecked (.word xxyy + .word xxyy)
  let u ← unchecked (.word yy2 - .word xx2 + .word modulus)
  let y ← unchecked (.word xx2 + .word yy2)
  let first ← unchecked (.word zz2 + .word zz2)
  let second ← unchecked
    (.word 0xffffffff_ffffffff_ffffffff_ffffffff_ffffffff_ffffffff_ffffffff_ffffffda - .word u)
  return ⟨x, u, y, addmod first second modulus⟩

/-- The memory of `uint256[8][3][2]`. -/
abbrev Tables := Nat → Nat → Nat → Uint256

def Tables.store (tables : Tables) (table column i : Nat) (value : Uint256) : Tables :=
  fun table' column' i' =>
    if table' = table ∧ column' = column ∧ i' = i then value else tables table' column' i'

/-- What the first loop of step 3 changes. -/
structure Multiples where
  kk : Fractions
  cprod : Uint256
  tables : Tables

/-- One turn: the multiple is stored, not yet divided, and the next is computed. -/
def multiple (ks kd k2dt : Uint256) (i : Nat) (m : Multiples) : Traced Multiples := do
  let cx := mulmod m.kk.x m.kk.v modulus
  let cy := mulmod m.kk.y m.kk.u modulus
  let cz := mulmod m.kk.u m.kk.v modulus
  let ct := mulmod m.kk.x m.kk.y modulus
  let cs ← unchecked (.word cy + .word cx)
  let cd ← unchecked (.word cy - .word cx + .word modulus)
  let c2z ← unchecked (.word cz + .word cz)
  let tables := m.tables.store 1 0 i cs
  let tables := tables.store 1 1 i cd
  let tables := tables.store 1 2 i
    (mulmod ct 0x2406d9dc_56dffce7_198e80f2_eef3d130_00e0149a_8283b156_ebd69b94_26b2f159 modulus)
  let tables := tables.store 0 0 i c2z
  let tables := tables.store 0 1 i m.cprod
  let cprod := mulmod m.cprod c2z modulus
  if i = 7 then
    return ⟨m.kk, cprod, tables⟩
  let ab := mulmod cs ks modulus
  let aa := mulmod cd kd modulus
  let ac := mulmod ct k2dt modulus
  let x ← unchecked (.word ab - .word aa + .word modulus)
  let u := addmod c2z ac modulus
  let y ← unchecked (.word ab + .word aa)
  let opposite ← unchecked (.word modulus - .word ac)
  return ⟨⟨x, u, y, addmod c2z opposite modulus⟩, cprod, tables⟩

/-- One turn of the second loop: the multiple is divided. -/
def divide (i : Nat) (state : Uint256 × Tables) : Traced (Uint256 × Tables) := do
  let (cprod, tables) := state
  let cinv := mulmod cprod (tables 0 1 i) modulus
  let tables := tables.store 1 0 i (mulmod (tables 1 0 i) cinv modulus)
  let tables := tables.store 1 1 i (mulmod (tables 1 1 i) cinv modulus)
  let tables := tables.store 1 2 i (mulmod (tables 1 2 i) cinv modulus)
  if i = 0 then
    return (cprod, tables)
  return (mulmod cprod (tables 0 0 i) modulus, tables)

/-- The multiples of the base point, which the source gives as constants. -/
def baseTable : List (List Uint256) :=
  [[0x43e7ce9d_19ea5d32_9385a44c_321ea161_67c996e3_7dc6070c_97de49e3_7ac61db9,
    0x40cff344_25d8ec30_a3bb74ba_58cd5854_fa1e3818_6ad0d31e_bc8ae251_ceb2c97e,
    0x459bd270_46e8dd45_aea7008d_b87a5a8f_79067792_53d64523_58951859_9fdfbf4b,
    0x69fdd1e2_8c23cc38_94d0c8ff_90e76f6d_5b6e4c2e_620136d0_4dd83c4a_51581ab9,
    0x54dceb34_13ce5cfa_11196dfc_960b6eda_f4b380c6_d4d23784_19cc0279_ba49c5f3,
    0x4e24184d_d71a3d77_eef3729f_7f8cf7c1_7224cf40_aa7b9548_b9942f3c_5084ceed,
    0x5a0e5aab_20262674_ae117576_1cbf5e88_9b52a55f_d7ac5027_c228cebd_c8d2360a,
    0x26239334_073e9b38_c6285955_6d451c3d_cc8d30e8_4b361174_f488eadd_e2cf17d9],
   [0x227e97c9_4c7c0933_d2e0c21a_3447c504_fe9ccf82_e8a05f59_ce881c82_eba0489f,
    0x226a3e0e_cc4afec6_fd0d2884_13014a9d_bddecf06_c1a2f0bb_702ba77c_613d8209,
    0x34d7efc8_51d45c5e_71efeb0f_235b7946_91de6228_877569b3_a8d52bf0_58b8a4a0,
    0x3c1f5fb3_ca7166fc_e1471c9b_752b6d28_c56301ad_7b65e845_1b2c8c55_26726e12,
    0x6102416c_f02f02ff_5be75275_f55f28db_89b2a9d2_456b860c_e22fc0e5_031f7cc5,
    0x40adf677_f1bfdae0_57f0fd17_9c126179_18ddaa28_91a6530f_b1a4294f_a8665490,
    0x61936f3c_41560904_6187b8ba_a978cbc9_b4789336_3ae5a3cc_7d909f36_35ae7f48,
    0x562a9662_b6ec47f9_e979d473_c02b51e4_42336823_8c58ddb5_2f0e5c6a_180e6410],
   [0x3788bdb4_4f8632d4_2d0dbee5_eea1acc6_136cf411_e655624f_55e48902_c3bd5534,
    0x6190cf2c_2a7b5ad7_69d594a8_2844f23b_4167fa7c_8ac30e51_aa6cfbeb_dcd4b945,
    0x65f77870_96be9204_123a71f3_ac88a87b_e1513217_737d6a1e_2f3a13a4_3d7e3a9a,
    0x23af32d_bfa67975_536479a7_a7ce74a0_2142147f_ac048018_7f1f1334_9cda1f2d,
    0x64fc44b7_fc6841bd_db0ced8b_8b0fe675_9137ef87_ee966512_15fc1dbc_d25c64dc,
    0x1434aa37_48b701d5_b69df3d7_d340c1fe_3f6b9c1e_fc617484_caadb47e_382f4475,
    0x457a6da8_c962ef35_f2b21742_3e5844e9_d2353452_7e8ea429_0d24e3dd_f21720c6,
    0x63b9540c_eb60ccb5_1e4d989d_956e053c_f2511837_efb79089_d2ff4028_4202c53d]]

def multiples (kx ky : Uint256) : Traced Tables := do
  let ks ← unchecked (.word ky + .word kx)
  let kd ← unchecked (.word ky + .word modulus - .word kx)
  let k2dt := mulmod (mulmod kx ky modulus)
    0x2406d9dc_56dffce7_198e80f2_eef3d130_00e0149a_8283b156_ebd69b94_26b2f159 modulus
  let kk ← double ⟨kx, 1, ky, 1⟩
  let kk ← double kk
  let kk ← double kk
  let m ← countUp (multiple ks kd k2dt) 7 0 ⟨kk, 1, fun _ _ _ => 0⟩
  let (_, tables) ← countDown divide 7 (invert m.cprod, m.tables)
  return fun table column i =>
    if table = 0 then (baseTable.getD column []).getD i 0 else tables table column i

/-! Step 4: `s*G - h*A`. -/

/-- The coordinates of a point before an addition. -/
structure Widened where
  (ws wd wz wt : Uint256)

def widen (q : Fractions) : Traced Widened := do
  let wx := mulmod q.x q.v modulus
  let wy := mulmod q.y q.u modulus
  let ws ← unchecked (.word wy + .word wx)
  let wd ← unchecked (.word wy - .word wx + .word modulus)
  let wz := mulmod q.u q.v modulus
  let wt := mulmod q.x q.y modulus
  return ⟨ws, wd, wz, wt⟩

/-- Adds the multiple `j` of the base point. -/
def addMultiple (tables : Tables) (j : Nat) (q : Fractions) : Traced Fractions := do
  let w ← widen q
  let aa := mulmod w.wd (tables 0 1 j) modulus
  let ab := mulmod w.ws (tables 0 0 j) modulus
  let ac := mulmod w.wt (tables 0 2 j) modulus
  let x ← unchecked (.word ab - .word aa + .word modulus)
  let u ← unchecked (.word w.wz + .word ac)
  let y ← unchecked (.word ab + .word aa)
  let v ← unchecked (.word w.wz - .word ac + .word modulus)
  return ⟨x, u, y, v⟩

/-- Subtracts the multiple `j` of the key's point. -/
def subMultiple (tables : Tables) (j : Nat) (q : Fractions) : Traced Fractions := do
  let w ← widen q
  let aa := mulmod w.wd (tables 1 0 j) modulus
  let ab := mulmod w.ws (tables 1 1 j) modulus
  let ac := mulmod w.wt (tables 1 2 j) modulus
  let x ← unchecked (.word ab - .word aa + .word modulus)
  let u ← unchecked (.word w.wz - .word ac + .word modulus)
  let y ← unchecked (.word ab + .word aa)
  let v ← unchecked (.word w.wz + .word ac)
  return ⟨x, u, y, v⟩

/-- The window of a scalar at `i`, if bit `i + 3` is set: its three other bits, and
the scalar without these. -/
def slide (i : Nat) (scalar : Uint256) : Option Nat × Uint256 :=
  let bit := (8 : Uint256) <<< i
  if scalar &&& bit ≠ 0 then
    (some ((scalar >>> i) &&& 7).toNat, scalar &&& ~~~((7 : Uint256) <<< i))
  else (none, scalar)

/-- What the loop of step 4 does to a point, kept apart from the coordinates. -/
structure PointOps (Point : Type) where
  addMultiple : Nat → Point → Traced Point
  subMultiple : Nat → Point → Traced Point
  double : Point → Traced Point

/-- What the loop of step 4 changes. -/
structure Window (Point : Type) where
  ss : Uint256
  hhh : Uint256
  vv : Point

def window {Point : Type} (ops : PointOps Point) (i : Nat) (state : Window Point) : Traced (Window Point) := do
  let (j, ss) := slide i state.ss
  let vv ← match j with
    | some j => ops.addMultiple j state.vv
    | none => pure state.vv
  let (j, hhh) := slide i state.hhh
  let vv ← match j with
    | some j => ops.subMultiple j vv
    | none => pure vv
  if i = 0 then
    let vv ← ops.subMultiple (hhh &&& 7).toNat vv
    return ⟨ss, hhh, vv⟩
  let vv ← ops.double vv
  return ⟨ss, hhh, vv⟩

def combine {Point : Type} (ops : PointOps Point) (identity : Point) (s hh : Uint256) : Traced Point := do
  let ss := s <<< 3
  let hhh ← unchecked
    (.word hh + .word 0x80000000_00000000_00000000_00000000_a6f7cef5_17bce6b2_c09318d2_e7ae9f60)
  let last ← countDown (window ops) 252 ⟨ss, hhh, identity⟩
  return last.vv

/-- The formulas of the source. -/
def coordinates (tables : Tables) : PointOps Fractions :=
  ⟨addMultiple tables, subMultiple tables, double⟩

/-! Step 5: the points are compared by their encodings. -/

def encode (q : Fractions) : Uint256 :=
  let vi := invert (mulmod q.u q.v modulus)
  let vx := mulmod q.x (mulmod vi q.v modulus) modulus
  let vy := mulmod q.y (mulmod vi q.u modulus) modulus
  reverseBytes (vy ||| (vx <<< 255))

/-- Steps 3 to 5, for the coordinates of the key's point. -/
def comparePoints (kx ky : Uint256) (r : Bytes32) (s hh : Uint256) : Traced Bool := do
  let tables ← multiples kx ky
  let v ← combine (coordinates tables) ⟨0, 1, 1, 1⟩ s hh
  return encode v == uint256 r

def check (k r s m1 : Bytes32) (m2 : FixedBytes 9) : Traced Bool := do
  match ← squareRoot (ordinate (reverseBytes (uint256 k))) with
  | none => return false
  | some kx =>
    let kx ← withSign (reverseBytes (uint256 k)) kx
    if reverseBytes (uint256 s) ≥ order then
      return false
    comparePoints kx (ordinate (reverseBytes (uint256 k))) r (reverseBytes (uint256 s)) (hashModOrder k r m1 m2)

end RainbowBridge.Ed25519
