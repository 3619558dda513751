import RainbowBridge.Lib.Hex
import RainbowBridge.Crypto.Sha512
import RainbowBridge.Ed25519.ByteOrder
import RainbowBridge.Ed25519.Field

/-! Step 1 of `Ed25519.check` is SHA-512 of one padded block. A lane of a variable
holds a word of the schedule, and of a working variable only lane 0 counts. -/

namespace RainbowBridge.Ed25519

open RainbowBridge.Lib
open RainbowBridge.Solidity

/-! What the masks keep. -/

@[simp] theorem lanes_mask31 : lane 3 mask31 = BitVec.allOnes 64 ∧ lane 2 mask31 = 0 ∧ lane 1 mask31 = BitVec.allOnes 64 ∧ lane 0 mask31 = 0 := by
  decide

@[simp] theorem lanes_mask20 : lane 3 mask20 = 0 ∧ lane 2 mask20 = BitVec.allOnes 64 ∧ lane 1 mask20 = 0 ∧ lane 0 mask20 = BitVec.allOnes 64 := by
  decide

@[simp] theorem lanes_mask30 : lane 3 mask30 = BitVec.allOnes 64 ∧ lane 2 mask30 = 0 ∧ lane 1 mask30 = 0 ∧ lane 0 mask30 = BitVec.allOnes 64 := by
  decide

@[simp] theorem lanes_mask3 : lane 3 mask3 = BitVec.allOnes 64 ∧ lane 2 mask3 = 0 ∧ lane 1 mask3 = 0 ∧ lane 0 mask3 = 0 := by
  decide

@[simp] theorem lanes_mask2 : lane 3 mask2 = 0 ∧ lane 2 mask2 = BitVec.allOnes 64 ∧ lane 1 mask2 = 0 ∧ lane 0 mask2 = 0 := by
  decide

@[simp] theorem lanes_mask1 : lane 3 mask1 = 0 ∧ lane 2 mask1 = 0 ∧ lane 1 mask1 = BitVec.allOnes 64 ∧ lane 0 mask1 = 0 := by
  decide

@[simp] theorem lanes_mask0 : lane 3 mask0 = 0 ∧ lane 2 mask0 = 0 ∧ lane 1 mask0 = 0 ∧ lane 0 mask0 = BitVec.allOnes 64 := by
  decide

/-- The words of a variable of the schedule. -/
structure Packs (w : Uint256) (first second third fourth : Sha512.Word) : Prop where
  first_eq : lane 3 w = first
  second_eq : lane 1 w = second
  third_eq : lane 2 w = third
  fourth_eq : lane 0 w = fourth

theorem packs_expandFirst (t0 t2 t3 : Uint256) :
    Packs (expandFirst t0 t2 t3) (Sha512.nextWord (lane 3 t0) (lane 1 t0) (lane 1 t2) (lane 2 t3))
      (Sha512.nextWord (lane 1 t0) (lane 2 t0) (lane 2 t2) (lane 0 t3)) 0 0 := by
  unfold expandFirst
  extract_lets n0 n1 u1 uu1 n2 v1 vv1 n3
  have u3 : lane 3 u1 = 0 := by simp [u1]
  have u2 : lane 2 u1 = lane 1 t0 := by simp [u1]
  have u1' : lane 1 u1 = 0 := by simp [u1]
  have u0 : lane 0 u1 = lane 2 t0 := by simp [u1]
  have v3 : lane 3 v1 = 0 := by simp [v1]
  have v2 : lane 2 v1 = lane 2 t3 := by simp [v1]
  have v1' : lane 1 v1 = 0 := by simp [v1]
  have v0 : lane 0 v1 = lane 0 t3 := by simp [v1]
  have s0 : lane 3 ((uu1 <<< 63) ^^^ (uu1 <<< 56) ^^^ (u1 <<< 57)) = Sha512.smallSigma0 (lane 1 t0) := by
    apply lane_mixUp (by decide) (by decide) _ _ u3 u2 <;> simp [uu1, u3, u2, u1']
  have s0' : lane 1 ((uu1 <<< 63) ^^^ (uu1 <<< 56) ^^^ (u1 <<< 57)) = Sha512.smallSigma0 (lane 2 t0) := by
    apply lane_mixUp (by decide) (by decide) _ _ u1' u0 <;> simp [uu1, u1', u0]
  have s1 : lane 3 ((vv1 <<< 45) ^^^ (vv1 <<< 3) ^^^ (v1 <<< 58)) = Sha512.smallSigma1 (lane 2 t3) := by
    apply lane_mixUp (by decide) (by decide) _ _ v3 v2 <;> simp [vv1, v3, v2, v1']
  have s1' : lane 1 ((vv1 <<< 45) ^^^ (vv1 <<< 3) ^^^ (v1 <<< 58)) = Sha512.smallSigma1 (lane 0 t3) := by
    apply lane_mixUp (by decide) (by decide) _ _ v1' v0 <;> simp [vv1, v1', v0]
  obtain ⟨second, first⟩ : lane 1 n3 = _ ∧ lane 3 n3 = _ := by
    apply lane_sum_odd
    simp [n0]
  refine ⟨?_, ?_, ?_, ?_⟩
  · simp only [lane_and, first, lane_or, s0, s1, Sha512.nextWord]
    simp [n0]
    ac_rfl
  · simp only [lane_and, second, lane_or, s0', s1', Sha512.nextWord]
    simp [n0]
    ac_rfl
  · simp
  · simp

theorem packs_expandSecond (t0 t1 t2 t3 : Uint256) {n1 : Uint256} {w16 w17 : Sha512.Word}
    (packs : Packs n1 w16 w17 0 0) :
    Packs (expandSecond t0 t1 t2 t3 n1) 0 0 (Sha512.nextWord (lane 2 t0) (lane 0 t0) (lane 0 t2) w16)
      (Sha512.nextWord (lane 0 t0) (lane 3 t1) (lane 3 t3) w17) := by
  obtain ⟨first, second, third, fourth⟩ := packs
  unfold expandSecond
  extract_lets n0 n2 u2 uu2 n3 vv2 n4
  have u3 : lane 3 u2 = 0 := by simp [u2]
  have u2' : lane 2 u2 = lane 0 t0 := by simp [u2]
  have u1 : lane 1 u2 = 0 := by simp [u2]
  have u0 : lane 0 u2 = lane 3 t1 := by simp [u2]
  have s0 : lane 2 ((uu2 >>> 1) ^^^ (uu2 >>> 8) ^^^ (u2 >>> 7)) = Sha512.smallSigma0 (lane 0 t0) := by
    apply lane_mixDown (by decide) _ _ u2' u3 <;> simp [uu2, u3, u2', u1]
  have s0' : lane 0 ((uu2 >>> 1) ^^^ (uu2 >>> 8) ^^^ (u2 >>> 7)) = Sha512.smallSigma0 (lane 3 t1) := by
    apply lane_mixDown (by decide) _ _ u0 u1 <;> simp [uu2, u1, u0]
  -- the shift by 70 is one by a whole lane and one by 6
  have shifted : n1 >>> 70 = (n1 >>> 64) >>> 6 := BitVec.shiftRight_add n1 64 6
  have s1 : lane 2 ((vv2 >>> 19) ^^^ (vv2 >>> 61) ^^^ (n1 >>> 70)) = Sha512.smallSigma1 w16 := by
    rw [shifted]
    apply lane_mixDown (by decide) <;> simp [vv2, first, third]
  have s1' : lane 0 ((vv2 >>> 19) ^^^ (vv2 >>> 61) ^^^ (n1 >>> 70)) = Sha512.smallSigma1 w17 := by
    rw [shifted]
    apply lane_mixDown (by decide) <;> simp [vv2, second, third, fourth]
  obtain ⟨low, high⟩ : lane 0 n4 = _ ∧ lane 2 n4 = _ := by
    apply lane_sum_even
    simp [n0]
  refine ⟨?_, ?_, ?_, ?_⟩
  · simp
  · simp
  · simp only [lane_and, high, lane_or, s0, s1, Sha512.nextWord]
    simp [n0]
    ac_rfl
  · simp only [lane_and, low, lane_or, s0', s1', Sha512.nextWord]
    simp [n0]
    ac_rfl

/-- The words of a variable in the order of the schedule. -/
def laneWords (w : Uint256) : List Sha512.Word := [lane 3 w, lane 1 w, lane 2 w, lane 0 w]

theorem laneWords_expand (t0 t1 t2 t3 : Uint256) :
    let w16 := Sha512.nextWord (lane 3 t0) (lane 1 t0) (lane 1 t2) (lane 2 t3)
    let w17 := Sha512.nextWord (lane 1 t0) (lane 2 t0) (lane 2 t2) (lane 0 t3)
    laneWords (expand t0 t1 t2 t3) =
      [w16, w17, Sha512.nextWord (lane 2 t0) (lane 0 t0) (lane 0 t2) w16,
        Sha512.nextWord (lane 0 t0) (lane 3 t1) (lane 3 t3) w17] := by
  intro w16 w17
  have one := packs_expandFirst t0 t2 t3
  have two := packs_expandSecond t0 t1 t2 t3 one
  simp [laneWords, expand, one.first_eq, one.second_eq, one.third_eq, one.fourth_eq, two.first_eq,
    two.second_eq, two.third_eq, two.fourth_eq, w16, w17]

/-- The working variables without what lies above 64 bits. -/
def Working.chain (s : Working) : Sha512.Chain :=
  ⟨lane 0 s.a, lane 0 s.b, lane 0 s.c, lane 0 s.d, lane 0 s.e, lane 0 s.f, lane 0 s.g, lane 0 s.h⟩

theorem choose_eq (x y z : Sha512.Word) : (x &&& (y ^^^ z)) ^^^ z = Sha512.choose x y z := by
  apply BitVec.eq_of_getLsbD_eq
  intro i small
  simp only [Sha512.choose, BitVec.getLsbD_and, BitVec.getLsbD_xor, BitVec.getLsbD_not, small]
  cases x.getLsbD i <;> cases y.getLsbD i <;> cases z.getLsbD i <;> rfl

theorem majority_eq (x y z : Sha512.Word) :
    (x &&& (y ||| z)) ||| (y &&& z) = Sha512.majority x y z := by
  apply BitVec.eq_of_getLsbD_eq
  intro i small
  simp only [Sha512.majority, BitVec.getLsbD_and, BitVec.getLsbD_xor, BitVec.getLsbD_or]
  cases x.getLsbD i <;> cases y.getLsbD i <;> cases z.getLsbD i <;> rfl

theorem chain_round (constant word : Uint256) (s : Working) :
    (round constant word s).chain = Sha512.round (lane 0 constant) (lane 0 word) s.chain := by
  simp [round, Working.chain, Sha512.round, choose_eq, majority_eq, Sha512.bigSigma0, Sha512.bigSigma1,
    BitVec.rotateRight_def]

/-- Four rounds take the words of the first variable and append those of its expansion. -/
theorem rounds_four (c0 c1 c2 c3 : Sha512.Word) (constants : List Sha512.Word) (t0 t1 t2 t3 : Uint256)
    (s : Sha512.Chain) :
    Sha512.rounds (c0 :: c1 :: c2 :: c3 :: constants)
        (laneWords t0 ++ laneWords t1 ++ laneWords t2 ++ laneWords t3) s =
      Sha512.rounds constants (laneWords t1 ++ laneWords t2 ++ laneWords t3 ++ laneWords (expand t0 t1 t2 t3))
        (Sha512.round c3 (lane 0 t0) (Sha512.round c2 (lane 2 t0)
          (Sha512.round c1 (lane 1 t0) (Sha512.round c0 (lane 3 t0) s)))) := by
  rw [laneWords_expand]
  rfl

/-- The round constants of group `i`. -/
def constants (i : Nat) : List Sha512.Word := kk.map fun row => lane 0 (row.getD i 0)

def Schedule.words (w : Schedule) : List Sha512.Word :=
  laneWords w.w0 ++ laneWords w.w1 ++ laneWords w.w2 ++ laneWords w.w3

/-- A group of sixteen rounds and the expansion after it. -/
theorem rounds_group (i : Nat) (later : List Sha512.Word) (w : Schedule) (s : Working) :
    Sha512.rounds (constants i ++ later) w.words s.chain =
      Sha512.rounds later w.next.words (rounds i w s).chain := by
  simp only [constants, kk, List.map_cons, List.map_nil, List.cons_append, List.nil_append, Schedule.words]
  rw [rounds_four, rounds_four, rounds_four, rounds_four]
  simp [rounds, kk, unpack, chain_round, Schedule.next]

theorem chain_hashLoop (more i : Nat) (w : Schedule) (s : Working) :
    (hashLoop more i w s).chain =
      Sha512.rounds ((List.range' i (more + 1)).flatMap constants) w.words s.chain := by
  induction more generalizing i w s with
  | zero =>
    have last := rounds_group i [] w s
    simpa [Sha512.rounds, hashLoop] using last.symm
  | succ more ih =>
    change _ = Sha512.rounds ((i :: List.range' (i + 1) (more + 1)).flatMap constants) w.words s.chain
    rw [List.flatMap_cons, rounds_group, ← ih]
    rfl

theorem roundConstants_eq : (List.range' 0 5).flatMap constants = Sha512.roundConstants := by
  decide

/-! The words of the block. -/

theorem words_append (n : Nat) {k : Nat} (front back : Bytes) (length : front.length = 8 * k) :
    Sha512.words (k + n) (front ++ back) = Sha512.words k front ++ Sha512.words n back := by
  induction k generalizing front with
  | zero =>
    have nil : front = [] := List.eq_nil_of_length_eq_zero length
    simp [nil, Sha512.words]
  | succ k ih =>
    rw [Nat.add_right_comm, Sha512.words, Sha512.words, List.take_append_of_le_length (by omega),
      List.drop_append_of_le_length (by omega), ih (front.drop 8) (by simp; omega)]
    rfl

/-- The words are the digits of the number to the base `2^64`. -/
theorem words_eq (n : Nat) (data : Bytes) (length : data.length = 8 * n) :
    Sha512.words n data =
      (List.range n).reverse.map fun i => BitVec.ofNat 64 (beNat data / 2 ^ (64 * i)) := by
  induction n generalizing data with
  | zero => rfl
  | succ n ih =>
    have rest : (data.drop 8).length = 8 * n := by simp [length]; omega
    have bound : beNat (data.drop 8) < 2 ^ (64 * n) := by
      have := beNat_lt (data.drop 8)
      rwa [rest, show 256 = 2 ^ 8 from rfl, ← pow_mul, show 8 * (8 * n) = 64 * n by ring] at this
    have split : beNat data = beNat (data.drop 8) + beNat (data.take 8) * 2 ^ (64 * n) := by
      conv_lhs => rw [← List.take_append_drop 8 data, beNat_append, rest]
      rw [show 256 = 2 ^ 8 from rfl, ← pow_mul, show 8 * (8 * n) = 64 * n by ring, Nat.add_comm]
    rw [Sha512.words, ih _ rest, List.range_succ, List.reverse_append, List.reverse_singleton,
      List.singleton_append, List.map_cons]
    congr 1
    · rw [split, Nat.add_mul_div_right _ _ (Nat.two_pow_pos _), Nat.div_eq_of_lt bound, Nat.zero_add]
    · apply List.map_congr_left
      intro i member
      have below : i < n := by simpa using member
      have power : 2 ^ (64 * n) = 2 ^ 64 * 2 ^ (64 * (n - 1 - i)) * 2 ^ (64 * i) := by
        rw [← pow_add, ← pow_add]
        congr 1
        omega
      apply BitVec.eq_of_toNat_eq
      rw [BitVec.toNat_ofNat, BitVec.toNat_ofNat, split, power, ← Nat.mul_assoc,
        Nat.add_mul_div_right _ _ (Nat.two_pow_pos _), Nat.mul_left_comm, Nat.add_mul_mod_self_left]

/-- Thirty-two bytes are the lanes of their number, from the highest on. -/
theorem words_bytes32 (b : Bytes32) :
    Sha512.words 4 b.toList = [lane 3 (uint256 b), lane 2 (uint256 b), lane 1 (uint256 b),
      lane 0 (uint256 b)] := by
  have bound := (uint256 b).isLt
  rw [toNat_uint256] at bound
  rw [words_eq 4 _ (by simp)]
  simp only [uint256, lane_ofNat, Nat.mod_eq_of_lt bound]
  rfl

theorem laneWords_pack (b : Bytes32) : laneWords (pack (uint256 b)) = Sha512.words 4 b.toList := by
  rw [words_bytes32]
  simp [laneWords, pack]

/-- The last words of the block: the end of the message, a one and the length. -/
def lastBytes (m2 : FixedBytes 9) : Bytes32 :=
  ⟨m2.toList ++ (0x80 :: List.replicate 6 0 ++ beBytes 16 840), by simp⟩

theorem laneWords_packLast (m2 : FixedBytes 9) :
    laneWords (packLast (uint256 (bytes32 m2))) = Sha512.words 4 (lastBytes m2).toList := by
  have small : beNat m2.toList < 2 ^ 72 := by simpa using beNat_lt m2.toList
  have message : (uint256 (bytes32 m2)).toNat = beNat m2.toList * 2 ^ 184 := by
    rw [toNat_uint256]
    simp only [bytes32, List.Vector.toList, beNat_append, beNat_replicate_zero, List.length_replicate]
    norm_num
  have last : (uint256 (lastBytes m2)).toNat = beNat m2.toList * 2 ^ 184 + (2 ^ 183 + 840) := by
    have tail : beNat (0x80 :: List.replicate 6 0 ++ beBytes 16 840) = 2 ^ 183 + 840 := by decide
    rw [toNat_uint256]
    change beNat (m2.toList ++ (0x80 :: List.replicate 6 0 ++ beBytes 16 840)) = _
    rw [beNat_append, tail]
    norm_num
  have first : lane 3 (uint256 (bytes32 m2)) = lane 3 (uint256 (lastBytes m2)) := by
    apply BitVec.eq_of_toNat_eq
    rw [toNat_lane, toNat_lane, message, last]
    omega
  have second : lane 2 (uint256 (bytes32 m2)) ||| 0x80000000000000#64 = lane 2 (uint256 (lastBytes m2)) := by
    apply BitVec.eq_of_toNat_eq
    have aligned : beNat m2.toList * 2 ^ 184 / 2 ^ (64 * 2) % 2 ^ 64 = 2 ^ 56 * (beNat m2.toList % 256) := by
      omega
    rw [BitVec.toNat_or, toNat_lane, toNat_lane, message, last, aligned, BitVec.toNat_ofNat,
      ← Nat.two_pow_add_eq_or_of_lt (by decide)]
    omega
  have third : lane 1 (uint256 (lastBytes m2)) = 0#64 := by
    apply BitVec.eq_of_toNat_eq
    rw [toNat_lane, last, BitVec.toNat_zero]
    omega
  have fourth : lane 0 (uint256 (lastBytes m2)) = 0x348#64 := by
    apply BitVec.eq_of_toNat_eq
    rw [toNat_lane, last, BitVec.toNat_ofNat]
    omega
  rw [words_bytes32, ← first, ← second, third, fourth]
  simp [laneWords, packLast]

/-! The digest as a number. -/

theorem leNat_digest (s : Sha512.Chain) :
    leNat (Sha512.digest s) =
      leNat (beBytes 8 s.a.toNat) + 2 ^ 64 * leNat (beBytes 8 s.b.toNat) +
        2 ^ 128 * leNat (beBytes 8 s.c.toNat) + 2 ^ 192 * leNat (beBytes 8 s.d.toNat) +
      2 ^ 256 * (leNat (beBytes 8 s.e.toNat) + 2 ^ 64 * leNat (beBytes 8 s.f.toNat) +
        2 ^ 128 * leNat (beBytes 8 s.g.toNat) + 2 ^ 192 * leNat (beBytes 8 s.h.toNat)) := by
  simp only [Sha512.digest, List.flatMap_cons, List.flatMap_nil, leNat_append, length_beBytes, leNat]
  ring

theorem toNat_join (a b c d : Uint256) :
    (join a b c d).toNat = leNat (beBytes 8 (lane 0 a).toNat) + 2 ^ 64 * leNat (beBytes 8 (lane 0 b).toNat) +
      2 ^ 128 * leNat (beBytes 8 (lane 0 c).toNat) + 2 ^ 192 * leNat (beBytes 8 (lane 0 d).toNat) := by
  rw [join, toNat_eq_lanes, toNat_lane_reverseLanes _ (by decide), toNat_lane_reverseLanes _ (by decide),
    toNat_lane_reverseLanes _ (by decide), toNat_lane_reverseLanes _ (by decide)]
  simp

theorem hash_block (k r m1 : Bytes32) (m2 : FixedBytes 9) :
    (Sha512.hash (r.toList ++ k.toList ++ m1.toList ++ m2.toList)).toList =
      Sha512.digest (Sha512.compress Sha512.initialChain (Sha512.words 4 r.toList ++ Sha512.words 4 k.toList ++
        Sha512.words 4 m1.toList ++ Sha512.words 4 (lastBytes m2).toList)) := by
  have padded : Sha512.pad (r.toList ++ k.toList ++ m1.toList ++ m2.toList) =
      r.toList ++ (k.toList ++ (m1.toList ++ (lastBytes m2).toList)) := by
    simp [Sha512.pad, lastBytes, List.Vector.toList]
  have blocks : (r.toList ++ (k.toList ++ (m1.toList ++ (lastBytes m2).toList))).length / 128 = 1 := by
    simp
  have split : Sha512.words 16 (r.toList ++ (k.toList ++ (m1.toList ++ (lastBytes m2).toList))) =
      Sha512.words 4 r.toList ++ Sha512.words 4 k.toList ++
        Sha512.words 4 m1.toList ++ Sha512.words 4 (lastBytes m2).toList := by
    rw [words_append 12 _ _ (by simp : r.toList.length = 8 * 4),
      words_append 8 _ _ (by simp : k.toList.length = 8 * 4),
      words_append 4 _ _ (by simp : m1.toList.length = 8 * 4)]
    simp only [List.append_assoc]
  change Sha512.digest (Sha512.absorb _) = _
  rw [padded, Sha512.absorb, blocks, List.range_one, List.foldl_cons, List.foldl_nil, Nat.mul_zero,
    List.drop_zero, split]

theorem order_toNat : order.toNat = L := by
  decide

theorem chain_initial : initial.chain = Sha512.initialChain := by
  simp [initial, Working.chain, Sha512.initialChain]

/-- The packed implementation computes SHA-512 of the message, as a number modulo `L`. -/
theorem hashModOrder_eq (k r m1 : Bytes32) (m2 : FixedBytes 9) :
    (hashModOrder k r m1 m2).toNat =
      leNat (Sha512.hash (r.toList ++ k.toList ++ m1.toList ++ m2.toList)).toList % L := by
  unfold hashModOrder
  extract_lets w s h0 h1
  have words : w.words = Sha512.words 4 r.toList ++ Sha512.words 4 k.toList ++
      Sha512.words 4 m1.toList ++ Sha512.words 4 (lastBytes m2).toList := by
    simp only [w, Schedule.words, laneWords_pack, laneWords_packLast]
  have chain : s.chain = Sha512.rounds Sha512.roundConstants w.words Sha512.initialChain := by
    rw [← roundConstants_eq, ← chain_initial]
    exact chain_hashLoop 4 0 w initial
  have sums : Sha512.compress Sha512.initialChain w.words =
      ⟨lane 0 (s.a + initial.a), lane 0 (s.b + initial.b), lane 0 (s.c + initial.c), lane 0 (s.d + initial.d),
        lane 0 (s.e + initial.e), lane 0 (s.f + initial.f), lane 0 (s.g + initial.g),
        lane 0 (s.h + initial.h)⟩ := by
    rw [Sha512.compress, ← chain, ← chain_initial]
    simp [Working.chain, BitVec.add_comm]
  have digest : leNat (Sha512.hash (r.toList ++ k.toList ++ m1.toList ++ m2.toList)).toList =
      h0.toNat + 2 ^ 256 * h1.toNat := by
    rw [hash_block, ← words, leNat_digest, sums, toNat_join, toNat_join]
  have positive : 0 < order.toNat := by decide
  have reduced : (0xfffffff_ffffffff_ffffffff_fffffffe_c6ef5bf4_737dcf70_d6ec3174_8d98951d : Uint256).toNat =
      2 ^ 256 % L := by
    decide
  rw [digest, toNat_addmod positive, toNat_mulmod positive, reduced, order_toNat, Nat.mul_comm (2 ^ 256)]
  simp only [Nat.mul_mod_mod, Nat.add_mod, Nat.mod_mod]

end RainbowBridge.Ed25519
