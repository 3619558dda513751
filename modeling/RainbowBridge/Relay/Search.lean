import RainbowBridge.EthClient.Contract
import RainbowBridge.Lib.Search
import Mathlib.Data.Nat.Log

/-! How a round of `Eth2NearRelay.run` finds the block to submit from: a search
for the first block of the client that is also in the main chain. The contract
forgets old headers, so the answers are positive on a window only. -/

namespace RainbowBridge.Relay

open Lib EthTypes EthClient

/-- The fuel of both doublings is the distance they stay within. JavaScript Numbers are
read as integers, which is exact below `2 ^ 53`; the caller's come from `toNumber()`,
which throws beyond. -/
def binarySearchWithEstimate (limitLo limitHi estimatedPosition : ℤ) (predicate : ℤ → Bool) : ℤ :=
  if predicate estimatedPosition then
    let step := doubleWhile
      (fun step => estimatedPosition - step > limitLo && predicate (estimatedPosition - step))
      (estimatedPosition - limitLo).toNat 1
    let hi := estimatedPosition - step / 2
    bisect predicate (max limitLo (hi - step)) hi
  else
    let step := doubleWhile
      (fun step => estimatedPosition + step < limitHi && !predicate (estimatedPosition + step))
      (limitHi - estimatedPosition).toNat 1
    let lo := estimatedPosition + step / 2
    bisect predicate lo (min limitHi (lo + step))

/-- The main chain as the node of the relay knows it. -/
structure MainChain where
  hash : Nat → H256
  blockNumber : Nat

/-- The `predicate` of `run`. A block that is not ready or a failed query is asked
again, so an answer is about the block of that number. -/
def predicate (client : Client) (chain : MainChain) (value : ℤ) : Bool :=
  let blockNumber := (client.lastBlockNumber - value).toNat
  decide (chain.hash blockNumber ∈ client.knownHashes blockNumber)

structure Eth2NearRelay where
  totalSubmitBlock : ℤ
  previousBlockNumber : Option ℤ

/-- What a round of `run` found and submitted, and what it keeps for the next. -/
structure Round where
  delta : ℤ
  submitted : List ℤ
  relay : Eth2NearRelay

/-- The numbers `first`, `first + 1` up to `last`. -/
def blocksBetween (first last : ℤ) : List ℤ :=
  (List.range (last + 1 - first).toNat).map fun i => first + i

def Eth2NearRelay.round (relay : Eth2NearRelay) (client : Client) (chain : MainChain) : Round :=
  let estimatedValued := relay.previousBlockNumber.elim 0 fun previousBlockNumber =>
    client.lastBlockNumber - (previousBlockNumber + relay.totalSubmitBlock)
  let delta := binarySearchWithEstimate 0 client.lastBlockNumber estimatedValued
    (predicate client chain)
  let clientBlockNumber := client.lastBlockNumber - delta
  let endBlock :=
    -- Initially, blocks are not added concurrently.
    if clientBlockNumber < 5 then clientBlockNumber + 1
    else min (clientBlockNumber + relay.totalSubmitBlock) chain.blockNumber
  { delta
    submitted :=
      if clientBlockNumber < chain.blockNumber then blocksBetween (clientBlockNumber + 1) endBlock
      else []
    relay := { relay with previousBlockNumber := some clientBlockNumber } }

/-- A client that forgot the blocks `threshold` and more below its head, and whose
blocks less than `depth` below it are on a fork. -/
structure Forked (client : Client) (chain : MainChain) (threshold depth : Nat) : Prop where
  shallow : depth < threshold
  within : threshold ≤ client.lastBlockNumber
  forgotten : ∀ number, number + threshold ≤ client.lastBlockNumber → client.knownHashes number = []
  kept : ∀ number, number ≤ client.lastBlockNumber → client.lastBlockNumber < number + threshold →
    (chain.hash number ∈ client.knownHashes number ↔ number + depth ≤ client.lastBlockNumber)

/-- When the search asks about a block that is still known and on the main chain:
the step that is doubled hits the window or the search ends before it, and the
bisection that follows hits the window too. -/
def SearchHits (height threshold depth : Nat) : Prop :=
  depth ≤ 1 ∨
    let step := 2 ^ Nat.clog 2 depth
    (step < threshold ∨ height ≤ step) ∧
      ∃ k, depth ≤ probe (step / 2) (min height (step / 2 + step)) k ∧
        probe (step / 2) (min height (step / 2 + step)) k < threshold

/-- The answers along the search are those of a window. -/
theorem Forked.predicate_iff {client : Client} {chain : MainChain} {threshold depth : Nat}
    (forked : Forked client chain threshold depth) {value : ℤ} (nonneg : 0 ≤ value)
    (upper : value ≤ client.lastBlockNumber) :
    predicate client chain value = true ↔ (depth : ℤ) ≤ value ∧ value < threshold := by
  obtain ⟨v, rfl⟩ := Int.eq_ofNat_of_zero_le nonneg
  have within := forked.within
  have number : ((client.lastBlockNumber : ℤ) - v).toNat = client.lastBlockNumber - v := by omega
  simp only [predicate, number, decide_eq_true_eq]
  by_cases known : v < threshold
  · rw [forked.kept _ (by omega) (by omega)]
    omega
  · rw [forked.forgotten _ (by omega)]
    simp only [List.not_mem_nil, false_iff, not_and]
    omega

section

variable {height threshold depth : Nat} {asked : ℤ → Bool}

/-- The step at which the doubling stops, if it hits the window or runs out of
blocks at the first power of two that is not below `depth`. -/
theorem double_stops_at (shallow : depth < threshold) (within : threshold ≤ height)
    (window : ∀ v : ℤ, 0 ≤ v → v ≤ height → (asked v = true ↔ (depth : ℤ) ≤ v ∧ v < threshold))
    (hits : 2 ^ Nat.clog 2 depth < threshold ∨ height ≤ 2 ^ Nat.clog 2 depth) :
    doubleWhile (fun step => decide (0 + step < (height : ℤ)) && !asked (0 + step)) height 1 =
      2 ^ Nat.clog 2 depth := by
  have least : depth ≤ 2 ^ Nat.clog 2 depth := Nat.le_pow_clog (by omega) depth
  have below : ∀ step, (decide (0 + step < (height : ℤ)) && !asked (0 + step)) = true → step < height := by
    intro step holds
    simp only [zero_add, Bool.and_eq_true, decide_eq_true_eq] at holds
    exact holds.1
  apply doubleWhile_eq_two_pow below
  · omega
  · by_contra continues
    simp only [zero_add, Bool.not_eq_false, Bool.and_eq_true, decide_eq_true_eq,
      Bool.not_eq_true'] at continues
    obtain ⟨low, missed⟩ := continues
    have inside := window (2 ^ Nat.clog 2 depth) (by positivity) (by omega)
    rw [missed] at inside
    zify at hits least
    simp only [Bool.false_eq_true, false_iff, not_and, not_lt] at inside
    have := inside (by exact_mod_cast least)
    omega
  · intro i before
    have small : 2 ^ i < depth := (Nat.lt_clog_iff_pow_lt (by omega)).mp before
    zify at small
    have missed : ¬ asked (2 ^ i) = true := by
      rw [window (2 ^ i) (by positivity) (by omega)]
      omega
    simp only [zero_add, Bool.and_eq_true, decide_eq_true_eq, Bool.not_eq_true']
    exact ⟨by omega, by simpa using missed⟩

/-- A doubling that passes the window ends above it. -/
theorem double_passes (window : ∀ v : ℤ, 0 ≤ v → v ≤ height →
      (asked v = true ↔ (depth : ℤ) ≤ v ∧ v < threshold))
    (beyond : threshold ≤ 2 ^ Nat.clog 2 depth) (more : 2 ^ Nat.clog 2 depth < height) :
    let step := doubleWhile (fun step => decide (0 + step < (height : ℤ)) && !asked (0 + step)) height 1
    (threshold : ℤ) ≤ step / 2 ∧ step / 2 < height ∧ (height : ℤ) ≤ step := by
  have below : ∀ step, (decide (0 + step < (height : ℤ)) && !asked (0 + step)) = true → step < height := by
    intro step holds
    simp only [zero_add, Bool.and_eq_true, decide_eq_true_eq] at holds
    exact holds.1
  obtain ⟨j, result, stops, before⟩ := doubleWhile_spec below height 1 (by omega) (by omega)
  simp only [one_mul, zero_add, Bool.and_eq_false_iff, decide_eq_false_iff_not, not_lt,
    Bool.not_eq_false', Bool.and_eq_true, decide_eq_true_eq, Bool.not_eq_true'] at result stops before
  -- No power of two is inside the window: it is below `depth` or not below the next one.
  have outside (i : Nat) : 2 ^ i < depth ∨ threshold ≤ 2 ^ i := by
    by_cases before : i < Nat.clog 2 depth
    · exact .inl ((Nat.lt_clog_iff_pow_lt (by omega)).mp before)
    · exact .inr (beyond.trans (Nat.pow_le_pow_right (by omega) (by omega)))
  have ended : (height : ℤ) ≤ 2 ^ j := by
    by_contra low
    have found := stops.resolve_left low
    rw [window (2 ^ j) (by positivity) (by omega)] at found
    obtain small | large := outside j
    · zify at small
      omega
    · zify at large
      omega
  have later : Nat.clog 2 depth < j := by
    rw [← Nat.pow_lt_pow_iff_right (a := 2) (by omega)]
    zify at more ⊢
    omega
  obtain ⟨i, rfl⟩ : ∃ i, j = i + 1 := ⟨j - 1, by omega⟩
  have half : (2 : ℤ) ^ (i + 1) / 2 = 2 ^ i := by omega
  have passed : threshold ≤ 2 ^ i := beyond.trans (Nat.pow_le_pow_right (by omega) (by omega))
  simp only [zero_add]
  rw [result, half]
  exact ⟨by exact_mod_cast passed, (before i (by omega)).1, ended⟩

/-- The search finds the lower end of the window exactly when it hits the window. -/
theorem binarySearch_eq_iff (shallow : depth < threshold) (within : threshold ≤ height)
    (window : ∀ v : ℤ, 0 ≤ v → v ≤ height → (asked v = true ↔ (depth : ℤ) ≤ v ∧ v < threshold)) :
    binarySearchWithEstimate 0 height 0 asked = depth ↔ SearchHits height threshold depth := by
  have start := window 0 (le_refl 0) (by omega)
  unfold binarySearchWithEstimate
  split
  case isTrue found =>
    have zero : depth = 0 := by
      have := start.mp found
      omega
    subst zero
    refine iff_of_true ?_ (.inl (by omega))
    simp only [sub_zero, Int.toNat_zero, doubleWhile]
    exact bisect_of_le_one (by norm_num)
  case isFalse missed =>
    have positive : 0 < depth := by
      by_contra none
      exact missed (start.mpr ⟨by omega, by omega⟩)
    simp only [sub_zero, Int.toNat_natCast, SearchHits]
    by_cases hits : 2 ^ Nat.clog 2 depth < threshold ∨ height ≤ 2 ^ Nat.clog 2 depth
    · rw [double_stops_at shallow within window hits]
      by_cases one : depth = 1
      · subst one
        refine iff_of_true ?_ (.inl (le_refl 1))
        simp only [Nat.clog_one_right, pow_zero]
        rw [bisect_of_le_one (by omega)]
        omega
      · -- The interval that is bisected begins below the window.
        have least : depth ≤ 2 ^ Nat.clog 2 depth := Nat.le_pow_clog (by omega) depth
        obtain ⟨c, clog⟩ : ∃ c, Nat.clog 2 depth = c + 1 :=
          ⟨Nat.clog 2 depth - 1, by have := Nat.clog_pos (b := 2) (by omega) (n := depth) (by omega); omega⟩
        have half : 2 ^ c < depth := (Nat.lt_clog_iff_pow_lt (by omega)).mp (by omega)
        rw [clog] at least hits ⊢
        simp only [zero_add]
        zify at least half
        rw [bisect_window threshold (by omega) (by omega)
          fun v lower upper => window v (by omega) (by omega)]
        push_cast
        constructor
        · exact fun inside => .inr ⟨hits, inside⟩
        · exact fun condition => (condition.resolve_left (by omega)).2
    · push Not at hits
      obtain ⟨passed, more, ended⟩ := double_passes window hits.1 hits.2
      refine iff_of_false ?_ ?_
      · have above := lt_bisect asked more
        simp only [zero_add] at passed ended above ⊢
        rw [min_eq_left (by omega)]
        omega
      · rintro (one | ⟨reached, -⟩)
        · have : depth = 1 := by omega
          subst this
          simp at hits
          omega
        · omega

end

theorem head?_blocksBetween {first last : ℤ} (nonempty : first ≤ last) :
    (blocksBetween first last).head? = some first := by
  obtain ⟨count, length⟩ : ∃ count, (last + 1 - first).toNat = count + 1 :=
    ⟨(last - first).toNat, by omega⟩
  rw [blocksBetween, length, List.range_succ_eq_map]
  simp

/-- The first round finds the fork point, and submits from the block above it on,
exactly when its search hits the blocks that the client still has. -/
theorem fork_point_iff (relay : Eth2NearRelay) (client : Client) (chain : MainChain)
    (threshold depth : Nat) (fresh : relay.previousBlockNumber = none)
    (forked : Forked client chain threshold depth) :
    ((relay.round client chain).delta = depth ∧
      ((client.lastBlockNumber : ℤ) - depth < chain.blockNumber → 0 < relay.totalSubmitBlock →
        (relay.round client chain).submitted.head? =
          some ((client.lastBlockNumber : ℤ) - depth + 1))) ↔
      SearchHits client.lastBlockNumber threshold depth := by
  have search := binarySearch_eq_iff forked.shallow forked.within
    fun v lower upper => forked.predicate_iff lower upper
  rw [← search]
  simp only [Eth2NearRelay.round, fresh, Option.elim_none]
  constructor
  · exact fun found => found.1
  · intro found
    refine ⟨found, ?_⟩
    intro behind several
    rw [found, if_pos behind]
    apply head?_blocksBetween
    split <;> omega

/-- A hash that shows its number and the branch it is on. -/
def markedHash (branch : UInt8) (number : Nat) : H256 :=
  ⟨branch :: UInt8.ofNat (number / 256) :: UInt8.ofNat number :: List.replicate 29 0, rfl⟩

def markedChain (blockNumber : Nat) : MainChain := ⟨markedHash 0, blockNumber⟩

/-- A client of some height, with a fork of some depth and all it forgot. -/
def forkedClient (height threshold depth : Nat) : Client where
  validateEthash := false
  dagsStartEpoch := 0
  dagsMerkleRoots := []
  bestHeaderHash := markedHash 1 height
  hashesGcThreshold := threshold
  finalizedGcThreshold := threshold
  numConfirmations := 0
  canonicalHeaderHashes := fun _ => none
  allHeaderHashes := fun number =>
    if number + threshold ≤ height ∨ height < number then none
    else some [markedHash (if number + depth ≤ height then 0 else 1) number]
  headers := fun _ => none
  infos := fun hash =>
    if hash = markedHash 1 height then some ⟨0, markedHash 1 (height - 1), height⟩ else none
  trustedSigner := none
  paused := 0

theorem forkedClient_lastBlockNumber (height threshold depth : Nat) :
    (forkedClient height threshold depth).lastBlockNumber = height := by
  simp [forkedClient, Client.lastBlockNumber]

theorem markedHash_branch {branch other : UInt8} {number : Nat} (different : branch ≠ other) :
    markedHash branch number ≠ markedHash other number := by
  intro same
  have lists := congrArg List.Vector.toList same
  simp only [markedHash, List.Vector.toList_mk, List.cons.injEq] at lists
  exact different lists.1

theorem forkedClient_forked {height threshold depth : Nat} (shallow : depth < threshold)
    (within : threshold ≤ height) (blockNumber : Nat) :
    Forked (forkedClient height threshold depth) (markedChain blockNumber) threshold depth where
  shallow := shallow
  within := by rwa [forkedClient_lastBlockNumber]
  forgotten := by
    intro number old
    rw [forkedClient_lastBlockNumber] at old
    simp [forkedClient, Client.knownHashes, old]
  kept := by
    intro number below recent
    rw [forkedClient_lastBlockNumber] at below recent ⊢
    have kept : ¬ (number + threshold ≤ height ∨ height < number) := by omega
    simp only [Client.knownHashes, forkedClient, markedChain, if_neg kept, Option.getD_some,
      List.mem_singleton]
    by_cases main : number + depth ≤ height
    · simp [main]
    · simp only [main, if_false, iff_false]
      exact markedHash_branch (by decide)

theorem fork_point_iff_sample :
    ((Eth2NearRelay.mk 10 none).round (forkedClient 1000 500 200) (markedChain 1100)).delta = 200 := by
  have forked := forkedClient_forked (show 200 < 500 by omega) (show 500 ≤ 1000 by omega) 1100
  refine ((fork_point_iff ⟨10, none⟩ (forkedClient 1000 500 200) (markedChain 1100) 500 200 rfl
    forked).mpr ?_).1
  rw [forkedClient_lastBlockNumber]
  refine .inr ⟨.inl (by decide), 0, ?_⟩
  decide

/-- Three hundred blocks deep, the search steps over the window of five hundred
and ends at the first block of all. -/
theorem deep_fork_missed :
    Forked (forkedClient 1000 500 300) (markedChain 1100) 500 300 ∧
      ((Eth2NearRelay.mk 10 none).round (forkedClient 1000 500 300) (markedChain 1100)).delta = 1000 ∧
      ((Eth2NearRelay.mk 10 none).round (forkedClient 1000 500 300) (markedChain 1100)).submitted =
        [1] := by
  refine ⟨forkedClient_forked (by omega) (by omega) 1100, ?_⟩
  decide +kernel

end RainbowBridge.Relay
