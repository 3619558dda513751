import RainbowBridge.Solidity.NearDecoder
import Mathlib.Logic.Function.Basic
import Mathlib.Algebra.BigOperators.Group.List.Basic

/-! The validator set of one epoch as the bridge stores it: keys in one array,
stakes packed two to a word, and a stake threshold. -/

namespace RainbowBridge.NearBridge

open Solidity

def maxBlockProducers : Nat := 100

/-- One slot of the epoch ring. Indices of `keys` run below `maxBlockProducers`,
those of `packedStakes` below half of it. -/
structure Epoch where
  epochId : Bytes32
  numBPs : Nat
  keys : Nat → Bytes32
  packedStakes : Nat → Nat
  stakeThreshold : Nat
  numBPs_le : numBPs ≤ maxBlockProducers

/-- A slot that was never written. -/
def Epoch.unset : Epoch := ⟨zeroBytes 32, 0, fun _ => zeroBytes 32, fun _ => 0, 0, Nat.zero_le _⟩

/-- The second loop of `setBlockProducers`, two producers per round. -/
def packStakes : List BlockProducer → Nat → (Nat → Nat) → Nat → (Nat → Nat) × Nat
  | [], _, packed, totalStake => (packed, totalStake)
  | [first], pair, packed, totalStake =>
    (Function.update packed pair (first.stake.toNat * 2 ^ 128),
      uncheckedAdd totalStake first.stake.toNat)
  | first :: second :: rest, pair, packed, totalStake =>
    packStakes rest (pair + 1)
      (Function.update packed pair (uncheckedAdd (first.stake.toNat * 2 ^ 128) second.stake.toNat))
      (uncheckedAdd (uncheckedAdd totalStake first.stake.toNat) second.stake.toNat)

/-- Whatever the slot held beyond the new producers stays there. -/
def setBlockProducers (src : List BlockProducer) (epoch : Epoch) : Except Revert Epoch :=
  if few : src.length ≤ maxBlockProducers then
    let (packedStakes, totalStake) := packStakes src 0 epoch.packedStakes 0
    .ok { epoch with
      numBPs := src.length
      keys := fun i => if inside : i < src.length then src[i].publicKey else epoch.keys i
      packedStakes := packedStakes
      stakeThreshold := totalStake * 2 % 2 ^ 256 / 3
      numBPs_le := few }
  else .error "It is not expected having that many block producers for the provided block"

/-- Whether the approval at an index is present. -/
def approved (approvals : List OptionalSignature) (i : Nat) : Bool :=
  match approvals[i]? with
  | none => false
  | some approval => approval.some

/-- `stakes` as `uint128(bytes16(stakes))` or `uint128(uint256(stakes))`, by parity. -/
def packedStake (packed : Nat → Nat) (i : Nat) : Nat :=
  if i % 2 = 0 then packed (i / 2) / 2 ^ 128 else packed (i / 2) % 2 ^ 128

/-- One addition of the approval loop. -/
def addVote (packed : Nat → Nat) (approvals : List OptionalSignature) (i votedFor : Nat) : Nat :=
  if approved approvals i then uncheckedAdd votedFor (packedStake packed i) else votedFor

/-- The approval loop of `addLightClientBlock`, two producers per round. -/
def countVotes (packed : Nat → Nat) (approvals : List OptionalSignature) : Nat → Nat → Nat → Nat
  | 0, _, votedFor => votedFor
  | 1, i, votedFor => addVote packed approvals i votedFor
  | remaining + 2, i, votedFor =>
    countVotes packed approvals remaining (i + 2)
      (addVote packed approvals (i + 1) (addVote packed approvals i votedFor))

/-- Sum of the stakes of a validator set. -/
def totalStake (producers : List BlockProducer) : Nat :=
  (producers.map fun producer => producer.stake.toNat).sum

/-- Sum of the stakes whose approval is present. -/
def approvedStake (producers : List BlockProducer) (approvals : List OptionalSignature) : Nat :=
  ((producers.zip approvals).map fun pair => if pair.2.some then pair.1.stake.toNat else 0).sum

/-- The approvals hold strictly more than two thirds of the stake. -/
def Quorum (producers : List BlockProducer) (approvals : List OptionalSignature) : Prop :=
  2 * totalStake producers < 3 * approvedStake producers approvals

/-- The slot stores exactly this validator set. -/
structure Epoch.Holds (epoch : Epoch) (producers : List BlockProducer) : Prop where
  count : epoch.numBPs = producers.length
  keys : ∀ i (inside : i < producers.length), epoch.keys i = producers[i].publicKey
  stakes : ∀ i (inside : i < producers.length),
    packedStake epoch.packedStakes i = producers[i].stake.toNat
  threshold : epoch.stakeThreshold = 2 * totalStake producers / 3

theorem totalStake_lt {producers : List BlockProducer} (few : producers.length ≤ maxBlockProducers) :
    totalStake producers < 2 ^ 135 := by
  have bound : totalStake producers ≤ producers.length * 2 ^ 128 := by
    clear few
    induction producers with
    | nil => simp [totalStake]
    | cons producer rest ih =>
      have stake := producer.stake.isLt
      simp only [totalStake, List.map_cons, List.sum_cons, List.length_cons] at ih ⊢
      omega
  simp only [maxBlockProducers] at few
  omega

@[simp] theorem totalStake_cons (producer : BlockProducer) (rest : List BlockProducer) :
    totalStake (producer :: rest) = producer.stake.toNat + totalStake rest := by
  simp [totalStake]

theorem uncheckedAdd_of_lt {a b : Nat} (small : a + b < 2 ^ 256) : uncheckedAdd a b = a + b :=
  Nat.mod_eq_of_lt small

/-- The pair slots below the first one written keep their contents. -/
theorem packStakes_frame (src : List BlockProducer) (pair : Nat) (packed : Nat → Nat) (total : Nat)
    (index : Nat) (before : index < pair) : (packStakes src pair packed total).1 index = packed index := by
  fun_induction packStakes src pair packed total with
  | case1 pair packed total => rfl
  | case2 first pair packed total => simp [Function.update_of_ne (Nat.ne_of_lt before)]
  | case3 first second rest pair packed total ih =>
    rw [ih (by omega), Function.update_of_ne (Nat.ne_of_lt before)]

theorem packStakes_stakes (src : List BlockProducer) (pair : Nat) (packed : Nat → Nat) (total : Nat)
    (i : Nat) (inside : i < src.length) :
    packedStake (packStakes src pair packed total).1 (2 * pair + i) = src[i].stake.toNat := by
  fun_induction packStakes src pair packed total generalizing i with
  | case1 pair packed total => simp at inside
  | case2 first pair packed total =>
    obtain rfl : i = 0 := by simpa using inside
    simp [packedStake]
  | case3 first second rest pair packed total ih =>
    have low := first.stake.isLt
    have high := second.stake.isLt
    have word : uncheckedAdd (first.stake.toNat * 2 ^ 128) second.stake.toNat =
        first.stake.toNat * 2 ^ 128 + second.stake.toNat := uncheckedAdd_of_lt (by omega)
    have written : ∀ updated : Nat, (packStakes rest (pair + 1) (Function.update packed pair updated)
        (uncheckedAdd (uncheckedAdd total first.stake.toNat) second.stake.toNat)).1 pair = updated := by
      intro updated
      rw [packStakes_frame _ _ _ _ _ (by omega), Function.update_self]
    match i, inside with
    | 0, _ =>
      have half : (2 * pair + 0) / 2 = pair := by omega
      have even : (2 * pair + 0) % 2 = 0 := by omega
      simp only [packedStake, half, even, if_true, written, word, List.getElem_cons_zero]
      omega
    | 1, _ =>
      have half : (2 * pair + 1) / 2 = pair := by omega
      have odd : ¬ (2 * pair + 1) % 2 = 0 := by omega
      simp only [packedStake, half, odd, if_false, written, word, List.getElem_cons_succ,
        List.getElem_cons_zero]
      omega
    | i + 2, inside =>
      have tail := ih i (by simpa using inside)
      have index : 2 * pair + (i + 2) = 2 * (pair + 1) + i := by omega
      simpa only [index, List.getElem_cons_succ] using tail

theorem packStakes_total (src : List BlockProducer) (pair : Nat) (packed : Nat → Nat) (total : Nat)
    (small : total + totalStake src < 2 ^ 256) :
    (packStakes src pair packed total).2 = total + totalStake src := by
  fun_induction packStakes src pair packed total with
  | case1 pair packed total => simp [totalStake]
  | case2 first pair packed total =>
    rw [totalStake_cons] at small
    rw [uncheckedAdd_of_lt (by omega)]
    simp [totalStake]
  | case3 first second rest pair packed total ih =>
    simp only [totalStake_cons] at small ⊢
    have one : uncheckedAdd total first.stake.toNat = total + first.stake.toNat :=
      uncheckedAdd_of_lt (by omega)
    have two : uncheckedAdd (total + first.stake.toNat) second.stake.toNat =
        total + first.stake.toNat + second.stake.toNat := uncheckedAdd_of_lt (by omega)
    rw [one, two] at ih ⊢
    rw [ih (by omega)]
    omega

theorem setBlockProducers_eq_ok {src : List BlockProducer} {epoch result : Epoch}
    (success : setBlockProducers src epoch = .ok result) :
    src.length ≤ maxBlockProducers ∧ result.Holds src ∧ result.epochId = epoch.epochId := by
  unfold setBlockProducers at success
  split at success
  · rename_i few
    have small := totalStake_lt few
    have total : (packStakes src 0 epoch.packedStakes 0).2 = totalStake src := by
      simpa using packStakes_total src 0 epoch.packedStakes 0 (by omega)
    cases success
    refine ⟨few, ⟨rfl, ?_, ?_, ?_⟩, rfl⟩
    · intro i inside
      simp [inside]
    · intro i inside
      simpa using packStakes_stakes src 0 epoch.packedStakes 0 i inside
    · simp only [total]
      omega
  · cases success

@[simp] theorem approvedStake_cons (producer : BlockProducer) (rest : List BlockProducer)
    (approval : OptionalSignature) (approvals : List OptionalSignature) :
    approvedStake (producer :: rest) (approval :: approvals) =
      (if approval.some then producer.stake.toNat else 0) + approvedStake rest approvals := by
  simp [approvedStake]

theorem addVote_eq {packed : Nat → Nat} {approvals : List OptionalSignature} {i votedFor : Nat}
    {approval : OptionalSignature} (found : approvals[i]? = some approval)
    (small : votedFor + packedStake packed i < 2 ^ 256) :
    addVote packed approvals i votedFor =
      votedFor + if approval.some then packedStake packed i else 0 := by
  simp only [addVote, approved, found]
  split
  · exact uncheckedAdd_of_lt small
  · simp

/-- The loop counts the stake at index `i + j` once, for the approval there. -/
theorem countVotes_eq (packed : Nat → Nat) (approvals : List OptionalSignature) :
    ∀ (producers : List BlockProducer) (i votedFor : Nat),
      i + producers.length ≤ approvals.length →
      (∀ j (inside : j < producers.length), packedStake packed (i + j) = producers[j].stake.toNat) →
      votedFor + totalStake producers < 2 ^ 256 →
      countVotes packed approvals producers.length i votedFor =
        votedFor + approvedStake producers (approvals.drop i)
  | [], i, votedFor, _, _, _ => by simp [countVotes, approvedStake]
  | [producer], i, votedFor, long, stored, small => by
    have here : i < approvals.length := by simp at long; omega
    have stake := stored 0 (by simp)
    simp only [List.getElem_cons_zero, Nat.add_zero] at stake
    simp only [totalStake_cons] at small
    have dropped : approvals.drop i = approvals[i] :: approvals.drop (i + 1) :=
      List.drop_eq_getElem_cons here
    simp only [List.length_singleton, countVotes]
    rw [addVote_eq (List.getElem?_eq_getElem here) (by omega), dropped, approvedStake_cons, stake]
    simp [approvedStake]
  | first :: second :: rest, i, votedFor, long, stored, small => by
    simp only [List.length_cons] at long
    have here : i < approvals.length := by omega
    have next : i + 1 < approvals.length := by omega
    have stake₀ := stored 0 (by simp)
    have stake₁ := stored 1 (by simp)
    simp only [List.getElem_cons_zero, List.getElem_cons_succ, Nat.add_zero] at stake₀ stake₁
    simp only [totalStake_cons] at small
    have dropped : approvals.drop i = approvals[i] :: approvals[i + 1] :: approvals.drop (i + 2) := by
      rw [List.drop_eq_getElem_cons here, List.drop_eq_getElem_cons next]
    have vote₀ : addVote packed approvals i votedFor =
        votedFor + if approvals[i].some then first.stake.toNat else 0 := by
      rw [addVote_eq (List.getElem?_eq_getElem here) (by omega), stake₀]
    have vote₁ : addVote packed approvals (i + 1) (addVote packed approvals i votedFor) =
        votedFor + (if approvals[i].some then first.stake.toNat else 0) +
          if approvals[i + 1].some then second.stake.toNat else 0 := by
      rw [vote₀, addVote_eq (List.getElem?_eq_getElem next) (by split <;> omega), stake₁]
    have tail := countVotes_eq packed approvals rest (i + 2)
      (addVote packed approvals (i + 1) (addVote packed approvals i votedFor)) (by omega)
      (fun j inside => by
        have later := stored (j + 2) (by simp [inside])
        simpa only [List.getElem_cons_succ, show i + 2 + j = i + (j + 2) by omega] using later)
      (by rw [vote₁]; split <;> split <;> omega)
    simp only [List.length_cons, countVotes]
    rw [tail, vote₁, dropped, approvedStake_cons, approvedStake_cons]
    omega

/-- The approval loop adds up exactly the stakes of the approving producers. -/
theorem Epoch.Holds.countVotes_eq {epoch : Epoch} {producers : List BlockProducer}
    {approvals : List OptionalSignature} (stored : epoch.Holds producers)
    (long : producers.length ≤ approvals.length) :
    countVotes epoch.packedStakes approvals epoch.numBPs 0 0 = approvedStake producers approvals := by
  have few : producers.length ≤ maxBlockProducers := stored.count ▸ epoch.numBPs_le
  have total := totalStake_lt few
  rw [stored.count, NearBridge.countVotes_eq epoch.packedStakes approvals producers 0 0 (by omega)
    (fun j inside => by simpa using stored.stakes j inside) (by omega)]
  simp

/-- The threshold test of `addLightClientBlock` is the exact two-thirds rule. -/
theorem Epoch.Holds.votes_iff {epoch : Epoch} {producers : List BlockProducer}
    {approvals : List OptionalSignature} (stored : epoch.Holds producers)
    (long : epoch.numBPs ≤ approvals.length) :
    epoch.stakeThreshold < countVotes epoch.packedStakes approvals epoch.numBPs 0 0 ↔
      Quorum producers approvals := by
  rw [stored.countVotes_eq (stored.count ▸ long), stored.threshold, Quorum]
  omega

theorem setBlockProducers_of_le {src : List BlockProducer} (few : src.length ≤ maxBlockProducers)
    (epoch : Epoch) : ∃ result, setBlockProducers src epoch = .ok result := by
  simp [setBlockProducers, few]

end RainbowBridge.NearBridge
