import RainbowBridge.NearBridge.Rollback
import Mathlib.Algebra.BigOperators.Fin

/-! The stake threshold: what `setBlockProducers` leaves in a slot of the epoch
ring, and what the approval check of `addLightClientBlock` then makes of it. -/

namespace RainbowBridge.NearBridge

open Solidity

/-- The stake of the producers whose approval is present, each counted once. -/
theorem approvedStake_eq_sum (producers : List BlockProducer) (approvals : List OptionalSignature) :
    approvedStake producers approvals =
      ∑ i : Fin producers.length, if approved approvals i then producers[i].stake.toNat else 0 := by
  induction producers generalizing approvals with
  | nil => simp [approvedStake]
  | cons producer rest ih =>
    refine Eq.trans ?_ (Fin.sum_univ_succ _).symm
    cases approvals with
    | nil => simp [approvedStake, approved]
    | cons approval approvals =>
      rw [approvedStake_cons, ih approvals]
      simp [approved]
      rfl

theorem totalStake_eq_sum (producers : List BlockProducer) :
    totalStake producers = ∑ i : Fin producers.length, producers[i].stake.toNat := by
  induction producers with
  | nil => simp [totalStake]
  | cons producer rest ih =>
    refine Eq.trans ?_ (Fin.sum_univ_succ _).symm
    rw [totalStake_cons, ih]
    rfl

theorem require_eq_error {condition : Prop} [Decidable condition] {error reason : Revert} :
    require condition error = .error reason ↔ ¬ condition ∧ error = reason := by
  unfold require
  split <;> simp_all

theorem bind_eq_error {α β ε : Type} {first : Except ε α} {next : α → Except ε β} {reason : ε} :
    (first >>= next) = .error reason ↔
      first = .error reason ∨ ∃ value, first = .ok value ∧ next value = .error reason := by
  cases first with
  | error error => simp [bind, Except.bind]
  | ok value => simp [bind, Except.bind]

theorem setBlockProducers_eq_error {src : List BlockProducer} {epoch : Epoch} {reason : Revert} :
    setBlockProducers src epoch = .error reason ↔ maxBlockProducers < src.length ∧
      "It is not expected having that many block producers for the provided block" = reason := by
  unfold setBlockProducers
  split <;> simp_all

/-- A block that passed the checks before it is refused for its approvals exactly
when they do not reach the threshold of its epoch. -/
theorem acceptBlock_tooFew_iff {cfg : Config} {env : Env} {nearBlock : LightClientBlock} {s : State}
    {next : Bool} (higher : s.curHeight < nearBlock.innerLite.height)
    (epoch : fromNextEpoch nearBlock s = .ok next)
    (long : (s.epochOf next).numBPs ≤ nearBlock.approvalsAfterNext.length) :
    acceptBlock cfg env nearBlock s = .error "Too few approvals" ↔
      ¬ (s.epochOf next).stakeThreshold < countVotes (s.epochOf next).packedStakes
        nearBlock.approvalsAfterNext (s.epochOf next).numBPs 0 0 := by
  -- The checks that follow have reasons of their own.
  have later : announceEpoch nearBlock next s ≠ .error "Too few approvals" := by
    intro refused
    unfold announceEpoch at refused
    split at refused
    · simp only [bind_eq_error, setBlockProducers_eq_error] at refused
      obtain ⟨-, other⟩ | ⟨_, _, done⟩ := refused
      · exact absurd other (by decide)
      · cases done
    · cases refused
  simp only [acceptBlock, bind_eq_error, require_eq_error, require_eq_ok, higher, epoch]
  constructor
  · intro refused enough
    simp [long, enough, later, pure, Except.pure] at refused
    omega
  · intro few
    simp only [Except.ok.injEq, exists_eq_left', long, few]
    simp

/-- The threshold test is exact, whatever the slot held before. -/
theorem stake_threshold_exact (producers : List BlockProducer) (slot : Epoch) :
    (producers.length ≤ maxBlockProducers →
      ∃ stored, setBlockProducers producers slot = .ok stored ∧
        (∀ i (inside : i < producers.length), stored.keys i = producers[i].publicKey) ∧
        ∀ (cfg : Config) (env : Env) (nearBlock : LightClientBlock) (s : State) (next : Bool),
          s.curHeight < nearBlock.innerLite.height → fromNextEpoch nearBlock s = .ok next →
          s.epochOf next = stored → producers.length ≤ nearBlock.approvalsAfterNext.length →
          let votedFor := ∑ i : Fin producers.length,
            if approved nearBlock.approvalsAfterNext i then producers[i].stake.toNat else 0
          countVotes stored.packedStakes nearBlock.approvalsAfterNext stored.numBPs 0 0 = votedFor ∧
            (acceptBlock cfg env nearBlock s ≠ .error "Too few approvals" ↔
              2 * ∑ i : Fin producers.length, producers[i].stake.toNat < 3 * votedFor)) ∧
    (maxBlockProducers < producers.length → setBlockProducers producers slot =
      .error "It is not expected having that many block producers for the provided block") := by
  constructor
  · intro few
    obtain ⟨stored, success⟩ := setBlockProducers_of_le few slot
    obtain ⟨-, holds, -⟩ := setBlockProducers_eq_ok success
    refine ⟨stored, success, holds.keys, ?_⟩
    intro cfg env nearBlock s next higher epoch slotted long votedFor
    have counted : countVotes stored.packedStakes nearBlock.approvalsAfterNext stored.numBPs 0 0 =
        votedFor := by
      rw [holds.countVotes_eq long, approvedStake_eq_sum]
    have enough : stored.numBPs ≤ nearBlock.approvalsAfterNext.length := holds.count ▸ long
    refine ⟨counted, ?_⟩
    rw [Ne, acceptBlock_tooFew_iff higher epoch (slotted ▸ enough), not_not, slotted,
      holds.votes_iff enough, Quorum, totalStake_eq_sum, approvedStake_eq_sum]
  · intro many
    exact setBlockProducers_eq_error.mpr ⟨many, rfl⟩

/-- Three producers with stakes five, zero and six. -/
def threeProducers : List BlockProducer :=
  [⟨zeroBytes 32, 5, false⟩, ⟨zeroBytes 32, 0, false⟩, ⟨zeroBytes 32, 6, true⟩]

/-- A block of height one with the approvals of some producers. -/
def blockWith (present : List Bool) : LightClientBlock where
  prevBlockHash := zeroBytes 32
  nextBlockInnerHash := zeroBytes 32
  innerLite := ⟨1, zeroBytes 32, zeroBytes 32, zeroBytes 32, zeroBytes 32, 0, zeroBytes 32, zeroBytes 32,
    zeroBytes 32⟩
  innerRestHash := zeroBytes 32
  nextBps := ⟨false, [], zeroBytes 32⟩
  approvalsAfterNext := present.map fun some => ⟨some, zeroBytes 32, zeroBytes 32⟩
  hash := zeroBytes 32
  nextHash := zeroBytes 32

theorem stake_threshold_exact_sample :
    ∃ stored, setBlockProducers threeProducers .unset = .ok stored ∧
      (acceptBlock sampleConfig ⟨1, 5, fun _ => true⟩ (blockWith [true, false, true, true])
        { State.deployed 0 with epochs := fun _ => stored } ≠ .error "Too few approvals" ↔
          2 * 11 < 3 * 11) := by
  obtain ⟨stored, success, -, exact⟩ :=
    (stake_threshold_exact threeProducers .unset).1 (by decide)
  have same : stored.epochId = zeroBytes 32 := (setBlockProducers_eq_ok success).2.2
  refine ⟨stored, success, ?_⟩
  exact (exact sampleConfig ⟨1, 5, fun _ => true⟩ (blockWith [true, false, true, true])
    { State.deployed 0 with epochs := fun _ => stored } false (by simp [State.deployed, blockWith])
    (by simp [fromNextEpoch, blockWith, same]) rfl (by decide)).2

end RainbowBridge.NearBridge
