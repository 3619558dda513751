import RainbowBridge.Lib.Machine
import RainbowBridge.NearBridge.Contract

/-! What each function does when it succeeds, and whole runs of the contract:
calls by anyone, waiting, and ETH forced into the contract, in any order, with
reads in between. -/

namespace RainbowBridge.NearBridge

open Lib Solidity

theorem transfer_eq_ok {env : Env} {recipient : Address} {amount : Nat} {s s' : State} :
    transfer env recipient amount s = .ok s' ↔
      (amount ≤ s.balance ∧ env.accepts recipient = true) ∧
        { s with balance := s.balance - amount } = s' := by
  simp only [transfer, bind_eq_ok, require_eq_ok, pure_eq_ok, exists_and_left, exists_const]

theorem deposit_eq_ok {cfg : Config} {env : Env} {value : Nat} {s s' : State} :
    deposit cfg env value s = .ok s' ↔
      Unpaused cfg env s pausedDeposit ∧ (value = cfg.lockEthAmount ∧ s.balanceOf env.sender = 0) ∧
        { s with
          balanceOf := Function.update s.balanceOf env.sender value
          balance := s.balance + value } = s' := by
  simp only [deposit, bind_eq_ok, require_eq_ok, pure_eq_ok, exists_and_left, exists_const]

theorem withdraw_eq_ok {cfg : Config} {env : Env} {s s' : State} :
    withdraw cfg env s = .ok s' ↔
      Unpaused cfg env s pausedWithdraw ∧
        (env.sender ≠ s.lastSubmitter ∨ s.lastValidAt ≤ env.timestamp) ∧
        s.balanceOf env.sender ≠ 0 ∧
        (s.balanceOf env.sender ≤ s.balance ∧ env.accepts env.sender = true) ∧
        { s with
          balanceOf := Function.update s.balanceOf env.sender 0
          balance := s.balance - s.balanceOf env.sender } = s' := by
  simp only [withdraw, bind_eq_ok, require_eq_ok, transfer_eq_ok, exists_and_left, exists_const]

theorem checkBlockProducerSignatureInHead_eq_ok {cfg : Config} {s : State} {signatureIndex : Nat}
    {valid : Bool} : checkBlockProducerSignatureInHead cfg s signatureIndex = .ok valid ↔
      s.hasSignature signatureIndex ∧ signatureIndex < maxBlockProducers ∧
        edwardsCheck cfg s signatureIndex = valid := by
  simp only [checkBlockProducerSignatureInHead, bind_eq_ok, require_eq_ok, pure_eq_ok,
    exists_and_left, exists_const]

theorem challenge_eq_ok {cfg : Config} {env : Env} {receiver : Address} {signatureIndex : Nat}
    {s s' : State} :
    challenge cfg env receiver signatureIndex s = .ok s' ↔
      Unpaused cfg env s pausedChallenge ∧ env.timestamp < s.lastValidAt ∧
        checkBlockProducerSignatureInHead cfg s signatureIndex = .ok false ∧
        cfg.lockEthAmount ≤ s.balanceOf s.lastSubmitter ∧
        (cfg.lockEthAmount / 2 ≤ s.balance ∧ env.accepts receiver = true) ∧
        { s with
          balanceOf := Function.update s.balanceOf s.lastSubmitter
            (s.balanceOf s.lastSubmitter - cfg.lockEthAmount)
          balance := s.balance - cfg.lockEthAmount / 2
          lastValidAt := 0 } = s' := by
  simp only [challenge, bind_eq_ok, require_eq_ok, pure_eq_ok, transfer_eq_ok]
  constructor
  · rintro ⟨_, unpaused, _, inside, valid, checked, _, rfl, _, bond, _, ⟨paid, rfl⟩, rfl⟩
    exact ⟨unpaused, inside, checked, bond, paid, rfl⟩
  · rintro ⟨unpaused, inside, checked, bond, paid, rfl⟩
    exact ⟨(), unpaused, (), inside, false, checked, (), rfl, (), bond, _, ⟨paid, rfl⟩, rfl⟩

theorem initWithValidators_eq_ok {cfg : Config} {env : Env} {data : Bytes} {s s' : State} :
    initWithValidators cfg env data s = .ok s' ↔
      env.sender = cfg.admin ∧ (s.initialized = false ∧ (s.epochs 0).numBPs = 0) ∧
        ∃ validators, Borsh.decodeAll NearDecoder.decodeBlockProducers data = .ok validators ∧
          ∃ epoch, setBlockProducers validators (s.epochs 0) = .ok epoch ∧
            { s with epochs := Function.update s.epochs 0 epoch } = s' := by
  simp only [initWithValidators, bind_eq_ok, require_eq_ok, pure_eq_ok, exists_and_left, exists_const]

theorem commitOrReplace_eq_ok {cfg : Config} {env : Env} {nearBlock : LightClientBlock} {s s' : State} :
    commitOrReplace cfg env nearBlock s = .ok s' ↔
      (env.timestamp < s.lastValidAt ∧
        uncheckedAdd s.untrustedTimestamp cfg.replaceDuration ≤ nearBlock.innerLite.timestamp.toNat ∧
        s = s') ∨
      (s.lastValidAt ≤ env.timestamp ∧ s.lastValidAt ≠ 0 ∧ s.commit = s') ∨
      (s.lastValidAt = 0 ∧ s = s') := by
  unfold commitOrReplace
  split
  · rename_i inside
    have pending : s.lastValidAt ≠ 0 := by omega
    have early : ¬ s.lastValidAt ≤ env.timestamp := by omega
    simp only [bind_eq_ok, require_eq_ok, pure_eq_ok, exists_and_left, exists_const, inside, pending,
      early, true_and, false_and, or_false]
  · rename_i passed
    split
    · rename_i pending
      simp [passed, pending, Nat.le_of_not_lt passed]
    · rename_i none
      simp only [ne_eq, Decidable.not_not] at none
      simp [none]

theorem commitOrReplace_frame {cfg : Config} {env : Env} {nearBlock : LightClientBlock}
    {s settled : State} (success : commitOrReplace cfg env nearBlock s = .ok settled) :
    settled.balanceOf = s.balanceOf ∧ settled.balance = s.balance := by
  rcases commitOrReplace_eq_ok.mp success with ⟨_, _, rfl⟩ | ⟨_, _, rfl⟩ | ⟨_, rfl⟩
  · exact ⟨rfl, rfl⟩
  · exact ⟨rfl, rfl⟩
  · exact ⟨rfl, rfl⟩

theorem acceptBlock_eq_ok {cfg : Config} {env : Env} {nearBlock : LightClientBlock} {s s' : State} :
    acceptBlock cfg env nearBlock s = .ok s' ↔
      s.curHeight < nearBlock.innerLite.height ∧
      ∃ next, fromNextEpoch nearBlock s = .ok next ∧
        (s.epochOf next).numBPs ≤ nearBlock.approvalsAfterNext.length ∧
        (s.epochOf next).stakeThreshold < countVotes (s.epochOf next).packedStakes
          nearBlock.approvalsAfterNext (s.epochOf next).numBPs 0 0 ∧
        (next = true → nearBlock.nextBps.some = true) ∧
        (next = true → nearBlock.nextBps.hash = nearBlock.innerLite.nextBpHash) ∧
        ∃ epochs, announceEpoch nearBlock next s = .ok epochs ∧
          s.submit cfg env nearBlock next epochs = s' := by
  simp only [acceptBlock, bind_eq_ok, require_eq_ok, pure_eq_ok, exists_and_left, exists_const]

theorem adminPause_eq_ok {cfg : Config} {env : Env} {flags : Nat} {s s' : State} :
    adminPause cfg env flags s = .ok s' ↔
      env.sender = cfg.admin ∧ { s with paused := flags } = s' := by
  simp only [adminPause, bind_eq_ok, require_eq_ok, pure_eq_ok, exists_and_left, exists_const]

theorem adminReceiveEth_eq_ok {cfg : Config} {env : Env} {value : Nat} {s s' : State} :
    adminReceiveEth cfg env value s = .ok s' ↔
      env.sender = cfg.admin ∧ { s with balance := s.balance + value } = s' := by
  simp only [adminReceiveEth, bind_eq_ok, require_eq_ok, pure_eq_ok, exists_and_left, exists_const]

theorem ring_ne (slot : Fin 3) : slot ≠ slot + 2 ∧ slot + 1 ≠ slot + 2 := by
  revert slot
  decide

theorem ring_two (slot : Fin 3) : slot + 1 + 1 = slot + 2 := by
  rw [add_assoc]
  rfl

/-- Announcing an epoch writes no slot but the third. -/
theorem announceEpoch_eq_ok {nearBlock : LightClientBlock} {next : Bool} {s : State}
    {epochs : Fin 3 → Epoch} (success : announceEpoch nearBlock next s = .ok epochs) :
    epochs s.curEpoch = s.epochs s.curEpoch ∧ epochs (s.curEpoch + 1) = s.epochs (s.curEpoch + 1) ∧
      (next = true → (epochs (s.curEpoch + 2)).epochId = nearBlock.innerLite.nextEpochId ∧
        (epochs (s.curEpoch + 2)).Holds nearBlock.nextBps.blockProducers) := by
  unfold announceEpoch at success
  split at success
  · simp only [bind_eq_ok, pure_eq_ok] at success
    obtain ⟨nextEpoch, stored, rfl⟩ := success
    obtain ⟨_, holds, id⟩ := setBlockProducers_eq_ok stored
    obtain ⟨current, following⟩ := ring_ne s.curEpoch
    refine ⟨Function.update_of_ne current _ _, Function.update_of_ne following _ _, fun _ => ?_⟩
    rw [Function.update_self]
    exact ⟨id, holds⟩
  · rename_i same
    cases success
    exact ⟨rfl, rfl, fun next => absurd next same⟩

theorem and_shift_ne_zero (set : BitVec 256) (i : Nat) :
    set &&& (1#256 <<< i) ≠ 0 ↔ set.getLsbD i = true := by
  rw [← BitVec.twoPow_eq, BitVec.and_twoPow]
  by_cases bit : set.getLsbD i = true
  · have inside : i < 256 := BitVec.lt_of_getLsbD bit
    have own : (BitVec.twoPow 256 i).getLsbD i = true := by simp [inside]
    simp only [bit, if_true, iff_true]
    intro zero
    simp [zero] at own
  · simp [bit]

/-- The set has exactly the bits of the approvals that the loop saw. -/
theorem recordSignatures_set (approvals : List OptionalSignature) (stored : Nat → Signature)
    (count : Nat) (few : count ≤ 256) (i : Nat) :
    (recordSignatures approvals stored count).1.getLsbD i = true ↔
      i < count ∧ approved approvals i = true := by
  induction count with
  | zero => simp [recordSignatures]
  | succ count ih =>
    have earlier := ih (by omega)
    simp only [recordSignatures]
    split
    · rename_i present
      simp only [BitVec.getLsbD_or, Bool.or_eq_true, earlier, ← BitVec.twoPow_eq,
        BitVec.getLsbD_twoPow, Bool.and_eq_true, decide_eq_true_eq]
      constructor
      · rintro (⟨before, found⟩ | ⟨_, rfl⟩)
        · exact ⟨by omega, found⟩
        · exact ⟨by omega, present⟩
      · rintro ⟨upto, found⟩
        by_cases last : count = i
        · exact .inr ⟨by omega, last⟩
        · exact .inl ⟨by omega, found⟩
    · rename_i absent
      rw [earlier]
      constructor
      · rintro ⟨before, found⟩
        exact ⟨by omega, found⟩
      · rintro ⟨upto, found⟩
        by_cases last : i = count
        · exact absurd (last ▸ found) absent
        · exact ⟨by omega, found⟩

/-- Signatures of the approvals that the loop saw are overwritten, the others
stay. -/
theorem recordSignatures_signature (approvals : List OptionalSignature) (stored : Nat → Signature)
    (count i : Nat) :
    (recordSignatures approvals stored count).2 i =
      if i < count ∧ approved approvals i = true then signatureAt approvals i else stored i := by
  induction count with
  | zero => simp [recordSignatures]
  | succ count ih =>
    simp only [recordSignatures]
    by_cases last : i = count
    · subst last
      split <;> simp_all
    · have same : i < count + 1 ↔ i < count := by omega
      split <;> simp [ih, same, last]

variable [Hashing]

theorem initWithBlock_eq_ok {cfg : Config} {env : Env} {data : Bytes} {s s' : State} :
    initWithBlock cfg env data s = .ok s' ↔
      env.sender = cfg.admin ∧ (s.initialized = false ∧ (s.epochs 0).numBPs ≠ 0) ∧
        ∃ nearBlock, Borsh.decodeAll NearDecoder.decodeLightClientBlock data = .ok nearBlock ∧
          nearBlock.nextBps.some = true ∧
          ∃ next, setBlockProducers nearBlock.nextBps.blockProducers
              { s.epochs 1 with epochId := nearBlock.innerLite.nextEpochId } = .ok next ∧
            { s with
              initialized := true
              curHeight := nearBlock.innerLite.height
              epochs := Function.update (Function.update s.epochs 0
                { s.epochs 0 with epochId := nearBlock.innerLite.epochId }) 1 next
              blockHashes_ := Function.update s.blockHashes_ nearBlock.innerLite.height nearBlock.hash
              blockMerkleRoots_ := Function.update s.blockMerkleRoots_ nearBlock.innerLite.height
                nearBlock.innerLite.blockMerkleRoot } = s' := by
  simp only [initWithBlock, bind_eq_ok, require_eq_ok, pure_eq_ok, exists_and_left, exists_const]

theorem addLightClientBlock_eq_ok {cfg : Config} {env : Env} {data : Bytes} {s s' : State} :
    addLightClientBlock cfg env data s = .ok s' ↔
      Unpaused cfg env s pausedAddBlock ∧ s.initialized = true ∧
        cfg.lockEthAmount ≤ s.balanceOf env.sender ∧
        ∃ nearBlock, Borsh.decodeAll NearDecoder.decodeLightClientBlock data = .ok nearBlock ∧
          ∃ settled, commitOrReplace cfg env nearBlock s = .ok settled ∧
            acceptBlock cfg env nearBlock settled = .ok s' := by
  simp only [addLightClientBlock, bind_eq_ok, require_eq_ok, exists_and_left, exists_const]

/-- A call of a function that changes the state. -/
inductive Call where
  | deposit (value : Nat)
  | withdraw
  | challenge (receiver : Address) (signatureIndex : Nat)
  | addLightClientBlock (data : Bytes)
  | initWithValidators (data : Bytes)
  | initWithBlock (data : Bytes)
  | adminPause (flags : Nat)
  | adminReceiveEth (value : Nat)

def exec (cfg : Config) (env : Env) : Call → State → Except Revert State
  | .deposit value => deposit cfg env value
  | .withdraw => withdraw cfg env
  | .challenge receiver signatureIndex => challenge cfg env receiver signatureIndex
  | .addLightClientBlock data => addLightClientBlock cfg env data
  | .initWithValidators data => initWithValidators cfg env data
  | .initWithBlock data => initWithBlock cfg env data
  | .adminPause flags => adminPause cfg env flags
  | .adminReceiveEth value => adminReceiveEth cfg env value

/-- One step of a run: a call by `sender` at the current time, some seconds
passing, or ETH arriving without a call. -/
inductive Label where
  | call (sender : Address) (accepts : Address → Bool) (call : Call)
  | wait (seconds : Nat)
  | force (value : Nat)

/-- The contract at a block timestamp. -/
structure Moment where
  time : Nat
  state : State

def Moment.env (moment : Moment) (sender : Address) (accepts : Address → Bool) : Env :=
  ⟨sender, moment.time, accepts⟩

/-- Runs of the contract. Timestamps never decrease, and a call that reverts
changes nothing. -/
def machine (cfg : Config) : Machine Moment Label where
  next moment
    | .call sender accepts call =>
      match exec cfg (moment.env sender accepts) call moment.state with
      | .ok state => { moment with state := state }
      | .error _ => moment
    | .wait seconds => { moment with time := moment.time + seconds }
    | .force value => { moment with state.balance := moment.state.balance + value }

/-- The moment of deployment. -/
def Moment.deployed (time pausedFlags : Nat) : Moment := ⟨time, .deployed pausedFlags⟩

/-- Something that happens to the contract, or a question asked of it. -/
inductive Event where
  | step (label : Label)
  | bridgeState
  | blockHashes (sender : Address) (height : Uint64)
  | blockMerkleRoots (sender : Address) (height : Uint64)
  | balanceOf (account : Address)

/-- What a caller gets back. -/
inductive Observation where
  | outcome (result : Except Revert Unit)
  | bridgeState (state : BridgeState)
  | word (result : Except Revert Bytes32)
  | amount (value : Nat)

def observe (cfg : Config) (moment : Moment) : Event → Observation
  | .step (.call sender accepts call) =>
    .outcome (Functor.discard (exec cfg (moment.env sender accepts) call moment.state))
  | .step (.wait _) | .step (.force _) => .outcome (.ok ())
  | .bridgeState => .bridgeState (bridgeState (moment.env 0 fun _ => true) moment.state)
  | .blockHashes sender height =>
    .word (blockHashes cfg (moment.env sender fun _ => true) moment.state height)
  | .blockMerkleRoots sender height =>
    .word (blockMerkleRoots cfg (moment.env sender fun _ => true) moment.state height)
  | .balanceOf account => .amount (moment.state.balanceOf account)

/-- The contract under events; questions change nothing. -/
def questioned (cfg : Config) : Machine Moment Event where
  next moment
    | .step label => (machine cfg).next moment label
    | .bridgeState | .blockHashes _ _ | .blockMerkleRoots _ _ | .balanceOf _ => moment

end RainbowBridge.NearBridge
