import RainbowBridge.NearBridge.Confirmed
import RainbowBridge.NearBridge.Rollback

/-! The bridge as it is meant to be: a confirmed chain and at most one pending
block, which joins the chain at the very second its challenge period ends. Sums
are exact, validator sets are lists, and a call is either allowed or not. The
contract, which confirms late and keeps the block in its untrusted fields until
then, gives the same answers. -/

namespace RainbowBridge.NearBridge

open Lib Solidity

/-- The abstract bridge at a time. -/
structure Bridge where
  time : Nat
  paused : Nat
  validators : List BlockProducer
  /-- The latest confirmed block first; empty before the init block. -/
  confirmed : List LightClientBlock
  pending : Option Pending
  balanceOf : Address → Nat
  balance : Nat

def Bridge.deployed (time pausedFlags : Nat) : Bridge := ⟨time, pausedFlags, [], [], none, fun _ => 0, 0⟩

def Bridge.epochs (bridge : Bridge) : EpochInfo × EpochInfo :=
  epochsAfter bridge.validators bridge.confirmed

/-- The validators of the block's own epoch. -/
def producersOf (epochs : EpochInfo × EpochInfo) (nearBlock : LightClientBlock) : List BlockProducer :=
  if nearBlock.innerLite.epochId = epochs.1.epochId then epochs.1.producers else epochs.2.producers

/-- The block may extend the chain. -/
def Acceptable (epochs : EpochInfo × EpochInfo) (top : Uint64) (nearBlock : LightClientBlock) : Prop :=
  top < nearBlock.innerLite.height ∧ Follows epochs nearBlock ∧
    (producersOf epochs nearBlock).length ≤ nearBlock.approvalsAfterNext.length ∧
    (nearBlock.innerLite.epochId ≠ epochs.1.epochId →
      nearBlock.nextBps.blockProducers.length ≤ maxBlockProducers)

/-- The approval at this index is present and not signed by its validator. -/
def FalseApproval (cfg : Config) (producers : List BlockProducer) (nearBlock : LightClientBlock)
    (i : Nat) : Prop :=
  ∃ inside : i < producers.length, approved nearBlock.approvalsAfterNext i = true ∧
    let signature := signatureAt nearBlock.approvalsAfterNext i
    let message := approvalMessage nearBlock.nextHash nearBlock.innerLite.height
    cfg.edwards producers[i].publicKey signature.r signature.s
      ⟨message.toList.take 32, by simp⟩ ⟨(message.toList.drop 32).take 9, by simp⟩ = false

/-- A pending block whose deadline has come is confirmed. -/
def Bridge.settle (bridge : Bridge) : Bridge :=
  match bridge.pending with
  | none => bridge
  | some pending =>
    if pending.validAt ≤ bridge.time then
      { bridge with confirmed := pending.block :: bridge.confirmed, pending := none }
    else bridge

/-- Who the pause flags let through. -/
def Bridge.Open (cfg : Config) (bridge : Bridge) (sender : Address) (flag : Nat) : Prop :=
  bridge.paused &&& flag = 0 ∨ sender = cfg.admin

theorem producersOf_eq {epochs : EpochInfo × EpochInfo} {nearBlock : LightClientBlock} {next : Bool}
    (opens : next = true ↔ nearBlock.innerLite.epochId ≠ epochs.1.epochId) :
    producersOf epochs nearBlock = (if next then epochs.2 else epochs.1).producers := by
  unfold producersOf
  by_cases same : nearBlock.innerLite.epochId = epochs.1.epochId
  · have stays : ¬ next = true := fun next => opens.mp next same
    simp [same, stays]
  · simp [same, opens.mpr same]

/-- The slot of the untrusted block's epoch has its validators. -/
theorem Untrusted.holds {s : State} {validators : List BlockProducer} {chain : List LightClientBlock}
    {nearBlock : LightClientBlock} (untrusted : Untrusted s validators chain nearBlock)
    (committed : Committed s validators chain) :
    (s.epochOf s.untrustedNextEpoch).Holds (producersOf (epochsAfter validators chain) nearBlock) := by
  rw [producersOf_eq untrusted.nextEpoch]
  exact (committed.epochOf_stores _).2

theorem fromNextEpoch_opens {s : State} {validators : List BlockProducer}
    {chain : List LightClientBlock} {nearBlock : LightClientBlock} {next : Bool}
    (committed : Committed s validators chain) (epoch : fromNextEpoch nearBlock s = .ok next) :
    next = true ↔ nearBlock.innerLite.epochId ≠ (epochsAfter validators chain).1.epochId := by
  rw [fromNextEpoch_eq_ok, committed.current.1] at epoch
  rcases epoch with ⟨same, rfl⟩ | ⟨other, _, rfl⟩
  · simp [same]
  · simp [other]

/-- The checks of `addLightClientBlock` against storage are the checks of the
abstract bridge against the chain. -/
theorem Committed.acceptBlock_iff {cfg : Config} {env : Env} {s : State}
    {validators : List BlockProducer} {chain : List LightClientBlock}
    (committed : Committed s validators chain) (nearBlock : LightClientBlock) :
    (∃ s', acceptBlock cfg env nearBlock s = .ok s') ↔
      Acceptable (epochsAfter validators chain) (NearBridge.topHeight chain) nearBlock := by
  rw [Acceptable, committed.topHeight]
  constructor
  · rintro ⟨s', success⟩
    have untrusted := (committed.accept success).2
    obtain ⟨higher, next, epoch, long, _, _, _, epochs, announced, rfl⟩ :=
      acceptBlock_eq_ok.mp success
    have opens := fromNextEpoch_opens committed epoch
    refine ⟨higher, untrusted.follows, ?_, ?_⟩
    · rw [producersOf_eq opens, ← (committed.epochOf_stores next).2.count]
      exact long
    · intro other
      obtain ⟨_, _, declared⟩ := announceEpoch_eq_ok announced
      have stored := (declared (opens.mpr other)).2
      exact stored.count ▸ (epochs (s.curEpoch + 2)).numBPs_le
  · rintro ⟨higher, follows | follows, long, few⟩
    · obtain ⟨same, quorum⟩ := follows
      have stores := committed.epochOf_stores false
      have enough : (s.epochOf false).numBPs ≤ nearBlock.approvalsAfterNext.length := by
        rw [producersOf, if_pos same] at long
        rw [stores.2.count]
        exact long
      exact ⟨_, acceptBlock_eq_ok.mpr ⟨higher, false,
        fromNextEpoch_eq_ok.mpr (.inl ⟨same.trans committed.current.1.symm, rfl⟩), enough,
        (stores.2.votes_iff enough).mpr quorum, nofun, nofun, s.epochs, rfl, rfl⟩⟩
    · obtain ⟨other, opens, quorum, given, hash⟩ := follows
      have stores := committed.epochOf_stores true
      have enough : (s.epochOf true).numBPs ≤ nearBlock.approvalsAfterNext.length := by
        rw [producersOf, if_neg other] at long
        rw [stores.2.count]
        exact long
      obtain ⟨epoch, stored⟩ := setBlockProducers_of_le (few other)
        { s.epochs (s.curEpoch + 2) with epochId := nearBlock.innerLite.nextEpochId }
      have announced : announceEpoch nearBlock true s =
          .ok (Function.update s.epochs (s.curEpoch + 2) epoch) := by
        simp only [announceEpoch, if_true, stored]
        rfl
      have different : nearBlock.innerLite.epochId ≠ (s.epochs s.curEpoch).epochId :=
        fun same => other (same.trans committed.current.1)
      exact ⟨_, acceptBlock_eq_ok.mpr ⟨higher, true,
        fromNextEpoch_eq_ok.mpr (.inr ⟨different, opens.trans committed.next.1.symm, rfl⟩), enough,
        (stores.2.votes_iff enough).mpr quorum, fun _ => given, fun _ => hash, _, announced, rfl⟩⟩

/-- A justified challenge in storage is one against the pending block. -/
theorem Untrusted.falseApproval_iff {cfg : Config} {s : State} {validators : List BlockProducer}
    {chain : List LightClientBlock} {nearBlock : LightClientBlock}
    (untrusted : Untrusted s validators chain nearBlock) (committed : Committed s validators chain)
    (i : Nat) :
    checkBlockProducerSignatureInHead cfg s i = .ok false ↔
      FalseApproval cfg (producersOf (epochsAfter validators chain) nearBlock) nearBlock i := by
  have stored := untrusted.holds committed
  rw [checkBlockProducerSignatureInHead_eq_ok]
  constructor
  · rintro ⟨present, _, checked⟩
    obtain ⟨inside, seen⟩ := (untrusted.present i).mp present
    have known := stored.count ▸ inside
    refine ⟨known, seen, ?_⟩
    rw [edwardsCheck, untrusted.signatures i present, stored.keys i known] at checked
    simpa only [untrusted.nextHash, untrusted.height] using checked
  · rintro ⟨inside, seen, failed⟩
    have known : i < (s.epochOf s.untrustedNextEpoch).numBPs := stored.count ▸ inside
    have present := (untrusted.present i).mpr ⟨known, seen⟩
    refine ⟨present, Nat.lt_of_lt_of_le known (Epoch.numBPs_le _), ?_⟩
    rw [edwardsCheck, untrusted.signatures i present, stored.keys i inside]
    simpa only [untrusted.nextHash, untrusted.height] using failed

/-- Confirmed and pending blocks as a history, with nothing counted. -/
def Bridge.history (bridge : Bridge) : History :=
  ⟨bridge.validators, bridge.confirmed, bridge.pending, 0, 0⟩

/-- The contract's moment stands for this abstract bridge. -/
structure Simulates (moment : Moment) (bridge : Bridge) : Prop where
  time : moment.time = bridge.time
  positive : 0 < moment.time
  paused : moment.state.paused = bridge.paused
  balanceOf : moment.state.balanceOf = bridge.balanceOf
  balance : moment.state.balance = bridge.balance
  tracks : Tracks moment.time moment.state bridge.history

/-- No sum that the contract leaves unchecked overflows at this time. -/
def Fits (cfg : Config) (time : Nat) : Prop := cfg.replaceDuration + 2 ^ 64 ≤ 2 ^ 256 ∧ time < 2 ^ 64

theorem Fits.deadline {cfg : Config} {time : Nat} (fits : Fits cfg time) :
    uncheckedAdd time cfg.lockDuration = time + cfg.lockDuration := by
  obtain ⟨room, small⟩ := fits
  have order := cfg.replace_gt
  exact uncheckedAdd_of_lt (by omega)

theorem Fits.replacement {cfg : Config} {time : Nat} (fits : Fits cfg time) (timestamp : Uint64) :
    uncheckedAdd timestamp.toNat cfg.replaceDuration = timestamp.toNat + cfg.replaceDuration := by
  obtain ⟨room, _⟩ := fits
  have small := timestamp.isLt
  exact uncheckedAdd_of_lt (by omega)

variable {cfg : Config} {moment : Moment} {bridge : Bridge} {sender : Address}
  {accepts : Address → Bool}

theorem Simulates.unpaused_iff (simulates : Simulates moment bridge) (flag : Nat) :
    Unpaused cfg (moment.env sender accepts) moment.state flag ↔ bridge.Open cfg sender flag := by
  rw [Unpaused, Bridge.Open, simulates.paused]
  rfl

/-- The last submitter's bond is locked exactly while a block is pending. -/
theorem Simulates.free_iff (simulates : Simulates moment bridge) :
    (sender ≠ moment.state.lastSubmitter ∨ moment.state.lastValidAt ≤ moment.time) ↔
      ∀ pending ∈ bridge.pending, pending.submitter ≠ sender := by
  have tracks := simulates.tracks
  cases tracks with
  | uninitialized fresh idle first low validators hashes roots empty quiet =>
    have none : bridge.pending = none := quiet
    simp [none, idle]
  | settled ready idle committed quiet =>
    have none : bridge.pending = none := quiet
    simp [none, idle]
  | pending ready inside committed nearBlock waiting untrusted =>
    have some : bridge.pending = some _ := waiting
    simp [some, Nat.not_le.mpr inside, eq_comm]
  | confirmed ready used passed chain nearBlock added quiet committed untrusted =>
    have none : bridge.pending = none := quiet
    simp [none, passed]

theorem Simulates.ready_iff (simulates : Simulates moment bridge) :
    moment.state.initialized = true ↔ bridge.confirmed ≠ [] := by
  have tracks := simulates.tracks
  cases tracks with
  | uninitialized fresh idle first low validators hashes roots empty quiet =>
    have none : bridge.confirmed = [] := empty
    simp [fresh, none]
  | settled ready idle committed quiet => simpa [ready, Bridge.history] using committed.chain_ne_nil
  | pending ready inside committed nearBlock waiting untrusted =>
    simpa [ready, Bridge.history] using committed.chain_ne_nil
  | confirmed ready used passed chain nearBlock added quiet committed untrusted =>
    have some : bridge.confirmed = nearBlock :: chain := added
    simp [ready, some]

/-- Committing or replacing the previous block succeeds exactly when the pending
block, if any, may be replaced. -/
theorem Simulates.commitOrReplace_iff (simulates : Simulates moment bridge)
    (fits : Fits cfg moment.time) (nearBlock : LightClientBlock) :
    (∃ settled, commitOrReplace cfg (moment.env sender accepts) nearBlock moment.state = .ok settled) ↔
      ∀ pending ∈ bridge.pending, pending.block.innerLite.timestamp.toNat + cfg.replaceDuration ≤
        nearBlock.innerLite.timestamp.toNat := by
  have tracks := simulates.tracks
  simp only [commitOrReplace_eq_ok, Moment.env]
  cases tracks with
  | uninitialized fresh idle first low validators hashes roots empty quiet =>
    have none : bridge.pending = none := quiet
    simp [none, idle]
  | settled ready idle committed quiet =>
    have none : bridge.pending = none := quiet
    simp [none, idle]
  | pending ready inside committed last waiting untrusted =>
    have some : bridge.pending = some _ := waiting
    have used : moment.state.lastValidAt ≠ 0 := by omega
    simp [some, inside, Nat.not_le.mpr inside, used, untrusted.timestamp, fits.replacement]
  | confirmed ready used passed chain last added quiet committed untrusted =>
    have none : bridge.pending = none := quiet
    simp [none, passed, used, Nat.not_lt.mpr passed]

theorem Simulates.challenge_iff (simulates : Simulates moment bridge) (i : Nat) :
    (moment.time < moment.state.lastValidAt ∧
      checkBlockProducerSignatureInHead cfg moment.state i = .ok false ∧
      cfg.lockEthAmount ≤ moment.state.balanceOf moment.state.lastSubmitter) ↔
    ∃ pending ∈ bridge.pending,
      FalseApproval cfg (producersOf bridge.epochs pending.block) pending.block i ∧
        cfg.lockEthAmount ≤ bridge.balanceOf pending.submitter := by
  have tracks := simulates.tracks
  rw [simulates.balanceOf]
  cases tracks with
  | uninitialized fresh idle first low validators hashes roots empty quiet =>
    have none : bridge.pending = none := quiet
    simp [none, idle]
  | settled ready idle committed quiet =>
    have none : bridge.pending = none := quiet
    simp [none, idle]
  | pending ready inside committed nearBlock waiting untrusted =>
    have some : bridge.pending = some _ := waiting
    rw [untrusted.falseApproval_iff committed]
    simp [some, inside, Bridge.epochs, Bridge.history]
  | confirmed ready used passed chain nearBlock added quiet committed untrusted =>
    have none : bridge.pending = none := quiet
    simp [none, Nat.not_lt.mpr passed]

/-- The two stages of initialization. -/
theorem Simulates.fresh_iff (simulates : Simulates moment bridge) :
    moment.state.initialized = false ↔ bridge.confirmed = [] := by
  rw [← Bool.not_eq_true, simulates.ready_iff, ne_eq, not_not]

theorem Simulates.validators_iff (simulates : Simulates moment bridge) (fresh : bridge.confirmed = []) :
    (moment.state.epochs 0).numBPs = 0 ↔ bridge.validators = [] := by
  have early := simulates.fresh_iff.mpr fresh
  have tracks := simulates.tracks
  cases tracks with
  | uninitialized _ _ _ _ validators =>
    rw [validators.count]
    exact List.length_eq_zero_iff
  | settled ready => simp [early] at ready
  | pending ready => simp [early] at ready
  | confirmed ready => simp [early] at ready

variable [Hashing]

/-- When a call succeeds. -/
def Bridge.Allows (cfg : Config) (bridge : Bridge) (sender : Address) (accepts : Address → Bool) :
    Call → Prop
  | .deposit value => bridge.Open cfg sender pausedDeposit ∧ value = cfg.lockEthAmount ∧
    bridge.balanceOf sender = 0
  | .withdraw => bridge.Open cfg sender pausedWithdraw ∧
    (∀ pending ∈ bridge.pending, pending.submitter ≠ sender) ∧ bridge.balanceOf sender ≠ 0 ∧
    bridge.balanceOf sender ≤ bridge.balance ∧ accepts sender = true
  | .challenge receiver i => bridge.Open cfg sender pausedChallenge ∧
    (∃ pending ∈ bridge.pending,
      FalseApproval cfg (producersOf bridge.epochs pending.block) pending.block i ∧
        cfg.lockEthAmount ≤ bridge.balanceOf pending.submitter) ∧
    cfg.lockEthAmount / 2 ≤ bridge.balance ∧ accepts receiver = true
  | .addLightClientBlock data => bridge.Open cfg sender pausedAddBlock ∧ bridge.confirmed ≠ [] ∧
    cfg.lockEthAmount ≤ bridge.balanceOf sender ∧
    ∃ nearBlock, Borsh.decodeAll NearDecoder.decodeLightClientBlock data = .ok nearBlock ∧
      (∀ pending ∈ bridge.pending, pending.block.innerLite.timestamp.toNat + cfg.replaceDuration ≤
        nearBlock.innerLite.timestamp.toNat) ∧
      Acceptable bridge.epochs (topHeight bridge.confirmed) nearBlock
  | .initWithValidators data => sender = cfg.admin ∧ bridge.confirmed = [] ∧ bridge.validators = [] ∧
    ∃ validators, Borsh.decodeAll NearDecoder.decodeBlockProducers data = .ok validators ∧
      validators.length ≤ maxBlockProducers
  | .initWithBlock data => sender = cfg.admin ∧ bridge.confirmed = [] ∧ bridge.validators ≠ [] ∧
    ∃ nearBlock, Borsh.decodeAll NearDecoder.decodeLightClientBlock data = .ok nearBlock ∧
      nearBlock.nextBps.some = true ∧ nearBlock.nextBps.blockProducers.length ≤ maxBlockProducers
  | .adminPause _ | .adminReceiveEth _ => sender = cfg.admin

/-- What an allowed call does. -/
def Bridge.apply (cfg : Config) (bridge : Bridge) (sender : Address) : Call → Bridge
  | .deposit value => { bridge with
    balanceOf := Function.update bridge.balanceOf sender value
    balance := bridge.balance + value }
  | .withdraw => { bridge with
    balanceOf := Function.update bridge.balanceOf sender 0
    balance := bridge.balance - bridge.balanceOf sender }
  | .challenge _ _ =>
    match bridge.pending with
    | none => bridge
    | some pending => { bridge with
      pending := none
      balanceOf := Function.update bridge.balanceOf pending.submitter
        (bridge.balanceOf pending.submitter - cfg.lockEthAmount)
      balance := bridge.balance - cfg.lockEthAmount / 2 }
  | .addLightClientBlock data =>
    match Borsh.decodeAll NearDecoder.decodeLightClientBlock data with
    | .error _ => bridge
    | .ok nearBlock =>
      Bridge.settle { bridge with pending := some ⟨nearBlock, sender, bridge.time + cfg.lockDuration⟩ }
  | .initWithValidators data =>
    match Borsh.decodeAll NearDecoder.decodeBlockProducers data with
    | .error _ => bridge
    | .ok validators => { bridge with validators := validators }
  | .initWithBlock data =>
    match Borsh.decodeAll NearDecoder.decodeLightClientBlock data with
    | .error _ => bridge
    | .ok nearBlock => { bridge with confirmed := [nearBlock] }
  | .adminPause flags => { bridge with paused := flags }
  | .adminReceiveEth value => { bridge with balance := bridge.balance + value }

/-- What a caller learns: whether a call succeeded, or the value of a read. -/
inductive Answer where
  | done (succeeded : Prop)
  | bridgeState (state : BridgeState)
  | word (result : Except Revert Bytes32)
  | amount (value : Nat)

def Observation.answer : Observation → Answer
  | .outcome result => .done (result = .ok ())
  | .bridgeState state => .bridgeState state
  | .word result => .word result
  | .amount value => .amount value

open Classical in
/-- The abstract bridge under events. -/
noncomputable def eager (cfg : Config) : Machine Bridge Event where
  next bridge
    | .step (.call sender accepts call) =>
      if bridge.Allows cfg sender accepts call then bridge.apply cfg sender call else bridge
    | .step (.wait seconds) => Bridge.settle { bridge with time := bridge.time + seconds }
    | .step (.force value) => { bridge with balance := bridge.balance + value }
    | .bridgeState | .blockHashes _ _ | .blockMerkleRoots _ _ | .balanceOf _ => bridge

/-- The state of the abstract bridge as `bridgeState` reports it. -/
def Bridge.report (bridge : Bridge) : BridgeState :=
  match bridge.pending with
  | none => ⟨topHeight bridge.confirmed, 0, 0, 0⟩
  | some pending => ⟨topHeight bridge.confirmed, pending.block.innerLite.timestamp.toNat,
    pending.validAt, (producersOf bridge.epochs pending.block).length⟩

open Classical in
/-- A lookup in the confirmed chain, unless paused. -/
noncomputable def Bridge.lookup (cfg : Config) (bridge : Bridge) (sender : Address)
    (value : LightClientBlock → Bytes32) (height : Uint64) : Except Revert Bytes32 :=
  if bridge.Open cfg sender pausedVerify then .ok (valueAt value bridge.confirmed height)
  else .error .bare

/-- The answers of the abstract bridge. -/
noncomputable def Bridge.answer (cfg : Config) (bridge : Bridge) : Event → Answer
  | .step (.call sender accepts call) => .done (bridge.Allows cfg sender accepts call)
  | .step (.wait _) | .step (.force _) => .done True
  | .bridgeState => .bridgeState bridge.report
  | .blockHashes sender height => .word (bridge.lookup cfg sender LightClientBlock.hash height)
  | .blockMerkleRoots sender height => .word (bridge.lookup cfg sender blockRoot height)
  | .balanceOf account => .amount (bridge.balanceOf account)

theorem Simulates.addLightClientBlock_iff (simulates : Simulates moment bridge)
    (fits : Fits cfg moment.time) (data : Bytes) :
    (∃ s', addLightClientBlock cfg (moment.env sender accepts) data moment.state = .ok s') ↔
      bridge.Allows cfg sender accepts (.addLightClientBlock data) := by
  have tracks : Tracks (moment.env sender accepts).timestamp moment.state bridge.history :=
    simulates.tracks
  simp only [addLightClientBlock_eq_ok, Bridge.Allows, simulates.unpaused_iff, simulates.balanceOf,
    simulates.ready_iff]
  constructor
  · rintro ⟨s', unpaused, ready, bond, nearBlock, decoded, settled, replaced, accepted⟩
    obtain ⟨committed, _⟩ := tracks.commitOrReplace (simulates.ready_iff.mpr ready) replaced
    exact ⟨unpaused, ready, bond, nearBlock, decoded,
      (simulates.commitOrReplace_iff fits nearBlock).mp ⟨settled, replaced⟩,
      (committed.acceptBlock_iff nearBlock).mp ⟨s', accepted⟩⟩
  · rintro ⟨unpaused, ready, bond, nearBlock, decoded, newer, acceptable⟩
    obtain ⟨settled, replaced⟩ := (simulates.commitOrReplace_iff fits nearBlock).mpr newer
    obtain ⟨committed, _⟩ := tracks.commitOrReplace (simulates.ready_iff.mpr ready) replaced
    obtain ⟨s', accepted⟩ := (committed.acceptBlock_iff nearBlock).mpr acceptable
    exact ⟨s', unpaused, ready, bond, nearBlock, decoded, settled, replaced, accepted⟩

/-- A call of the contract succeeds exactly when the abstract bridge allows it. -/
theorem Simulates.allows_iff (simulates : Simulates moment bridge) (fits : Fits cfg moment.time)
    (call : Call) :
    (∃ s', exec cfg (moment.env sender accepts) call moment.state = .ok s') ↔
      bridge.Allows cfg sender accepts call := by
  cases call with
  | deposit value =>
    simp only [exec, deposit_eq_ok, simulates.unpaused_iff, simulates.balanceOf]
    simp only [Bridge.Allows, Moment.env, exists_and_left, exists_eq', and_true]
  | withdraw =>
    simp only [exec, withdraw_eq_ok, simulates.unpaused_iff, simulates.balanceOf, simulates.balance]
    simp only [Bridge.Allows, Moment.env, simulates.free_iff, exists_and_left, exists_eq', and_true]
  | challenge receiver signatureIndex =>
    simp only [exec, challenge_eq_ok, simulates.unpaused_iff, simulates.balance]
    simp only [Bridge.Allows, Moment.env, ← simulates.challenge_iff, exists_and_left, exists_eq',
      and_true, and_assoc]
  | addLightClientBlock data => exact simulates.addLightClientBlock_iff fits data
  | initWithValidators data =>
    simp only [exec, initWithValidators_eq_ok, Bridge.Allows, simulates.fresh_iff, Moment.env]
    constructor
    · rintro ⟨s', admin, ⟨fresh, none⟩, validators, decoded, epoch, stored, _⟩
      exact ⟨admin, fresh, (simulates.validators_iff fresh).mp none, validators, decoded,
        (setBlockProducers_eq_ok stored).1⟩
    · rintro ⟨admin, fresh, none, validators, decoded, few⟩
      obtain ⟨epoch, stored⟩ := setBlockProducers_of_le few (moment.state.epochs 0)
      exact ⟨_, admin, ⟨fresh, (simulates.validators_iff fresh).mpr none⟩, validators, decoded, epoch,
        stored, rfl⟩
  | initWithBlock data =>
    simp only [exec, initWithBlock_eq_ok, Bridge.Allows, simulates.fresh_iff, Moment.env]
    constructor
    · rintro ⟨s', admin, ⟨fresh, some⟩, nearBlock, decoded, given, epoch, stored, _⟩
      exact ⟨admin, fresh, mt (simulates.validators_iff fresh).mpr some, nearBlock, decoded, given,
        (setBlockProducers_eq_ok stored).1⟩
    · rintro ⟨admin, fresh, some, nearBlock, decoded, given, few⟩
      obtain ⟨epoch, stored⟩ := setBlockProducers_of_le few
        { moment.state.epochs 1 with epochId := nearBlock.innerLite.nextEpochId }
      exact ⟨_, admin, ⟨fresh, mt (simulates.validators_iff fresh).mp some⟩, nearBlock, decoded, given,
        epoch, stored, rfl⟩
  | adminPause flags =>
    simp only [exec, adminPause_eq_ok, Bridge.Allows, Moment.env, exists_and_left, exists_eq', and_true]
  | adminReceiveEth value =>
    simp only [exec, adminReceiveEth_eq_ok, Bridge.Allows, Moment.env, exists_and_left, exists_eq',
      and_true]

omit [Hashing] in
theorem Bridge.settle_eq (bridge : Bridge) :
    bridge.settle.history = bridge.history.settle bridge.time ∧ bridge.settle.time = bridge.time ∧
      bridge.settle.paused = bridge.paused ∧ bridge.settle.balanceOf = bridge.balanceOf ∧
      bridge.settle.balance = bridge.balance := by
  unfold Bridge.settle History.settle
  cases pending : bridge.pending with
  | none => simp [Bridge.history, pending]
  | some block =>
    simp only [Bridge.history, pending]
    split <;> simp [pending]

/-- The abstract successor follows the contract's. -/
theorem Simulates.addLightClientBlock (simulates : Simulates moment bridge)
    (fits : Fits cfg moment.time) {data : Bytes} {s' : State}
    (success : NearBridge.addLightClientBlock cfg (moment.env sender accepts) data moment.state = .ok s') :
    Simulates { moment with state := s' } (bridge.apply cfg sender (.addLightClientBlock data)) := by
  have tracks : Tracks (moment.env sender accepts).timestamp moment.state bridge.history :=
    simulates.tracks
  have recorded := tracks.addLightClientBlock success
  obtain ⟨_, _, _, nearBlock, decoded, settled, replaced, accepted⟩ :=
    addLightClientBlock_eq_ok.mp success
  obtain ⟨_, deadline, _, deposits, ether, flags⟩ := acceptBlock_submission accepted
  obtain ⟨deposits', ether'⟩ := commitOrReplace_frame replaced
  have flags' : settled.paused = moment.state.paused := by
    rcases commitOrReplace_eq_ok.mp replaced with ⟨_, _, rfl⟩ | ⟨_, _, rfl⟩ | ⟨_, rfl⟩ <;> rfl
  have ends : s'.lastValidAt = bridge.time + cfg.lockDuration := by
    rw [deadline, ← simulates.time]
    exact fits.deadline
  have used : bridge.time + cfg.lockDuration ≠ 0 := by
    have positive := simulates.positive
    rw [simulates.time] at positive
    omega
  have settle := Bridge.settle_eq
    { bridge with pending := some ⟨nearBlock, sender, bridge.time + cfg.lockDuration⟩ }
  simp only [History.record, decoded, History.submit, ends, used, if_false] at recorded
  simp only [Bridge.apply, decoded]
  refine ⟨?_, simulates.positive, ?_, ?_, ?_, ?_⟩
  · rw [settle.2.1]
    exact simulates.time
  · rw [settle.2.2.1, flags, flags']
    exact simulates.paused
  · rw [settle.2.2.2.1, deposits, deposits']
    exact simulates.balanceOf
  · rw [settle.2.2.2.2, ether, ether']
    exact simulates.balance
  · have now : (moment.env sender accepts).timestamp = bridge.time := simulates.time
    rw [now] at recorded
    rw [settle.1]
    exact simulates.time ▸ recorded

/-- A successful call leaves the contract and the abstract bridge together. -/
theorem Simulates.apply (simulates : Simulates moment bridge) (fits : Fits cfg moment.time)
    {call : Call} {s' : State}
    (success : exec cfg (moment.env sender accepts) call moment.state = .ok s') :
    Simulates { moment with state := s' } (bridge.apply cfg sender call) := by
  have tracks : Tracks (moment.env sender accepts).timestamp moment.state bridge.history :=
    simulates.tracks
  have recorded := (tracks.exec success).frame s'.paused s'.balanceOf s'.balance 0 0
  have flags := simulates.paused
  have deposits := simulates.balanceOf
  have ether := simulates.balance
  cases call with
  | deposit value =>
    obtain ⟨_, _, rfl⟩ := deposit_eq_ok.mp success
    exact ⟨simulates.time, simulates.positive, flags, by simp only [deposits]; rfl,
      by simp only [ether]; rfl, recorded⟩
  | withdraw =>
    obtain ⟨_, _, _, _, rfl⟩ := withdraw_eq_ok.mp success
    exact ⟨simulates.time, simulates.positive, flags, by simp only [deposits]; rfl,
      by simp only [ether, deposits]; rfl, recorded⟩
  | challenge receiver signatureIndex =>
    obtain ⟨_, inside, _, _, _, rfl⟩ := challenge_eq_ok.mp success
    cases tracks with
    | uninitialized _ idle => omega
    | settled _ idle => omega
    | pending ready _ committed nearBlock waiting untrusted =>
      have pending : bridge.pending = some _ := waiting
      simp only [Bridge.apply, pending]
      exact ⟨simulates.time, simulates.positive, flags, by simp only [deposits], by simp only [ether],
        recorded⟩
    | confirmed _ _ passed => exact absurd inside (Nat.not_lt.mpr passed)
  | addLightClientBlock data => exact simulates.addLightClientBlock fits success
  | initWithValidators data =>
    obtain ⟨_, _, validators, decoded, epoch, _, rfl⟩ := initWithValidators_eq_ok.mp success
    simp only [History.record, decoded] at recorded
    simp only [Bridge.apply, decoded]
    exact ⟨simulates.time, simulates.positive, flags, deposits, ether, recorded⟩
  | initWithBlock data =>
    obtain ⟨_, _, nearBlock, decoded, _, epoch, _, rfl⟩ := initWithBlock_eq_ok.mp success
    simp only [History.record, decoded] at recorded
    simp only [Bridge.apply, decoded]
    exact ⟨simulates.time, simulates.positive, flags, deposits, ether, recorded⟩
  | adminPause flags =>
    obtain ⟨_, rfl⟩ := adminPause_eq_ok.mp success
    exact ⟨simulates.time, simulates.positive, rfl, deposits, ether, recorded⟩
  | adminReceiveEth value =>
    obtain ⟨_, rfl⟩ := adminReceiveEth_eq_ok.mp success
    exact ⟨simulates.time, simulates.positive, flags, deposits, by simp only [ether]; rfl, recorded⟩

omit [Hashing] in
theorem Simulates.report (simulates : Simulates moment bridge) :
    NearBridge.bridgeState (moment.env sender accepts) moment.state = bridge.report := by
  have tracks : Tracks (moment.env sender accepts).timestamp moment.state bridge.history :=
    simulates.tracks
  have height := tracks.currentHeight
  unfold NearBridge.bridgeState Bridge.report at *
  cases tracks with
  | uninitialized fresh idle first low validators hashes roots empty quiet =>
    have none : bridge.pending = none := quiet
    simp only [none, idle, Nat.not_lt_zero, if_true, if_false] at height ⊢
    rw [height]
    rfl
  | settled ready idle committed quiet =>
    have none : bridge.pending = none := quiet
    simp only [none, idle, Nat.not_lt_zero, if_true, if_false] at height ⊢
    rw [height]
    rfl
  | pending ready inside committed nearBlock waiting untrusted =>
    have some : bridge.pending = some _ := waiting
    simp only [some, inside, if_true] at height ⊢
    rw [height, untrusted.timestamp, (untrusted.holds committed).count]
    rfl
  | confirmed ready used passed chain nearBlock added quiet committed untrusted =>
    have none : bridge.pending = none := quiet
    simp only [none, Nat.not_lt.mpr passed, used, if_false] at height ⊢
    rw [height]
    rfl

omit [Hashing] in
/-- A read that looks up the confirmed chain unless paused is the abstract one. -/
theorem Simulates.lookup (simulates : Simulates moment bridge)
    {read : Config → Env → State → Uint64 → Except Revert Bytes32}
    {value : LightClientBlock → Bytes32}
    (stopped : ∀ env s height, ¬ Unpaused cfg env s pausedVerify → read cfg env s height = .error .bare)
    (found : ∀ env s history, Tracks env.timestamp s history → Unpaused cfg env s pausedVerify →
      ∀ height, read cfg env s height = .ok (valueAt value history.confirmed height))
    (height : Uint64) :
    read cfg (moment.env sender accepts) moment.state height = bridge.lookup cfg sender value height := by
  have passes : Unpaused cfg (moment.env sender accepts) moment.state pausedVerify ↔ _ :=
    simulates.unpaused_iff pausedVerify
  have tracks : Tracks (moment.env sender accepts).timestamp moment.state bridge.history :=
    simulates.tracks
  unfold Bridge.lookup
  by_cases allowed : bridge.Open cfg sender pausedVerify
  · rw [if_pos allowed]
    exact found _ _ _ tracks (passes.mpr allowed) height
  · rw [if_neg allowed]
    exact stopped _ _ height (mt passes.mp allowed)

theorem Simulates.answer (simulates : Simulates moment bridge) (fits : Fits cfg moment.time)
    (event : Event) : (observe cfg moment event).answer = bridge.answer cfg event := by
  cases event with
  | step label =>
    cases label with
    | call sender accepts call =>
      have allowed : (∃ s', exec cfg (moment.env sender accepts) call moment.state = .ok s') ↔ _ :=
        simulates.allows_iff fits call
      simp only [observe, Observation.answer, Bridge.answer, Answer.done.injEq, ← allowed, eq_iff_iff]
      cases exec cfg (moment.env sender accepts) call moment.state with
      | error error => simp [Functor.discard, Functor.mapConst, Except.map]
      | ok state => simp [Functor.discard, Functor.mapConst, Except.map]
    | wait seconds => simp [observe, Observation.answer, Bridge.answer]
    | force value => simp [observe, Observation.answer, Bridge.answer]
  | bridgeState => exact congrArg Answer.bridgeState simulates.report
  | blockHashes sender height =>
    refine congrArg Answer.word (simulates.lookup ?_ (fun _ _ _ tracks => tracks.blockHashes) height)
    intro env s height stopped
    simp only [blockHashes, require, stopped, if_false]
    rfl
  | blockMerkleRoots sender height =>
    refine congrArg Answer.word
      (simulates.lookup ?_ (fun _ _ _ tracks => tracks.blockMerkleRoots) height)
    intro env s height stopped
    simp only [blockMerkleRoots, require, stopped, if_false]
    rfl
  | balanceOf account =>
    simp only [observe, Observation.answer, Bridge.answer, simulates.balanceOf]

theorem Simulates.next (simulates : Simulates moment bridge) (fits : Fits cfg moment.time)
    (event : Event) : Simulates ((questioned cfg).next moment event) ((eager cfg).next bridge event) := by
  cases event with
  | step label =>
    cases label with
    | call sender accepts call =>
      have allowed : (∃ s', exec cfg (moment.env sender accepts) call moment.state = .ok s') ↔ _ :=
        simulates.allows_iff fits call
      simp only [questioned, machine, eager]
      cases result : exec cfg (moment.env sender accepts) call moment.state with
      | error error =>
        rw [if_neg (fun allows => by simpa [result] using allowed.mpr allows)]
        exact simulates
      | ok state =>
        rw [if_pos (allowed.mp ⟨state, result⟩)]
        exact simulates.apply fits result
    | wait seconds =>
      have settle := Bridge.settle_eq { bridge with time := bridge.time + seconds }
      have later := simulates.tracks.wait (Nat.le_add_right moment.time seconds)
      simp only [questioned, machine, eager]
      refine ⟨?_, Nat.lt_of_lt_of_le simulates.positive (Nat.le_add_right _ _), ?_, ?_, ?_, ?_⟩
      · rw [settle.2.1, simulates.time]
      · rw [settle.2.2.1, simulates.paused]
      · rw [settle.2.2.2.1, simulates.balanceOf]
      · rw [settle.2.2.2.2, simulates.balance]
      · rw [settle.1]
        rw [simulates.time] at later ⊢
        exact later
    | force value =>
      exact ⟨simulates.time, simulates.positive, simulates.paused, simulates.balanceOf,
        congrArg (· + value) simulates.balance, simulates.tracks.frame _ _ _ 0 0⟩
  | _ => exact simulates

/-- Seconds that pass during the events. -/
def waited : List Event → Nat
  | [] => 0
  | .step (.wait seconds) :: rest => seconds + waited rest
  | _ :: rest => waited rest

theorem stepsMeet_fits {cfg : Config} (room : cfg.replaceDuration + 2 ^ 64 ≤ 2 ^ 256)
    (moment : Moment) (events : List Event) (bounded : moment.time + waited events < 2 ^ 64) :
    (questioned cfg).StepsMeet (fun moment _ => Fits cfg moment.time) moment events := by
  induction events generalizing moment with
  | nil => trivial
  | cons event rest ih =>
    refine ⟨⟨room, by omega⟩, ih _ ?_⟩
    cases event with
    | step label =>
      cases label with
      | call sender accepts call =>
        simp only [questioned, machine]
        split <;> exact bounded
      | wait seconds =>
        simp only [questioned, machine, waited] at bounded ⊢
        omega
      | force value => exact bounded
    | _ => exact bounded

/-- In every run the contract answers every call and every read as the abstract
bridge does. Times fit 64 bits, and `block.timestamp` is positive: the contract takes
a `lastValidAt` of 0 for no pending block. -/
theorem contract_simulates_eager (cfg : Config) (room : cfg.replaceDuration + 2 ^ 64 ≤ 2 ^ 256)
    (time pausedFlags : Nat) (started : 0 < time) (events : List Event)
    (bounded : time + waited events < 2 ^ 64) :
    (questioned cfg).trace (fun moment event => (observe cfg moment event).answer)
        (.deployed time pausedFlags) events =
      (eager cfg).trace (Bridge.answer cfg) (.deployed time pausedFlags) events := by
  have initial : Simulates (.deployed time pausedFlags) (.deployed time pausedFlags) :=
    ⟨rfl, started, rfl, rfl, rfl, Tracks.deployed time pausedFlags⟩
  exact Machine.trace_eq_of_steps _ _ Simulates
    (fun _ _ event simulates fits => simulates.answer fits event)
    (fun _ _ event simulates fits => simulates.next fits event) initial events
    (stepsMeet_fits room _ events bounded)

omit [Hashing] in
theorem contract_simulates_eager_sample :
    letI := Hashing.platform
    let events := sampleStart.map Event.step ++
      [.step (.call 1 (fun _ => true) (.addLightClientBlock (sampleBlock 2 [0]))), .bridgeState,
        .step (.wait 60), .blockHashes 2 2, .bridgeState, .step (.call 1 (fun _ => true) .withdraw)]
    (questioned sampleConfig).trace (fun moment event => (observe sampleConfig moment event).answer)
        (.deployed 1 0) events =
      (eager sampleConfig).trace (Bridge.answer sampleConfig) (.deployed 1 0) events := by
  let := Hashing.platform
  exact contract_simulates_eager sampleConfig (by decide) 1 0 (by decide) _ (by decide)

end RainbowBridge.NearBridge
