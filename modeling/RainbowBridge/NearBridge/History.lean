import RainbowBridge.NearBridge.Run

/-! The history of a run, kept beside the contract and never read by it: which
blocks were confirmed, which one is pending, and what was paid. A block is
confirmed as soon as the block timestamp reaches the end of its challenge period
without the block having been replaced or challenged. -/

namespace RainbowBridge.NearBridge

open Lib Solidity

variable [Hashing]

/-- A block whose challenge period ends at `validAt`. -/
structure Pending where
  block : LightClientBlock
  submitter : Address
  validAt : Nat

structure History where
  /-- The list given to `initWithValidators`. -/
  validators : List BlockProducer
  /-- Confirmed blocks, the latest one first and the init block last. -/
  confirmed : List LightClientBlock
  pending : Option Pending
  challenges : Nat
  /-- ETH that came by `adminReceiveEth` or without a call. -/
  donated : Nat

def History.empty : History := ⟨[], [], none, 0, 0⟩

/-- Confirm the pending block if its challenge period is over. -/
def History.settle (time : Nat) (history : History) : History :=
  match history.pending with
  | none => history
  | some pending =>
    if pending.validAt ≤ time then
      { history with confirmed := pending.block :: history.confirmed, pending := none }
    else history

/-- The new pending block, replacing any other. A challenge period that ends at
zero means that there is no untrusted block. -/
def History.submit (pending : Pending) (history : History) : History :=
  { history with pending := if pending.validAt = 0 then none else some pending }

/-- What a successful call adds to the history. -/
def History.record (env : Env) (state : State) (history : History) : Call → History
  | .addLightClientBlock data =>
    match Borsh.decodeAll NearDecoder.decodeLightClientBlock data with
    | .ok nearBlock => (history.submit ⟨nearBlock, env.sender, state.lastValidAt⟩).settle env.timestamp
    | .error _ => history
  | .challenge _ _ => { history with pending := none, challenges := history.challenges + 1 }
  | .initWithValidators data =>
    match Borsh.decodeAll NearDecoder.decodeBlockProducers data with
    | .ok validators => { history with validators := validators }
    | .error _ => history
  | .initWithBlock data =>
    match Borsh.decodeAll NearDecoder.decodeLightClientBlock data with
    | .ok nearBlock => { history with confirmed := [nearBlock] }
    | .error _ => history
  | .adminReceiveEth value => { history with donated := history.donated + value }
  | .deposit _ | .withdraw | .adminPause _ => history

/-- A moment of a run together with its history. -/
structure Watched where
  moment : Moment
  history : History

/-- The contract's runs with the history kept beside them. -/
def watched (cfg : Config) : Machine Watched Label where
  next point label :=
    let moment := (machine cfg).next point.moment label
    match label with
    | .call sender accepts call =>
      let env := point.moment.env sender accepts
      match exec cfg env call point.moment.state with
      | .ok state => ⟨moment, point.history.record env state call⟩
      | .error _ => ⟨moment, point.history⟩
    | .wait _ => ⟨moment, point.history.settle moment.time⟩
    | .force value => ⟨moment, { point.history with donated := point.history.donated + value }⟩

def Watched.deployed (time pausedFlags : Nat) : Watched := ⟨.deployed time pausedFlags, .empty⟩

/-- Keeping the history does not influence the contract. -/
theorem watched_run_moment (cfg : Config) (point : Watched) (labels : List Label) :
    ((watched cfg).run point labels).moment = (machine cfg).run point.moment labels := by
  refine Machine.run_simulation (watched cfg) (machine cfg)
    (fun point moment => point.moment = moment) ?_ rfl labels
  intro point moment label same
  subst same
  cases label with
  | call sender accepts call =>
    simp only [watched]
    split <;> rfl
  | wait seconds => rfl
  | force value => rfl

/-- An invariant of watched moments that survives every successful call, every
wait and every forced payment holds in every run. -/
theorem watched_invariant {cfg : Config} {invariant : Watched → Prop}
    (execs : ∀ moment history sender accepts call state, invariant ⟨moment, history⟩ →
      exec cfg (moment.env sender accepts) call moment.state = .ok state →
      invariant ⟨{ moment with state := state },
        history.record (moment.env sender accepts) state call⟩)
    (waits : ∀ moment history seconds, invariant ⟨moment, history⟩ →
      invariant ⟨{ moment with time := moment.time + seconds },
        history.settle (moment.time + seconds)⟩)
    (forces : ∀ moment history value, invariant ⟨moment, history⟩ →
      invariant ⟨{ moment with state.balance := moment.state.balance + value },
        { history with donated := history.donated + value }⟩)
    {start : Watched} (initial : invariant start) (labels : List Label) :
    invariant ((watched cfg).run start labels) := by
  apply (watched cfg).run_invariant _ initial
  rintro ⟨moment, history⟩ label valid
  cases label with
  | call sender accepts call =>
    simp only [watched, machine]
    cases success : exec cfg (moment.env sender accepts) call moment.state with
    | ok state => exact execs moment history sender accepts call state valid success
    | error error => exact valid
  | wait seconds => exact waits moment history seconds valid
  | force value => exact forces moment history value valid

/-- The id and the validator set of an epoch. -/
structure EpochInfo where
  epochId : Bytes32
  producers : List BlockProducer

/-- The epoch that a block declares to follow its own. -/
def declaredEpoch (nearBlock : LightClientBlock) : EpochInfo :=
  ⟨nearBlock.innerLite.nextEpochId, nearBlock.nextBps.blockProducers⟩

/-- The current epoch and the one after it, after these confirmed blocks. A block
with another epoch id than the current one opens the next epoch, and declares
the one after that. -/
def epochsAfter (validators : List BlockProducer) : List LightClientBlock → EpochInfo × EpochInfo
  | [] => (⟨zeroBytes 32, validators⟩, ⟨zeroBytes 32, []⟩)
  | [first] => (⟨first.innerLite.epochId, validators⟩, declaredEpoch first)
  | nearBlock :: earlier =>
    let (current, next) := epochsAfter validators earlier
    if nearBlock.innerLite.epochId = current.epochId then (current, next)
    else (next, declaredEpoch nearBlock)

/-- What a block needs to follow a chain with these epochs: it belongs to one of
the two and has a quorum of its validators; opening the next epoch, it carries
the producers whose hash it declares. -/
def Follows (epochs : EpochInfo × EpochInfo) (nearBlock : LightClientBlock) : Prop :=
  (nearBlock.innerLite.epochId = epochs.1.epochId ∧
    Quorum epochs.1.producers nearBlock.approvalsAfterNext) ∨
  (nearBlock.innerLite.epochId ≠ epochs.1.epochId ∧ nearBlock.innerLite.epochId = epochs.2.epochId ∧
    Quorum epochs.2.producers nearBlock.approvalsAfterNext ∧ nearBlock.nextBps.some = true ∧
    nearBlock.nextBps.hash = nearBlock.innerLite.nextBpHash)

/-- Every confirmed block follows the ones before it, at a greater height. -/
def ChainOfTrust (validators : List BlockProducer) : List LightClientBlock → Prop
  | [] => True
  | [first] => first.nextBps.some = true
  | nearBlock :: parent :: earlier =>
    ChainOfTrust validators (parent :: earlier) ∧
      parent.innerLite.height < nearBlock.innerLite.height ∧
      Follows (epochsAfter validators (parent :: earlier)) nearBlock

end RainbowBridge.NearBridge
