import RainbowBridge.NearBridge.Epoch

/-! The `NearBridge` contract: its storage and its functions. Amounts, durations
and times are `uint256`; the additions that the source leaves unchecked reduce
modulo `2 ^ 256`. The three-slot epoch ring is indexed by `Fin 3`, so that
`(curEpoch + 1) % 3` is addition there. -/

namespace RainbowBridge.NearBridge

open Lib Solidity

variable [Hashing]

/-- What the constructor fixes. No function assigns these fields again, and
`replace_gt` is the constructor's own check. -/
structure Config where
  admin : Address
  /-- `Ed25519.check(k, r, s, m1, m2)` of the deployed verifier. -/
  edwards : Bytes32 → Bytes32 → Bytes32 → Bytes32 → FixedBytes 9 → Bool
  lockEthAmount : Nat
  lockDuration : Nat
  replaceDuration : Nat
  replaceDuration_lt : replaceDuration < 2 ^ 256
  replace_gt : lockDuration * 1000000000 < replaceDuration

/-- Contract storage, and the ETH the contract owns. -/
structure State where
  paused : Nat
  initialized : Bool
  epochs : Fin 3 → Epoch
  curEpoch : Fin 3
  curHeight : Uint64
  untrustedHeight : Uint64
  untrustedTimestamp : Nat
  untrustedNextEpoch : Bool
  untrustedHash : Bytes32
  untrustedMerkleRoot : Bytes32
  untrustedNextHash : Bytes32
  untrustedSignatureSet : BitVec 256
  untrustedSignatures : Nat → Signature
  lastSubmitter : Address
  /-- End of the challenge period; zero when there is no untrusted block. -/
  lastValidAt : Nat
  blockHashes_ : Uint64 → Bytes32
  blockMerkleRoots_ : Uint64 → Bytes32
  balanceOf : Address → Nat
  balance : Nat

/-- Storage after the constructor. -/
def State.deployed (pausedFlags : Nat) : State where
  paused := pausedFlags
  initialized := false
  epochs := fun _ => .unset
  curEpoch := 0
  curHeight := 0
  untrustedHeight := 0
  untrustedTimestamp := 0
  untrustedNextEpoch := false
  untrustedHash := zeroBytes 32
  untrustedMerkleRoot := zeroBytes 32
  untrustedNextHash := zeroBytes 32
  untrustedSignatureSet := 0
  untrustedSignatures := fun _ => ⟨zeroBytes 32, zeroBytes 32⟩
  lastSubmitter := 0
  lastValidAt := 0
  blockHashes_ := fun _ => zeroBytes 32
  blockMerkleRoots_ := fun _ => zeroBytes 32
  balanceOf := fun _ => 0
  balance := 0

def pausedDeposit : Nat := 1

def pausedWithdraw : Nat := 2

def pausedAddBlock : Nat := 4

def pausedChallenge : Nat := 8

def pausedVerify : Nat := 16

/-- The condition of the `pausable` modifier. -/
def Unpaused (cfg : Config) (env : Env) (s : State) (flag : Nat) : Prop :=
  s.paused &&& flag = 0 ∨ env.sender = cfg.admin

instance (cfg : Config) (env : Env) (s : State) (flag : Nat) : Decidable (Unpaused cfg env s flag) :=
  inferInstanceAs (Decidable (_ ∨ _))

/-- `payable(recipient).transfer(amount)`. The stipend is too small for the
recipient to call back. -/
def transfer (env : Env) (recipient : Address) (amount : Nat) (s : State) : Except Revert State := do
  require (amount ≤ s.balance ∧ env.accepts recipient = true) .transferFailed
  return { s with balance := s.balance - amount }

def deposit (cfg : Config) (env : Env) (value : Nat) (s : State) : Except Revert State := do
  require (Unpaused cfg env s pausedDeposit) .bare
  require (value = cfg.lockEthAmount ∧ s.balanceOf env.sender = 0) .bare
  return { s with
    balanceOf := Function.update s.balanceOf env.sender value
    balance := s.balance + value }

def withdraw (cfg : Config) (env : Env) (s : State) : Except Revert State := do
  require (Unpaused cfg env s pausedWithdraw) .bare
  require (env.sender ≠ s.lastSubmitter ∨ s.lastValidAt ≤ env.timestamp) .bare
  require (s.balanceOf env.sender ≠ 0) .bare
  transfer env env.sender (s.balanceOf env.sender)
    { s with balanceOf := Function.update s.balanceOf env.sender 0 }

/-- `abi.encodePacked(uint8(0), nextHash, swapBytes8(height + 2), bytes23(0))`. -/
def approvalMessage (nextHash : Bytes32) (height : Uint64) : FixedBytes 64 :=
  ⟨0 :: nextHash.toList ++ leBytes 8 (height + 2).toNat ++ List.replicate 23 0, by simp⟩

/-- The slot with the producers of a block of the current or the next epoch. -/
def State.epochOf (s : State) (next : Bool) : Epoch :=
  s.epochs (if next then s.curEpoch + 1 else s.curEpoch)

/-- The call of `edwards.check` for one stored signature: the first 32 bytes of
the message and the 9 after them. -/
def edwardsCheck (cfg : Config) (s : State) (signatureIndex : Nat) : Bool :=
  let signature := s.untrustedSignatures signatureIndex
  let message := approvalMessage s.untrustedNextHash s.untrustedHeight
  let arg1 : Bytes32 := ⟨message.toList.take 32, by simp⟩
  let arg2 : FixedBytes 9 := ⟨(message.toList.drop 32).take 9, by simp⟩
  cfg.edwards ((s.epochOf s.untrustedNextEpoch).keys signatureIndex) signature.r signature.s arg1 arg2

/-- The bit of an index; shifting by 256 or more gives zero, as in the EVM. -/
def State.hasSignature (s : State) (signatureIndex : Nat) : Prop :=
  s.untrustedSignatureSet &&& (1#256 <<< signatureIndex) ≠ 0

instance (s : State) (signatureIndex : Nat) : Decidable (s.hasSignature signatureIndex) :=
  inferInstanceAs (Decidable (_ ≠ _))

def checkBlockProducerSignatureInHead (cfg : Config) (s : State) (signatureIndex : Nat) :
    Except Revert Bool := do
  require (s.hasSignature signatureIndex) "No such signature"
  require (signatureIndex < maxBlockProducers) .panic
  return edwardsCheck cfg s signatureIndex

def challenge (cfg : Config) (env : Env) (receiver : Address) (signatureIndex : Nat) (s : State) :
    Except Revert State := do
  require (Unpaused cfg env s pausedChallenge) .bare
  require (env.timestamp < s.lastValidAt) "No block can be challenged at this time"
  let valid ← checkBlockProducerSignatureInHead cfg s signatureIndex
  require (valid = false) "Can't challenge valid signature"
  require (cfg.lockEthAmount ≤ s.balanceOf s.lastSubmitter) .panic
  let slashed := s.balanceOf s.lastSubmitter - cfg.lockEthAmount
  let paid ← transfer env receiver (cfg.lockEthAmount / 2)
    { s with balanceOf := Function.update s.balanceOf s.lastSubmitter slashed }
  return { paid with lastValidAt := 0 }

def initWithValidators (cfg : Config) (env : Env) (data : Bytes) (s : State) :
    Except Revert State := do
  require (env.sender = cfg.admin) .bare
  require (s.initialized = false ∧ (s.epochs 0).numBPs = 0) "Wrong initialization stage"
  let initialValidators ← Borsh.decodeAll NearDecoder.decodeBlockProducers data
  let epoch ← setBlockProducers initialValidators (s.epochs 0)
  return { s with epochs := Function.update s.epochs 0 epoch }

def initWithBlock (cfg : Config) (env : Env) (data : Bytes) (s : State) : Except Revert State := do
  require (env.sender = cfg.admin) .bare
  require (s.initialized = false ∧ (s.epochs 0).numBPs ≠ 0) "Wrong initialization stage"
  let nearBlock ← Borsh.decodeAll NearDecoder.decodeLightClientBlock data
  require (nearBlock.nextBps.some = true) "Initialization block must contain next_bps"
  let current := { s.epochs 0 with epochId := nearBlock.innerLite.epochId }
  let next ← setBlockProducers nearBlock.nextBps.blockProducers
    { s.epochs 1 with epochId := nearBlock.innerLite.nextEpochId }
  return { s with
    initialized := true
    curHeight := nearBlock.innerLite.height
    epochs := Function.update (Function.update s.epochs 0 current) 1 next
    blockHashes_ := Function.update s.blockHashes_ nearBlock.innerLite.height nearBlock.hash
    blockMerkleRoots_ :=
      Function.update s.blockMerkleRoots_ nearBlock.innerLite.height nearBlock.innerLite.blockMerkleRoot }

/-- The previous block becomes the current one. -/
def State.commit (s : State) : State :=
  { s with
    curHeight := s.untrustedHeight
    curEpoch := if s.untrustedNextEpoch then s.curEpoch + 1 else s.curEpoch
    lastValidAt := 0
    blockHashes_ := Function.update s.blockHashes_ s.untrustedHeight s.untrustedHash
    blockMerkleRoots_ := Function.update s.blockMerkleRoots_ s.untrustedHeight s.untrustedMerkleRoot }

/-- Commit the previous block, or make sure that it is OK to replace it. -/
def commitOrReplace (cfg : Config) (env : Env) (nearBlock : LightClientBlock) (s : State) :
    Except Revert State :=
  if env.timestamp < s.lastValidAt then do
    require (uncheckedAdd s.untrustedTimestamp cfg.replaceDuration ≤ nearBlock.innerLite.timestamp.toNat)
      "Can only replace with a sufficiently newer block"
    return s
  else if s.lastValidAt ≠ 0 then .ok s.commit
  else .ok s

/-- Whether the block is from the epoch after the current one. -/
def fromNextEpoch (nearBlock : LightClientBlock) (s : State) : Except Revert Bool :=
  if nearBlock.innerLite.epochId = (s.epochs s.curEpoch).epochId then .ok false
  else if nearBlock.innerLite.epochId = (s.epochs (s.curEpoch + 1)).epochId then .ok true
  else .error "Epoch id of the block is not valid"

/-- The signature stored for an index whose approval is present. -/
def signatureAt (approvals : List OptionalSignature) (i : Nat) : Signature :=
  match approvals[i]? with
  | none => ⟨zeroBytes 32, zeroBytes 32⟩
  | some approval => approval.signature

/-- The loop that collects the signature set and overwrites stored signatures. -/
def recordSignatures (approvals : List OptionalSignature) (stored : Nat → Signature) :
    Nat → BitVec 256 × (Nat → Signature)
  | 0 => (0, stored)
  | i + 1 =>
    let (signatureSet, signatures) := recordSignatures approvals stored i
    if approved approvals i then
      (signatureSet ||| (1#256 <<< i), Function.update signatures i (signatureAt approvals i))
    else (signatureSet, signatures)

/-- The ring afterwards: a block of the next epoch announces the one after it. -/
def announceEpoch (nearBlock : LightClientBlock) (next : Bool) (s : State) :
    Except Revert (Fin 3 → Epoch) :=
  if next then do
    let nextEpoch ← setBlockProducers nearBlock.nextBps.blockProducers
      { s.epochs (s.curEpoch + 2) with epochId := nearBlock.innerLite.nextEpochId }
    return Function.update s.epochs (s.curEpoch + 2) nextEpoch
  else .ok s.epochs

/-- The new untrusted block, submitted now. -/
def State.submit (cfg : Config) (env : Env) (nearBlock : LightClientBlock) (next : Bool)
    (epochs : Fin 3 → Epoch) (s : State) : State :=
  let recorded := recordSignatures nearBlock.approvalsAfterNext s.untrustedSignatures
    (s.epochOf next).numBPs
  { s with
    untrustedHeight := nearBlock.innerLite.height
    untrustedTimestamp := nearBlock.innerLite.timestamp.toNat
    untrustedHash := nearBlock.hash
    untrustedMerkleRoot := nearBlock.innerLite.blockMerkleRoot
    untrustedNextHash := nearBlock.nextHash
    untrustedSignatureSet := recorded.1
    untrustedSignatures := recorded.2
    untrustedNextEpoch := next
    epochs := epochs
    lastSubmitter := env.sender
    lastValidAt := uncheckedAdd env.timestamp cfg.lockDuration }

/-- The checks and writes of `addLightClientBlock` after the previous block was
committed or may be replaced. -/
def acceptBlock (cfg : Config) (env : Env) (nearBlock : LightClientBlock) (s : State) :
    Except Revert State := do
  require (s.curHeight < nearBlock.innerLite.height) "New block must have higher height"
  let next ← fromNextEpoch nearBlock s
  let thisEpoch := s.epochOf next
  let approvals := nearBlock.approvalsAfterNext
  -- The last block of an epoch may carry more approvals than there are producers.
  require (thisEpoch.numBPs ≤ approvals.length) "Approval list is too short"
  require (thisEpoch.stakeThreshold < countVotes thisEpoch.packedStakes approvals thisEpoch.numBPs 0 0)
    "Too few approvals"
  require (next = true → nearBlock.nextBps.some = true) "Next next_bps should not be None"
  require (next = true → nearBlock.nextBps.hash = nearBlock.innerLite.nextBpHash)
    "Hash of block producers does not match"
  let epochs ← announceEpoch nearBlock next s
  return s.submit cfg env nearBlock next epochs

def addLightClientBlock (cfg : Config) (env : Env) (data : Bytes) (s : State) :
    Except Revert State := do
  require (Unpaused cfg env s pausedAddBlock) .bare
  require (s.initialized = true) "Contract is not initialized"
  require (cfg.lockEthAmount ≤ s.balanceOf env.sender) "Balance is not enough"
  let nearBlock ← Borsh.decodeAll NearDecoder.decodeLightClientBlock data
  let settled ← commitOrReplace cfg env nearBlock s
  acceptBlock cfg env nearBlock settled

def adminPause (cfg : Config) (env : Env) (flags : Nat) (s : State) : Except Revert State := do
  require (env.sender = cfg.admin) .bare
  return { s with paused := flags }

def adminReceiveEth (cfg : Config) (env : Env) (value : Nat) (s : State) : Except Revert State := do
  require (env.sender = cfg.admin) .bare
  return { s with balance := s.balance + value }

/-- The last three fields are zero when no block is unconfirmed. -/
structure BridgeState where
  currentHeight : Uint64
  nextTimestamp : Nat
  nextValidAt : Nat
  numBlockProducers : Nat
  deriving DecidableEq

def bridgeState (env : Env) (s : State) : BridgeState :=
  if env.timestamp < s.lastValidAt then
    ⟨s.curHeight, s.untrustedTimestamp, s.lastValidAt, (s.epochOf s.untrustedNextEpoch).numBPs⟩
  else ⟨if s.lastValidAt = 0 then s.curHeight else s.untrustedHeight, 0, 0, 0⟩

/-- The body shared by the two lookups by height. -/
def readConfirmed (env : Env) (s : State) (stored : Uint64 → Bytes32) (untrusted : Bytes32)
    (height : Uint64) : Bytes32 :=
  if stored height = zeroBytes 32 ∧ s.lastValidAt ≤ env.timestamp ∧ s.lastValidAt ≠ 0 ∧
      height = s.untrustedHeight then untrusted
  else stored height

def blockHashes (cfg : Config) (env : Env) (s : State) (height : Uint64) : Except Revert Bytes32 := do
  require (Unpaused cfg env s pausedVerify) .bare
  return readConfirmed env s s.blockHashes_ s.untrustedHash height

def blockMerkleRoots (cfg : Config) (env : Env) (s : State) (height : Uint64) :
    Except Revert Bytes32 := do
  require (Unpaused cfg env s pausedVerify) .bare
  return readConfirmed env s s.blockMerkleRoots_ s.untrustedMerkleRoot height

end RainbowBridge.NearBridge
