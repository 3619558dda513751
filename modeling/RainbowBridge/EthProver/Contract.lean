import RainbowBridge.EthTypes.Receipt
import RainbowBridge.Near.Runtime

/-! The `EthProver` contract on NEAR. A panic is `none`; `verify_log_entry` either
answers at once or hands the question about the header to the client contract. -/

namespace RainbowBridge.EthProver

open Lib EthTypes Near

/-- The state of `EthProver`. -/
structure Prover where
  bridgeSmartContract : AccountId
  paused : Mask

def pauseVerify : Mask := 1

/-- A value, or a call of `block_hash_safe` with `on_block_hash` to follow. -/
inductive PromiseOrValue where
  | value (result : Bool)
  | promise (client : AccountId) (blockNumber : BitVec 64) (expectedBlockHash : H256)

/-- The arguments of `verify_log_entry`. -/
structure LogProof where
  logIndex : BitVec 64
  logEntryData : Bytes
  receiptIndex : BitVec 64
  receiptData : Bytes
  headerData : Bytes
  proof : List Bytes
  skipBridgeCall : Bool

def init (stored : Option Prover) (bridgeSmartContract : AccountId) : Option Prover := do
  guard stored.isNone
  return { bridgeSmartContract, paused := 0 }

def setPaused (prover : Prover) (env : Env) (paused : Mask) : Option Prover := do
  assertSelf env
  return { prover with paused }

def setBridge (prover : Prover) (env : Env) (bridge : AccountId) : Option Prover := do
  assertSelf env
  return { prover with bridgeSmartContract := bridge }

/-- The callback, given the answer of the client. -/
def onBlockHash (env : Env) (blockHash : Option H256) (expectedBlockHash : H256) : Option Bool := do
  assertSelf env
  return blockHash = some expectedBlockHash

def assertEthclientHash (prover : Prover) (blockNumber : BitVec 64) (expectedBlockHash : H256) :
    PromiseOrValue :=
  .promise prover.bridgeSmartContract blockNumber expectedBlockHash

/-- What a call finally gives. `client` has the answers of the accounts to
`block_hash_safe` when it is called, `none` for a call that fails; the contract
itself then calls `on_block_hash`. -/
def resolve (env : Env) (client : AccountId → BitVec 64 → Option (Option H256)) :
    PromiseOrValue → Option Bool
  | .value result => some result
  | .promise account blockNumber expectedBlockHash => do
    let blockHash ← client account blockNumber
    onBlockHash { env with predecessorAccountId := env.currentAccountId } blockHash expectedBlockHash

def getVec (crate : RlpCrate) (data : Bytes) (pos : Nat) : Option Bytes := crate.bytesAt data pos

/-- High and low half of each byte. -/
def halves (bytes : Bytes) : Bytes := bytes.flatMap fun el => [el / 16, el % 16]

/-- The nibbles of a path, given its first byte and the others. -/
def pathOf (first : UInt8) (others : Bytes) : Bytes :=
  (if first / 16 % 2 = 1 then [first % 16] else []) ++ halves others

variable [Hashing]

/-- Whether a proof element is the node expected: the root is always a hash, and
below it a short node is not hashed. -/
def isExpected (expectedRoot node : Bytes) (keyIndex : Nat) : Bool :=
  if keyIndex = 0 then (keccak256 node).toList = expectedRoot
  else if node.length < 32 then node = expectedRoot
  else (keccak256 node).toList = expectedRoot

/-- `_verify_trie_proof`, with the elements of the proof from `proof_index` on. -/
def verifyTrieProofFrom (crate : RlpCrate) (key : Bytes) : Bytes → List Bytes → Nat → Option Bytes
  | _, [], _ => none
  | expectedRoot, node :: rest, keyIndex => do
    guard (isExpected expectedRoot node keyIndex)
    if (crate.items node).length = 17 then
      if keyIndex = key.length then
        guard (rest = [])
        getVec crate node 16
      else
        let nibble ← key[keyIndex]?
        let newExpectedRoot ← getVec crate node nibble.toNat
        verifyTrieProofFrom crate key newExpectedRoot rest (keyIndex + 1)
    else
      guard ((crate.items node).length = 2)
      let pathU8 ← getVec crate node 0
      let first ← pathU8.head?
      guard (first / 16 ≤ 3)
      let path := pathOf first pathU8.tail
      guard (keyIndex + path.length ≤ key.length)
      guard (path = (key.drop keyIndex).take path.length)
      if 2 ≤ first / 16 then
        guard (rest = [])
        guard (keyIndex + path.length = key.length)
        getVec crate node 1
      else
        let newExpectedRoot ← getVec crate node 1
        verifyTrieProofFrom crate key newExpectedRoot rest (keyIndex + path.length)

def verifyTrieProof (crate : RlpCrate) (expectedRoot : H256) (key : Bytes) (proof : List Bytes) :
    Option Bytes :=
  verifyTrieProofFrom crate (halves key) expectedRoot.toList proof 0

/-- `verify_log_entry`. `as usize` keeps 32 bits of the index on the target. -/
def verifyLogEntry (crate : RlpCrate) (eip1559 : Bool) (prover : Prover) (env : Env)
    (call : LogProof) : Option PromiseOrValue := do
  checkNotPaused prover.paused env pauseVerify
  let logEntry ← LogEntry.decode crate call.logEntryData
  let receipt ← Receipt.decode crate call.receiptData
  let header ← BlockHeader.decode crate eip1559 call.headerData
  let included ← receipt.logs[call.logIndex.toNat % 2 ^ 32]?
  guard (included = logEntry)
  let data ← verifyTrieProof crate header.receiptsRoot (crate.encodeUint call.receiptIndex.toNat)
    call.proof
  let verificationResult := call.receiptData = data
  if verificationResult ∧ call.skipBridgeCall then return .value true
  else if ¬ verificationResult then return .value false
  else
    let hash ← header.hash
    return .promise prover.bridgeSmartContract header.number hash

end RainbowBridge.EthProver
