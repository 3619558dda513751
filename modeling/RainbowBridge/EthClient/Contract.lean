import RainbowBridge.EthClient.Ethash

/-! The `EthClient` contract on NEAR: the headers it has accepted, the one with
the highest total difficulty, and the canonical chain below it. Unsigned integers
are natural numbers, with a panic where an operation would overflow. -/

namespace RainbowBridge.EthClient

open Lib EthTypes Near

structure HeaderInfo where
  totalDifficulty : Nat
  parentHash : H256
  number : Nat

/-- The state of `EthClient`. -/
structure Client where
  validateEthash : Bool
  dagsStartEpoch : Nat
  dagsMerkleRoots : List H128
  bestHeaderHash : H256
  hashesGcThreshold : Nat
  finalizedGcThreshold : Nat
  numConfirmations : Nat
  canonicalHeaderHashes : UnorderedMap Nat H256
  allHeaderHashes : UnorderedMap Nat (List H256)
  headers : UnorderedMap H256 BlockHeader
  infos : UnorderedMap H256 HeaderInfo
  trustedSigner : Option AccountId
  paused : Mask

def pauseAddBlockHeader : Mask := 1

/-- The arguments of `init`. -/
structure Config where
  validateEthash : Bool
  dagsStartEpoch : Nat
  dagsMerkleRoots : List H128
  firstHeader : Bytes
  hashesGcThreshold : Nat
  finalizedGcThreshold : Nat
  numConfirmations : Nat
  trustedSigner : Option AccountId

namespace Client

def dagMerkleRoot (client : Client) (epoch : Nat) : Option H128 := do
  guard (client.dagsStartEpoch ≤ epoch)
  client.dagsMerkleRoots[(epoch - client.dagsStartEpoch) % 2 ^ 32]?

def lastBlockNumber (client : Client) : Nat :=
  (client.infos client.bestHeaderHash).elim 0 HeaderInfo.number

def blockHash (client : Client) (index : Nat) : Option H256 := client.canonicalHeaderHashes index

def knownHashes (client : Client) (index : Nat) : List H256 := (client.allHeaderHashes index).getD []

def blockHashSafe (client : Client) (index : Nat) : Option (Option H256) :=
  match client.blockHash index with
  | none => some none
  | some headerHash => do
    guard (index + client.numConfirmations < 2 ^ 64)
    return if index + client.numConfirmations > client.lastBlockNumber then none else some headerHash

def setPaused (client : Client) (env : Env) (paused : Mask) : Option Client := do
  assertSelf env
  return { client with paused }

def updateTrustedSigner (client : Client) (env : Env) (trustedSigner : Option AccountId) :
    Option Client := do
  assertSelf env
  return { client with trustedSigner }

end Client

/-- Forgets the canonical hashes of `count` numbers from `number` on. -/
def removeNumbers (number : Nat) : Nat → UnorderedMap Nat H256 → UnorderedMap Nat H256
  | 0, canonical => canonical
  | count + 1, canonical => removeNumbers (number + 1) count (canonical.remove number)

/-- The loop that replaces past hashes until the chains converge, or the info
that has the next parent is gone. -/
def replacePast (infos : UnorderedMap H256 HeaderInfo) :
    Nat → H256 → UnorderedMap Nat H256 → UnorderedMap Nat H256
  | 0, currentHash, canonical => canonical.insert 0 currentHash
  | number + 1, currentHash, canonical =>
    let replaced := canonical.insert (number + 1) currentHash
    if canonical (number + 1) = some currentHash then replaced
    else
      match infos currentHash with
      | some info => replacePast infos number info.parentHash replaced
      | none => replaced

def gcCanonicalChain : Nat → UnorderedMap Nat H256 → UnorderedMap Nat H256
  | 0, canonical => canonical.remove 0
  | headerNumber + 1, canonical =>
    if (canonical (headerNumber + 1)).isSome then
      gcCanonicalChain headerNumber (canonical.remove (headerNumber + 1))
    else canonical

/-- What `gc_headers` removes from. -/
structure Store where
  allHeaderHashes : UnorderedMap Nat (List H256)
  headers : UnorderedMap H256 BlockHeader
  infos : UnorderedMap H256 HeaderInfo

def Store.dropNumber (store : Store) (number : Nat) (hashes : List H256) : Store where
  allHeaderHashes := store.allHeaderHashes.remove number
  headers := hashes.foldl UnorderedMap.remove store.headers
  infos := hashes.foldl UnorderedMap.remove store.infos

def gcHeaders : Nat → Store → Store
  | number, store =>
    match store.allHeaderHashes number with
    | none => store
    | some hashes =>
      match number with
      | 0 => store.dropNumber 0 hashes
      | below + 1 => gcHeaders below (store.dropNumber (below + 1) hashes)

/-- Whether the new header replaces the best one. -/
def becomesBest (info bestInfo : HeaderInfo) (difficulty : U256) : Bool :=
  info.totalDifficulty > bestInfo.totalDifficulty ||
    (info.totalDifficulty = bestInfo.totalDifficulty && difficulty.toNat % 2 = 0)

namespace Client

def store (client : Client) : Store := ⟨client.allHeaderHashes, client.headers, client.infos⟩

/-- The canonical chain under a new best header, before old hashes are removed. -/
def canonicalUnder (client : Client) (headerHash : H256) (info bestInfo : HeaderInfo) :
    UnorderedMap Nat H256 :=
  let cleaned := if bestInfo.number > info.number then
      removeNumbers (info.number + 1) (bestInfo.number - info.number) client.canonicalHeaderHashes
    else client.canonicalHeaderHashes
  replacePast client.infos (info.number - 1) info.parentHash (cleaned.insert info.number headerHash)

/-- The part of `record_header` that updates the canonical chain. -/
def updateCanonical (client : Client) (headerHash : H256) (info bestInfo : HeaderInfo) : Client :=
  let canonical := client.canonicalUnder headerHash info bestInfo
  let kept := if info.number ≥ client.hashesGcThreshold then
      gcCanonicalChain (info.number - client.hashesGcThreshold) canonical
    else canonical
  let store := if info.number ≥ client.finalizedGcThreshold then
      gcHeaders (info.number - client.finalizedGcThreshold) client.store
    else client.store
  { client with
    bestHeaderHash := headerHash
    canonicalHeaderHashes := kept
    allHeaderHashes := store.allHeaderHashes
    headers := store.headers
    infos := store.infos }

/-- The part of `record_header` that stores the header. -/
def insertHeader (client : Client) (header : BlockHeader) (headerHash : H256) (info : HeaderInfo) :
    Client :=
  { client with
    allHeaderHashes := client.allHeaderHashes.insert info.number
      (client.knownHashes info.number ++ [headerHash])
    headers := client.headers.insert headerHash header
    infos := client.infos.insert headerHash info }

def recordHeader (client : Client) (header : BlockHeader) : Option Client := do
  let bestInfo ← client.infos client.bestHeaderHash
  let headerHash ← header.hash
  let headerNumber := header.number.toNat
  guard (headerNumber + client.finalizedGcThreshold < 2 ^ 64)
  guard (¬ headerNumber + client.finalizedGcThreshold < bestInfo.number)
  let parentInfo ← client.infos header.parentHash
  guard (headerHash ∉ client.knownHashes headerNumber)
  guard (parentInfo.totalDifficulty + header.difficulty.toNat < 2 ^ 256)
  let info : HeaderInfo := {
    totalDifficulty := parentInfo.totalDifficulty + header.difficulty.toNat
    parentHash := header.parentHash
    number := headerNumber }
  let recorded := client.insertHeader header headerHash info
  if becomesBest info bestInfo header.difficulty then
    guard (0 < headerNumber)
    return recorded.updateCanonical headerHash info bestInfo
  else return recorded

end Client

/-- `value < previous * numerator / denominator`, the product in 256 bits. -/
def lessThanRatio (value previous : U256) (numerator denominator : Nat) : Option Bool := do
  guard (previous.toNat * numerator < 2 ^ 256)
  return value.toNat < previous.toNat * numerator / denominator

def greaterThanRatio (value previous : U256) (numerator denominator : Nat) : Option Bool := do
  guard (previous.toNat * numerator < 2 ^ 256)
  return value.toNat > previous.toNat * numerator / denominator

/-- `header.number == prev.number + 1`. -/
def isNext (number previous : BitVec 64) : Option Bool := do
  guard (previous.toNat + 1 < 2 ^ 64)
  return number.toNat = previous.toNat + 1

/-- `header.parent_hash == prev.hash.unwrap()`. -/
def isChild (parentHash : H256) (hash : Option H256) : Option Bool := do
  let hash ← hash
  return parentHash = hash

def init (crate : RlpCrate) (eip1559 : Bool) [Hashing] (stored : Option Client) (config : Config) :
    Option Client := do
  guard stored.isNone
  let header ← BlockHeader.decode crate eip1559 config.firstHeader
  let headerHash ← header.hash
  let headerNumber := header.number.toNat
  return {
    validateEthash := config.validateEthash
    dagsStartEpoch := config.dagsStartEpoch
    dagsMerkleRoots := config.dagsMerkleRoots
    bestHeaderHash := headerHash
    hashesGcThreshold := config.hashesGcThreshold
    finalizedGcThreshold := config.finalizedGcThreshold
    numConfirmations := config.numConfirmations
    canonicalHeaderHashes := UnorderedMap.insert (fun _ => none) headerNumber headerHash
    allHeaderHashes := UnorderedMap.insert (fun _ => none) headerNumber [headerHash]
    headers := UnorderedMap.insert (fun _ => none) headerHash header
    infos := UnorderedMap.insert (fun _ => none) headerHash
      { totalDifficulty := 0, parentHash := zeroBytes 32, number := headerNumber }
    trustedSigner := config.trustedSigner
    paused := 0 }

namespace Client

variable [Hashing] (crate : RlpCrate) (eip1559 : Bool) (ethash : EthashCrate)

def hashimotoMerkle (client : Client) (headerHash : H256) (nonce : H64) (headerNumber : Nat)
    (nodes : List DoubleNodeWithMerkleProof) : Option (H256 × H256) := do
  let merkleRoot ← client.dagMerkleRoot (headerNumber % 2 ^ 32 / 30000)
  ethash.hashimotoWithHasher headerHash nonce (ethash.getFullSize (headerNumber / 30000))
    (lookup client.validateEthash merkleRoot nodes)

/-- `verify_header`. Later conditions are not evaluated after one that fails. -/
def verifyHeader (client : Client) (header prev : BlockHeader)
    (dagNodes : List DoubleNodeWithMerkleProof) : Option Bool := do
  let partialHash ← header.partialHash
  let (_, result) ← client.hashimotoMerkle ethash partialHash header.nonce header.number.toNat dagNodes
  some (decide (beNat result.toList < (ethash.crossBoundary header.difficulty).toNat))
    <&&> (some (!client.validateEthash)
      <||> (lessThanRatio header.difficulty prev.difficulty 101 100
        <&&> greaterThanRatio header.difficulty prev.difficulty 99 100))
    <&&> some (decide (header.gasUsed.toNat ≤ header.gasLimit.toNat))
    <&&> lessThanRatio header.gasLimit prev.gasLimit 1025 1024
    <&&> greaterThanRatio header.gasLimit prev.gasLimit 1023 1024
    <&&> some (decide (header.gasLimit.toNat ≥ 5000))
    <&&> some (decide (header.timestamp.toNat > prev.timestamp.toNat))
    <&&> isNext header.number prev.number
    <&&> isChild header.parentHash prev.hash
    <&&> some (decide (header.extraData.length ≤ 32))

/-- Who may add the header: the trusted signer if there is one, else anyone with
a valid header. -/
def checkSubmission (client : Client) (env : Env) (header : BlockHeader)
    (dagNodes : List DoubleNodeWithMerkleProof) : Option Unit :=
  match client.trustedSigner with
  | some trustedSigner => guard (env.signerAccountId = trustedSigner)
  | none => do
    let prev ← client.headers header.parentHash
    let valid ← client.verifyHeader ethash header prev dagNodes
    guard valid

def addBlockHeader (client : Client) (env : Env) (blockHeader : Bytes)
    (dagNodes : List DoubleNodeWithMerkleProof) : Option Client := do
  checkNotPaused client.paused env pauseAddBlockHeader
  let header ← BlockHeader.decode crate eip1559 blockHeader
  client.checkSubmission ethash env header dagNodes
  client.recordHeader header

end Client

end RainbowBridge.EthClient
