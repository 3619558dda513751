import RainbowBridge.NearProver.Contract

/-! The NEAR chain that a proof is about: outcomes under shard roots, shard roots
under an outcome root, headers with that root, and a Merkle tree over block
hashes. Trees have any shape; the root of no leaves is the zero word. -/

namespace RainbowBridge.NearProver

open Lib Solidity

inductive Status where
  | unknown
  | failure
  | successValue (value : Bytes)
  | successReceiptId (id : Bytes32)

/-- The status as the contract decodes it. -/
def Status.decoded : Status → ExecutionStatus
  | unknown => { ProofDecoder.noStatus 0 with unknown := true }
  | failure => { ProofDecoder.noStatus 1 with failed := true }
  | successValue value => { ProofDecoder.noStatus 2 with successValue := value }
  | successReceiptId id => { ProofDecoder.noStatus 3 with successReceiptId := id }

/-- An execution outcome with its id. Lengths fit the four bytes that Borsh gives
them. -/
structure Outcome where
  id : Bytes32
  logs : List Bytes
  receiptIds : List Bytes32
  gasBurnt : Uint64
  tokensBurnt : Uint128
  executorId : Bytes
  status : Status
  receiptIds_lt : receiptIds.length < 2 ^ 32
  executorId_lt : executorId.length < 2 ^ 32
  value_lt : ∀ value, status = .successValue value → value.length < 2 ^ 32

def Outcome.body (outcome : Outcome) : PartialOutcome :=
  ⟨outcome.receiptIds, outcome.gasBurnt, outcome.tokensBurnt, outcome.executorId,
    outcome.status.decoded⟩

/-- The root of a tree that may have no leaves. -/
def treeRoot {α : Type} (hash : Bytes → Bytes32) (digest : α → Bytes32) :
    Option (HashTree α) → Bytes32
  | none => zeroBytes 32
  | some tree => tree.root hash digest

def treeLeaves {α : Type} : Option (HashTree α) → List α
  | none => []
  | some tree => tree.leaves

def treeStrings {α : Type} (hash : Bytes → Bytes32) (digest : α → Bytes32) :
    Option (HashTree α) → List Bytes
  | none => []
  | some tree => tree.strings hash digest

/-- The outcomes of one shard. -/
abbrev Shard := Option (HashTree Outcome)

/-- A block without its parent. -/
structure BlockBody where
  height : Uint64
  epochId : Bytes32
  nextEpochId : Bytes32
  prevStateRoot : Bytes32
  timestamp : Uint64
  nextBpHash : Bytes32
  blockMerkleRoot : Bytes32
  shards : Option (HashTree Shard)
  innerRest : Bytes
  innerRest_length : innerRest.length ≠ 64

/-- A block with all its ancestors. -/
inductive NearBlock where
  | genesis (body : BlockBody)
  | child (parent : NearBlock) (body : BlockBody)

def NearBlock.body : NearBlock → BlockBody
  | genesis body => body
  | child _ body => body

/-- The block and the blocks before it. -/
def NearBlock.ancestry : NearBlock → List NearBlock
  | genesis body => [genesis body]
  | child parent body => child parent body :: parent.ancestry

/-- All outcomes of a block. -/
def NearBlock.outcomes (block : NearBlock) : List Outcome :=
  (treeLeaves block.body.shards).flatMap treeLeaves

variable [Hashing]

def Outcome.string (outcome : Outcome) : Bytes :=
  ProofDecoder.outcomeString outcome.id
    (sha256 (ProofDecoder.encodePartial outcome.body) :: outcome.logs.map sha256)

def Outcome.hash (outcome : Outcome) : Bytes32 := sha256 outcome.string

def shardRoot (shard : Shard) : Bytes32 := treeRoot sha256 Outcome.hash shard

def shardDigest (shard : Shard) : Bytes32 := sha256 (shardRoot shard).toList

def BlockBody.outcomeRoot (body : BlockBody) : Bytes32 := treeRoot sha256 shardDigest body.shards

/-- The light part of the header, with its hash. -/
def BlockBody.innerLite (body : BlockBody) : BlockHeaderInnerLite :=
  let lite : BlockHeaderInnerLite := ⟨body.height, body.epochId, body.nextEpochId,
    body.prevStateRoot, body.outcomeRoot, body.timestamp, body.nextBpHash, body.blockMerkleRoot,
    zeroBytes 32⟩
  { lite with hash := sha256 (NearDecoder.encodeInnerLite lite) }

def BlockBody.innerRestHash (body : BlockBody) : Bytes32 := sha256 body.innerRest

/-- The hash of a block above a parent with this hash. -/
def BlockBody.hashOver (body : BlockBody) (prevHash : Bytes32) : Bytes32 :=
  hashPair (hashPair body.innerLite.hash body.innerRestHash) prevHash

def NearBlock.hash : NearBlock → Bytes32
  | genesis body => body.hashOver (zeroBytes 32)
  | child parent body => body.hashOver parent.hash

def NearBlock.prevHash : NearBlock → Bytes32
  | genesis _ => zeroBytes 32
  | child parent _ => parent.hash

/-- The header of a block, as a proof carries it. -/
def NearBlock.header (block : NearBlock) : BlockHeaderLight :=
  ⟨block.prevHash, block.body.innerRestHash, block.body.innerLite, block.hash⟩

/-- The root that the bridge has for a height. -/
def blockRoot (blocks : Option (HashTree NearBlock)) : Bytes32 := treeRoot sha256 NearBlock.hash blocks

def Outcome.strings (outcome : Outcome) : List Bytes :=
  outcome.string :: ProofDecoder.encodePartial outcome.body :: outcome.logs

def shardStrings (shard : Shard) : List Bytes :=
  (shardRoot shard).toList :: (treeStrings sha256 Outcome.hash shard ++
    (treeLeaves shard).flatMap Outcome.strings)

/-- What is hashed for a block over a parent with this hash. -/
def BlockBody.strings (body : BlockBody) (prevHash : Bytes32) : List Bytes :=
  NearDecoder.encodeInnerLite body.innerLite :: body.innerRest ::
    (body.innerLite.hash.toList ++ body.innerRestHash.toList) ::
    ((hashPair body.innerLite.hash body.innerRestHash).toList ++ prevHash.toList) ::
    (treeStrings sha256 shardDigest body.shards ++ (treeLeaves body.shards).flatMap shardStrings)

/-- What is hashed for a block and its ancestors. -/
def NearBlock.strings : NearBlock → List Bytes
  | genesis body => body.strings (zeroBytes 32)
  | child parent body => body.strings parent.hash ++ parent.strings

/-- Every string hashed for the tree of blocks. -/
def chainStrings (blocks : Option (HashTree NearBlock)) : List Bytes :=
  treeStrings sha256 NearBlock.hash blocks ++ (treeLeaves blocks).flatMap NearBlock.strings

/-- Every string that the contract hashes for a decoded proof. -/
def proofStrings (proof : FullOutcomeProof) : List Bytes :=
  let header := proof.blockHeaderLite
  let outcome := proof.outcomeProof.outcomeWithId
  let shardRoot := computeRoot outcome.hash proof.outcomeProof.proof
  NearDecoder.encodeInnerLite header.innerLite ::
    (header.innerLite.hash.toList ++ header.innerRestHash.toList) ::
    ((hashPair header.innerLite.hash header.innerRestHash).toList ++ header.prevBlockHash.toList) ::
    ProofDecoder.encodePartial outcome.outcome.toPartialOutcome ::
    ProofDecoder.outcomeString outcome.id outcome.outcome.merkelizationHashes ::
    shardRoot.toList ::
    (outcome.outcome.logs ++ climbStrings sha256 outcome.hash (steps proof.outcomeProof.proof) ++
      climbStrings sha256 (sha256 shardRoot.toList) (steps proof.outcomeRootProof) ++
      climbStrings sha256 header.hash (steps proof.blockProof))

/-- The strings of the chain and of the proof that the data encodes. -/
def hashedStrings (blocks : Option (HashTree NearBlock)) (proofData : Bytes) : Set Bytes :=
  { string | string ∈ chainStrings blocks ∨
    ∃ proof, Borsh.decodeAll ProofDecoder.decodeFullOutcomeProof proofData = .ok proof ∧
      string ∈ proofStrings proof }

end RainbowBridge.NearProver
