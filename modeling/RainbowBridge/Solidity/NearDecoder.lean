import RainbowBridge.Solidity.Borsh

/-! `NearDecoder`: block producers, approvals and light client blocks as the NEAR
light client protocol serialises them. -/

namespace RainbowBridge.Solidity

open Lib Borsh

variable [Hashing]

namespace NearDecoder

def validatorV2 : UInt8 := 1

end NearDecoder

structure Signature where
  r : Bytes32
  s : Bytes32
  deriving DecidableEq

structure BlockProducer where
  publicKey : Bytes32
  stake : Uint128
  isChunkOnly : Bool
  deriving DecidableEq

structure OptionalBlockProducers where
  some : Bool
  blockProducers : List BlockProducer
  /-- `sha256` of the encoded list. -/
  hash : Bytes32
  deriving DecidableEq

structure OptionalSignature where
  some : Bool
  signature : Signature
  deriving DecidableEq

structure BlockHeaderInnerLite where
  height : Uint64
  epochId : Bytes32
  nextEpochId : Bytes32
  prevStateRoot : Bytes32
  outcomeRoot : Bytes32
  timestamp : Uint64
  nextBpHash : Bytes32
  blockMerkleRoot : Bytes32
  /-- `sha256` of the 208 encoded bytes. -/
  hash : Bytes32
  deriving DecidableEq

structure LightClientBlock where
  prevBlockHash : Bytes32
  nextBlockInnerHash : Bytes32
  innerLite : BlockHeaderInnerLite
  innerRestHash : Bytes32
  nextBps : OptionalBlockProducers
  approvalsAfterNext : List OptionalSignature
  hash : Bytes32
  nextHash : Bytes32
  deriving DecidableEq

/-- `sha256(abi.encodePacked(left, right))` on two words. -/
def hashPair (left right : Bytes32) : Bytes32 := sha256 (left.toList ++ right.toList)

namespace NearDecoder

def decodePublicKey : Decoder Bytes32 := do
  let tag ← decodeU8
  if tag = 0 then decodeBytes32 else refuse "Parse error: invalid key type"

def decodeSignature : Decoder Signature := do
  let tag ← decodeU8
  if tag = 0 then
    let r ← decodeBytes32
    let s ← decodeBytes32
    return ⟨r, s⟩
  else refuse "Parse error: invalid signature type"

/-- Any version other than `VALIDATOR_V2` is read as the first one. -/
def decodeBlockProducer : Decoder BlockProducer := do
  let version ← decodeU8
  skipBytes
  let publicKey ← decodePublicKey
  let stake ← decodeU128
  if version = validatorV2 then
    let flag ← decodeU8
    return ⟨publicKey, stake, flag != 0⟩
  else return ⟨publicKey, stake, false⟩

def decodeBlockProducers : Decoder (List BlockProducer) := do
  let length ← decodeU32
  Decoder.times length decodeBlockProducer

def decodeOptionalBlockProducers : Decoder OptionalBlockProducers := do
  let some ← decodeBool
  if some then
    let start ← get
    let blockProducers ← decodeBlockProducers
    let hash ← sha256Since start
    return ⟨true, blockProducers, hash⟩
  else return ⟨false, [], zeroBytes 32⟩

def decodeOptionalSignature : Decoder OptionalSignature := do
  let some ← decodeBool
  if some then
    let signature ← decodeSignature
    return ⟨true, signature⟩
  else return ⟨false, ⟨zeroBytes 32, zeroBytes 32⟩⟩

def decodeBlockHeaderInnerLite : Decoder BlockHeaderInnerLite := do
  let hash ← peekSha256 208
  let height ← decodeU64
  let epochId ← decodeBytes32
  let nextEpochId ← decodeBytes32
  let prevStateRoot ← decodeBytes32
  let outcomeRoot ← decodeBytes32
  let timestamp ← decodeU64
  let nextBpHash ← decodeBytes32
  let blockMerkleRoot ← decodeBytes32
  return ⟨height, epochId, nextEpochId, prevStateRoot, outcomeRoot, timestamp, nextBpHash,
    blockMerkleRoot, hash⟩

def decodeLightClientBlock : Decoder LightClientBlock := do
  let prevBlockHash ← decodeBytes32
  let nextBlockInnerHash ← decodeBytes32
  let innerLite ← decodeBlockHeaderInnerLite
  let innerRestHash ← decodeBytes32
  let nextBps ← decodeOptionalBlockProducers
  let length ← decodeU32
  let approvalsAfterNext ← Decoder.times length decodeOptionalSignature
  let hash := hashPair (hashPair innerLite.hash innerRestHash) prevBlockHash
  let nextHash := hashPair nextBlockInnerHash hash
  return ⟨prevBlockHash, nextBlockInnerHash, innerLite, innerRestHash, nextBps,
    approvalsAfterNext, hash, nextHash⟩

/-- The 208 bytes that are hashed for the light part of a header. -/
def encodeInnerLite (lite : BlockHeaderInnerLite) : Bytes :=
  leBytes 8 lite.height.toNat ++ (lite.epochId.toList ++ (lite.nextEpochId.toList ++
    (lite.prevStateRoot.toList ++ (lite.outcomeRoot.toList ++ (leBytes 8 lite.timestamp.toNat ++
      (lite.nextBpHash.toList ++ lite.blockMerkleRoot.toList))))))

omit [Hashing] in
@[simp] theorem length_encodeInnerLite (lite : BlockHeaderInnerLite) :
    (encodeInnerLite lite).length = 208 := by
  simp [encodeInnerLite]

/-- What is read as the light part is its encoding, and its hash is of that. -/
theorem decodeBlockHeaderInnerLite_eq_ok {data rest : Bytes} {lite : BlockHeaderInnerLite}
    (success : decodeBlockHeaderInnerLite data = .ok (lite, rest)) :
    data = encodeInnerLite lite ++ rest ∧ lite.hash = sha256 (encodeInnerLite lite) := by
  simp only [decodeBlockHeaderInnerLite, Decoder.bind_eq_ok, Decoder.pure_eq_ok, peekSha256,
    bind_eq_ok, require_eq_ok, pure_eq_ok, Prod.mk.injEq, decodeBytes32] at success
  obtain ⟨hash, _, ⟨_, _, rfl, rfl⟩, height, d₁, e₁, epochId, d₂, e₂, nextEpochId, d₃, e₃,
    prevStateRoot, d₄, e₄, outcomeRoot, d₅, e₅, timestamp, d₆, e₆, nextBpHash, d₇, e₇,
    blockMerkleRoot, d₈, e₈, rfl, rfl⟩ := success
  have consumed : data = encodeInnerLite ⟨height, epochId, nextEpochId, prevStateRoot, outcomeRoot,
      timestamp, nextBpHash, blockMerkleRoot, sha256 (data.take 208)⟩ ++ d₈ := by
    rw [decodeU64_parses _ _ _ e₁, read_parses _ _ _ _ e₂, read_parses _ _ _ _ e₃,
      read_parses _ _ _ _ e₄, read_parses _ _ _ _ e₅, decodeU64_parses _ _ _ e₆,
      read_parses _ _ _ _ e₇, read_parses _ _ _ _ e₈]
    simp [encodeInnerLite]
  have front := (congrArg (List.take 208) consumed).trans (List.take_left' (by simp))
  exact ⟨consumed, congrArg sha256 front⟩

theorem decodeBlockHeaderInnerLite_reads {lite : BlockHeaderInnerLite}
    (hash : lite.hash = sha256 (encodeInnerLite lite)) :
    decodeBlockHeaderInnerLite.Reads (encodeInnerLite lite) lite := by
  refine peekSha256_reads (length_encodeInnerLite lite) ?_
  rw [← hash]
  exact (decodeU64_reads lite.height).bind <| (read_reads lite.epochId).bind <|
    (read_reads lite.nextEpochId).bind <| (read_reads lite.prevStateRoot).bind <|
    (read_reads lite.outcomeRoot).bind <| (decodeU64_reads lite.timestamp).bind <|
    (read_reads lite.nextBpHash).bind <| (read_reads lite.blockMerkleRoot).map _

/-- A block producer as it is serialised, without the flag that only the second
version has. -/
structure ProducerRecord where
  version : UInt8
  accountId : Bytes
  publicKey : Bytes32
  stake : Uint128

namespace ProducerRecord

def bytes (record : ProducerRecord) : Bytes :=
  [record.version] ++ (encodeBytes record.accountId ++
    ([0] ++ record.publicKey.toList ++ leBytes 16 record.stake.toNat))

/-- The producer with the flag given or left out. -/
def producer (record : ProducerRecord) (isChunkOnly : Bool) : BlockProducer :=
  ⟨record.publicKey, record.stake, isChunkOnly⟩

end ProducerRecord

def encodeProducers (records : List ProducerRecord) : Bytes :=
  leBytes 4 records.length ++ records.flatMap ProducerRecord.bytes

def encodeSignature (signature : Signature) : Bytes := [0] ++ (signature.r.toList ++ signature.s.toList)

def encodeOptionalSignature (approval : OptionalSignature) : Bytes :=
  if approval.some then [1] ++ encodeSignature approval.signature else [0]

def encodeApprovals (approvals : List OptionalSignature) : Bytes :=
  leBytes 4 approvals.length ++ approvals.flatMap encodeOptionalSignature

section Producers

omit [Hashing]

theorem decodePublicKey_reads (key : Bytes32) : decodePublicKey.Reads ([0] ++ key.toList) key :=
  (decodeU8_reads 0).bind (read_reads key)

theorem decodeSignature_reads (signature : Signature) :
    decodeSignature.Reads (encodeSignature signature) signature :=
  (decodeU8_reads 0).bind <| (read_reads signature.r).bind <| (read_reads signature.s).map _

/-- After the fields of both versions, only the second one reads a flag. -/
theorem decodeBlockProducer_run {record : ProducerRecord} (fits : record.accountId.length < 2 ^ 32)
    (rest : Bytes) : decodeBlockProducer (record.bytes ++ rest) =
      (if record.version = validatorV2 then do
        let flag ← decodeU8
        return record.producer (flag != 0)
      else pure (record.producer false) : Borsh.Decoder BlockProducer) rest := by
  rw [decodeBlockProducer, ProducerRecord.bytes, List.append_assoc, (decodeU8_reads record.version).run,
    List.append_assoc, (skipBytes_reads fits).run, List.append_assoc, (decodePublicKey_reads _).run,
    (decodeU128_reads record.stake).run]
  rfl

theorem decodeBlockProducer_reads {record : ProducerRecord} (fits : record.accountId.length < 2 ^ 32)
    (first : record.version ≠ validatorV2) :
    decodeBlockProducer.Reads record.bytes (record.producer false) := by
  intro rest
  rw [decodeBlockProducer_run fits, if_neg first]
  rfl

theorem decodeBlockProducers_reads {records : List ProducerRecord} (few : records.length < 2 ^ 32)
    (fits : ∀ record ∈ records, record.accountId.length < 2 ^ 32)
    (first : ∀ record ∈ records, record.version ≠ validatorV2) :
    decodeBlockProducers.Reads (encodeProducers records)
      (records.map (ProducerRecord.producer · false)) :=
  (decodeU32_reads few).bind <| Decoder.Reads.times_map records fun record member =>
    decodeBlockProducer_reads (fits record member) (first record member)

theorem decodeOptionalSignature_reads {approval : OptionalSignature}
    (empty : approval.some = false → approval.signature = ⟨zeroBytes 32, zeroBytes 32⟩) :
    decodeOptionalSignature.Reads (encodeOptionalSignature approval) approval := by
  obtain ⟨some, signature⟩ := approval
  cases some with
  | false =>
    obtain rfl := empty rfl
    exact (decodeBool_reads false).bind (.pure _)
  | true => exact (decodeBool_reads true).bind ((decodeSignature_reads signature).map _)

theorem decodeSignature_parses : decodeSignature.Parses encodeSignature := by
  intro data signature rest success
  simp only [decodeSignature, Decoder.bind_eq_ok] at success
  obtain ⟨tag, _, tagged, success⟩ := success
  split at success
  · rename_i zero
    simp only [Decoder.bind_eq_ok, Decoder.pure_eq_ok] at success
    obtain ⟨r, _, e₁, s, _, e₂, rfl, rfl⟩ := success
    rw [decodeU8_parses _ _ _ tagged, read_parses 32 _ _ _ e₁, read_parses 32 _ _ _ e₂, zero]
    simp [encodeSignature]
  · cases success

theorem decodeOptionalSignature_parses : decodeOptionalSignature.Parses encodeOptionalSignature := by
  intro data approval rest success
  simp only [decodeOptionalSignature, Decoder.bind_eq_ok] at success
  obtain ⟨some, _, tagged, success⟩ := success
  rw [decodeBool_parses _ _ _ tagged]
  cases some with
  | false =>
    obtain ⟨rfl, rfl⟩ := Decoder.pure_eq_ok.mp success
    rfl
  | true =>
    simp only [if_true, Decoder.bind_eq_ok, Decoder.pure_eq_ok] at success
    obtain ⟨signature, _, decoded, rfl, rfl⟩ := success
    rw [decodeSignature_parses _ _ _ decoded]
    simp [encodeOptionalSignature]

/-- The account id that a decoded producer skips lies inside the data. -/
theorem decodeBlockProducer_skips {data rest : Bytes} {producer : BlockProducer}
    (success : decodeBlockProducer data = .ok (producer, rest)) :
    ∃ version length after, data = version :: (leBytes 4 length ++ after) ∧ length ≤ after.length := by
  simp only [decodeBlockProducer, skipBytes, Decoder.bind_eq_ok, Decoder.pure_eq_ok] at success
  obtain ⟨version, _, e₁, _, _, ⟨length, _, e₂, id, left, e₃, _, rfl⟩, _⟩ := success
  refine ⟨version, length, id.toList ++ left, ?_, ?_⟩
  · rw [decodeU8_parses _ _ _ e₁, decodeU32_parses _ _ _ e₂, read_parses length _ _ _ e₃]
    rfl
  · simp

end Producers

/-- The blocks whose hashes follow from the rest, with these records as producers. -/
structure Readable (records : List ProducerRecord) (nearBlock : LightClientBlock) : Prop where
  lite : nearBlock.innerLite.hash = sha256 (encodeInnerLite nearBlock.innerLite)
  few : records.length < 2 ^ 32
  ids : ∀ record ∈ records, record.accountId.length < 2 ^ 32
  nextBps : nearBlock.nextBps =
    ⟨true, records.map (ProducerRecord.producer · false), sha256 (encodeProducers records)⟩
  count : nearBlock.approvalsAfterNext.length < 2 ^ 32
  absent : ∀ approval ∈ nearBlock.approvalsAfterNext, approval.some = false →
    approval.signature = ⟨zeroBytes 32, zeroBytes 32⟩
  hash : nearBlock.hash =
    hashPair (hashPair nearBlock.innerLite.hash nearBlock.innerRestHash) nearBlock.prevBlockHash
  nextHash : nearBlock.nextHash = hashPair nearBlock.nextBlockInnerHash nearBlock.hash

def encodeBlock (records : List ProducerRecord) (nearBlock : LightClientBlock) : Bytes :=
  nearBlock.prevBlockHash.toList ++ (nearBlock.nextBlockInnerHash.toList ++
    (encodeInnerLite nearBlock.innerLite ++ (nearBlock.innerRestHash.toList ++
      ([1] ++ encodeProducers records ++ encodeApprovals nearBlock.approvalsAfterNext))))

theorem decodeOptionalBlockProducers_reads {records : List ProducerRecord}
    (read : decodeBlockProducers.Reads (encodeProducers records)
      (records.map (ProducerRecord.producer · false))) :
    decodeOptionalBlockProducers.Reads ([1] ++ encodeProducers records)
      ⟨true, records.map (ProducerRecord.producer · false), sha256 (encodeProducers records)⟩ :=
  (decodeBool_reads true).bind <| sha256Since_reads read fun blockProducers hash =>
    (⟨true, blockProducers, hash⟩ : OptionalBlockProducers)

theorem Readable.reads {records : List ProducerRecord} {nearBlock : LightClientBlock}
    (readable : Readable records nearBlock)
    (first : ∀ record ∈ records, record.version ≠ validatorV2) :
    decodeLightClientBlock.Reads (encodeBlock records nearBlock) nearBlock := by
  have producers := decodeOptionalBlockProducers_reads
    (decodeBlockProducers_reads readable.few readable.ids first)
  have approvals := (Decoder.Reads.times nearBlock.approvalsAfterNext fun approval member =>
    decodeOptionalSignature_reads (readable.absent approval member))
  have count := decodeU32_reads readable.count
  have lite := decodeBlockHeaderInnerLite_reads readable.lite
  obtain ⟨prevBlockHash, nextBlockInnerHash, innerLite, innerRestHash, nextBps, approvalsAfterNext, hash,
    nextHash⟩ := nearBlock
  obtain rfl : nextBps = _ := readable.nextBps
  obtain rfl : hash = hashPair (hashPair innerLite.hash innerRestHash) prevBlockHash := readable.hash
  obtain rfl : nextHash = hashPair nextBlockInnerHash
    (hashPair (hashPair innerLite.hash innerRestHash) prevBlockHash) := readable.nextHash
  exact (read_reads prevBlockHash).bind <| (read_reads nextBlockInnerHash).bind <| lite.bind <|
    (read_reads innerRestHash).bind <| producers.bind <| count.bind (approvals.map _)

/-- Of a block that is accepted, the producers leave exactly the approvals. -/
theorem decodeLightClientBlock_producers {records : List ProducerRecord}
    {nearBlock decoded : LightClientBlock}
    (lite : nearBlock.innerLite.hash = sha256 (encodeInnerLite nearBlock.innerLite))
    (success : decodeLightClientBlock (encodeBlock records nearBlock) = .ok (decoded, [])) :
    ∃ producers, decodeBlockProducers (encodeProducers records ++
      encodeApprovals nearBlock.approvalsAfterNext) =
        .ok (producers, encodeApprovals decoded.approvalsAfterNext) := by
  rw [decodeLightClientBlock, encodeBlock, (decodeBytes32_reads _).run, (decodeBytes32_reads _).run,
    (decodeBlockHeaderInnerLite_reads lite).run, (decodeBytes32_reads _).run] at success
  simp only [Decoder.bind_eq_ok, Decoder.pure_eq_ok] at success
  obtain ⟨nextBps, remaining, listed, count, _, counted, approvals, _, read, rfl, rfl⟩ := success
  have present : decodeBool.Reads [1] true := decodeBool_reads true
  rw [decodeOptionalBlockProducers, List.append_assoc, present.run] at listed
  simp only [if_true, Decoder.bind_eq_ok, Decoder.pure_eq_ok] at listed
  obtain ⟨_, _, here, producers, _, decoded, _, _, hashed, _, rfl⟩ := listed
  cases here
  cases hashed
  obtain ⟨rfl, consumed⟩ := Decoder.times_eq_ok decodeOptionalSignature_parses read
  refine ⟨producers, decoded.trans ?_⟩
  rw [decodeU32_parses _ _ _ counted, consumed]
  simp [encodeApprovals]

end NearDecoder

end RainbowBridge.Solidity
