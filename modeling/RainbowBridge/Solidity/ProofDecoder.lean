import RainbowBridge.Solidity.NearDecoder

/-! `ProofDecoder`: the Borsh form of an outcome proof. Beside each decoder stands
the encoding that it accepts. -/

namespace RainbowBridge.Solidity

open Lib Borsh

structure MerklePathItem where
  hash : Bytes32
  /-- `0` when the sibling stands on the left. -/
  direction : UInt8

abbrev MerklePath := List MerklePathItem

structure BlockHeaderLight where
  prevBlockHash : Bytes32
  innerRestHash : Bytes32
  innerLite : BlockHeaderInnerLite
  hash : Bytes32

structure ExecutionStatus where
  enumIndex : UInt8
  unknown : Bool
  failed : Bool
  successValue : Bytes
  successReceiptId : Bytes32

/-- The part of an outcome that is hashed as one string. -/
structure PartialOutcome where
  receiptIds : List Bytes32
  gasBurnt : Uint64
  tokensBurnt : Uint128
  executorId : Bytes
  status : ExecutionStatus

structure ExecutionOutcome extends PartialOutcome where
  logs : List Bytes
  merkelizationHashes : List Bytes32

structure ExecutionOutcomeWithId where
  id : Bytes32
  outcome : ExecutionOutcome
  hash : Bytes32

structure ExecutionOutcomeWithIdAndProof where
  proof : MerklePath
  blockHash : Bytes32
  outcomeWithId : ExecutionOutcomeWithId

structure FullOutcomeProof where
  outcomeProof : ExecutionOutcomeWithIdAndProof
  outcomeRootProof : MerklePath
  blockHeaderLite : BlockHeaderLight
  blockProof : MerklePath

namespace ProofDecoder

def decodeMerklePathItem : Decoder MerklePathItem := do
  let hash ← decodeBytes32
  let direction ← decodeU8
  if direction < 2 then return ⟨hash, direction⟩
  else refuse "ProofDecoder: MerklePathItem direction should be 0 or 1"

def decodeMerklePath : Decoder MerklePath := do
  let length ← decodeU32
  Decoder.times length decodeMerklePathItem

def noStatus (enumIndex : UInt8) : ExecutionStatus := ⟨enumIndex, false, false, [], zeroBytes 32⟩

def decodeExecutionStatus : Decoder ExecutionStatus := do
  let enumIndex ← decodeU8
  if enumIndex = 0 then return { noStatus enumIndex with unknown := true }
  else if enumIndex = 1 then return { noStatus enumIndex with failed := true }
  else if enumIndex = 2 then
    let successValue ← decodeBytes
    return { noStatus enumIndex with successValue := successValue }
  else if enumIndex = 3 then
    let successReceiptId ← decodeBytes32
    return { noStatus enumIndex with successReceiptId := successReceiptId }
  else refuse "NearDecoder: decodeExecutionStatus index out of range"

/-- The fields between the two pointers of `decodeExecutionOutcome`. -/
def decodePartialOutcome : Decoder PartialOutcome := do
  let length ← decodeU32
  let receiptIds ← Decoder.times length decodeBytes32
  let gasBurnt ← decodeU64
  let tokensBurnt ← decodeU128
  let executorId ← decodeBytes
  let status ← decodeExecutionStatus
  return ⟨receiptIds, gasBurnt, tokensBurnt, executorId, status⟩

def encodeStatus (status : ExecutionStatus) : Bytes :=
  if status.enumIndex = 2 then status.enumIndex :: encodeBytes status.successValue
  else if status.enumIndex = 3 then status.enumIndex :: status.successReceiptId.toList
  else [status.enumIndex]

/-- The string that is hashed for an outcome without its logs. -/
def encodePartial (outcome : PartialOutcome) : Bytes :=
  leBytes 4 outcome.receiptIds.length ++ (outcome.receiptIds.flatMap List.Vector.toList ++
    (leBytes 8 outcome.gasBurnt.toNat ++ (leBytes 16 outcome.tokensBurnt.toNat ++
      (encodeBytes outcome.executorId ++ encodeStatus outcome.status))))

theorem decodeExecutionStatus_parses : decodeExecutionStatus.Parses encodeStatus := by
  intro data status rest success
  simp only [decodeExecutionStatus, Decoder.bind_eq_ok] at success
  obtain ⟨enumIndex, middle, tagged, success⟩ := success
  rw [decodeU8_parses _ _ _ tagged]
  split at success
  · rename_i tag
    obtain ⟨rfl, rfl⟩ := Decoder.pure_eq_ok.mp success
    simp [encodeStatus, noStatus, tag]
  · split at success
    · rename_i tag
      obtain ⟨rfl, rfl⟩ := Decoder.pure_eq_ok.mp success
      simp [encodeStatus, noStatus, tag]
    · split at success
      · rename_i tag
        obtain ⟨value, left, decoded, returned⟩ := Decoder.bind_eq_ok.mp success
        obtain ⟨rfl, rfl⟩ := Decoder.pure_eq_ok.mp returned
        rw [decodeBytes_parses _ _ _ decoded]
        simp [encodeStatus, noStatus, tag]
      · split at success
        · rename_i tag
          obtain ⟨value, left, decoded, returned⟩ := Decoder.bind_eq_ok.mp success
          obtain ⟨rfl, rfl⟩ := Decoder.pure_eq_ok.mp returned
          rw [read_parses 32 _ _ _ decoded]
          simp [encodeStatus, noStatus, tag]
        · cases success

theorem decodePartialOutcome_parses : decodePartialOutcome.Parses encodePartial := by
  intro data outcome rest success
  simp only [decodePartialOutcome, Decoder.bind_eq_ok, Decoder.pure_eq_ok] at success
  obtain ⟨length, d₁, counted, receiptIds, d₂, listed, gasBurnt, d₃, e₃, tokensBurnt, d₄, e₄,
    executorId, d₅, e₅, status, d₆, e₆, rfl, rfl⟩ := success
  obtain ⟨rfl, consumed⟩ := Decoder.times_eq_ok (read_parses 32) listed
  rw [decodeU32_parses _ _ _ counted, consumed, decodeU64_parses _ _ _ e₃,
    decodeU128_parses _ _ _ e₄, decodeBytes_parses _ _ _ e₅, decodeExecutionStatus_parses _ _ _ e₆]
  simp [encodePartial]

theorem decodePartialOutcome_reads {outcome : PartialOutcome} (ids : outcome.receiptIds.length < 2 ^ 32)
    (executorId : outcome.executorId.length < 2 ^ 32)
    (status : decodeExecutionStatus.Reads (encodeStatus outcome.status) outcome.status) :
    decodePartialOutcome.Reads (encodePartial outcome) outcome :=
  (decodeU32_reads ids).bind <|
    (Decoder.Reads.times outcome.receiptIds fun id _ => read_reads id).bind <|
    (decodeU64_reads outcome.gasBurnt).bind <| (decodeU128_reads outcome.tokensBurnt).bind <|
    (decodeBytes_reads executorId).bind <| status.map _

theorem successValue_reads {value : Bytes} (fits : value.length < 2 ^ 32) :
    decodeExecutionStatus.Reads (2 :: encodeBytes value) { noStatus 2 with successValue := value } :=
  (decodeU8_reads 2).bind ((decodeBytes_reads fits).map _)

theorem successReceiptId_reads (id : Bytes32) :
    decodeExecutionStatus.Reads (3 :: id.toList) { noStatus 3 with successReceiptId := id } :=
  (decodeU8_reads 3).bind ((read_reads id).map _)

variable [Hashing]

def decodeBlockHeaderLight : Decoder BlockHeaderLight := do
  let prevBlockHash ← decodeBytes32
  let innerRestHash ← decodeBytes32
  let innerLite ← NearDecoder.decodeBlockHeaderInnerLite
  return ⟨prevBlockHash, innerRestHash, innerLite,
    hashPair (hashPair innerLite.hash innerRestHash) prevBlockHash⟩

def decodeExecutionOutcome : Decoder ExecutionOutcome := do
  let length ← decodeU32
  let logs ← Decoder.times length decodeBytes
  let start ← get
  let outcome ← decodePartialOutcome
  let hash ← sha256Since start
  return { outcome with logs := logs, merkelizationHashes := hash :: logs.map sha256 }

/-- `abi.encodePacked(swapBytes4(uint32(len)), id, merkelization_hashes)`. -/
def outcomeString (id : Bytes32) (merkelizationHashes : List Bytes32) : Bytes :=
  leBytes 4 (1 + merkelizationHashes.length) ++ id.toList ++ merkelizationHashes.flatMap List.Vector.toList

def decodeExecutionOutcomeWithId : Decoder ExecutionOutcomeWithId := do
  let id ← decodeBytes32
  let outcome ← decodeExecutionOutcome
  return ⟨id, outcome, sha256 (outcomeString id outcome.merkelizationHashes)⟩

def decodeExecutionOutcomeWithIdAndProof : Decoder ExecutionOutcomeWithIdAndProof := do
  let proof ← decodeMerklePath
  let blockHash ← decodeBytes32
  let outcomeWithId ← decodeExecutionOutcomeWithId
  return ⟨proof, blockHash, outcomeWithId⟩

def decodeFullOutcomeProof : Decoder FullOutcomeProof := do
  let outcomeProof ← decodeExecutionOutcomeWithIdAndProof
  let outcomeRootProof ← decodeMerklePath
  let blockHeaderLite ← decodeBlockHeaderLight
  let blockProof ← decodeMerklePath
  return ⟨outcomeProof, outcomeRootProof, blockHeaderLite, blockProof⟩

def encodePathItem (item : MerklePathItem) : Bytes := item.hash.toList ++ [item.direction]

def encodePath (path : MerklePath) : Bytes := leBytes 4 path.length ++ path.flatMap encodePathItem

def encodeOutcome (outcome : ExecutionOutcome) : Bytes :=
  leBytes 4 outcome.logs.length ++
    (outcome.logs.flatMap encodeBytes ++ encodePartial outcome.toPartialOutcome)

def encodeHeader (header : BlockHeaderLight) : Bytes :=
  header.prevBlockHash.toList ++
    (header.innerRestHash.toList ++ NearDecoder.encodeInnerLite header.innerLite)

def encodeFullProof (proof : FullOutcomeProof) : Bytes :=
  encodePath proof.outcomeProof.proof ++ (proof.outcomeProof.blockHash.toList ++
    (proof.outcomeProof.outcomeWithId.id.toList ++
      (encodeOutcome proof.outcomeProof.outcomeWithId.outcome ++
        (encodePath proof.outcomeRootProof ++
          (encodeHeader proof.blockHeaderLite ++ encodePath proof.blockProof)))))

section Paths

omit [Hashing]

@[simp] theorem length_encodePath (path : MerklePath) : (encodePath path).length = 4 + 33 * path.length := by
  have items : (path.flatMap encodePathItem).length = 33 * path.length := by
    induction path with
    | nil => rfl
    | cons item path ih =>
      simp only [List.flatMap_cons, List.length_append, ih, encodePathItem, List.Vector.toList_length,
        List.length_cons, List.length_nil]
      omega
  simp [encodePath, items]

theorem decodeMerklePathItem_parses : decodeMerklePathItem.Parses encodePathItem := by
  intro data item rest success
  simp only [decodeMerklePathItem, Decoder.bind_eq_ok] at success
  obtain ⟨hash, _, e₁, direction, _, e₂, success⟩ := success
  split at success
  · obtain ⟨rfl, rfl⟩ := Decoder.pure_eq_ok.mp success
    rw [read_parses 32 _ _ _ e₁, decodeU8_parses _ _ _ e₂]
    simp [encodePathItem]
  · cases success

theorem decodeMerklePath_parses : decodeMerklePath.Parses encodePath := by
  intro data path rest success
  simp only [decodeMerklePath, Decoder.bind_eq_ok] at success
  obtain ⟨length, _, counted, listed⟩ := success
  obtain ⟨rfl, consumed⟩ := Decoder.times_eq_ok decodeMerklePathItem_parses listed
  rw [decodeU32_parses _ _ _ counted, consumed]
  simp [encodePath]

/-- A path that can be encoded and is accepted. -/
def PathFits (path : MerklePath) : Prop :=
  path.length < 2 ^ 32 ∧ ∀ item ∈ path, item.direction < 2

theorem decodeMerklePathItem_reads {item : MerklePathItem} (direction : item.direction < 2) :
    decodeMerklePathItem.Reads (encodePathItem item) item := by
  refine (read_reads item.hash).bind fun rest => ?_
  refine Decoder.bind_eq_ok.mpr ⟨item.direction, rest, decodeU8_reads item.direction rest, ?_⟩
  rw [if_pos direction]
  rfl

theorem decodeMerklePath_reads {path : MerklePath} (fits : PathFits path) :
    decodeMerklePath.Reads (encodePath path) path :=
  (decodeU32_reads fits.1).bind
    (Decoder.Reads.times path fun item member => decodeMerklePathItem_reads (fits.2 item member))

end Paths

theorem decodeExecutionOutcome_parses : decodeExecutionOutcome.Parses encodeOutcome := by
  intro data outcome rest success
  simp only [decodeExecutionOutcome, Decoder.bind_eq_ok, Decoder.pure_eq_ok] at success
  obtain ⟨length, _, counted, logs, start, listed, _, _, here, body, left, decoded, hash, _, hashed,
    rfl, rfl⟩ := success
  cases here
  have consumed := decodePartialOutcome_parses _ _ _ decoded
  obtain ⟨_, rfl⟩ := (sha256Since_eq_ok consumed).mp hashed
  obtain ⟨rfl, logged⟩ := Decoder.times_eq_ok decodeBytes_parses listed
  rw [decodeU32_parses _ _ _ counted, logged, consumed]
  simp [encodeOutcome]

theorem decodeBlockHeaderLight_parses : decodeBlockHeaderLight.Parses encodeHeader := by
  intro data header rest success
  simp only [decodeBlockHeaderLight, Decoder.bind_eq_ok, Decoder.pure_eq_ok] at success
  obtain ⟨prev, _, e₁, innerRest, _, e₂, lite, _, decoded, rfl, rfl⟩ := success
  rw [read_parses 32 _ _ _ e₁, read_parses 32 _ _ _ e₂,
    (NearDecoder.decodeBlockHeaderInnerLite_eq_ok decoded).1]
  simp [encodeHeader]

/-- An accepted proof has no other encoding than this. -/
theorem decodeFullOutcomeProof_parses : decodeFullOutcomeProof.Parses encodeFullProof := by
  intro data proof rest success
  simp only [decodeFullOutcomeProof, decodeExecutionOutcomeWithIdAndProof,
    decodeExecutionOutcomeWithId, Decoder.bind_eq_ok, Decoder.pure_eq_ok] at success
  obtain ⟨_, _, ⟨path, _, e₁, blockHash, _, e₂, _, _, ⟨id, _, e₃, outcome, _, e₄, rfl, rfl⟩, rfl, rfl⟩,
    rootPath, _, e₅, header, _, e₆, blockPath, _, e₇, rfl, rfl⟩ := success
  rw [decodeMerklePath_parses _ _ _ e₁, read_parses 32 _ _ _ e₂, read_parses 32 _ _ _ e₃,
    decodeExecutionOutcome_parses _ _ _ e₄, decodeMerklePath_parses _ _ _ e₅,
    decodeBlockHeaderLight_parses _ _ _ e₆, decodeMerklePath_parses _ _ _ e₇]
  simp [encodeFullProof]

/-- The parts of the proof can be read, and its hashes follow from the rest. -/
structure Readable (proof : FullOutcomeProof) : Prop where
  path : PathFits proof.outcomeProof.proof
  count : proof.outcomeProof.outcomeWithId.outcome.logs.length < 2 ^ 32
  logs : ∀ log ∈ proof.outcomeProof.outcomeWithId.outcome.logs, log.length < 2 ^ 32
  body : decodePartialOutcome.Reads
    (encodePartial proof.outcomeProof.outcomeWithId.outcome.toPartialOutcome)
    proof.outcomeProof.outcomeWithId.outcome.toPartialOutcome
  hashes : proof.outcomeProof.outcomeWithId.outcome.merkelizationHashes =
    sha256 (encodePartial proof.outcomeProof.outcomeWithId.outcome.toPartialOutcome) ::
      proof.outcomeProof.outcomeWithId.outcome.logs.map sha256
  hash : proof.outcomeProof.outcomeWithId.hash = sha256 (outcomeString
    proof.outcomeProof.outcomeWithId.id proof.outcomeProof.outcomeWithId.outcome.merkelizationHashes)
  rootPath : PathFits proof.outcomeRootProof
  lite : proof.blockHeaderLite.innerLite.hash =
    sha256 (NearDecoder.encodeInnerLite proof.blockHeaderLite.innerLite)
  header : proof.blockHeaderLite.hash = hashPair (hashPair proof.blockHeaderLite.innerLite.hash
    proof.blockHeaderLite.innerRestHash) proof.blockHeaderLite.prevBlockHash
  blockPath : PathFits proof.blockProof

theorem decodeExecutionOutcome_reads {outcome : ExecutionOutcome}
    (count : outcome.logs.length < 2 ^ 32) (logs : ∀ log ∈ outcome.logs, log.length < 2 ^ 32)
    (body : decodePartialOutcome.Reads (encodePartial outcome.toPartialOutcome) outcome.toPartialOutcome)
    (hashes : outcome.merkelizationHashes =
      sha256 (encodePartial outcome.toPartialOutcome) :: outcome.logs.map sha256) :
    decodeExecutionOutcome.Reads (encodeOutcome outcome) outcome := by
  obtain ⟨partialOutcome, entries, _⟩ := outcome
  dsimp only at hashes
  subst hashes
  exact (decodeU32_reads count).bind <|
    (Decoder.Reads.times entries fun log member => decodeBytes_reads (logs log member)).bind <|
      sha256Since_reads body fun outcome hash =>
        (⟨outcome, entries, hash :: entries.map sha256⟩ : ExecutionOutcome)

theorem decodeBlockHeaderLight_reads {header : BlockHeaderLight}
    (lite : header.innerLite.hash = sha256 (NearDecoder.encodeInnerLite header.innerLite))
    (hash : header.hash =
      hashPair (hashPair header.innerLite.hash header.innerRestHash) header.prevBlockHash) :
    decodeBlockHeaderLight.Reads (encodeHeader header) header := by
  obtain ⟨prevBlockHash, innerRestHash, innerLite, _⟩ := header
  dsimp only at hash
  subst hash
  exact (read_reads prevBlockHash).bind <| (read_reads innerRestHash).bind <|
    (NearDecoder.decodeBlockHeaderInnerLite_reads lite).map _

theorem decodeExecutionOutcomeWithId_reads {outcome : ExecutionOutcomeWithId}
    (read : decodeExecutionOutcome.Reads (encodeOutcome outcome.outcome) outcome.outcome)
    (hash : outcome.hash = sha256 (outcomeString outcome.id outcome.outcome.merkelizationHashes)) :
    decodeExecutionOutcomeWithId.Reads (outcome.id.toList ++ encodeOutcome outcome.outcome) outcome := by
  obtain ⟨id, executed, _⟩ := outcome
  dsimp only at hash
  subst hash
  exact (read_reads id).bind (read.map _)

/-- What can be encoded is read back. -/
theorem Readable.reads {proof : FullOutcomeProof} (readable : Readable proof) :
    decodeFullOutcomeProof.Reads (encodeFullProof proof) proof := by
  have outcome := decodeExecutionOutcomeWithId_reads (decodeExecutionOutcome_reads readable.count
    readable.logs readable.body readable.hashes) readable.hash
  have first : decodeExecutionOutcomeWithIdAndProof.Reads (encodePath proof.outcomeProof.proof ++
      (proof.outcomeProof.blockHash.toList ++ (proof.outcomeProof.outcomeWithId.id.toList ++
        encodeOutcome proof.outcomeProof.outcomeWithId.outcome))) proof.outcomeProof :=
    (decodeMerklePath_reads readable.path).bind <|
      (read_reads proof.outcomeProof.blockHash).bind (outcome.map _)
  have whole : decodeFullOutcomeProof.Reads _ proof :=
    first.bind <| (decodeMerklePath_reads readable.rootPath).bind <|
      (decodeBlockHeaderLight_reads readable.lite readable.header).bind <|
        (decodeMerklePath_reads readable.blockPath).map _
  simpa only [encodeFullProof, List.append_assoc] using whole

end ProofDecoder

end RainbowBridge.Solidity
