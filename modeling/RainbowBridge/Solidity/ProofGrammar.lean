import RainbowBridge.Solidity.BlockGrammar
import RainbowBridge.Solidity.ProofDecoder

/-! The Borsh form of an outcome proof: `decodeFullOutcomeProof` accepts it and
nothing else, and the ranges of memory that it hashes are those of the fields. -/

namespace RainbowBridge.Solidity.ProofGrammar

open Lib Borsh ProofDecoder
open BlockGrammar (InnerLite decodeU32_lt innerLite_reads innerLite_light)
open Near.Borsh (serializeVec)

variable [Hashing]

/-- The hashes of a path, each with its direction: whether it stands on the right. -/
abbrev Path := List (Bytes32 × Bool)

def itemBytes (item : Bytes32 × Bool) : Bytes := item.1.toList ++ [if item.2 then 1 else 0]

def decodedItem (item : Bytes32 × Bool) : MerklePathItem := ⟨item.1, if item.2 then 1 else 0⟩

/-- `Failure` is written without what failed. -/
inductive Status where
  | unknown
  | failure
  | successValue (value : Bytes)
  | successReceiptId (id : Bytes32)

namespace Status

def bytes : Status → Bytes
  | unknown => [0]
  | failure => [1]
  | successValue value => 2 :: encodeBytes value
  | successReceiptId id => 3 :: id.toList

def decoded : Status → ExecutionStatus
  | unknown => { noStatus 0 with unknown := true }
  | failure => { noStatus 1 with failed := true }
  | successValue value => { noStatus 2 with successValue := value }
  | successReceiptId id => { noStatus 3 with successReceiptId := id }

def Fits : Status → Prop
  | successValue value => value.length < 2 ^ 32
  | _ => True

end Status

/-- An outcome without its logs. -/
structure Body where
  receiptIds : List Bytes32
  gasBurnt : Uint64
  tokensBurnt : Uint128
  executorId : Bytes
  status : Status

namespace Body

def bytes (body : Body) : Bytes :=
  serializeVec List.Vector.toList body.receiptIds ++ (leBytes 8 body.gasBurnt.toNat ++
    (leBytes 16 body.tokensBurnt.toNat ++ (encodeBytes body.executorId ++ body.status.bytes)))

def decoded (body : Body) : PartialOutcome :=
  ⟨body.receiptIds, body.gasBurnt, body.tokensBurnt, body.executorId, body.status.decoded⟩

structure Fits (body : Body) : Prop where
  receiptIds : body.receiptIds.length < 2 ^ 32
  executorId : body.executorId.length < 2 ^ 32
  status : body.status.Fits

end Body

structure WireProof where
  proof : Path
  blockHash : Bytes32
  id : Bytes32
  logs : List Bytes
  body : Body
  outcomeRootProof : Path
  prevBlockHash : Bytes32
  innerRestHash : Bytes32
  innerLite : InnerLite
  blockProof : Path

namespace WireProof

variable (wire : WireProof)

def bytes : Bytes :=
  serializeVec itemBytes wire.proof ++ (wire.blockHash.toList ++ (wire.id.toList ++
    (serializeVec encodeBytes wire.logs ++ (wire.body.bytes ++ (serializeVec itemBytes wire.outcomeRootProof ++
      (wire.prevBlockHash.toList ++ (wire.innerRestHash.toList ++ (wire.innerLite.bytes ++
        serializeVec itemBytes wire.blockProof))))))))

/-- Every list and string has a length of four bytes. -/
structure Fits : Prop where
  proof : wire.proof.length < 2 ^ 32
  logs : wire.logs.length < 2 ^ 32
  log : ∀ log ∈ wire.logs, log.length < 2 ^ 32
  body : wire.body.Fits
  outcomeRootProof : wire.outcomeRootProof.length < 2 ^ 32
  blockProof : wire.blockProof.length < 2 ^ 32

/-- The string that is hashed for the outcome. -/
def outcomeString : Bytes :=
  leBytes 4 (2 + wire.logs.length) ++ wire.id.toList ++ (sha256 wire.body.bytes).toList ++
    wire.logs.flatMap fun log => (sha256 log).toList

def headerHash : Bytes32 :=
  sha256 ((sha256 ((sha256 wire.innerLite.bytes).toList ++ wire.innerRestHash.toList)).toList ++
    wire.prevBlockHash.toList)

def decodedOutcome : ExecutionOutcome :=
  { wire.body.decoded with
    logs := wire.logs
    merkelizationHashes := sha256 wire.body.bytes :: wire.logs.map sha256 }

/-- The proof that the encoding determines. -/
def decoded : FullOutcomeProof where
  outcomeProof := ⟨wire.proof.map decodedItem, wire.blockHash, wire.id, wire.decodedOutcome, sha256 wire.outcomeString⟩
  outcomeRootProof := wire.outcomeRootProof.map decodedItem
  blockHeaderLite := ⟨wire.prevBlockHash, wire.innerRestHash, wire.innerLite.decoded, wire.headerHash⟩
  blockProof := wire.blockProof.map decodedItem

end WireProof

/-! What the decoder reads. -/

section Read

omit [Hashing]

theorem decodeMerklePathItem_reads (item : Bytes32 × Bool) :
    decodeMerklePathItem.Reads (itemBytes item) (decodedItem item) := by
  have direction : (decodedItem item).direction < 2 := by
    obtain ⟨hash, right⟩ := item
    cases right
    · exact (by decide : (0 : UInt8) < 2)
    · exact (by decide : (1 : UInt8) < 2)
  exact ProofDecoder.decodeMerklePathItem_reads direction

theorem decodeMerklePath_reads {path : Path} (few : path.length < 2 ^ 32) :
    decodeMerklePath.Reads (serializeVec itemBytes path) (path.map decodedItem) :=
  (decodeU32_reads few).bind (Decoder.Reads.times_map path fun item _ => decodeMerklePathItem_reads item)

theorem decodeExecutionStatus_reads {status : Status} (fits : status.Fits) :
    decodeExecutionStatus.Reads status.bytes status.decoded := by
  cases status with
  | unknown => exact (decodeU8_reads 0).bind (.pure _)
  | failure => exact (decodeU8_reads 1).bind (.pure _)
  | successValue value => exact successValue_reads fits
  | successReceiptId id => exact successReceiptId_reads id

theorem decodePartialOutcome_reads {body : Body} (fits : body.Fits) :
    decodePartialOutcome.Reads body.bytes body.decoded := by
  rw [Body.bytes, serializeVec, List.append_assoc]
  exact (decodeU32_reads fits.receiptIds).bind <|
    (Decoder.Reads.times body.receiptIds fun id _ => read_reads id).bind <|
    (decodeU64_reads body.gasBurnt).bind <| (decodeU128_reads body.tokensBurnt).bind <|
    (decodeBytes_reads fits.executorId).bind <| (decodeExecutionStatus_reads fits.status).map _

end Read

theorem decodeExecutionOutcome_reads {wire : WireProof} (fits : wire.Fits) :
    decodeExecutionOutcome.Reads (serializeVec encodeBytes wire.logs ++ wire.body.bytes) wire.decodedOutcome := by
  rw [serializeVec, List.append_assoc]
  exact (decodeU32_reads fits.logs).bind <|
    (Decoder.Reads.times wire.logs fun log member => decodeBytes_reads (fits.log log member)).bind <|
    sha256Since_reads (decodePartialOutcome_reads fits.body) fun outcome hash =>
      (⟨outcome, wire.logs, hash :: wire.logs.map sha256⟩ : ExecutionOutcome)

theorem outcomeString_eq (wire : WireProof) :
    ProofDecoder.outcomeString wire.id wire.decodedOutcome.merkelizationHashes = wire.outcomeString := by
  simp only [ProofDecoder.outcomeString, WireProof.outcomeString, WireProof.decodedOutcome, List.length_cons,
    List.length_map, List.flatMap_cons, List.flatMap_map, List.append_assoc]
  congr 2
  omega

theorem decodeExecutionOutcomeWithId_reads {wire : WireProof} (fits : wire.Fits) :
    decodeExecutionOutcomeWithId.Reads
      (wire.id.toList ++ (serializeVec encodeBytes wire.logs ++ wire.body.bytes))
      ⟨wire.id, wire.decodedOutcome, sha256 wire.outcomeString⟩ := by
  have outcome := (decodeExecutionOutcome_reads fits).map fun outcome =>
    (⟨wire.id, outcome, sha256 (ProofDecoder.outcomeString wire.id outcome.merkelizationHashes)⟩ :
      ExecutionOutcomeWithId)
  rw [outcomeString_eq] at outcome
  exact (read_reads wire.id).bind outcome

theorem decodeFullOutcomeProof_reads {wire : WireProof} (fits : wire.Fits) :
    decodeFullOutcomeProof.Reads wire.bytes wire.decoded := by
  have outcomeProof : decodeExecutionOutcomeWithIdAndProof.Reads
      (serializeVec itemBytes wire.proof ++ (wire.blockHash.toList ++
        (wire.id.toList ++ (serializeVec encodeBytes wire.logs ++ wire.body.bytes))))
      wire.decoded.outcomeProof :=
    (decodeMerklePath_reads fits.proof).bind <| (read_reads wire.blockHash).bind <|
      (decodeExecutionOutcomeWithId_reads fits).map _
  have header : decodeBlockHeaderLight.Reads
      (wire.prevBlockHash.toList ++ (wire.innerRestHash.toList ++ wire.innerLite.bytes))
      wire.decoded.blockHeaderLite :=
    (read_reads wire.prevBlockHash).bind <| (read_reads wire.innerRestHash).bind <|
      (innerLite_reads wire.innerLite).map _
  have whole : decodeFullOutcomeProof.Reads _ wire.decoded :=
    outcomeProof.bind <| (decodeMerklePath_reads fits.outcomeRootProof).bind <| header.bind <|
      (decodeMerklePath_reads fits.blockProof).map _
  simpa only [WireProof.bytes, List.append_assoc] using whole

/-! What the decoder accepts. -/

section Accepted

omit [Hashing]

theorem decodeBytes_lt {data rest body : Bytes} (success : decodeBytes data = .ok (body, rest)) :
    body.length < 2 ^ 32 := by
  simp only [decodeBytes, Decoder.bind_eq_ok, Decoder.pure_eq_ok] at success
  obtain ⟨length, _, counted, raw, _, _, rfl, _⟩ := success
  rw [List.Vector.toList_length]
  exact decodeU32_lt counted

theorem decodeMerklePathItem_direction {data rest : Bytes} {item : MerklePathItem}
    (success : decodeMerklePathItem data = .ok (item, rest)) : item.direction = 0 ∨ item.direction = 1 := by
  simp only [decodeMerklePathItem, Decoder.bind_eq_ok] at success
  obtain ⟨hash, _, _, direction, _, _, success⟩ := success
  split at success
  case isTrue small =>
    obtain ⟨rfl, -⟩ := Decoder.pure_eq_ok.mp success
    have bound : direction.toNat ≤ 1 := Nat.lt_succ_iff.mp small
    obtain zero | one := Nat.le_one_iff_eq_zero_or_eq_one.mp bound
    · exact .inl (UInt8.toNat_inj.mp zero)
    · exact .inr (UInt8.toNat_inj.mp one)
  case isFalse => cases success

theorem decodeMerklePath_path {data rest : Bytes} {path : MerklePath}
    (success : decodeMerklePath data = .ok (path, rest)) :
    ∃ items : Path, items.length < 2 ^ 32 ∧ data = serializeVec itemBytes items ++ rest ∧
      path = items.map decodedItem := by
  simp only [decodeMerklePath, Decoder.bind_eq_ok] at success
  obtain ⟨length, _, counted, listed⟩ := success
  have each (data : Bytes) (item : MerklePathItem) (rest : Bytes)
      (decoded : decodeMerklePathItem data = .ok (item, rest)) :
      ∃ pair, True ∧ data = itemBytes pair ++ rest ∧ item = decodedItem pair := by
    have consumed := decodeMerklePathItem_parses _ _ _ decoded
    have binary := decodeMerklePathItem_direction decoded
    obtain ⟨hash, direction⟩ := item
    obtain rfl | rfl := binary
    · exact ⟨(hash, false), trivial, consumed, rfl⟩
    · exact ⟨(hash, true), trivial, consumed, rfl⟩
  obtain ⟨items, rfl, -, consumed, rfl⟩ := Decoder.times_items each listed
  refine ⟨items, decodeU32_lt counted, ?_, rfl⟩
  rw [decodeU32_parses _ _ _ counted, consumed, serializeVec, List.append_assoc]

theorem decodeExecutionStatus_status {data rest : Bytes} {status : ExecutionStatus}
    (success : decodeExecutionStatus data = .ok (status, rest)) :
    ∃ wire : Status, wire.Fits ∧ data = wire.bytes ++ rest ∧ status = wire.decoded := by
  simp only [decodeExecutionStatus, Decoder.bind_eq_ok] at success
  obtain ⟨enumIndex, middle, tagged, success⟩ := success
  rw [decodeU8_parses _ _ _ tagged]
  split at success
  case isTrue tag =>
    obtain ⟨rfl, rfl⟩ := Decoder.pure_eq_ok.mp success
    exact ⟨.unknown, trivial, by rw [tag]; rfl, by rw [tag]; rfl⟩
  case isFalse =>
    split at success
    case isTrue tag =>
      obtain ⟨rfl, rfl⟩ := Decoder.pure_eq_ok.mp success
      exact ⟨.failure, trivial, by rw [tag]; rfl, by rw [tag]; rfl⟩
    case isFalse =>
      split at success
      case isTrue tag =>
        obtain ⟨value, left, decoded, returned⟩ := Decoder.bind_eq_ok.mp success
        obtain ⟨rfl, rfl⟩ := Decoder.pure_eq_ok.mp returned
        refine ⟨.successValue value, decodeBytes_lt decoded, ?_, by rw [tag]; rfl⟩
        rw [decodeBytes_parses _ _ _ decoded, tag]
        rfl
      case isFalse =>
        split at success
        case isTrue tag =>
          obtain ⟨id, left, decoded, returned⟩ := Decoder.bind_eq_ok.mp success
          obtain ⟨rfl, rfl⟩ := Decoder.pure_eq_ok.mp returned
          refine ⟨.successReceiptId id, trivial, ?_, by rw [tag]; rfl⟩
          rw [read_parses 32 _ _ _ decoded, tag]
          rfl
        case isFalse => cases success

theorem decodePartialOutcome_body {data rest : Bytes} {outcome : PartialOutcome}
    (success : decodePartialOutcome data = .ok (outcome, rest)) :
    ∃ body : Body, body.Fits ∧ data = body.bytes ++ rest ∧ outcome = body.decoded := by
  simp only [decodePartialOutcome, Decoder.bind_eq_ok, Decoder.pure_eq_ok] at success
  obtain ⟨length, _, counted, receiptIds, _, listed, gasBurnt, _, e₃, tokensBurnt, _, e₄,
    executorId, _, e₅, status, _, e₆, rfl, rfl⟩ := success
  obtain ⟨rfl, consumed⟩ := Decoder.times_eq_ok (read_parses 32) listed
  obtain ⟨wire, fits, statusConsumed, rfl⟩ := decodeExecutionStatus_status e₆
  refine ⟨⟨receiptIds, gasBurnt, tokensBurnt, executorId, wire⟩,
    ⟨decodeU32_lt counted, decodeBytes_lt e₅, fits⟩, ?_, rfl⟩
  rw [decodeU32_parses _ _ _ counted, consumed, decodeU64_parses _ _ _ e₃,
    decodeU128_parses _ _ _ e₄, decodeBytes_parses _ _ _ e₅, statusConsumed]
  simp [Body.bytes, serializeVec]

end Accepted

/-- A proof is read from one of the format. -/
theorem decodeFullOutcomeProof_wire {data rest : Bytes} {proof : FullOutcomeProof}
    (success : decodeFullOutcomeProof data = .ok (proof, rest)) :
    ∃ wire : WireProof, wire.Fits ∧ data = wire.bytes ++ rest ∧ proof = wire.decoded := by
  simp only [decodeFullOutcomeProof, decodeExecutionOutcomeWithIdAndProof, decodeExecutionOutcomeWithId,
    decodeExecutionOutcome, decodeBlockHeaderLight, Decoder.bind_eq_ok, Decoder.pure_eq_ok] at success
  obtain ⟨_, _, ⟨path, _, e₁, blockHash, _, e₂, _, _, ⟨outcomeId, _, e₃, _, _, ⟨count, _, counted, logs, start, listed,
    _, _, here, outcome, left, decoded, hash, _, hashed, rfl, rfl⟩, rfl, rfl⟩, rfl, rfl⟩, rootPath, _, e₅, _, _,
    ⟨prev, _, e₆, innerRest, _, e₇, lite, _, e₈, rfl, rfl⟩, blockPath, _, e₉, rfl, rfl⟩ := success
  cases here
  obtain ⟨proofPath, proofFew, proofConsumed, rfl⟩ := decodeMerklePath_path e₁
  have eachLog (data body rest : Bytes) (decoded : decodeBytes data = .ok (body, rest)) :
      ∃ log : Bytes, log.length < 2 ^ 32 ∧ data = encodeBytes log ++ rest ∧ body = id log :=
    ⟨body, decodeBytes_lt decoded, decodeBytes_parses _ _ _ decoded, rfl⟩
  obtain ⟨entries, rfl, short, logged, rfl⟩ := Decoder.times_items eachLog listed
  obtain ⟨body, bodyFits, bodyConsumed, rfl⟩ := decodePartialOutcome_body decoded
  obtain ⟨rfl, rfl⟩ := (sha256Since_eq_ok bodyConsumed).mp hashed
  obtain ⟨rootItems, rootFew, rootConsumed, rfl⟩ := decodeMerklePath_path e₅
  obtain ⟨blockItems, blockFew, blockConsumed, rfl⟩ := decodeMerklePath_path e₉
  obtain ⟨light, lightConsumed, rfl⟩ := innerLite_light e₈
  refine ⟨⟨proofPath, blockHash, outcomeId, entries, body, rootItems, prev, innerRest, light, blockItems⟩,
    ⟨proofFew, decodeU32_lt counted, short, bodyFits, rootFew, blockFew⟩, ?_, ?_⟩
  · rw [proofConsumed, read_parses 32 _ _ _ e₂, read_parses 32 _ _ _ e₃, decodeU32_parses _ _ _ counted, logged,
      bodyConsumed, rootConsumed, read_parses 32 _ _ _ e₆, read_parses 32 _ _ _ e₇, lightConsumed, blockConsumed]
    simp [WireProof.bytes, serializeVec]
  · simp only [WireProof.decoded, ← outcomeString_eq, List.map_id]
    rfl

/-- The parser accepts exactly the encodings of outcome proofs, each for the proof that
it determines. -/
theorem decodeFullOutcomeProof_exact (data : Bytes) :
    match decodeAll decodeFullOutcomeProof data with
    | .ok proof => ∃ wire : WireProof, wire.Fits ∧ data = wire.bytes ∧ proof = wire.decoded ∧
        encodeFullProof proof = data ∧
        proof.outcomeProof.outcomeWithId.hash =
          sha256 (leBytes 4 (2 + wire.logs.length) ++ wire.id.toList ++ (sha256 wire.body.bytes).toList ++
            wire.logs.flatMap fun log => (sha256 log).toList) ∧
        proof.blockHeaderLite.hash =
          sha256 ((sha256 ((sha256 wire.innerLite.bytes).toList ++ wire.innerRestHash.toList)).toList ++
            wire.prevBlockHash.toList)
    | .error _ => ¬ ∃ wire : WireProof, wire.Fits ∧ data = wire.bytes := by
  split
  case h_1 proof accepted =>
    have success := decodeAll_eq_ok.mp accepted
    obtain ⟨wire, fits, consumed, rfl⟩ := decodeFullOutcomeProof_wire success
    have encoded := decodeFullOutcomeProof_parses _ _ _ success
    rw [List.append_nil] at consumed encoded
    exact ⟨wire, fits, consumed, rfl, encoded.symm, rfl, rfl⟩
  case h_2 error refused =>
    intro ⟨wire, fits, same⟩
    have reads := decodeFullOutcomeProof_reads fits []
    rw [List.append_nil, ← same] at reads
    rw [decodeAll_eq_ok.mpr reads] at refused
    cases refused

end RainbowBridge.Solidity.ProofGrammar
