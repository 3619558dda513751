import RainbowBridge.Solidity.ProofDecoder
import RainbowBridge.Utils.Buffers

/-! `borshify-proof.js`: the Borsh form of an outcome proof that the RPC returns. The
encoder writes the number of logs but not the logs, and an empty path in place
of `outcome_root_proof`. -/

namespace RainbowBridge.Utils

open Lib Solidity ProofDecoder

variable [Packages]

inductive Direction where
  | left
  | right
  deriving DecidableEq

structure PathItem where
  hash : String
  direction : Direction

/-- `status` of an outcome; `other` has neither of the two keys. -/
inductive Status where
  | successValue (value : String)
  | successReceiptId (id : String)
  | other

structure Outcome where
  logs : List String
  receiptIds : List String
  gasBurnt : Nat
  tokensBurnt : Nat
  executorId : String
  status : Status

structure OutcomeProof where
  proof : List PathItem
  blockHash : String
  id : String
  outcome : Outcome

structure HeaderLite where
  prevBlockHash : String
  innerRestHash : String
  innerLite : InnerLite

/-- The proof as a JavaScript object. -/
structure FullProof where
  outcomeProof : OutcomeProof
  outcomeRootProof : List PathItem
  blockHeaderLite : HeaderLite
  blockProof : List PathItem

def statusToBuffer : Status → Option Bytes
  | .successValue value =>
    let data := base64 value
    concat [some [2], toBuffer data.length 4, some data]
  | .successReceiptId id => concat [some [3], bs58 id]
  -- `throw new Error('status not supported')`
  | .other => none

def directionByte : Direction → UInt8
  | .right => 1
  | .left => 0

def itemToBuffer (item : PathItem) : Option Bytes :=
  concat [bs58 item.hash, some [directionByte item.direction]]

def borshifyOutcomeProof (proof : FullProof) : Option Bytes :=
  let outcome := proof.outcomeProof.outcome
  concat [
    toBuffer proof.outcomeProof.proof.length 4,
    concat (proof.outcomeProof.proof.map itemToBuffer),
    bs58 proof.outcomeProof.blockHash,
    bs58 proof.outcomeProof.id,
    concat ([
      toBuffer outcome.logs.length 4,
      toBuffer outcome.receiptIds.length 4,
      concat (outcome.receiptIds.map bs58),
      toBuffer outcome.gasBurnt 8,
      toBuffer outcome.tokensBurnt 16,
      toBuffer (codeUnits outcome.executorId) 4,
      some (utf8 outcome.executorId),
      statusToBuffer outcome.status,
      toBuffer 0 4,
      bs58 proof.blockHeaderLite.prevBlockHash,
      bs58 proof.blockHeaderLite.innerRestHash] ++
      (proof.blockHeaderLite.innerLite.parts ++ [
        toBuffer proof.blockProof.length 4,
        concat (proof.blockProof.map itemToBuffer)]))]

/-- A list that an array can hold, with hashes of 32 bytes. -/
def PathWellFormed (path : List PathItem) : Prop :=
  path.length < 2 ^ 32 ∧ ∀ item ∈ path, IsHash item.hash

def Status.WellFormed : Status → Prop
  | .successValue value => (base64 value).length < 2 ^ 32
  | .successReceiptId id => IsHash id
  | .other => False

/-- The proofs that the encoder is meant for. Lists and texts have fewer than
`2 ^ 32` entries, as in JavaScript. -/
structure FullProof.WellFormed (proof : FullProof) : Prop where
  path : PathWellFormed proof.outcomeProof.proof
  blockHash : IsHash proof.outcomeProof.blockHash
  id : IsHash proof.outcomeProof.id
  logs : proof.outcomeProof.outcome.logs.length < 2 ^ 32
  count : proof.outcomeProof.outcome.receiptIds.length < 2 ^ 32
  receiptIds : ∀ id ∈ proof.outcomeProof.outcome.receiptIds, IsHash id
  gasBurnt : proof.outcomeProof.outcome.gasBurnt < 2 ^ 64
  tokensBurnt : proof.outcomeProof.outcome.tokensBurnt < 2 ^ 128
  executorId : Ascii proof.outcomeProof.outcome.executorId
  executorLength : codeUnits proof.outcomeProof.outcome.executorId < 2 ^ 32
  status : proof.outcomeProof.outcome.status.WellFormed
  rootPath : PathWellFormed proof.outcomeRootProof
  prevBlockHash : IsHash proof.blockHeaderLite.prevBlockHash
  innerRestHash : IsHash proof.blockHeaderLite.innerRestHash
  innerLite : proof.blockHeaderLite.innerLite.WellFormed
  blockPath : PathWellFormed proof.blockProof

/-- The decoded path has the hashes and directions of the object's. -/
def SamePath (path : List PathItem) (decoded : MerklePath) : Prop :=
  List.Forall₂ (fun item other => bs58 item.hash = some other.hash.toList ∧
    other.direction = directionByte item.direction) path decoded

def Status.Same (status : Status) (decoded : ExecutionStatus) : Prop :=
  match status with
  | .successValue value => decoded = { noStatus 2 with successValue := base64 value }
  | .successReceiptId id => ∃ word : Bytes32, bs58 id = some word.toList ∧
    decoded = { noStatus 3 with successReceiptId := word }
  | .other => False

structure Outcome.Same (outcome : Outcome) (decoded : PartialOutcome) : Prop where
  receiptIds : List.Forall₂ (fun id (word : Bytes32) => bs58 id = some word.toList) outcome.receiptIds
    decoded.receiptIds
  gasBurnt : decoded.gasBurnt.toNat = outcome.gasBurnt
  tokensBurnt : decoded.tokensBurnt.toNat = outcome.tokensBurnt
  executorId : decoded.executorId = utf8 outcome.executorId
  status : outcome.status.Same decoded.status

/-- The decoded proof says what the object says. -/
structure FullProof.Same (proof : FullProof) (decoded : FullOutcomeProof) : Prop where
  path : SamePath proof.outcomeProof.proof decoded.outcomeProof.proof
  id : bs58 proof.outcomeProof.id = some decoded.outcomeProof.outcomeWithId.id.toList
  logs : decoded.outcomeProof.outcomeWithId.outcome.logs = proof.outcomeProof.outcome.logs.map utf8
  outcome : proof.outcomeProof.outcome.Same
    decoded.outcomeProof.outcomeWithId.outcome.toPartialOutcome
  rootPath : SamePath proof.outcomeRootProof decoded.outcomeRootProof
  prevBlockHash : bs58 proof.blockHeaderLite.prevBlockHash =
    some decoded.blockHeaderLite.prevBlockHash.toList
  innerRestHash : bs58 proof.blockHeaderLite.innerRestHash =
    some decoded.blockHeaderLite.innerRestHash.toList
  innerLite : proof.blockHeaderLite.innerLite.Same decoded.blockHeaderLite.innerLite
  blockPath : SamePath proof.blockProof decoded.blockProof

/-- The encoder returns, the contract accepts, and nothing is lost. -/
def Survives [Hashing] (proof : FullProof) : Prop :=
  ∃ data decoded, borshifyOutcomeProof proof = some data ∧
    Borsh.decodeAll decodeFullOutcomeProof data = .ok decoded ∧ proof.Same decoded

/-- What the encoder writes for a proof that decodes to this, if it decodes. -/
def sentBytes (blockHash : Bytes32) (decoded : FullOutcomeProof) : Bytes :=
  let outcome := decoded.outcomeProof.outcomeWithId.outcome
  encodePath decoded.outcomeProof.proof ++ (blockHash.toList ++
    (decoded.outcomeProof.outcomeWithId.id.toList ++ (leBytes 4 outcome.logs.length ++
      (encodePartial outcome.toPartialOutcome ++ (encodePath [] ++
        (encodeHeader decoded.blockHeaderLite ++ encodePath decoded.blockProof))))))

theorem SamePath.concat_eq {path : List PathItem} {decoded : MerklePath} (same : SamePath path decoded) :
    concat (path.map itemToBuffer) = some (decoded.flatMap encodePathItem) := by
  refine concat_map (same.imp fun item other hashed => ?_)
  rw [itemToBuffer, hashed.1, hashed.2.symm]
  simp [encodePathItem]

theorem SamePath.fits {path : List PathItem} {decoded : MerklePath} (same : SamePath path decoded)
    (short : path.length < 2 ^ 32) : PathFits decoded := by
  refine ⟨same.length_eq ▸ short, forall_right_of_forall₂ (same.imp fun item other hashed => ?_)⟩
  rw [hashed.2]
  cases item.direction <;> decide

theorem PathWellFormed.exists_same {path : List PathItem} (wellFormed : PathWellFormed path) :
    ∃ decoded, SamePath path decoded :=
  exists_forall₂ fun item member => by
    obtain ⟨word, hash⟩ := wellFormed.2 item member
    exact ⟨⟨word, directionByte item.direction⟩, hash, rfl⟩

theorem Status.Same.buffer_eq {status : Status} {decoded : ExecutionStatus} (same : status.Same decoded)
    (wellFormed : status.WellFormed) : statusToBuffer status = some (encodeStatus decoded) := by
  cases status with
  | successValue value =>
    have fits : (base64 value).length < 256 ^ 4 := wellFormed
    rw [show decoded = _ from same]
    simp [statusToBuffer, toBuffer_eq fits, encodeStatus, noStatus, Borsh.encodeBytes]
  | successReceiptId id =>
    obtain ⟨word, hash, rfl⟩ := same
    simp [statusToBuffer, hash, encodeStatus, noStatus]
  | other => exact same.elim

theorem Status.WellFormed.exists_same {status : Status} (wellFormed : status.WellFormed) :
    ∃ decoded, status.Same decoded ∧ decodeExecutionStatus.Reads (encodeStatus decoded) decoded := by
  cases status with
  | successValue value => exact ⟨_, rfl, successValue_reads wellFormed⟩
  | successReceiptId id =>
    obtain ⟨word, hash⟩ := wellFormed
    exact ⟨_, ⟨word, hash, rfl⟩, successReceiptId_reads word⟩
  | other => exact wellFormed.elim

omit [Packages] in
theorem logs_nil {logs : List Bytes} (empty : logs.flatMap Borsh.encodeBytes = []) : logs = [] := by
  cases logs with
  | nil => rfl
  | cons log rest => simp [Borsh.encodeBytes, leBytes] at empty

omit [Packages] in
/-- The contract expects the logs and the items of the root path, too. -/
theorem length_encodeFullProof (blockHash : Bytes32) (decoded : FullOutcomeProof) :
    (encodeFullProof decoded).length = (sentBytes blockHash decoded).length +
      (decoded.outcomeProof.outcomeWithId.outcome.logs.flatMap Borsh.encodeBytes).length +
        33 * decoded.outcomeRootProof.length := by
  simp only [encodeFullProof, sentBytes, encodeOutcome, List.length_append, length_encodePath,
    List.length_nil, List.Vector.toList_length]
  omega

section Encoding

variable {proof : FullProof} (wellFormed : proof.WellFormed)

include wellFormed

/-- Whatever says the same as the object, this is what the encoder writes. -/
theorem borshifyOutcomeProof_eq {decoded : FullOutcomeProof} (same : proof.Same decoded)
    {blockHash : Bytes32} (hash : bs58 proof.outcomeProof.blockHash = some blockHash.toList) :
    borshifyOutcomeProof proof = some (sentBytes blockHash decoded) := by
  have paths : toBuffer proof.outcomeProof.proof.length 4 = some (leBytes 4 decoded.outcomeProof.proof.length) := by
    rw [toBuffer_eq wellFormed.path.1, same.path.length_eq]
  have blocks : toBuffer proof.blockProof.length 4 = some (leBytes 4 decoded.blockProof.length) := by
    rw [toBuffer_eq wellFormed.blockPath.1, same.blockPath.length_eq]
  have logs : toBuffer proof.outcomeProof.outcome.logs.length 4 =
      some (leBytes 4 decoded.outcomeProof.outcomeWithId.outcome.logs.length) := by
    rw [toBuffer_eq wellFormed.logs, same.logs, List.length_map]
  have ids : toBuffer proof.outcomeProof.outcome.receiptIds.length 4 =
      some (leBytes 4 decoded.outcomeProof.outcomeWithId.outcome.receiptIds.length) := by
    rw [toBuffer_eq wellFormed.count, same.outcome.receiptIds.length_eq]
  have gas : toBuffer proof.outcomeProof.outcome.gasBurnt 8 =
      some (leBytes 8 decoded.outcomeProof.outcomeWithId.outcome.gasBurnt.toNat) := by
    rw [toBuffer_eq wellFormed.gasBurnt, same.outcome.gasBurnt]
  have tokens : toBuffer proof.outcomeProof.outcome.tokensBurnt 16 =
      some (leBytes 16 decoded.outcomeProof.outcomeWithId.outcome.tokensBurnt.toNat) := by
    rw [toBuffer_eq wellFormed.tokensBurnt, same.outcome.tokensBurnt]
  have executor : toBuffer (codeUnits proof.outcomeProof.outcome.executorId) 4 =
      some (leBytes 4 decoded.outcomeProof.outcomeWithId.outcome.executorId.length) := by
    rw [toBuffer_eq wellFormed.executorLength, codeUnits_ascii wellFormed.executorId,
      same.outcome.executorId]
  have zero : toBuffer 0 4 = some (encodePath []) := rfl
  simp only [borshifyOutcomeProof, paths, same.path.concat_eq, hash, same.id, logs, ids,
    concat_map same.outcome.receiptIds, gas, tokens, executor, ← same.outcome.executorId,
    same.outcome.status.buffer_eq wellFormed.status, zero, same.prevBlockHash, same.innerRestHash,
    List.cons_append, List.nil_append, InnerLite.concat_parts same.innerLite, blocks,
    same.blockPath.concat_eq, concat_cons_some, concat_nil, Option.map_some]
  simp [sentBytes, encodePath, encodePartial, encodeHeader, Borsh.encodeBytes]

theorem exists_sameOutcome : ∃ decoded, proof.outcomeProof.outcome.Same decoded ∧
    decodePartialOutcome.Reads (encodePartial decoded) decoded := by
  obtain ⟨receiptIds, ids⟩ := exists_forall₂ wellFormed.receiptIds
  obtain ⟨status, same, read⟩ := wellFormed.status.exists_same
  have executor := codeUnits_ascii wellFormed.executorId ▸ wellFormed.executorLength
  refine ⟨⟨receiptIds, BitVec.ofNat 64 proof.outcomeProof.outcome.gasBurnt,
    BitVec.ofNat 128 proof.outcomeProof.outcome.tokensBurnt, utf8 proof.outcomeProof.outcome.executorId,
    status⟩, ⟨ids, ?_, ?_, rfl, same⟩, decodePartialOutcome_reads ?_ executor read⟩
  · exact Nat.mod_eq_of_lt wellFormed.gasBurnt
  · exact Nat.mod_eq_of_lt wellFormed.tokensBurnt
  · exact ids.length_eq ▸ wellFormed.count

variable [Hashing]

/-- A well-formed object has a form that the contract could read. -/
theorem exists_sameProof
    (short : ∀ log ∈ proof.outcomeProof.outcome.logs, (utf8 log).length < 2 ^ 32) :
    ∃ decoded, proof.Same decoded ∧ Readable decoded ∧
      bs58 proof.outcomeProof.blockHash = some decoded.outcomeProof.blockHash.toList := by
  obtain ⟨path, samePath⟩ := wellFormed.path.exists_same
  obtain ⟨blockHash, hash⟩ := wellFormed.blockHash
  obtain ⟨id, sameId⟩ := wellFormed.id
  obtain ⟨body, sameOutcome, read⟩ := exists_sameOutcome wellFormed
  obtain ⟨rootPath, sameRoot⟩ := wellFormed.rootPath.exists_same
  obtain ⟨prevBlockHash, samePrev⟩ := wellFormed.prevBlockHash
  obtain ⟨innerRestHash, sameRest⟩ := wellFormed.innerRestHash
  obtain ⟨lite, sameLite, liteHash⟩ := wellFormed.innerLite.exists_same
  obtain ⟨blockPath, sameBlock⟩ := wellFormed.blockPath.exists_same
  let logs := proof.outcomeProof.outcome.logs.map utf8
  let outcome : ExecutionOutcome := ⟨body, logs, sha256 (encodePartial body) :: logs.map sha256⟩
  refine ⟨⟨⟨path, blockHash, ⟨id, outcome, sha256 (outcomeString id outcome.merkelizationHashes)⟩⟩,
    rootPath, ⟨prevBlockHash, innerRestHash, lite, hashPair (hashPair lite.hash innerRestHash)
      prevBlockHash⟩, blockPath⟩,
    ⟨samePath, sameId, rfl, sameOutcome, sameRoot, samePrev, sameRest, sameLite, sameBlock⟩,
    ⟨samePath.fits wellFormed.path.1, ?_, ?_, read, rfl, rfl, sameRoot.fits wellFormed.rootPath.1,
      liteHash, rfl, sameBlock.fits wellFormed.blockPath.1⟩, hash⟩
  · simpa [outcome, logs] using wellFormed.logs
  · intro log member
    obtain ⟨text, inside, rfl⟩ := List.mem_map.mp member
    exact short text inside

/-- Outcome proofs survive the trip exactly when there is nothing that the encoder
leaves out. -/
theorem outcome_proof_survives :
    Survives proof ↔ proof.outcomeProof.outcome.logs = [] ∧ proof.outcomeRootProof = [] := by
  constructor
  · intro survives
    obtain ⟨data, decoded, encoded, accepted, same⟩ := survives
    obtain ⟨blockHash, hash⟩ := wellFormed.blockHash
    have sent := (borshifyOutcomeProof_eq wellFormed same hash).symm.trans encoded
    have read := decodeFullOutcomeProof_parses _ _ _ (Borsh.decodeAll_eq_ok.mp accepted)
    rw [List.append_nil, ← Option.some.inj sent] at read
    -- As many bytes were written as were read.
    have lengths := (congrArg List.length read).trans (length_encodeFullProof blockHash decoded)
    have logs : decoded.outcomeProof.outcomeWithId.outcome.logs.flatMap Borsh.encodeBytes = [] :=
      List.eq_nil_of_length_eq_zero (by omega)
    have root : decoded.outcomeRootProof = [] := List.eq_nil_of_length_eq_zero (by omega)
    have rootPath := same.rootPath
    rw [same.logs] at logs
    rw [root] at rootPath
    exact ⟨List.map_eq_nil_iff.mp (logs_nil logs), List.forall₂_nil_right_iff.mp rootPath⟩
  · intro nothing
    obtain ⟨logs, root⟩ := nothing
    obtain ⟨decoded, same, readable, hash⟩ := exists_sameProof wellFormed (by simp [logs])
    refine ⟨sentBytes decoded.outcomeProof.blockHash decoded, decoded,
      borshifyOutcomeProof_eq wellFormed same hash, Borsh.decodeAll_eq_ok.mpr ?_, same⟩
    have noLogs : decoded.outcomeProof.outcomeWithId.outcome.logs = [] := by simp [same.logs, logs]
    have noRoot : decoded.outcomeRootProof = [] := by
      have rootPath := same.rootPath
      rw [root] at rootPath
      exact List.forall₂_nil_left_iff.mp rootPath
    have whole : sentBytes decoded.outcomeProof.blockHash decoded = encodeFullProof decoded := by
      simp [sentBytes, encodeFullProof, encodeOutcome, noLogs, noRoot]
    rw [whole]
    simpa using readable.reads []

end Encoding

def sampleProof (path : List PathItem) (receiptIds logs : List String) : FullProof where
  outcomeProof := ⟨path, zeroHash, zeroHash, ⟨logs, receiptIds, 255, 0, sampleId, .successValue ""⟩⟩
  outcomeRootProof := []
  blockHeaderLite := ⟨zeroHash, zeroHash, sampleLite⟩
  blockProof := [⟨zeroHash, .right⟩]

omit [Packages] in
theorem sampleProof_wellFormed {path : List PathItem} {receiptIds logs : List String}
    (given : @PathWellFormed samplePackages path) (count : receiptIds.length < 2 ^ 32)
    (ids : ∀ id ∈ receiptIds, @IsHash samplePackages id) (few : logs.length < 2 ^ 32) :
    @FullProof.WellFormed samplePackages (sampleProof path receiptIds logs) := by
  let := samplePackages
  have none : PathWellFormed [] := ⟨by decide, fun _ none => (nomatch none)⟩
  have block : PathWellFormed [⟨zeroHash, .right⟩] := by
    refine ⟨by decide, fun item member => ?_⟩
    rw [List.mem_singleton.mp member]
    exact zeroHash_isHash
  have value : (base64 "").length < 2 ^ 32 := by decide
  exact {
    path := given
    blockHash := zeroHash_isHash
    id := zeroHash_isHash
    logs := few
    count := count
    receiptIds := ids
    gasBurnt := by simp [sampleProof]
    tokensBurnt := by simp [sampleProof]
    executorId := sampleId_ascii
    executorLength := sampleId_short
    status := value
    rootPath := none
    prevBlockHash := zeroHash_isHash
    innerRestHash := zeroHash_isHash
    innerLite := sampleLite_wellFormed
    blockPath := block }

omit [Packages] in
/-- A path to both sides and two receipts. -/
theorem outcome_proof_survives_sample :
    letI := samplePackages
    letI := Hashing.platform
    let proof := sampleProof [⟨zeroHash, .left⟩, ⟨oneHash, .right⟩] [zeroHash, oneHash] []
    proof.WellFormed ∧ Survives proof := by
  let := samplePackages
  let := Hashing.platform
  have path : PathWellFormed [⟨zeroHash, .left⟩, ⟨oneHash, .right⟩] := by
    refine ⟨by simp, fun item member => ?_⟩
    rcases List.mem_pair.mp member with rfl | rfl
    · exact zeroHash_isHash
    · exact oneHash_isHash
  have ids : ∀ id ∈ [zeroHash, oneHash], IsHash id := by
    intro id member
    rcases List.mem_pair.mp member with rfl | rfl
    · exact zeroHash_isHash
    · exact oneHash_isHash
  have wellFormed := sampleProof_wellFormed path (by simp) ids (show ([] : List String).length < 2 ^ 32 by simp)
  exact ⟨wellFormed, (outcome_proof_survives wellFormed).mpr ⟨rfl, rfl⟩⟩

omit [Packages] in
/-- With one log, what comes after its number is read as the log. -/
theorem logs_dropped :
    letI := samplePackages
    letI := Hashing.platform
    let proof := sampleProof [] [] ["Transfer"]
    proof.WellFormed ∧ ¬ Survives proof := by
  let := samplePackages
  let := Hashing.platform
  refine ⟨sampleProof_wellFormed ⟨by simp, fun _ none => (nomatch none)⟩ (by simp)
    (fun _ none => (nomatch none)) (by simp), fun survives => ?_⟩
  obtain ⟨data, decoded, encoded, accepted, _⟩ := survives
  have refused : (borshifyOutcomeProof (sampleProof [] [] ["Transfer"])).map (fun data =>
      (Borsh.decodeAll decodeFullOutcomeProof data).isOk) = some false := by
    decide +kernel
  exact not_accepted refused encoded accepted

end RainbowBridge.Utils
