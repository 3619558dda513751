import RainbowBridge.Near.Borsh
import RainbowBridge.Solidity.NearDecoder

/-! The Borsh form of a light client block, and what `decodeLightClientBlock` accepts.
The decoder checks every tag but two: the version of a validator stake and the byte
that says whether the validator is chunk-only. -/

namespace RainbowBridge.Solidity.BlockGrammar

open Lib Borsh NearDecoder
open Near.Borsh (serializeOption serializeVec)

variable [Hashing]

/-- The light part of a header, without the hash that is computed from it. -/
structure InnerLite where
  height : Uint64
  epochId : Bytes32
  nextEpochId : Bytes32
  prevStateRoot : Bytes32
  outcomeRoot : Bytes32
  timestamp : Uint64
  nextBpHash : Bytes32
  blockMerkleRoot : Bytes32

def InnerLite.bytes (lite : InnerLite) : Bytes :=
  leBytes 8 lite.height.toNat ++ (lite.epochId.toList ++ (lite.nextEpochId.toList ++
    (lite.prevStateRoot.toList ++ (lite.outcomeRoot.toList ++ (leBytes 8 lite.timestamp.toNat ++
      (lite.nextBpHash.toList ++ lite.blockMerkleRoot.toList))))))

def InnerLite.decoded (lite : InnerLite) : BlockHeaderInnerLite :=
  ⟨lite.height, lite.epochId, lite.nextEpochId, lite.prevStateRoot, lite.outcomeRoot, lite.timestamp,
    lite.nextBpHash, lite.blockMerkleRoot, sha256 lite.bytes⟩

/-- A validator stake in one of its two versions. -/
inductive ValidatorStake where
  | v1 (accountId : Bytes) (publicKey : Bytes32) (stake : Uint128)
  | v2 (accountId : Bytes) (publicKey : Bytes32) (stake : Uint128) (isChunkOnly : Bool)

/-- A validator stake as the decoder reads it: the version is any byte, and so is the
byte that follows the second version. -/
structure ValidatorRecord extends ProducerRecord where
  chunkOnly : UInt8

namespace ValidatorRecord

def bytes (record : ValidatorRecord) : Bytes :=
  record.toProducerRecord.bytes ++ if record.version = validatorV2 then [record.chunkOnly] else []

def producer (record : ValidatorRecord) : BlockProducer :=
  record.toProducerRecord.producer (record.version = validatorV2 ∧ record.chunkOnly ≠ 0)

omit [Hashing] in
theorem producer_second (record : ValidatorRecord) (second : record.version = validatorV2) :
    record.producer = record.toProducerRecord.producer (record.chunkOnly != 0) := by
  have flag : decide (record.version = validatorV2 ∧ record.chunkOnly ≠ 0) = (record.chunkOnly != 0) := by
    rw [Bool.eq_iff_iff, decide_eq_true_iff, bne_iff_ne]
    exact and_iff_right second
  rw [producer, flag]

omit [Hashing] in
theorem producer_first (record : ValidatorRecord) (first : record.version ≠ validatorV2) :
    record.producer = record.toProducerRecord.producer false := by
  simp [producer, first]

/-- The version is one of the two, and the flag is a Borsh `bool`. -/
def Known (record : ValidatorRecord) : Prop :=
  record.version = 0 ∨ record.version = 1 ∧ record.chunkOnly ≤ 1

end ValidatorRecord

namespace ValidatorStake

def accountId : ValidatorStake → Bytes
  | v1 accountId _ _ => accountId
  | v2 accountId _ _ _ => accountId

def bytes : ValidatorStake → Bytes
  | v1 accountId publicKey stake =>
    [0] ++ (encodeBytes accountId ++ ([0] ++ publicKey.toList ++ leBytes 16 stake.toNat))
  | v2 accountId publicKey stake isChunkOnly =>
    [1] ++ (encodeBytes accountId ++ ([0] ++ publicKey.toList ++ leBytes 16 stake.toNat)) ++
      [if isChunkOnly then 1 else 0]

def producer : ValidatorStake → BlockProducer
  | v1 _ publicKey stake => ⟨publicKey, stake, false⟩
  | v2 _ publicKey stake isChunkOnly => ⟨publicKey, stake, isChunkOnly⟩

/-- The stake as the decoder reads it. -/
def record : ValidatorStake → ValidatorRecord
  | v1 accountId publicKey stake => ⟨⟨0, accountId, publicKey, stake⟩, 0⟩
  | v2 accountId publicKey stake isChunkOnly => ⟨⟨1, accountId, publicKey, stake⟩, if isChunkOnly then 1 else 0⟩

end ValidatorStake

/-- A light client block over some kind of validator stakes. -/
structure WireBlock (Validator : Type) where
  prevBlockHash : Bytes32
  nextBlockInnerHash : Bytes32
  innerLite : InnerLite
  innerRestHash : Bytes32
  nextBps : Option (List Validator)
  approvalsAfterNext : List (Option Signature)

/-- What a kind of validator stakes is written as and read as. -/
structure Format (Validator : Type) where
  accountId : Validator → Bytes
  bytes : Validator → Bytes
  producer : Validator → BlockProducer

def stakes : Format ValidatorStake := ⟨ValidatorStake.accountId, ValidatorStake.bytes, ValidatorStake.producer⟩

def records : Format ValidatorRecord :=
  ⟨fun record => record.accountId, ValidatorRecord.bytes, ValidatorRecord.producer⟩

def optionalSignature : Option Signature → OptionalSignature
  | none => ⟨false, ⟨zeroBytes 32, zeroBytes 32⟩⟩
  | some signature => ⟨true, signature⟩

namespace WireBlock

variable {Validator : Type} (format : Format Validator) (wire : WireBlock Validator)

/-- Every list and string has a length of four bytes. -/
structure Fits : Prop where
  validators : ∀ validators ∈ wire.nextBps, validators.length < 2 ^ 32
  accountIds : ∀ validators ∈ wire.nextBps, ∀ validator ∈ validators,
    (format.accountId validator).length < 2 ^ 32
  approvals : wire.approvalsAfterNext.length < 2 ^ 32

def bytes : Bytes :=
  wire.prevBlockHash.toList ++ (wire.nextBlockInnerHash.toList ++ (wire.innerLite.bytes ++
    (wire.innerRestHash.toList ++ (serializeOption (serializeVec format.bytes) wire.nextBps ++
      serializeVec (serializeOption encodeSignature) wire.approvalsAfterNext))))

def decodedBps : OptionalBlockProducers :=
  match wire.nextBps with
  | none => ⟨false, [], zeroBytes 32⟩
  | some validators => ⟨true, validators.map format.producer, sha256 (serializeVec format.bytes validators)⟩

/-- The block that the encoding determines. -/
def decoded : LightClientBlock :=
  let hash := hashPair (hashPair (sha256 wire.innerLite.bytes) wire.innerRestHash) wire.prevBlockHash
  ⟨wire.prevBlockHash, wire.nextBlockInnerHash, wire.innerLite.decoded, wire.innerRestHash,
    wire.decodedBps format, wire.approvalsAfterNext.map optionalSignature, hash,
    hashPair wire.nextBlockInnerHash hash⟩

end WireBlock

/-! What the decoder reads. -/

section Read

omit [Hashing]

theorem decodeBlockProducer_reads {record : ValidatorRecord} (fits : record.accountId.length < 2 ^ 32) :
    decodeBlockProducer.Reads record.bytes record.producer := by
  intro rest
  rw [ValidatorRecord.bytes, List.append_assoc, decodeBlockProducer_run fits]
  by_cases second : record.version = validatorV2
  · simp only [if_pos second]
    have flag := ((decodeU8_reads record.chunkOnly).map
      fun flag => record.toProducerRecord.producer (flag != 0)) rest
    rw [record.producer_second second]
    exact flag
  · simp only [if_neg second]
    rw [record.producer_first second]
    rfl

theorem decodeOptionalSignature_reads (signature : Option Signature) :
    decodeOptionalSignature.Reads (serializeOption encodeSignature signature) (optionalSignature signature) := by
  cases signature with
  | none => exact (decodeBool_reads false).bind (.pure _)
  | some signature => exact (decodeBool_reads true).bind ((decodeSignature_reads signature).map _)

end Read

theorem decodeOptionalBlockProducers_reads {wire : WireBlock ValidatorRecord} (fits : wire.Fits records) :
    decodeOptionalBlockProducers.Reads (serializeOption (serializeVec ValidatorRecord.bytes) wire.nextBps)
      (wire.decodedBps records) := by
  unfold WireBlock.decodedBps
  cases present : wire.nextBps with
  | none => exact (decodeBool_reads false).bind (.pure _)
  | some validators =>
    have few := fits.validators validators (by simp [present])
    have each := fits.accountIds validators (by simp [present])
    have list : decodeBlockProducers.Reads (serializeVec ValidatorRecord.bytes validators)
        (validators.map ValidatorRecord.producer) :=
      (decodeU32_reads few).bind <| Decoder.Reads.times_map validators fun record member =>
        decodeBlockProducer_reads (each record member)
    exact (decodeBool_reads true).bind <| sha256Since_reads list fun blockProducers hash =>
      (⟨true, blockProducers, hash⟩ : OptionalBlockProducers)

theorem innerLite_reads (lite : InnerLite) : decodeBlockHeaderInnerLite.Reads lite.bytes lite.decoded :=
  @decodeBlockHeaderInnerLite_reads _ lite.decoded rfl

theorem decodeLightClientBlock_reads {wire : WireBlock ValidatorRecord} (fits : wire.Fits records) :
    decodeLightClientBlock.Reads (wire.bytes records) (wire.decoded records) :=
  (read_reads wire.prevBlockHash).bind <| (read_reads wire.nextBlockInnerHash).bind <|
    (innerLite_reads wire.innerLite).bind <|
    (read_reads wire.innerRestHash).bind <| (decodeOptionalBlockProducers_reads fits).bind <|
    (decodeU32_reads fits.approvals).bind <|
    (Decoder.Reads.times_map wire.approvalsAfterNext fun signature _ =>
      decodeOptionalSignature_reads signature).map _

/-! What the decoder accepts. -/

section Accepted

omit [Hashing]

theorem decodeU32_lt {data rest : Bytes} {value : Nat} (success : decodeU32 data = .ok (value, rest)) :
    value < 2 ^ 32 := by
  simp only [decodeU32, Decoder.bind_eq_ok, Decoder.pure_eq_ok] at success
  obtain ⟨raw, _, _, rfl, _⟩ := success
  exact leNat_read_lt raw

theorem decodePublicKey_parses : decodePublicKey.Parses fun key => [0] ++ key.toList := by
  intro data key rest success
  simp only [decodePublicKey, Decoder.bind_eq_ok] at success
  obtain ⟨tag, _, tagged, success⟩ := success
  split at success
  case isTrue zero =>
    rw [decodeU8_parses _ _ _ tagged, read_parses 32 _ _ _ success, zero]
    simp
  case isFalse => cases success

/-- A producer is read from a record. -/
theorem decodeBlockProducer_record {data rest : Bytes} {producer : BlockProducer}
    (success : decodeBlockProducer data = .ok (producer, rest)) :
    ∃ record : ValidatorRecord, record.accountId.length < 2 ^ 32 ∧ data = record.bytes ++ rest ∧
      producer = record.producer := by
  simp only [decodeBlockProducer, skipBytes, Decoder.bind_eq_ok, Decoder.pure_eq_ok] at success
  obtain ⟨version, _, e₁, _, _, ⟨length, _, e₂, id, _, e₃, _, rfl⟩, publicKey, _, e₄, stake, left, e₅,
    success⟩ := success
  have consumed : data = (⟨version, id.toList, publicKey, stake⟩ : ProducerRecord).bytes ++ left := by
    rw [decodeU8_parses _ _ _ e₁, decodeU32_parses _ _ _ e₂, read_parses length _ _ _ e₃,
      decodePublicKey_parses _ _ _ e₄, decodeU128_parses _ _ _ e₅]
    simp [ProducerRecord.bytes, encodeBytes]
  have small : id.toList.length < 2 ^ 32 := by
    rw [List.Vector.toList_length]
    exact decodeU32_lt e₂
  split at success
  case isTrue second =>
    obtain ⟨flag, _, e₆, returned⟩ := Decoder.bind_eq_ok.mp success
    obtain ⟨rfl, rfl⟩ := Decoder.pure_eq_ok.mp returned
    refine ⟨⟨⟨version, id.toList, publicKey, stake⟩, flag⟩, small, ?_, ?_⟩
    · rw [consumed, decodeU8_parses _ _ _ e₆]
      simp [ValidatorRecord.bytes, second]
    · exact (ValidatorRecord.producer_second ⟨⟨version, id.toList, publicKey, stake⟩, flag⟩ second).symm
  case isFalse first =>
    obtain ⟨rfl, rfl⟩ := Decoder.pure_eq_ok.mp success
    refine ⟨⟨⟨version, id.toList, publicKey, stake⟩, 0⟩, small, ?_, ?_⟩
    · rw [consumed]
      simp [ValidatorRecord.bytes, first]
    · exact (ValidatorRecord.producer_first ⟨⟨version, id.toList, publicKey, stake⟩, 0⟩ first).symm

theorem decodeOptionalSignature_signature {data rest : Bytes} {approval : OptionalSignature}
    (success : decodeOptionalSignature data = .ok (approval, rest)) :
    ∃ signature, data = serializeOption encodeSignature signature ++ rest ∧ approval = optionalSignature signature := by
  simp only [decodeOptionalSignature, Decoder.bind_eq_ok] at success
  obtain ⟨present, _, tagged, success⟩ := success
  rw [decodeBool_parses _ _ _ tagged]
  cases present with
  | false =>
    obtain ⟨rfl, rfl⟩ := Decoder.pure_eq_ok.mp success
    exact ⟨none, rfl, rfl⟩
  | true =>
    simp only [if_true, Decoder.bind_eq_ok, Decoder.pure_eq_ok] at success
    obtain ⟨signature, _, decoded, rfl, rfl⟩ := success
    refine ⟨some signature, ?_, rfl⟩
    rw [decodeSignature_parses _ _ _ decoded]
    rfl

end Accepted

theorem decodeOptionalBlockProducers_list {data rest : Bytes} {nextBps : OptionalBlockProducers}
    (success : decodeOptionalBlockProducers data = .ok (nextBps, rest)) :
    ∃ validators : Option (List ValidatorRecord),
      (∀ list ∈ validators, list.length < 2 ^ 32 ∧ ∀ record ∈ list, record.accountId.length < 2 ^ 32) ∧
        data = serializeOption (serializeVec ValidatorRecord.bytes) validators ++ rest ∧
          ∀ wire : WireBlock ValidatorRecord, wire.nextBps = validators → nextBps = wire.decodedBps records := by
  simp only [decodeOptionalBlockProducers, Decoder.bind_eq_ok] at success
  obtain ⟨present, start, tagged, success⟩ := success
  rw [decodeBool_parses _ _ _ tagged]
  cases present with
  | false =>
    obtain ⟨rfl, rfl⟩ := Decoder.pure_eq_ok.mp success
    refine ⟨none, by simp, rfl, ?_⟩
    intro wire same
    rw [WireBlock.decodedBps, same]
  | true =>
    simp only [if_true, Decoder.bind_eq_ok, Decoder.pure_eq_ok, decodeBlockProducers] at success
    obtain ⟨_, _, here, producers, left, ⟨count, middle, counted, listed⟩, hash, _, hashed, rfl, rfl⟩ := success
    cases here
    obtain ⟨list, rfl, good, items, rfl⟩ := Decoder.times_items
      (fun _ _ _ decoded => decodeBlockProducer_record decoded) listed
    have consumed : start = serializeVec ValidatorRecord.bytes list ++ left := by
      rw [decodeU32_parses _ _ _ counted, items]
      simp [serializeVec]
    obtain ⟨rfl, rfl⟩ := (sha256Since_eq_ok consumed).mp hashed
    refine ⟨some list, ?_, ?_, ?_⟩
    · intro _ same
      cases same
      exact ⟨decodeU32_lt counted, good⟩
    · rw [consumed]
      rfl
    · intro wire same
      rw [WireBlock.decodedBps, same]
      rfl

theorem innerLite_light {data rest : Bytes} {lite : BlockHeaderInnerLite}
    (success : decodeBlockHeaderInnerLite data = .ok (lite, rest)) :
    ∃ light : InnerLite, data = light.bytes ++ rest ∧ lite = light.decoded := by
  obtain ⟨consumed, hash⟩ := decodeBlockHeaderInnerLite_eq_ok success
  obtain ⟨height, epochId, nextEpochId, prevStateRoot, outcomeRoot, timestamp, nextBpHash, blockMerkleRoot,
    digest⟩ := lite
  let light : InnerLite :=
    ⟨height, epochId, nextEpochId, prevStateRoot, outcomeRoot, timestamp, nextBpHash, blockMerkleRoot⟩
  obtain rfl : digest = sha256 light.bytes := hash
  exact ⟨light, consumed, rfl⟩

/-- A block is read from a block of records. -/
theorem decodeLightClientBlock_wire {data rest : Bytes} {nearBlock : LightClientBlock}
    (success : decodeLightClientBlock data = .ok (nearBlock, rest)) :
    ∃ wire : WireBlock ValidatorRecord, wire.Fits records ∧ data = wire.bytes records ++ rest ∧
      nearBlock = wire.decoded records := by
  simp only [decodeLightClientBlock, Decoder.bind_eq_ok, Decoder.pure_eq_ok] at success
  obtain ⟨prev, _, e₁, next, _, e₂, lite, _, e₃, innerRest, _, e₄, nextBps, _, e₅, count, _, e₆, approvals, left,
    e₇, rfl, rfl⟩ := success
  obtain ⟨light, lightConsumed, rfl⟩ := innerLite_light e₃
  obtain ⟨validators, fits, bpsConsumed, bps⟩ := decodeOptionalBlockProducers_list e₅
  have each (data : Bytes) (approval : OptionalSignature) (rest : Bytes)
      (decoded : decodeOptionalSignature data = .ok (approval, rest)) :
      ∃ signature, True ∧ data = serializeOption encodeSignature signature ++ rest ∧
        approval = optionalSignature signature := by
    obtain ⟨signature, consumed, same⟩ := decodeOptionalSignature_signature decoded
    exact ⟨signature, trivial, consumed, same⟩
  obtain ⟨signatures, rfl, -, signed, rfl⟩ := Decoder.times_items each e₇
  let wire : WireBlock ValidatorRecord := ⟨prev, next, light, innerRest, validators, signatures⟩
  refine ⟨wire, ⟨fun list same => (fits list same).1, fun list same => (fits list same).2, decodeU32_lt e₆⟩,
    ?_, ?_⟩
  · rw [read_parses 32 _ _ _ e₁, read_parses 32 _ _ _ e₂, lightConsumed, read_parses 32 _ _ _ e₄, bpsConsumed,
      decodeU32_parses _ _ _ e₆, signed]
    simp [wire, WireBlock.bytes, serializeVec, records]
  · rw [bps wire rfl]
    rfl

/-! The tags are part of the string: two readings of it have the same. -/

section Tags

omit [Hashing]

instance (record : ValidatorRecord) : Decidable record.Known := by
  unfold ValidatorRecord.Known
  infer_instance

/-- Whether the tags of the next validator stake are known. -/
def decodeKnown : Borsh.Decoder Bool := do
  let version ← decodeU8
  skipBytes
  let _ ← decodePublicKey
  let _ ← decodeU128
  if version = validatorV2 then
    let chunkOnly ← decodeU8
    return chunkOnly ≤ 1
  else return version = 0

theorem decodeKnown_reads {record : ValidatorRecord} (fits : record.accountId.length < 2 ^ 32) :
    decodeKnown.Reads record.bytes (decide record.Known) := by
  intro rest
  rw [decodeKnown, ValidatorRecord.bytes, ProducerRecord.bytes, List.append_assoc, List.append_assoc,
    (decodeU8_reads record.version).run, List.append_assoc, (skipBytes_reads fits).run, List.append_assoc,
    (decodePublicKey_reads _).run, (decodeU128_reads record.stake).run]
  by_cases second : record.version = validatorV2
  · have known : decide record.Known = decide (record.chunkOnly ≤ 1) := by
      simp [ValidatorRecord.Known, second, validatorV2]
    simp only [if_pos second, known]
    exact (decodeU8_reads record.chunkOnly).map (fun chunkOnly => decide (chunkOnly ≤ 1)) rest
  · have known : decide record.Known = decide (record.version = 0) := by
      rw [validatorV2] at second
      simp [ValidatorRecord.Known, second]
    simp only [if_neg second, known]
    rfl

theorem known_of_serializeVec_eq {first second : List ValidatorRecord} {left right : Bytes}
    (fewFirst : first.length < 2 ^ 32) (fewSecond : second.length < 2 ^ 32)
    (fitsFirst : ∀ record ∈ first, record.accountId.length < 2 ^ 32)
    (fitsSecond : ∀ record ∈ second, record.accountId.length < 2 ^ 32)
    (same : serializeVec ValidatorRecord.bytes first ++ left = serializeVec ValidatorRecord.bytes second ++ right)
    (known : ∀ record ∈ second, record.Known) : ∀ record ∈ first, record.Known := by
  let tags : Borsh.Decoder (List Bool) := decodeU32 >>= fun length => Decoder.times length decodeKnown
  have reads {list : List ValidatorRecord} (few : list.length < 2 ^ 32)
      (fits : ∀ record ∈ list, record.accountId.length < 2 ^ 32) :
      tags.Reads (serializeVec ValidatorRecord.bytes list) (list.map fun record => decide record.Known) :=
    (decodeU32_reads few).bind <| Decoder.Reads.times_map list fun record member =>
      decodeKnown_reads (fits record member)
  have other := reads fewSecond fitsSecond right
  rw [← same] at other
  have equal := ((reads fewFirst fitsFirst).unique other).1
  intro record member
  have tag : decide record.Known ∈ second.map fun record => decide record.Known := by
    rw [equal]
    exact List.mem_map_of_mem member
  obtain ⟨twin, inside, agree⟩ := List.mem_map.mp tag
  rw [decide_eq_true (known twin inside)] at agree
  exact of_decide_eq_true agree.symm

end Tags

namespace WireBlock

variable {Validator Other : Type}

def map (f : Validator → Other) (wire : WireBlock Validator) : WireBlock Other :=
  { wire with nextBps := wire.nextBps.map (List.map f) }

/-- Validators that are written and read alike make the same block. -/
theorem map_format {format : Format Validator} {other : Format Other} {f : Validator → Other}
    (wire : WireBlock Validator)
    (agree : ∀ list ∈ wire.nextBps, ∀ validator ∈ list,
      other.accountId (f validator) = format.accountId validator ∧
        other.bytes (f validator) = format.bytes validator ∧
          other.producer (f validator) = format.producer validator) :
    (wire.map f).bytes other = wire.bytes format ∧ (wire.map f).decoded other = wire.decoded format ∧
      ((wire.map f).Fits other ↔ wire.Fits format) := by
  obtain ⟨prev, next, lite, innerRest, nextBps, approvals⟩ := wire
  cases nextBps with
  | none =>
    refine ⟨rfl, rfl, ?_⟩
    constructor
    · exact fun fits => ⟨by simp, by simp, fits.approvals⟩
    · exact fun fits => ⟨by simp [map], by simp [map], fits.approvals⟩
  | some list =>
    have each := agree list rfl
    have encoded : serializeVec other.bytes (list.map f) = serializeVec format.bytes list := by
      have items : (list.map f).flatMap other.bytes = list.flatMap format.bytes := by
        rw [List.flatMap_map]
        exact List.flatMap_congr fun validator member => (each validator member).2.1
      rw [serializeVec, serializeVec, items, List.length_map]
    have producers : (list.map f).map other.producer = list.map format.producer := by
      rw [List.map_map]
      exact List.map_congr_left fun validator member => (each validator member).2.2
    refine ⟨?_, ?_, ?_⟩
    · simp only [bytes, map, Option.map_some, serializeOption, encoded]
    · simp only [decoded, decodedBps, map, Option.map_some, encoded, producers]
    · constructor
      · intro fits
        have few := fits.validators (list.map f) rfl
        have short := fits.accountIds (list.map f) rfl
        refine ⟨?_, ?_, fits.approvals⟩
        · intro _ same
          cases same
          simpa using few
        · intro _ same validator member
          cases same
          rw [← (each validator member).1]
          exact short _ (List.mem_map_of_mem member)
      · intro fits
        refine ⟨?_, ?_, fits.approvals⟩
        · intro _ same
          cases same
          simpa using fits.validators list rfl
        · intro _ same validator member
          cases same
          obtain ⟨original, inside, rfl⟩ := List.mem_map.mp member
          rw [(each original inside).1]
          exact fits.accountIds list rfl original inside

end WireBlock

namespace ValidatorStake

omit [Hashing]

theorem record_agrees (stake : ValidatorStake) :
    stake.record.accountId = stake.accountId ∧ stake.record.bytes = stake.bytes ∧
      stake.record.producer = stake.producer ∧ stake.record.Known := by
  cases stake with
  | v1 accountId publicKey stake =>
    refine ⟨rfl, ?_, rfl, .inl rfl⟩
    exact List.append_nil _
  | v2 accountId publicKey stake isChunkOnly =>
    cases isChunkOnly
    · exact ⟨rfl, rfl, rfl, .inr ⟨rfl, (by decide : (0 : UInt8) ≤ 1)⟩⟩
    · exact ⟨rfl, rfl, rfl, .inr ⟨rfl, (by decide : (1 : UInt8) ≤ 1)⟩⟩

/-- The stake that a record with known tags stands for. -/
def ofRecord (record : ValidatorRecord) : ValidatorStake :=
  if record.version = 0 then v1 record.accountId record.publicKey record.stake
  else v2 record.accountId record.publicKey record.stake (record.chunkOnly ≠ 0)

theorem ofRecord_agrees {record : ValidatorRecord} (known : record.Known) :
    (ofRecord record).accountId = record.accountId ∧ (ofRecord record).bytes = record.bytes ∧
      (ofRecord record).producer = record.producer := by
  obtain ⟨⟨version, accountId, publicKey, stake⟩, chunkOnly⟩ := record
  obtain rfl | ⟨rfl, flag⟩ := known
  · refine ⟨rfl, ?_, rfl⟩
    exact (List.append_nil _).symm
  · have cases : chunkOnly = 0 ∨ chunkOnly = 1 := by
      have bound : chunkOnly.toNat ≤ 1 := flag
      obtain zero | one := Nat.le_one_iff_eq_zero_or_eq_one.mp bound
      · exact .inl (UInt8.toNat_inj.mp zero)
      · exact .inr (UInt8.toNat_inj.mp one)
    obtain rfl | rfl := cases
    · exact ⟨rfl, rfl, rfl⟩
    · exact ⟨rfl, rfl, rfl⟩

end ValidatorStake

/-- The string is read as the format says and by no other reading. -/
def ParsesExactly (data : Bytes) : Prop :=
  match decodeAll decodeLightClientBlock data with
  | .ok nearBlock => ∃ wire : WireBlock ValidatorStake,
    wire.Fits stakes ∧ data = wire.bytes stakes ∧ nearBlock = wire.decoded stakes
  | .error _ => ¬ ∃ wire : WireBlock ValidatorStake, wire.Fits stakes ∧ data = wire.bytes stakes

/-- The string is a block but for the tag of a validator stake: a version above 1, or
a chunk-only byte above 1. -/
def Mistagged (data : Bytes) : Prop :=
  ∃ wire : WireBlock ValidatorRecord, wire.Fits records ∧ data = wire.bytes records ∧
    ∃ list ∈ wire.nextBps, ∃ record ∈ list, ¬ record.Known

theorem stakes_as_records (wire : WireBlock ValidatorStake) :
    (wire.map ValidatorStake.record).bytes records = wire.bytes stakes ∧
      (wire.map ValidatorStake.record).decoded records = wire.decoded stakes ∧
        ((wire.map ValidatorStake.record).Fits records ↔ wire.Fits stakes) := by
  apply wire.map_format
  intro _ _ stake _
  exact ⟨stake.record_agrees.1, stake.record_agrees.2.1, stake.record_agrees.2.2.1⟩

theorem stakes_accepted {wire : WireBlock ValidatorStake} (fits : wire.Fits stakes) :
    decodeAll decodeLightClientBlock (wire.bytes stakes) = .ok (wire.decoded stakes) := by
  obtain ⟨bytes, decoded, same⟩ := stakes_as_records wire
  have reads := decodeLightClientBlock_reads (same.mpr fits) []
  rw [bytes, decoded, List.append_nil] at reads
  exact decodeAll_eq_ok.mpr reads

omit [Hashing] in
/-- The tags of two blocks with one encoding. -/
theorem known_of_bytes_eq {wire other : WireBlock ValidatorRecord} (fits : wire.Fits records)
    (otherFits : other.Fits records) (same : wire.bytes records = other.bytes records)
    (known : ∀ list ∈ other.nextBps, ∀ record ∈ list, record.Known) :
    ∀ list ∈ wire.nextBps, ∀ record ∈ list, record.Known := by
  have length (lite : InnerLite) : lite.bytes.length = 208 := by simp [InnerLite.bytes]
  obtain ⟨-, same⟩ := append_fixed_inj same
  obtain ⟨-, same⟩ := append_fixed_inj same
  obtain ⟨-, same⟩ := List.append_inj same ((length _).trans (length _).symm)
  obtain ⟨-, same⟩ := append_fixed_inj same
  intro list present
  cases absent : other.nextBps with
  | none =>
    rw [Option.mem_def.mp present, absent] at same
    cases same
  | some list' =>
    rw [Option.mem_def.mp present, absent] at same
    have lists := (List.cons.inj same).2
    exact known_of_serializeVec_eq (fits.validators list present) (otherFits.validators list' absent)
      (fits.accountIds list present) (otherFits.accountIds list' absent) lists (known list' absent)

theorem mistagged_accepted {data : Bytes} (mistagged : Mistagged data) :
    ∃ nearBlock, decodeAll decodeLightClientBlock data = .ok nearBlock := by
  obtain ⟨wire, fits, rfl, _⟩ := mistagged
  have reads := decodeLightClientBlock_reads fits []
  rw [List.append_nil] at reads
  exact ⟨_, decodeAll_eq_ok.mpr reads⟩

theorem mistagged_not_stakes {data : Bytes} (mistagged : Mistagged data) :
    ¬ ∃ wire : WireBlock ValidatorStake, wire.Fits stakes ∧ data = wire.bytes stakes := by
  intro ⟨other, otherFits, same⟩
  obtain ⟨wire, fits, rfl, list, present, record, member, unknown⟩ := mistagged
  obtain ⟨bytes, _, alike⟩ := stakes_as_records other
  apply unknown
  refine known_of_bytes_eq fits (alike.mpr otherFits) (same.trans bytes.symm) ?_ list present record member
  intro _ mapped _ inside
  obtain ⟨stakes, _, rfl⟩ := Option.map_eq_some_iff.mp mapped
  obtain ⟨stake, _, rfl⟩ := List.mem_map.mp inside
  exact stake.record_agrees.2.2.2

theorem mistagged_not_exact {data : Bytes} (mistagged : Mistagged data) : ¬ ParsesExactly data := by
  intro exactly
  obtain ⟨nearBlock, accepted⟩ := mistagged_accepted mistagged
  rw [ParsesExactly, accepted] at exactly
  obtain ⟨wire, fits, same, -⟩ := exactly
  exact mistagged_not_stakes mistagged ⟨wire, fits, same⟩

/-- The parser accepts exactly the encodings of light client blocks, on all strings but
the mistagged ones. -/
theorem parsesExactly_iff (data : Bytes) : ParsesExactly data ↔ ¬ Mistagged data := by
  constructor
  · exact fun exactly mistagged => mistagged_not_exact mistagged exactly
  · intro tagged
    unfold ParsesExactly
    split
    case h_1 nearBlock accepted =>
      obtain ⟨wire, fits, consumed, decoded⟩ := decodeLightClientBlock_wire (decodeAll_eq_ok.mp accepted)
      rw [List.append_nil] at consumed
      have known : ∀ list ∈ wire.nextBps, ∀ record ∈ list, record.Known := by
        intro list present record member
        by_contra unknown
        exact tagged ⟨wire, fits, consumed, list, present, record, member, unknown⟩
      have agree : ∀ list ∈ wire.nextBps, ∀ record ∈ list,
          stakes.accountId (ValidatorStake.ofRecord record) = records.accountId record ∧
            stakes.bytes (ValidatorStake.ofRecord record) = records.bytes record ∧
              stakes.producer (ValidatorStake.ofRecord record) = records.producer record :=
        fun list present record member => ValidatorStake.ofRecord_agrees (known list present record member)
      obtain ⟨bytes, same, alike⟩ := wire.map_format agree
      exact ⟨wire.map ValidatorStake.ofRecord, alike.mpr fits, consumed.trans bytes.symm, decoded.trans same.symm⟩
    case h_2 error refused =>
      intro ⟨wire, fits, same⟩
      rw [same, stakes_accepted fits] at refused
      cases refused

/-- A block of zeros with one validator stake, of the version 2. -/
def thirdVersion : WireBlock ValidatorRecord where
  prevBlockHash := zeroBytes 32
  nextBlockInnerHash := zeroBytes 32
  innerLite := ⟨0, zeroBytes 32, zeroBytes 32, zeroBytes 32, zeroBytes 32, 0, zeroBytes 32, zeroBytes 32⟩
  innerRestHash := zeroBytes 32
  nextBps := some [⟨⟨2, [], zeroBytes 32, 0⟩, 0⟩]
  approvalsAfterNext := []

omit [Hashing] in
theorem third_version_accepted :
    letI := Hashing.platform
    (∃ nearBlock, decodeAll decodeLightClientBlock (thirdVersion.bytes records) = .ok nearBlock) ∧
      ¬ ParsesExactly (thirdVersion.bytes records) := by
  let := Hashing.platform
  have mistagged : Mistagged (thirdVersion.bytes records) := by
    refine ⟨thirdVersion, ⟨?_, ?_, by decide⟩, rfl, _, rfl, _, List.mem_singleton_self _, by decide⟩
    · intro _ same
      cases same
      decide
    · intro _ same record member
      cases same
      obtain rfl := List.mem_singleton.mp member
      decide
  exact ⟨mistagged_accepted mistagged, mistagged_not_exact mistagged⟩

end RainbowBridge.Solidity.BlockGrammar
