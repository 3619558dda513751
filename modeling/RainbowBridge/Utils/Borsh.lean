import RainbowBridge.Utils.Buffers

/-! `borsh.js`: the Borsh form of light client blocks and of validator lists that the
RPC returns. A producer of the second version is written with its version, but
without the flag that the contract then reads. -/

namespace RainbowBridge.Utils

open Lib Solidity NearDecoder

variable [Packages]

/-- A member of `next_bps`. -/
structure NextBp where
  /-- `validator_stake_struct_version`, where the object has it. -/
  version : Option String
  accountId : String
  publicKey : String
  stake : Nat

/-- A light client block as a JavaScript object. -/
structure Block where
  prevBlockHash : String
  nextBlockInnerHash : String
  innerLite : InnerLite
  innerRestHash : String
  nextBps : List NextBp
  /-- `null` or a signature. -/
  approvalsAfterNext : List (Option String)

def validatorStakeV1 : UInt8 := 0

def validatorStakeV2 : UInt8 := 1

def curve : String := "ed25519:"

/-- `text.substr(0, 8) === 'ed25519:' ? Buffer.from([0]) : Buffer.from([1])`. -/
def curveByte (text : String) : UInt8 := if text.toList.take 8 = curve.toList then 0 else 1

/-- `bs58.decode(text.substr(8))`. -/
def curveData (text : String) : Option Bytes := bs58 (String.ofList (text.toList.drop 8))

def versionByte (nextBp : NextBp) : UInt8 :=
  if nextBp.version = some "V2" then validatorStakeV2 else validatorStakeV1

/-- What both encoders write for one producer. -/
def producerToBuffer (nextBp : NextBp) : Option Bytes :=
  concat [
    some [versionByte nextBp],
    toBuffer (codeUnits nextBp.accountId) 4,
    some (utf8 nextBp.accountId),
    some [curveByte nextBp.publicKey],
    curveData nextBp.publicKey,
    toBuffer nextBp.stake 16]

def approvalToBuffer : Option String → Option Bytes
  | none => some [0]
  | some signature => concat [some [1], some [curveByte signature], curveData signature]

def borshify (block : Block) : Option Bytes :=
  concat [
    bs58 block.prevBlockHash,
    bs58 block.nextBlockInnerHash,
    concat block.innerLite.parts,
    bs58 block.innerRestHash,
    some [1],
    toBuffer block.nextBps.length 4,
    concat (block.nextBps.map producerToBuffer),
    toBuffer block.approvalsAfterNext.length 4,
    concat (block.approvalsAfterNext.map approvalToBuffer)]

def borshifyInitialValidators (initialValidators : List NextBp) : Option Bytes :=
  concat [
    toBuffer initialValidators.length 4,
    concat (initialValidators.map producerToBuffer)]

/-- An ed25519 text with these bytes in base58. -/
def Carries (text : String) (data : Bytes) : Prop :=
  ∃ rest, text = curve ++ rest ∧ bs58 rest = some data

structure NextBp.WellFormed (nextBp : NextBp) : Prop where
  accountId : Ascii nextBp.accountId
  short : codeUnits nextBp.accountId < 2 ^ 32
  publicKey : ∃ key : Bytes32, Carries nextBp.publicKey key.toList
  stake : nextBp.stake < 2 ^ 128

/-- A list that an array can hold. -/
def ProducersWellFormed (producers : List NextBp) : Prop :=
  producers.length < 2 ^ 32 ∧ ∀ nextBp ∈ producers, nextBp.WellFormed

structure Block.WellFormed (block : Block) : Prop where
  prevBlockHash : IsHash block.prevBlockHash
  nextBlockInnerHash : IsHash block.nextBlockInnerHash
  innerLite : block.innerLite.WellFormed
  innerRestHash : IsHash block.innerRestHash
  nextBps : ProducersWellFormed block.nextBps
  count : block.approvalsAfterNext.length < 2 ^ 32
  approvals : ∀ text, some text ∈ block.approvalsAfterNext →
    ∃ signature : Signature, Carries text (signature.r.toList ++ signature.s.toList)

/-- The same key and stake. -/
def NextBp.Same (nextBp : NextBp) (decoded : BlockProducer) : Prop :=
  Carries nextBp.publicKey decoded.publicKey.toList ∧ decoded.stake.toNat = nextBp.stake

def SameApproval (approval : Option String) (decoded : OptionalSignature) : Prop :=
  match approval with
  | none => decoded.some = false
  | some text => decoded.some = true ∧
    Carries text (decoded.signature.r.toList ++ decoded.signature.s.toList)

structure Block.Same (block : Block) (decoded : LightClientBlock) : Prop where
  prevBlockHash : bs58 block.prevBlockHash = some decoded.prevBlockHash.toList
  nextBlockInnerHash : bs58 block.nextBlockInnerHash = some decoded.nextBlockInnerHash.toList
  innerLite : block.innerLite.Same decoded.innerLite
  innerRestHash : bs58 block.innerRestHash = some decoded.innerRestHash.toList
  given : decoded.nextBps.some = true
  nextBps : List.Forall₂ NextBp.Same block.nextBps decoded.nextBps.blockProducers
  approvals : List.Forall₂ SameApproval block.approvalsAfterNext decoded.approvalsAfterNext

/-- The encoder returns, the contract accepts, and nothing is lost. -/
def BlockSurvives [Hashing] (block : Block) : Prop :=
  ∃ data decoded, borshify block = some data ∧
    Borsh.decodeAll decodeLightClientBlock data = .ok decoded ∧ block.Same decoded

def ValidatorsSurvive (initialValidators : List NextBp) : Prop :=
  ∃ data decoded, borshifyInitialValidators initialValidators = some data ∧
    Borsh.decodeAll decodeBlockProducers data = .ok decoded ∧
    List.Forall₂ NextBp.Same initialValidators decoded

/-- No producer is of the second version. -/
def FirstVersion (producers : List NextBp) : Prop := ∀ nextBp ∈ producers, nextBp.version ≠ some "V2"

/-- Account ids that are not empty and do not start with a NUL, as in NEAR. -/
def NamedAccounts (producers : List NextBp) : Prop :=
  ∀ nextBp ∈ producers, ∃ char rest, nextBp.accountId.toList = char :: rest ∧ char.toNat ≠ 0

/-- The record that stands for a producer on the wire. -/
structure NextBp.Record (nextBp : NextBp) (record : ProducerRecord) : Prop where
  ascii : Ascii nextBp.accountId
  version : record.version = versionByte nextBp
  accountId : record.accountId = utf8 nextBp.accountId
  short : record.accountId.length < 2 ^ 32
  same : nextBp.Same (record.producer false)

theorem Carries.curveByte_eq {text : String} {data : Bytes} (carries : Carries text data) :
    curveByte text = 0 := by
  obtain ⟨rest, rfl, _⟩ := carries
  have eight : curve.toList.length = 8 := by decide +kernel
  rw [curveByte, String.toList_append, List.take_left' eight]
  exact if_pos rfl

theorem Carries.curveData_eq {text : String} {data : Bytes} (carries : Carries text data) :
    curveData text = some data := by
  obtain ⟨rest, rfl, decoded⟩ := carries
  have eight : curve.toList.length = 8 := by decide +kernel
  rw [curveData, String.toList_append, List.drop_left' eight, String.ofList_toList, decoded]

theorem NextBp.WellFormed.exists_record {nextBp : NextBp} (wellFormed : nextBp.WellFormed) :
    ∃ record, nextBp.Record record := by
  obtain ⟨key, carries⟩ := wellFormed.publicKey
  refine ⟨⟨versionByte nextBp, utf8 nextBp.accountId, key, BitVec.ofNat 128 nextBp.stake⟩,
    wellFormed.accountId, rfl, rfl, ?_, carries, Nat.mod_eq_of_lt wellFormed.stake⟩
  exact codeUnits_ascii wellFormed.accountId ▸ wellFormed.short

theorem NextBp.Record.buffer_eq {nextBp : NextBp} {record : ProducerRecord}
    (same : nextBp.Record record) : producerToBuffer nextBp = some record.bytes := by
  have length : toBuffer (codeUnits nextBp.accountId) 4 = some (leBytes 4 record.accountId.length) := by
    rw [codeUnits_ascii same.ascii, ← same.accountId]
    exact toBuffer_eq same.short
  have stake : toBuffer nextBp.stake 16 = some (leBytes 16 record.stake.toNat) := by
    rw [← same.same.2]
    exact toBuffer_eq record.stake.isLt
  rw [producerToBuffer, length, stake, same.same.1.curveByte_eq, same.same.1.curveData_eq, ← same.version,
    ← same.accountId]
  simp [ProducerRecord.bytes, ProducerRecord.producer, Borsh.encodeBytes]

section Producers

variable {producers : List NextBp} {records : List ProducerRecord}

theorem ProducersWellFormed.exists_records (wellFormed : ProducersWellFormed producers) :
    ∃ records, List.Forall₂ NextBp.Record producers records :=
  exists_forall₂ fun nextBp member => (wellFormed.2 nextBp member).exists_record

variable (stand : List.Forall₂ NextBp.Record producers records)

include stand

theorem concat_producers : concat (producers.map producerToBuffer) =
    some (records.flatMap ProducerRecord.bytes) :=
  concat_map (stand.imp fun _ _ same => same.buffer_eq)

theorem count_producers (few : producers.length < 2 ^ 32) :
    toBuffer producers.length 4 = some (leBytes 4 records.length) := by
  rw [toBuffer_eq few, stand.length_eq]

theorem borshifyInitialValidators_eq (few : producers.length < 2 ^ 32) :
    borshifyInitialValidators producers = some (encodeProducers records) := by
  rw [borshifyInitialValidators, count_producers stand few, concat_producers stand]
  simp [encodeProducers]

theorem records_short : ∀ record ∈ records, record.accountId.length < 2 ^ 32 :=
  forall_right_of_forall₂ (stand.imp fun _ _ same => same.short)

theorem same_producers :
    List.Forall₂ NextBp.Same producers (records.map (ProducerRecord.producer · false)) :=
  List.forall₂_map_right_iff.mpr (stand.imp fun _ _ same => same.same)

theorem records_first : FirstVersion producers ↔ ∀ record ∈ records, record.version ≠ validatorV2 := by
  refine forall_iff_of_forall₂ (stand.imp fun nextBp record same => ?_)
  rw [same.version, versionByte]
  by_cases second : nextBp.version = some "V2"
  · simp [second, validatorStakeV2, validatorV2]
  · simp [second, validatorStakeV1, validatorV2]

/-- The account ids start with a byte that is not zero. -/
theorem records_named (named : NamedAccounts producers) :
    ∀ record ∈ records, ∃ byte rest, record.accountId = byte :: rest ∧ byte ≠ 0 := by
  refine (forall_iff_of_forall₂ (stand.imp fun nextBp record same => ?_)).mp named
  rw [same.accountId, utf8_ascii same.ascii]
  have ascii := same.ascii
  unfold Ascii at ascii
  cases characters : nextBp.accountId.toList with
  | nil => simp
  | cons char rest =>
    have small : char.toNat < 128 := ascii char (by simp [characters])
    have byte : UInt8.ofNat char.toNat = 0 ↔ char.toNat = 0 := by
      rw [← UInt8.toNat_inj, UInt8.toNat_ofNat', Nat.mod_eq_of_lt (by omega)]
      rfl
    simp [byte]

end Producers

theorem SameApproval.buffer_eq {approval : Option String} {decoded : OptionalSignature}
    (same : SameApproval approval decoded) :
    approvalToBuffer approval = some (encodeOptionalSignature decoded) := by
  cases approval with
  | none =>
    have absent : decoded.some = false := same
    simp [approvalToBuffer, encodeOptionalSignature, absent]
  | some text =>
    obtain ⟨present, carries⟩ := same
    simp [approvalToBuffer, encodeOptionalSignature, encodeSignature, present, carries.curveByte_eq,
      carries.curveData_eq]

theorem concat_approvals {approvals : List (Option String)} {decoded : List OptionalSignature}
    (same : List.Forall₂ SameApproval approvals decoded) :
    concat (approvals.map approvalToBuffer) = some (decoded.flatMap encodeOptionalSignature) :=
  concat_map (same.imp fun _ _ same => same.buffer_eq)

/-- Approvals that say the same have one encoding. -/
theorem encodeApprovals_unique {approvals : List (Option String)} {first second : List OptionalSignature}
    (left : List.Forall₂ SameApproval approvals first)
    (right : List.Forall₂ SameApproval approvals second) :
    encodeApprovals first = encodeApprovals second := by
  have same := (concat_approvals left).symm.trans (concat_approvals right)
  rw [encodeApprovals, encodeApprovals, Option.some.inj same, ← left.length_eq, right.length_eq]

theorem exists_approvals {block : Block} (wellFormed : block.WellFormed) :
    ∃ decoded, List.Forall₂ (fun approval decoded => SameApproval approval decoded ∧
      (decoded.some = false → decoded.signature = ⟨zeroBytes 32, zeroBytes 32⟩))
      block.approvalsAfterNext decoded := by
  refine exists_forall₂ fun approval member => ?_
  cases approval with
  | none => exact ⟨⟨false, ⟨zeroBytes 32, zeroBytes 32⟩⟩, rfl, fun _ => rfl⟩
  | some text =>
    obtain ⟨signature, carries⟩ := wellFormed.approvals text member
    exact ⟨⟨true, signature⟩, ⟨rfl, carries⟩, nofun⟩

theorem borshify_eq {block : Block} (wellFormed : block.WellFormed) {records : List ProducerRecord}
    (stand : List.Forall₂ NextBp.Record block.nextBps records) {nearBlock : LightClientBlock}
    (same : block.Same nearBlock) : borshify block = some (encodeBlock records nearBlock) := by
  have lite : concat block.innerLite.parts = some (encodeInnerLite nearBlock.innerLite) := by
    simpa using InnerLite.concat_parts same.innerLite []
  have count : toBuffer block.approvalsAfterNext.length 4 =
      some (leBytes 4 nearBlock.approvalsAfterNext.length) := by
    rw [toBuffer_eq wellFormed.count, same.approvals.length_eq]
  rw [borshify, same.prevBlockHash, same.nextBlockInnerHash, lite, same.innerRestHash,
    count_producers stand wellFormed.nextBps.1, concat_producers stand, count,
    concat_approvals same.approvals]
  simp [encodeBlock, encodeProducers, encodeApprovals]

section Shifted

omit [Packages]

/-- One byte late, the first byte of the account id becomes the highest one of its
length, which then exceeds the data. -/
theorem shifted_refused {record : ProducerRecord} {after rest : Bytes} {producer : BlockProducer}
    (named : ∃ byte rest, record.accountId = byte :: rest ∧ byte ≠ 0)
    (small : (record.bytes ++ after).length ≤ 2 ^ 24)
    (success : decodeBlockProducer (record.bytes ++ after).tail = .ok (producer, rest)) : False := by
  obtain ⟨byte, others, id, nonzero⟩ := named
  obtain ⟨version, length, body, split, inside⟩ := decodeBlockProducer_skips success
  have bound : body.length < (record.bytes ++ after).length := by
    have lengths := congrArg List.length split
    simp only [List.length_tail, List.length_cons, List.length_append, length_leBytes] at lengths ⊢
    omega
  simp only [ProducerRecord.bytes, Borsh.encodeBytes, id, leBytes, List.cons_append, List.nil_append,
    List.tail_cons, List.cons.injEq] at split
  obtain ⟨_, _, _, _, top, _⟩ := split
  have high : length / 256 / 256 / 256 % 256 = 0 := by omega
  rw [high] at top
  exact nonzero top

/-- Without its flag, a producer of the second version can only be the last one,
and then takes the byte after the list. -/
theorem missing_flag {records : List ProducerRecord} {tail left : Bytes} {values : List BlockProducer}
    (short : ∀ record ∈ records, record.accountId.length < 2 ^ 32)
    (named : ∀ record ∈ records, ∃ byte rest, record.accountId = byte :: rest ∧ byte ≠ 0)
    (small : (records.flatMap ProducerRecord.bytes ++ tail).length ≤ 2 ^ 24)
    (second : ∃ record ∈ records, record.version = validatorV2)
    (success : Decoder.times records.length decodeBlockProducer
      (records.flatMap ProducerRecord.bytes ++ tail) = .ok (values, left)) :
    ∃ flag, tail = flag :: left := by
  induction records generalizing values with
  | nil =>
    obtain ⟨_, none, _⟩ := second
    cases none
  | cons record records ih =>
    simp only [List.length_cons, Decoder.times, List.flatMap_cons, List.append_assoc,
      Decoder.bind_eq_ok, Decoder.pure_eq_ok] at success
    obtain ⟨producer, middle, here, others, _, later, _, rfl⟩ := success
    rw [decodeBlockProducer_run (short record (by simp))] at here
    simp only [List.flatMap_cons, List.append_assoc, List.length_append] at small
    by_cases version : record.version = validatorV2
    · rw [if_pos version] at here
      obtain ⟨flag, remaining, read, rfl, rfl⟩ := by
        simpa only [Decoder.bind_eq_ok, Decoder.pure_eq_ok] using here
      have taken := Borsh.decodeU8_parses _ _ _ read
      cases records with
      | nil =>
        obtain ⟨_, rfl⟩ := Decoder.pure_eq_ok.mp later
        exact ⟨flag, taken⟩
      | cons next records =>
        simp only [List.length_cons, Decoder.times, Decoder.bind_eq_ok] at later
        obtain ⟨_, _, shifted, _⟩ := later
        have late : remaining = (next.bytes ++ (records.flatMap ProducerRecord.bytes ++ tail)).tail := by
          rw [← List.append_assoc, ← List.flatMap_cons, taken]
          rfl
        rw [late] at shifted
        refine (shifted_refused (named next (by simp)) ?_ shifted).elim
        simp only [List.flatMap_cons, List.length_append] at small ⊢
        omega
    · rw [if_neg version] at here
      obtain ⟨_, rfl⟩ := Decoder.pure_eq_ok.mp here
      obtain ⟨other, member, other_version⟩ := second
      have inside : other ∈ records := by
        rcases List.mem_cons.mp member with rfl | inside
        · exact absurd other_version version
        · exact inside
      refine ih (fun record member => short record (by simp [member]))
        (fun record member => named record (by simp [member])) ?_ ⟨other, inside, other_version⟩ later
      simp only [List.length_append]
      omega

end Shifted

/-- The encoding is shorter than any length whose highest byte is not zero. -/
def Small (encoded : Option Bytes) : Prop := ∀ data, encoded = some data → data.length ≤ 2 ^ 24

/-- A list with a producer of the second version takes the byte after it. -/
theorem second_takes_flag {producers : List NextBp} {records : List ProducerRecord}
    (stand : List.Forall₂ NextBp.Record producers records) (few : producers.length < 2 ^ 32)
    (named : NamedAccounts producers) (second : ¬ FirstVersion producers) {tail left : Bytes}
    (small : (encodeProducers records ++ tail).length ≤ 2 ^ 24) {values : List BlockProducer}
    (success : decodeBlockProducers (encodeProducers records ++ tail) = .ok (values, left)) :
    ∃ flag, tail = flag :: left := by
  have count := Borsh.decodeU32_reads (stand.length_eq ▸ few)
  rw [decodeBlockProducers, encodeProducers, List.append_assoc, count.run] at success
  simp only [encodeProducers, List.length_append] at small
  rw [records_first stand] at second
  push Not at second
  refine missing_flag (records_short stand) (records_named stand named) ?_ second success
  simp only [List.length_append]
  omega

section Validators

variable {initialValidators : List NextBp} (wellFormed : ProducersWellFormed initialValidators)

include wellFormed

theorem validators_survive (first : FirstVersion initialValidators) :
    ValidatorsSurvive initialValidators := by
  obtain ⟨records, stand⟩ := wellFormed.exists_records
  have few : records.length < 2 ^ 32 := stand.length_eq ▸ wellFormed.1
  refine ⟨encodeProducers records, _, borshifyInitialValidators_eq stand wellFormed.1, ?_,
    same_producers stand⟩
  have read := decodeBlockProducers_reads few (records_short stand) ((records_first stand).mp first) []
  rw [List.append_nil] at read
  exact Borsh.decodeAll_eq_ok.mpr read

theorem validators_first (named : NamedAccounts initialValidators)
    (small : Small (borshifyInitialValidators initialValidators))
    (survive : ValidatorsSurvive initialValidators) : FirstVersion initialValidators := by
  obtain ⟨records, stand⟩ := wellFormed.exists_records
  obtain ⟨data, decoded, encoded, accepted, _⟩ := survive
  have bound := small data encoded
  obtain rfl := Option.some.inj ((borshifyInitialValidators_eq stand wellFormed.1).symm.trans encoded)
  have read := Borsh.decodeAll_eq_ok.mp accepted
  by_contra second
  rw [← List.append_nil (encodeProducers records)] at read bound
  obtain ⟨flag, impossible⟩ := second_takes_flag stand wellFormed.1 named second bound read
  cases impossible

end Validators

section Blocks

variable [Hashing] {block : Block} (wellFormed : block.WellFormed)

include wellFormed

/-- A well-formed object has a form that the contract could read. -/
theorem exists_sameBlock {records : List ProducerRecord}
    (stand : List.Forall₂ NextBp.Record block.nextBps records) :
    ∃ nearBlock, block.Same nearBlock ∧ Readable records nearBlock := by
  obtain ⟨prevBlockHash, samePrev⟩ := wellFormed.prevBlockHash
  obtain ⟨nextBlockInnerHash, sameNext⟩ := wellFormed.nextBlockInnerHash
  obtain ⟨lite, sameLite, liteHash⟩ := wellFormed.innerLite.exists_same
  obtain ⟨innerRestHash, sameRest⟩ := wellFormed.innerRestHash
  obtain ⟨approvals, sameApprovals⟩ := exists_approvals wellFormed
  let hash := hashPair (hashPair lite.hash innerRestHash) prevBlockHash
  refine ⟨⟨prevBlockHash, nextBlockInnerHash, lite, innerRestHash,
    ⟨true, records.map (ProducerRecord.producer · false), sha256 (encodeProducers records)⟩, approvals,
    hash, hashPair nextBlockInnerHash hash⟩,
    ⟨samePrev, sameNext, sameLite, sameRest, rfl, same_producers stand,
      sameApprovals.imp fun _ _ both => both.1⟩,
    ⟨liteHash, ?_, records_short stand, rfl, ?_,
      forall_right_of_forall₂ (sameApprovals.imp fun _ _ both => both.2), rfl, rfl⟩⟩
  · exact stand.length_eq ▸ wellFormed.nextBps.1
  · exact sameApprovals.length_eq ▸ wellFormed.count

theorem block_survives (first : FirstVersion block.nextBps) : BlockSurvives block := by
  obtain ⟨records, stand⟩ := wellFormed.nextBps.exists_records
  obtain ⟨nearBlock, same, readable⟩ := exists_sameBlock wellFormed stand
  refine ⟨encodeBlock records nearBlock, nearBlock, borshify_eq wellFormed stand same, ?_, same⟩
  have read := readable.reads ((records_first stand).mp first) []
  rw [List.append_nil] at read
  exact Borsh.decodeAll_eq_ok.mpr read

theorem block_first (named : NamedAccounts block.nextBps) (small : Small (borshify block))
    (survives : BlockSurvives block) : FirstVersion block.nextBps := by
  obtain ⟨records, stand⟩ := wellFormed.nextBps.exists_records
  obtain ⟨nearBlock, same, readable⟩ := exists_sameBlock wellFormed stand
  obtain ⟨data, decoded, encoded, accepted, sameDecoded⟩ := survives
  have bound := small data encoded
  obtain rfl := Option.some.inj ((borshify_eq wellFormed stand same).symm.trans encoded)
  obtain ⟨producers, read⟩ :=
    decodeLightClientBlock_producers readable.lite (Borsh.decodeAll_eq_ok.mp accepted)
  by_contra second
  have short : (encodeProducers records ++ encodeApprovals nearBlock.approvalsAfterNext).length ≤
      2 ^ 24 := by
    simp only [encodeBlock, List.length_append] at bound ⊢
    omega
  obtain ⟨flag, taken⟩ := second_takes_flag stand wellFormed.nextBps.1 named second short read
  -- The approvals are as long as what remains of them.
  rw [encodeApprovals_unique sameDecoded.approvals same.approvals] at taken
  exact absurd (congrArg List.length taken) (by simp)

end Blocks

/-- Light client blocks and validator lists survive the trip when no producer is of
the second version, and for account ids of NEAR only then. -/
theorem light_client_blocks_survive [Hashing] :
    (∀ block : Block, block.WellFormed →
      (FirstVersion block.nextBps → BlockSurvives block) ∧
      (NamedAccounts block.nextBps → Small (borshify block) → BlockSurvives block →
        FirstVersion block.nextBps)) ∧
    ∀ initialValidators : List NextBp, ProducersWellFormed initialValidators →
      (FirstVersion initialValidators → ValidatorsSurvive initialValidators) ∧
      (NamedAccounts initialValidators → Small (borshifyInitialValidators initialValidators) →
        ValidatorsSurvive initialValidators → FirstVersion initialValidators) :=
  ⟨fun _ wellFormed => ⟨block_survives wellFormed, block_first wellFormed⟩,
    fun _ wellFormed => ⟨validators_survive wellFormed, validators_first wellFormed⟩⟩

-- With ids that NEAR does not have, the decoder can find its way back by chance.
example :
    letI := samplePackages
    (borshifyInitialValidators [⟨some "V2", sampleId, curve ++ zeroHash, 1⟩,
      ⟨none, "\x00\x00", curve ++ zeroHash, 0⟩, ⟨some "V2", "", curve ++ zeroHash, 2⟩]).map (fun data =>
        (Borsh.decodeAll decodeBlockProducers data).map (List.map fun producer => producer.stake.toNat)) =
      some (.ok [1, 0, 2]) := by
  decide +kernel

def sampleProducer (version : Option String) : NextBp := ⟨version, sampleId, curve ++ zeroHash, 7⟩

def sampleObject (nextBps : List NextBp) (approvalsAfterNext : List (Option String)) : Block :=
  ⟨zeroHash, zeroHash, sampleLite, zeroHash, nextBps, approvalsAfterNext⟩

section Samples

omit [Packages]

theorem sampleProducer_wellFormed (version : Option String) :
    @NextBp.WellFormed samplePackages (sampleProducer version) := by
  let := samplePackages
  obtain ⟨word, hash⟩ := zeroHash_isHash
  exact ⟨sampleId_ascii, sampleId_short, ⟨word, zeroHash, rfl, hash⟩, by simp [sampleProducer]⟩

theorem sampleProducers_wellFormed (version : Option String) :
    @ProducersWellFormed samplePackages [sampleProducer version] := by
  refine ⟨by simp, fun nextBp member => ?_⟩
  rw [List.mem_singleton.mp member]
  exact sampleProducer_wellFormed version

theorem sampleObject_wellFormed {nextBps : List NextBp} {approvalsAfterNext : List (Option String)}
    (producers : @ProducersWellFormed samplePackages nextBps) (count : approvalsAfterNext.length < 2 ^ 32)
    (approvals : ∀ text, some text ∈ approvalsAfterNext →
      ∃ signature : Signature, @Carries samplePackages text (signature.r.toList ++ signature.s.toList)) :
    @Block.WellFormed samplePackages (sampleObject nextBps approvalsAfterNext) :=
  @Block.WellFormed.mk samplePackages (sampleObject nextBps approvalsAfterNext) zeroHash_isHash
    zeroHash_isHash sampleLite_wellFormed zeroHash_isHash producers count approvals

/-- A producer that tells its version, one that does not, an approval that is missing and
one that is there. -/
theorem light_client_blocks_survive_sample :
    letI := samplePackages
    letI := Hashing.platform
    let producers := [sampleProducer (some "V1"), ⟨none, "alice", curve ++ oneHash, 9⟩]
    BlockSurvives (sampleObject producers [none, some (curve ++ (zeroHash ++ zeroHash))]) ∧
      ValidatorsSurvive producers := by
  let := samplePackages
  let := Hashing.platform
  intro producers
  have first : FirstVersion producers := by
    intro nextBp member
    rcases List.mem_pair.mp member with rfl | rfl <;> decide
  have second : NextBp.WellFormed ⟨none, "alice", curve ++ oneHash, 9⟩ := by
    obtain ⟨word, hash⟩ := oneHash_isHash
    have five : codeUnits "alice" = 5 := by decide +kernel
    have short : codeUnits "alice" < 2 ^ 32 := by omega
    exact ⟨by decide +kernel, short, ⟨word, oneHash, rfl, hash⟩, by simp⟩
  have wellFormed : ProducersWellFormed producers := by
    refine ⟨by simp [producers], fun nextBp member => ?_⟩
    rcases List.mem_pair.mp member with rfl | rfl
    · exact sampleProducer_wellFormed _
    · exact second
  have approvals : ∀ text, some text ∈ [none, some (curve ++ (zeroHash ++ zeroHash))] →
      ∃ signature : Signature, Carries text (signature.r.toList ++ signature.s.toList) := by
    intro text member
    obtain rfl : text = curve ++ (zeroHash ++ zeroHash) := by simpa using member
    exact ⟨⟨zeroBytes 32, zeroBytes 32⟩, zeroHash ++ zeroHash, rfl, by decide +kernel⟩
  exact ⟨(light_client_blocks_survive.1 _ (sampleObject_wellFormed wellFormed (by simp) approvals)).1 first,
    (light_client_blocks_survive.2 _ wellFormed).1 first⟩

/-- The contract looks for the flag of the last producer. -/
theorem second_version_refused :
    letI := samplePackages
    letI := Hashing.platform
    (sampleObject [sampleProducer (some "V2")] []).WellFormed ∧
      ¬ BlockSurvives (sampleObject [sampleProducer (some "V2")] []) ∧
      ¬ ValidatorsSurvive [sampleProducer (some "V2")] := by
  let := samplePackages
  let := Hashing.platform
  have block : (borshify (sampleObject [sampleProducer (some "V2")] [])).map (fun data =>
      (Borsh.decodeAll decodeLightClientBlock data).isOk) = some false := by
    decide +kernel
  have validators : (borshifyInitialValidators [sampleProducer (some "V2")]).map (fun data =>
      (Borsh.decodeAll decodeBlockProducers data).isOk) = some false := by
    decide +kernel
  refine ⟨sampleObject_wellFormed (sampleProducers_wellFormed _) (by simp) (by simp), ?_, ?_⟩
  · intro survives
    obtain ⟨data, decoded, encoded, accepted, _⟩ := survives
    exact not_accepted block encoded accepted
  · intro survive
    obtain ⟨data, decoded, encoded, accepted, _⟩ := survive
    exact not_accepted validators encoded accepted

end Samples

end RainbowBridge.Utils
