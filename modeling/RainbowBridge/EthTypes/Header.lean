import RainbowBridge.Crypto.Hashing
import RainbowBridge.EthTypes.RlpCrate

/-! Ethereum block headers as the NEAR contracts decode them, and the seal hash,
over which the proof of work is computed. The `eip1559` feature of the crate is a
parameter. -/

namespace RainbowBridge.EthTypes

open Lib

abbrev H256 := FixedBytes 32

instance : LawfulBEq H256 := inferInstance

abbrev H160 := FixedBytes 20

abbrev H64 := FixedBytes 8

abbrev Bloom := FixedBytes 256

abbrev U256 := BitVec 256

/-- The fields of a header up to the nonce. -/
structure HeaderFields where
  parentHash : H256
  unclesHash : H256
  author : H160
  stateRoot : H256
  transactionsRoot : H256
  receiptsRoot : H256
  logBloom : Bloom
  difficulty : U256
  number : BitVec 64
  gasLimit : U256
  gasUsed : U256
  timestamp : BitVec 64
  extraData : Bytes
  mixHash : H256
  nonce : H64

/-- A decoded header. `baseFeePerGas` exists with the feature only. -/
structure BlockHeader extends HeaderFields where
  baseFeePerGas : Option (BitVec 64)
  hash : Option H256
  partialHash : Option H256

/-- What `stream_rlp` appends, in order. -/
def streamItems (crate : RlpCrate) (header : BlockHeader) (isPartial : Bool) : List Bytes :=
  [crate.encodeBytes header.parentHash.toList, crate.encodeBytes header.unclesHash.toList,
    crate.encodeBytes header.author.toList, crate.encodeBytes header.stateRoot.toList,
    crate.encodeBytes header.transactionsRoot.toList, crate.encodeBytes header.receiptsRoot.toList,
    crate.encodeBytes header.logBloom.toList, crate.encodeUint header.difficulty.toNat,
    crate.encodeUint header.number.toNat, crate.encodeUint header.gasLimit.toNat,
    crate.encodeUint header.gasUsed.toNat, crate.encodeUint header.timestamp.toNat,
    crate.encodeBytes header.extraData] ++
  (match header.baseFeePerGas with
    | none => []
    | some baseFeePerGas => [crate.encodeUint baseFeePerGas.toNat]) ++
  if isPartial then [] else [crate.encodeBytes header.mixHash.toList, crate.encodeBytes header.nonce.toList]

def streamRlp (crate : RlpCrate) (header : BlockHeader) (isPartial : Bool) (stream : crate.Stream) :
    crate.Stream :=
  (streamItems crate header isPartial).foldl (fun stream item => crate.append item stream)
    (crate.beginList (13 + if isPartial then 0 else 2) stream)

/-- The field that the feature adds. -/
def baseFeeAt (crate : RlpCrate) (eip1559 : Bool) (serialized : Bytes) : Option (Option (BitVec 64)) :=
  if eip1559 then (crate.uintAt 64 serialized 15).map some else some none

variable [Hashing]

/-- `BlockHeader::decode`. -/
def BlockHeader.decode (crate : RlpCrate) (eip1559 : Bool) (serialized : Bytes) : Option BlockHeader := do
  let parentHash ← crate.fixedAt 32 serialized 0
  let unclesHash ← crate.fixedAt 32 serialized 1
  let author ← crate.fixedAt 20 serialized 2
  let stateRoot ← crate.fixedAt 32 serialized 3
  let transactionsRoot ← crate.fixedAt 32 serialized 4
  let receiptsRoot ← crate.fixedAt 32 serialized 5
  let logBloom ← crate.fixedAt 256 serialized 6
  let difficulty ← crate.uintAt 256 serialized 7
  let number ← crate.uintAt 64 serialized 8
  let gasLimit ← crate.uintAt 256 serialized 9
  let gasUsed ← crate.uintAt 256 serialized 10
  let timestamp ← crate.uintAt 64 serialized 11
  let extraData ← crate.bytesAt serialized 12
  let mixHash ← crate.fixedAt 32 serialized 13
  let nonce ← crate.fixedAt 8 serialized 14
  let baseFeePerGas ← baseFeeAt crate eip1559 serialized
  let header : BlockHeader := {
    parentHash, unclesHash, author, stateRoot, transactionsRoot, receiptsRoot, logBloom, difficulty,
    number, gasLimit, gasUsed, timestamp, extraData, mixHash, nonce, baseFeePerGas
    hash := some (keccak256 serialized)
    partialHash := none }
  return { header with
    partialHash := some (keccak256 (crate.out (streamRlp crate header true crate.newStream))) }

theorem hash_of_decode {crate : RlpCrate} {eip1559 : Bool} {serialized : Bytes} {header : BlockHeader}
    (success : BlockHeader.decode crate eip1559 serialized = some header) :
    header.hash = some (keccak256 serialized) := by
  unfold BlockHeader.decode at success
  -- one bind for each of the sixteen fields
  iterate 16 obtain ⟨_, -, success⟩ := Option.bind_eq_some_iff.mp success
  rw [← Option.some.inj success]

/-- The sealed fields as RLP items. -/
def HeaderFields.sealedItems (fields : HeaderFields) : List Rlp.Item :=
  [.data fields.parentHash.toList, .data fields.unclesHash.toList, .data fields.author.toList,
    .data fields.stateRoot.toList, .data fields.transactionsRoot.toList,
    .data fields.receiptsRoot.toList, .data fields.logBloom.toList,
    .data (uintBytes fields.difficulty.toNat), .data (uintBytes fields.number.toNat),
    .data (uintBytes fields.gasLimit.toNat), .data (uintBytes fields.gasUsed.toNat),
    .data (uintBytes fields.timestamp.toNat), .data fields.extraData]

def feeItems : Option (BitVec 64) → List Rlp.Item
  | none => []
  | some baseFee => [.data (uintBytes baseFee.toNat)]

/-- The header as Ethereum encodes it; the base fee stands last. -/
def HeaderFields.encode (fields : HeaderFields) (baseFee : Option (BitVec 64)) : Bytes :=
  (Rlp.Item.list (fields.sealedItems ++
    [.data fields.mixHash.toList, .data fields.nonce.toList] ++ feeItems baseFee)).encode

/-- What `SealHash` of the relayer hashes: one list, with the base fee if the
header has one. -/
def HeaderFields.sealString (fields : HeaderFields) (baseFee : Option (BitVec 64)) : Bytes :=
  (Rlp.Item.list (fields.sealedItems ++ feeItems baseFee)).encode

def HeaderFields.sealHash (fields : HeaderFields) (baseFee : Option (BitVec 64)) : H256 :=
  keccak256 (fields.sealString baseFee)

/-- What the contract hashes: the list of the sealed fields, then the base fee. -/
def HeaderFields.streamString (fields : HeaderFields) (baseFee : Option (BitVec 64)) : Bytes :=
  Rlp.encodeList (Rlp.encodeAll fields.sealedItems) ++ Rlp.encodeAll (feeItems baseFee)

omit [Hashing] in
theorem out_streamRlp {crate : RlpCrate} (documented : crate.Documented) (header : BlockHeader) :
    crate.out (streamRlp crate header true crate.newStream) =
      header.streamString header.baseFeePerGas := by
  unfold streamRlp
  rw [if_pos rfl, Nat.add_zero, documented.out_eq 13 _ (by decide) (by simp [streamItems])]
  cases fee : header.baseFeePerGas with
  | none =>
    simp [streamItems, fee, documented.encodeBytes_eq, documented.encodeUint_eq,
      HeaderFields.streamString, HeaderFields.sealedItems, feeItems, Rlp.encodeAll, Rlp.Item.encode,
      Rlp.encodeUint]
  | some baseFee =>
    simp [streamItems, fee, documented.encodeBytes_eq, documented.encodeUint_eq,
      HeaderFields.streamString, HeaderFields.sealedItems, feeItems, Rlp.encodeAll, Rlp.Item.encode,
      Rlp.encodeUint]

/-- The contract decodes a canonical header to its fields. -/
theorem decode_encode {crate : RlpCrate} (documented : crate.Documented) (eip1559 : Bool)
    (fields : HeaderFields) (baseFee : Option (BitVec 64))
    (given : eip1559 = true → baseFee.isSome = true)
    (fits : (fields.encode baseFee).length < 2 ^ 64) :
    BlockHeader.decode crate eip1559 (fields.encode baseFee) = some { fields with
      baseFeePerGas := if eip1559 then baseFee else none
      hash := some (keccak256 (fields.encode baseFee))
      partialHash := some (keccak256
        (fields.streamString (if eip1559 then baseFee else none))) } := by
  have parentHash : crate.fixedAt 32 (fields.encode baseFee) 0 = some fields.parentHash :=
    documented.fixedAt fits rfl
  have unclesHash : crate.fixedAt 32 (fields.encode baseFee) 1 = some fields.unclesHash :=
    documented.fixedAt fits rfl
  have author : crate.fixedAt 20 (fields.encode baseFee) 2 = some fields.author :=
    documented.fixedAt fits rfl
  have stateRoot : crate.fixedAt 32 (fields.encode baseFee) 3 = some fields.stateRoot :=
    documented.fixedAt fits rfl
  have transactionsRoot : crate.fixedAt 32 (fields.encode baseFee) 4 = some fields.transactionsRoot :=
    documented.fixedAt fits rfl
  have receiptsRoot : crate.fixedAt 32 (fields.encode baseFee) 5 = some fields.receiptsRoot :=
    documented.fixedAt fits rfl
  have logBloom : crate.fixedAt 256 (fields.encode baseFee) 6 = some fields.logBloom :=
    documented.fixedAt fits rfl
  have difficulty : crate.uintAt 256 (fields.encode baseFee) 7 = some fields.difficulty :=
    documented.uintAt fits (by decide) rfl
  have number : crate.uintAt 64 (fields.encode baseFee) 8 = some fields.number :=
    documented.uintAt fits (by decide) rfl
  have gasLimit : crate.uintAt 256 (fields.encode baseFee) 9 = some fields.gasLimit :=
    documented.uintAt fits (by decide) rfl
  have gasUsed : crate.uintAt 256 (fields.encode baseFee) 10 = some fields.gasUsed :=
    documented.uintAt fits (by decide) rfl
  have timestamp : crate.uintAt 64 (fields.encode baseFee) 11 = some fields.timestamp :=
    documented.uintAt fits (by decide) rfl
  have extraData : crate.bytesAt (fields.encode baseFee) 12 = some fields.extraData :=
    documented.bytesAt fits rfl
  have mixHash : crate.fixedAt 32 (fields.encode baseFee) 13 = some fields.mixHash :=
    documented.fixedAt fits rfl
  have nonce : crate.fixedAt 8 (fields.encode baseFee) 14 = some fields.nonce :=
    documented.fixedAt fits rfl
  have fee : baseFeeAt crate eip1559 (fields.encode baseFee) =
      some (if eip1559 then baseFee else none) := by
    cases eip1559 with
    | false => rfl
    | true =>
      obtain ⟨value, rfl⟩ := Option.isSome_iff_exists.mp (given rfl)
      have read : crate.uintAt 64 (fields.encode (some value)) 15 = some value :=
        documented.uintAt fits (by decide) rfl
      simp [baseFeeAt, read]
  simp only [BlockHeader.decode, parentHash, unclesHash, author, stateRoot, transactionsRoot,
    receiptsRoot, logBloom, difficulty, number, gasLimit, gasUsed, timestamp, extraData, mixHash,
    nonce, fee, Option.bind_eq_bind, Option.bind_some, Option.pure_def, out_streamRlp documented]

/-- The contract's seal hash is Ethereum's exactly when the feature is off: with
it, the base fee follows the list instead of being in it. -/
theorem partialHash_eq_sealHash_iff (crate : RlpCrate) (documented : crate.Documented)
    (eip1559 : Bool) (fields : HeaderFields) (baseFee : Option (BitVec 64))
    (given : eip1559 = true → baseFee.isSome = true)
    (fits : (fields.encode baseFee).length < 2 ^ 64)
    (free : CollisionFree keccak256 {fields.streamString baseFee, fields.sealString baseFee}) :
    (BlockHeader.decode crate eip1559 (fields.encode baseFee)).bind BlockHeader.partialHash =
        some (fields.sealHash (if eip1559 then baseFee else none)) ↔
      eip1559 = false := by
  rw [decode_encode documented eip1559 fields baseFee given fits]
  simp only [Option.bind_some, Option.some.injEq]
  cases eip1559 with
  | false => simp [HeaderFields.sealHash, HeaderFields.sealString, HeaderFields.streamString, feeItems,
      Rlp.Item.encode, Rlp.encodeAll]
  | true =>
    obtain ⟨value, rfl⟩ := Option.isSome_iff_exists.mp (given rfl)
    simp only [if_true, Bool.true_eq_false, iff_false]
    intro same
    have strings := free (by simp) (by simp) same
    rw [HeaderFields.streamString, HeaderFields.sealString, Rlp.Item.encode,
      Rlp.encodeAll_append] at strings
    refine Rlp.encodeList_append_ne ?_ ?_ strings
    · rw [← Rlp.encodeAll_append]
      have whole := Rlp.length_lt_encodeList (Rlp.encodeAll (fields.sealedItems ++
        [.data fields.mixHash.toList, .data fields.nonce.toList] ++ feeItems (some value)))
      rw [HeaderFields.encode, Rlp.Item.encode] at fits
      simp only [Rlp.encodeAll_append, List.length_append] at whole fits ⊢
      omega
    · simp [feeItems, Rlp.encodeAll, Rlp.Item.encode_ne_nil]

/-- A header with a base fee whose other fields are zero. -/
def sampleHeader : HeaderFields where
  parentHash := zeroBytes 32
  unclesHash := zeroBytes 32
  author := zeroBytes 20
  stateRoot := zeroBytes 32
  transactionsRoot := zeroBytes 32
  receiptsRoot := zeroBytes 32
  logBloom := zeroBytes 256
  difficulty := 0
  number := 0
  gasLimit := 0
  gasUsed := 0
  timestamp := 0
  extraData := []
  mixHash := zeroBytes 32
  nonce := zeroBytes 8

omit [Hashing] in
theorem partialHash_ne_sealHash :
    letI := Hashing.platform
    (BlockHeader.decode .reference true (sampleHeader.encode (some 7))).bind BlockHeader.partialHash ≠
      some (sampleHeader.sealHash (some 7)) := by
  decide +kernel

/-- The platform's functions, with the digests of the sample looked up. -/
@[reducible] def sampleHashing : Hashing where
  sha256 := Sha256.hash
  keccak256 := fun bytes =>
    if bytes = sampleHeader.sealString (some 7) then
      ⟨[119, 25, 241, 200, 188, 227, 249, 146, 56, 88, 152, 251, 61, 130, 184, 68, 57, 127, 38, 100, 253,
        60, 72, 251, 192, 87, 124, 59, 1, 150, 67, 177], rfl⟩
    else if bytes = sampleHeader.streamString (some 7) then
      ⟨[41, 106, 176, 148, 239, 13, 249, 230, 173, 139, 154, 84, 205, 115, 188, 153, 97, 117, 158, 209,
        23, 227, 160, 66, 205, 0, 58, 91, 25, 188, 223, 165], rfl⟩
    else Keccak.hash bytes

omit [Hashing] in
example : ∀ bytes ∈ [sampleHeader.sealString (some 7), sampleHeader.streamString (some 7)],
    sampleHashing.keccak256 bytes = Keccak.hash bytes := by
  decide +kernel

omit [Hashing] in
theorem partialHash_eq_sealHash_iff_sample :
    letI := sampleHashing
    (BlockHeader.decode .reference true (sampleHeader.encode (some 7))).bind BlockHeader.partialHash =
        some (sampleHeader.sealHash (some 7)) ↔ true = false := by
  let := sampleHashing
  have different : keccak256 (sampleHeader.streamString (some 7)) ≠
      keccak256 (sampleHeader.sealString (some 7)) := by
    decide +kernel
  exact partialHash_eq_sealHash_iff .reference RlpCrate.reference_documented true sampleHeader (some 7)
    (fun _ => rfl) (by decide +kernel) (.pair different)

end RainbowBridge.EthTypes
