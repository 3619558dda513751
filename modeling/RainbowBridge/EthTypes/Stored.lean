import RainbowBridge.EthTypes.Header
import RainbowBridge.Near.Borsh

/-! Headers in the storage of the client: their Borsh encoding in the two layouts,
with the base fee and without it, and `deserialize`, which tries one after the
other on the same input slice. -/

namespace RainbowBridge.EthTypes

open Lib Near Borsh

/-- `U256`: four 64-bit limbs, the lowest first. -/
def deserializeU256 : Deserialize U256 := do
  let limb₀ ← u64
  let limb₁ ← u64
  let limb₂ ← u64
  let limb₃ ← u64
  return limb₃ ++ limb₂ ++ limb₁ ++ limb₀

def serializeU256 (value : U256) : Bytes :=
  leBytes 8 (value.extractLsb' 0 64).toNat ++ (leBytes 8 (value.extractLsb' 64 64).toNat ++
    (leBytes 8 (value.extractLsb' 128 64).toNat ++ leBytes 8 (value.extractLsb' 192 64).toNat))

theorem deserializeU256_reads (value : U256) : deserializeU256.Reads (serializeU256 value) value := by
  have parts : value.extractLsb' 192 64 ++ value.extractLsb' 128 64 ++ value.extractLsb' 64 64 ++
      value.extractLsb' 0 64 = value := by
    apply BitVec.eq_of_getLsbD_eq
    intro i inside
    simp only [BitVec.getLsbD_append, BitVec.getLsbD_extractLsb']
    grind
  have read : deserializeU256.Reads (serializeU256 value) _ :=
    (u64_reads _).bind ((u64_reads _).bind ((u64_reads _).bind ((u64_reads _).map _)))
  rwa [parts] at read

/-- The fields that both layouts start with. -/
def HeaderFields.deserialize : Deserialize HeaderFields := do
  let parentHash ← fixed 32
  let unclesHash ← fixed 32
  let author ← fixed 20
  let stateRoot ← fixed 32
  let transactionsRoot ← fixed 32
  let receiptsRoot ← fixed 32
  let logBloom ← fixed 256
  let difficulty ← deserializeU256
  let number ← u64
  let gasLimit ← deserializeU256
  let gasUsed ← deserializeU256
  let timestamp ← u64
  let extraData ← bytes
  let mixHash ← fixed 32
  let nonce ← fixed 8
  return ⟨parentHash, unclesHash, author, stateRoot, transactionsRoot, receiptsRoot, logBloom,
    difficulty, number, gasLimit, gasUsed, timestamp, extraData, mixHash, nonce⟩

def HeaderFields.serialize (fields : HeaderFields) : Bytes :=
  fields.parentHash.toList ++ (fields.unclesHash.toList ++ (fields.author.toList ++
    (fields.stateRoot.toList ++ (fields.transactionsRoot.toList ++ (fields.receiptsRoot.toList ++
    (fields.logBloom.toList ++ (serializeU256 fields.difficulty ++ (leBytes 8 fields.number.toNat ++
    (serializeU256 fields.gasLimit ++ (serializeU256 fields.gasUsed ++
    (leBytes 8 fields.timestamp.toNat ++ (serializeBytes fields.extraData ++
    (fields.mixHash.toList ++ fields.nonce.toList)))))))))))))

/-- `BlockHeaderLondon::deserialize`, converted. Without the feature the base fee
is read and dropped. -/
def deserializeLondon (eip1559 : Bool) : Deserialize BlockHeader := do
  let fields ← HeaderFields.deserialize
  let baseFeePerGas ← u64
  let hash ← option (fixed 32)
  let partialHash ← option (fixed 32)
  return { fields with
    baseFeePerGas := if eip1559 then some baseFeePerGas else none
    hash, partialHash }

/-- `BlockHeaderPreLondon::deserialize`, converted. -/
def deserializePreLondon (eip1559 : Bool) : Deserialize BlockHeader := do
  let fields ← HeaderFields.deserialize
  let hash ← option (fixed 32)
  let partialHash ← option (fixed 32)
  return { fields with
    baseFeePerGas := if eip1559 then some 7 else none
    hash, partialHash }

/-- `BlockHeader::deserialize`. The second attempt starts where the first one
stopped. -/
def BlockHeader.deserialize (eip1559 : Bool) : Deserialize BlockHeader := fun buf =>
  match deserializeLondon eip1559 buf with
  | .ok header => .ok header
  | .error buf => deserializePreLondon eip1559 buf

/-- `BlockHeader::serialize`, by the contract that has these fields. -/
def BlockHeader.serialize (header : BlockHeader) : Bytes :=
  header.toHeaderFields.serialize ++
    ((match header.baseFeePerGas with
      | none => []
      | some baseFeePerGas => leBytes 8 baseFeePerGas.toNat) ++
    (serializeOption List.Vector.toList header.hash ++
      serializeOption List.Vector.toList header.partialHash))

theorem HeaderFields.deserialize_reads {fields : HeaderFields} (short : fields.extraData.length < 2 ^ 32) :
    HeaderFields.deserialize.Reads fields.serialize fields :=
  (fixed_reads _).bind <| (fixed_reads _).bind <| (fixed_reads _).bind <| (fixed_reads _).bind <|
    (fixed_reads _).bind <| (fixed_reads _).bind <| (fixed_reads _).bind <|
    (deserializeU256_reads _).bind <| (u64_reads _).bind <| (deserializeU256_reads _).bind <|
    (deserializeU256_reads _).bind <| (u64_reads _).bind <| (bytes_reads short).bind <|
    (fixed_reads _).bind <| (fixed_reads _).map _

theorem hash_reads (hash : Option H256) :
    (option (fixed 32)).Reads (serializeOption List.Vector.toList hash) hash :=
  option_reads hash fun inner _ => fixed_reads inner

/-- A header in the layout with the base fee is read back, whatever follows. -/
theorem london_reads (header : BlockHeader) {baseFee : BitVec 64}
    (short : header.extraData.length < 2 ^ 32) (fee : header.baseFeePerGas = some baseFee) :
    (BlockHeader.deserialize true).Reads header.serialize header := by
  obtain ⟨fields, _, hash, partialHash⟩ := header
  obtain rfl : _ = some baseFee := fee
  have read : (deserializeLondon true).Reads
      (BlockHeader.serialize ⟨fields, some baseFee, hash, partialHash⟩)
      ⟨fields, some baseFee, hash, partialHash⟩ :=
    (HeaderFields.deserialize_reads short).bind <| (u64_reads baseFee).bind <|
      (hash_reads hash).bind <| (hash_reads partialHash).map _
  intro rest
  simp only [BlockHeader.deserialize, read rest]

/-- The fixed fields alone need more than the first two hashes and the author. -/
theorem deserializePreLondon_short {eip1559 : Bool} {buf rest : Bytes} {header : BlockHeader}
    (success : deserializePreLondon eip1559 buf = .ok (header, rest)) : 84 ≤ buf.length := by
  obtain ⟨fields, middle, read, -⟩ := Decoder.bind_eq_ok.mp success
  obtain ⟨_, _, parent, read⟩ := Decoder.bind_eq_ok.mp read
  obtain ⟨_, _, uncles, read⟩ := Decoder.bind_eq_ok.mp read
  obtain ⟨_, _, author, -⟩ := Decoder.bind_eq_ok.mp read
  have parentLength := fixed_length parent
  have unclesLength := fixed_length uncles
  have authorLength := fixed_length author
  omega

/-- What follows the fields in the layout without the base fee. -/
theorem length_hashes (hash partialHash : Option H256) :
    (serializeOption List.Vector.toList hash ++ serializeOption List.Vector.toList partialHash).length ∈
      [2, 34, 66] := by
  cases hash <;> cases partialHash <;> simp [serializeOption]

/-- A header in the layout without the base fee is never read back: eight bytes of
what follows the nonce are taken for the base fee, and when that fails the second
attempt starts behind them. -/
theorem preLondon_lost (header : BlockHeader) (short : header.extraData.length < 2 ^ 32)
    (fee : header.baseFeePerGas = none) (eip1559 : Bool) (decoded : BlockHeader) :
    BlockHeader.deserialize eip1559 header.serialize ≠ .ok (decoded, []) := by
  have tail := length_hashes header.hash header.partialHash
  generalize hashes : serializeOption List.Vector.toList header.hash ++
    serializeOption List.Vector.toList header.partialHash = buf at tail
  have stored : header.serialize = header.toHeaderFields.serialize ++ buf := by
    simp [BlockHeader.serialize, fee, hashes]
  have after : ∀ fields : HeaderFields, Advances (do
      let baseFeePerGas ← u64
      let hash ← option (fixed 32)
      let partialHash ← option (fixed 32)
      return ({ fields with
        baseFeePerGas := if eip1559 then some baseFeePerGas else none
        hash, partialHash } : BlockHeader)) := fun fields =>
    u64_advances.bind fun _ => (option_advances (fixed_advances 32)).bind fun _ =>
      (option_advances (fixed_advances 32)).bind fun _ => .pure _
  have run : deserializeLondon eip1559 header.serialize = _ :=
    stored ▸ (HeaderFields.deserialize_reads short).run _ buf
  intro success
  rw [BlockHeader.deserialize, run] at success
  have moved := after header.toHeaderFields buf
  split at success
  · rename_i attempt read
    -- the base fee layout would have to end where the other one does
    cases success
    obtain ⟨_, _, baseFee, read⟩ := Decoder.bind_eq_ok.mp read
    obtain ⟨_, _, hash, read⟩ := Decoder.bind_eq_ok.mp read
    obtain ⟨_, _, partialHash, done⟩ := Decoder.bind_eq_ok.mp read
    obtain ⟨-, rfl⟩ := Decoder.pure_eq_ok.mp done
    have baseFeeLength := u64_length baseFee
    have hashLength := option_length hash
    have partialLength := option_length partialHash
    simp only [List.mem_cons, List.not_mem_nil, or_false, List.length_nil] at tail partialLength
    omega
  · rename_i stopped failed
    rw [failed] at moved
    have long := deserializePreLondon_short success
    simp only [left, List.mem_cons, List.not_mem_nil, or_false] at moved tail
    omega

/-- Both layouts of a header are read back, the older one with the base fee 7. -/
def ReadBack (fields : HeaderFields) (baseFee : BitVec 64) (hash partialHash : Option H256) : Prop :=
  BlockHeader.deserialize true (BlockHeader.serialize ⟨fields, some baseFee, hash, partialHash⟩) =
      .ok (⟨fields, some baseFee, hash, partialHash⟩, []) ∧
    BlockHeader.deserialize true (BlockHeader.serialize ⟨fields, none, hash, partialHash⟩) =
      .ok (⟨fields, some 7, hash, partialHash⟩, [])

/-- Of no header are both layouts read back: the newer one always is, the older
one never. -/
theorem stored_layouts (fields : HeaderFields) (baseFee : BitVec 64) (hash partialHash : Option H256)
    (short : fields.extraData.length < 2 ^ 32) :
    BlockHeader.deserialize true (BlockHeader.serialize ⟨fields, some baseFee, hash, partialHash⟩) =
        .ok (⟨fields, some baseFee, hash, partialHash⟩, []) ∧
      ¬ ReadBack fields baseFee hash partialHash := by
  constructor
  · have read := london_reads ⟨fields, some baseFee, hash, partialHash⟩ short rfl []
    rwa [List.append_nil] at read
  · intro both
    exact preLondon_lost ⟨fields, none, hash, partialHash⟩ short rfl true _ both.2

theorem stored_layouts_sample :
    BlockHeader.deserialize true (BlockHeader.serialize ⟨sampleHeader, some 9, none, none⟩) =
        .ok (⟨sampleHeader, some 9, none, none⟩, []) ∧
      ¬ ReadBack sampleHeader 9 none none :=
  stored_layouts sampleHeader 9 none none (by decide)

/-- The hashes of a stored header. -/
def storedHash : H256 := List.Vector.replicate 32 5

theorem preLondon_refused :
    (BlockHeader.deserialize true (BlockHeader.serialize
      ⟨sampleHeader, none, some storedHash, some storedHash⟩)).isOk = false ∧
      ¬ ReadBack sampleHeader 9 (some storedHash) (some storedHash) := by
  have refused : (BlockHeader.deserialize true (BlockHeader.serialize
      ⟨sampleHeader, none, some storedHash, some storedHash⟩)).isOk = false := by
    decide +kernel
  refine ⟨refused, fun both => ?_⟩
  rw [both.2] at refused
  cases refused

end RainbowBridge.EthTypes
