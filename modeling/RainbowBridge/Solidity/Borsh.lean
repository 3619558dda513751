import RainbowBridge.Crypto.Hashing
import RainbowBridge.Lib.Decoder
import RainbowBridge.Solidity.Evm

/-! The Borsh reader of the Solidity contracts. `Borsh.Data` is a cursor and an
end in memory; here it is the list of bytes between the two. -/

namespace RainbowBridge.Solidity.Borsh

open Lib

abbrev Decoder := Lib.Decoder Revert UInt8

def unexpectedEnd : Revert := "Parse error: unexpected EOI"

/-- `read`: the next `length` bytes, which must be there. -/
def read (length : Nat) : Decoder (FixedBytes length) := fun data =>
  if space : length ≤ data.length then
    .ok (⟨data.take length, List.length_take_of_le space⟩, data.drop length)
  else .error unexpectedEnd

def peekSha256 [Hashing] (length : Nat) : Decoder Bytes32 := fun data => do
  require (length ≤ data.length) unexpectedEnd
  return (sha256 (data.take length), data)

def peekKeccak256 [Hashing] (length : Nat) : Decoder Bytes32 := fun data => do
  require (length ≤ data.length) unexpectedEnd
  return (keccak256 (data.take length), data)

def endExpected : Revert := "Parse error: EOI expected"

def done : Decoder Unit := fun data => do
  require (data = []) endExpected
  return ((), data)

def decodeU8 : Decoder UInt8 := do
  let raw ← read 1
  return raw.head

def decodeU16 : Decoder (BitVec 16) := do
  let raw ← read 2
  return BitVec.ofNat 16 (leNat raw.toList)

def decodeU32 : Decoder Nat := do
  let raw ← read 4
  return leNat raw.toList

def decodeU64 : Decoder Uint64 := do
  let raw ← read 8
  return BitVec.ofNat 64 (leNat raw.toList)

def decodeU128 : Decoder Uint128 := do
  let raw ← read 16
  return BitVec.ofNat 128 (leNat raw.toList)

def decodeU256 : Decoder (BitVec 256) := do
  let raw ← read 32
  return BitVec.ofNat 256 (leNat raw.toList)

def decodeBytes20 : Decoder (FixedBytes 20) := read 20

def decodeBytes32 : Decoder Bytes32 := read 32

def invalidBool : Revert := "Parse error: invalid bool"

def refuse {α : Type} (error : Revert) : Decoder α := fun _ => .error error

def decodeBool : Decoder Bool := do
  let raw ← decodeU8
  if raw ≤ 1 then return raw != 0 else refuse invalidBool

def skipBytes : Decoder Unit := do
  let length ← decodeU32
  let _ ← read length

def decodeBytes : Decoder Bytes := do
  let length ← decodeU32
  let body ← read length
  return body.toList

/-- `Utils.sha256Raw(start, data.ptr - start)`, with `start` the bytes that were
left when the cursor stood there. -/
def sha256Since [Hashing] (start : Bytes) : Decoder Bytes32 := fun data =>
  .ok (sha256 (start.take (start.length - data.length)), data)

/-- `Borsh.from(data)`, a decoder, and `done()`. -/
def decodeAll {α : Type} (decoder : Decoder α) (data : Bytes) : Except Revert α := do
  let (value, rest) ← decoder data
  require (rest = []) "Parse error: EOI expected"
  return value

theorem decodeAll_eq_ok {α : Type} {decoder : Decoder α} {data : Bytes} {value : α} :
    decodeAll decoder data = .ok value ↔ decoder data = .ok (value, []) := by
  unfold decodeAll
  constructor
  · intro success
    simp only [bind_eq_ok, require_eq_ok, pure_eq_ok, Prod.exists] at success
    obtain ⟨result, rest, decoded, _, empty, same⟩ := success
    rw [decoded, empty, same]
  · intro success
    simp only [bind_eq_ok, require_eq_ok, pure_eq_ok, Prod.exists]
    exact ⟨value, [], success, (), rfl, rfl⟩

theorem read_parses (length : Nat) : (read length).Parses List.Vector.toList := by
  intro data value rest success
  unfold read at success
  split at success
  · cases success
    exact (List.take_append_drop length data).symm
  · cases success

theorem read_reads {length : Nat} (body : FixedBytes length) : (read length).Reads body.toList body := by
  intro rest
  have fits : length ≤ (body.toList ++ rest).length := by simp
  have taken : (body.toList ++ rest).take length = body.toList := by simp
  have left : (body.toList ++ rest).drop length = rest := by simp
  have same : (⟨(body.toList ++ rest).take length, by simp⟩ : FixedBytes length) = body :=
    List.Vector.eq _ _ taken
  simp only [read, fits, dif_pos, left, same]

theorem decodeBytes32_reads (word : Bytes32) : decodeBytes32.Reads word.toList word := read_reads word

theorem decodeU32_reads {value : Nat} (fits : value < 2 ^ 32) :
    decodeU32.Reads (leBytes 4 value) value := by
  have whole := (read_reads ⟨leBytes 4 value, length_leBytes 4 value⟩).map
    fun raw => leNat raw.toList
  have same : leNat (leBytes 4 value) = value := leNat_leBytes 4 value (by simpa using fits)
  rw [List.Vector.toList_mk, same] at whole
  exact whole

theorem decodeU64_reads (value : Uint64) : decodeU64.Reads (leBytes 8 value.toNat) value := by
  have whole := (read_reads ⟨leBytes 8 value.toNat, length_leBytes 8 _⟩).map
    fun raw => BitVec.ofNat 64 (leNat raw.toList)
  have same : leNat (leBytes 8 value.toNat) = value.toNat :=
    leNat_leBytes 8 _ (by simpa using value.isLt)
  rw [List.Vector.toList_mk, same, BitVec.ofNat_toNat, BitVec.setWidth_eq] at whole
  exact whole

theorem decodeU128_reads (value : Uint128) : decodeU128.Reads (leBytes 16 value.toNat) value := by
  have whole := (read_reads ⟨leBytes 16 value.toNat, length_leBytes 16 _⟩).map
    fun raw => BitVec.ofNat 128 (leNat raw.toList)
  have same : leNat (leBytes 16 value.toNat) = value.toNat :=
    leNat_leBytes 16 _ (by simpa using value.isLt)
  rw [List.Vector.toList_mk, same, BitVec.ofNat_toNat, BitVec.setWidth_eq] at whole
  exact whole

theorem decodeU8_reads (value : UInt8) : decodeU8.Reads [value] value :=
  (read_reads ⟨[value], rfl⟩).map fun raw => raw.head

/-- A Borsh byte string: its length in four bytes, then its bytes. -/
def encodeBytes (body : Bytes) : Bytes := leBytes 4 body.length ++ body

theorem decodeBytes_reads {body : Bytes} (fits : body.length < 2 ^ 32) :
    decodeBytes.Reads (encodeBytes body) body :=
  (decodeU32_reads fits).bind ((read_reads ⟨body, rfl⟩).map fun raw => raw.toList)

theorem skipBytes_reads {body : Bytes} (fits : body.length < 2 ^ 32) :
    skipBytes.Reads (encodeBytes body) () :=
  (decodeU32_reads fits).bind ((read_reads ⟨body, rfl⟩).map fun _ => ())

theorem decodeBool_reads (value : Bool) :
    decodeBool.Reads [if value then 1 else 0] value := by
  intro rest
  cases value <;> rfl

/-- The numbers of `width` bytes that the integer decoders return. -/
theorem leBytes_read {width : Nat} (raw : FixedBytes width) : leBytes width (leNat raw.toList) = raw.toList := by
  have whole := leBytes_leNat raw.toList
  rwa [List.Vector.toList_length] at whole

theorem leNat_read_lt {width : Nat} (raw : FixedBytes width) : leNat raw.toList < 256 ^ width := by
  have small := leNat_lt raw.toList
  rwa [List.Vector.toList_length] at small

theorem decodeU8_parses : decodeU8.Parses fun value => [value] := by
  intro data value rest success
  simp only [decodeU8, Decoder.bind_eq_ok, Decoder.pure_eq_ok] at success
  obtain ⟨raw, _, consumed, rfl, rfl⟩ := success
  rw [read_parses 1 _ _ _ consumed]
  obtain ⟨byte, rfl⟩ : ∃ byte, raw = ⟨[byte], rfl⟩ := by
    obtain ⟨list, length⟩ := raw
    match list, length with
    | [byte], _ => exact ⟨byte, rfl⟩
  rfl

theorem decodeU32_parses : decodeU32.Parses (leBytes 4) := by
  intro data value rest success
  simp only [decodeU32, Decoder.bind_eq_ok, Decoder.pure_eq_ok] at success
  obtain ⟨raw, _, consumed, rfl, rfl⟩ := success
  rw [read_parses 4 _ _ _ consumed, leBytes_read]

theorem decodeU64_parses : decodeU64.Parses fun value => leBytes 8 value.toNat := by
  intro data value rest success
  simp only [decodeU64, Decoder.bind_eq_ok, Decoder.pure_eq_ok] at success
  obtain ⟨raw, _, consumed, rfl, rfl⟩ := success
  have fits : leNat raw.toList % 2 ^ 64 = leNat raw.toList :=
    Nat.mod_eq_of_lt (by simpa using leNat_read_lt raw)
  rw [read_parses 8 _ _ _ consumed]
  simp only [BitVec.toNat_ofNat, fits, leBytes_read]

theorem decodeU128_parses : decodeU128.Parses fun value => leBytes 16 value.toNat := by
  intro data value rest success
  simp only [decodeU128, Decoder.bind_eq_ok, Decoder.pure_eq_ok] at success
  obtain ⟨raw, _, consumed, rfl, rfl⟩ := success
  have fits : leNat raw.toList % 2 ^ 128 = leNat raw.toList :=
    Nat.mod_eq_of_lt (by simpa using leNat_read_lt raw)
  rw [read_parses 16 _ _ _ consumed]
  simp only [BitVec.toNat_ofNat, fits, leBytes_read]

theorem decodeBytes_parses : decodeBytes.Parses encodeBytes := by
  intro data value rest success
  simp only [decodeBytes, Decoder.bind_eq_ok, Decoder.pure_eq_ok] at success
  obtain ⟨length, middle, counted, body, _, consumed, rfl, rfl⟩ := success
  rw [decodeU32_parses _ _ _ counted, read_parses length _ _ _ consumed]
  simp [encodeBytes]

theorem decodeBool_parses : decodeBool.Parses fun value => [if value then 1 else 0] := by
  intro data value rest success
  simp only [decodeBool, Decoder.bind_eq_ok] at success
  obtain ⟨raw, _, consumed, success⟩ := success
  rw [decodeU8_parses _ _ _ consumed]
  split at success
  · rename_i small
    obtain ⟨rfl, rfl⟩ := Decoder.pure_eq_ok.mp success
    have cases : raw = 0 ∨ raw = 1 := by
      have bound : raw.toNat ≤ 1 := small
      rcases Nat.le_one_iff_eq_zero_or_eq_one.mp bound with zero | one
      · exact .inl (UInt8.toNat_inj.mp zero)
      · exact .inr (UInt8.toNat_inj.mp one)
    rcases cases with rfl | rfl <;> rfl
  · cases success

/-- What `sha256Since` hashes is what was read since then. -/
theorem sha256Since_eq_ok [Hashing] {start consumed data rest : Bytes} {hash : Bytes32}
    (progress : start = consumed ++ data) :
    sha256Since start data = .ok (hash, rest) ↔ sha256 consumed = hash ∧ data = rest := by
  subst progress
  simp [sha256Since]

section Hashed

variable [Hashing] {α β : Type} {encoded : Bytes}

/-- A decoder that first hashes all it is going to read. -/
theorem peekSha256_reads {length : Nat} {next : Bytes32 → Decoder β} {result : β}
    (long : encoded.length = length) (later : (next (sha256 encoded)).Reads encoded result) :
    (peekSha256 length >>= next).Reads encoded result := by
  intro rest
  have front : (encoded ++ rest).take length = encoded := List.take_left' long
  have fits : length ≤ (encoded ++ rest).length := by simp [← long]
  have peeked : peekSha256 length (encoded ++ rest) = .ok (sha256 encoded, encoded ++ rest) := by
    simp only [peekSha256, require, fits, if_true, front]
    rfl
  exact Decoder.bind_eq_ok.mpr ⟨_, _, peeked, later rest⟩

/-- A decoder that hashes what it has just read, and returns. -/
theorem sha256Since_reads {first : Decoder α} {value : α} (here : first.Reads encoded value)
    (assemble : α → Bytes32 → β) :
    Decoder.Reads (do
      let start ← get
      let value ← first
      let hash ← sha256Since start
      return assemble value hash) encoded (assemble value (sha256 encoded)) := by
  intro rest
  refine Decoder.bind_eq_ok.mpr ⟨encoded ++ rest, encoded ++ rest, rfl, ?_⟩
  refine Decoder.bind_eq_ok.mpr ⟨value, rest, here rest, ?_⟩
  exact Decoder.bind_eq_ok.mpr ⟨_, _, (sha256Since_eq_ok rfl).mpr ⟨rfl, rfl⟩, rfl⟩

end Hashed

end RainbowBridge.Solidity.Borsh
