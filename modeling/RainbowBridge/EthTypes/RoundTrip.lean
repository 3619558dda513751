import RainbowBridge.EthTypes.Header

/-! `rlp::encode` of a header and back. Without the `eip1559` feature the encoding
is Ethereum's; with it, the list is declared one item too short and the base fee
stands where the decoder looks for the mix hash. -/

namespace RainbowBridge.EthTypes

open Lib

/-- What the crate promises about bytes after a list, and about a string that is
not as wide as the hash type it is read as. -/
structure RlpCrate.Strict (crate : RlpCrate) : Prop extends crate.Documented where
  get_followed : ∀ (content : List Rlp.Item) (rest : Bytes) (index : Nat) (item : Rlp.Item),
    (Rlp.Item.list content).encode.length < 2 ^ 64 → content[index]? = some item →
    crate.get ((Rlp.Item.list content).encode ++ rest) index = some item.encode
  fixed_other : ∀ (width : Nat) (body : Bytes), (Rlp.Item.data body).encode.length < 2 ^ 64 →
    body.length ≠ width → crate.fixed width (Rlp.Item.data body).encode = none

theorem RlpCrate.reference_strict : reference.Strict where
  toDocumented := reference_documented
  get_followed := by
    intro content rest index item fits found
    rw [Rlp.Item.encode] at fits
    have small := Nat.lt_trans (Rlp.length_lt_encodeList _) fits
    simp only [RlpCrate.get, reference, Rlp.items, Rlp.Item.encode, Rlp.split_encodeList small rest,
      Rlp.rawItems_encodeAll content _ (Rlp.length_le_encodeAll content) small]
    simp [found]
  fixed_other := by
    intro width body fits other
    simp [reference, Rlp.bytes, Rlp.split_data fits, other]

/-- `rlp::encode(&header)`. -/
def BlockHeader.rlpEncode (crate : RlpCrate) (header : BlockHeader) : Bytes :=
  crate.out (streamRlp crate header false crate.newStream)

theorem rlpEncode_eq {crate : RlpCrate} (documented : crate.Documented) {header : BlockHeader}
    (off : header.baseFeePerGas = none) :
    header.rlpEncode crate = header.toHeaderFields.encode none := by
  unfold BlockHeader.rlpEncode streamRlp
  rw [if_neg (by decide), documented.out_eq (13 + 2) _ (by decide) (by simp [streamItems])]
  simp [streamItems, off, documented.encodeBytes_eq, documented.encodeUint_eq, HeaderFields.encode,
    HeaderFields.sealedItems, feeItems, Rlp.encodeAll, Rlp.Item.encode, Rlp.encodeUint]

/-- With a base fee the list ends before the nonce, which follows it. -/
theorem rlpEncode_fee {crate : RlpCrate} (documented : crate.Documented) {header : BlockHeader}
    {baseFee : BitVec 64} (on : header.baseFeePerGas = some baseFee) :
    header.rlpEncode crate =
      (Rlp.Item.list (header.sealedItems ++
        [.data (uintBytes baseFee.toNat), .data header.mixHash.toList])).encode ++
      Rlp.encodeBytes header.nonce.toList := by
  unfold BlockHeader.rlpEncode streamRlp
  rw [if_neg (by decide), documented.out_eq (13 + 2) _ (by decide) (by simp [streamItems])]
  simp [streamItems, on, documented.encodeBytes_eq, documented.encodeUint_eq,
    HeaderFields.sealedItems, Rlp.encodeAll, Rlp.Item.encode, Rlp.encodeUint]

variable [Hashing]

/-- Decoding gives back every consensus field, and the block hash that Ethereum
gives a header with these fields. -/
def BlockHeader.RoundTrips (crate : RlpCrate) (eip1559 : Bool) (header : BlockHeader) : Prop :=
  ∃ decoded, BlockHeader.decode crate eip1559 (header.rlpEncode crate) = some decoded ∧
    decoded.toHeaderFields = header.toHeaderFields ∧
    decoded.baseFeePerGas = header.baseFeePerGas ∧
    decoded.hash = some (keccak256 (header.rlpEncode crate)) ∧
    decoded.hash = some (keccak256 (header.toHeaderFields.encode header.baseFeePerGas))

/-- The decoder reads the mix hash at index 13, where no hash stands. -/
theorem decode_of_mixHash {crate : RlpCrate} {eip1559 : Bool} {serialized : Bytes}
    (missing : crate.fixedAt 32 serialized 13 = none) :
    BlockHeader.decode crate eip1559 serialized = none := by
  unfold BlockHeader.decode
  simp [missing]

/-- The round trip works exactly when the feature is off. -/
theorem round_trip_iff (crate : RlpCrate) (strict : crate.Strict) (eip1559 : Bool)
    (header : BlockHeader) (layout : header.baseFeePerGas.isSome = eip1559)
    (fits : (header.rlpEncode crate).length < 2 ^ 64) :
    header.RoundTrips crate eip1559 ↔ eip1559 = false := by
  cases fee : header.baseFeePerGas with
  | none =>
    obtain rfl : false = eip1559 := by simpa [fee] using layout
    have encoded := rlpEncode_eq strict.toDocumented fee
    rw [encoded] at fits
    have decoded := decode_encode strict.toDocumented false header.toHeaderFields none (by simp) fits
    rw [BlockHeader.RoundTrips, encoded, decoded, fee]
    simp
  | some baseFee =>
    obtain rfl : true = eip1559 := by simpa [fee] using layout
    have encoded := rlpEncode_fee strict.toDocumented fee
    -- the item at index 13 is the base fee, of at most eight bytes
    have short : (uintBytes baseFee.toNat).length ≤ 8 := by
      simpa using byteLength_le (show baseFee.toNat < 256 ^ 8 from baseFee.isLt)
    have missing : crate.fixedAt 32 (header.rlpEncode crate) 13 = none := by
      rw [encoded, List.length_append] at fits
      have listed := strict.get_followed _ (Rlp.encodeBytes header.nonce.toList) 13
        (.data (uintBytes baseFee.toNat)) (Nat.lt_of_le_of_lt (Nat.le_add_right _ _) fits) rfl
      have narrow := RlpCrate.length_encode_lt (Nat.lt_of_le_of_lt (Nat.le_add_right _ _) fits)
        (show (header.sealedItems ++ [.data (uintBytes baseFee.toNat),
          .data header.mixHash.toList])[13]? = some (.data (uintBytes baseFee.toNat)) from rfl)
      rw [RlpCrate.fixedAt, encoded, listed]
      exact strict.fixed_other 32 _ narrow (by omega)
    simp [BlockHeader.RoundTrips, decode_of_mixHash missing]

/-- The sample header, with a base fee. -/
def sampleLondon : BlockHeader :=
  { sampleHeader with baseFeePerGas := some 7, hash := none, partialHash := none }

omit [Hashing] in
theorem round_trip_iff_sample :
    letI := Hashing.platform
    sampleLondon.RoundTrips .reference true ↔ true = false := by
  let := Hashing.platform
  exact round_trip_iff .reference RlpCrate.reference_strict true sampleLondon rfl (by decide +kernel)

omit [Hashing] in
theorem london_not_decoded :
    letI := Hashing.platform
    BlockHeader.decode .reference true (sampleLondon.rlpEncode .reference) = none ∧
      ¬ sampleLondon.RoundTrips .reference true := by
  let := Hashing.platform
  have refused : (BlockHeader.decode .reference true (sampleLondon.rlpEncode .reference)).isNone := by
    decide +kernel
  have none := Option.isNone_iff_eq_none.mp refused
  exact ⟨none, by simp [BlockHeader.RoundTrips, none]⟩

end RainbowBridge.EthTypes
