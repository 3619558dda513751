import RainbowBridge.Solidity.NearDecoder
import Mathlib.Data.List.Forall2

/-! What the encoders in `utils` share: the functions of Node and of packages that
they call, and the light part of a header. A call that throws has no result. -/

namespace RainbowBridge.Utils

open Lib Solidity

/-- Text decoders that come from packages and from Node. -/
class Packages where
  /-- `bs58.decode(text)`, which throws on a character outside its alphabet. -/
  bs58 : String → Option Bytes
  /-- `Buffer.from(text, 'base64')`, which skips such characters. -/
  base64 : String → Bytes

export Packages (bs58 base64)

/-- `Web3.utils.toBN(value).toBuffer('le', width)`. It throws when the number does
not fit. A decimal string is read as it stands; a JavaScript Number is taken for the
integer it holds, which is exact below `2 ^ 53`. -/
def toBuffer (value width : Nat) : Option Bytes :=
  if value < 256 ^ width then some (leBytes width value) else none

/-- `text.length`, in UTF-16 code units. -/
def codeUnits (text : String) : Nat :=
  text.toList.foldr (fun char units => (if char.toNat < 0x10000 then 1 else 2) + units) 0

/-- `Buffer.from(text, 'utf8')`. -/
def utf8 (text : String) : Bytes := text.toList.flatMap String.utf8EncodeChar

/-- `Buffer.concat(parts)`, with the parts computed from left to right. -/
def concat : List (Option Bytes) → Option Bytes
  | [] => some []
  | part :: parts => do
    let front ← part
    let rest ← concat parts
    return front ++ rest

def Ascii (text : String) : Prop := ∀ char ∈ text.toList, char.toNat < 128

instance (text : String) : Decidable (Ascii text) :=
  List.decidableBAll (fun char : Char => char.toNat < 128) text.toList

/-- A base58 text of 32 bytes. -/
def IsHash [Packages] (text : String) : Prop := ∃ word : Bytes32, bs58 text = some word.toList

/-- `inner_lite` of a header. `timestamp_nanosec` is a decimal string where it is
given, so that it is never falsy. `height` and `timestamp` stand for the integers that
Numbers hold exactly, those below `2 ^ 53`, or for decimal strings. -/
structure InnerLite where
  height : Nat
  epochId : String
  nextEpochId : String
  prevStateRoot : String
  outcomeRoot : String
  timestampNanosec : Option Nat
  timestamp : Nat
  nextBpHash : String
  blockMerkleRoot : String

/-- `inner_lite.timestamp_nanosec || inner_lite.timestamp`. -/
def InnerLite.time (lite : InnerLite) : Nat := lite.timestampNanosec.getD lite.timestamp

/-- The eight buffers that both encoders write for it. -/
def InnerLite.parts [Packages] (lite : InnerLite) : List (Option Bytes) :=
  [toBuffer lite.height 8, bs58 lite.epochId, bs58 lite.nextEpochId, bs58 lite.prevStateRoot,
    bs58 lite.outcomeRoot, toBuffer lite.time 8, bs58 lite.nextBpHash, bs58 lite.blockMerkleRoot]

structure InnerLite.WellFormed [Packages] (lite : InnerLite) : Prop where
  height : lite.height < 2 ^ 64
  epochId : IsHash lite.epochId
  nextEpochId : IsHash lite.nextEpochId
  prevStateRoot : IsHash lite.prevStateRoot
  outcomeRoot : IsHash lite.outcomeRoot
  time : lite.time < 2 ^ 64
  nextBpHash : IsHash lite.nextBpHash
  blockMerkleRoot : IsHash lite.blockMerkleRoot

/-- The decoded fields are those of the object. -/
structure InnerLite.Same [Packages] (lite : InnerLite) (decoded : BlockHeaderInnerLite) : Prop where
  height : decoded.height.toNat = lite.height
  epochId : bs58 lite.epochId = some decoded.epochId.toList
  nextEpochId : bs58 lite.nextEpochId = some decoded.nextEpochId.toList
  prevStateRoot : bs58 lite.prevStateRoot = some decoded.prevStateRoot.toList
  outcomeRoot : bs58 lite.outcomeRoot = some decoded.outcomeRoot.toList
  timestamp : decoded.timestamp.toNat = lite.time
  nextBpHash : bs58 lite.nextBpHash = some decoded.nextBpHash.toList
  blockMerkleRoot : bs58 lite.blockMerkleRoot = some decoded.blockMerkleRoot.toList

theorem toBuffer_eq {value width : Nat} (fits : value < 256 ^ width) :
    toBuffer value width = some (leBytes width value) :=
  if_pos fits

@[simp] theorem concat_nil : concat [] = some [] := rfl

@[simp] theorem concat_cons_some (front : Bytes) (parts : List (Option Bytes)) :
    concat (some front :: parts) = (concat parts).map (front ++ ·) := by
  cases rest : concat parts <;> simp [concat, rest]

/-- Buffers that can all be computed are joined. -/
theorem concat_map {α β : Type} {part : α → Option Bytes} {bytes : β → Bytes} {items : List α}
    {others : List β} (computed : List.Forall₂ (fun item other => part item = some (bytes other)) items others) :
    concat (items.map part) = some (others.flatMap bytes) := by
  induction computed with
  | nil => rfl
  | cons here _ ih =>
    rw [List.map_cons, here, concat_cons_some, ih]
    rfl

theorem exists_forall₂ {α β : Type} {related : α → β → Prop} {items : List α}
    (each : ∀ item ∈ items, ∃ other, related item other) : ∃ others, List.Forall₂ related items others := by
  induction items with
  | nil => exact ⟨[], .nil⟩
  | cons item items ih =>
    obtain ⟨other, here⟩ := each item (by simp)
    obtain ⟨others, later⟩ := ih fun item member => each item (by simp [member])
    exact ⟨other :: others, .cons here later⟩

/-- What holds of one member of each pair holds of the other. -/
theorem forall_iff_of_forall₂ {α β : Type} {left : α → Prop} {right : β → Prop} {items : List α}
    {others : List β} (pairs : List.Forall₂ (fun item other => left item ↔ right other) items others) :
    (∀ item ∈ items, left item) ↔ ∀ other ∈ others, right other := by
  induction pairs with
  | nil => simp
  | cons here _ ih => rw [List.forall_mem_cons, List.forall_mem_cons, here, ih]

theorem forall_right_of_forall₂ {α β : Type} {property : β → Prop} {items : List α} {others : List β}
    (pairs : List.Forall₂ (fun _ other => property other) items others) :
    ∀ other ∈ others, property other := by
  have trivially : ∀ item ∈ items, True := fun _ _ => True.intro
  exact (forall_iff_of_forall₂ (pairs.imp fun _ _ holds => (true_iff _).mpr holds)).mp trivially

/-- In ASCII, characters, code units and bytes are the same. -/
theorem utf8_ascii {text : String} (ascii : Ascii text) :
    utf8 text = text.toList.map fun char => UInt8.ofNat char.toNat := by
  unfold utf8
  unfold Ascii at ascii
  generalize text.toList = chars at ascii ⊢
  induction chars with
  | nil => rfl
  | cons char chars ih =>
    have small : char.toNat ≤ 0x7f := Nat.le_of_lt_succ (ascii char (by simp))
    have single : String.utf8EncodeChar char = [UInt8.ofNat char.toNat] := if_pos small
    rw [List.flatMap_cons, single, ih fun other member => ascii other (by simp [member])]
    rfl

theorem codeUnits_ascii {text : String} (ascii : Ascii text) : codeUnits text = (utf8 text).length := by
  rw [utf8_ascii ascii]
  unfold codeUnits
  unfold Ascii at ascii
  generalize text.toList = chars at ascii ⊢
  induction chars with
  | nil => rfl
  | cons char chars ih =>
    have small : char.toNat < 0x10000 := Nat.lt_trans (ascii char (by simp)) (by decide)
    have tail := ih fun other member => ascii other (by simp [member])
    rw [List.foldr_cons, tail, if_pos small, List.map_cons, List.length_cons, Nat.add_comm]

/-- The eight buffers are the light part of the header as the contracts hash it. -/
theorem InnerLite.concat_parts [Packages] {lite : InnerLite} {decoded : BlockHeaderInnerLite}
    (same : lite.Same decoded) (after : List (Option Bytes)) :
    concat (lite.parts ++ after) = (concat after).map (NearDecoder.encodeInnerLite decoded ++ ·) := by
  have height : toBuffer lite.height 8 = some (leBytes 8 decoded.height.toNat) := by
    rw [← same.height]
    exact toBuffer_eq (by simpa using decoded.height.isLt)
  have time : toBuffer lite.time 8 = some (leBytes 8 decoded.timestamp.toNat) := by
    rw [← same.timestamp]
    exact toBuffer_eq (by simpa using decoded.timestamp.isLt)
  simp only [InnerLite.parts, List.cons_append, List.nil_append, height, time, same.epochId,
    same.nextEpochId, same.prevStateRoot, same.outcomeRoot, same.nextBpHash, same.blockMerkleRoot,
    concat_cons_some, Option.map_map]
  congr 1
  funext rest
  simp [NearDecoder.encodeInnerLite]

/-- A well-formed object is the light part of some header. -/
theorem InnerLite.WellFormed.exists_same [Packages] [Hashing] {lite : InnerLite}
    (wellFormed : lite.WellFormed) :
    ∃ decoded : BlockHeaderInnerLite, lite.Same decoded ∧
      decoded.hash = sha256 (NearDecoder.encodeInnerLite decoded) := by
  obtain ⟨epochId, e₁⟩ := wellFormed.epochId
  obtain ⟨nextEpochId, e₂⟩ := wellFormed.nextEpochId
  obtain ⟨prevStateRoot, e₃⟩ := wellFormed.prevStateRoot
  obtain ⟨outcomeRoot, e₄⟩ := wellFormed.outcomeRoot
  obtain ⟨nextBpHash, e₅⟩ := wellFormed.nextBpHash
  obtain ⟨blockMerkleRoot, e₆⟩ := wellFormed.blockMerkleRoot
  let unhashed : BlockHeaderInnerLite := ⟨BitVec.ofNat 64 lite.height, epochId, nextEpochId,
    prevStateRoot, outcomeRoot, BitVec.ofNat 64 lite.time, nextBpHash, blockMerkleRoot, zeroBytes 32⟩
  refine ⟨{ unhashed with hash := sha256 (NearDecoder.encodeInnerLite unhashed) },
    ⟨?_, e₁, e₂, e₃, e₄, ?_, e₅, e₆⟩, rfl⟩
  · exact Nat.mod_eq_of_lt wellFormed.height
  · exact Nat.mod_eq_of_lt wellFormed.time

/-- The contract accepts nothing of what was encoded. -/
theorem not_accepted {α : Type} {encoded : Option Bytes} {decoder : Borsh.Decoder α}
    (refused : encoded.map (fun data => (Borsh.decodeAll decoder data).isOk) = some false)
    {data : Bytes} {decoded : α} (sent : encoded = some data) :
    Borsh.decodeAll decoder data ≠ .ok decoded := by
  intro accepted
  rw [sent, Option.map_some, accepted] at refused
  cases refused

def base58Alphabet : String := "123456789ABCDEFGHJKLMNPQRSTUVWXYZabcdefghijkmnopqrstuvwxyz"

/-- The base58 decoding that `bs58` documents. -/
def base58Decode (text : String) : Option Bytes := do
  let digits ← text.toList.mapM fun char => base58Alphabet.toList.idxOf? char
  let zeros := digits.takeWhile (· = 0)
  return zeros.map (fun _ => 0) ++ uintBytes (digits.foldl (fun value digit => 58 * value + digit) 0)

/-- Enough for the samples, in which only the empty text is read as base64. -/
abbrev samplePackages : Packages := ⟨base58Decode, fun _ => []⟩

def zeroHash : String := "11111111111111111111111111111111"

theorem zeroHash_isHash : @IsHash samplePackages zeroHash := ⟨zeroBytes 32, by decide +kernel⟩

def oneHash : String := "11111111111111111111111111111112"

theorem oneHash_isHash : @IsHash samplePackages oneHash :=
  ⟨⟨(zeroBytes 31).toList ++ [1], by decide⟩, by decide +kernel⟩

def sampleLite : InnerLite :=
  ⟨1, zeroHash, zeroHash, zeroHash, zeroHash, none, 2, zeroHash, zeroHash⟩

def sampleId : String := "near"

theorem sampleId_ascii : Ascii sampleId := by decide +kernel

theorem sampleId_short : codeUnits sampleId < 2 ^ 32 := by
  have four : codeUnits sampleId = 4 := by decide +kernel
  omega

theorem sampleLite_wellFormed : @InnerLite.WellFormed samplePackages sampleLite :=
  @InnerLite.WellFormed.mk samplePackages sampleLite (by decide) zeroHash_isHash zeroHash_isHash
    zeroHash_isHash zeroHash_isHash (by decide) zeroHash_isHash zeroHash_isHash

end RainbowBridge.Utils
