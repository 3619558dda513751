import RainbowBridge.EthTypes.Receipt
import RainbowBridge.EthashProof.MerkleTree
import RainbowBridge.Lib.TrieOrder

/-! The RLP of receipts and logs as Ethereum has it in the receipts trie, and that the
prover decodes it. -/

namespace RainbowBridge.EthTypes

open Lib
open EthashProof (mapM_eq_map)

def LogEntry.item (entry : LogEntry) : Rlp.Item :=
  .list [.data entry.address.toList, .list (entry.topics.map fun topic => .data topic.toList), .data entry.data]

/-- A receipt as it is encoded. One of a typed transaction has the type in front. -/
structure ReceiptData where
  type : Option UInt8
  status : Bool
  cumulativeGasUsed : U256
  logsBloom : Bloom
  logs : List LogEntry

namespace ReceiptData

def item (receipt : ReceiptData) : Rlp.Item :=
  .list [.data (if receipt.status then [1] else []), .data (uintBytes receipt.cumulativeGasUsed.toNat),
    .data receipt.logsBloom.toList, .list (receipt.logs.map LogEntry.item)]

def encode (receipt : ReceiptData) : Bytes := receipt.type.toList ++ receipt.item.encode

/-- The types of EIP-2718 are below the first bytes of lists. -/
def WellTyped (receipt : ReceiptData) : Prop := ∀ type ∈ receipt.type, type ≤ 0x7f

/-- The bloom filter alone is longer than a hash. -/
theorem long (receipt : ReceiptData) : 32 ≤ receipt.encode.length := by
  have bloom : receipt.logsBloom.toList.length < receipt.item.encode.length := Rlp.length_data_lt (by simp)
  rw [List.Vector.toList_length] at bloom
  rw [encode, List.length_append]
  omega

theorem length_item_le (receipt : ReceiptData) : receipt.item.encode.length ≤ receipt.encode.length := by
  rw [encode, List.length_append]
  exact Nat.le_add_left _ _

end ReceiptData

theorem encodeList_head {payload : Bytes} (fits : payload.length < 2 ^ 64) :
    ∃ first rest, Rlp.encodeList payload = first :: rest ∧ 0xc0 ≤ first.toNat := by
  rw [Rlp.encodeList, Rlp.header]
  split
  · refine ⟨_, _, rfl, ?_⟩
    rw [Rlp.toNat_ofNat _ (by omega)]
    omega
  · have width := Rlp.byteLength_le_eight fits
    refine ⟨_, _, rfl, ?_⟩
    rw [Rlp.toNat_ofNat _ (by omega)]
    omega

/-- What the prover looks at is the receipt without its type. -/
theorem receiptView_encode {receipt : ReceiptData} (typed : receipt.WellTyped)
    (fits : receipt.item.encode.length < 2 ^ 64) : receiptView receipt.encode = receipt.item.encode := by
  cases type : receipt.type with
  | some first =>
    have small : first ≤ 0x7f := typed first (by rw [type]; rfl)
    simp [ReceiptData.encode, receiptView, type, small]
  | none =>
    rw [ReceiptData.item, Rlp.Item.encode] at fits
    obtain ⟨first, rest, whole, large⟩ := encodeList_head (Nat.lt_trans (Rlp.length_lt_encodeList _) fits)
    have list : receipt.item.encode = first :: rest := by rw [ReceiptData.item, Rlp.Item.encode, whole]
    have above : ¬ first ≤ 0x7f := by
      rw [UInt8.le_iff_toNat_le]
      exact Nat.not_le.mpr (Nat.lt_of_lt_of_le (by decide) large)
    simp [ReceiptData.encode, receiptView, type, list, above]

/-- The crate reads a flag. -/
def RlpCrate.ReadsBool (crate : RlpCrate) : Prop :=
  ∀ flag : Bool, crate.bool (Rlp.Item.data (if flag then [1] else [])).encode = some flag

theorem RlpCrate.reference_readsBool : RlpCrate.reference.ReadsBool := by
  intro flag
  cases flag <;> decide

section Documented

variable {crate : RlpCrate} (documented : crate.Documented)

include documented

/-- A list of encoded elements, element by element. -/
theorem listAt_map {α : Type} {content : List Rlp.Item} {index : Nat} {elements : List α}
    {element : Bytes → Option α} {item : α → Rlp.Item}
    (fits : (Rlp.Item.list content).encode.length < 2 ^ 64)
    (found : content[index]? = some (.list (elements.map item)))
    (each : ∀ value ∈ elements, (item value).encode.length < 2 ^ 64 →
      element (item value).encode = some value) :
    crate.listAt element (Rlp.Item.list content).encode index = some elements := by
  have inside : (Rlp.Item.list (elements.map item)).encode.length < 2 ^ 64 := RlpCrate.length_encode_lt fits found
  rw [RlpCrate.listAt, documented.get fits found]
  simp only [Option.bind_eq_bind, Option.bind_some, documented.items_list _ inside, List.map_map, List.mapM_map]
  have mapped := mapM_eq_map (f := element ∘ Rlp.Item.encode ∘ item) (g := id) fun value member =>
    each value member (Nat.lt_trans (Rlp.length_item_lt (List.mem_map_of_mem member)) inside)
  rw [List.map_id] at mapped
  exact mapped

theorem LogEntry.decode_item (entry : LogEntry) (fits : entry.item.encode.length < 2 ^ 64) :
    LogEntry.decode crate entry.item.encode = some entry := by
  have address : crate.fixedAt 20 entry.item.encode 0 = some entry.address := documented.fixedAt fits rfl
  have topics : crate.listAt (crate.fixed 32) entry.item.encode 1 = some entry.topics :=
    listAt_map documented fits rfl fun topic _ small => documented.fixed_data 32 topic small
  have data : crate.bytesAt entry.item.encode 2 = some entry.data := documented.bytesAt fits rfl
  simp only [LogEntry.decode, address, topics, data, Option.bind_eq_bind, Option.bind_some, Option.pure_def]

/-- The prover decodes the receipts of the trie, with all logs in their order. -/
theorem Receipt.decode_encode (readsBool : crate.ReadsBool) {receipt : ReceiptData} (typed : receipt.WellTyped)
    (fits : receipt.item.encode.length < 2 ^ 64) (addressable : receipt.logs.length < 2 ^ 32) :
    Receipt.decode crate receipt.encode = some { receipt with
      gasUsed := receipt.cumulativeGasUsed, logBloom := receipt.logsBloom, addressable } := by
  have status : crate.get receipt.item.encode 0 >>= crate.bool = some receipt.status := by
    have flag : crate.get receipt.item.encode 0 = _ := documented.get fits rfl
    rw [flag]
    exact readsBool receipt.status
  have gasUsed : crate.uintAt 256 receipt.item.encode 1 = some receipt.cumulativeGasUsed :=
    documented.uintAt fits (Nat.le_refl _) rfl
  have logBloom : crate.fixedAt 256 receipt.item.encode 2 = some receipt.logsBloom := documented.fixedAt fits rfl
  have logs : crate.listAt (LogEntry.decode crate) receipt.item.encode 3 = some receipt.logs :=
    listAt_map documented fits rfl fun entry _ small => LogEntry.decode_item documented entry small
  rw [Receipt.decode, receiptView_encode typed fits]
  simp only [status, gasUsed, logBloom, logs, Option.bind_eq_bind, Option.bind_some, addressable, dif_pos,
    Option.pure_def]

end Documented

end RainbowBridge.EthTypes
