import RainbowBridge.EthTypes.Header

/-! Receipts and their logs as the prover decodes them. -/

namespace RainbowBridge.EthTypes

open Lib

structure LogEntry where
  address : H160
  topics : List H256
  data : Bytes
deriving DecidableEq

/-- A decoded receipt. Its logs stand in the 32-bit memory of the contract. -/
structure Receipt where
  status : Bool
  gasUsed : U256
  logBloom : Bloom
  logs : List LogEntry
  addressable : logs.length < 2 ^ 32

def LogEntry.decode (crate : RlpCrate) (raw : Bytes) : Option LogEntry := do
  let address ← crate.fixedAt 20 raw 0
  let topics ← crate.listAt (crate.fixed 32) raw 1
  let data ← crate.bytesAt raw 2
  return { address, topics, data }

/-- A first byte up to `0x7f` is the type of an EIP-2718 envelope. -/
def receiptView : Bytes → Bytes
  | [] => []
  | first :: rest => if first ≤ 0x7f then rest else first :: rest

def Receipt.decode (crate : RlpCrate) (raw : Bytes) : Option Receipt := do
  let view := receiptView raw
  let status ← crate.get view 0 >>= crate.bool
  let gasUsed ← crate.uintAt 256 view 1
  let logBloom ← crate.fixedAt 256 view 2
  let logs ← crate.listAt (LogEntry.decode crate) view 3
  if addressable : logs.length < 2 ^ 32 then
    return { status, gasUsed, logBloom, logs, addressable }
  else none

/-- There is no receipt in the empty string. -/
theorem Receipt.decode_nil {crate : RlpCrate} (documented : crate.Documented) :
    Receipt.decode crate [] = none := by
  have missing : crate.get [] 0 = none := by simp [RlpCrate.get, documented.items_nil]
  simp [Receipt.decode, receiptView, missing]

end RainbowBridge.EthTypes
