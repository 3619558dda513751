import RainbowBridge.EthProver.Completeness
import RainbowBridge.EthProver.Events
import RainbowBridge.EthTypes.ReceiptRlp

/-! The extractor of event proofs, `eth-proof-extractor.js`, against the prover that is
to accept them. The libraries for Ethereum objects and tries are parameters. -/

namespace RainbowBridge.Relay

open Lib EthTypes EthProver Near

/-- A log of a receipt, with its position among all logs of the block. -/
structure Web3Log where
  logIndex : Nat
  entry : LogEntry

structure Web3Receipt where
  blockNumber : Nat
  transactionIndex : Nat
  type : Option UInt8
  status : Bool
  cumulativeGasUsed : U256
  logsBloom : Bloom
  logs : List Web3Log

structure Web3Block where
  number : Nat
  transactions : List H256
  fields : HeaderFields
  baseFee : Option (BitVec 64)

def Web3Receipt.data (receipt : Web3Receipt) : ReceiptData :=
  { receipt with logs := receipt.logs.map Web3Log.entry }

/-- What an Ethereum node answers. -/
structure EthNode where
  getTransactionReceipt : H256 → Option Web3Receipt
  getBlock : Nat → Option Web3Block

/-- `eth-util-lite`, `eth-object` and `merkle-patricia-tree`. -/
structure EthPackages where
  encode : Nat → Bytes
  /-- `Receipt.fromWeb3(result).serialize()`, and so for the others. -/
  serializeReceipt : Web3Receipt → Bytes
  serializeLog : Web3Log → Bytes
  serializeHeader : Web3Block → Bytes
  Tree : Type
  newTree : Tree
  put : Tree → Bytes → Bytes → Tree
  Node : Type
  /-- The stack that `findPath` gives. -/
  findPath : Tree → Bytes → List Node
  /-- `rlp.encode` of a node as `Proof.fromStack` has it. -/
  encodeNode : Node → Bytes

/-- The trie of some values, by the nibbles of their keys. -/
def trieOf (puts : List (Bytes × Bytes)) : Trie :=
  let paths := puts.map fun put => (nibbles put.1, put.2)
  Trie.ofEntries (Trie.longest paths) paths

/-- The receipts of a block by their index. -/
def receiptPuts (receipts : List Web3Receipt) : List (Bytes × Bytes) :=
  receipts.map fun receipt => (Rlp.encodeUint receipt.transactionIndex, receipt.data.encode)

/-- What the packages promise. -/
structure EthPackages.Documented [Hashing] (packages : EthPackages) : Prop where
  encode : ∀ value < 2 ^ 64, packages.encode value = Rlp.encodeUint value
  receipt : ∀ receipt, packages.serializeReceipt receipt = receipt.data.encode
  log : ∀ log, packages.serializeLog log = log.entry.item.encode
  header : ∀ block, packages.serializeHeader block = block.fields.encode block.baseFee
  path : ∀ (puts : List (Bytes × Bytes)) (key : Bytes), (puts.map Prod.fst).Nodup → key ∈ puts.map Prod.fst →
    (∀ put ∈ puts, put.2 ≠ []) →
      (packages.findPath (puts.foldl (fun tree put => packages.put tree put.1 put.2) packages.newTree) key).map
        packages.encodeNode = honestProof (trieOf puts) key

/-- What is printed for the locker. -/
structure ProofLocker where
  logIndex : Nat
  logEntryData : Bytes
  receiptIndex : Nat
  receiptData : Bytes
  headerData : Bytes
  proof : List Bytes

/-- The log with an index in the block, and its position in the receipt. -/
def findLog (logIndex : Nat) : List Web3Log → Nat → Option (Nat × Web3Log)
  | [], _ => none
  | log :: rest, txLogIndex =>
    if log.logIndex = logIndex then some (txLogIndex, log) else findLog logIndex rest (txLogIndex + 1)

section

variable (packages : EthPackages) (node : EthNode)

/-- `buildTrie`. The insertions wait for each other in the order in which they come
first, which is up to the scheduler. -/
def buildTrie (arrival : List Web3Receipt → List Web3Receipt) (block : Web3Block) : Option packages.Tree := do
  let blockReceipts ← block.transactions.mapM node.getTransactionReceipt
  return (arrival blockReceipts).foldl
    (fun tree receipt => packages.put tree (packages.encode receipt.transactionIndex) (packages.serializeReceipt receipt))
    packages.newTree

/-- `ethToNearFindProof` for the log with an index in a block. -/
def ethToNearFindProof (arrival : List Web3Receipt → List Web3Receipt) (transactionHash : H256)
    (logIndex : Nat) : Option ProofLocker := do
  let receipt ← node.getTransactionReceipt transactionHash
  let block ← node.getBlock receipt.blockNumber
  let tree ← buildTrie packages node arrival block
  let receiptProof := packages.findPath tree (packages.encode receipt.transactionIndex)
  let blockData ← node.getBlock block.number
  let (txLogIndex, log) ← findLog logIndex receipt.logs 0
  return {
    logIndex := txLogIndex
    logEntryData := packages.serializeLog log
    receiptIndex := receipt.transactionIndex
    receiptData := packages.serializeReceipt receipt
    headerData := packages.serializeHeader blockData
    proof := receiptProof.map packages.encodeNode }

end

/-- The arguments of `verify_log_entry` for the locker's proof. -/
def ProofLocker.call (locker : ProofLocker) (skipBridgeCall : Bool) : LogProof :=
  { locker with
    logIndex := BitVec.ofNat 64 locker.logIndex
    receiptIndex := BitVec.ofNat 64 locker.receiptIndex
    skipBridgeCall }

/-- The node has the block with its receipts, and the header has the root of their trie. -/
structure Honest [Hashing] (node : EthNode) (block : Web3Block) (receipts : List Web3Receipt) : Prop where
  held : node.getBlock block.number = some block
  fetched : block.transactions.mapM node.getTransactionReceipt = some receipts
  positions : ∀ i (receipt : Web3Receipt), receipts[i]? = some receipt →
    receipt.transactionIndex = i ∧ receipt.blockNumber = block.number
  few : receipts.length ≤ 2 ^ 32
  typed : ∀ receipt ∈ receipts, receipt.data.WellTyped
  root : block.fields.receiptsRoot = (trieOf (receiptPuts receipts)).root keccak256
  encodable : (trieOf (receiptPuts receipts)).Encodable keccak256

theorem findLog_eq_some {logIndex : Nat} {logs : List Web3Log} {start position : Nat} {log : Web3Log}
    (found : findLog logIndex logs start = some (position, log)) :
    start ≤ position ∧ logs[position - start]? = some log ∧ log.logIndex = logIndex := by
  induction logs generalizing start with
  | nil => cases found
  | cons first rest ih =>
    rw [findLog] at found
    split at found
    · rename_i same
      cases found
      exact ⟨Nat.le_refl _, by simp, same⟩
    · obtain ⟨after, there, same⟩ := ih found
      refine ⟨by omega, ?_, same⟩
      rw [show position - start = position - (start + 1) + 1 by omega, List.getElem?_cons_succ]
      exact there

/-- A log of the receipt is found. -/
theorem findLog_isSome {logIndex : Nat} {logs : List Web3Log} (start : Nat)
    (member : ∃ log ∈ logs, log.logIndex = logIndex) : ∃ position log, findLog logIndex logs start = some (position, log) := by
  induction logs generalizing start with
  | nil => simp at member
  | cons first rest ih =>
    rw [findLog]
    split
    · exact ⟨start, first, rfl⟩
    · rename_i other
      apply ih
      obtain ⟨log, inside, same⟩ := member
      rcases List.mem_cons.mp inside with rfl | later
      · exact absurd same other
      · exact ⟨log, later, same⟩

section Trie

theorem paths_distinct {puts : List (Bytes × Bytes)} (distinct : (puts.map Prod.fst).Nodup) :
    ((puts.map fun put => (nibbles put.1, put.2)).map Prod.fst).Nodup := by
  have keys : (puts.map fun put => (nibbles put.1, put.2)).map Prod.fst = (puts.map Prod.fst).map nibbles := by
    simp
  rw [keys]
  exact distinct.map nibbles_injective

/-- The order of the insertions does not matter. -/
theorem trieOf_perm {puts other : List (Bytes × Bytes)} (same : puts.Perm other)
    (distinct : (puts.map Prod.fst).Nodup) : trieOf puts = trieOf other := by
  have paths := same.map fun put : Bytes × Bytes => (nibbles put.1, put.2)
  rw [trieOf, trieOf]
  simp only [Trie.longest_perm paths, Trie.ofEntries_perm paths (paths_distinct distinct)]

theorem find_trieOf {puts : List (Bytes × Bytes)} (distinct : (puts.map Prod.fst).Nodup)
    (filled : ∀ put ∈ puts, put.2 ≠ []) {key value : Bytes} (member : (key, value) ∈ puts) :
    (trieOf puts).find (nibbles key) = some value :=
  Trie.find_ofMap ⟨puts, distinct, filled⟩ member

end Trie

section Honest

variable [Hashing] {node : EthNode} {block : Web3Block} {receipts : List Web3Receipt}
  (honest : Honest node block receipts)

include honest

theorem Honest.keys : (receiptPuts receipts).map Prod.fst = (List.range receipts.length).map Rlp.encodeUint := by
  apply List.ext_getElem (by simp [receiptPuts])
  intro i inside _
  have bound : i < receipts.length := by simpa [receiptPuts] using inside
  have position := (honest.positions i receipts[i] (List.getElem?_eq_getElem bound)).1
  simp [receiptPuts, position]

theorem Honest.distinct : ((receiptPuts receipts).map Prod.fst).Nodup := by
  have few := honest.few
  rw [honest.keys]
  refine List.nodup_range.map_on fun i inside j inside' same => ?_
  rw [List.mem_range] at inside inside'
  have bound (k : Nat) (small : k < 2 ^ 32) : k < 256 ^ 32 := Nat.lt_trans small (by decide)
  exact Rlp.encodeUint_inj (bound i (by omega)) (bound j (by omega)) same

omit [Hashing] honest in
theorem filled_receiptPuts (put : Bytes × Bytes) (member : put ∈ receiptPuts receipts) : put.2 ≠ [] := by
  obtain ⟨receipt, -, rfl⟩ := List.mem_map.mp member
  have long := receipt.data.long
  exact List.ne_nil_of_length_pos (by simp only; omega)

/-- A receipt of the block, under its index. -/
theorem Honest.find {receipt : Web3Receipt} (member : receipt ∈ receipts) :
    (trieOf (receiptPuts receipts)).find (nibbles (Rlp.encodeUint receipt.transactionIndex)) =
      some receipt.data.encode :=
  find_trieOf honest.distinct filled_receiptPuts (List.mem_map.mpr ⟨receipt, member, rfl⟩)

/-- A receipt is at its index in its block. -/
theorem Honest.placed {receipt : Web3Receipt} (member : receipt ∈ receipts) :
    receipts[receipt.transactionIndex]? = some receipt ∧ receipt.blockNumber = block.number := by
  obtain ⟨i, held⟩ := List.mem_iff_getElem?.mp member
  obtain ⟨position, number⟩ := honest.positions i receipt held
  exact ⟨by rw [position, held], number⟩

theorem Honest.index_lt {receipt : Web3Receipt} (member : receipt ∈ receipts) :
    receipt.transactionIndex < 2 ^ 32 := by
  obtain ⟨inside, -⟩ := List.getElem?_eq_some_iff.mp (honest.placed member).1
  exact Nat.lt_of_lt_of_le inside honest.few

/-- The nodes that are found, in whatever order the receipts come in. -/
theorem Honest.stack {packages : EthPackages} (described : packages.Documented)
    {arrived : List Web3Receipt} (reordered : arrived.Perm receipts) {receipt : Web3Receipt}
    (member : receipt ∈ receipts) :
    (packages.findPath (arrived.foldl (fun tree receipt =>
        packages.put tree (packages.encode receipt.transactionIndex) (packages.serializeReceipt receipt))
        packages.newTree) (packages.encode receipt.transactionIndex)).map packages.encodeNode =
      honestProof (trieOf (receiptPuts receipts)) (Rlp.encodeUint receipt.transactionIndex) := by
  have small (receipt : Web3Receipt) (member : receipt ∈ receipts) : receipt.transactionIndex < 2 ^ 64 :=
    Nat.lt_trans (honest.index_lt member) (by decide)
  have puts : arrived.foldl (fun tree receipt =>
        packages.put tree (packages.encode receipt.transactionIndex) (packages.serializeReceipt receipt))
        packages.newTree =
      (receiptPuts arrived).foldl (fun tree put => packages.put tree put.1 put.2) packages.newTree := by
    rw [receiptPuts, List.foldl_map]
    refine List.foldl_ext _ _ _ fun tree other arrived => ?_
    rw [described.encode _ (small other (reordered.mem_iff.mp arrived)), described.receipt]
  have same : (receiptPuts arrived).Perm (receiptPuts receipts) := reordered.map _
  have distinct := (same.map Prod.fst).nodup_iff.mpr honest.distinct
  rw [puts, described.encode _ (small receipt member), described.path _ _ distinct ?_ filled_receiptPuts,
    trieOf_perm same distinct]
  rw [(same.map Prod.fst).mem_iff]
  exact List.mem_map.mpr ⟨_, List.mem_map.mpr ⟨receipt, member, rfl⟩, rfl⟩

/-- The prover takes the nodes to the receipt: it is so long that none of them stands
inside another. -/
theorem Honest.verify {crate : RlpCrate} (documented : crate.Documented) {receipt : Web3Receipt}
    (member : receipt ∈ receipts) :
    verifyTrieProof crate block.fields.receiptsRoot (Rlp.encodeUint receipt.transactionIndex)
      (honestProof (trieOf (receiptPuts receipts)) (Rlp.encodeUint receipt.transactionIndex)) =
        some receipt.data.encode := by
  have found := honest.find member
  have walk := verify_from_iff documented (trieOf (receiptPuts receipts)) 0 honest.encodable
    (Nat.zero_le (nibbles (Rlp.encodeUint receipt.transactionIndex)).length) found (.inl rfl)
  rw [verifyTrieProof, honestProof, halves_eq, honest.root]
  exact walk.mpr (Trie.hashed_of_long found receipt.data.long)

/-- What stands in the trie of a block is short enough for RLP. -/
theorem Honest.fits {receipt : Web3Receipt} (member : receipt ∈ receipts) :
    receipt.data.item.encode.length < 2 ^ 64 := by
  obtain ⟨string, inside, shorter⟩ : ∃ string ∈ (trieOf (receiptPuts receipts)).encodings keccak256,
      receipt.data.encode.length < string.length := Trie.length_of_find (honest.find member)
  have whole := receipt.data.length_item_le
  have bound := honest.encodable string inside
  omega

/-- What is printed for a log that was emitted. -/
theorem Honest.proof_found {packages : EthPackages} (described : packages.Documented)
    {arrival : List Web3Receipt → List Web3Receipt} (reordered : (arrival receipts).Perm receipts)
    {transactionHash : H256} {receipt : Web3Receipt}
    (fetched : node.getTransactionReceipt transactionHash = some receipt) (member : receipt ∈ receipts)
    {logIndex position : Nat} {log : Web3Log} (found : findLog logIndex receipt.logs 0 = some (position, log)) :
    ethToNearFindProof packages node arrival transactionHash logIndex = some {
      logIndex := position
      logEntryData := log.entry.item.encode
      receiptIndex := receipt.transactionIndex
      receiptData := receipt.data.encode
      headerData := block.fields.encode block.baseFee
      proof := honestProof (trieOf (receiptPuts receipts)) (Rlp.encodeUint receipt.transactionIndex) } := by
  have stack := honest.stack described reordered member
  simp only [ethToNearFindProof, buildTrie, fetched, (honest.placed member).2, honest.held, honest.fetched, found,
    Option.bind_eq_bind, Option.bind_some, Option.pure_def]
  rw [stack, described.log, described.receipt, described.header]

/-- The prover goes through all its checks on such a proof. -/
theorem Honest.verified {crate : RlpCrate} (documented : crate.Documented) (readsBool : crate.ReadsBool)
    {eip1559 : Bool} (given : eip1559 = true → block.baseFee.isSome = true)
    (headerFits : (block.fields.encode block.baseFee).length < 2 ^ 64) {receipt : Web3Receipt}
    (member : receipt ∈ receipts) (few : receipt.logs.length < 2 ^ 32) {position : Nat} {log : Web3Log}
    (emitted : receipt.logs[position]? = some log) {prover : Prover} {env : Env}
    (running : checkNotPaused prover.paused env pauseVerify = some ()) (skipBridgeCall : Bool) :
    verifyLogEntry crate eip1559 prover env (ProofLocker.call {
      logIndex := position
      logEntryData := log.entry.item.encode
      receiptIndex := receipt.transactionIndex
      receiptData := receipt.data.encode
      headerData := block.fields.encode block.baseFee
      proof := honestProof (trieOf (receiptPuts receipts)) (Rlp.encodeUint receipt.transactionIndex) }
        skipBridgeCall) = some (if skipBridgeCall then .value true
          else .promise prover.bridgeSmartContract block.fields.number
            (keccak256 (block.fields.encode block.baseFee))) := by
  obtain ⟨inside, -⟩ := List.getElem?_eq_some_iff.mp emitted
  have receiptFits := honest.fits member
  have listed : log.entry ∈ receipt.data.logs := List.mem_map_of_mem (List.mem_of_getElem? emitted)
  have entryFits : log.entry.item.encode.length < 2 ^ 64 := by
    have inner := Rlp.length_item_lt (List.mem_map_of_mem (f := LogEntry.item) listed)
    have outer : (Rlp.Item.list (receipt.data.logs.map LogEntry.item)).encode.length <
        receipt.data.item.encode.length := Rlp.length_item_lt (by simp)
    omega
  have position32 : (BitVec.ofNat 64 position).toNat % 2 ^ 32 = position := by
    rw [BitVec.toNat_ofNat]
    omega
  have index64 : (BitVec.ofNat 64 receipt.transactionIndex).toNat = receipt.transactionIndex := by
    have small := honest.index_lt member
    rw [BitVec.toNat_ofNat]
    omega
  have here : receipt.data.logs[position]? = some log.entry := by
    change (receipt.logs.map Web3Log.entry)[position]? = _
    rw [List.getElem?_map, emitted, Option.map_some]
  have entry := LogEntry.decode_item documented log.entry entryFits
  have decoded := Receipt.decode_encode documented readsBool (honest.typed receipt member) receiptFits
    (show receipt.data.logs.length < 2 ^ 32 by simpa [Web3Receipt.data] using few)
  have header := decode_encode documented eip1559 block.fields block.baseFee given headerFits
  have walk := honest.verify documented member
  simp only [verifyLogEntry, ProofLocker.call, running, entry, decoded, header, position32, index64, here, walk,
    documented.encodeUint_eq, Option.bind_eq_bind, Option.bind_some, Option.pure_def]
  cases skipBridgeCall with
  | true => simp
  | false => simp

end Honest

theorem mem_of_mapM {α β : Type} {f : α → Option β} {items : List α} {results : List β}
    (mapped : items.mapM f = some results) {item : α} {result : β} (member : item ∈ items)
    (computed : f item = some result) : result ∈ results := by
  induction items generalizing results with
  | nil => cases member
  | cons first rest ih =>
    simp only [List.mapM_cons, Option.bind_eq_bind, Option.bind_eq_some_iff, Option.pure_def,
      Option.some.injEq] at mapped
    obtain ⟨front, here, later, mapped, rfl⟩ := mapped
    rcases List.mem_cons.mp member with rfl | inside
    · rw [computed] at here
      exact List.mem_cons.mpr (.inl (Option.some.inj here))
    · exact List.mem_cons_of_mem _ (ih mapped inside)

section Sample

/-- The packages, with the tree as the list of what was put. -/
def sampleProofPackages [Hashing] : EthPackages where
  encode := Rlp.encodeUint
  serializeReceipt receipt := receipt.data.encode
  serializeLog log := log.entry.item.encode
  serializeHeader block := block.fields.encode block.baseFee
  Tree := List (Bytes × Bytes)
  newTree := []
  put tree key value := tree ++ [(key, value)]
  Node := Trie
  findPath tree key := (trieOf tree).pathNodes (nibbles key)
  encodeNode := Trie.encode keccak256

theorem foldl_put (tree puts : List (Bytes × Bytes)) :
    puts.foldl (fun tree put => tree ++ [(put.1, put.2)]) tree = tree ++ puts := by
  induction puts generalizing tree with
  | nil => simp
  | cons put rest ih => rw [List.foldl_cons, ih, List.append_assoc, List.singleton_append]

theorem sampleProofPackages_documented [Hashing] : sampleProofPackages.Documented where
  encode _ _ := rfl
  receipt _ := rfl
  log _ := rfl
  header _ := rfl
  path puts key _ _ _ := by
    have tree := foldl_put [] puts
    rw [List.nil_append] at tree
    simp only [sampleProofPackages, tree, honestProof]

/-- Two transactions of a block: one without logs, and a typed one with two. -/
def sampleWeb3Receipts : List Web3Receipt :=
  [{ blockNumber := 0
     transactionIndex := 0
     type := none
     status := false
     cumulativeGasUsed := 21000
     logsBloom := zeroBytes 256
     logs := [] },
   { blockNumber := 0
     transactionIndex := 1
     type := some 2
     status := true
     cumulativeGasUsed := 90000
     logsBloom := zeroBytes 256
     logs := [⟨0, ⟨zeroBytes 20, [], []⟩⟩, ⟨1, ⟨zeroBytes 20, [zeroBytes 32], [7]⟩⟩] }]

/-- The hash of a transaction of the sample. -/
def sampleTransaction (index : UInt8) : H256 := List.Vector.replicate 32 index

def sampleWeb3Block [Hashing] : Web3Block where
  number := 0
  transactions := [sampleTransaction 1, sampleTransaction 2]
  fields := { sampleHeader with receiptsRoot := (trieOf (receiptPuts sampleWeb3Receipts)).root keccak256 }
  baseFee := some 7

def sampleEthNode [Hashing] : EthNode where
  getTransactionReceipt hash :=
    if hash = sampleTransaction 1 then sampleWeb3Receipts[0]?
    else if hash = sampleTransaction 2 then sampleWeb3Receipts[1]?
    else none
  getBlock number := if number = 0 then some sampleWeb3Block else none

theorem sampleEthNode_honest :
    letI := Hashing.platform
    Honest sampleEthNode sampleWeb3Block sampleWeb3Receipts := by
  let := Hashing.platform
  refine ⟨rfl, rfl, ?_, by decide, ?_, rfl, Trie.encodable_sound (by decide +kernel)⟩
  · intro i receipt held
    rcases i with _ | _ | i
    · cases held
      exact ⟨rfl, rfl⟩
    · cases held
      exact ⟨rfl, rfl⟩
    · cases held
  · intro receipt member
    rcases List.mem_pair.mp member with rfl | rfl
    · simp [ReceiptData.WellTyped, Web3Receipt.data]
    · simp [ReceiptData.WellTyped, Web3Receipt.data]

end Sample

end RainbowBridge.Relay
