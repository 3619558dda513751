import RainbowBridge.EthProver.TrieProof

/-! What a positive answer of `verify_log_entry` says about Ethereum: the log is
in a receipt of the block, at the position named. -/

namespace RainbowBridge.EthProver

open Lib EthTypes Near

variable [Hashing]

/-- What a call of `verify_log_entry` finally gives. -/
def answer (crate : RlpCrate) (eip1559 : Bool) (prover : Prover) (env : Env)
    (client : AccountId → BitVec 64 → Option (Option H256)) (call : LogProof) : Option Bool :=
  verifyLogEntry crate eip1559 prover env call >>= resolve env client

/-- What the contract has checked when it answers yes. -/
structure Verified (crate : RlpCrate) (eip1559 : Bool) (call : LogProof) (entry : LogEntry)
    (receipt : Receipt) (header : BlockHeader) : Prop where
  decodedEntry : LogEntry.decode crate call.logEntryData = some entry
  decodedReceipt : Receipt.decode crate call.receiptData = some receipt
  decodedHeader : BlockHeader.decode crate eip1559 call.headerData = some header
  included : receipt.logs[call.logIndex.toNat % 2 ^ 32]? = some entry
  proved : verifyTrieProof crate header.receiptsRoot (crate.encodeUint call.receiptIndex.toNat)
    call.proof = some call.receiptData

theorem verified_of_answer {crate : RlpCrate} {eip1559 : Bool} {prover : Prover} {env : Env}
    {client : AccountId → BitVec 64 → Option (Option H256)} {call : LogProof}
    (success : answer crate eip1559 prover env client call = some true) :
    ∃ entry receipt header, Verified crate eip1559 call entry receipt header ∧
      (call.skipBridgeCall = false →
        client prover.bridgeSmartContract header.number = some (some (keccak256 call.headerData))) := by
  simp only [answer, verifyLogEntry, Option.bind_eq_bind, Option.bind_eq_some_iff, guard_eq_some,
    exists_const] at success
  obtain ⟨outcome, ⟨-, -, entry, decodedEntry, receipt, decodedReceipt, header, decodedHeader, included,
    found, same, data, proved, returned⟩, resolved⟩ := success
  have hash := hash_of_decode decodedHeader
  have checked : data = call.receiptData → Verified crate eip1559 call entry receipt header :=
    fun equal => ⟨decodedEntry, decodedReceipt, decodedHeader, same ▸ found, equal ▸ proved⟩
  refine ⟨entry, receipt, header, ?_⟩
  split at returned
  · rename_i verified
    refine ⟨checked verified.1.symm, fun asked => ?_⟩
    rw [asked] at verified
    exact absurd verified.2 (by decide)
  · split at returned
    · obtain rfl := Option.some.inj returned
      simp [resolve] at resolved
    · rename_i different
      refine ⟨checked (not_not.mp different).symm, fun _ => ?_⟩
      rw [hash] at returned
      obtain rfl : PromiseOrValue.promise _ _ _ = outcome := by simpa using returned
      simp only [resolve, onBlockHash, Option.bind_eq_bind, Option.bind_eq_some_iff, Option.pure_def,
        Option.some.injEq, decide_eq_true_eq] at resolved
      obtain ⟨blockHash, called, -, -, rfl⟩ := resolved
      exact called

/-- Soundness of event proofs. An accepted trie proof returns what the trie has
at the key; and a positive answer means that the client has the header, that the
receipts trie of the header has the receipt at the index, and that the log is in
it. -/
theorem verifyLogEntry_sound (crate : RlpCrate) (documented : crate.Documented) :
    (∀ (trie : Trie) (key value : Bytes) (proof : List Bytes), trie.Encodable keccak256 →
      CollisionFree keccak256 (trie.encodings keccak256 ∪ { element | element ∈ proof }) →
      verifyTrieProof crate (trie.root keccak256) key proof = some value →
        trie.find (nibbles key) = some value ∨ value = [] ∧ trie.endsBare (nibbles key) = true) ∧
    ∀ (eip1559 : Bool) (prover : Prover) (env : Env)
      (client : AccountId → BitVec 64 → Option (Option H256)) (call : LogProof),
      call.skipBridgeCall = false → answer crate eip1559 prover env client call = some true →
        ∃ entry receipt header,
          LogEntry.decode crate call.logEntryData = some entry ∧
          Receipt.decode crate call.receiptData = some receipt ∧
          BlockHeader.decode crate eip1559 call.headerData = some header ∧
          client prover.bridgeSmartContract header.number = some (some (keccak256 call.headerData)) ∧
          entry ∈ receipt.logs ∧
          ∀ trie : Trie, trie.root keccak256 = header.receiptsRoot → trie.Encodable keccak256 →
            CollisionFree keccak256 (trie.encodings keccak256 ∪ { element | element ∈ call.proof }) →
            trie.find (nibbles (Rlp.encodeUint call.receiptIndex.toNat)) = some call.receiptData := by
  refine ⟨fun trie key value proof encodable free success =>
    verifyTrieProof_sound documented encodable free success, ?_⟩
  intro eip1559 prover env client call asked success
  obtain ⟨entry, receipt, header, verified, confirmed⟩ := verified_of_answer success
  refine ⟨entry, receipt, header, verified.decodedEntry, verified.decodedReceipt,
    verified.decodedHeader, confirmed asked, List.mem_of_getElem? verified.included, ?_⟩
  intro trie root encodable free
  have proved := verified.proved
  rw [← root, documented.encodeUint_eq] at proved
  rcases verifyTrieProof_sound documented encodable free proved with found | ⟨bare, -⟩
  · exact found
  · have decoded := verified.decodedReceipt
    rw [bare, Receipt.decode_nil documented] at decoded
    cases decoded

section Sample

omit [Hashing]

/-- A log without topics and data, a receipt with it, and the trie of that one
receipt. -/
def sampleLog : Rlp.Item := .list [.data (zeroBytes 20).toList, .list [], .data []]

def sampleReceipt : Rlp.Item :=
  .list [.data [1], .data [], .data (zeroBytes 256).toList, .list [sampleLog]]

def sampleTrie : Trie := .leaf [8, 0] sampleReceipt.encode

def sampleHeaderData (receiptsRoot : H256) : Bytes :=
  HeaderFields.encode { sampleHeader with receiptsRoot } (some 7)

/-- The log of the one receipt, at any index. -/
def sampleCall (receiptsRoot : H256) (logIndex : BitVec 64) (skipBridgeCall : Bool) : LogProof where
  logIndex
  logEntryData := sampleLog.encode
  receiptIndex := 0
  receiptData := sampleReceipt.encode
  headerData := sampleHeaderData receiptsRoot
  proof := [sampleTrie.encode fun _ => zeroBytes 32]
  skipBridgeCall

def sampleProver : Prover := ⟨"client", 0⟩

def sampleEnv : Env := ⟨"prover", "relayer", "relayer"⟩

def sampleRoot : H256 :=
  ⟨[120, 54, 96, 56, 27, 128, 62, 244, 247, 197, 46, 181, 244, 12, 51, 2, 2, 14, 188, 174, 139, 16,
    212, 89, 114, 36, 82, 88, 149, 250, 173, 197], rfl⟩

def sampleHash : H256 :=
  ⟨[89, 60, 126, 111, 85, 225, 80, 232, 8, 31, 5, 220, 63, 135, 182, 236, 170, 23, 251, 33, 176, 59,
    18, 130, 205, 141, 193, 141, 199, 160, 71, 67], rfl⟩

/-- The platform's functions, with the digests of the sample looked up. -/
@[reducible] def sampleEventHashing : Hashing where
  sha256 := Sha256.hash
  keccak256 := fun bytes =>
    if bytes = sampleTrie.encode fun _ => zeroBytes 32 then sampleRoot
    else if bytes = sampleHeaderData sampleRoot then sampleHash
    else Keccak.hash bytes

example : ∀ bytes ∈ [sampleTrie.encode fun _ => zeroBytes 32, sampleHeaderData sampleRoot],
    sampleEventHashing.keccak256 bytes = Keccak.hash bytes := by
  decide +kernel

def sampleClient : AccountId → BitVec 64 → Option (Option H256) := fun _ _ => some (some sampleHash)

theorem verifyLogEntry_sound_sample :
    letI := sampleEventHashing
    (sampleTrie.find (nibbles [0x80]) = some sampleReceipt.encode ∨
      sampleReceipt.encode = [] ∧ sampleTrie.endsBare (nibbles [0x80]) = true) ∧
    ∃ entry receipt header,
      LogEntry.decode .reference sampleLog.encode = some entry ∧
      Receipt.decode .reference sampleReceipt.encode = some receipt ∧
      BlockHeader.decode .reference true (sampleHeaderData sampleRoot) = some header ∧
      sampleClient "client" header.number = some (some (keccak256 (sampleHeaderData sampleRoot))) ∧
      entry ∈ receipt.logs ∧
      sampleTrie.find (nibbles (Rlp.encodeUint 0)) = some sampleReceipt.encode := by
  let := sampleEventHashing
  have encodable : sampleTrie.Encodable keccak256 := by
    intro string member
    rw [sampleTrie, Trie.encodings_leaf] at member
    rw [member]
    decide +kernel
  have free : CollisionFree keccak256 (sampleTrie.encodings keccak256 ∪
      { element | element ∈ [sampleTrie.encode fun _ => zeroBytes 32] }) := by
    have single : sampleTrie.encodings keccak256 ∪
        { element | element ∈ [sampleTrie.encode fun _ => zeroBytes 32] } =
          {sampleTrie.encode fun _ => zeroBytes 32} := by
      rw [sampleTrie, Trie.encodings_leaf]
      ext string
      simp [Trie.encode, Trie.item]
    rw [single]
    exact Set.injOn_singleton _ _
  have sound := verifyLogEntry_sound .reference RlpCrate.reference_documented
  refine ⟨sound.1 sampleTrie [0x80] _ _ encodable free (by decide +kernel), ?_⟩
  obtain ⟨entry, receipt, header, decodedEntry, decodedReceipt, decodedHeader, confirmed, member, found⟩ :=
    sound.2 true sampleProver sampleEnv sampleClient (sampleCall sampleRoot 0 false) rfl
      (by decide +kernel)
  have root : (BlockHeader.decode .reference true (sampleHeaderData sampleRoot)).map
      (fun header => header.receiptsRoot) = some (sampleTrie.root keccak256) := by
    decide +kernel
  change BlockHeader.decode .reference true (sampleHeaderData sampleRoot) = some header at decodedHeader
  rw [decodedHeader] at root
  exact ⟨entry, receipt, header, decodedEntry, decodedReceipt, decodedHeader, confirmed, member,
    found sampleTrie (Option.some.inj root).symm encodable free⟩

end Sample

/-- The place of the log that a call is about: the header, the way to the receipt
through the nodes of its trie, and the element of the list of logs that is
compared. -/
structure Occurrence where
  header : H256
  receipt : List Nat
  log : Nat
deriving DecidableEq

def LogProof.occurrence (crate : RlpCrate) (call : LogProof) : Occurrence where
  header := keccak256 call.headerData
  receipt := route crate (halves (crate.encodeUint call.receiptIndex.toNat)) call.proof 0
  log := call.logIndex.toNat % 2 ^ 32

/-- The way leads to the receipt in every trie with the root of the header. -/
theorem Verified.leads {crate : RlpCrate} (documented : crate.Documented) {eip1559 : Bool}
    {call : LogProof} {entry : LogEntry} {receipt : Receipt} {header : BlockHeader}
    (verified : Verified crate eip1559 call entry receipt header) {trie : Trie}
    (root : trie.root keccak256 = header.receiptsRoot) (encodable : trie.Encodable keccak256)
    (free : CollisionFree keccak256 (trie.encodings keccak256 ∪ { element | element ∈ call.proof })) :
    trie.Leads (call.occurrence crate).receipt (nibbles (Rlp.encodeUint call.receiptIndex.toNat))
      call.receiptData := by
  have accepted := accepted_of_verify verified.proved
  rw [← root, documented.encodeUint_eq, halves_eq] at accepted
  simp only [LogProof.occurrence, documented.encodeUint_eq, halves_eq]
  exact accepted.leads documented trie (.inl rfl) encodable free

/-- The strings that two calls give to keccak: the headers and the nodes. -/
def LogProof.hashed (call call' : LogProof) : Set Bytes :=
  {call.headerData, call'.headerData} ∪
    ({ node | node ∈ call.proof } ∪ { node | node ∈ call'.proof })

/-- A place has one index: the headers are the same, so the walks start from one
root, and their keys agree. -/
theorem Verified.receiptIndex_unique {crate : RlpCrate} (documented : crate.Documented)
    {eip1559 : Bool} {call call' : LogProof} {entry entry' : LogEntry} {receipt receipt' : Receipt}
    {header header' : BlockHeader} (verified : Verified crate eip1559 call entry receipt header)
    (verified' : Verified crate eip1559 call' entry' receipt' header')
    (free : CollisionFree keccak256 (call.hashed call'))
    (sameHeader : keccak256 call.headerData = keccak256 call'.headerData)
    (sameReceipt : (call.occurrence crate).receipt = (call'.occurrence crate).receipt) :
    call.receiptIndex = call'.receiptIndex := by
  have data : call.headerData = call'.headerData :=
    free (.inl (.inl rfl)) (.inl (.inr rfl)) sameHeader
  have decoded := verified.decodedHeader
  rw [data, verified'.decodedHeader] at decoded
  obtain rfl := Option.some.inj decoded
  have walk := accepted_of_verify verified.proved
  have walk' := accepted_of_verify verified'.proved
  have keys := walk.key_unique walk' (free.mono Set.subset_union_right) sameReceipt
  rw [List.drop_zero, List.drop_zero, documented.encodeUint_eq, halves_eq, halves_eq] at keys
  have strings := nibbles_injective (List.map_injective_iff.mpr Nibble.byte_injective keys)
  have bound : ∀ index : BitVec 64, index.toNat < 256 ^ 32 :=
    fun index => Nat.lt_trans index.isLt (by decide)
  exact BitVec.eq_of_toNat_eq (Rlp.encodeUint_inj (bound _) (bound _) strings)

omit [Hashing] in
/-- The index of the log, in full, is an index of the receipt's logs. -/
def LogProof.inRange (crate : RlpCrate) (call : LogProof) : Bool :=
  (Receipt.decode crate call.receiptData).any fun receipt => call.logIndex.toNat < receipt.logs.length

theorem Verified.inRange_iff {crate : RlpCrate} {eip1559 : Bool} {call : LogProof} {entry : LogEntry}
    {receipt : Receipt} {header : BlockHeader}
    (verified : Verified crate eip1559 call entry receipt header) :
    call.inRange crate = true ↔ call.logIndex.toNat < 2 ^ 32 := by
  have short := receipt.addressable
  obtain ⟨bound, -⟩ := List.getElem?_eq_some_iff.mp verified.included
  simp only [LogProof.inRange, verified.decodedReceipt, Option.any_some, decide_eq_true_eq]
  constructor
  · intro inside
    omega
  · intro small
    rwa [Nat.mod_eq_of_lt small] at bound

/-- Two positive answers are about logs in range, and about different logs
unless the indices agree, exactly when both log indices fit 32 bits. -/
theorem one_position_iff (crate : RlpCrate) (documented : crate.Documented) (eip1559 : Bool)
    (prover prover' : Prover) (env env' : Env)
    (client client' : AccountId → BitVec 64 → Option (Option H256)) (call call' : LogProof)
    (free : CollisionFree keccak256 (call.hashed call'))
    (success : answer crate eip1559 prover env client call = some true)
    (success' : answer crate eip1559 prover' env' client' call' = some true) :
    (call.inRange crate = true ∧ call'.inRange crate = true ∧
      (call.occurrence crate = call'.occurrence crate →
        call.receiptIndex = call'.receiptIndex ∧ call.logIndex = call'.logIndex)) ↔
      call.logIndex.toNat < 2 ^ 32 ∧ call'.logIndex.toNat < 2 ^ 32 := by
  obtain ⟨_, _, _, verified, -⟩ := verified_of_answer success
  obtain ⟨_, _, _, verified', -⟩ := verified_of_answer success'
  rw [verified.inRange_iff, verified'.inRange_iff]
  refine ⟨fun holds => ⟨holds.1, holds.2.1⟩, fun ⟨small, small'⟩ => ⟨small, small', fun same => ?_⟩⟩
  have receipts := verified.receiptIndex_unique documented verified' free
    (congrArg Occurrence.header same) (congrArg Occurrence.receipt same)
  have logs : call.logIndex.toNat % 2 ^ 32 = call'.logIndex.toNat % 2 ^ 32 :=
    congrArg Occurrence.log same
  rw [Nat.mod_eq_of_lt small, Nat.mod_eq_of_lt small'] at logs
  exact ⟨receipts, BitVec.eq_of_toNat_eq logs⟩

section Sample

omit [Hashing]

theorem sampleCalls_collisionFree [Hashing]
    (apart : keccak256 (sampleTrie.encode fun _ => zeroBytes 32) ≠
      keccak256 (sampleHeaderData sampleRoot)) (logIndex logIndex' : BitVec 64) :
    CollisionFree keccak256
      ((sampleCall sampleRoot logIndex true).hashed (sampleCall sampleRoot logIndex' true)) := by
  refine Set.InjOn.mono ?_ (CollisionFree.pair apart)
  rintro string ((same | same) | (member | member))
  · exact .inr same
  · exact .inr same
  · exact .inl (List.eq_of_mem_singleton member)
  · exact .inl (List.eq_of_mem_singleton member)

/-- The one log of the sample is accepted at the index `2 ^ 32` too. -/
theorem log_accepted_twice :
    letI := Hashing.platform
    let call := sampleCall sampleRoot 0 true
    let again := sampleCall sampleRoot (2 ^ 32) true
    answer .reference true sampleProver sampleEnv sampleClient call = some true ∧
      answer .reference true sampleProver sampleEnv sampleClient again = some true ∧
      CollisionFree keccak256 (call.hashed again) ∧
      call.occurrence .reference = again.occurrence .reference ∧
      again.inRange .reference = false ∧ call.logIndex ≠ again.logIndex := by
  refine ⟨?_, ?_, @sampleCalls_collisionFree Hashing.platform ?_ _ _, ?_, ?_, ?_⟩
  all_goals decide +kernel

theorem one_position_iff_sample :
    letI := sampleEventHashing
    let call := sampleCall sampleRoot 0 true
    let again := sampleCall sampleRoot (2 ^ 32) true
    (call.inRange .reference = true ∧ again.inRange .reference = true ∧
      (call.occurrence .reference = again.occurrence .reference →
        call.receiptIndex = again.receiptIndex ∧ call.logIndex = again.logIndex)) ↔
      call.logIndex.toNat < 2 ^ 32 ∧ again.logIndex.toNat < 2 ^ 32 := by
  let := sampleEventHashing
  exact one_position_iff .reference RlpCrate.reference_documented true sampleProver sampleProver
    sampleEnv sampleEnv sampleClient sampleClient (sampleCall sampleRoot 0 true)
    (sampleCall sampleRoot (2 ^ 32) true) (sampleCalls_collisionFree (by decide +kernel) _ _)
    (by decide +kernel) (by decide +kernel)

end Sample

end RainbowBridge.EthProver
