import RainbowBridge.EthClient.Shape
import RainbowBridge.Ethash.Hashimoto

/-! Proof of work from end to end. What the contract accepts of a submitter is a header
that was mined with the dataset of its epoch, of which the contract has the root. -/

namespace RainbowBridge.EthClient

open Lib EthTypes Near EthashProof Ethash

/-- If all items that are handed over are those of another lookup, so is the result. -/
theorem Asking.run_of_handed {β : Type} {first second : Nat → Nat → Option H512} {program : Asking β} {idx : Nat}
    {result : β} (done : program.run first idx = some result)
    (same : ∀ offset item, (offset, item) ∈ program.handed first idx → ∀ idx, second idx offset = some item) :
    program.run second idx = some result := by
  induction program generalizing idx with
  | done result => exact done
  | ask offset next ih =>
    simp only [run, Option.bind_eq_bind] at done
    obtain ⟨item, found, later⟩ := Option.bind_eq_some_iff.mp done
    simp only [handed, found] at same
    simp only [run, same offset item List.mem_cons_self, Option.bind_eq_bind, Option.bind_some]
    exact ih item later fun offset item member => same offset item (List.mem_cons_of_mem _ member)

/-- A nonce as a number. -/
def nonceOf (nonce : H64) : UInt64 := UInt64.ofNat (beNat nonce.toList)

/-- What the `ethash` crate says of `hashimoto_with_hasher`: it is the algorithm, on the
items that the lookup returns. The number of items has 32 bits. -/
def EthashCrate.Documented [Hashing] [WideHashing] (ethash : EthashCrate) : Prop :=
  ∀ headerHash nonce size lookup, size / hashBytes < 2 ^ 32 →
    ethash.hashimotoWithHasher headerHash nonce size lookup =
      (hashimoto headerHash (nonceOf nonce) size).run lookup 0

/-- The words of a dataset. -/
def datasetWords (elements : List Word) : List UInt32 := uint32s (elements.flatMap List.Vector.toList)

section Words

theorem uint32s_slice {data : Bytes} {i count : Nat} (inside : 4 * (i + count) ≤ data.length) :
    ((uint32s data).drop i).take count = uint32s ((data.drop (4 * i)).take (4 * count)) := by
  have length : ((data.drop (4 * i)).take (4 * count)).length = 4 * count := by
    rw [List.length_take, List.length_drop]
    omega
  apply List.ext_getElem
  · rw [List.length_take, List.length_drop, length_uint32s, length_uint32s, length]
    omega
  · intro k low _
    rw [List.length_take] at low
    have slice : (data.drop ((i + k) * 4)).take 4 =
        (((data.drop (4 * i)).take (4 * count)).drop (k * 4)).take 4 := by
      rw [List.drop_take, List.take_take, List.drop_drop, Nat.min_eq_left (by omega)]
      congr 2
      omega
    simp only [List.getElem_take, List.getElem_drop, uint32s, List.getElem_map, List.getElem_range, uint32At,
      slice]

theorem length_elements (elements : List Word) :
    (elements.flatMap List.Vector.toList).length = 128 * elements.length := by
  rw [List.length_flatMap, List.map_congr_left fun word _ => List.Vector.toList_length word, List.map_const',
    List.sum_replicate_nat, Nat.mul_comm]

theorem length_datasetWords (elements : List Word) : (datasetWords elements).length * 4 = mixBytes * elements.length := by
  rw [datasetWords, length_uint32s, length_elements, mixBytes]
  omega

/-- A slice of the dataset is the item with the bytes at that place. -/
theorem datasetSlice_words {elements : List Word} (few : elements.length < 2 ^ 27) {offset : Nat} {item : H512}
    (inside : offset < 2 * elements.length)
    (bytes : item.toList = ((elements.flatMap List.Vector.toList).drop (64 * offset)).take 64) :
    datasetSlice (datasetWords elements) (UInt32.ofNat offset) = some item := by
  have length := length_datasetWords elements
  simp only [mixBytes] at length
  have value : (UInt32.ofNat offset).toNat = offset :=
    UInt32.toNat_ofNat_of_lt' (by simp only [UInt32.size]; omega)
  have start : (UInt32.ofNat offset * UInt32.ofNat 16).toNat = offset * 16 := by
    rw [UInt32.toNat_mul, value]
    exact Nat.mod_eq_of_lt (show offset * 16 < 2 ^ 32 by omega)
  have stop : (UInt32.ofNat offset * UInt32.ofNat 16 + UInt32.ofNat 16).toNat = offset * 16 + 16 := by
    rw [UInt32.toNat_add, start]
    exact Nat.mod_eq_of_lt (show offset * 16 + 16 < 2 ^ 32 by omega)
  have within : offset * 16 ≤ offset * 16 + 16 ∧ offset * 16 + 16 ≤ (datasetWords elements).length := by omega
  have words : ((datasetWords elements).drop (offset * 16)).take 16 = uint32s item.toList := by
    rw [datasetWords, uint32s_slice (by rw [length_elements]; omega), bytes]
    congr 3
    omega
  rw [datasetSlice]
  simp only [hashWords, hashBytes, start, stop, within, and_self, guard_true, pure_bind,
    Nat.add_sub_cancel_left, words]
  exact congrArg some (putUint32s_uint32s item)

end Words

section Work

variable [Hashing] [WideHashing] {ethash : EthashCrate} {elements : List Word} {root : H128}

/-- Whatever nodes a submitter gives, an accepted result is the one of the dataset. -/
theorem run_lookup_eq_full (built : dagRoot elements = some root) (few : elements.length < 2 ^ 27)
    {headerHash : H256} {nonce : UInt64} {nodes : List DoubleNodeWithMerkleProof} {result : H256 × H256}
    (free : Set.InjOn sha256Last (dagStrings elements ∪ checkedStrings nodes
      ((hashimoto headerHash nonce (mixBytes * elements.length)).asked (lookup true root nodes) 0)))
    (accepted : (hashimoto headerHash nonce (mixBytes * elements.length)).run (lookup true root nodes) 0 =
      some result) :
    hashimotoFull (datasetWords elements) headerHash nonce = some result := by
  have rows : mixBytes * elements.length / mixBytes = elements.length :=
    Nat.mul_div_cancel_left _ (by decide)
  have paired := hashimoto_paired (by rw [rows]; omega : mixBytes * elements.length / mixBytes ≤ 2 ^ 31)
    headerHash nonce
  rw [rows] at paired
  rw [hashimotoFull, length_datasetWords]
  refine Asking.run_of_handed accepted fun offset item handed idx => ?_
  have bytes := handed_sound built paired 0 (by simpa using free) (by simpa using handed)
  refine datasetSlice_words few ?_ bytes
  by_contra beyond
  have none : ((elements.flatMap List.Vector.toList).drop (64 * offset)).take 64 = [] := by
    rw [List.drop_eq_nil_of_le (by rw [length_elements]; omega), List.take_nil]
  rw [none] at bytes
  have length := List.Vector.toList_length item
  rw [bytes] at length
  simp at length

end Work

/-- What `verify_header` compares of a header with the one that it stands on. -/
structure Extends (header prev : BlockHeader) : Prop where
  hash : prev.hash = some header.parentHash
  number : header.number.toNat = prev.number.toNat + 1
  timestamp : prev.timestamp.toNat < header.timestamp.toNat
  gasUsed : header.gasUsed.toNat ≤ header.gasLimit.toNat
  gasLimit : 5000 ≤ header.gasLimit.toNat
  gasLimitBelow : header.gasLimit.toNat < prev.gasLimit.toNat * 1025 / 1024
  gasLimitAbove : prev.gasLimit.toNat * 1023 / 1024 < header.gasLimit.toNat
  difficultyBelow : header.difficulty.toNat < prev.difficulty.toNat * 101 / 100
  difficultyAbove : prev.difficulty.toNat * 99 / 100 < header.difficulty.toNat
  extraData : header.extraData.length ≤ 32

section

variable [Hashing] [WideHashing]

/-- The header's nonce gives a result below the boundary, with the dataset of the
header's epoch. -/
def Mined (ethash : EthashCrate) (datasets : Nat → List Word) (header : BlockHeader) : Prop :=
  ∃ partialHash digest result, header.partialHash = some partialHash ∧
    hashimotoFull (datasetWords (datasets (header.number.toNat / 30000))) partialHash (nonceOf header.nonce) =
      some (digest, result) ∧
    beNat result.toList < (ethash.crossBoundary header.difficulty).toNat

/-- The configured roots are those of the datasets, which have the sizes that the crate
has for their epochs, and are below 16 GiB. -/
def RootsOf (config : Config) (ethash : EthashCrate) (datasets : Nat → List Word) : Prop :=
  ∀ epoch i root, epoch = config.dagsStartEpoch + i → config.dagsMerkleRoots[i]? = some root →
    dagRoot (datasets epoch) = some root ∧ ethash.getFullSize epoch = mixBytes * (datasets epoch).length ∧
      (datasets epoch).length < 2 ^ 27

/-- No two of the strings that are hashed for the dataset of a header's epoch, and for the
nodes that come with the header, have one hash. -/
def WorkCollisionFree (crate : RlpCrate) (eip1559 : Bool) (datasets : Nat → List Word) (submission : Submission) :
    Prop :=
  ∀ header partialHash root, BlockHeader.decode crate eip1559 submission.blockHeader = some header →
    header.partialHash = some partialHash →
    let elements := datasets (header.number.toNat / 30000)
    dagRoot elements = some root →
    Set.InjOn sha256Last (dagStrings elements ∪ checkedStrings submission.dagNodes
      ((hashimoto partialHash (nonceOf header.nonce) (mixBytes * elements.length)).asked
        (lookup true root submission.dagNodes) 0))

section Verify

variable {client : Client} {header prev : BlockHeader} {ethash : EthashCrate}
  {dagNodes : List DoubleNodeWithMerkleProof}

omit [WideHashing] in
theorem verifyHeader_eq_true (validates : client.validateEthash = true)
    (verified : client.verifyHeader ethash header prev dagNodes = some true) :
    Extends header prev ∧ ∃ partialHash digest result, header.partialHash = some partialHash ∧
      client.hashimotoMerkle ethash partialHash header.nonce header.number.toNat dagNodes = some (digest, result) ∧
      beNat result.toList < (ethash.crossBoundary header.difficulty).toNat := by
  unfold Client.verifyHeader at verified
  obtain ⟨partialHash, hashed, verified⟩ := Option.bind_eq_some_iff.mp verified
  obtain ⟨⟨digest, result⟩, worked, verified⟩ := Option.bind_eq_some_iff.mp verified
  simp only [andM_eq_true] at verified
  obtain ⟨boundary, ratios, gasUsed, gasBelow, gasAbove, gasLimit, timestamp, next, child, extra⟩ := verified
  simp only [validates, Bool.not_true] at ratios
  obtain ⟨below, above⟩ := andM_eq_true.mp ratios
  simp only [lessThanRatio, greaterThanRatio, isNext, isChild, Option.bind_eq_bind, Option.bind_eq_some_iff,
    Option.guard_eq_some', exists_const, Option.pure_def, Option.some.injEq, decide_eq_true_eq] at *
  obtain ⟨hash, named, same⟩ := child
  exact ⟨⟨by rw [named, same], next.2, timestamp, gasUsed, gasLimit, gasBelow.2, gasAbove.2, below.2, above.2,
    extra⟩, partialHash, digest, result, hashed, worked, boundary⟩

/-- A header that the contract accepts of anyone is mined. -/
theorem mined_of_verify {config : Config} {datasets : Nat → List Word} {crate : RlpCrate} {eip1559 : Bool}
    {submission : Submission} (documented : ethash.Documented) (roots : RootsOf config ethash datasets)
    (validates : client.validateEthash = true) (start : client.dagsStartEpoch = config.dagsStartEpoch)
    (same : client.dagsMerkleRoots = config.dagsMerkleRoots)
    (decoded : BlockHeader.decode crate eip1559 submission.blockHeader = some header)
    (free : WorkCollisionFree crate eip1559 datasets submission)
    (verified : client.verifyHeader ethash header prev submission.dagNodes = some true)
    (small : header.number.toNat < 2 ^ 32) : Mined ethash datasets header := by
  obtain ⟨-, partialHash, digest, result, hashed, worked, boundary⟩ := verifyHeader_eq_true validates verified
  simp only [Client.hashimotoMerkle, Client.dagMerkleRoot, Option.bind_eq_bind, Option.bind_eq_some_iff,
    Option.guard_eq_some', exists_const] at worked
  obtain ⟨root, ⟨reached, found⟩, worked⟩ := worked
  rw [Nat.mod_eq_of_lt small, start] at reached
  rw [Nat.mod_eq_of_lt small, start, same, Nat.mod_eq_of_lt (by omega)] at found
  obtain ⟨built, size, few⟩ := roots (header.number.toNat / 30000) _ root (by omega) found
  have items : mixBytes * (datasets (header.number.toNat / 30000)).length / hashBytes < 2 ^ 32 := by
    simp only [mixBytes, hashBytes]
    omega
  rw [size, validates, documented _ _ _ _ items] at worked
  exact ⟨partialHash, digest, result, hashed,
    run_lookup_eq_full built few (free header partialHash root decoded hashed built) worked, boundary⟩

end Verify

section Stored

variable {client : Client} {header other : BlockHeader} {hash found : H256} {bestInfo parentInfo : HeaderInfo}

omit [Hashing] [WideHashing]

theorem gcHeaders_headers {top : Nat} {store : Store} (stored : (gcHeaders top store).headers hash = some header) :
    store.headers hash = some header := by
  have dropped : ∀ {number hashes} {store : Store},
      (store.dropNumber number hashes).headers hash = some header → store.headers hash = some header := by
    intro number hashes store stored
    rw [dropNumber_headers] at stored
    split at stored
    · cases stored
    · exact stored
  induction top generalizing store with
  | zero =>
    rw [gcHeaders] at stored
    split at stored
    · exact stored
    · exact dropped stored
  | succ top ih =>
    rw [gcHeaders] at stored
    split at stored
    · exact stored
    · exact dropped (ih stored)

/-- What is stored after a header was recorded was stored before, or is that header. -/
theorem recorded_headers
    (stored : (client.recorded header hash bestInfo parentInfo).headers found = some other) :
    (found = hash ∧ other = header) ∨ client.headers found = some other := by
  have inserted : (client.insertHeader header hash (childInfo parentInfo header)).headers found = some other := by
    simp only [Client.recorded] at stored
    split at stored
    · simp only [Client.updateCanonical] at stored
      split at stored
      · exact gcHeaders_headers stored
      · exact stored
    · exact stored
  simp only [Client.insertHeader, UnorderedMap.insert_apply] at inserted
  split at inserted
  · exact .inl ⟨‹_›, (Option.some.inj inserted).symm⟩
  · exact .inr inserted

variable (client header hash bestInfo parentInfo) in
theorem recorded_dags :
    (client.recorded header hash bestInfo parentInfo).validateEthash = client.validateEthash ∧
      (client.recorded header hash bestInfo parentInfo).dagsStartEpoch = client.dagsStartEpoch ∧
      (client.recorded header hash bestInfo parentInfo).dagsMerkleRoots = client.dagsMerkleRoots := by
  simp only [Client.recorded]
  split <;> exact ⟨rfl, rfl, rfl⟩

end Stored

section Runs

variable (crate : RlpCrate) (eip1559 : Bool) (ethash : EthashCrate) (datasets : Nat → List Word)

/-- How a header came in. Either the trusted signer of the time submitted it, or there was
none; then it stands on a header accepted before, and is mined. -/
def Vouched (archive : Archive) (calls : List Call) (header : BlockHeader) : Prop :=
  ∃ before submission after, calls = before ++ .addBlockHeader submission :: after ∧
    BlockHeader.decode crate eip1559 submission.blockHeader = some header ∧
    let state := (archiveMachine crate eip1559 ethash).run archive before
    match state.client.trustedSigner with
    | some trustedSigner => submission.env.signerAccountId = trustedSigner
    | none => (∃ prev ∈ state.accepted, Extends header prev) ∧
        (header.number.toNat < 2 ^ 32 → Mined ethash datasets header)

/-- The settings of the proof of work are the configured ones, and what is stored was accepted. -/
structure Settled (config : Config) (archive : Archive) : Prop where
  validates : archive.client.validateEthash = config.validateEthash
  start : archive.client.dagsStartEpoch = config.dagsStartEpoch
  roots : archive.client.dagsMerkleRoots = config.dagsMerkleRoots
  stored : ∀ hash header, archive.client.headers hash = some header →
    header ∈ archive.accepted ∧ header.hash = some hash

variable {crate eip1559 ethash datasets} {config : Config} {archive : Archive}

omit [WideHashing] in
theorem settled_open (opened : openArchive crate eip1559 config = some archive) :
    Settled config archive ∧ archive.accepted = [archive.first] := by
  simp only [openArchive, init, Option.bind_eq_bind, Option.bind_eq_some_iff, Option.pure_def,
    Option.some.injEq] at opened
  obtain ⟨client, ⟨-, -, header, decoded, hash, named, rfl⟩, first, decoded', rfl⟩ := opened
  obtain rfl := Option.some.inj (decoded.symm.trans decoded')
  refine ⟨⟨rfl, rfl, rfl, fun found other stored => ?_⟩, rfl⟩
  simp only [UnorderedMap.insert_apply] at stored
  split at stored
  · obtain rfl := Option.some.inj stored
    exact ⟨List.mem_singleton_self _, by rw [named, ‹found = hash›]⟩
  · cases stored

variable (crate eip1559 ethash archive) in
omit [WideHashing] in
/-- What a call can do: nothing to what is stored, or record a header that it checked. -/
theorem next_cases (call : Call) :
    let after := (archiveMachine crate eip1559 ethash).next archive call
    (after.first = archive.first ∧ after.accepted = archive.accepted ∧
      after.client.headers = archive.client.headers ∧
      after.client.validateEthash = archive.client.validateEthash ∧
      after.client.dagsStartEpoch = archive.client.dagsStartEpoch ∧
      after.client.dagsMerkleRoots = archive.client.dagsMerkleRoots) ∨
    ∃ submission header hash bestInfo parentInfo, call = .addBlockHeader submission ∧
      BlockHeader.decode crate eip1559 submission.blockHeader = some header ∧
      archive.client.checkSubmission ethash submission.env header submission.dagNodes = some () ∧
      header.hash = some hash ∧
      after = ⟨archive.first, archive.accepted ++ [header],
        archive.client.recorded header hash bestInfo parentInfo⟩ := by
  cases call with
  | addBlockHeader submission =>
    simp only [archiveMachine]
    cases success : archive.client.addBlockHeader crate eip1559 ethash submission.env submission.blockHeader
        submission.dagNodes with
    | none => exact .inl ⟨rfl, rfl, rfl, rfl, rfl, rfl⟩
    | some after =>
      simp only [Client.addBlockHeader, Option.bind_eq_bind, Option.bind_eq_some_iff] at success
      obtain ⟨_, _, header, decoded, _, checked, recorded⟩ := success
      obtain ⟨hash, bestInfo, parentInfo, accepts, rfl⟩ := recordHeader_eq_some.mp recorded
      refine .inr ⟨submission, header, hash, bestInfo, parentInfo, rfl, decoded, checked, accepts.named, ?_⟩
      simp only [decoded, Option.toList_some]
  | setPaused env paused =>
    cases permitted : assertSelf env <;> simp [archiveMachine, Client.setPaused, permitted]
  | updateTrustedSigner env trustedSigner =>
    cases permitted : assertSelf env <;> simp [archiveMachine, Client.updateTrustedSigner, permitted]

omit [WideHashing] in
theorem Settled.next (settled : Settled config archive) (call : Call) :
    Settled config ((archiveMachine crate eip1559 ethash).next archive call) := by
  rcases next_cases crate eip1559 ethash archive call with
    ⟨-, accepted, headers, validates, start, roots⟩ |
    ⟨submission, header, hash, bestInfo, parentInfo, -, -, -, named, same⟩
  · refine ⟨validates.trans settled.validates, start.trans settled.start, roots.trans settled.roots, ?_⟩
    rw [accepted, headers]
    exact settled.stored
  · obtain ⟨validates, start, roots⟩ := recorded_dags archive.client header hash bestInfo parentInfo
    rw [same]
    refine ⟨validates.trans settled.validates, start.trans settled.start, roots.trans settled.roots, ?_⟩
    intro found other stored
    rcases recorded_headers stored with ⟨rfl, rfl⟩ | before
    · exact ⟨List.mem_append_right _ (List.mem_singleton_self _), named⟩
    · obtain ⟨member, own⟩ := settled.stored found other before
      exact ⟨List.mem_append_left _ member, own⟩

theorem Vouched.append {calls : List Call} {header : BlockHeader}
    (vouched : Vouched crate eip1559 ethash datasets archive calls header) (more : List Call) :
    Vouched crate eip1559 ethash datasets archive (calls ++ more) header := by
  obtain ⟨before, submission, after, rfl, rest⟩ := vouched
  exact ⟨before, submission, after ++ more, by simp, rest⟩

end Runs

end

section Sample

/-- A dataset of one element, and its proof. -/
def workElements : List Word := [zeroBytes 128]

def workNode : DoubleNodeWithMerkleProof := ⟨[zeroBytes 64, zeroBytes 64], []⟩

/-- The algorithm itself, on the only element. -/
def workEthash [Hashing] [WideHashing] : EthashCrate where
  getFullSize := fun _ => 128
  crossBoundary := sampleEthash.crossBoundary
  hashimotoWithHasher := fun headerHash nonce size lookup =>
    (hashimoto headerHash (nonceOf nonce) size).run lookup 0

def workHash : H256 := digest 0x1f5690fb277849ef9629ebf54ec5b818dc1607cbf590690eceea846e0c0a1fc2

/-- A header of difficulty 100. -/
def workBlock (parentHash : H256) (number : Nat) (nonce : Nat) : Bytes :=
  HeaderFields.encode { sampleHeader with
    parentHash
    difficulty := 100
    number := BitVec.ofNat 64 number
    gasLimit := 8000
    timestamp := BitVec.ofNat 64 number
    nonce := ⟨beBytes 8 nonce, length_beBytes 8 nonce⟩ } (some 7)

def workConfig [Hashing] : Config where
  validateEthash := true
  dagsStartEpoch := 0
  dagsMerkleRoots := [sha256ElementHash (zeroBytes 128)]
  firstHeader := workBlock (zeroBytes 32) 0 0
  hashesGcThreshold := 100
  finalizedGcThreshold := 2
  numConfirmations := 4
  trustedSigner := none

/-- A mined header with 64 nodes. -/
def workCall : Call :=
  .addBlockHeader ⟨⟨"client", "relayer", "relayer"⟩, workBlock workHash 1 48, List.replicate 64 workNode⟩

theorem workCall_accepted :
    letI := Hashing.platform
    letI := WideHashing.platform
    (openArchive .reference true workConfig).map (fun archive => (archive.first.number.toNat,
      ((archiveMachine .reference true workEthash).run archive [workCall]).accepted.map fun header =>
        header.number.toNat)) = some (0, [0, 1]) := by
  decide +kernel

theorem workElements_root [Hashing] : dagRoot workElements = some (sha256ElementHash (zeroBytes 128)) := by
  rw [dagRoot_eq (by simp [workElements])]
  rfl

theorem dagStrings_workElements [Hashing] : dagStrings workElements ⊆ {elementString (zeroBytes 128)} := by
  rintro string (⟨k, inside, rfl⟩ | ⟨level, start, low, -⟩)
  · obtain rfl : k = 0 := Nat.lt_one_iff.mp inside
    rfl
  · simp [workElements] at low

theorem workNode_strings [Hashing] (index : Nat) : workNode.strings index ⊆ {elementString (zeroBytes 128)} := by
  rintro string ⟨first, second, zero, one, rfl | ⟨level, sibling, found, -⟩⟩
  · cases zero
    cases one
    exact zeroNodes_eq
  · simp [workNode] at found

end Sample

end RainbowBridge.EthClient
