import RainbowBridge.EthClient.ProofOfWork
import RainbowBridge.Ethash.Generation
import RainbowBridge.Relay.SubmitBlock

/-! The relayer's proofs are enough: with the nodes of the pairs that it finds with the
verification cache, the contract gets the result that the relayer got. -/

namespace RainbowBridge.Relay

open Lib EthTypes EthClient EthashProof Near Ethash

section Lookup

variable [Hashing] {elements : List Word} {root : H128} {nodes : List DoubleNodeWithMerkleProof}

/-- Both items of a pair, from its node. -/
theorem lookup_honestNode (built : dagRoot elements = some root) (few : elements.length < 2 ^ 27)
    (validateEthash : Bool) {i index : Nat} (half : Nat) (inside : index < elements.length) (low : half < 2)
    (found : nodes[i]? = some (honestNode elements index)) :
    lookup validateEthash root nodes (2 * i + half) (2 * index + half) =
      datasetSlice (datasetWords elements) (UInt32.ofNat (2 * index + half)) := by
  have several : elements ≠ [] := List.ne_nil_of_length_pos (by omega)
  rw [dagRoot_eq several, Option.some.injEq] at built
  have applied := honestNode_applied inside (by omega : elements.length ≤ 2 ^ 64)
  rw [built] at applied
  have checked : checkNode validateEthash root (honestNode elements index) (2 * i + half) (2 * index + half) =
      some () := by
    rw [checkNode, show (2 * index + half) / 2 = index by omega, applied]
    split <;> simp
  have reversed := reversed_conventionalWord (wordAt elements index)
  have slice := dataset_slice inside low
  have position : (2 * i + half) / 2 = i := by omega
  rw [lookup, position, found]
  simp only [Option.bind_eq_bind, Option.bind_some, checked]
  rcases (by omega : half = 0 ∨ half = 1) with rfl | rfl
  · rw [show (2 * i + 0) % 2 = 0 by omega, datasetSlice_words few (by omega)]
    · rfl
    · rw [slice]
      exact reversed.1
  · rw [show (2 * i + 1) % 2 = 1 by omega, datasetSlice_words few (by omega)]
    · rfl
    · rw [slice]
      exact reversed.2

end Lookup

section Honest

variable [Hashing] [WideHashing] {elements : List Word} {root : H128} {size : Nat} {cache : List UInt32}

/-- With the nodes of the relayer's indices the contract has the items that the relayer
computed. -/
theorem run_honestNodes (built : dagRoot elements = some root) (few : elements.length < 2 ^ 27)
    (sized : size = mixBytes * elements.length) (generated : generateDataset size cache = some (datasetWords elements))
    (validateEthash : Bool) {headerHash : H256} {nonce : UInt64} {indices : List UInt32}
    (found : hashimotoLightIndices size cache headerHash nonce = some indices) :
    (hashimoto headerHash nonce size).run
      (lookup validateEthash root (indices.map fun index => honestNode elements index.toNat)) 0 =
        hashimotoLight size cache headerHash nonce := by
  simp only [mixBytes] at sized
  have rows : size / mixBytes = elements.length := by
    simp only [mixBytes]
    omega
  have value : (UInt32.ofNat (size / mixBytes)).toNat = elements.length := by
    rw [rows]
    exact UInt32.toNat_ofNat_of_lt' (by simp only [UInt32.size]; omega)
  simp only [hashimotoLightIndices, hashimotoIndices, Option.bind_eq_bind, Option.bind_eq_some_iff,
    Option.guard_eq_some', exists_const] at found
  obtain ⟨some, found⟩ := found
  obtain ⟨-, low⟩ := accessIndices_lt some found
  rw [hashimotoLight]
  apply Asking.run_eq_of_asked
  rw [hashimoto]
  simp only [some, if_false]
  intro call member
  obtain ⟨i, parent, known, which⟩ :=
    asked_accesses (k := 0) some (by rw [value]; omega) found call member
  have inside : parent.toNat < elements.length := value ▸ low parent (List.mem_of_getElem? known)
  have node : (indices.map fun index => honestNode elements index.toNat)[i]? =
      .some (honestNode elements parent.toNat) := by
    rw [List.getElem?_map, known]
    rfl
  have items : 2 * elements.length = size / hashBytes := by
    simp only [hashBytes]
    omega
  rw [Nat.zero_add] at which
  rcases which with rfl | rfl
  · have read := lookup_honestNode built few validateEthash 0 inside (by omega) node
    exact read.trans (datasetSlice_eq generated (by omega) (by omega))
  · have read := lookup_honestNode built few validateEthash 1 inside (by omega) node
    exact read.trans (datasetSlice_eq generated (by omega) (by omega))

end Honest

section Relayed

variable [HexPackages] [Hashing]

/-- The contract reads the nodes of the indices that the relayer wrote. -/
theorem readInput_relayed (documented : HexPackages.Documented) {dataset : List Word} (grouped : Grouped dataset)
    (numbered : dataset.length < 2 ^ 32) (epoch : Nat) {header : Bytes} (short : header.length < 2 ^ 32)
    (indices : List Nat) (inside : ∀ index ∈ indices, index < dataset.length) (few : indices.length < 2 ^ 32) :
    ∃ cache output args input, calculateDatasetMerkleRoot epoch dataset = some cache ∧
      relayerOutput dataset header indices cache = some output ∧ submitBlock output = some args ∧
      args.serialize = some input ∧ readInput input = some (header, indices.map (honestNode dataset)) := by
  have depth : Nat.clog 2 dataset.length < 2 ^ 32 :=
    (Nat.clog_le_of_le_pow numbered.le).trans_lt (by decide)
  have sizes (index : Nat) : (honestNode dataset index).dagNodes.length < 2 ^ 32 ∧
      (honestNode dataset index).proof.length < 2 ^ 32 := by
    rw [(honestNode_lengths dataset index).1, (honestNode_lengths dataset index).2]
    exact ⟨by decide, depth⟩
  obtain ⟨cache, built, length, cached⟩ : ∃ cache, calculateDatasetMerkleRoot epoch dataset = some cache ∧
      cache.proofLength = Nat.clog 2 dataset.length ∧
      cache.proofs = (groupIndices (liveLevel dataset) dataset.length).map fun index =>
        (dagPath dataset index).drop (liveLevel dataset) := by
    refine ⟨_, calculateDatasetMerkleRoot_eq grouped epoch, ?_⟩
    simp only [and_self]
  have proofs : ∀ index ∈ indices, calculateProof dataset index cache =
      some (wordAt dataset index, dagPath dataset index) :=
    fun index member => calculateProof_eq grouped (inside index member) cached
  have headerBytes := writeArray_map documented id (fun byte => some [byte]) (fun byte => [byte]) short
    fun _ _ => rfl
  have nodes := writeArray_map documented (fun index => DagNodeArg.of (honestNode dataset index))
    DagNodeArg.serialize (fun index => nodeBytes (honestNode dataset index)) few
    fun index _ => serialize_of documented (sizes index).1 (sizes index).2
  rw [List.map_id] at headerBytes
  have serialized : (AddBlockHeaderInput.mk header
      (indices.map fun index => DagNodeArg.of (honestNode dataset index))).serialize =
      some (Borsh.serializeBytes header ++ Borsh.serializeVec nodeBytes (indices.map (honestNode dataset))) := by
    simp [AddBlockHeaderInput.serialize, headerBytes, nodes, Borsh.serializeVec, Borsh.serializeBytes,
      List.flatMap_map]
  refine ⟨cache, _, _, _, built, ?_, submitBlock_eq documented header dataset indices, serialized, ?_⟩
  · simp [relayerOutput, mapM_eq_map proofs, List.flatMap_map, length]
  · apply readInput_eq header _ short (by simpa using few)
    intro node member
    obtain ⟨index, -, rfl⟩ := List.mem_map.mp member
    exact sizes index

variable [WideHashing]

end Relayed

section Sample

theorem uint32s_append {first second : Bytes} (whole : 4 ∣ first.length) (whole' : 4 ∣ second.length) :
    uint32s (first ++ second) = uint32s first ++ uint32s second := by
  have length : (uint32s (first ++ second)).length = first.length / 4 + second.length / 4 := by
    rw [length_uint32s, List.length_append]
    omega
  have left := uint32s_slice
    (by rw [List.length_append]; omega : 4 * (0 + first.length / 4) ≤ (first ++ second).length)
  have right := uint32s_slice
    (by rw [List.length_append]; omega : 4 * (first.length / 4 + second.length / 4) ≤ (first ++ second).length)
  rw [Nat.mul_zero, List.drop_zero, List.drop_zero, Nat.mul_div_cancel' whole, List.take_left] at left
  rw [Nat.mul_div_cancel' whole, Nat.mul_div_cancel' whole', List.drop_left, List.take_length,
    List.take_of_length_le (by rw [List.length_drop]; omega)] at right
  rw [← List.take_append_drop (first.length / 4) (uint32s (first ++ second)), left, right]

/-- Items two by two are elements. -/
theorem exists_elements (count : Nat) (items : List H512) (length : items.length = 2 * count) :
    ∃ elements : List Word, elements.length = count ∧
      datasetWords elements = items.flatMap fun item => uint32s item.toList := by
  induction count generalizing items with
  | zero =>
    obtain rfl := List.eq_nil_of_length_eq_zero length
    exact ⟨[], rfl, rfl⟩
  | succ count ih =>
    obtain ⟨first, second, rest, rfl⟩ : ∃ first second rest, items = first :: second :: rest := by
      match items, length with
      | first :: second :: rest, _ => exact ⟨first, second, rest, rfl⟩
    obtain ⟨elements, many, words⟩ := ih rest (by simpa [Nat.mul_add] using length)
    obtain ⟨word, bytes⟩ : ∃ word : Word, word.toList = first.toList ++ second.toList :=
      ⟨⟨first.toList ++ second.toList, by simp⟩, rfl⟩
    refine ⟨word :: elements, by rw [List.length_cons, many], ?_⟩
    rw [datasetWords] at words
    rw [datasetWords, List.flatMap_cons, bytes, uint32s_append (by simp) (by rw [length_elements]; omega), uint32s_append (by simp) (by simp), words,
      List.flatMap_cons, List.flatMap_cons, List.append_assoc]

/-- A generated dataset consists of elements. -/
theorem generated_elements [WideHashing] {count : Nat} {cache dataset : List UInt32}
    (generated : generateDataset (mixBytes * count) cache = some dataset) :
    ∃ elements : List Word, elements.length = count ∧ datasetWords elements = dataset := by
  obtain ⟨-, items, made, rfl⟩ := generateDataset_eq_some.mp generated
  apply exists_elements
  rw [length_mapM made, List.length_range]
  simp only [mixBytes, hashBytes]
  omega

/-- The algorithm, for datasets of 32770 elements. -/
def sampleAlgorithm [Hashing] [WideHashing] : EthashCrate :=
  { workEthash with getFullSize := fun _ => mixBytes * 32770 }

end Sample

end RainbowBridge.Relay
