import RainbowBridge.EthClient.DagAuthentication
import RainbowBridge.EthashProof.Cache
import RainbowBridge.Lib.Hex
import RainbowBridge.Near.Borsh

/-! The way of a proof from the relayer's Go program to the contract: numbers in
hexadecimal without leading zeros, padded and grouped again by `submitBlock`, and
written in Borsh. What the program prints as JSON is parsed as it was. -/

namespace RainbowBridge.Relay

open Lib EthTypes EthClient EthashProof Near

/-- Functions of packages. -/
class HexPackages where
  /-- `hexutil.Encode`. -/
  encode : Bytes → String
  /-- `hexutil.EncodeBig`. -/
  encodeBig : Nat → String
  /-- `web3.utils.padLeft`. -/
  padLeft : String → Nat → String
  /-- `web3.utils.hexToBytes`, which throws when the text is not hexadecimal. -/
  hexToBytes : String → Option Bytes
  /-- What `write_u32` of a `BinaryWriter` appends. -/
  writeU32 : Nat → Bytes

export HexPackages (encode encodeBig padLeft hexToBytes writeU32)

/-- A text of hexadecimal digits after `0x`. -/
def hexText (digits : List Char) : String := String.ofList ('0' :: 'x' :: digits)

/-- What the packages say of these functions. -/
structure HexPackages.Documented [HexPackages] : Prop where
  encode : ∀ data, encode data = hexText (hexOf data)
  encodeBig : ∀ value, encodeBig value = hexText (Nat.toDigits 16 value)
  padLeft : ∀ digits width,
    padLeft (hexText digits) width = hexText (List.replicate (width - digits.length) '0' ++ digits)
  hexToBytes : ∀ data, hexToBytes (hexText (hexOf data)) = some data
  writeU32 : ∀ value, value < 2 ^ 32 → writeU32 value = leBytes 4 value

/-- `ToUint256Array`. -/
def toUint256Array (word : Word) : List Nat := (List.range 4).map fun i => beNat (word.part i).reverse

def hashesToBranchesArray (hashes : List Hash) : List Bytes :=
  hashes.map fun hash => (zeroBytes 16).toList ++ hash.toList

/-- What `submitBlock` reads of the output of the Go program. -/
structure Output where
  headerRLP : String
  elements : List String
  merkleProofs : List String
  proofLength : Nat

/-- One of the `dag_nodes`, as a JavaScript object. -/
structure DagNodeArg where
  dagNodes : List String
  proof : List String

structure AddBlockHeaderInput where
  blockHeader : Bytes
  dagNodes : List DagNodeArg

section

variable {α β : Type}

/-- `items.filter((_, index) => index % 2 === 0)`. -/
def everyOther (items : List α) : List α :=
  (items.zipIdx.filter fun (_, index) => index % 2 = 0).map Prod.fst

/-- `.map((item, index) => ...)` over every other item, with `items[index * 2 + 1]`. -/
def mapPairs (items : List α) (f : Nat → α → α → Option β) : Option (List β) :=
  (everyOther items).zipIdx.mapM fun (item, index) => do
    let next ← items[index * 2 + 1]?
    f index item next

end

section

variable [HexPackages]

/-- `main` of the relayer for the elements that a header asks for. -/
def relayerOutput [Hashing] (dataset : List Word) (header : Bytes) (indices : List Nat)
    (cache : DatasetMerkleTreeCache) : Option Output := do
  let proofs ← indices.mapM fun index => calculateProof dataset index cache
  return {
    headerRLP := encode header
    elements := proofs.flatMap fun (element, _) => (toUint256Array element).map encodeBig
    merkleProofs := proofs.flatMap fun (_, proof) =>
      (hashesToBranchesArray proof).map fun element => encodeBig (beNat element)
    proofLength := cache.proofLength }

/-- The arguments that `submitBlock` serializes. -/
def submitBlock (block : Output) : Option AddBlockHeaderInput := do
  let h512s ← mapPairs block.elements fun _ element next =>
    some (padLeft element 64 ++ String.ofList ((padLeft next 64).toList.drop 2))
  let blockHeader ← hexToBytes block.headerRLP
  let dagNodes ← mapPairs h512s fun index element next => some {
    dagNodes := [element, next]
    proof := ((block.merkleProofs.drop (index * block.proofLength)).take block.proofLength).map
      fun leaf => padLeft leaf 32 }
  return { blockHeader, dagNodes }

/-- `write_array`. -/
def writeArray {α : Type} (items : List α) (write : α → Option Bytes) : Option Bytes := do
  let parts ← items.mapM write
  return writeU32 items.length ++ parts.flatten

def DagNodeArg.serialize (node : DagNodeArg) : Option Bytes := do
  let dagNodes ← writeArray node.dagNodes hexToBytes
  let proof ← writeArray node.proof hexToBytes
  return dagNodes ++ proof

/-- `serialize(borshSchema, 'addBlockHeaderInput', args)`. -/
def AddBlockHeaderInput.serialize (args : AddBlockHeaderInput) : Option Bytes := do
  let blockHeader ← writeArray args.blockHeader fun byte => some [byte]
  let dagNodes ← writeArray args.dagNodes DagNodeArg.serialize
  return blockHeader ++ dagNodes

end

/-- The arguments of `add_block_header` as the contract reads them. -/
def deserializeNode : Borsh.Deserialize DoubleNodeWithMerkleProof := do
  let dagNodes ← Borsh.vec (Borsh.fixed 64)
  let proof ← Borsh.vec (Borsh.fixed 16)
  return { dagNodes, proof }

def deserializeInput : Borsh.Deserialize (Bytes × List DoubleNodeWithMerkleProof) := do
  let blockHeader ← Borsh.bytes
  let dagNodes ← Borsh.vec deserializeNode
  return (blockHeader, dagNodes)

/-- `try_from_slice`: nothing may be left over. -/
def readInput (input : Bytes) : Option (Bytes × List DoubleNodeWithMerkleProof) :=
  match deserializeInput input with
  | .ok (args, []) => some args
  | _ => none

section

variable {α β γ : Type}

theorem everyOther_flatMap (blocks : List γ) (a b : γ → α) :
    everyOther (blocks.flatMap fun block => [a block, b block]) = blocks.map a := by
  have shifted (n : Nat) : (((blocks.flatMap fun block => [a block, b block]).zipIdx (2 * n)).filter
      fun (_, index) => index % 2 = 0).map Prod.fst = blocks.map a := by
    induction blocks generalizing n with
    | nil => rfl
    | cons block rest ih =>
      have later := ih (n + 1)
      rw [show 2 * (n + 1) = 2 * n + 1 + 1 by omega] at later
      simp [List.zipIdx_cons, show (2 * n + 1) % 2 = 1 by omega, later]
  exact shifted 0

theorem getElem?_flatMap_pair {blocks : List γ} {a b : γ → α} {i : Nat} {block : γ}
    (found : blocks[i]? = some block) :
    (blocks.flatMap fun block => [a block, b block])[i * 2 + 1]? = some (b block) := by
  induction blocks generalizing i with
  | nil => simp at found
  | cons first rest ih =>
    cases i with
    | zero =>
      cases found
      rfl
    | succ i =>
      rw [show (i + 1) * 2 + 1 = i * 2 + 1 + 1 + 1 by omega]
      exact ih (by simpa using found)

theorem mapPairs_flatMap {blocks : List γ} {a b : γ → α} {f : Nat → α → α → Option β} {g : γ → β}
    (each : ∀ i block, blocks[i]? = some block → f i (a block) (b block) = some (g block)) :
    mapPairs (blocks.flatMap fun block => [a block, b block]) f = some (blocks.map g) := by
  rw [mapPairs, everyOther_flatMap, List.zipIdx_map, List.mapM_map]
  rw [mapM_eq_map (g := fun pair => g pair.1)]
  · have firsts : blocks.zipIdx.map (fun pair => g pair.1) = (blocks.zipIdx.map Prod.fst).map g := by
      rw [List.map_map]
      rfl
    rw [firsts, List.zipIdx_map_fst]
  · rintro ⟨block, i⟩ member
    have found : blocks[i]? = some block := List.mem_zipIdx_iff_getElem?.mp member
    simp [getElem?_flatMap_pair found, each i block found]

end

theorem hexText_append (first second : List Char) :
    hexText first ++ String.ofList ((hexText second).toList.drop 2) = hexText (first ++ second) := by
  apply String.ext_iff.mpr
  simp [hexText]

/-- The nodes and the path that the contract gets for an element. -/
def honestNode [Hashing] (dataset : List Word) (index : Nat) : DoubleNodeWithMerkleProof where
  dagNodes :=
    let word := wordAt dataset index
    [⟨(conventionalWord word).1, (length_conventionalWord word).1⟩,
      ⟨(conventionalWord word).2, (length_conventionalWord word).2⟩]
  proof := dagPath dataset index

theorem honestNode_lengths [Hashing] (dataset : List Word) (index : Nat) :
    (honestNode dataset index).dagNodes.length = 2 ∧
      (honestNode dataset index).proof.length = Nat.clog 2 dataset.length :=
  ⟨rfl, length_paddedPath index _⟩

theorem honestNode_applied [Hashing] {dataset : List Word} {index : Nat} (inside : index < dataset.length)
    (few : dataset.length ≤ 2 ^ 64) :
    (honestNode dataset index).applyMerkleProof index =
      some (dagNode dataset (Nat.clog 2 dataset.length) 0) := by
  refine applyMerkleProof_eq_some.mpr ⟨_, _, rfl, rfl, ?_, ?_⟩
  · rw [(honestNode_lengths dataset index).2]
    exact Nat.clog_le_of_le_pow few
  · have climbed := climbIndex_paddedPath sha256Hash
      (fun k => sha256ElementHash (wordAt dataset k)) inside (Nat.clog 2 dataset.length)
    have small : index / 2 ^ Nat.clog 2 dataset.length = 0 :=
      Nat.div_eq_of_lt (inside.trans_le (Nat.le_pow_clog (by omega) _))
    rw [small, Nat.zero_mul] at climbed
    exact climbed

section

variable [HexPackages]

theorem writeArray_map {α β : Type} (documented : HexPackages.Documented) {items : List β} (arg : β → α)
    (write : α → Option Bytes) (bytes : β → Bytes) (few : items.length < 2 ^ 32)
    (each : ∀ item ∈ items, write (arg item) = some (bytes item)) :
    writeArray (items.map arg) write = some (Borsh.serializeVec bytes items) := by
  have parts : (items.map arg).mapM write = some (items.map bytes) := by
    rw [List.mapM_map]
    exact mapM_eq_map each
  simp [writeArray, parts, documented.writeU32 _ few, Borsh.serializeVec, List.flatMap]

/-- A number without its leading zeros, padded again. -/
theorem padLeft_encodeBig (documented : HexPackages.Documented) (data : Bytes) (nonempty : data ≠ []) :
    padLeft (encodeBig (beNat data)) (2 * data.length) = hexText (hexOf data) := by
  have positive : 0 < data.length := List.length_pos_iff.mpr nonempty
  have fits : beNat data < 16 ^ (2 * data.length) := by
    rw [pow_mul]
    exact beNat_lt data
  rw [documented.encodeBig, documented.padLeft, replicate_append_toDigits (by omega) fits, hexFixed_beNat]

/-- Two numbers of an element as one text. -/
theorem padLeft_halves (documented : HexPackages.Documented) (word : Word) {i : Nat} (inside : i + 1 < 4) :
    padLeft (encodeBig (beNat (word.part i).reverse)) 64 ++
        String.ofList ((padLeft (encodeBig (beNat (word.part (i + 1)).reverse)) 64).toList.drop 2) =
      hexText (hexOf ((word.part i).reverse ++ (word.part (i + 1)).reverse)) := by
  have padded (j : Nat) (below : j < 4) :
      padLeft (encodeBig (beNat (word.part j).reverse)) 64 = hexText (hexOf (word.part j).reverse) := by
    have long : (word.part j).reverse.length = 32 := by simp [length_part word below]
    have text := padLeft_encodeBig documented (word.part j).reverse
      (List.ne_nil_of_length_pos (by omega))
    rwa [long] at text
  rw [padded i (by omega), padded (i + 1) inside, hexText_append, hexOf_append]

theorem padLeft_hash (documented : HexPackages.Documented) (hash : Hash) :
    padLeft (encodeBig (beNat ((zeroBytes 16).toList ++ hash.toList))) 32 = hexText (hexOf hash.toList) := by
  have value : beNat ((zeroBytes 16).toList ++ hash.toList) = beNat hash.toList := by
    rw [beNat_append, show (zeroBytes 16).toList = List.replicate 16 0 from rfl, beNat_replicate_zero]
    simp
  have text := padLeft_encodeBig documented hash.toList (List.ne_nil_of_length_pos (by simp))
  rw [value]
  simpa using text

/-- A text of some bytes. -/
def textOf {n : Nat} (data : FixedBytes n) : String := hexText (hexOf data.toList)

/-- A node as `submitBlock` has it. -/
def DagNodeArg.of (node : DoubleNodeWithMerkleProof) : DagNodeArg :=
  { dagNodes := node.dagNodes.map textOf, proof := node.proof.map textOf }

/-- A node in Borsh. -/
def nodeBytes (node : DoubleNodeWithMerkleProof) : Bytes :=
  Borsh.serializeVec List.Vector.toList node.dagNodes ++ Borsh.serializeVec List.Vector.toList node.proof

theorem serialize_of (documented : HexPackages.Documented) {node : DoubleNodeWithMerkleProof}
    (nodes : node.dagNodes.length < 2 ^ 32) (hashes : node.proof.length < 2 ^ 32) :
    (DagNodeArg.of node).serialize = some (nodeBytes node) := by
  have first := writeArray_map documented textOf hexToBytes List.Vector.toList nodes
    fun item _ => documented.hexToBytes item.toList
  have second := writeArray_map documented textOf hexToBytes List.Vector.toList hashes
    fun item _ => documented.hexToBytes item.toList
  simp [DagNodeArg.serialize, DagNodeArg.of, first, second, nodeBytes]

end

theorem deserializeNode_reads {node : DoubleNodeWithMerkleProof} (nodes : node.dagNodes.length < 2 ^ 32)
    (hashes : node.proof.length < 2 ^ 32) : deserializeNode.Reads (nodeBytes node) node := by
  have first := Borsh.vec_reads nodes fun value _ => Borsh.fixed_reads value
  have second := Borsh.vec_reads hashes fun value _ => Borsh.fixed_reads value
  exact first.bind (second.map fun proof => DoubleNodeWithMerkleProof.mk node.dagNodes proof)

theorem readInput_eq (header : Bytes) (nodes : List DoubleNodeWithMerkleProof)
    (short : header.length < 2 ^ 32) (few : nodes.length < 2 ^ 32)
    (each : ∀ node ∈ nodes, node.dagNodes.length < 2 ^ 32 ∧ node.proof.length < 2 ^ 32) :
    readInput (Borsh.serializeBytes header ++ Borsh.serializeVec nodeBytes nodes) =
      some (header, nodes) := by
  have read : deserializeInput.Reads (Borsh.serializeBytes header ++ Borsh.serializeVec nodeBytes nodes)
      (header, nodes) :=
    (Borsh.bytes_reads short).bind ((Borsh.vec_reads few fun node member =>
      deserializeNode_reads (each node member).1 (each node member).2).map (Prod.mk header))
  have whole := read []
  rw [List.append_nil] at whole
  rw [readInput, whole]

section

variable [HexPackages] [Hashing]

/-- The program's output for honest proofs, grouped again. -/
theorem submitBlock_eq (documented : HexPackages.Documented) (header : Bytes) (dataset : List Word)
    (indices : List Nat) :
    submitBlock {
      headerRLP := encode header
      elements := indices.flatMap fun index => (toUint256Array (wordAt dataset index)).map encodeBig
      merkleProofs := indices.flatMap fun index =>
        (hashesToBranchesArray (dagPath dataset index)).map fun element => encodeBig (beNat element)
      proofLength := Nat.clog 2 dataset.length } =
    some { blockHeader := header, dagNodes := indices.map fun index => .of (honestNode dataset index) } := by
  -- The four numbers of an element as two pairs.
  have pairs : (indices.flatMap fun index => (toUint256Array (wordAt dataset index)).map encodeBig) =
      (indices.flatMap fun index => [(wordAt dataset index, 0), (wordAt dataset index, 2)]).flatMap
        fun (word, i) => [encodeBig (beNat (word.part i).reverse),
          encodeBig (beNat (word.part (i + 1)).reverse)] := by
    rw [List.flatMap_assoc]
    rfl
  have h512s : mapPairs (indices.flatMap fun index => (toUint256Array (wordAt dataset index)).map encodeBig)
      (fun _ element next =>
        some (padLeft element 64 ++ String.ofList ((padLeft next 64).toList.drop 2))) =
      some (indices.flatMap fun index => [hexText (hexOf (conventionalWord (wordAt dataset index)).1),
        hexText (hexOf (conventionalWord (wordAt dataset index)).2)]) := by
    rw [pairs, mapPairs_flatMap (g := fun (word, i) =>
      hexText (hexOf ((word.part i).reverse ++ (word.part (i + 1)).reverse)))]
    · rw [List.map_flatMap]
      rfl
    · rintro k ⟨word, i⟩ found
      have member := List.mem_of_getElem? found
      obtain ⟨index, -, same⟩ := List.mem_flatMap.mp member
      have low : i + 1 < 4 := by
        simp only [List.mem_cons, Prod.mk.injEq, List.not_mem_nil, or_false] at same
        omega
      exact congrArg some (padLeft_halves documented word low)
  simp only [submitBlock, h512s, documented.encode, documented.hexToBytes, Option.bind_eq_bind,
    Option.bind_some]
  rw [mapPairs_flatMap (g := fun index => DagNodeArg.of (honestNode dataset index))]
  · rfl
  · intro k index found
    rw [flatMap_slice (by simp [hashesToBranchesArray]) found]
    simp only [Option.some.injEq, DagNodeArg.of, honestNode, hashesToBranchesArray, List.map_map,
      DagNodeArg.mk.injEq]
    refine ⟨rfl, ?_⟩
    apply List.map_congr_left
    intro hash _
    exact padLeft_hash documented hash

/-- Every proof of the relayer is a full path, and what the contract reads of it is
accepted as the element that it is for. Indices are of type `uint32`, and arrays
have fewer than `2 ^ 32` entries. -/
theorem relayed_proofs_accepted (documented : HexPackages.Documented) (dataset : List Word)
    (grouped : Grouped dataset) (numbered : dataset.length < 2 ^ 32) (epoch : Nat) (header : Bytes)
    (short : header.length < 2 ^ 32) (indices : List Nat)
    (inside : ∀ index ∈ indices, index < dataset.length) (few : indices.length < 2 ^ 32) :
    ∃ cache root, calculateDatasetMerkleRoot epoch dataset = some cache ∧ dagRoot dataset = some root ∧
      (∀ index ∈ indices, ∃ element proof, calculateProof dataset index cache = some (element, proof) ∧
        proof.length = binaryDigits (dataset.length - 1)) ∧
      ∃ output args input nodes, relayerOutput dataset header indices cache = some output ∧
        submitBlock output = some args ∧ args.serialize = some input ∧
        readInput input = some (header, nodes) ∧ nodes.length = indices.length ∧
        ∀ (i index : Nat), indices[i]? = some index →
          ∃ (node : DoubleNodeWithMerkleProof) (first second : H512), nodes[i]? = some node ∧
          node.applyMerkleProof index = some root ∧ node.dagNodes = [first, second] ∧
          (first.toList.take 32).reverse ++ (first.toList.drop 32).reverse ++
              ((second.toList.take 32).reverse ++ (second.toList.drop 32).reverse) =
            (wordAt dataset index).toList := by
  have depth : Nat.clog 2 dataset.length < 2 ^ 32 :=
    (Nat.clog_le_of_le_pow numbered.le).trans_lt (by decide)
  have sizes (index : Nat) : (honestNode dataset index).dagNodes.length < 2 ^ 32 ∧
      (honestNode dataset index).proof.length < 2 ^ 32 := by
    rw [(honestNode_lengths dataset index).1, (honestNode_lengths dataset index).2]
    exact ⟨by decide, depth⟩
  obtain ⟨cache, built, length, cached⟩ : ∃ cache, calculateDatasetMerkleRoot epoch dataset = some cache ∧
      cache.proofLength = Nat.clog 2 dataset.length ∧
      cache.proofs = (groupIndices (liveLevel dataset) dataset.length).map fun index =>
        (dagPath dataset index).drop (liveLevel dataset) := by
    refine ⟨_, calculateDatasetMerkleRoot_eq grouped epoch, ?_⟩
    simp only [and_self]
  have proofs : ∀ index ∈ indices, calculateProof dataset index cache =
      some (wordAt dataset index, dagPath dataset index) :=
    fun index member => calculateProof_eq grouped (inside index member) cached
  refine ⟨cache, _, built, dagRoot_eq grouped.nonempty, ?_, ?_⟩
  · intro index member
    refine ⟨_, _, proofs index member, ?_⟩
    simp [grouped.digits]
  · have submitted := submitBlock_eq documented header dataset indices
    have serialized : (AddBlockHeaderInput.mk header
        (indices.map fun index => DagNodeArg.of (honestNode dataset index))).serialize =
        some (Borsh.serializeBytes header ++
          Borsh.serializeVec nodeBytes (indices.map (honestNode dataset))) := by
      have first := writeArray_map documented id (fun byte => some [byte]) (fun byte => [byte]) short
        fun _ _ => rfl
      have second := writeArray_map documented (fun index => DagNodeArg.of (honestNode dataset index))
        DagNodeArg.serialize (fun index => nodeBytes (honestNode dataset index)) few fun index _ => serialize_of documented (sizes index).1 (sizes index).2
      rw [List.map_id] at first
      simp [AddBlockHeaderInput.serialize, first, second, Borsh.serializeVec, Borsh.serializeBytes,
        List.flatMap_map]
    have received := readInput_eq header (indices.map (honestNode dataset)) short
      (by simpa using few) (by
        intro node member
        obtain ⟨index, -, rfl⟩ := List.mem_map.mp member
        exact sizes index)
    refine ⟨_, _, _, _, ?_, submitted, serialized, received, by simp, ?_⟩
    · simp [relayerOutput, mapM_eq_map proofs, List.flatMap_map, length]
    · intro i index found
      have member := List.mem_of_getElem? found
      have reversed := reversed_conventionalWord (wordAt dataset index)
      refine ⟨honestNode dataset index, _, _, by simp [found],
        honestNode_applied (inside index member) (by omega), rfl, ?_⟩
      simp only [List.Vector.toList_mk]
      rw [reversed.1, reversed.2, Nat.mul_zero, Nat.mul_one, List.drop_zero, ← List.take_add]
      exact List.take_of_length_le (by simp)

end

section Sample

def hexDigit (char : Char) : Option Nat := (List.range 16).find? fun value => value.digitChar = char

def parseHex : List Char → Option Bytes
  | [] => some []
  | high :: low :: rest => do
    let upper ← hexDigit high
    let lower ← hexDigit low
    let bytes ← parseHex rest
    return UInt8.ofNat (upper * 16 + lower) :: bytes
  | _ => none

/-- The functions as their packages define them for texts after `0x`. -/
@[reducible] def sampleHexPackages : HexPackages where
  encode := fun data => hexText (hexOf data)
  encodeBig := fun value => hexText (Nat.toDigits 16 value)
  padLeft := fun text width => hexText (List.replicate (width - (text.toList.drop 2).length) '0' ++
    text.toList.drop 2)
  hexToBytes := fun text => parseHex (text.toList.drop 2)
  writeU32 := leBytes 4

theorem hexDigit_digitChar {value : Nat} (small : value < 16) : hexDigit value.digitChar = some value := by
  have all : ∀ value ∈ List.range 16, hexDigit value.digitChar = some value := by decide
  exact all value (List.mem_range.mpr small)

theorem parseHex_hexOf (data : Bytes) : parseHex (hexOf data) = some data := by
  induction data with
  | nil => rfl
  | cons byte rest ih =>
    have small : byte.toNat < 256 := byte.toNat_lt
    change parseHex ((byte.toNat / 16).digitChar :: (byte.toNat % 16).digitChar :: hexOf rest) = _
    rw [parseHex, hexDigit_digitChar (by omega), hexDigit_digitChar (by omega), ih]
    have whole : byte.toNat / 16 * 16 + byte.toNat % 16 = byte.toNat := by omega
    simp only [Option.bind_eq_bind, Option.bind_some, Option.pure_def, whole, UInt8.ofNat_toNat]

theorem sampleHexPackages_documented : @HexPackages.Documented sampleHexPackages :=
  letI := sampleHexPackages
  { encode := fun _ => rfl
    encodeBig := fun _ => rfl
    padLeft := by
      intro digits width
      simp [padLeft, hexText]
    hexToBytes := by
      intro data
      simpa [hexToBytes, hexText] using parseHex_hexOf data
    writeU32 := fun _ _ => rfl }

/-- A dataset of two elements more than the cache has groups for. -/
def sampleDataset : List Word := List.replicate 32770 (zeroBytes 128)

theorem length_sampleDataset : sampleDataset.length = 32770 := List.length_replicate

theorem sampleDataset_grouped : Grouped sampleDataset where
  many := by
    rw [length_sampleDataset]
    decide
  half := by
    rw [length_sampleDataset]
    decide

theorem relayed_proofs_accepted_sample :
    letI := sampleHexPackages
    letI := Hashing.platform
    ∃ cache root output args input nodes, calculateDatasetMerkleRoot 0 sampleDataset = some cache ∧
      relayerOutput sampleDataset [1, 2] [0, 32769] cache = some output ∧
      submitBlock output = some args ∧ args.serialize = some input ∧
      readInput input = some ([1, 2], nodes) ∧
      ∃ node : DoubleNodeWithMerkleProof, nodes[1]? = some node ∧
        node.applyMerkleProof 32769 = some root := by
  let := sampleHexPackages
  let := Hashing.platform
  obtain ⟨cache, root, built, -, -, output, args, input, nodes, printed, submitted, serialized, received,
    -, each⟩ := relayed_proofs_accepted sampleHexPackages_documented sampleDataset sampleDataset_grouped
      (by rw [length_sampleDataset]; decide) 0 [1, 2] (by decide) [0, 32769]
      (by rw [length_sampleDataset]; decide) (by decide)
  obtain ⟨node, _, _, present, applied, -⟩ := each 1 32769 rfl
  exact ⟨cache, root, output, args, input, nodes, built, printed, submitted, serialized, received, node,
    present, applied⟩

end Sample

end RainbowBridge.Relay
