import RainbowBridge.EthClient.Contract
import RainbowBridge.EthashProof.DagTree

/-! What the `ethash` crate is handed when the contract checks the proof of work of
a header: nothing but items of the dataset whose root the contract has. -/

namespace RainbowBridge.EthClient

open Lib EthTypes Near EthashProof

/-- A computation that asks for items of the dataset one after the other. -/
inductive Asking (β : Type) where
  | done (result : Option β)
  | ask (offset : Nat) (next : H512 → Asking β)

namespace Asking

variable {β : Type}

/-- The calls of the lookup are numbered from `idx` on. -/
def run (lookup : Nat → Nat → Option H512) (idx : Nat) : Asking β → Option β
  | done result => result
  | ask offset next => do
    let item ← lookup idx offset
    (next item).run lookup (idx + 1)

/-- The items that are handed over, with their offsets. -/
def handed (lookup : Nat → Nat → Option H512) (idx : Nat) : Asking β → List (Nat × H512)
  | done _ => []
  | ask offset next =>
    match lookup idx offset with
    | none => []
    | some item => (offset, item) :: (next item).handed lookup (idx + 1)

/-- The calls of the lookup: their numbers and the offsets. -/
def asked (lookup : Nat → Nat → Option H512) (idx : Nat) : Asking β → List (Nat × Nat)
  | done _ => []
  | ask offset next =>
    (idx, offset) ::
      match lookup idx offset with
      | none => []
      | some item => (next item).asked lookup (idx + 1)

/-- Items are asked for in pairs with the offsets `2 * p` and `2 * p + 1`. -/
inductive Paired (bound : Nat) : Asking β → Prop
  | done (result : Option β) : Paired bound (.done result)
  | pair (p : Nat) (inside : 2 * p + 1 < bound) (next : H512 → H512 → Asking β)
    (rest : ∀ first second, Paired bound (next first second)) :
    Paired bound (.ask (2 * p) fun first => .ask (2 * p + 1) fun second => next first second)

end Asking

/-- The two nodes are the element, each 32 bytes of it reversed. -/
def DoubleNodeWithMerkleProof.Encodes (node : DoubleNodeWithMerkleProof) (data : Word) : Prop :=
  ∃ first second, node.dagNodes[0]? = some first ∧ node.dagNodes[1]? = some second ∧
    (first.toList, second.toList) = conventionalWord data

section

variable [Hashing]

/-- The strings that the contract hashes to check a node. -/
def DoubleNodeWithMerkleProof.strings (node : DoubleNodeWithMerkleProof) (index : Nat) : Set Bytes :=
  {string | ∃ first second, node.dagNodes[0]? = some first ∧ node.dagNodes[1]? = some second ∧
    (string = first.toList ++ second.toList ∨
      string ∈ climbIndexStrings sha256Last pairString index (sha256Last (first.toList ++ second.toList))
        node.proof)}

theorem applyMerkleProof_eq_some {node : DoubleNodeWithMerkleProof} {index : Nat} {root : H128} :
    node.applyMerkleProof index = some root ↔
      ∃ first second, node.dagNodes[0]? = some first ∧ node.dagNodes[1]? = some second ∧
        node.proof.length ≤ 64 ∧
        climbIndex sha256Hash index (sha256Last (first.toList ++ second.toList)) node.proof = root := by
  simp only [DoubleNodeWithMerkleProof.applyMerkleProof, Option.bind_eq_bind, Option.bind_eq_some_iff,
    Option.guard_eq_some', exists_const, Option.pure_def, Option.some.injEq]
  constructor
  · rintro ⟨first, zero, second, one, short, climbed⟩
    exact ⟨first, second, zero, one, short, climbed⟩
  · rintro ⟨first, second, zero, one, short, climbed⟩
    exact ⟨first, zero, second, one, short, climbed⟩

/-- A proof that leads to the root has one step for each level of the tree, and
starts at the element of that index. -/
theorem applyMerkleProof_sound {elements : List Word} (several : elements ≠ [])
    {node : DoubleNodeWithMerkleProof} {index : Nat} (inside : index < elements.length)
    (free : Set.InjOn sha256Last (dagStrings elements ∪ node.strings index)) {root : H128}
    (built : dagRoot elements = some root) (applied : node.applyMerkleProof index = some root) :
    node.proof.length = Nat.clog 2 elements.length ∧ node.Encodes (wordAt elements index) := by
  obtain ⟨first, second, zero, one, -, climbed⟩ := applyMerkleProof_eq_some.mp applied
  rw [dagRoot_eq several, Option.some.injEq] at built
  have small : index < 2 ^ Nat.clog 2 elements.length :=
    inside.trans_le (Nat.le_pow_clog (by omega) elements.length)
  have apart : ∀ {a b : Hash}, pairString a b ≠ first.toList ++ second.toList := by
    intro a b same
    have lengths := congrArg List.length same
    simp [length_pairString] at lengths
  obtain ⟨length, leaf⟩ := climbIndex_sound free pairString_injective pairString_ne_elementString
    apart
    (.inr ⟨first, second, zero, one, .inl rfl⟩) (Set.subset_union_left)
    (fun string member => .inr ⟨first, second, zero, one, .inr member⟩) (le_refl _) (dvd_zero _)
    (Nat.lt_of_le_of_lt (Nat.zero_le _) inside) (climbed.trans built.symm)
  rw [Nat.zero_add, Nat.mod_eq_of_lt small] at leaf
  refine ⟨length, first, second, zero, one, ?_⟩
  have halves := List.append_inj (leaf inside)
    (by rw [(length_conventionalWord (wordAt elements index)).1]; simp)
  rw [halves.1, halves.2]

omit [Hashing] in
/-- The 64 bytes of a dataset at an offset. -/
theorem dataset_slice {elements : List Word} {p : Nat} (inside : p < elements.length) {half : Nat}
    (low : half < 2) :
    ((elements.flatMap List.Vector.toList).drop (64 * (2 * p + half))).take 64 =
      ((wordAt elements p).toList.drop (64 * half)).take 64 := by
  induction elements generalizing p with
  | nil => simp at inside
  | cons first rest ih =>
    have long : first.toList.length = 128 := List.Vector.toList_length first
    cases p with
    | zero =>
      rw [List.flatMap_cons, List.drop_append_of_le_length (by omega),
        List.take_append_of_le_length (by simp; omega)]
      simp [wordAt]
    | succ p =>
      have split : 64 * (2 * (p + 1) + half) = first.toList.length + 64 * (2 * p + half) := by omega
      rw [List.flatMap_cons, split, List.drop_length_add_append, ih (by simpa using inside)]
      simp [wordAt]

omit [Hashing] in
/-- The contract's reversals undo those of the encoding. -/
theorem reversed_conventionalWord (data : Word) :
    ((conventionalWord data).1.take 32).reverse ++ ((conventionalWord data).1.drop 32).reverse =
        (data.toList.drop (64 * 0)).take 64 ∧
      ((conventionalWord data).2.take 32).reverse ++ ((conventionalWord data).2.drop 32).reverse =
        (data.toList.drop (64 * 1)).take 64 := by
  have halves (i : Nat) (inside : i < 4) (next : Bytes) :
      (((data.part i).reverse ++ next).take 32).reverse ++ (((data.part i).reverse ++ next).drop 32).reverse =
        data.part i ++ next.reverse := by
    have long : (data.part i).reverse.length = 32 := by simp [length_part data inside]
    rw [List.take_append_of_le_length (by omega), List.take_of_length_le (by omega), ← long,
      List.drop_left, List.reverse_reverse]
  simp only [conventionalWord]
  rw [halves 0 (by omega), halves 2 (by omega), List.reverse_reverse, List.reverse_reverse]
  simp only [Word.part]
  constructor
  · rw [show (64 : Nat) = 32 + 32 from rfl, List.take_add]
    simp
  · rw [show (64 : Nat) = 32 + 32 from rfl, List.take_add]
    simp [List.drop_drop]

omit [Hashing] in
theorem DoubleNodeWithMerkleProof.Encodes.slice {node : DoubleNodeWithMerkleProof} {data : Word} (encodes : node.Encodes data)
    {half : Nat} (low : half < 2) {found : H512} (read : node.dagNodes[half]? = some found) :
    (found.toList.take 32).reverse ++ (found.toList.drop 32).reverse =
      (data.toList.drop (64 * half)).take 64 := by
  obtain ⟨first, second, zero, one, same⟩ := encodes
  obtain ⟨left, right⟩ := Prod.mk.inj same
  have back := reversed_conventionalWord data
  obtain rfl | rfl : half = 0 ∨ half = 1 := by omega
  · cases zero.symm.trans read
    rw [left]
    exact back.1
  · cases one.symm.trans read
    rw [right]
    exact back.2

theorem lookup_eq_some {merkleRoot : H128} {nodes : List DoubleNodeWithMerkleProof} {idx offset : Nat}
    {item : H512} (found : lookup true merkleRoot nodes idx offset = some item) :
    ∃ node data, nodes[idx / 2]? = some node ∧
      (idx % 2 = 0 → node.applyMerkleProof (offset / 2) = some merkleRoot) ∧
      node.dagNodes[idx % 2]? = some data ∧
      item.toList = (data.toList.take 32).reverse ++ (data.toList.drop 32).reverse := by
  obtain ⟨node, present, passed⟩ := Option.bind_eq_some_iff.mp found
  obtain ⟨_, checked, passed⟩ := Option.bind_eq_some_iff.mp passed
  obtain ⟨data, read, same⟩ := Option.bind_eq_some_iff.mp passed
  cases same
  refine ⟨node, data, present, ?_, read, rfl⟩
  intro even
  rw [checkNode, if_pos ⟨even, rfl⟩, Option.guard_eq_some'] at checked
  exact checked.symm

/-- The strings that the contract hashes for the calls of the lookup. -/
def checkedStrings (nodes : List DoubleNodeWithMerkleProof) (calls : List (Nat × Nat)) : Set Bytes :=
  {string | ∃ idx offset node, (idx, offset) ∈ calls ∧ idx % 2 = 0 ∧ nodes[idx / 2]? = some node ∧
    string ∈ node.strings (offset / 2)}

/-- The items of a pair come from one node, which was checked for the first. -/
theorem handed_sound {β : Type} {elements : List Word} {nodes : List DoubleNodeWithMerkleProof}
    {root : H128} (built : dagRoot elements = some root) {program : Asking β}
    (paired : program.Paired (2 * elements.length)) (k : Nat)
    (free : Set.InjOn sha256Last (dagStrings elements ∪
      checkedStrings nodes (program.asked (lookup true root nodes) (2 * k)))) {offset : Nat} {item : H512}
    (handed : (offset, item) ∈ program.handed (lookup true root nodes) (2 * k)) :
    item.toList = ((elements.flatMap List.Vector.toList).drop (64 * offset)).take 64 := by
  induction paired generalizing k with
  | done result => simp [Asking.handed] at handed
  | pair p inside next rest ih =>
    have present : p < elements.length := by omega
    simp only [Asking.handed] at handed
    simp only [Asking.asked] at free
    cases found : lookup true root nodes (2 * k) (2 * p) with
    | none => simp [found] at handed
    | some first =>
      simp only [found] at handed free
      obtain ⟨node, data, stored, checked, read, reversed⟩ := lookup_eq_some found
      rw [Nat.mul_div_cancel_left k (by omega)] at stored
      rw [Nat.mul_mod_right] at checked read
      rw [Nat.mul_div_cancel_left p (by omega)] at checked
      have encodes : node.Encodes (wordAt elements p) := by
        refine (applyMerkleProof_sound (List.ne_nil_of_length_pos (by omega)) present ?_ built
          (checked rfl)).2
        refine free.mono (Set.union_subset_union_right _ ?_)
        intro string member
        refine ⟨2 * k, 2 * p, node, by simp, by simp, ?_, ?_⟩
        · rwa [Nat.mul_div_cancel_left k (by omega)]
        · rwa [Nat.mul_div_cancel_left p (by omega)]
      obtain same | later := List.mem_cons.mp handed
      · cases same
        rw [reversed, encodes.slice (by omega) read]
        exact (dataset_slice present (by omega)).symm
      · cases other : lookup true root nodes (2 * k + 1) (2 * p + 1) with
        | none => simp [other] at later
        | some second =>
          simp only [other] at later free
          obtain ⟨node', data', stored', -, read', reversed'⟩ := lookup_eq_some other
          rw [show (2 * k + 1) / 2 = k by omega, stored, Option.some.injEq] at stored'
          subst stored'
          rw [show (2 * k + 1) % 2 = 1 by omega] at read'
          obtain same | after := List.mem_cons.mp later
          · cases same
            rw [reversed', encodes.slice (by omega) read']
            exact (dataset_slice present (by omega)).symm
          · refine ih first second (k + 1) (free.mono (Set.union_subset_union_right _ ?_)) after
            rintro string ⟨idx, offset, node, call, rest⟩
            exact ⟨idx, offset, node, List.mem_cons_of_mem _ (List.mem_cons_of_mem _ call), rest⟩

/-- Whatever proofs a submitter gives, the crate works on the dataset whose root the
contract has for the epoch; and a proof is accepted for no other element. -/
theorem dag_authentication_sound (ethash : EthashCrate) (client : Client) (elements : List Word)
    (several : 2 ≤ elements.length) (root : H128) (built : dagRoot elements = some root) :
    (∀ (headerHash : H256) (nonce : H64) (headerNumber : Nat) (nodes : List DoubleNodeWithMerkleProof)
        (program : Asking (H256 × H256)),
      client.dagMerkleRoot (headerNumber % 2 ^ 32 / 30000) = some root →
      client.validateEthash = true →
      (∀ lookup, ethash.hashimotoWithHasher headerHash nonce
        (ethash.getFullSize (headerNumber / 30000)) lookup = program.run lookup 0) →
      program.Paired (2 * elements.length) →
      Set.InjOn sha256Last (dagStrings elements ∪
        checkedStrings nodes (program.asked (lookup true root nodes) 0)) →
      ∀ result, client.hashimotoMerkle ethash headerHash nonce headerNumber nodes = some result →
      ∀ offset item, (offset, item) ∈ program.handed (lookup client.validateEthash root nodes) 0 →
        item.toList = ((elements.flatMap List.Vector.toList).drop (64 * offset)).take 64) ∧
    ∀ (node : DoubleNodeWithMerkleProof) (index : Nat), index < elements.length →
      Set.InjOn sha256Last (dagStrings elements ∪ node.strings index) →
      node.applyMerkleProof index = some root →
        node.proof.length = Nat.clog 2 elements.length ∧ node.Encodes (wordAt elements index) := by
  constructor
  · intro headerHash nonce headerNumber nodes program entry validates _ paired free _ _ offset item handed
    rw [validates] at handed
    exact handed_sound built paired 0 (by simpa using free) (by simpa using handed)
  · intro node index inside free applied
    exact applyMerkleProof_sound (List.ne_nil_of_length_pos (by omega)) inside free built applied

end

section Sample

def onesWord : Word := List.Vector.replicate 128 1

/-- A dataset of two elements. -/
def sampleWords : List Word := [zeroBytes 128, onesWord]

/-- Asks for both items of the first element. -/
def sampleAsking : Asking (H256 × H256) :=
  .ask (2 * 0) fun _ => .ask (2 * 0 + 1) fun _ => .done (some (zeroBytes 32, zeroBytes 32))

def samplePairEthash : EthashCrate where
  getFullSize := fun _ => 256
  crossBoundary := id
  hashimotoWithHasher := fun _ _ _ lookup => sampleAsking.run lookup 0

/-- The first element with its proof. -/
def samplePairNode [Hashing] : DoubleNodeWithMerkleProof where
  dagNodes := [zeroBytes 64, zeroBytes 64]
  proof := [sha256ElementHash onesWord]

/-- A contract that has the root of the two elements for the first epoch. -/
def dagClient [Hashing] : Client where
  validateEthash := true
  dagsStartEpoch := 0
  dagsMerkleRoots := [dagNode sampleWords 1 0]
  bestHeaderHash := zeroBytes 32
  hashesGcThreshold := 0
  finalizedGcThreshold := 0
  numConfirmations := 0
  canonicalHeaderHashes := fun _ => none
  allHeaderHashes := fun _ => none
  headers := fun _ => none
  infos := fun _ => none
  trustedSigner := none
  paused := 0

/-- The strings hashed for the two elements, and what is hashed above them. -/
def sampleStrings [Hashing] : List Bytes :=
  [elementString (zeroBytes 128), elementString onesWord,
    pairString (sha256ElementHash (zeroBytes 128)) (sha256ElementHash onesWord)]

theorem sampleStrings_injOn : @Set.InjOn _ _ (@sha256Last .platform)
    {string | string ∈ @sampleStrings .platform} := by
  let := Hashing.platform
  have different : (sampleStrings.map sha256Last).Nodup := by decide +kernel
  intro first known second known' same
  exact List.inj_on_of_nodup_map different known known' same

theorem zeroNodes_eq : (zeroBytes 64).toList ++ (zeroBytes 64).toList = elementString (zeroBytes 128) := by
  decide

theorem samplePairNode_applied [Hashing] :
    samplePairNode.applyMerkleProof 0 = some (dagNode sampleWords 1 0) := by
  refine applyMerkleProof_eq_some.mpr ⟨zeroBytes 64, zeroBytes 64, rfl, rfl, by simp [samplePairNode], ?_⟩
  rw [zeroNodes_eq]
  rfl

theorem samplePairNode_lookup [Hashing] (half : Nat) (low : half < 2) :
    lookup true (dagNode sampleWords 1 0) [samplePairNode] half half = some (zeroBytes 64) := by
  have reversed : ((zeroBytes 64).toList.take 32).reverse ++ ((zeroBytes 64).toList.drop 32).reverse =
      (zeroBytes 64).toList := by
    decide
  obtain rfl | rfl : half = 0 ∨ half = 1 := by omega
  · rw [lookup]
    simp only [checkNode, List.getElem?_cons_zero, Option.bind_eq_bind, Option.bind_some,
      samplePairNode_applied, Nat.zero_div]
    exact congrArg some (toList_injective reversed)
  · exact congrArg some (toList_injective reversed)

theorem samplePairNode_strings [Hashing] : samplePairNode.strings 0 ⊆ {string | string ∈ sampleStrings} := by
  rintro string ⟨first, second, zero, one, rfl | ⟨level, sibling, found, rfl⟩⟩
  · cases zero
    cases one
    simp [sampleStrings, zeroNodes_eq]
  · cases zero
    cases one
    cases level with
    | zero =>
      cases found
      simp [sampleStrings, climbIndex, zeroNodes_eq, sha256ElementHash]
    | succ level => simp [samplePairNode] at found

theorem depth_sampleWords : Nat.clog 2 sampleWords.length = 1 := by
  decide +kernel

theorem dagStrings_sampleWords [Hashing] : dagStrings sampleWords ⊆ {string | string ∈ sampleStrings} := by
  rintro string (⟨k, inside, rfl⟩ | ⟨level, start, low, aligned, inside, rfl⟩)
  · obtain rfl | rfl : k = 0 ∨ k = 1 := by
      simp [sampleWords] at inside
      omega
    · simp [sampleStrings, sampleWords, wordAt]
    · simp [sampleStrings, sampleWords, wordAt]
  · rw [depth_sampleWords] at low
    obtain rfl : level = 0 := by omega
    obtain rfl : start = 0 := by
      simp [sampleWords] at inside
      omega
    have right : rightStart sampleWords.length 0 0 = 1 := rfl
    refine List.mem_cons_of_mem _ (List.mem_cons_of_mem _ (List.mem_singleton.mpr ?_))
    rw [right]
    rfl

theorem samplePair_run [Hashing] :
    dagClient.hashimotoMerkle samplePairEthash (zeroBytes 32) (zeroBytes 8) 0 [samplePairNode] =
        some (zeroBytes 32, zeroBytes 32) ∧
      (sampleAsking.handed (lookup true (dagNode sampleWords 1 0) [samplePairNode]) 0).length = 2 ∧
      sampleAsking.asked (lookup true (dagNode sampleWords 1 0) [samplePairNode]) 0 = [(0, 0), (1, 1)] := by
  have first := samplePairNode_lookup 0 (by omega)
  have second := samplePairNode_lookup 1 (by omega)
  refine ⟨?_, ?_, ?_⟩
  · change sampleAsking.run (lookup true (dagNode sampleWords 1 0) [samplePairNode]) 0 = _
    simp [sampleAsking, Asking.run, first, second]
  · simp [sampleAsking, Asking.handed, first, second]
  · simp [sampleAsking, Asking.asked, first, second]

theorem dag_authentication_sound_sample :
    letI := Hashing.platform
    dagClient.hashimotoMerkle samplePairEthash (zeroBytes 32) (zeroBytes 8) 0 [samplePairNode] =
        some (zeroBytes 32, zeroBytes 32) ∧
      (sampleAsking.handed (lookup true (dagNode sampleWords 1 0) [samplePairNode]) 0).length = 2 ∧
      (∀ offset item,
        (offset, item) ∈ sampleAsking.handed (lookup true (dagNode sampleWords 1 0) [samplePairNode]) 0 →
          item.toList = ((sampleWords.flatMap List.Vector.toList).drop (64 * offset)).take 64) ∧
      samplePairNode.proof.length = Nat.clog 2 2 := by
  let := Hashing.platform
  have built : dagRoot sampleWords = some (dagNode sampleWords 1 0) := by
    rw [dagRoot_eq (by simp [sampleWords]), depth_sampleWords]
  obtain ⟨result, handed, calls⟩ := samplePair_run
  obtain ⟨items, proofs⟩ := dag_authentication_sound samplePairEthash dagClient sampleWords
    (by decide) (dagNode sampleWords 1 0) built
  refine ⟨result, handed, ?_, ?_⟩
  · refine items (zeroBytes 32) (zeroBytes 8) 0 [samplePairNode] sampleAsking rfl rfl (fun _ => rfl)
      (.pair 0 (by decide) _ fun _ _ => .done _) (sampleStrings_injOn.mono ?_) _ result
    refine Set.union_subset dagStrings_sampleWords ?_
    rintro string ⟨idx, offset, node, call, even, stored, member⟩
    rw [calls] at call
    obtain ⟨rfl, rfl⟩ : idx = 0 ∧ offset = 0 := by
      simp only [List.mem_cons, Prod.mk.injEq, List.not_mem_nil, or_false] at call
      omega
    cases stored
    exact samplePairNode_strings member
  · refine (proofs samplePairNode 0 (by decide) (sampleStrings_injOn.mono ?_) samplePairNode_applied).1
    exact Set.union_subset dagStrings_sampleWords samplePairNode_strings

end Sample

end RainbowBridge.EthClient
