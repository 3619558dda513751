import RainbowBridge.EthashProof.DagTree
import Mathlib.Data.List.TakeWhile

/-! The proofs that the relayer attaches to elements. The upper part of each path
is taken from a cache, which has one for each group of elements; the lower part
comes from a tree over the group alone. The number of elements is that of the
dataset file, and indices are below `2 ^ 32`. -/

namespace RainbowBridge.EthashProof

open Lib

def cacheLevel : Nat := 15

/-- `len(fmt.Sprintf("%b", number))`. -/
def binaryDigits (number : Nat) : Nat := if number = 0 then 1 else number.log2 + 1

structure DatasetMerkleTreeCache where
  epoch : Nat
  proofLength : Nat
  cacheLength : Nat
  rootHash : Hash
  proofs : List (List Hash)

variable [Hashing]

/-- Inserts at most `count` elements of a dataset, from `start` on. -/
def processDuringRead (dataset : List Word) (start count : Nat) (tree : DagTree) : DagTree :=
  tree.insertFrom 0 ((dataset.drop start).take count)

/-- The first elements of the groups. -/
def groupIndices (liveLevel count : Nat) : List Nat :=
  ((List.range (2 ^ cacheLevel)).map fun i => i <<< liveLevel).takeWhile fun index => index < count

/-- `CalculateDatasetMerkleRoot(epoch, true)`: the cache that it saves. With fewer
levels than the cache has, a slice is out of range. -/
def calculateDatasetMerkleRoot (epoch : Nat) (dataset : List Word) : Option DatasetMerkleTreeCache := do
  let branchDepth := binaryDigits (dataset.length - 1)
  guard (cacheLevel ≤ branchDepth)
  let liveLevel := branchDepth - cacheLevel
  let registered := newSHA256DagTree.registerIndex (groupIndices liveLevel dataset.length)
  let tree := (processDuringRead dataset 0 dataset.length registered).finalize
  let rootHash ← tree.root
  let proofs ← tree.proofsForRegisteredIndices
  let cached ← proofs.mapM fun proof => do
    guard (liveLevel ≤ proof.length)
    return proof.drop liveLevel
  return { epoch, proofLength := branchDepth, cacheLength := cacheLevel, rootHash, proofs := cached }

def calculateProof (dataset : List Word) (index : Nat) (cache : DatasetMerkleTreeCache) :
    Option (Word × List Hash) := do
  let branchDepth := binaryDigits (dataset.length - 1)
  guard (cacheLevel ≤ branchDepth)
  let liveLevel := branchDepth - cacheLevel
  let subtreeStart := index >>> liveLevel <<< liveLevel
  let registered := newSHA256DagTree.registerIndex [index - subtreeStart]
  let tree := (processDuringRead dataset subtreeStart (2 ^ liveLevel) registered).finalize
  let element ← (← tree.allDAGElements)[0]?
  let proof ← (← tree.proofsForRegisteredIndices)[0]?
  let cached ← cache.proofs[index >>> liveLevel]?
  return (element, proof ++ cached)

/-- The full path of an element in the tree of its dataset. -/
abbrev dagPath (dataset : List Word) (index : Nat) : List Hash :=
  paddedPath sha256Hash (fun k => sha256ElementHash (wordAt dataset k)) dataset.length index
    (Nat.clog 2 dataset.length)

/-- Groups of `2 ^ live` elements, the last more than half full. -/
structure Grouped (dataset : List Word) : Prop where
  many : 2 ^ cacheLevel < dataset.length
  half : let live := binaryDigits (dataset.length - 1) - cacheLevel
    2 ^ live < 2 * (dataset.length - (dataset.length - 1) / 2 ^ live * 2 ^ live)

omit [Hashing] in
theorem binaryDigits_eq_clog {count : Nat} (several : 2 ≤ count) :
    binaryDigits (count - 1) = Nat.clog 2 count := by
  have positive : count - 1 ≠ 0 := by omega
  have lower := Nat.log2_self_le positive
  have upper := Nat.lt_log2_self (n := count - 1)
  rw [binaryDigits, if_neg positive]
  apply le_antisymm
  · exact (Nat.lt_clog_iff_pow_lt (by omega)).mpr (by omega)
  · exact Nat.clog_le_of_le_pow (by omega)

omit [Hashing] in
theorem getElem?_takeWhile {α : Type} {p : α → Bool} {items : List α} {n : Nat}
    (holds : ∀ k ≤ n, ∀ item, items[k]? = some item → p item = true) :
    (items.takeWhile p)[n]? = items[n]? := by
  induction items generalizing n with
  | nil => rfl
  | cons first rest ih =>
    rw [List.takeWhile_cons, if_pos (holds 0 (Nat.zero_le n) first rfl)]
    cases n with
    | zero => rfl
    | succ n =>
      simp only [List.getElem?_cons_succ]
      exact ih fun k below item found => holds (k + 1) (by omega) item (by simpa using found)

/-- What a tree over some elements answers for the indices that were registered. -/
theorem registered_answers {elements : List Word} (word : Nat → Word) (indices : List Nat)
    (nonempty : elements ≠ []) (words : ∀ k data, elements[k]? = some data → data = word k)
    (inside : ∀ index ∈ indices, index < elements.length) :
    let tree := ((newSHA256DagTree.registerIndex indices).insertFrom 0 elements).finalize
    let leaf := fun k => sha256ElementHash (word k)
    let depth := Nat.clog 2 elements.length
    tree.root = some (paddedRoot sha256Hash leaf elements.length depth 0) ∧
      tree.proofsForRegisteredIndices =
        some (indices.map fun index => paddedPath sha256Hash leaf elements.length index depth) ∧
      tree.allDAGElements = some (indices.map word) := by
  intro tree leaf depth
  obtain ⟨node, buffer, spans⟩ := MerkleTree.finalize_spans
    (newSHA256DagTree.registerIndex indices) rfl rfl nonempty words
  have frame := (newSHA256DagTree.registerIndex indices).insertFrom_frame 0 elements
  have ordered : tree.orderedIndexes = indices := by
    change ((newSHA256DagTree.registerIndex indices).insertFrom 0 elements).orderedIndexes = indices
    rw [frame.2.2.2.2.1]
    rfl
  have level : tree.storedLevel = 0 := by
    change ((newSHA256DagTree.registerIndex indices).insertFrom 0 elements).storedLevel = 0
    rw [frame.2.2.2.2.2]
    rfl
  have branches : tree.branches = some node.branches := by
    simp only [MerkleTree.branches, show tree.finalized = true from rfl,
      show tree.mtbuf = [node] from buffer]
    rfl
  have branch : ∀ index ∈ indices, ∃ found, node.branches index = some found ∧
      found.rawData = word index ∧
      found.root.toNodeArray = leaf index :: paddedPath sha256Hash leaf elements.length index depth := by
    intro index member
    have small := inside index member
    have within : index < 2 ^ depth := small.trans_le (Nat.le_pow_clog (by omega) _)
    refine spans.branch index ?_ (Nat.zero_le _) (by rwa [Nat.zero_add]) small
    simp [MerkleTree.registerIndex, member]
  refine ⟨?_, ?_, ?_⟩
  · simp only [MerkleTree.root, show tree.finalized = true from rfl,
      show tree.mtbuf = [node] from buffer, guard_true, pure_bind]
    exact congrArg some spans.data
  · simp only [MerkleTree.proofsForRegisteredIndices, branches, ordered, level]
    refine mapM_eq_map ?_
    intro index member
    obtain ⟨found, stored, -, array⟩ := branch index member
    simp [stored, array]
  · simp only [MerkleTree.allDAGElements, branches, ordered]
    refine mapM_eq_map ?_
    intro index member
    obtain ⟨found, stored, raw, -⟩ := branch index member
    simp [stored, raw]

/-- The levels that the cache leaves to the tree of a group. -/
abbrev liveLevel (dataset : List Word) : Nat := Nat.clog 2 dataset.length - cacheLevel

omit [Hashing] in
theorem Grouped.depth {dataset : List Word} (grouped : Grouped dataset) :
    cacheLevel < Nat.clog 2 dataset.length :=
  (Nat.lt_clog_iff_pow_lt (by omega)).mpr grouped.many

omit [Hashing] in
theorem Grouped.levels {dataset : List Word} (grouped : Grouped dataset) :
    Nat.clog 2 dataset.length = cacheLevel + liveLevel dataset ∧ 0 < liveLevel dataset := by
  have deep := grouped.depth
  unfold liveLevel
  omega

omit [Hashing] in
theorem Grouped.nonempty {dataset : List Word} (grouped : Grouped dataset) : dataset ≠ [] :=
  List.ne_nil_of_length_pos ((Nat.zero_le _).trans_lt grouped.many)

omit [Hashing] in
theorem Grouped.digits {dataset : List Word} (grouped : Grouped dataset) :
    binaryDigits (dataset.length - 1) = Nat.clog 2 dataset.length := by
  have many := grouped.many
  have : 2 ^ cacheLevel = 32768 := rfl
  exact binaryDigits_eq_clog (by omega)

theorem calculateDatasetMerkleRoot_eq {dataset : List Word} (grouped : Grouped dataset) (epoch : Nat) :
    calculateDatasetMerkleRoot epoch dataset = some {
      epoch
      proofLength := Nat.clog 2 dataset.length
      cacheLength := cacheLevel
      rootHash := dagNode dataset (Nat.clog 2 dataset.length) 0
      proofs := (groupIndices (liveLevel dataset) dataset.length).map fun index =>
        (dagPath dataset index).drop (liveLevel dataset) } := by
  have deep := grouped.depth
  have inside : ∀ index ∈ groupIndices (liveLevel dataset) dataset.length, index < dataset.length := by
    intro index member
    simpa using List.mem_takeWhile_imp member
  obtain ⟨root, proofs, -⟩ := registered_answers (wordAt dataset) _ grouped.nonempty
    (fun k data found => eq_wordAt found) inside
  simp only [calculateDatasetMerkleRoot, processDuringRead, grouped.digits, deep.le, List.drop_zero,
    List.take_length, root, proofs, guard_true, pure_bind, Option.bind_eq_bind, Option.bind_some]
  rw [mapM_eq_map (g := fun proof => proof.drop (liveLevel dataset))]
  · simp [List.map_map, Function.comp_def]
  · intro proof member
    obtain ⟨index, -, rfl⟩ := List.mem_map.mp member
    simp

omit [Hashing] in
theorem getElem?_groupIndices {live count index : Nat} (inside : index < count)
    (few : index / 2 ^ live < 2 ^ cacheLevel) :
    (groupIndices live count)[index / 2 ^ live]? = some (index / 2 ^ live * 2 ^ live) := by
  have low : index / 2 ^ live * 2 ^ live ≤ index := Nat.div_mul_le_self _ _
  rw [groupIndices, getElem?_takeWhile]
  · simp [few, Nat.shiftLeft_eq]
  · intro k below item found
    have monotone : k * 2 ^ live ≤ index / 2 ^ live * 2 ^ live := Nat.mul_le_mul_right _ below
    have same : k * 2 ^ live = item := by
      have bound : k < 2 ^ cacheLevel := by omega
      simpa [bound, Nat.shiftLeft_eq] using found
    exact decide_eq_true (by omega)

omit [Hashing] in
/-- Every group fills more than half of its places. -/
theorem Grouped.depth_group {dataset : List Word} (grouped : Grouped dataset) {index : Nat}
    (inside : index < dataset.length) :
    Nat.clog 2 (min (2 ^ liveLevel dataset)
      (dataset.length - index / 2 ^ liveLevel dataset * 2 ^ liveLevel dataset)) = liveLevel dataset := by
  have half : 2 ^ liveLevel dataset <
      2 * (dataset.length - (dataset.length - 1) / 2 ^ liveLevel dataset * 2 ^ liveLevel dataset) := by
    simpa only [grouped.digits] using grouped.half
  obtain ⟨lower, live⟩ := Nat.exists_eq_succ_of_ne_zero grouped.levels.2.ne'
  rw [live, Nat.succ_eq_add_one, pow_succ] at half ⊢
  -- The group is full, or it is the last one.
  have groups : (dataset.length - 1) / (2 ^ lower * 2) = index / (2 ^ lower * 2) ∨
      (index / (2 ^ lower * 2) + 1) * (2 ^ lower * 2) ≤ dataset.length := by
    by_cases last : (dataset.length - 1) / (2 ^ lower * 2) = index / (2 ^ lower * 2)
    · exact .inl last
    · right
      have order : index / (2 ^ lower * 2) ≤ (dataset.length - 1) / (2 ^ lower * 2) :=
        Nat.div_le_div_right (by omega)
      have next : index / (2 ^ lower * 2) + 1 ≤ (dataset.length - 1) / (2 ^ lower * 2) := by omega
      have := Nat.mul_le_mul_right (2 ^ lower * 2) next
      have := Nat.div_mul_le_self (dataset.length - 1) (2 ^ lower * 2)
      omega
  have large : 2 ^ lower < min (2 ^ lower * 2)
      (dataset.length - index / (2 ^ lower * 2) * (2 ^ lower * 2)) := by
    have positive : 0 < 2 ^ lower := Nat.two_pow_pos lower
    obtain last | full := groups
    · rw [← last]
      omega
    · rw [Nat.add_mul] at full
      omega
  apply le_antisymm
  · exact Nat.clog_le_of_le_pow (by rw [pow_succ]; omega)
  · exact (Nat.lt_clog_iff_pow_lt (by omega)).mpr large

/-- The stitched path is the path of the element in the tree of the whole dataset. -/
theorem calculateProof_eq {dataset : List Word} (grouped : Grouped dataset) {index : Nat}
    (inside : index < dataset.length) {cache : DatasetMerkleTreeCache}
    (cached : cache.proofs = (groupIndices (liveLevel dataset) dataset.length).map fun index =>
      (dagPath dataset index).drop (liveLevel dataset)) :
    calculateProof dataset index cache = some (wordAt dataset index, dagPath dataset index) := by
  obtain ⟨levels, -⟩ := grouped.levels
  have deep : cacheLevel ≤ Nat.clog 2 dataset.length := grouped.depth.le
  have low : index / 2 ^ liveLevel dataset * 2 ^ liveLevel dataset ≤ index := Nat.div_mul_le_self _ _
  have few : index / 2 ^ liveLevel dataset < 2 ^ cacheLevel := by
    rw [Nat.div_lt_iff_lt_mul (Nat.two_pow_pos _), ← pow_add,
      ← levels]
    exact inside.trans_le (Nat.le_pow_clog (by omega) _)
  have small : index - index / 2 ^ liveLevel dataset * 2 ^ liveLevel dataset < 2 ^ liveLevel dataset := by
    rw [← Nat.mod_eq_sub_div_mul]
    exact Nat.mod_lt _ (Nat.two_pow_pos _)
  have depth := grouped.depth_group inside
  generalize start : index / 2 ^ liveLevel dataset * 2 ^ liveLevel dataset = offset at *
  have length : ((dataset.drop offset).take (2 ^ liveLevel dataset)).length =
      min (2 ^ liveLevel dataset) (dataset.length - offset) := by
    simp
  have nonempty : (dataset.drop offset).take (2 ^ liveLevel dataset) ≠ [] :=
    List.ne_nil_of_length_pos (by rw [length]; omega)
  obtain ⟨-, proofs, elements⟩ := registered_answers (fun k => wordAt dataset (offset + k))
    [index - offset] nonempty
    (by
      intro k data found
      refine eq_wordAt ?_
      rw [List.getElem?_take] at found
      split at found
      · simpa using found
      · cases found)
    (by
      intro other member
      rw [List.mem_singleton.mp member, length]
      omega)
  simp only [calculateProof, processDuringRead, grouped.digits, deep, guard_true,
    Nat.shiftRight_eq_div_pow, Nat.shiftLeft_eq, start, elements, proofs, Option.bind_eq_bind,
    Option.bind_some, List.map_cons, List.getElem?_cons_zero, cached, List.getElem?_map,
    getElem?_groupIndices inside few, Option.map_some, Option.pure_def, Option.some.injEq, Prod.mk.injEq,
    show offset + (index - offset) = index by omega, true_and]
  rw [length, depth]
  have agree : ∀ k, k < 2 ^ liveLevel dataset →
      (k < min (2 ^ liveLevel dataset) (dataset.length - offset) ↔ offset + k < dataset.length) := by
    intro k below
    omega
  have aligned : 2 ^ liveLevel dataset ∣ offset := start ▸ Nat.dvd_mul_left _ _
  have glued := paddedPath_glue sha256Hash (fun k => sha256ElementHash (wordAt dataset k)) agree aligned
    small ⟨le_refl offset, by omega⟩ (show liveLevel dataset ≤ Nat.clog 2 dataset.length by omega)
  rw [show offset + (index - offset) = index by omega] at glued
  exact glued

end RainbowBridge.EthashProof
