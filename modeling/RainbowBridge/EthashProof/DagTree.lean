import RainbowBridge.Crypto.Hashing
import RainbowBridge.EthashProof.MerkleTree

/-! The tree of `NewSHA256DagTree` over the elements of an ethash dataset. -/

namespace RainbowBridge.EthashProof

open Lib

/-- An element of the dataset. -/
abbrev Word := FixedBytes 128

abbrev Hash := FixedBytes 16

abbrev DagTree := MerkleTree Hash Word

/-- The `i`-th of the four 32-byte parts of an element. -/
def Word.part (data : Word) (i : Nat) : Bytes := (data.toList.drop (32 * i)).take 32

def conventionalWord (data : Word) : Bytes × Bytes :=
  ((data.part 0).reverse ++ (data.part 1).reverse, (data.part 2).reverse ++ (data.part 3).reverse)

/-- What is hashed for an element. -/
def elementString (data : Word) : Bytes := (conventionalWord data).1 ++ (conventionalWord data).2

/-- What is hashed for two nodes. -/
def pairString (left right : Hash) : Bytes :=
  (zeroBytes 16).toList ++ left.toList ++ ((zeroBytes 16).toList ++ right.toList)

theorem length_part (data : Word) {i : Nat} (inside : i < 4) : (data.part i).length = 32 := by
  simp only [Word.part, List.length_take, List.length_drop, List.Vector.toList_length]
  omega

theorem length_conventionalWord (data : Word) :
    (conventionalWord data).1.length = 64 ∧ (conventionalWord data).2.length = 64 := by
  simp [conventionalWord, length_part]

theorem length_elementString (data : Word) : (elementString data).length = 128 := by
  simp [elementString, length_conventionalWord]

theorem length_pairString (left right : Hash) : (pairString left right).length = 64 := by
  simp [pairString]

theorem pairString_injective {a b c d : Hash} (same : pairString a b = pairString c d) :
    a = c ∧ b = d := by
  simp only [pairString, List.append_assoc] at same
  obtain ⟨first, rest⟩ := append_fixed_inj (append_fixed_inj same).2
  exact ⟨first, toList_injective (append_fixed_inj rest).2⟩

theorem pairString_ne_elementString {left right : Hash} {data : Word} :
    pairString left right ≠ elementString data := by
  intro same
  have lengths := congrArg List.length same
  simp [length_pairString, length_elementString] at lengths

/-- The `k`-th element; only those of the list are asked for. -/
def wordAt (elements : List Word) (k : Nat) : Word := elements.getD k (zeroBytes 128)

theorem eq_wordAt {elements : List Word} {k : Nat} {data : Word} (found : elements[k]? = some data) :
    data = wordAt elements k := by
  simp [wordAt, List.getD_eq_getElem?_getD, found]

variable [Hashing]

/-- The last half of the digest. -/
def sha256Last (string : Bytes) : Hash := List.Vector.drop 16 (sha256 string)

def sha256ElementHash (data : Word) : Hash := sha256Last (elementString data)

def sha256Hash (left right : Hash) : Hash := sha256Last (pairString left right)

def newSHA256DagTree : DagTree where
  h := sha256Hash
  eh := sha256ElementHash
  mtbuf := []
  finalized := false
  indexes := fun _ => false
  orderedIndexes := []
  storedLevel := 0

/-- `ToNodeArray()[1:]` less the stored levels, for each registered index. -/
def MerkleTree.proofsForRegisteredIndices (tree : DagTree) : Option (List (List Hash)) := do
  let branches ← tree.branches
  tree.orderedIndexes.mapM fun index => do
    let tree' ← branches index
    let hashes := tree'.root.toNodeArray.tail
    guard (tree.storedLevel ≤ hashes.length)
    return hashes.take (hashes.length - tree.storedLevel)

def MerkleTree.allDAGElements (tree : DagTree) : Option (List Word) := do
  let branches ← tree.branches
  tree.orderedIndexes.mapM fun index => do
    let tree' ← branches index
    return tree'.rawData

/-- The root over a dataset. -/
def dagRoot (elements : List Word) : Option Hash := (newSHA256DagTree.insertFrom 0 elements).finalize.root

/-- The root over the places from `start` on. -/
abbrev dagNode (elements : List Word) (level start : Nat) : Hash :=
  paddedRoot sha256Hash (fun k => sha256ElementHash (wordAt elements k)) elements.length level start

theorem dagRoot_eq {elements : List Word} (nonempty : elements ≠ []) :
    dagRoot elements = some (dagNode elements (Nat.clog 2 elements.length) 0) := by
  obtain ⟨node, buffer, spans⟩ := MerkleTree.finalize_spans newSHA256DagTree rfl rfl nonempty
    fun k data found => eq_wordAt found
  have finalized : (newSHA256DagTree.insertFrom 0 elements).finalize.finalized = true := rfl
  simp only [dagRoot, MerkleTree.root, finalized, buffer, guard_true, pure_bind]
  exact congrArg some spans.data

/-- The strings that are hashed for the tree of a dataset. -/
def dagStrings (elements : List Word) : Set Bytes :=
  paddedStrings sha256Last pairString (fun k => elementString (wordAt elements k)) elements.length
    (Nat.clog 2 elements.length)

end RainbowBridge.EthashProof
