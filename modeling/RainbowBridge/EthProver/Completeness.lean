import RainbowBridge.EthProver.TrieProof
import RainbowBridge.Lib.TrieMap

/-! The honest proof of a key in a trie, and when the contract accepts it: a node
that stands inside its parent is a list there, which the contract reads as a byte
string. -/

namespace RainbowBridge.EthProver

open Lib EthTypes Near

variable [Hashing]

/-- The encodings of the nodes on the path of a key, from the root down. -/
def honestProof (trie : Trie) (key : Bytes) : List Bytes :=
  (trie.pathNodes (nibbles key)).map (Trie.encode keccak256)

section Nodes

variable {crate : RlpCrate} (documented : crate.Documented)

include documented

omit [Hashing] in
theorem getVec_of_data {content : List Rlp.Item} {index : Nat} {body : Bytes}
    (fits : (Rlp.Item.list content).encode.length < 2 ^ 64)
    (found : content[index]? = some (.data body)) :
    getVec crate (Rlp.Item.list content).encode index = some body :=
  documented.bytesAt fits found

/-- The contract gets the hash of a child that is hashed, and nothing from one
that is not. -/
theorem getVec_of_child {content : List Rlp.Item} {index : Nat} {child : Trie}
    (fits : (Rlp.Item.list content).encode.length < 2 ^ 64)
    (found : content[index]? = some (Trie.refer keccak256 (child.item keccak256)))
    (filled : child ≠ .empty) :
    getVec crate (Rlp.Item.list content).encode index =
      if (child.encode keccak256).length < 32 then none else some (child.root keccak256).toList := by
  have small := RlpCrate.length_encode_lt fits found
  rw [getVec, RlpCrate.bytesAt, documented.get fits found]
  change crate.bytes (Trie.refer keccak256 (child.item keccak256)).encode = _
  unfold Trie.refer at small ⊢
  change _ = if (child.item keccak256).encode.length < 32 then none else _
  split
  · rename_i short
    rw [if_pos short] at small
    cases child with
    | empty => exact absurd rfl filled
    | leaf path value => exact documented.bytes_list _ small
    | extension path child => exact documented.bytes_list _ small
    | branch children value => exact documented.bytes_list _ small
  · rename_i long
    rw [if_neg long] at small
    exact documented.bytes_data _ small

end Nodes

theorem isExpected_root {trie : Trie} {keyIndex : Nat}
    (reached : keyIndex = 0 ∨ 32 ≤ (trie.encode keccak256).length) :
    isExpected (trie.root keccak256).toList (trie.encode keccak256) keyIndex = true := by
  unfold isExpected
  split
  · simp [Trie.root]
  · split
    · omega
    · simp [Trie.root]

omit [Hashing] in
/-- A path that is a prefix of the key's rest, as the contract compares them. -/
theorem path_matches {key path : List Nibble} {keyIndex : Nat} (inside : keyIndex ≤ key.length)
    (start : path <+: key.drop keyIndex) :
    keyIndex + (path.map Nibble.byte).length ≤ (key.map Nibble.byte).length ∧
      path.map Nibble.byte =
        ((key.map Nibble.byte).drop keyIndex).take (path.map Nibble.byte).length := by
  have length := start.length_le
  rw [List.length_drop] at length
  refine ⟨by simp; omega, ?_⟩
  rw [List.length_map, ← List.map_drop, ← List.map_take, ← List.prefix_iff_eq_take.mp start]

/-- The walk at a node with a path in it. -/
theorem verify_path {crate : RlpCrate} (documented : crate.Documented) {key path : List Nibble}
    {isLeaf : Bool} {second : Rlp.Item} {expectedRoot : Bytes} (rest : List Bytes) {keyIndex : Nat}
    (fits : (Rlp.Item.list [.data (hexPrefix isLeaf path), second]).encode.length < 2 ^ 64)
    (expected : isExpected expectedRoot (Rlp.Item.list [.data (hexPrefix isLeaf path), second]).encode
      keyIndex = true)
    (inside : keyIndex ≤ key.length) (start : path <+: key.drop keyIndex) :
    verifyTrieProofFrom crate (key.map Nibble.byte) expectedRoot
        ((Rlp.Item.list [.data (hexPrefix isLeaf path), second]).encode :: rest) keyIndex =
      if isLeaf then
        if rest = [] ∧ keyIndex + path.length = key.length then
          getVec crate (Rlp.Item.list [.data (hexPrefix isLeaf path), second]).encode 1
        else none
      else (getVec crate (Rlp.Item.list [.data (hexPrefix isLeaf path), second]).encode 1).bind
        fun newRoot => verifyTrieProofFrom crate (key.map Nibble.byte) newRoot rest
          (keyIndex + path.length) := by
  have count : (crate.items (Rlp.Item.list [.data (hexPrefix isLeaf path), second]).encode).length = 2 := by
    rw [documented.items_list _ fits]
    rfl
  obtain ⟨first, others, whole, flag, -⟩ := hexPrefix_cons isLeaf path
  obtain ⟨read, kind⟩ := pathOf_hexPrefix whole
  have small : first / 16 ≤ 3 := by
    rw [UInt8.le_iff_toNat_le]
    change first.toNat / 16 ≤ 3
    rw [flag]
    split <;> omega
  have head : getVec crate (Rlp.Item.list [.data (hexPrefix isLeaf path), second]).encode 0 =
      some (first :: others) := whole ▸ getVec_of_data documented fits rfl
  obtain ⟨bound, same⟩ := path_matches inside start
  simp only [verifyTrieProofFrom, expected, count, head, read, small, bound, ← same, guard_true,
    Option.bind_eq_bind, Option.bind_some, List.head?_cons, List.tail_cons, kind]
  simp only [Option.pure_def, Option.bind_some, List.length_map, Nat.reduceEqDiff, if_false]
  cases isLeaf with
  | false => rfl
  | true =>
    by_cases last : rest = []
    · by_cases ends : keyIndex + path.length = key.length <;> simp [guard, last, ends]
    · simp [guard, last]

/-- The walk at a branch. -/
theorem verify_branch {crate : RlpCrate} (documented : crate.Documented) (key : List Nibble)
    {children : Nibble → Trie} {own expectedRoot : Bytes} (rest : List Bytes) {keyIndex : Nat}
    (fits : ((Trie.branch children own).encode keccak256).length < 2 ^ 64)
    (expected : isExpected expectedRoot ((Trie.branch children own).encode keccak256) keyIndex = true) :
    verifyTrieProofFrom crate (key.map Nibble.byte) expectedRoot
        ((Trie.branch children own).encode keccak256 :: rest) keyIndex =
      if keyIndex = key.length then
        if rest = [] then some own else none
      else key[keyIndex]?.bind fun nibble =>
        (getVec crate ((Trie.branch children own).encode keccak256) nibble.val).bind fun newRoot =>
          verifyTrieProofFrom crate (key.map Nibble.byte) newRoot rest (keyIndex + 1) := by
  have count := items_encode documented fits
  have last : getVec crate ((Trie.branch children own).encode keccak256) 16 = some own :=
    getVec_of_data documented fits (by simp)
  have nibble : ∀ nibble : Nibble, nibble.byte.toNat = nibble.val := fun nibble => by
    rw [Nibble.byte, Rlp.toNat_ofNat _ (by omega)]
  simp only [verifyTrieProofFrom, expected, count, Trie.arity, last, guard_true, if_true,
    Option.bind_eq_bind, Option.pure_def, Option.bind_some, List.length_map, List.getElem?_map]
  split
  · by_cases ends : rest = [] <;> simp [guard, ends]
  · cases key[keyIndex]? with
    | none => rfl
    | some next => simp [nibble]

/-- From a node on the path, the walk of the contract reaches the value unless a
node below stands inside its parent. -/
theorem verify_from_iff {crate : RlpCrate} (documented : crate.Documented) {key : List Nibble}
    {value : Bytes} (trie : Trie) (keyIndex : Nat) (encodable : trie.Encodable keccak256)
    (inside : keyIndex ≤ key.length) (found : trie.find (key.drop keyIndex) = some value)
    (reached : keyIndex = 0 ∨ 32 ≤ (trie.encode keccak256).length) :
    verifyTrieProofFrom crate (key.map Nibble.byte) (trie.root keccak256).toList
        ((trie.pathNodes (key.drop keyIndex)).map (Trie.encode keccak256)) keyIndex = some value ↔
      trie.Hashed keccak256 (key.drop keyIndex) := by
  have fits := encodable _ trie.encode_mem
  have expected := isExpected_root reached
  induction trie generalizing keyIndex with
  | empty => cases found
  | leaf path stored =>
    simp only [Trie.find] at found
    split at found
    · rename_i same
      have ends : keyIndex + path.length = key.length := by
        rw [← same, List.length_drop]
        omega
      have walk := verify_path documented [] fits expected inside (same ▸ List.prefix_refl _)
      rw [if_pos rfl, if_pos ⟨rfl, ends⟩, getVec_of_data documented fits rfl, found] at walk
      simp only [Trie.pathNodes, List.map_cons, List.map_nil, Trie.Hashed, List.tail_cons,
        List.not_mem_nil, false_implies, implies_true, iff_true]
      exact walk
    · cases found
  | extension path child ih =>
    simp only [Trie.find] at found
    split at found
    · rename_i start
      have filled := Trie.ne_empty_of_find found
      have walk := verify_path documented
        ((child.pathNodes ((key.drop keyIndex).drop path.length)).map (Trie.encode keccak256))
        fits expected inside start
      rw [if_neg (by decide), getVec_of_child documented fits rfl filled] at walk
      rw [Trie.hashed_extension filled, Trie.pathNodes, List.map_cons]
      refine (Eq.congr_left walk).trans ?_
      by_cases short : (child.encode keccak256).length < 32
      · simp [short, Nat.not_le.mpr short]
      · have start' := start.length_le
        rw [List.length_drop] at start'
        rw [if_neg short, Option.bind_some, List.drop_drop]
        rw [List.drop_drop] at found
        have within := encodable.within (.extension path (.refl child))
        have reached : keyIndex + path.length = 0 ∨ 32 ≤ (child.encode keccak256).length :=
          .inr (Nat.not_lt.mp short)
        have walk' := ih (keyIndex + path.length) within (by omega) found reached (within _ child.encode_mem)
          (isExpected_root reached)
        simpa [Nat.not_lt.mp short] using walk'
    · cases found
  | branch children own ih =>
    cases left : key.drop keyIndex with
    | nil =>
      have ends : keyIndex = key.length := by
        have length := congrArg List.length left
        simp only [List.length_drop, List.length_nil] at length
        omega
      have walk := verify_branch documented key [] fits expected
      rw [if_pos ends, if_pos rfl] at walk
      rw [left, Trie.find] at found
      split at found
      · cases found
      · cases found
        simp only [Trie.pathNodes, List.map_cons, List.map_nil, walk, Trie.Hashed, List.tail_cons,
          List.not_mem_nil, false_implies, implies_true]
    | cons nibble rest =>
      have more : keyIndex < key.length := by
        have length := congrArg List.length left
        simp only [List.length_drop, List.length_cons] at length
        omega
      obtain ⟨here, later⟩ : key[keyIndex]? = some nibble ∧ key.drop (keyIndex + 1) = rest := by
        rw [List.drop_eq_getElem_cons more, List.cons.injEq] at left
        exact ⟨by rw [List.getElem?_eq_getElem more, left.1], left.2⟩
      have child : (children nibble).find rest = some value := by
        rwa [left, Trie.find] at found
      have filled := Trie.ne_empty_of_find child
      have walk := verify_branch documented key
        (((children nibble).pathNodes rest).map (Trie.encode keccak256)) fits expected
      have reference : getVec crate ((Trie.branch children own).encode keccak256) nibble.val = _ :=
        getVec_of_child documented fits (Trie.getElem_references children own nibble) filled
      rw [if_neg (by omega), here, Option.bind_some, reference] at walk
      rw [Trie.hashed_branch filled, Trie.pathNodes, List.map_cons]
      refine (Eq.congr_left walk).trans ?_
      by_cases short : ((children nibble).encode keccak256).length < 32
      · simp [short, Nat.not_le.mpr short]
      · have within := encodable.within (.branch nibble own (.refl (children nibble)))
        have reached : keyIndex + 1 = 0 ∨ 32 ≤ ((children nibble).encode keccak256).length :=
          .inr (Nat.not_lt.mp short)
        rw [if_neg short, Option.bind_some, ← later]
        rw [← later] at child
        have walk' := ih nibble (keyIndex + 1) within more child reached (within _ (children nibble).encode_mem)
          (isExpected_root reached)
        simpa [Nat.not_lt.mp short] using walk'

/-- The contract accepts the honest proof of a key in the trie of a finite map, and
returns the value, exactly when no node on the path stands inside its parent. -/
theorem trie_proof_complete_iff (crate : RlpCrate) (documented : crate.Documented)
    (map : Trie.ByteMap) (encodable : (Trie.ofMap map).Encodable keccak256) (key value : Bytes)
    (member : (key, value) ∈ map.entries) :
    verifyTrieProof crate ((Trie.ofMap map).root keccak256) key (honestProof (Trie.ofMap map) key) =
        some value ↔
      (Trie.ofMap map).Hashed keccak256 (nibbles key) := by
  have walk := verify_from_iff documented (Trie.ofMap map) 0 encodable
    (Nat.zero_le (nibbles key).length) (Trie.find_ofMap map member) (.inl rfl)
  rw [verifyTrieProof, honestProof, halves_eq]
  exact walk

/-- Two keys that part at their second nibble, with values of one length. -/
def twoEntries (length : Nat) (positive : 0 < length) : Trie.ByteMap where
  entries := [([18], List.replicate length 1), ([19], List.replicate length 2)]
  distinct := by simp
  filled := by
    intro entry member
    rcases List.mem_pair.mp member with rfl | rfl <;> simp <;> omega

omit [Hashing] in
theorem trie_proof_complete_iff_sample :
    letI := Hashing.platform
    verifyTrieProof .reference ((Trie.ofMap (twoEntries 40 (by decide))).root keccak256) [18]
        (honestProof (Trie.ofMap (twoEntries 40 (by decide))) [18]) = some (List.replicate 40 1) ↔
      (Trie.ofMap (twoEntries 40 (by decide))).Hashed keccak256 (nibbles [18]) := by
  let := Hashing.platform
  exact trie_proof_complete_iff .reference RlpCrate.reference_documented (twoEntries 40 (by decide))
    (Trie.encodable_sound (by decide +kernel)) [18] (List.replicate 40 1) (by simp [twoEntries])

omit [Hashing] in
theorem inlined_node_refused :
    letI := Hashing.platform
    ([18], [1]) ∈ (twoEntries 1 (by decide)).entries ∧
      verifyTrieProof .reference ((Trie.ofMap (twoEntries 1 (by decide))).root keccak256) [18]
        (honestProof (Trie.ofMap (twoEntries 1 (by decide))) [18]) = none := by
  decide +kernel

end RainbowBridge.EthProver
