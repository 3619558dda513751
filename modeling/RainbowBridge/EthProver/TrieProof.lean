import RainbowBridge.EthProver.Contract
import RainbowBridge.Lib.Trie

/-! The trie proofs that the contract accepts. Every element of such a proof is
a node of the honest trie, so that the walk of the contract is the walk of the
trie along the key. -/

namespace RainbowBridge.EthProver

open Lib EthTypes Near

theorem halves_eq (bytes : Bytes) : halves bytes = (nibbles bytes).map Nibble.byte :=
  (nibbles_bytes bytes).symm

/-- The contract reads the path and the kind of a node back. -/
theorem pathOf_hexPrefix {isLeaf : Bool} {path : List Nibble} {first : UInt8} {others : Bytes}
    (same : hexPrefix isLeaf path = first :: others) :
    pathOf first others = path.map Nibble.byte ∧ (2 ≤ first / 16 ↔ isLeaf = true) := by
  obtain ⟨first', others', whole, flag, read⟩ := hexPrefix_cons isLeaf path
  obtain ⟨rfl, rfl⟩ : first = first' ∧ others = others' := by simpa using same.symm.trans whole
  have head : (first / 16).toNat = (if isLeaf then 2 else 0) + path.length % 2 := by
    rw [← flag]
    rfl
  have parity : first / 16 % 2 = 1 ↔ path.length % 2 = 1 := by
    rw [← UInt8.toNat_inj, UInt8.toNat_mod, head]
    change (_ + path.length % 2) % 2 = 1 ↔ _
    split <;> omega
  have kind : 2 ≤ first / 16 ↔ isLeaf = true := by
    rw [UInt8.le_iff_toNat_le, head]
    change 2 ≤ _ ↔ _
    cases isLeaf with
    | false => simp; omega
    | true => simp
  refine ⟨?_, kind⟩
  rw [pathOf, halves_eq, ← read]
  simp only [parity]

/-- The items that `_verify_trie_proof` reads on its way, one in each node: the
child followed in a branch or an extension, and the value at the end. -/
def route (crate : RlpCrate) (key : Bytes) : List Bytes → Nat → List Nat
  | [], _ => []
  | node :: rest, keyIndex =>
    if (crate.items node).length = 17 then
      match key[keyIndex]? with
      | none => [16]
      | some nibble => nibble.toNat :: route crate key rest (keyIndex + 1)
    else
      match getVec crate node 0 with
      | some (first :: others) =>
        if 2 ≤ first / 16 then [1]
        else 1 :: route crate key rest (keyIndex + (pathOf first others).length)
      | _ => []

variable [Hashing]

/-- The runs of `_verify_trie_proof` that return a value, one case for each end
and each recursive call. -/
inductive Accepted (crate : RlpCrate) (key : Bytes) : Bytes → List Bytes → Nat → Bytes → Prop where
  | branchEnd {expectedRoot node value : Bytes} (expected : isExpected expectedRoot node key.length)
    (count : (crate.items node).length = 17) (own : getVec crate node 16 = some value) :
    Accepted crate key expectedRoot [node] key.length value
  | branch {expectedRoot node newRoot value : Bytes} {rest : List Bytes} {keyIndex : Nat}
    {nibble : UInt8} (expected : isExpected expectedRoot node keyIndex)
    (count : (crate.items node).length = 17) (next : key[keyIndex]? = some nibble)
    (child : getVec crate node nibble.toNat = some newRoot)
    (later : Accepted crate key newRoot rest (keyIndex + 1) value) :
    Accepted crate key expectedRoot (node :: rest) keyIndex value
  | leaf {expectedRoot node others value : Bytes} {first : UInt8} {keyIndex : Nat}
    (expected : isExpected expectedRoot node keyIndex)
    (count : (crate.items node).length = 2) (path : getVec crate node 0 = some (first :: others))
    (isLeaf : 2 ≤ first / 16) (inside : keyIndex ≤ key.length)
    (same : pathOf first others = key.drop keyIndex)
    (own : getVec crate node 1 = some value) :
    Accepted crate key expectedRoot [node] keyIndex value
  | extension {expectedRoot node others newRoot value : Bytes} {first : UInt8} {rest : List Bytes}
    {keyIndex : Nat} (expected : isExpected expectedRoot node keyIndex)
    (count : (crate.items node).length = 2) (path : getVec crate node 0 = some (first :: others))
    (inner : ¬ 2 ≤ first / 16)
    (same : pathOf first others = (key.drop keyIndex).take (pathOf first others).length)
    (child : getVec crate node 1 = some newRoot)
    (later : Accepted crate key newRoot rest (keyIndex + (pathOf first others).length) value) :
    Accepted crate key expectedRoot (node :: rest) keyIndex value

theorem accepted_of_verify {crate : RlpCrate} {key expectedRoot value : Bytes} {proof : List Bytes}
    {keyIndex : Nat} (success : verifyTrieProofFrom crate key expectedRoot proof keyIndex = some value) :
    Accepted crate key expectedRoot proof keyIndex value := by
  induction proof generalizing expectedRoot keyIndex with
  | nil => simp [verifyTrieProofFrom] at success
  | cons node rest ih =>
    simp only [verifyTrieProofFrom, Option.bind_eq_bind, Option.bind_eq_some_iff, guard_eq_some,
      exists_const] at success
    obtain ⟨expected, success⟩ := success
    split at success
    · rename_i count
      split at success
      · rename_i atEnd
        subst atEnd
        simp only [Option.bind_eq_some_iff, guard_eq_some, exists_const] at success
        obtain ⟨rfl, own⟩ := success
        exact .branchEnd expected count own
      · simp only [Option.bind_eq_some_iff] at success
        obtain ⟨nibble, next, newRoot, child, later⟩ := success
        exact .branch expected count next child (ih later)
    · simp only [Option.bind_eq_some_iff, guard_eq_some, exists_const] at success
      obtain ⟨count, pathU8, path, first, head, -, inside, same, success⟩ := success
      obtain ⟨others, rfl⟩ := List.head?_eq_some_iff.mp head
      simp only [List.tail_cons] at inside same success
      split at success
      · rename_i isLeaf
        simp only [Option.bind_eq_some_iff, guard_eq_some, exists_const] at success
        obtain ⟨rfl, _, ended, own⟩ := success
        have atEnd := guard_eq_some.mp ended
        refine .leaf expected count path isLeaf (by omega) ?_ own
        rwa [List.take_of_length_le (by simp; omega)] at same
      · rename_i inner
        obtain ⟨newRoot, child, later⟩ := Option.bind_eq_some_iff.mp success
        exact .extension expected count path inner same child (ih later)

section Routes

omit [Hashing]

variable {crate : RlpCrate} {key node : Bytes} {rest : List Bytes}

theorem route_branchEnd (count : (crate.items node).length = 17) :
    route crate key (node :: rest) key.length = [16] := by
  simp [route, count]

theorem route_branch {keyIndex : Nat} {nibble : UInt8} (count : (crate.items node).length = 17)
    (next : key[keyIndex]? = some nibble) :
    route crate key (node :: rest) keyIndex =
      nibble.toNat :: route crate key rest (keyIndex + 1) := by
  simp [route, count, next]

theorem route_leaf {keyIndex : Nat} {first : UInt8} {others : Bytes}
    (count : (crate.items node).length = 2) (path : getVec crate node 0 = some (first :: others))
    (isLeaf : 2 ≤ first / 16) : route crate key (node :: rest) keyIndex = [1] := by
  simp [route, count, path, isLeaf]

theorem route_extension {keyIndex : Nat} {first : UInt8} {others : Bytes}
    (count : (crate.items node).length = 2) (path : getVec crate node 0 = some (first :: others))
    (inner : ¬ 2 ≤ first / 16) :
    route crate key (node :: rest) keyIndex =
      1 :: route crate key rest (keyIndex + (pathOf first others).length) := by
  simp [route, count, path, inner]

end Routes

theorem Accepted.route_ne_nil {crate : RlpCrate} {key expectedRoot value : Bytes} {proof : List Bytes}
    {keyIndex : Nat} (accepted : Accepted crate key expectedRoot proof keyIndex value) :
    route crate key proof keyIndex ≠ [] := by
  cases accepted with
  | branchEnd expected count own => simp [route_branchEnd count]
  | branch expected count next child later => simp [route_branch count next]
  | leaf expected count path isLeaf inside same own => simp [route_leaf count path isLeaf]
  | extension expected count path inner same child later => simp [route_extension count path inner]

/-- One reference, at one depth of the key, is met by one node only. -/
theorem node_unique {expectedRoot node node' : Bytes} {keyIndex : Nat}
    (expected : isExpected expectedRoot node keyIndex = true)
    (expected' : isExpected expectedRoot node' keyIndex = true)
    {strings : Set Bytes} (free : CollisionFree keccak256 strings) (given : node ∈ strings)
    (given' : node' ∈ strings) : node = node' := by
  have short : ∀ short long : Bytes, short.length < 32 → short ≠ (keccak256 long).toList := by
    intro short long bound same
    simp [same] at bound
  have hashed : (keccak256 node).toList = (keccak256 node').toList → node = node' :=
    fun same => free given given' (toList_injective same)
  unfold isExpected at expected expected'
  split at expected
  · rename_i top
    rw [if_pos top] at expected'
    exact hashed ((of_decide_eq_true expected).trans (of_decide_eq_true expected').symm)
  · rename_i below
    rw [if_neg below] at expected'
    split at expected <;> split at expected'
    · exact (of_decide_eq_true expected).trans (of_decide_eq_true expected').symm
    · rename_i bound _
      exact absurd ((of_decide_eq_true expected).trans (of_decide_eq_true expected').symm)
        (short _ _ bound)
    · rename_i _ bound
      exact absurd ((of_decide_eq_true expected').trans (of_decide_eq_true expected).symm)
        (short _ _ bound)
    · exact hashed ((of_decide_eq_true expected).trans (of_decide_eq_true expected').symm)

theorem collisionFree_tails {node node' : Bytes} {rest rest' : List Bytes}
    (free : CollisionFree keccak256
      ({ element | element ∈ node :: rest } ∪ { element | element ∈ node' :: rest' })) :
    CollisionFree keccak256 ({ element | element ∈ rest } ∪ { element | element ∈ rest' }) :=
  free.mono (Set.union_subset_union (fun _ member => List.mem_cons_of_mem _ member)
    fun _ member => List.mem_cons_of_mem _ member)

/-- Two accepted walks from one reference that end at one place have read the
same key: the nodes agree one by one, a branch is left by the nibble of the item
followed, and the other nodes name their nibbles. -/
theorem Accepted.key_unique {crate : RlpCrate} {key key' expectedRoot value value' : Bytes}
    {proof proof' : List Bytes} {keyIndex : Nat}
    (first : Accepted crate key expectedRoot proof keyIndex value)
    (second : Accepted crate key' expectedRoot proof' keyIndex value')
    (free : CollisionFree keccak256 ({ node | node ∈ proof } ∪ { node | node ∈ proof' }))
    (same : route crate key proof keyIndex = route crate key' proof' keyIndex) :
    key.drop keyIndex = key'.drop keyIndex := by
  induction first generalizing proof' value' with
  | @branchEnd expectedRoot node value expected count own =>
    rw [route_branchEnd count] at same
    rw [List.drop_length]
    generalize key.length = keyIndex at second expected same ⊢
    cases second with
    | branchEnd expected' count' own' => rw [List.drop_length]
    | branch expected' count' next' child' later' =>
      rw [route_branch count' next'] at same
      exact absurd (List.cons.inj same).2.symm later'.route_ne_nil
    | leaf expected' count' path' isLeaf' inside' same' own' =>
      obtain rfl := node_unique expected expected' free (by simp) (by simp)
      omega
    | extension expected' count' path' inner' same' child' later' =>
      obtain rfl := node_unique expected expected' free (by simp) (by simp)
      omega
  | @branch expectedRoot node newRoot value rest keyIndex nibble expected count next child later ih =>
    rw [route_branch count next] at same
    cases second with
    | branchEnd expected' count' own' =>
      rw [route_branchEnd count'] at same
      exact absurd (List.cons.inj same).2 later.route_ne_nil
    | branch expected' count' next' child' later' =>
      obtain rfl := node_unique expected expected' free (by simp) (by simp)
      rw [route_branch count next'] at same
      obtain ⟨items, ways⟩ := List.cons.inj same
      obtain rfl := UInt8.toNat.inj items
      obtain rfl := Option.some.inj (child.symm.trans child')
      have tails := ih later' (collisionFree_tails free) ways
      rw [List.drop_eq_getElem?_toList_append, List.drop_eq_getElem?_toList_append (l := key'), next,
        next', tails]
    | leaf expected' count' path' isLeaf' inside' same' own' =>
      obtain rfl := node_unique expected expected' free (by simp) (by simp)
      omega
    | extension expected' count' path' inner' same' child' later' =>
      obtain rfl := node_unique expected expected' free (by simp) (by simp)
      omega
  | leaf expected count path isLeaf inside taken own =>
    cases second with
    | branchEnd expected' count' own' =>
      obtain rfl := node_unique expected expected' free (by simp) (by simp)
      omega
    | branch expected' count' next' child' later' =>
      obtain rfl := node_unique expected expected' free (by simp) (by simp)
      omega
    | leaf expected' count' path' isLeaf' inside' taken' own' =>
      obtain rfl := node_unique expected expected' free (by simp) (by simp)
      obtain ⟨rfl, rfl⟩ := List.cons.inj (Option.some.inj (path.symm.trans path'))
      exact taken.symm.trans taken'
    | extension expected' count' path' inner' taken' child' later' =>
      obtain rfl := node_unique expected expected' free (by simp) (by simp)
      obtain ⟨rfl, rfl⟩ := List.cons.inj (Option.some.inj (path.symm.trans path'))
      exact absurd isLeaf inner'
  | @extension expectedRoot node others newRoot value first rest keyIndex expected count path inner taken
      child later ih =>
    rw [route_extension count path inner] at same
    cases second with
    | branchEnd expected' count' own' =>
      obtain rfl := node_unique expected expected' free (by simp) (by simp)
      omega
    | branch expected' count' next' child' later' =>
      obtain rfl := node_unique expected expected' free (by simp) (by simp)
      omega
    | leaf expected' count' path' isLeaf' inside' taken' own' =>
      obtain rfl := node_unique expected expected' free (by simp) (by simp)
      obtain ⟨rfl, rfl⟩ := List.cons.inj (Option.some.inj (path.symm.trans path'))
      exact absurd isLeaf' inner
    | extension expected' count' path' inner' taken' child' later' =>
      obtain rfl := node_unique expected expected' free (by simp) (by simp)
      obtain ⟨rfl, rfl⟩ := List.cons.inj (Option.some.inj (path.symm.trans path'))
      rw [route_extension count path inner'] at same
      obtain rfl := Option.some.inj (child.symm.trans child')
      have tails := ih later' (collisionFree_tails free) (List.cons.inj same).2
      rw [← List.drop_drop, ← List.drop_drop] at tails
      rw [← List.take_append_drop (pathOf first others).length (key.drop keyIndex),
        taken.symm.trans taken', tails, List.take_append_drop]

/-- The reference to a node that the contract can follow: its hash, or nothing
for the empty trie. A node stored inline is no byte string. -/
def Refers (trie : Trie) (expectedRoot : Bytes) : Prop :=
  expectedRoot = (trie.root keccak256).toList ∨ trie = .empty ∧ expectedRoot = []

theorem refers_of_bytes {crate : RlpCrate} (documented : crate.Documented) {trie : Trie}
    (fits : (Trie.refer keccak256 (trie.item keccak256)).encode.length < 2 ^ 64) {expectedRoot : Bytes}
    (read : crate.bytes (Trie.refer keccak256 (trie.item keccak256)).encode = some expectedRoot) :
    Refers trie expectedRoot := by
  unfold Trie.refer at fits read
  split at fits
  · rename_i short
    rw [if_pos short] at read
    cases trie with
    | empty =>
      rw [Trie.item, documented.bytes_data [] (by rwa [Trie.item] at fits)] at read
      exact .inr ⟨rfl, (Option.some.inj read).symm⟩
    | leaf path value =>
      rw [Trie.item, documented.bytes_list _ (by rwa [Trie.item] at fits)] at read
      cases read
    | extension path child =>
      rw [Trie.item, documented.bytes_list _ (by rwa [Trie.item] at fits)] at read
      cases read
    | branch children value =>
      rw [Trie.item, documented.bytes_list _ (by rwa [Trie.item] at fits)] at read
      cases read
  · rename_i long
    rw [if_neg long, documented.bytes_data _ fits] at read
    exact .inl (Option.some.inj read).symm

/-- An element that passes the check against a reference is the node itself. -/
theorem Refers.node_eq {trie : Trie} {expectedRoot node : Bytes} {keyIndex : Nat} {strings : Set Bytes}
    (refers : Refers trie expectedRoot) (expected : isExpected expectedRoot node keyIndex = true)
    (free : CollisionFree keccak256 strings) (honest : trie.encode keccak256 ∈ strings)
    (given : node ∈ strings) : node = trie.encode keccak256 ∨ trie = .empty ∧ node = [] := by
  have hashed : (keccak256 node).toList = expectedRoot →
      node = trie.encode keccak256 ∨ trie = .empty ∧ node = [] := by
    intro same
    rcases refers with rfl | ⟨-, rfl⟩
    · exact .inl (free given honest (toList_injective same))
    · have length := congrArg List.length same
      simp at length
  unfold isExpected at expected
  split at expected
  · exact hashed (by simpa using expected)
  · split at expected
    · rename_i short
      rcases refers with rfl | ⟨rfl, rfl⟩
      · have same : node = (trie.root keccak256).toList := by simpa using expected
        simp [same] at short
      · exact .inr ⟨rfl, by simpa using expected⟩
    · exact hashed (by simpa using expected)

section Nodes

variable {crate : RlpCrate} (documented : crate.Documented)

include documented

theorem items_encode {trie : Trie} (fits : (trie.encode keccak256).length < 2 ^ 64) :
    (crate.items (trie.encode keccak256)).length = trie.arity := by
  unfold Trie.encode at fits ⊢
  cases trie with
  | empty =>
    simp only [Trie.item] at fits ⊢
    rw [documented.items_data [] fits]
    rfl
  | leaf path value =>
    simp only [Trie.item] at fits ⊢
    rw [documented.items_list _ fits]
    rfl
  | extension path child =>
    simp only [Trie.item] at fits ⊢
    rw [documented.items_list _ fits]
    rfl
  | branch children value =>
    simp only [Trie.item] at fits ⊢
    rw [documented.items_list _ fits]
    simp [Trie.arity]

/-- The reference that the contract reads in a node refers to the child there. -/
theorem refers_of_getVec {content : List Rlp.Item} {index : Nat} {child : Trie}
    (fits : (Rlp.Item.list content).encode.length < 2 ^ 64)
    (found : content[index]? = some (Trie.refer keccak256 (child.item keccak256))) {newRoot : Bytes}
    (read : getVec crate (Rlp.Item.list content).encode index = some newRoot) :
    Refers child newRoot := by
  refine refers_of_bytes documented (RlpCrate.length_encode_lt fits found) ?_
  rwa [getVec, RlpCrate.bytesAt, documented.get fits found] at read

omit [Hashing] in
theorem getVec_data {content : List Rlp.Item} {index : Nat} (body : Bytes) {value : Bytes}
    (fits : (Rlp.Item.list content).encode.length < 2 ^ 64)
    (found : content[index]? = some (.data body))
    (read : getVec crate (Rlp.Item.list content).encode index = some value) : value = body := by
  rw [getVec, documented.bytesAt fits found] at read
  exact (Option.some.inj read).symm

/-- An accepted element with items in it is the node referred to. -/
theorem Refers.node_eq_encode {trie : Trie} {expectedRoot node : Bytes} {keyIndex count : Nat}
    {strings : Set Bytes} (refers : Refers trie expectedRoot)
    (expected : isExpected expectedRoot node keyIndex = true)
    (encodable : trie.Encodable keccak256) (free : CollisionFree keccak256 strings)
    (honest : trie.encodings keccak256 ⊆ strings) (given : node ∈ strings)
    (items : (crate.items node).length = count + 1) :
    node = trie.encode keccak256 ∧ trie.arity = count + 1 := by
  rcases refers.node_eq expected free (honest trie.encode_mem) given with rfl | ⟨-, rfl⟩
  · exact ⟨rfl, (items_encode documented (encodable _ trie.encode_mem)).symm.trans items⟩
  · rw [documented.items_nil] at items
    cases items

end Nodes

theorem collisionFree_descend {trie child : Trie} {node : Bytes} {rest : List Bytes}
    (free : CollisionFree keccak256 (trie.encodings keccak256 ∪ { element | element ∈ node :: rest }))
    (inside : child.Within trie) :
    CollisionFree keccak256 (child.encodings keccak256 ∪ { element | element ∈ rest }) :=
  free.mono (Set.union_subset_union inside.encodings fun _ member => List.mem_cons_of_mem _ member)

/-- An accepted walk goes the way of its route through the trie, along the key,
and returns what the trie has there. -/
theorem Accepted.leads {crate : RlpCrate} (documented : crate.Documented) {key : List Nibble}
    {expectedRoot value : Bytes} {proof : List Bytes} {keyIndex : Nat}
    (accepted : Accepted crate (key.map Nibble.byte) expectedRoot proof keyIndex value) (trie : Trie)
    (refers : Refers trie expectedRoot) (encodable : trie.Encodable keccak256)
    (free : CollisionFree keccak256 (trie.encodings keccak256 ∪ { element | element ∈ proof })) :
    trie.Leads (route crate (key.map Nibble.byte) proof keyIndex) (key.drop keyIndex) value := by
  induction accepted generalizing trie with
  | branchEnd expected count own =>
    obtain ⟨rfl, arity⟩ := refers.node_eq_encode documented expected encodable free
      Set.subset_union_left (by simp) count
    have fits := encodable _ trie.encode_mem
    cases trie with
    | branch children stored =>
      have same := getVec_data documented stored fits (by simp) own
      rw [route_branchEnd count, List.drop_eq_nil_of_le (by simp), same]
      exact .own children stored
    | _ => cases arity
  | @branch _ _ newRoot _ _ keyIndex nibble expected count next child later ih =>
    obtain ⟨rfl, arity⟩ := refers.node_eq_encode documented expected encodable free
      Set.subset_union_left (by simp) count
    have fits := encodable _ trie.encode_mem
    cases trie with
    | branch children stored =>
      rw [route_branch count next]
      rw [List.getElem?_map, Option.map_eq_some_iff] at next
      obtain ⟨nibble, next, rfl⟩ := next
      have inside : (children nibble).Within (.branch children stored) := .branch nibble stored (.refl _)
      have value : nibble.byte.toNat = nibble.val := Rlp.toNat_ofNat _ (by omega)
      rw [value] at child ⊢
      have childRefers := refers_of_getVec documented fits
        (Trie.getElem_references children stored nibble) child
      have later := ih _ childRefers (encodable.within inside) (collisionFree_descend free inside)
      have split : key.drop keyIndex = nibble :: key.drop (keyIndex + 1) := by
        obtain ⟨bound, rfl⟩ := List.getElem?_eq_some_iff.mp next
        exact List.drop_eq_getElem_cons bound
      rw [split]
      exact .branch nibble stored later
    | _ => cases arity
  | leaf expected count path isLeaf inside same own =>
    obtain ⟨rfl, arity⟩ := refers.node_eq_encode documented expected encodable free
      Set.subset_union_left (by simp) count
    have fits := encodable _ trie.encode_mem
    cases trie with
    | leaf stored value =>
      obtain rfl := getVec_data documented value fits rfl own
      have read := getVec_data documented (hexPrefix true stored) fits rfl path
      rw [(pathOf_hexPrefix read.symm).1, ← List.map_drop] at same
      rw [route_leaf count path isLeaf, ← List.map_injective_iff.mpr Nibble.byte_injective same]
      exact .leaf stored _
    | extension stored next =>
      have read := getVec_data documented (hexPrefix false stored) fits rfl path
      exact absurd ((pathOf_hexPrefix read.symm).2.mp isLeaf) (by decide)
    | _ => cases arity
  | @extension _ _ _ _ _ _ _ keyIndex expected count path inner same child later ih =>
    obtain ⟨rfl, arity⟩ := refers.node_eq_encode documented expected encodable free
      Set.subset_union_left (by simp) count
    have fits := encodable _ trie.encode_mem
    cases trie with
    | leaf stored value =>
      have read := getVec_data documented (hexPrefix true stored) fits rfl path
      exact absurd ((pathOf_hexPrefix read.symm).2.mpr rfl) inner
    | extension stored next =>
      have read := getVec_data documented (hexPrefix false stored) fits rfl path
      have inside : next.Within (.extension stored next) := .extension stored (.refl _)
      have childRefers : Refers next _ := refers_of_getVec documented fits rfl child
      have later := ih _ childRefers (encodable.within inside) (collisionFree_descend free inside)
      rw [route_extension count path inner]
      rw [(pathOf_hexPrefix read.symm).1, List.length_map] at same later ⊢
      rw [← List.map_drop, ← List.map_take] at same
      have taken := List.map_injective_iff.mpr Nibble.byte_injective same
      rw [← List.drop_drop] at later
      rw [← List.take_append_drop stored.length (key.drop keyIndex), ← taken]
      exact .extension stored later
    | _ => cases arity

/-- An accepted proof against the root of a trie returns what the trie has at
the key. -/
theorem verifyTrieProof_sound {crate : RlpCrate} (documented : crate.Documented) {trie : Trie}
    (encodable : trie.Encodable keccak256) {key value : Bytes} {proof : List Bytes}
    (free : CollisionFree keccak256 (trie.encodings keccak256 ∪ { element | element ∈ proof }))
    (success : verifyTrieProof crate (trie.root keccak256) key proof = some value) :
    trie.Yields (nibbles key) value := by
  have accepted := accepted_of_verify success
  rw [halves_eq] at accepted
  exact (accepted.leads documented trie (.inl rfl) encodable free).yields

end RainbowBridge.EthProver
