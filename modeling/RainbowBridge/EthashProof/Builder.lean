import RainbowBridge.EthashProof.MerkleTree
import RainbowBridge.Lib.LevelTree
import Mathlib.Data.List.Forall2

/-! The tree of `mtree` as the program builds it: counts and indices of 32 bits, and
the branches of a node in a map that the node points to and that merging updates in
place. No two nodes point to one map, so that the stack of nodes is the one whose
nodes hold their branches as values. -/

namespace RainbowBridge.EthashProof

open Lib

/-- `map[uint32]BranchTree`. -/
abbrev BranchMap (α β : Type) := UInt32 → Option (BranchTree α β)

/-- A `node`, with the address of its map. -/
structure ListNode (α : Type) where
  data : α
  nodeCount : UInt32
  branches : Nat

/-- A `MerkleTree` with the maps that were allocated for it. -/
structure Builder (α β : Type) where
  /-- The list, its back first. -/
  mtbuf : List (ListNode α)
  h : α → α → α
  eh : β → α
  finalized : Bool
  indexes : UInt32 → Bool
  orderedIndexes : List UInt32
  storedLevel : UInt32
  exportNodeCount : UInt32
  exportNodes : List α
  maps : Nat → BranchMap α β
  allocated : Nat

/-- What the loop of `insertNode` changes. -/
structure Merging (α β : Type) where
  mtbuf : List (ListNode α)
  maps : Nat → BranchMap α β
  exportNodes : List α

section

variable {α β : Type}

/-- Both loops over the branches: those of the earlier node, and then those of the last
one, which are put into the map of the earlier. -/
def acceptSiblings (maps : Nat → BranchMap α β) (prevNode cNode : ListNode α) : Nat → BranchMap α β :=
  let right := Function.update maps prevNode.branches fun k =>
    (maps prevNode.branches k).map fun v => { v with root := v.root.acceptRightSibling cNode.data }
  Function.update right prevNode.branches fun k =>
    match right cNode.branches k with
    | some v => some { v with root := v.root.acceptLeftSibling prevNode.data }
    | none => right prevNode.branches k

def mergeNodes (h : α → α → α) (prevNode cNode : ListNode α) : ListNode α :=
  { prevNode with data := h prevNode.data cNode.data, nodeCount := cNode.nodeCount * 2 + 1 }

/-- The loop of `insertNode`, from the node at the back and those before it. -/
def mergeBack (h : α → α → α) (exportNodeCount : UInt32) (cNode : ListNode α) :
    List (ListNode α) → (Nat → BranchMap α β) → List α → Merging α β
  | [], maps, exportNodes => ⟨[cNode], maps, exportNodes⟩
  | prevNode :: rest, maps, exportNodes =>
    if cNode.nodeCount ≠ prevNode.nodeCount then ⟨cNode :: prevNode :: rest, maps, exportNodes⟩
    else
      let merged := mergeNodes h prevNode cNode
      mergeBack h exportNodeCount merged rest (acceptSiblings maps prevNode cNode)
        (if merged.nodeCount = exportNodeCount then exportNodes ++ [merged.data] else exportNodes)

namespace Builder

/-- As `NewSHA256DagTree` does it, for any two hash functions. -/
def new (h : α → α → α) (eh : β → α) : Builder α β where
  mtbuf := []
  h := h
  eh := eh
  finalized := false
  indexes := fun _ => false
  orderedIndexes := []
  storedLevel := 0
  exportNodeCount := 0
  exportNodes := []
  maps := fun _ _ => none
  allocated := 0

def registerIndex (tree : Builder α β) (indexes : List UInt32) : Builder α β :=
  { tree with
    indexes := fun index => tree.indexes index || indexes.contains index
    orderedIndexes := tree.orderedIndexes ++ indexes }

def insertNode (tree : Builder α β) (node : ListNode α) : Builder α β :=
  let merging := mergeBack tree.h tree.exportNodeCount node tree.mtbuf tree.maps tree.exportNodes
  { tree with mtbuf := merging.mtbuf, maps := merging.maps, exportNodes := merging.exportNodes }

/-- A new map at the next address. -/
def allocate (tree : Builder α β) (map : BranchMap α β) : Builder α β :=
  { tree with maps := Function.update tree.maps tree.allocated map, allocated := tree.allocated + 1 }

/-- The map of a node for one element. -/
def leafMap (tree : Builder α β) (data : β) (index : UInt32) : BranchMap α β := fun k =>
  if k = index ∧ tree.indexes index = true then
    some { rawData := data, hashedData := tree.eh data, root := .hash (tree.eh data) }
  else none

def insert (tree : Builder α β) (data : β) (index : UInt32) : Builder α β :=
  (tree.allocate (tree.leafMap data index)).insertNode ⟨tree.eh data, 1, tree.allocated⟩

/-- Elements inserted in order. -/
def insertFrom (tree : Builder α β) (index : UInt32) : List β → Builder α β
  | [] => tree
  | data :: rest => (tree.insert data index).insertFrom (index + 1) rest

/-- One round of `Finalize`: `Copy` has a map of its own, which is empty. -/
def duplicate (tree : Builder α β) (last : ListNode α) : Builder α β :=
  (tree.allocate fun _ => none).insertNode { last with branches := tree.allocated }

/-- The loop of `Finalize`, as far as it is done after `rounds` rounds. -/
def finalizeLoop : Nat → Builder α β → Option (Builder α β)
  | 0, _ => none
  | rounds + 1, tree =>
    match tree.mtbuf with
    | [] => none
    | last :: _ =>
      let next := tree.duplicate last
      if next.mtbuf.length = 1 then some next else finalizeLoop rounds next

def finalize (rounds : Nat) (tree : Builder α β) : Option (Builder α β) :=
  if tree.finalized = false ∧ 1 < tree.mtbuf.length then do
    let tree ← tree.finalizeLoop rounds
    return { tree with finalized := true }
  else some { tree with finalized := true }

/-- `Root` and `RootHash`. -/
def rootHash (tree : Builder α β) : Option α := do
  guard tree.finalized
  let node ← tree.mtbuf.getLast?
  return node.data

def branches (tree : Builder α β) : Option (BranchMap α β) := do
  guard tree.finalized
  let node ← tree.mtbuf.getLast?
  return tree.maps node.branches

/-- An index without a branch, or a stored level above the length, is a panic. -/
def proofsForRegisteredIndices (tree : Builder α β) : Option (List (List α)) := do
  let branches ← tree.branches
  tree.orderedIndexes.mapM fun k => do
    let branch ← branches k
    let hh := branch.root.toNodeArray.tail
    guard (tree.storedLevel.toNat ≤ hh.length)
    return hh.take (hh.length - tree.storedLevel.toNat)

end Builder

end

section

variable {α β : Type} {h : α → α → α} {eh : β → α} {word : Nat → β} {count : Nat}
  {registered : Nat → Bool}

/-- A node that points to its branches, and the node that holds them. -/
structure ListNode.Represents (maps : Nat → BranchMap α β) (node : ListNode α) (value : Node α β) : Prop where
  data : node.data = value.data
  nodeCount : node.nodeCount = UInt32.ofNat value.nodeCount
  branches : ∀ k : UInt32, maps node.branches k = value.branches k.toNat

theorem acceptSiblings_of_ne (maps : Nat → BranchMap α β) {prevNode : ListNode α} (cNode : ListNode α) {address : Nat}
    (other : address ≠ prevNode.branches) : acceptSiblings maps prevNode cNode address = maps address := by
  simp only [acceptSiblings, Function.update_of_ne other]

theorem ListNode.Represents.of_same {maps later : Nat → BranchMap α β} {node : ListNode α} {value : Node α β}
    (here : node.Represents maps value) (same : later node.branches = maps node.branches) :
    node.Represents later value where
  data := here.data
  nodeCount := here.nodeCount
  branches := by
    rw [same]
    exact here.branches

theorem represents_of_same {maps later : Nat → BranchMap α β} {buffer : List (ListNode α)}
    {nodes : List (Node α β)} (here : List.Forall₂ (ListNode.Represents maps) buffer nodes)
    (same : ∀ node ∈ buffer, later node.branches = maps node.branches) :
    List.Forall₂ (ListNode.Represents later) buffer nodes := by
  have both := List.forall₂_iff_get.mp here
  refine List.forall₂_iff_get.mpr ⟨both.1, fun position left right => ?_⟩
  exact (both.2 position left right).of_same (same _ (List.get_mem _ _))

theorem ListNode.Represents.merge {maps : Nat → BranchMap α β} {prevNode cNode : ListNode α}
    {prev value : Node α β} (before : prevNode.Represents maps prev) (here : cNode.Represents maps value)
    (apart : cNode.branches ≠ prevNode.branches) :
    (mergeNodes h prevNode cNode).Represents (acceptSiblings maps prevNode cNode) (prev.merge h value) where
  data := by simp only [mergeNodes, Node.merge, before.data, here.data]
  nodeCount := by
    have doubled : UInt32.ofNat (value.nodeCount * 2 + 1) = UInt32.ofNat value.nodeCount * 2 + 1 :=
      (UInt32.ofNat_add _ _).trans (congrArg (· + 1) (UInt32.ofNat_mul _ _))
    exact (congrArg (fun count : UInt32 => count * 2 + 1) here.nodeCount).trans doubled.symm
  branches := by
    intro k
    cases found : value.branches k.toNat with
    | none =>
      simp [mergeNodes, acceptSiblings, Function.update_of_ne apart, Node.merge, here.branches, before.branches,
        here.data, found]
    | some siblings =>
      simp [mergeNodes, acceptSiblings, Function.update_of_ne apart, Node.merge, here.branches, before.data, found]

/-- Counts of different levels differ, for nodes that stand side by side over places
of 32 bits. -/
theorem nodeCount_eq_iff {first second level above : Nat} (one : first + 1 = 2 ^ (level + 1))
    (other : second + 1 = 2 ^ (above + 1)) (low : level ≤ above) (small : 2 ^ above + 2 ^ level ≤ 2 ^ 32) :
    UInt32.ofNat first = UInt32.ofNat second ↔ first = second := by
  have positive : 0 < 2 ^ level := Nat.two_pow_pos level
  have limit : 2 ^ above < 2 ^ 32 := by omega
  have top : above < 32 := (Nat.pow_lt_pow_iff_right (by omega)).mp limit
  have bound : 2 ^ (above + 1) ≤ 2 ^ 32 := Nat.pow_le_pow_right (by omega) (by omega)
  have lower : 2 ^ (level + 1) ≤ 2 ^ (above + 1) := Nat.pow_le_pow_right (by omega) (by omega)
  constructor
  · intro same
    have numbers := congrArg UInt32.toNat same
    rw [UInt32.toNat_ofNat_of_lt' (by simp [UInt32.size]; omega),
      UInt32.toNat_ofNat_of_lt' (by simp [UInt32.size]; omega)] at numbers
    exact numbers
  · exact congrArg UInt32.ofNat

/-- The loop of `insertNode` keeps the representation, and no node gets a map that
another one had. -/
theorem mergeBack_represents (exportNodeCount : UInt32) (exportNodes : List α) {level start : Nat}
    {node : ListNode α} {value : Node α β} {buffer : List (ListNode α)} {nodes : List (Node α β)}
    {maps : Nat → BranchMap α β} (stack : Stack h eh word count registered level start nodes)
    (spans : value.Spans h eh word count registered level start) (small : start + 2 ^ level ≤ 2 ^ 32)
    (here : node.Represents maps value) (before : List.Forall₂ (ListNode.Represents maps) buffer nodes)
    (apart : ((node :: buffer).map ListNode.branches).Nodup) :
    let merging := mergeBack h exportNodeCount node buffer maps exportNodes
    List.Forall₂ (ListNode.Represents merging.maps) merging.mtbuf (insertNode h value nodes) ∧
      (merging.mtbuf.map ListNode.branches).Sublist ((node :: buffer).map ListNode.branches) := by
  induction nodes generalizing level start node value buffer maps exportNodes with
  | nil =>
    cases before
    exact ⟨.cons here .nil, .refl _⟩
  | cons prev rest ih =>
    obtain ⟨prevNode, buffer, first, others, rfl⟩ := List.forall₂_cons_right_iff.mp before
    cases stack with
    | cons low earlier below =>
      rename_i above start
      have counts : node.nodeCount = prevNode.nodeCount ↔ value.nodeCount = prev.nodeCount := by
        rw [here.nodeCount, first.nodeCount]
        exact nodeCount_eq_iff spans.nodeCount earlier.nodeCount low (by omega)
      rw [EthashProof.insertNode, mergeBack]
      by_cases same : value.nodeCount = prev.nodeCount
      case neg =>
        rw [if_neg same, if_pos (counts.not.mpr same)]
        exact ⟨.cons here (.cons first others), .refl _⟩
      case pos =>
        rw [if_pos same, if_neg (not_not.mpr (counts.mpr same))]
        have equal : above = level := by
          have powers : 2 ^ (above + 1) = 2 ^ (level + 1) := by
            rw [← spans.nodeCount, ← earlier.nodeCount, same]
          have := Nat.pow_right_injective (le_refl 2) powers
          omega
        subst equal
        simp only [List.map_cons, List.nodup_cons, List.mem_cons, List.mem_map, not_or, not_exists, not_and]
          at apart
        obtain ⟨⟨separate, _⟩, alone, distinct⟩ := apart
        have kept := represents_of_same others fun other member =>
          acceptSiblings_of_ne maps node fun shared => alone other member shared
        obtain ⟨represented, sublist⟩ := ih _ below (earlier.merge spans below.aligned)
          (by rw [pow_succ]; omega) (first.merge here separate) kept
          (List.nodup_cons.mpr ⟨by simpa [mergeNodes] using alone, distinct⟩)
        exact ⟨represented, sublist.trans (List.sublist_cons_self _ _)⟩

/-- A tree under construction whose nodes stand for all places below `stop`. -/
structure Builder.Holds (h : α → α → α) (eh : β → α) (word : Nat → β) (count : Nat) (indices : List UInt32)
    (tree : Builder α β) (stop : Nat) (nodes : List (Node α β)) : Prop where
  hash : tree.h = h
  elementHash : tree.eh = eh
  registered : ∀ k, tree.indexes k = indices.contains k
  ordered : tree.orderedIndexes = indices
  stored : tree.storedLevel = 0
  unfinished : tree.finalized = false
  stack : Stack h eh word count (fun k => indices.contains (UInt32.ofNat k)) 0 stop nodes
  represents : List.Forall₂ (ListNode.Represents tree.maps) tree.mtbuf nodes
  distinct : (tree.mtbuf.map ListNode.branches).Nodup
  allocated : ∀ node ∈ tree.mtbuf, node.branches < tree.allocated

namespace Builder

variable {indices : List UInt32} {tree : Builder α β} {stop : Nat} {nodes : List (Node α β)}

theorem holds_registered (h : α → α → α) (eh : β → α) (word : Nat → β) (count : Nat) (indices : List UInt32) :
    ((new h eh).registerIndex indices).Holds h eh word count indices 0 [] where
  hash := rfl
  elementHash := rfl
  registered := by simp [registerIndex, new]
  ordered := rfl
  stored := rfl
  unfinished := rfl
  stack := .nil 0
  represents := .nil
  distinct := .nil
  allocated := by simp [registerIndex, new]

/-- A new map changes nothing for the nodes there are, and none of them points to it. -/
theorem Holds.allocate (holds : tree.Holds h eh word count indices stop nodes) (map : BranchMap α β) :
    List.Forall₂ (ListNode.Represents (tree.allocate map).maps) tree.mtbuf nodes ∧
      (tree.allocated :: tree.mtbuf.map ListNode.branches).Nodup := by
  constructor
  · apply represents_of_same holds.represents
    intro node member
    have below := holds.allocated node member
    exact Function.update_of_ne (by omega) _ _
  · refine List.nodup_cons.mpr ⟨?_, holds.distinct⟩
    intro member
    obtain ⟨node, present, same⟩ := List.mem_map.mp member
    have below := holds.allocated node present
    omega

/-- What is left of the list after an insertion has the maps that were there before. -/
theorem allocated_of_sublist {buffer later : List (ListNode α)} {limit : Nat}
    (sublist : (later.map ListNode.branches).Sublist (limit :: buffer.map ListNode.branches))
    (below : ∀ node ∈ buffer, node.branches < limit) : ∀ node ∈ later, node.branches < limit + 1 := by
  intro node member
  rcases List.mem_cons.mp (sublist.subset (List.mem_map_of_mem member)) with same | old
  · omega
  · obtain ⟨other, present, same⟩ := List.mem_map.mp old
    have := below other present
    omega

theorem allocate_maps (tree : Builder α β) (map : BranchMap α β) :
    (tree.allocate map).maps tree.allocated = map := Function.update_self ..

/-- A node with a new map that has been merged into the list. -/
theorem Holds.insertNode {later : Nat} {others : List (Node α β)}
    (holds : tree.Holds h eh word count indices stop nodes) (map : BranchMap α β) (node : ListNode α)
    (stack : Stack h eh word count (fun k => indices.contains (UInt32.ofNat k)) 0 later others)
    {merging : Merging α β} (result : mergeBack h tree.exportNodeCount node tree.mtbuf (tree.allocate map).maps
      tree.exportNodes = merging)
    (merged : List.Forall₂ (ListNode.Represents merging.maps) merging.mtbuf others ∧
      (merging.mtbuf.map ListNode.branches).Sublist (tree.allocated :: tree.mtbuf.map ListNode.branches)) :
    ((tree.allocate map).insertNode node).Holds h eh word count indices later others := by
  obtain ⟨_, apart⟩ := holds.allocate map
  subst result
  rw [← holds.hash] at merged
  exact {
    hash := holds.hash
    elementHash := holds.elementHash
    registered := holds.registered
    ordered := holds.ordered
    stored := holds.stored
    unfinished := holds.unfinished
    stack := stack
    represents := merged.1
    distinct := apart.sublist merged.2
    allocated := allocated_of_sublist merged.2 holds.allocated }

theorem Holds.insert {index : Nat} (holds : tree.Holds h eh word count indices index nodes)
    (inside : index < count) (small : count ≤ 2 ^ 32) :
    ∃ nodes, (tree.insert (word index) (UInt32.ofNat index)).Holds h eh word count indices (index + 1) nodes := by
  obtain ⟨before, apart⟩ := holds.allocate (tree.leafMap (word index) (UInt32.ofNat index))
  have spans : Node.Spans h eh word count (fun k => indices.contains (UInt32.ofNat k)) _ 0 index := .leaf inside
  have here : (ListNode.mk (tree.eh (word index)) 1 tree.allocated).Represents
      (tree.allocate (tree.leafMap (word index) (UInt32.ofNat index))).maps
      ⟨eh (word index), 1, fun other =>
        if other = index ∧ indices.contains (UInt32.ofNat index) = true then
          some { rawData := word index, hashedData := eh (word index), root := .hash (eh (word index)) }
        else none⟩ := by
    refine ⟨by rw [holds.elementHash], rfl, fun k => ?_⟩
    have position : k = UInt32.ofNat index ↔ k.toNat = index := by
      rw [← UInt32.toNat_inj, UInt32.toNat_ofNat_of_lt' (by simp [UInt32.size]; omega)]
    rw [allocate_maps]
    simp only [leafMap, position, holds.registered, holds.elementHash]
  exact ⟨_, holds.insertNode _ _ (holds.stack.insertNode spans) rfl
    (mergeBack_represents _ _ holds.stack spans (by omega) here before apart)⟩

theorem Holds.insertFrom {index : Nat} {elements : List β}
    (holds : tree.Holds h eh word count indices index nodes) (small : count ≤ 2 ^ 32)
    (words : ∀ k data, elements[k]? = some data → data = word (index + k))
    (inside : index + elements.length ≤ count) :
    ∃ nodes, (tree.insertFrom (UInt32.ofNat index) elements).Holds h eh word count indices
      (index + elements.length) nodes := by
  induction elements generalizing tree index nodes with
  | nil => exact ⟨nodes, holds⟩
  | cons data rest ih =>
    obtain rfl : data = word index := words 0 data (by simp)
    simp only [List.length_cons] at inside ⊢
    obtain ⟨_, inserted⟩ := holds.insert (by omega) small
    have next : UInt32.ofNat index + 1 = UInt32.ofNat (index + 1) := by
      rw [UInt32.ofNat_add]
      rfl
    rw [Builder.insertFrom, next, show index + (rest.length + 1) = index + 1 + rest.length by omega]
    apply ih inserted
    · intro k other found
      rw [words (k + 1) other (by simpa using found)]
      congr 1
      omega
    · omega

/-- One round of `Finalize` fills up the places of the last two nodes. -/
theorem Holds.duplicate {last : ListNode α} {before : List (ListNode α)} (several : before ≠ [])
    (holds : tree.Holds h eh word count indices stop nodes) (buffer : tree.mtbuf = last :: before)
    (small : count ≤ 2 ^ 32) (full : count ≤ stop) :
    ∃ later others, stop < later ∧ stop < 2 * count ∧
      (tree.duplicate last).Holds h eh word count indices later others := by
  have represents := holds.represents
  rw [buffer] at represents
  obtain ⟨value, rest, first, earlier, rfl⟩ := List.forall₂_cons_left_iff.mp represents
  obtain ⟨prev, rest, rfl⟩ : ∃ prev others, rest = prev :: others := by
    cases earlier with
    | nil => exact absurd rfl several
    | cons => exact ⟨_, _, rfl⟩
  obtain ⟨present, apart⟩ := holds.allocate fun _ => none
  rw [buffer] at present apart
  obtain ⟨value', rest', lastRepresents, beforeRepresents, same⟩ := List.forall₂_cons_left_iff.mp present
  cases same
  have stack := holds.stack
  cases stack with
  | cons low spans below =>
    rename_i level start
    have large := below.stop_pos (by simp)
    have within := spans.inside
    have positive : 0 < 2 ^ level := Nat.two_pow_pos level
    have power : 2 ^ (level + 1) = 2 ^ level * 2 := pow_succ 2 level
    have merged := spans.merge_copy full below.aligned (by omega)
    -- The places end where 32 bits do, or before.
    have bound : start + 2 ^ (level + 1) ≤ 2 ^ 32 := by
      have top : level + 1 < 32 := (Nat.pow_lt_pow_iff_right (by omega)).mp (show 2 ^ (level + 1) < 2 ^ 32 by omega)
      have whole : 2 ^ (level + 1) ∣ 2 ^ 32 := pow_dvd_pow 2 (by omega)
      obtain ⟨number, rfl⟩ := below.aligned
      obtain ⟨blocks, limit⟩ := whole
      rw [limit] at small ⊢
      have fewer : number < blocks := Nat.lt_of_mul_lt_mul_left (lt_of_lt_of_le within small)
      calc 2 ^ (level + 1) * number + 2 ^ (level + 1) = 2 ^ (level + 1) * (number + 1) := by ring
        _ ≤ 2 ^ (level + 1) * blocks := Nat.mul_le_mul_left _ fewer
    have copied : ({ last with branches := tree.allocated } : ListNode α).Represents
        (tree.allocate fun _ => none).maps value.copy :=
      ⟨first.data, first.nodeCount, fun k => by rw [allocate_maps]; rfl⟩
    simp only [List.map_cons, List.nodup_cons, List.mem_cons, not_or] at apart
    obtain ⟨⟨separate, _⟩, alone, distinct⟩ := apart
    have kept := represents_of_same beforeRepresents fun other member =>
      acceptSiblings_of_ne _ { last with branches := tree.allocated } fun shared =>
        alone (shared ▸ List.mem_map_of_mem member)
    obtain ⟨represented, sublist⟩ := mergeBack_represents tree.exportNodeCount
      (if last.nodeCount * 2 + 1 = tree.exportNodeCount then
        tree.exportNodes ++ [h last.data last.data] else tree.exportNodes)
      below merged bound (lastRepresents.merge copied separate) kept
      (List.nodup_cons.mpr ⟨alone, distinct⟩)
    refine ⟨start + 2 ^ (level + 1), _, by omega, by omega,
      holds.insertNode _ _ (below.insertNode merged) ?_ ⟨represented, ?_⟩⟩
    · rw [buffer, mergeBack, if_neg (not_not.mpr rfl)]
      rfl
    · rw [buffer]
      exact sublist.trans (List.sublist_cons_self _ _)

theorem Holds.stop_pos (holds : tree.Holds h eh word count indices stop nodes) (positive : 0 < stop) :
    ∃ last before, tree.mtbuf = last :: before := by
  match buffer : tree.mtbuf with
  | last :: before => exact ⟨last, before, rfl⟩
  | [] =>
    have represents := holds.represents
    have stack := holds.stack
    rw [buffer] at represents
    cases represents
    cases stack
    omega

theorem ne_nil_of_several {last : ListNode α} {before : List (ListNode α)} (buffer : tree.mtbuf = last :: before)
    (several : tree.mtbuf.length ≠ 1) : before ≠ [] := by
  rintro rfl
  rw [buffer] at several
  exact several rfl

/-- `Finalize` ends with one node. -/
theorem Holds.finalizeLoop {rounds : Nat} (holds : tree.Holds h eh word count indices stop nodes)
    (several : tree.mtbuf.length ≠ 1) (small : count ≤ 2 ^ 32) (positive : 0 < count) (full : count ≤ stop)
    (enough : 2 * count ≤ rounds + stop) :
    ∃ result later node, tree.finalizeLoop rounds = some result ∧ count ≤ later ∧
      result.Holds h eh word count indices later [node] := by
  induction rounds generalizing tree stop nodes with
  | zero =>
    obtain ⟨last, before, buffer⟩ := holds.stop_pos (by omega)
    obtain ⟨_, _, _, short, _⟩ := holds.duplicate (ne_nil_of_several buffer several) buffer small full
    omega
  | succ rounds ih =>
    obtain ⟨last, before, buffer⟩ := holds.stop_pos (by omega)
    obtain ⟨later, others, more, _, next⟩ := holds.duplicate (ne_nil_of_several buffer several) buffer small full
    simp only [Builder.finalizeLoop, buffer]
    split
    case isTrue single =>
      obtain ⟨node, rfl⟩ : ∃ node, others = [node] := by
        rw [← List.length_eq_one_iff, ← next.represents.length_eq]
        exact single
      exact ⟨_, later, node, rfl, by omega, next⟩
    case isFalse different => exact ih next different (by omega) (by omega)

/-- What is answered from the node that is left. -/
theorem Holds.answers {node : Node α β} (holds : tree.Holds h eh word count indices stop [node])
    (full : count ≤ stop) (inside : ∀ k ∈ indices, k.toNat < count) :
    let finalized : Builder α β := { tree with finalized := true }
    finalized.rootHash = some (paddedRoot h (fun k => eh (word k)) count (Nat.clog 2 count) 0) ∧
      finalized.proofsForRegisteredIndices = some (indices.map fun k =>
        paddedPath h (fun k => eh (word k)) count k.toNat (Nat.clog 2 count)) := by
  have spans := holds.stack.single full
  have represents := holds.represents
  obtain ⟨only, rest, here, none, buffer⟩ := List.forall₂_cons_right_iff.mp represents
  cases none
  constructor
  · simp only [rootHash, buffer, guard_true, pure_bind]
    exact congrArg some (here.data.trans spans.data)
  · have each : ∀ k ∈ indices, (do
        let branch ← tree.maps only.branches k
        let hh := branch.root.toNodeArray.tail
        guard (tree.storedLevel.toNat ≤ hh.length)
        return hh.take (hh.length - tree.storedLevel.toNat)) =
          some (paddedPath h (fun k => eh (word k)) count k.toNat (Nat.clog 2 count)) := by
      intro k member
      have within := inside k member
      have reach := Nat.le_pow_clog (by omega : 1 < 2) count
      obtain ⟨branch, found, _, array⟩ := spans.branch k.toNat (by simpa using member) (Nat.zero_le _)
        (by omega) within
      rw [here.branches, found, holds.stored]
      simp [array, List.take_of_length_le]
    simp only [proofsForRegisteredIndices, branches, buffer, List.getLast?_singleton, guard_true,
      Option.bind_eq_bind, Option.bind_some, Option.pure_def, holds.ordered]
    exact mapM_eq_map each

/-- What `Finalize` makes of a list of elements: the padded tree over them. -/
theorem finalize_answers (h : α → α → α) (eh : β → α) {elements : List β} (nonempty : elements ≠ [])
    (small : elements.length ≤ 2 ^ 32) (word : Nat → β)
    (words : ∀ k data, elements[k]? = some data → data = word k) (indices : List UInt32)
    (inside : ∀ k ∈ indices, k.toNat < elements.length) :
    ∃ needed, ∀ rounds ≥ needed, ∃ tree,
      finalize rounds (((new h eh).registerIndex indices).insertFrom 0 elements) = some tree ∧
      tree.rootHash = some (paddedRoot h (fun k => eh (word k)) elements.length (Nat.clog 2 elements.length) 0) ∧
      tree.proofsForRegisteredIndices = some (indices.map fun k =>
        paddedPath h (fun k => eh (word k)) elements.length k.toNat (Nat.clog 2 elements.length)) := by
  have positive : 0 < elements.length := List.length_pos_iff.mpr nonempty
  obtain ⟨nodes, inserted⟩ : ∃ nodes, (((new h eh).registerIndex indices).insertFrom (UInt32.ofNat 0) elements).Holds
      h eh word elements.length indices (0 + elements.length) nodes :=
    (holds_registered h eh word elements.length indices).insertFrom small (by simpa using words) (by omega)
  rw [Nat.zero_add] at inserted
  refine ⟨elements.length, fun rounds enough => ?_⟩
  rw [finalize, show UInt32.ofNat 0 = 0 from rfl] at *
  by_cases single : (((new h eh).registerIndex indices).insertFrom 0 elements).mtbuf.length = 1
  · obtain ⟨node, rfl⟩ : ∃ node, nodes = [node] := by
      rw [← List.length_eq_one_iff, ← inserted.represents.length_eq, single]
    rw [if_neg (by omega)]
    exact ⟨_, rfl, inserted.answers le_rfl inside⟩
  · obtain ⟨last, before, buffer⟩ := inserted.stop_pos positive
    obtain ⟨result, later, node, ended, full, holds⟩ :=
      inserted.finalizeLoop single small positive le_rfl (show 2 * elements.length ≤ rounds + elements.length by omega)
    have several : 1 < (((new h eh).registerIndex indices).insertFrom 0 elements).mtbuf.length := by
      rw [buffer, List.length_cons] at single ⊢
      omega
    rw [if_pos ⟨inserted.unfinished, several⟩, ended]
    exact ⟨_, rfl, holds.answers full inside⟩

/-- The tree that is built element by element has the root of the tree that is built level
by level, and its proofs lead to that root. Positions are numbers of 32 bits. -/
theorem streamed_tree (h : α → α → α) (eh : β → α) {elements : List β} (nonempty : elements ≠ [])
    (small : elements.length ≤ 2 ^ 32) {indices : List UInt32}
    (inside : ∀ k ∈ indices, k.toNat < elements.length) :
    ∃ needed, ∀ rounds ≥ needed, ∃ tree root proofs,
      finalize rounds (((new h eh).registerIndex indices).insertFrom 0 elements) = some tree ∧
      tree.rootHash = some root ∧ levelRoot h (elements.map eh) = some root ∧
      tree.proofsForRegisteredIndices = some proofs ∧
      List.Forall₂ (fun k proof => proof.length = Nat.clog 2 elements.length ∧
        ∃ data, elements[k.toNat]? = some data ∧ climbIndex h k.toNat (eh data) proof = root) indices proofs := by
  have positive : 0 < elements.length := List.length_pos_iff.mpr nonempty
  let word := fun k => elements.getD k (elements.head nonempty)
  have words : ∀ k data, elements[k]? = some data → data = word k := by
    intro k data found
    simp [word, List.getD_eq_getElem?_getD, found]
  obtain ⟨needed, ends⟩ := finalize_answers h eh nonempty small word words indices inside
  have leaves : IsLevel h (fun k => eh (word k)) elements.length 0 (elements.map eh) := by
    apply isLevel_leaves
    intro k
    rw [List.getElem?_map]
    by_cases within : k < elements.length
    · rw [if_pos within, List.getElem?_eq_getElem within, Option.map_some,
        words k _ (List.getElem?_eq_getElem within)]
    · rw [if_neg within, List.getElem?_eq_none (by omega)]
      rfl
  refine ⟨needed, fun rounds enough => ?_⟩
  obtain ⟨tree, ended, root, proofs⟩ := ends rounds enough
  refine ⟨tree, _, _, ended, root, leaves.root positive (Nat.zero_le _), proofs, ?_⟩
  rw [List.forall₂_map_right_iff, List.forall₂_same]
  intro k member
  have within := inside k member
  refine ⟨length_paddedPath _ _, elements[k.toNat], List.getElem?_eq_getElem within, ?_⟩
  have reach := Nat.le_pow_clog (by omega : 1 < 2) elements.length
  rw [words _ _ (List.getElem?_eq_getElem within),
    climbIndex_paddedPath h (fun k => eh (word k)) within, Nat.div_eq_of_lt (by omega), Nat.zero_mul]

/-- Five elements, of which the last is duplicated on three levels. -/
theorem streamed_tree_sample :
    let h : Nat → Nat → Nat := fun a b => 2 * a + 3 * b
    let indices : List UInt32 := [1, 4]
    ∃ needed, ∀ rounds ≥ needed, ∃ tree root proofs,
      finalize rounds (((new h (· + 1)).registerIndex indices).insertFrom 0 [10, 20, 30, 40, 50]) = some tree ∧
      tree.rootHash = some root ∧ levelRoot h [11, 21, 31, 41, 51] = some root ∧
      tree.proofsForRegisteredIndices = some proofs ∧
      List.Forall₂ (fun k proof => proof.length = Nat.clog 2 5 ∧
        ∃ data, [10, 20, 30, 40, 50][k.toNat]? = some data ∧ climbIndex h k.toNat (data + 1) proof = root)
        indices proofs :=
  streamed_tree (fun a b => 2 * a + 3 * b) (· + 1) (List.cons_ne_nil 10 [20, 30, 40, 50]) (by decide)
    (by simp : ∀ k ∈ ([1, 4] : List UInt32), k.toNat < [10, 20, 30, 40, 50].length)

end Builder

end

end RainbowBridge.EthashProof
