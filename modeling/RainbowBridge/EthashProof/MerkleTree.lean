import RainbowBridge.Lib.PaddedTree

/-! The Merkle tree of the package `mtree`: a stack of complete subtrees, merged as
soon as the last two are of one size, with a branch for every registered index. -/

namespace RainbowBridge.EthashProof

open Lib

inductive BranchNode (α : Type) where
  | hash (value : α)
  | siblings (left right : BranchNode α) (elementOnTheLeft : Bool)

namespace BranchNode

variable {α : Type}

def toNodeArray : BranchNode α → List α
  | hash value => [value]
  | siblings left right elementOnTheLeft =>
    if elementOnTheLeft then left.toNodeArray ++ right.toNodeArray
    else right.toNodeArray ++ left.toNodeArray

def acceptLeftSibling (branch : BranchNode α) (value : α) : BranchNode α :=
  siblings (hash value) branch false

def acceptRightSibling (branch : BranchNode α) (value : α) : BranchNode α :=
  siblings branch (hash value) true

@[simp] theorem toNodeArray_acceptLeftSibling (branch : BranchNode α) (value : α) :
    (branch.acceptLeftSibling value).toNodeArray = branch.toNodeArray ++ [value] := rfl

@[simp] theorem toNodeArray_acceptRightSibling (branch : BranchNode α) (value : α) :
    (branch.acceptRightSibling value).toNodeArray = branch.toNodeArray ++ [value] := rfl

end BranchNode

structure BranchTree (α β : Type) where
  rawData : β
  hashedData : α
  root : BranchNode α

/-- A subtree on the stack. -/
structure Node (α β : Type) where
  data : α
  nodeCount : Nat
  branches : Nat → Option (BranchTree α β)

/-- The counts of nodes stay below `2 ^ 32`, since there are fewer elements. The
nodes that `exportNodes` collects are not read. -/
structure MerkleTree (α β : Type) where
  h : α → α → α
  eh : β → α
  /-- The stack, the last node first. -/
  mtbuf : List (Node α β)
  finalized : Bool
  indexes : Nat → Bool
  orderedIndexes : List Nat
  storedLevel : Nat

section

variable {α β : Type}

/-- `Copy`, which has no branches. -/
def Node.copy (node : Node α β) : Node α β := { node with branches := fun _ => none }

/-- The last two nodes of one size as a single one. -/
def Node.merge (h : α → α → α) (prev node : Node α β) : Node α β where
  data := h prev.data node.data
  nodeCount := node.nodeCount * 2 + 1
  branches := fun index =>
    match node.branches index with
    | some tree => some { tree with root := tree.root.acceptLeftSibling prev.data }
    | none => (prev.branches index).map fun tree =>
        { tree with root := tree.root.acceptRightSibling node.data }

def insertNode (h : α → α → α) : Node α β → List (Node α β) → List (Node α β)
  | node, [] => [node]
  | node, prev :: rest =>
    if node.nodeCount = prev.nodeCount then insertNode h (prev.merge h node) rest
    else node :: prev :: rest

/-- The loop of `Finalize`, which duplicates the last node until one is left. -/
def duplicateLast (h : α → α → α) : Nat → List (Node α β) → List (Node α β)
  | fuel + 1, last :: rest =>
    let merged := insertNode h last.copy (last :: rest)
    if merged.length = 1 then merged else duplicateLast h fuel merged
  | _, nodes => nodes

namespace MerkleTree

def registerIndex (tree : MerkleTree α β) (indexes : List Nat) : MerkleTree α β :=
  { tree with
    indexes := fun index => tree.indexes index || indexes.contains index
    orderedIndexes := tree.orderedIndexes ++ indexes }

def insert (tree : MerkleTree α β) (data : β) (index : Nat) : MerkleTree α β :=
  let branches := fun other =>
    if other = index ∧ tree.indexes index = true then
      some { rawData := data, hashedData := tree.eh data, root := .hash (tree.eh data) }
    else none
  { tree with mtbuf := insertNode tree.h ⟨tree.eh data, 1, branches⟩ tree.mtbuf }

/-- Each round makes the last subtree larger, so there are no more rounds than nodes. -/
def finalize (tree : MerkleTree α β) : MerkleTree α β :=
  { tree with
    mtbuf :=
      if tree.finalized = false ∧ 1 < tree.mtbuf.length then
        duplicateLast tree.h (tree.mtbuf.map Node.nodeCount).sum tree.mtbuf
      else tree.mtbuf
    finalized := true }

def root (tree : MerkleTree α β) : Option α := do
  guard tree.finalized
  let node ← tree.mtbuf.getLast?
  return node.data

def branches (tree : MerkleTree α β) : Option (Nat → Option (BranchTree α β)) := do
  guard tree.finalized
  let node ← tree.mtbuf.getLast?
  return node.branches

/-- Inserts elements that are read one after the other. -/
def insertFrom (tree : MerkleTree α β) (index : Nat) : List β → MerkleTree α β
  | [] => tree
  | data :: rest => (tree.insert data index).insertFrom (index + 1) rest

end MerkleTree

/-! What is on the stack. -/

variable (h : α → α → α) (eh : β → α) (word : Nat → β) (count : Nat) (registered : Nat → Bool)

/-- A node that stands for the places from `start` on, of which there are `2 ^ level`. -/
structure Node.Spans (node : Node α β) (level start : Nat) : Prop where
  inside : start < count
  aligned : 2 ^ level ∣ start
  data : node.data = paddedRoot h (fun k => eh (word k)) count level start
  nodeCount : node.nodeCount + 1 = 2 ^ (level + 1)
  first : start = 0 → 2 ^ level < 2 * count
  branch : ∀ k, registered k = true → start ≤ k → k < start + 2 ^ level → k < count →
    ∃ tree, node.branches k = some tree ∧ tree.rawData = word k ∧
      tree.root.toNodeArray = eh (word k) :: paddedPath h (fun k => eh (word k)) count k level
  others : ∀ k, ¬ (registered k = true ∧ start ≤ k ∧ k < start + 2 ^ level ∧ k < count) →
    node.branches k = none

/-- A stack whose nodes stand for all places below `stop`, the later ones for fewer. -/
inductive Stack : Nat → Nat → List (Node α β) → Prop
  | nil (least : Nat) : Stack least 0 []
  | cons {least level start : Nat} {node : Node α β} {rest : List (Node α β)} (low : least ≤ level)
    (spans : node.Spans h eh word count registered level start) (below : Stack (level + 1) start rest) :
    Stack least (start + 2 ^ level) (node :: rest)

end

section

variable {α β : Type} {h : α → α → α} {eh : β → α} {word : Nat → β} {count : Nat}
  {registered : Nat → Bool}

theorem mapM_eq_map {f : α → Option β} {g : α → β} {items : List α}
    (each : ∀ item ∈ items, f item = some (g item)) : items.mapM f = some (items.map g) := by
  induction items with
  | nil => rfl
  | cons item rest ih =>
    rw [List.mapM_cons, each item (by simp), ih fun other member => each other (by simp [member])]
    rfl

theorem div_mul_of_aligned {level start k : Nat} (aligned : 2 ^ level ∣ start) (low : start ≤ k)
    (high : k < start + 2 ^ level) : k / 2 ^ level = start / 2 ^ level := by
  obtain ⟨number, rfl⟩ := aligned
  obtain ⟨rest, rfl⟩ := Nat.exists_eq_add_of_le low
  have positive : 0 < 2 ^ level := Nat.two_pow_pos level
  rw [Nat.mul_add_div positive, Nat.div_eq_of_lt (by omega), Nat.mul_div_cancel_left _ positive]
  rfl

/-- The sibling of a node that starts where a pair does. -/
theorem paddedSibling_left {level start k : Nat} (aligned : 2 ^ (level + 1) ∣ start) (low : start ≤ k)
    (high : k < start + 2 ^ level) :
    paddedSibling h (fun k => eh (word k)) count k level =
      paddedRoot h (fun k => eh (word k)) count level (rightStart count level start) := by
  have finer : 2 ^ level ∣ start := (pow_dvd_pow 2 (Nat.le_succ level)).trans aligned
  have even : start / 2 ^ level % 2 = 0 := by
    obtain ⟨number, rfl⟩ := aligned
    rw [pow_succ, Nat.mul_assoc, Nat.mul_div_cancel_left _ (Nat.two_pow_pos level), Nat.mul_mod_right]
  simp only [paddedSibling, div_mul_of_aligned finer low high, even, if_true, Nat.div_mul_cancel finer]

theorem paddedSibling_right {level start k : Nat} (aligned : 2 ^ (level + 1) ∣ start)
    (low : start + 2 ^ level ≤ k) (high : k < start + 2 ^ level + 2 ^ level) :
    paddedSibling h (fun k => eh (word k)) count k level =
      paddedRoot h (fun k => eh (word k)) count level start := by
  have finer : 2 ^ level ∣ start + 2 ^ level :=
    Nat.dvd_add ((pow_dvd_pow 2 (Nat.le_succ level)).trans aligned) (dvd_refl _)
  have odd : ¬ (start + 2 ^ level) / 2 ^ level % 2 = 0 := by
    obtain ⟨number, rfl⟩ := aligned
    rw [Nat.add_div_right _ (Nat.two_pow_pos level), pow_succ, Nat.mul_assoc,
      Nat.mul_div_cancel_left _ (Nat.two_pow_pos level)]
    omega
  simp only [paddedSibling, div_mul_of_aligned finer low high, if_neg odd, Nat.div_mul_cancel finer,
    Nat.add_sub_cancel]

/-- The node of one element. -/
theorem Node.Spans.leaf {index : Nat} (inside : index < count) :
    Node.Spans h eh word count registered
      ⟨eh (word index), 1, fun other =>
        if other = index ∧ registered index = true then
          some { rawData := word index, hashedData := eh (word index), root := .hash (eh (word index)) }
        else none⟩ 0 index := by
  refine ⟨inside, by simp, rfl, rfl, fun _ => by omega, ?_, ?_⟩
  · intro k known low high within
    have same : k = index := by omega
    subst same
    exact ⟨⟨word k, eh (word k), .hash (eh (word k))⟩, by simp [known], rfl, rfl⟩
  · intro k outside
    simp only [ite_eq_right_iff, reduceCtorEq, imp_false, not_and]
    rintro rfl known
    exact outside ⟨known, le_refl k, by omega, inside⟩

theorem Node.Spans.merge {prev node : Node α β} {level start : Nat}
    (left : prev.Spans h eh word count registered level start)
    (right : node.Spans h eh word count registered level (start + 2 ^ level))
    (aligned : 2 ^ (level + 1) ∣ start) :
    (prev.merge h node).Spans h eh word count registered (level + 1) start where
  inside := left.inside
  aligned := aligned
  data := by
    rw [Node.merge, left.data, right.data, paddedRoot, rightStart, if_pos right.inside]
  nodeCount := by
    have counted := right.nodeCount
    change node.nodeCount * 2 + 1 + 1 = _
    rw [pow_succ]
    omega
  first := by
    intro zero
    have := right.inside
    rw [pow_succ]
    omega
  branch := by
    intro k known low high within
    rw [pow_succ] at high
    by_cases side : k < start + 2 ^ level
    · obtain ⟨tree, found, raw, array⟩ := left.branch k known low side within
      have none := right.others k (by omega)
      refine ⟨{ tree with root := tree.root.acceptRightSibling node.data }, ?_, raw, ?_⟩
      · simp [Node.merge, none, found]
      · rw [BranchNode.toNodeArray_acceptRightSibling, array, paddedPath_succ,
          paddedSibling_left aligned low side, right.data, rightStart, if_pos right.inside,
          List.cons_append]
    · obtain ⟨tree, found, raw, array⟩ := right.branch k known (by omega) (by omega) within
      refine ⟨{ tree with root := tree.root.acceptLeftSibling prev.data }, ?_, raw, ?_⟩
      · simp [Node.merge, found]
      · rw [BranchNode.toNodeArray_acceptLeftSibling, array, paddedPath_succ,
          paddedSibling_right aligned (by omega) (by omega), left.data, List.cons_append]
  others := by
    intro k outside
    rw [pow_succ] at outside
    have noLeft : prev.branches k = none := by
      apply left.others
      rintro ⟨known, low, high, within⟩
      exact outside ⟨known, low, by omega, within⟩
    have noRight : node.branches k = none := by
      apply right.others
      rintro ⟨known, low, high, within⟩
      exact outside ⟨known, by omega, by omega, within⟩
    simp [Node.merge, noLeft, noRight]

/-- The last node and its copy, where no element is left for a right half. -/
theorem Node.Spans.merge_copy {last : Node α β} {level start : Nat}
    (spans : last.Spans h eh word count registered level start) (full : count ≤ start + 2 ^ level)
    (aligned : 2 ^ (level + 1) ∣ start) (later : start ≠ 0) :
    (last.merge h last.copy).Spans h eh word count registered (level + 1) start where
  inside := spans.inside
  aligned := aligned
  data := by
    rw [Node.merge, Node.copy, spans.data, paddedRoot, rightStart, if_neg (by omega)]
  nodeCount := by
    have counted := spans.nodeCount
    change last.nodeCount * 2 + 1 + 1 = _
    rw [pow_succ]
    omega
  first := fun zero => absurd zero later
  branch := by
    intro k known low high within
    obtain ⟨tree, found, raw, array⟩ := spans.branch k known low (by omega) within
    refine ⟨{ tree with root := tree.root.acceptRightSibling last.data }, ?_, raw, ?_⟩
    · simp [Node.merge, Node.copy, found]
    · rw [BranchNode.toNodeArray_acceptRightSibling, array, paddedPath_succ,
        paddedSibling_left aligned low (by omega), spans.data, rightStart, if_neg (by omega),
        List.cons_append]
  others := by
    intro k outside
    rw [pow_succ] at outside
    have none : last.branches k = none := by
      apply spans.others
      rintro ⟨known, low, high, within⟩
      exact outside ⟨known, low, by omega, within⟩
    simp [Node.merge, Node.copy, none]

namespace Stack

theorem aligned {least stop : Nat} {nodes : List (Node α β)}
    (stack : Stack h eh word count registered least stop nodes) : 2 ^ least ∣ stop := by
  induction stack with
  | nil => exact dvd_zero _
  | cons low spans below ih =>
    rename_i least level start node rest
    have upper : 2 ^ least ∣ 2 ^ level := pow_dvd_pow 2 low
    exact Nat.dvd_add ((pow_dvd_pow 2 (by omega)).trans ih) upper

/-- A new node is merged like a carry in a binary addition. -/
theorem insertNode {level start : Nat} {node : Node α β} {nodes : List (Node α β)}
    (stack : Stack h eh word count registered level start nodes)
    (spans : node.Spans h eh word count registered level start) :
    Stack h eh word count registered 0 (start + 2 ^ level) (insertNode h node nodes) := by
  induction nodes generalizing node level start with
  | nil =>
    cases stack
    exact .cons (Nat.zero_le _) spans (.nil _)
  | cons prev rest ih =>
    rw [EthashProof.insertNode]
    cases stack with
    | cons low before below =>
      rename_i above start
      split
      case isTrue same =>
        have equal : above = level := by
          have powers : 2 ^ (above + 1) = 2 ^ (level + 1) := by
            rw [← spans.nodeCount, ← before.nodeCount, same]
          have := Nat.pow_right_injective (le_refl 2) powers
          omega
        subst equal
        have merged := ih below (before.merge spans below.aligned)
        rwa [pow_succ, Nat.mul_two, ← Nat.add_assoc] at merged
      case isFalse different =>
        have bigger : level + 1 ≤ above := by
          by_contra none
          have : above = level := by omega
          subst this
          have := spans.nodeCount
          have := before.nodeCount
          omega
        exact .cons (Nat.zero_le _) spans (.cons bigger before below)

theorem stop_pos {least stop : Nat} {nodes : List (Node α β)} (nonempty : nodes ≠ [])
    (stack : Stack h eh word count registered least stop nodes) : 2 ^ least ≤ stop := by
  cases stack with
  | nil => exact absurd rfl nonempty
  | cons low spans below => exact (Nat.pow_le_pow_right (by omega) low).trans (Nat.le_add_left _ _)

theorem stop_le_nodes {least stop : Nat} {nodes : List (Node α β)}
    (stack : Stack h eh word count registered least stop nodes) :
    stop ≤ (nodes.map Node.nodeCount).sum := by
  induction stack with
  | nil => simp
  | cons low spans below ih =>
    rename_i level start node rest
    have counted := spans.nodeCount
    have positive : 0 < 2 ^ level := Nat.two_pow_pos level
    rw [pow_succ] at counted
    simp only [List.map_cons, List.sum_cons]
    omega

/-- One round of `Finalize`. -/
theorem duplicate {stop : Nat} {last prev : Node α β} {rest : List (Node α β)}
    (stack : Stack h eh word count registered 0 stop (last :: prev :: rest)) (full : count ≤ stop) :
    ∃ later, stop < later ∧ stop < 2 * count ∧
      Stack h eh word count registered 0 later
        (EthashProof.insertNode h last.copy (last :: prev :: rest)) := by
  cases stack with
  | cons low spans below =>
    rename_i level start
    have large := below.stop_pos (by simp)
    have within := spans.inside
    have positive : 0 < 2 ^ level := Nat.two_pow_pos level
    rw [pow_succ] at large
    have merged := below.insertNode (spans.merge_copy full below.aligned (by omega))
    refine ⟨start + 2 ^ (level + 1), by rw [pow_succ]; omega, by omega, ?_⟩
    rw [EthashProof.insertNode, if_pos (show last.copy.nodeCount = last.nodeCount from rfl)]
    exact merged

/-- `Finalize` leaves one node. -/
theorem duplicateLast {fuel stop : Nat} {last prev : Node α β} {rest : List (Node α β)}
    (stack : Stack h eh word count registered 0 stop (last :: prev :: rest)) (full : count ≤ stop)
    (enough : 2 * count ≤ fuel + stop) :
    ∃ node later, EthashProof.duplicateLast h fuel (last :: prev :: rest) = [node] ∧ count ≤ later ∧
      Stack h eh word count registered 0 later [node] := by
  induction fuel generalizing stop last prev rest with
  | zero =>
    obtain ⟨later, -, short, -⟩ := stack.duplicate full
    omega
  | succ fuel ih =>
    obtain ⟨later, more, short, merged⟩ := stack.duplicate full
    rw [EthashProof.duplicateLast]
    match nodes : EthashProof.insertNode h last.copy (last :: prev :: rest) with
    | [] =>
      rw [nodes] at merged
      cases merged
      omega
    | [node] =>
      rw [nodes] at merged
      exact ⟨node, later, rfl, by omega, merged⟩
    | node :: other :: others =>
      rw [nodes] at merged
      simp only [List.length_cons]
      rw [if_neg (by omega)]
      exact ih merged (by omega) (by omega)

/-- The node that is left stands for all elements. -/
theorem single {stop : Nat} {node : Node α β}
    (stack : Stack h eh word count registered 0 stop [node]) (full : count ≤ stop) :
    node.Spans h eh word count registered (Nat.clog 2 count) 0 := by
  cases stack with
  | cons low spans below =>
    rename_i level start
    cases below
    have upper := spans.first rfl
    have lower : Nat.clog 2 count ≤ level := Nat.clog_le_of_le_pow (by omega)
    have depth : level = Nat.clog 2 count := by
      by_contra different
      have half : 2 ^ (level - 1) < count := by
        have : 2 ^ level = 2 ^ (level - 1) * 2 := by
          rw [← pow_succ]
          congr 1
          omega
        omega
      have := (Nat.lt_clog_iff_pow_lt (by omega)).mpr half
      omega
    exact depth ▸ spans

end Stack

namespace MerkleTree

/-- What inserting elements leaves as it is. -/
theorem insertFrom_frame (tree : MerkleTree α β) (index : Nat) (elements : List β) :
    (tree.insertFrom index elements).h = tree.h ∧ (tree.insertFrom index elements).eh = tree.eh ∧
      (tree.insertFrom index elements).finalized = tree.finalized ∧
      (tree.insertFrom index elements).indexes = tree.indexes ∧
      (tree.insertFrom index elements).orderedIndexes = tree.orderedIndexes ∧
      (tree.insertFrom index elements).storedLevel = tree.storedLevel := by
  induction elements generalizing tree index with
  | nil => simp [insertFrom]
  | cons data rest ih =>
    obtain ⟨same, others⟩ := ih (tree.insert data index) (index + 1)
    exact ⟨same, others⟩

theorem insert_stack {tree : MerkleTree α β} {index : Nat} (inside : index < count)
    (stack : Stack tree.h tree.eh word count tree.indexes 0 index tree.mtbuf) :
    Stack tree.h tree.eh word count tree.indexes 0 (index + 1) (tree.insert (word index) index).mtbuf :=
  Stack.insertNode (show Stack _ _ _ _ _ 0 index _ from stack) (.leaf inside)

theorem insertFrom_stack (tree : MerkleTree α β) (index : Nat) {elements : List β}
    (words : ∀ k data, elements[k]? = some data → data = word (index + k))
    (inside : index + elements.length ≤ count)
    (stack : Stack tree.h tree.eh word count tree.indexes 0 index tree.mtbuf) :
    Stack tree.h tree.eh word count tree.indexes 0 (index + elements.length)
      (tree.insertFrom index elements).mtbuf := by
  induction elements generalizing tree index with
  | nil => simpa [insertFrom] using stack
  | cons data rest ih =>
    have first : data = word index := words 0 data (by simp)
    subst first
    simp only [List.length_cons] at inside ⊢
    have inserted := insert_stack (by omega) stack
    have later := ih (tree.insert (word index) index) (index + 1)
      (by
        intro k other found
        rw [words (k + 1) other (by simpa using found)]
        congr 1
        omega)
      (by omega) inserted
    rw [insertFrom, show index + (rest.length + 1) = index + 1 + rest.length by omega]
    exact later

/-- The tree that is built from a sequence of elements. -/
theorem finalize_spans (tree : MerkleTree α β) {elements : List β} (empty : tree.mtbuf = [])
    (unfinished : tree.finalized = false) (nonempty : elements ≠ [])
    (words : ∀ k data, elements[k]? = some data → data = word k) :
    ∃ node, (tree.insertFrom 0 elements).finalize.mtbuf = [node] ∧
      node.Spans tree.h tree.eh word elements.length tree.indexes (Nat.clog 2 elements.length) 0 := by
  have stack := insertFrom_stack tree 0 (by simpa using words) (Nat.zero_add _).le
    (by rw [empty]; exact .nil 0)
  have frame := tree.insertFrom_frame 0 elements
  have positive : 0 < elements.length := List.length_pos_iff.mpr nonempty
  rw [Nat.zero_add] at stack
  simp only [finalize, frame.1, frame.2.2.1, unfinished, true_and]
  have nodes := stack.stop_le_nodes
  match buffer : (tree.insertFrom 0 elements).mtbuf with
  | [] =>
    rw [buffer] at stack
    have zero : elements.length = 0 := by
      generalize elements.length = length at stack
      cases stack
      rfl
    omega
  | [node] =>
    rw [buffer] at stack
    exact ⟨node, rfl, stack.single (le_refl _)⟩
  | last :: prev :: rest =>
    rw [buffer] at stack nodes
    obtain ⟨node, later, result, full, single⟩ := stack.duplicateLast (le_refl _)
      (show 2 * elements.length ≤ ((last :: prev :: rest).map Node.nodeCount).sum + elements.length by
        omega)
    rw [if_pos (by simp)]
    exact ⟨node, result, single.single full⟩

end MerkleTree

end

end RainbowBridge.EthashProof
