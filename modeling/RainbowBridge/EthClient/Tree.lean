import RainbowBridge.EthTypes.Header
import RainbowBridge.Lib.Ancestry

/-! The tree of all headers that the client has ever accepted, from the first
one on. Nothing is ever removed from it. -/

namespace RainbowBridge.EthClient

open Lib EthTypes Relation

/-- A header as a node of the tree. -/
structure Node where
  hash : H256
  parentHash : H256
  number : Nat
deriving DecidableEq

/-- The link from a header to its parent, the header one below with the hash it
names. -/
structure IsParent (accepted : List Node) (child older : Node) : Prop where
  childMem : child ∈ accepted
  olderMem : older ∈ accepted
  hash : older.hash = child.parentHash
  number : child.number = older.number + 1

abbrev Descends (accepted : List Node) : Node → Node → Prop := ReflTransGen (IsParent accepted)

/-- The header with hash `ancestor` is the ancestor at height `n` of the header
with hash `hash`; a header is its own ancestor. -/
def AncestorAt (accepted : List Node) (hash : H256) (n : Nat) (ancestor : H256) : Prop :=
  ∃ child ∈ accepted, ∃ older ∈ accepted, child.hash = hash ∧ older.hash = ancestor ∧
    older.number = n ∧ Descends accepted child older

/-- Hashes name headers, and every header but the first has its parent. -/
structure Tree (first : Node) (accepted : List Node) : Prop where
  root : first ∈ accepted
  unique : ∀ node ∈ accepted, ∀ other ∈ accepted, node.hash = other.hash → node = other
  linked : ∀ node ∈ accepted, node ≠ first → ∃ older, IsParent accepted node older
  above : ∀ node ∈ accepted, first.number ≤ node.number

theorem IsParent.mono {accepted more : List Node} (contained : accepted ⊆ more) {child older : Node}
    (link : IsParent accepted child older) : IsParent more child older :=
  ⟨contained link.childMem, contained link.olderMem, link.hash, link.number⟩

theorem Descends.mono {accepted more : List Node} (contained : accepted ⊆ more) {child older : Node}
    (path : Descends accepted child older) : Descends more child older :=
  ReflTransGen.mono (fun _ _ link => link.mono contained) _ _ path

theorem Descends.number_le {accepted : List Node} {child older : Node}
    (path : Descends accepted child older) : older.number ≤ child.number :=
  height_ancestor_le (fun _ _ link => link.number) path

theorem Descends.mem {accepted : List Node} {child older : Node} (path : Descends accepted child older)
    (member : child ∈ accepted) : older ∈ accepted := by
  rcases path.cases_tail with same | ⟨_, _, link⟩
  · rwa [same]
  · exact link.olderMem

/-- What every link preserves holds of the ancestors. -/
theorem Descends.preserves {accepted : List Node} {holds : Node → Prop}
    (closed : ∀ child ∈ accepted, ∀ older ∈ accepted, older.hash = child.parentHash → holds child →
      holds older)
    {child older : Node} (path : Descends accepted child older) (here : holds child) : holds older := by
  induction path with
  | refl => exact here
  | tail _ link ih => exact closed _ link.childMem _ link.olderMem link.hash ih

namespace Tree

variable {first : Node} {accepted : List Node}

theorem start (first : Node) : Tree first [first] where
  root := by simp
  unique := by
    intro node member other member' _
    rw [List.mem_singleton.mp member, List.mem_singleton.mp member']
  linked := fun node member other => absurd (List.mem_singleton.mp member) other
  above := by
    intro node member
    rw [List.mem_singleton.mp member]

variable (tree : Tree first accepted)

include tree

theorem rightUnique : Relator.RightUnique (IsParent accepted) := by
  intro child older other link link'
  exact tree.unique older link.olderMem other link'.olderMem (link.hash.trans link'.hash.symm)

theorem descends_of_le {child middle older : Node} (path : Descends accepted child middle)
    (path' : Descends accepted child older) (order : older.number ≤ middle.number) :
    Descends accepted middle older :=
  ancestor_of_le (fun _ _ link => link.number) tree.rightUnique path path' order

theorem descends_unique {child older other : Node} (path : Descends accepted child older)
    (path' : Descends accepted child other) (same : older.number = other.number) : older = other :=
  ancestor_unique (fun _ _ link => link.number) tree.rightUnique path path' same

/-- Every header descends from the first one. -/
theorem descends_root {node : Node} (member : node ∈ accepted) : Descends accepted node first := by
  obtain ⟨number, height⟩ : ∃ number, node.number = number := ⟨_, rfl⟩
  induction number generalizing node with
  | zero =>
    by_cases root : node = first
    · rw [root]
    · obtain ⟨older, link⟩ := tree.linked node member root
      have step := link.number
      omega
  | succ number ih =>
    by_cases root : node = first
    · rw [root]
    · obtain ⟨older, link⟩ := tree.linked node member root
      have step := link.number
      exact .head link (ih link.olderMem (by omega))

/-- The first header has no ancestor but itself. -/
theorem descends_first {older : Node} (path : Descends accepted first older) : first = older :=
  ancestor_eq_of_height (fun _ _ link => link.number) path
    (tree.above older (Descends.mem path tree.root))

/-- The ancestors of a header by its node. -/
theorem ancestorAt_iff {node : Node} (member : node ∈ accepted) {n : Nat} {ancestor : H256} :
    AncestorAt accepted node.hash n ancestor ↔
      ∃ older ∈ accepted, older.hash = ancestor ∧ older.number = n ∧ Descends accepted node older := by
  constructor
  · rintro ⟨child, inside, older, inside', named, named', height, path⟩
    obtain rfl := tree.unique child inside node member named
    exact ⟨older, inside', named', height, path⟩
  · rintro ⟨older, inside', named', height, path⟩
    exact ⟨node, member, older, inside', rfl, named', height, path⟩

/-- A new header on top of one in the tree. -/
theorem extend {node older : Node} (parent : older ∈ accepted) (hash : older.hash = node.parentHash)
    (number : node.number = older.number + 1)
    (fresh : ∀ other ∈ accepted, other.hash ≠ node.hash) : Tree first (accepted ++ [node]) := by
  have contained : accepted ⊆ accepted ++ [node] := List.subset_append_left _ _
  refine ⟨contained tree.root, ?_, ?_, ?_⟩
  · intro left member right member' same
    rcases List.mem_append.mp member with old | new <;>
      rcases List.mem_append.mp member' with old' | new'
    · exact tree.unique left old right old' same
    · exact absurd (same.trans (by rw [List.mem_singleton.mp new'])) (fresh left old)
    · exact absurd (same.symm.trans (by rw [List.mem_singleton.mp new])) (fresh right old')
    · rw [List.mem_singleton.mp new, List.mem_singleton.mp new']
  · intro child member other
    rcases List.mem_append.mp member with old | new
    · obtain ⟨parent, link⟩ := tree.linked child old other
      exact ⟨parent, link.mono contained⟩
    · rw [List.mem_singleton.mp new] at member ⊢
      exact ⟨older, member, contained parent, hash, number⟩
  · intro child member
    rcases List.mem_append.mp member with old | new
    · exact tree.above child old
    · have bound := tree.above older parent
      rw [List.mem_singleton.mp new]
      omega

end Tree

end RainbowBridge.EthClient
