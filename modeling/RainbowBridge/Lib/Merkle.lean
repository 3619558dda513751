import RainbowBridge.Lib.Bytes
import Mathlib.Data.List.Induction
import Mathlib.Data.Set.Function

/-! Binary hash trees in which leaves and inner nodes share one hash function.
Paths of any length may be tried against such a tree; where hashing has no
collision, a path that reaches the root starts at the root of a subtree, or
dives below a leaf. -/

namespace RainbowBridge.Lib

inductive HashTree (α : Type) where
  | leaf (value : α)
  | node (left right : HashTree α)

/-- A sibling on the way to the root; `true` when it stands on the left. -/
abbrev HashStep := Bool × Bytes32

/-- The string that is hashed for a step. -/
def HashStep.string (step : HashStep) (current : Bytes32) : Bytes :=
  if step.1 then step.2.toList ++ current.toList else current.toList ++ step.2.toList

theorem HashStep.length_string (step : HashStep) (current : Bytes32) :
    (step.string current).length = 64 := by
  unfold HashStep.string
  split <;> simp

section Hash

variable {α : Type} (hash : Bytes → Bytes32) (digest : α → Bytes32)

/-- The hash at the end of a path. -/
def climb (start : Bytes32) : List HashStep → Bytes32
  | [] => start
  | step :: rest => climb (hash (step.string start)) rest

/-- The strings hashed along a path. -/
def climbStrings (start : Bytes32) : List HashStep → List Bytes
  | [] => []
  | step :: rest => step.string start :: climbStrings (hash (step.string start)) rest

namespace HashTree

def root : HashTree α → Bytes32
  | leaf value => digest value
  | node left right => hash (left.root.toList ++ right.root.toList)

/-- The strings hashed by the inner nodes. -/
def strings : HashTree α → List Bytes
  | leaf _ => []
  | node left right =>
    ((left.root hash digest).toList ++ (right.root hash digest).toList) ::
      (left.strings ++ right.strings)

end HashTree

end Hash

namespace HashTree

variable {α : Type}

def leaves : HashTree α → List α
  | leaf value => [value]
  | node left right => left.leaves ++ right.leaves

/-- A subtree, possibly the whole tree. -/
inductive Within : HashTree α → HashTree α → Prop where
  | refl (tree : HashTree α) : Within tree tree
  | left {sub left : HashTree α} (right : HashTree α) (inside : Within sub left) :
    Within sub (node left right)
  | right {sub right : HashTree α} (left : HashTree α) (inside : Within sub right) :
    Within sub (node left right)

end HashTree

variable {α : Type} {hash : Bytes → Bytes32} {digest : α → Bytes32}

theorem climb_append (start : Bytes32) (path : List HashStep) (last : HashStep) :
    climb hash start (path ++ [last]) = hash (last.string (climb hash start path)) := by
  induction path generalizing start with
  | nil => rfl
  | cons step rest ih => exact ih _

theorem climbStrings_append (start : Bytes32) (path : List HashStep) (last : HashStep) :
    climbStrings hash start (path ++ [last]) =
      climbStrings hash start path ++ [last.string (climb hash start path)] := by
  induction path generalizing start with
  | nil => rfl
  | cons step rest ih => simp [climbStrings, climb, ih]

/-- The end of a path is its start or a digest of one of its strings. -/
theorem climb_eq_hash (start : Bytes32) (path : List HashStep) :
    climb hash start path = start ∨
      ∃ string ∈ climbStrings hash start path, climb hash start path = hash string := by
  induction path using List.reverseRecOn with
  | nil => exact .inl rfl
  | append_singleton path last ih =>
    exact .inr ⟨_, by simp [climbStrings_append], climb_append start path last⟩

theorem length_of_mem_climbStrings {start : Bytes32} {path : List HashStep} {string : Bytes}
    (member : string ∈ climbStrings hash start path) : string.length = 64 := by
  induction path generalizing start with
  | nil => simp [climbStrings] at member
  | cons step rest ih =>
    rcases List.mem_cons.mp member with rfl | later
    · exact step.length_string start
    · exact ih later

/-- A path that reaches the root starts at the root of a subtree, or one of the
strings hashed on its way is behind the digest of a leaf. -/
theorem climb_eq_root {strings : Set Bytes} (free : Set.InjOn hash strings) {start : Bytes32}
    (path : List HashStep) (tree : HashTree α)
    (inPath : ∀ string ∈ climbStrings hash start path, string ∈ strings)
    (inTree : ∀ string ∈ tree.strings hash digest, string ∈ strings)
    (same : climb hash start path = tree.root hash digest) :
    (∃ sub : HashTree α, sub.Within tree ∧ start = sub.root hash digest) ∨
      ∃ value ∈ tree.leaves, ∃ string ∈ climbStrings hash start path, digest value = hash string := by
  induction path using List.reverseRecOn generalizing tree with
  | nil => exact .inl ⟨tree, .refl tree, same⟩
  | append_singleton path last ih =>
    have earlier : ∀ string ∈ climbStrings hash start path, string ∈ strings :=
      fun string member => inPath string (by simp [climbStrings_append, member])
    have here : last.string (climb hash start path) ∈ climbStrings hash start (path ++ [last]) := by
      simp [climbStrings_append]
    have more : ∀ string ∈ climbStrings hash start path,
        string ∈ climbStrings hash start (path ++ [last]) :=
      fun string member => by simp [climbStrings_append, member]
    rw [climb_append] at same
    cases tree with
    | leaf value => exact .inr ⟨value, by simp [HashTree.leaves], _, here, same.symm⟩
    | node left right =>
      -- Both strings are 64 bytes, so the step's halves are the children's roots.
      have halves := free (inPath _ here) (inTree _ (by simp [HashTree.strings])) same
      obtain ⟨onLeft, sibling⟩ := last
      cases onLeft with
      | true =>
        obtain ⟨_, reached⟩ := append_fixed_inj halves
        rcases ih right earlier (fun s member => inTree s (by simp [HashTree.strings, member]))
          (toList_injective reached) with ⟨sub, inside, found⟩ | ⟨value, member, string, hashed, below⟩
        · exact .inl ⟨sub, .right left inside, found⟩
        · exact .inr ⟨value, by simp [HashTree.leaves, member], string, more string hashed, below⟩
      | false =>
        obtain ⟨reached, _⟩ := append_fixed_inj halves
        rcases ih left earlier (fun s member => inTree s (by simp [HashTree.strings, member]))
          reached with ⟨sub, inside, found⟩ | ⟨value, member, string, hashed, below⟩
        · exact .inl ⟨sub, .left right inside, found⟩
        · exact .inr ⟨value, by simp [HashTree.leaves, member], string, more string hashed, below⟩

namespace HashTree

theorem Within.trans {first second third : HashTree α} (inner : first.Within second)
    (outer : second.Within third) : first.Within third := by
  induction outer with
  | refl => exact inner
  | left right _ ih => exact .left right ih
  | right left _ ih => exact .right left ih

/-- The left child of a subtree is one. -/
theorem Within.ofLeft {left right tree : HashTree α} (inside : (node left right).Within tree) :
    left.Within tree :=
  (Within.left right (.refl left)).trans inside

theorem Within.mem_leaves {value : α} {tree : HashTree α} (inside : (leaf value).Within tree) :
    value ∈ tree.leaves := by
  induction inside with
  | refl => simp [leaves]
  | left right _ ih => simp [leaves, ih]
  | right left _ ih => simp [leaves, ih]

theorem Within.mem_strings {left right tree : HashTree α} (inside : (node left right).Within tree) :
    (left.root hash digest).toList ++ (right.root hash digest).toList ∈ tree.strings hash digest := by
  induction inside with
  | refl => simp [strings]
  | left right _ ih => simp [strings, ih]
  | right left _ ih => simp [strings, ih]

end HashTree

/-- Where leaves are digests of strings that cannot be those of inner nodes, a
path from such a string starts at a leaf. -/
theorem climb_from_leaf {strings : Set Bytes} (free : Set.InjOn hash strings) {string : Bytes}
    (path : List HashStep) (tree : HashTree α) (preimage : α → Bytes)
    (digests : ∀ value, digest value = hash (preimage value))
    (inPath : ∀ s ∈ climbStrings hash (hash string) path, s ∈ strings)
    (inTree : ∀ s ∈ tree.strings hash digest, s ∈ strings)
    (inLeaves : ∀ value ∈ tree.leaves, preimage value ∈ strings ∧ (preimage value).length ≠ 64)
    (known : string ∈ strings) (unlike : string.length ≠ 64)
    (same : climb hash (hash string) path = tree.root hash digest) :
    ∃ value ∈ tree.leaves, string = preimage value := by
  rcases climb_eq_root free path tree inPath inTree same with
    ⟨sub, inside, found⟩ | ⟨value, member, other, hashed, below⟩
  · cases sub with
    | leaf value =>
      have member := inside.mem_leaves
      exact ⟨value, member, free known (inLeaves value member).1 (found.trans (digests value))⟩
    | node left right =>
      have equal := free known (inTree _ inside.mem_strings) found
      exact absurd (by simp [equal]) unlike
  · rw [digests value] at below
    have equal := free (inLeaves value member).1 (inPath other hashed) below
    exact absurd (equal ▸ length_of_mem_climbStrings hashed) (inLeaves value member).2

/-- Hashing never gives the excluded word, so no path from a digest ends there. -/
theorem climb_ne {strings : Set Bytes} {word : Bytes32} (avoids : ∀ s ∈ strings, hash s ≠ word)
    {string : Bytes} (path : List HashStep) (known : string ∈ strings)
    (inPath : ∀ s ∈ climbStrings hash (hash string) path, s ∈ strings) :
    climb hash (hash string) path ≠ word := by
  rcases climb_eq_hash (hash string) path with same | ⟨other, member, same⟩
  · rw [same]
    exact avoids string known
  · rw [same]
    exact avoids other (inPath other member)

end RainbowBridge.Lib
