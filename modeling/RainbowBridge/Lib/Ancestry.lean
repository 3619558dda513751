import Mathlib.Logic.Relation

/-! Ancestors in a tree: a parent relation under which every node has at most
one parent, which stands one below it. -/

namespace RainbowBridge.Lib

open Relation

variable {Node : Type} {parent : Node → Node → Prop} {height : Node → Nat}

section Height

variable (below : ∀ child older, parent child older → height child = height older + 1)

include below

theorem height_ancestor_le {child older : Node} (path : ReflTransGen parent child older) :
    height older ≤ height child := by
  induction path with
  | refl => exact Nat.le_refl _
  | tail _ link ih =>
    have step := below _ _ link
    omega

/-- A node of the same height is no proper ancestor. -/
theorem ancestor_eq_of_height {child older : Node} (path : ReflTransGen parent child older)
    (same : height child ≤ height older) : child = older := by
  rcases path.cases_head with rfl | ⟨middle, link, rest⟩
  · rfl
  · have step := below _ _ link
    have lower := height_ancestor_le below rest
    omega

end Height

/-- Of two ancestors the higher one descends from the lower one. -/
theorem ancestor_of_le (below : ∀ child older, parent child older → height child = height older + 1)
    (single : Relator.RightUnique parent) {child middle older : Node}
    (first : ReflTransGen parent child middle) (second : ReflTransGen parent child older)
    (order : height older ≤ height middle) : ReflTransGen parent middle older := by
  rcases ReflTransGen.total_of_right_unique single first second with down | up
  · exact down
  · rw [ancestor_eq_of_height below up order]

theorem ancestor_unique (below : ∀ child older, parent child older → height child = height older + 1)
    (single : Relator.RightUnique parent) {child older other : Node}
    (first : ReflTransGen parent child older) (second : ReflTransGen parent child other)
    (same : height older = height other) : older = other :=
  ancestor_eq_of_height below (ancestor_of_le below single first second (Nat.le_of_eq same.symm)) (Nat.le_of_eq same)

/-! ### Lineages -/

/-- The nodes from one down to the last above the root, each followed by its
parent. -/
inductive Lineage (parent : Node → Node → Prop) (root : Node) : Node → List Node → Prop
  | root : Lineage parent root root []
  | child {node older : Node} {path : List Node} (link : parent node older)
      (rest : Lineage parent root older path) : Lineage parent root node (node :: path)

theorem Lineage.mono {more : Node → Node → Prop} {root node : Node} {path : List Node}
    (contained : ∀ child older, parent child older → more child older)
    (lineage : Lineage parent root node path) : Lineage more root node path := by
  induction lineage with
  | root => exact .root
  | child link _ ih => exact .child (contained _ _ link) ih

/-- Where parents are unique and the root has none, so is the lineage. -/
theorem Lineage.unique (single : Relator.RightUnique parent) {root : Node}
    (top : ∀ older, ¬ parent root older) {node : Node} {path other : List Node}
    (lineage : Lineage parent root node path) (lineage' : Lineage parent root node other) :
    path = other := by
  induction lineage generalizing other with
  | root =>
    cases lineage' with
    | root => rfl
    | child link _ => exact absurd link (top _)
  | child link _ ih =>
    cases lineage' with
    | root => exact absurd link (top _)
    | child link' rest =>
      obtain rfl := single link link'
      rw [ih rest]

/-- A node from which parents lead down to the root has a lineage. -/
theorem exists_lineage (below : ∀ child older, parent child older → height child = height older + 1)
    {root : Node} {inside : Node → Prop}
    (linked : ∀ node, inside node → node = root ∨ ∃ older, inside older ∧ parent node older)
    {node : Node} (member : inside node) : ∃ path, Lineage parent root node path := by
  obtain ⟨level, same⟩ : ∃ level, height node = level := ⟨_, rfl⟩
  induction level generalizing node with
  | zero =>
    rcases linked node member with rfl | ⟨older, _, link⟩
    · exact ⟨[], .root⟩
    · have step := below node older link
      omega
  | succ level ih =>
    rcases linked node member with rfl | ⟨older, known, link⟩
    · exact ⟨[], .root⟩
    · have step := below node older link
      obtain ⟨path, lineage⟩ := ih known (by omega)
      exact ⟨node :: path, .child link lineage⟩

end RainbowBridge.Lib
