import RainbowBridge.Lib.PaddedTree

/-! The tree that is built level by level: as long as a level has several nodes, its
last node is duplicated if their number is odd, and every two neighbours are joined.
It is the padded tree over the same leaves. -/

namespace RainbowBridge.Lib

section

variable {α : Type} (join : α → α → α)

/-- Neighbours joined, two by two. -/
def joinPairs : List α → List α
  | left :: right :: rest => join left right :: joinPairs rest
  | _ => []

/-- The last node once more where the number of nodes is odd. -/
def evened (level : List α) : List α :=
  if level.length % 2 = 1 then level ++ level.getLast?.toList else level

def nextLevel (level : List α) : List α := joinPairs join (evened level)

theorem length_joinPairs (level : List α) : (joinPairs join level).length = level.length / 2 := by
  induction level using joinPairs.induct with
  | case1 left right rest ih =>
    simp only [joinPairs, List.length_cons, ih]
    omega
  | case2 level short =>
    match level, short with
    | [], _ => simp [joinPairs]
    | [_], _ => simp [joinPairs]
    | left :: right :: rest, short => exact absurd rfl (short left right rest)

theorem length_evened (level : List α) : (evened level).length = level.length + level.length % 2 := by
  unfold evened
  split
  case isTrue odd =>
    have nonempty : level ≠ [] := by
      rintro rfl
      simp at odd
    rw [List.length_append, List.getLast?_eq_some_getLast nonempty, odd]
    rfl
  case isFalse even => omega

theorem length_nextLevel (level : List α) : (nextLevel join level).length = (level.length + 1) / 2 := by
  rw [nextLevel, length_joinPairs, length_evened]
  omega

/-- The root over the nodes of a level, which an empty level does not have. -/
def levelRoot (level : List α) : Option α :=
  if 1 < level.length then levelRoot (nextLevel join level) else level.head?
termination_by level.length
decreasing_by
  rw [length_nextLevel]
  omega

end

section

variable {α : Type} {join : α → α → α} {leaf : Nat → α} {count : Nat}

theorem getElem?_joinPairs (level : List α) (number : Nat) :
    (joinPairs join level)[number]? = level[2 * number]?.bind fun left =>
      level[2 * number + 1]?.map fun right => join left right := by
  induction level using joinPairs.induct generalizing number with
  | case1 left right rest ih =>
    cases number with
    | zero => simp [joinPairs]
    | succ number =>
      rw [joinPairs, List.getElem?_cons_succ, ih, show 2 * (number + 1) = 2 * number + 1 + 1 by omega]
      simp
  | case2 level short =>
    match level, short with
    | [], _ => simp [joinPairs]
    | [only], _ => cases number <;> simp [joinPairs]
    | left :: right :: rest, short => exact absurd rfl (short left right rest)

/-- Where a level has a node to the right, it is the one that is joined. -/
theorem getElem?_nextLevel (level : List α) (number : Nat) :
    (nextLevel join level)[number]? =
      level[2 * number]?.map fun left => join left (level[2 * number + 1]?.getD left) := by
  rw [nextLevel, getElem?_joinPairs, evened]
  split
  case isFalse even =>
    by_cases inside : 2 * number < level.length
    · rw [List.getElem?_eq_getElem inside, List.getElem?_eq_getElem (show 2 * number + 1 < level.length by omega)]
      rfl
    · rw [List.getElem?_eq_none (by omega)]
      rfl
  case isTrue odd =>
    have nonempty : level ≠ [] := by
      rintro rfl
      simp at odd
    rw [List.getLast?_eq_some_getLast nonempty, Option.toList_some]
    by_cases inside : 2 * number + 1 < level.length
    · rw [List.getElem?_append_left (by omega), List.getElem?_append_left inside,
        List.getElem?_eq_getElem inside, List.getElem?_eq_getElem (show 2 * number < level.length by omega)]
      rfl
    · by_cases last : 2 * number < level.length
      · -- The node is the last one, and joined with its duplicate.
        have position : 2 * number = level.length - 1 := by omega
        rw [List.getElem?_append_left last, List.getElem?_eq_getElem last,
          List.getElem?_append_right (by omega), List.getElem?_eq_none (show level.length ≤ 2 * number + 1 by omega),
          show 2 * number + 1 - level.length = 0 by omega]
        simp [List.getLast_eq_getElem, position]
      · rw [List.getElem?_eq_none (show level.length ≤ 2 * number by omega)]
        have beyond : (level ++ [level.getLast nonempty])[2 * number]? = none :=
          List.getElem?_eq_none (by simp; omega)
        rw [beyond]
        rfl

/-- The nodes of the padded tree on one level. -/
def IsLevel (join : α → α → α) (leaf : Nat → α) (count level : Nat) (nodes : List α) : Prop :=
  ∀ number, nodes[number]? =
    if number * 2 ^ level < count then some (paddedRoot join leaf count level (number * 2 ^ level)) else none

theorem isLevel_leaves {leaves : List α} (each : ∀ k, leaves[k]? = if k < count then some (leaf k) else none) :
    IsLevel join leaf count 0 leaves := by
  intro number
  simpa [paddedRoot] using each number

theorem IsLevel.next {level : Nat} {nodes : List α} (whole : IsLevel join leaf count level nodes) :
    IsLevel join leaf count (level + 1) (nextLevel join nodes) := by
  intro number
  have start : number * 2 ^ (level + 1) = 2 * number * 2 ^ level := by ring
  have right : (2 * number + 1) * 2 ^ level = 2 * number * 2 ^ level + 2 ^ level := by ring
  rw [getElem?_nextLevel, whole, whole, start, right]
  by_cases inside : 2 * number * 2 ^ level < count
  · rw [if_pos inside, if_pos inside, Option.map_some, paddedRoot, rightStart]
    split
    case isTrue more => rfl
    case isFalse last => rfl
  · rw [if_neg inside, if_neg inside, Option.map_none]

theorem IsLevel.several {level : Nat} {nodes : List α} (whole : IsLevel join leaf count level nodes) :
    1 < nodes.length ↔ 2 ^ level < count := by
  have second := whole 1
  rw [Nat.one_mul] at second
  constructor
  · intro more
    by_contra few
    rw [if_neg few, List.getElem?_eq_none_iff] at second
    omega
  · intro more
    rw [if_pos more] at second
    exact (List.getElem?_eq_some_iff.mp second).1

/-- Built level by level, the tree has the padded root. -/
theorem IsLevel.root {level : Nat} {nodes : List α} (whole : IsLevel join leaf count level nodes)
    (nonempty : 0 < count) (low : level ≤ Nat.clog 2 count) :
    levelRoot join nodes = some (paddedRoot join leaf count (Nat.clog 2 count) 0) := by
  induction nodes using levelRoot.induct join generalizing level with
  | case1 nodes several ih =>
    rw [levelRoot, if_pos several]
    exact ih whole.next ((Nat.lt_clog_iff_pow_lt (by omega)).mpr (whole.several.mp several))
  | case2 nodes single =>
    have top : Nat.clog 2 count ≤ level := by
      apply Nat.clog_le_of_le_pow
      have few := whole.several.not.mp single
      omega
    have first := whole 0
    rw [Nat.zero_mul, if_pos nonempty] at first
    rw [levelRoot, if_neg single, List.head?_eq_getElem?, first, Nat.le_antisymm low top]

end

end RainbowBridge.Lib
