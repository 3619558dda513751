import Mathlib.Data.List.Induction
import Mathlib.Data.Set.Function
import Mathlib.Data.Nat.Log
import Mathlib.Tactic.Ring

/-! Binary trees over a sequence of leaves whose length need not be a power of two:
where there is no leaf for a right half, the left half stands in its place once
more. The bits of an index are the sides on the way from the leaf to the root. -/

namespace RainbowBridge.Lib

section

variable {α : Type} (join : α → α → α) (leaf : Nat → α) (count : Nat)

/-- Where the right half begins that goes with the half from `start` on. -/
def rightStart (level start : Nat) : Nat :=
  if start + 2 ^ level < count then start + 2 ^ level else start

/-- The root over the `2 ^ level` places from `start` on. -/
def paddedRoot : Nat → Nat → α
  | 0, start => leaf start
  | level + 1, start => join (paddedRoot level start) (paddedRoot level (rightStart count level start))

/-- What stands beside the node of a level that is above a leaf. -/
def paddedSibling (index level : Nat) : α :=
  let start := index / 2 ^ level * 2 ^ level
  if index / 2 ^ level % 2 = 0 then paddedRoot join leaf count level (rightStart count level start)
  else paddedRoot join leaf count level (start - 2 ^ level)

def paddedPath (index levels : Nat) : List α :=
  (List.range levels).map (paddedSibling join leaf count index)

/-- The node at the end of a path from the bottom. -/
def climbIndex (index : Nat) (bottom : α) (path : List α) : α :=
  path.zipIdx.foldl (fun node (sibling, level) =>
    if (index >>> level) % 2 = 0 then join node sibling else join sibling node) bottom

end

section

variable {α : Type} {join : α → α → α} {leaf : Nat → α} {count : Nat}

@[simp] theorem length_paddedPath (index levels : Nat) :
    (paddedPath join leaf count index levels).length = levels := by
  simp [paddedPath]

theorem climbIndex_append (index : Nat) (bottom : α) (path : List α) (last : α) :
    climbIndex join index bottom (path ++ [last]) =
      if index / 2 ^ path.length % 2 = 0 then join (climbIndex join index bottom path) last
      else join last (climbIndex join index bottom path) := by
  simp [climbIndex, List.zipIdx_append, Nat.shiftRight_eq_div_pow]

theorem paddedPath_succ (index levels : Nat) :
    paddedPath join leaf count index (levels + 1) =
      paddedPath join leaf count index levels ++ [paddedSibling join leaf count index levels] := by
  simp [paddedPath, List.range_succ]

/-- The path of a leaf leads from it to the root over it. -/
theorem climbIndex_paddedPath (join : α → α → α) (leaf : Nat → α) {index : Nat} (inside : index < count) (levels : Nat) :
    climbIndex join index (leaf index) (paddedPath join leaf count index levels) =
      paddedRoot join leaf count levels (index / 2 ^ levels * 2 ^ levels) := by
  induction levels with
  | zero => simp [climbIndex, paddedPath, paddedRoot]
  | succ level ih =>
    have low : index / 2 ^ level * 2 ^ level ≤ index := Nat.div_mul_le_self _ _
    have half : index / 2 ^ (level + 1) = index / 2 ^ level / 2 := by
      rw [pow_succ, Nat.div_div_eq_div_mul]
    rw [paddedPath_succ, climbIndex_append, ih, length_paddedPath, paddedRoot, half, pow_succ]
    obtain ⟨b, even | odd⟩ := Nat.even_or_odd' (index / 2 ^ level)
    · rw [even] at low
      have start : 2 * b / 2 * (2 ^ level * 2) = 2 * b * 2 ^ level := by
        rw [Nat.mul_div_cancel_left b (by omega)]
        ring
      simp only [paddedSibling, even, start, Nat.mul_mod_right, if_true]
    · have start : (2 * b + 1) / 2 * (2 ^ level * 2) = (2 * b + 1) * 2 ^ level - 2 ^ level := by
        rw [show (2 * b + 1) / 2 = b by omega, Nat.add_mul, Nat.one_mul, Nat.add_sub_cancel]
        ring
      have right : rightStart count level ((2 * b + 1) * 2 ^ level - 2 ^ level) =
          (2 * b + 1) * 2 ^ level := by
        have back : (2 * b + 1) * 2 ^ level - 2 ^ level + 2 ^ level = (2 * b + 1) * 2 ^ level :=
          Nat.sub_add_cancel (Nat.le_mul_of_pos_left _ (by omega))
        rw [rightStart, back, if_pos (by rw [odd] at low; omega)]
      have bit : (2 * b + 1) % 2 ≠ 0 := by omega
      simp only [paddedSibling, odd, start, right, if_neg bit]

theorem rightStart_le (count level start : Nat) : rightStart count level start ≤ start + 2 ^ level := by
  unfold rightStart
  split
  · exact le_refl _
  · exact Nat.le_add_right _ _

theorem rightStart_shift {offset size part : Nat}
    (agree : ∀ k, k < size → (k < part ↔ offset + k < count)) {level start : Nat}
    (fits : start + 2 ^ level < size) :
    offset + rightStart part level start = rightStart count level (offset + start) := by
  have same := agree (start + 2 ^ level) fits
  rw [← Nat.add_assoc] at same
  unfold rightStart
  split
  case isTrue more => rw [if_pos (same.mp more), Nat.add_assoc]
  case isFalse none => rw [if_neg (fun more => none (same.mpr more))]

/-- A part of the tree is the tree over a part of the leaves. -/
theorem paddedRoot_shift {offset size part : Nat}
    (agree : ∀ k, k < size → (k < part ↔ offset + k < count)) {level start : Nat}
    (fits : start + 2 ^ level ≤ size) :
    paddedRoot join (fun k => leaf (offset + k)) part level start =
      paddedRoot join leaf count level (offset + start) := by
  induction level generalizing start with
  | zero => rfl
  | succ level ih =>
    have positive : 0 < 2 ^ level := Nat.two_pow_pos level
    have below := rightStart_le part level start
    rw [pow_succ] at fits
    rw [paddedRoot, paddedRoot, ih (by omega), ih (by omega), rightStart_shift agree (by omega)]

theorem paddedSibling_shift {offset live part index level : Nat}
    (agree : ∀ k, k < 2 ^ live → (k < part ↔ offset + k < count)) (aligned : 2 ^ live ∣ offset)
    (inside : index < 2 ^ live) (lower : level < live) :
    paddedSibling join (fun k => leaf (offset + k)) part index level =
      paddedSibling join leaf count (offset + index) level := by
  obtain ⟨group, rfl⟩ := aligned
  obtain ⟨gap, rfl⟩ : ∃ gap, live = level + 1 + gap := ⟨live - level - 1, by omega⟩
  have positive : 0 < 2 ^ level := Nat.two_pow_pos level
  have whole : 2 ^ (level + 1 + gap) * group = 2 ^ level * (2 * (2 ^ gap * group)) := by ring
  have node : (2 ^ (level + 1 + gap) * group + index) / 2 ^ level =
      2 * (2 ^ gap * group) + index / 2 ^ level := by
    rw [whole, Nat.mul_add_div positive]
  have start : (2 * (2 ^ gap * group) + index / 2 ^ level) * 2 ^ level =
      2 ^ (level + 1 + gap) * group + index / 2 ^ level * 2 ^ level := by
    rw [whole]
    ring
  have small : index / 2 ^ level < 2 * 2 ^ gap := by
    rw [Nat.div_lt_iff_lt_mul positive]
    exact lt_of_lt_of_eq inside (by ring)
  -- The node above the index and its sibling lie in one block of the next level.
  have fits : (index / 2 ^ level / 2 + 1) * 2 * 2 ^ level ≤ 2 ^ (level + 1 + gap) := by
    calc (index / 2 ^ level / 2 + 1) * 2 * 2 ^ level ≤ 2 * 2 ^ gap * 2 ^ level :=
          Nat.mul_le_mul_right _ (by omega)
      _ = 2 ^ (level + 1 + gap) := by ring
  have parity : (2 * (2 ^ gap * group) + index / 2 ^ level) % 2 = index / 2 ^ level % 2 := by omega
  simp only [paddedSibling, node, start, parity]
  obtain ⟨b, even | odd⟩ := Nat.even_or_odd' (index / 2 ^ level)
  · have block : 2 * b * 2 ^ level + 2 ^ level + 2 ^ level ≤ 2 ^ (level + 1 + gap) := by
      rw [even, show 2 * b / 2 = b by omega] at fits
      exact le_trans (le_of_eq (by ring)) fits
    have below := rightStart_le part level (2 * b * 2 ^ level)
    rw [even, if_pos (by omega), if_pos (by omega), ← rightStart_shift agree (by omega),
      paddedRoot_shift agree (by omega)]
  · have block : 2 * b * 2 ^ level + 2 ^ level + 2 ^ level ≤ 2 ^ (level + 1 + gap) := by
      rw [odd, show (2 * b + 1) / 2 = b by omega] at fits
      exact le_trans (le_of_eq (by ring)) fits
    have back : (2 * b + 1) * 2 ^ level - 2 ^ level = 2 * b * 2 ^ level := by
      rw [Nat.add_mul, Nat.one_mul, Nat.add_sub_cancel]
    have below : 2 ^ level ≤ (2 * b + 1) * 2 ^ level := Nat.le_mul_of_pos_left _ (by omega)
    rw [odd, if_neg (by omega), if_neg (by omega), Nat.add_sub_assoc below, back,
      paddedRoot_shift agree (by omega)]

/-- From a level on, the indices below one node have the same siblings. -/
theorem paddedSibling_congr {first second live level : Nat}
    (same : first / 2 ^ live = second / 2 ^ live) (upper : live ≤ level) :
    paddedSibling join leaf count first level = paddedSibling join leaf count second level := by
  obtain ⟨gap, rfl⟩ := Nat.exists_eq_add_of_le upper
  have node : first / 2 ^ (live + gap) = second / 2 ^ (live + gap) := by
    rw [pow_add, ← Nat.div_div_eq_div_mul, ← Nat.div_div_eq_div_mul, same]
  simp only [paddedSibling, node]

/-- A path is put together from one inside a part of the leaves and the upper path
of any other leaf of that part. -/
theorem paddedPath_glue (join : α → α → α) (leaf : Nat → α) {offset live part index other levels : Nat}
    (agree : ∀ k, k < 2 ^ live → (k < part ↔ offset + k < count)) (aligned : 2 ^ live ∣ offset)
    (inside : index < 2 ^ live) (otherInside : offset ≤ other ∧ other < offset + 2 ^ live)
    (lower : live ≤ levels) :
    paddedPath join (fun k => leaf (offset + k)) part index live ++
        (paddedPath join leaf count other levels).drop live =
      paddedPath join leaf count (offset + index) levels := by
  have positive : 0 < 2 ^ live := Nat.two_pow_pos live
  have group : other / 2 ^ live = (offset + index) / 2 ^ live := by
    obtain ⟨number, rfl⟩ := aligned
    obtain ⟨rest, rfl⟩ := Nat.exists_eq_add_of_le otherInside.1
    rw [Nat.mul_add_div positive, Nat.mul_add_div positive, Nat.div_eq_of_lt (by omega),
      Nat.div_eq_of_lt inside]
  apply List.ext_getElem
  · simp
    omega
  · intro level first second
    simp only [length_paddedPath] at second
    by_cases low : level < live
    · rw [List.getElem_append_left (by simpa using low)]
      simp only [paddedPath, List.getElem_map, List.getElem_range]
      exact paddedSibling_shift agree aligned inside low
    · rw [List.getElem_append_right (by simp; omega)]
      simp only [paddedPath, List.getElem_drop, List.getElem_map, List.getElem_range,
        List.length_map, List.length_range]
      rw [show live + (level - live) = level by omega]
      exact paddedSibling_congr group (by omega)

end

/-! Trees of hashes. The string of a pair is never that of a leaf, so a path that
reaches the root has one step for each level of the tree. -/

section

variable {σ α : Type} (hash : σ → α) (pair : α → α → σ)

/-- The strings that are hashed along a path. -/
def climbIndexStrings (index : Nat) (bottom : α) (path : List α) : Set σ :=
  {string | ∃ level sibling, path[level]? = some sibling ∧
    let node := climbIndex (fun l r => hash (pair l r)) index bottom (path.take level)
    string = if (index >>> level) % 2 = 0 then pair node sibling else pair sibling node}

/-- The strings that are hashed for a tree: of every leaf, and of every two halves. -/
def paddedStrings (leafString : Nat → σ) (count depth : Nat) : Set σ :=
  let root := paddedRoot (fun l r => hash (pair l r)) (fun k => hash (leafString k)) count
  {string | ∃ k < count, string = leafString k} ∪
    {string | ∃ level start, level < depth ∧ 2 ^ (level + 1) ∣ start ∧ start < count ∧
      string = pair (root level start) (root level (rightStart count level start))}

end

section

variable {σ α : Type} {hash : σ → α} {pair : α → α → σ} {leafString : Nat → σ} {count depth : Nat}

theorem climbIndexStrings_append (index : Nat) (bottom : α) (path : List α) (last : α) :
    climbIndexStrings hash pair index bottom path ⊆
      climbIndexStrings hash pair index bottom (path ++ [last]) := by
  rintro string ⟨level, sibling, found, rfl⟩
  have inside : level < path.length := (List.getElem?_eq_some_iff.mp found).1
  refine ⟨level, sibling, ?_, ?_⟩
  · rw [List.getElem?_append_left inside, found]
  · rw [List.take_append_of_le_length (by omega)]

theorem mem_climbIndexStrings_last (index : Nat) (bottom : α) (path : List α) (last : α) :
    (let node := climbIndex (fun l r => hash (pair l r)) index bottom path
      if index / 2 ^ path.length % 2 = 0 then pair node last else pair last node) ∈
        climbIndexStrings hash pair index bottom (path ++ [last]) := by
  refine ⟨path.length, last, by simp, ?_⟩
  simp [Nat.shiftRight_eq_div_pow]

/-- Where hashing has no collision, a path that reaches the root of a tree starts
at the leaf that the index says. -/
theorem climbIndex_sound {strings : Set σ} (free : Set.InjOn hash strings)
    (injective : ∀ {a b c d}, pair a b = pair c d → a = c ∧ b = d)
    (apartLeaf : ∀ {a b k}, pair a b ≠ leafString k) {bottom : σ} (apart : ∀ {a b}, pair a b ≠ bottom)
    (known : bottom ∈ strings) (inTree : paddedStrings hash pair leafString count depth ⊆ strings)
    {index : Nat} {path : List α}
    (inPath : climbIndexStrings hash pair index (hash bottom) path ⊆ strings)
    {level start : Nat} (low : level ≤ depth) (aligned : 2 ^ level ∣ start) (inside : start < count)
    (same : climbIndex (fun l r => hash (pair l r)) index (hash bottom) path =
      paddedRoot (fun l r => hash (pair l r)) (fun k => hash (leafString k)) count level start) :
    path.length = level ∧
      (start + index % 2 ^ level < count → bottom = leafString (start + index % 2 ^ level)) := by
  induction path using List.reverseRecOn generalizing level start with
  | nil =>
    cases level with
    | zero =>
      refine ⟨rfl, fun _ => ?_⟩
      have leaf := inTree (.inl ⟨start, inside, rfl⟩)
      simpa [Nat.mod_one] using free known leaf same
    | succ level =>
      have node := inTree (.inr ⟨level, start, low, aligned, inside, rfl⟩)
      exact absurd (free node known same.symm) apart
  | append_singleton path last ih =>
    have here := inPath (mem_climbIndexStrings_last index (hash bottom) path last)
    have earlier := (climbIndexStrings_append index (hash bottom) path last).trans inPath
    rw [climbIndex_append, ← apply_ite hash] at same
    cases level with
    | zero =>
      have leaf := inTree (.inl ⟨start, inside, rfl⟩)
      have equal := free here leaf same
      simp only at equal
      split at equal
      · exact absurd equal apartLeaf
      · exact absurd equal apartLeaf
    | succ level =>
      have node := inTree (.inr ⟨level, start, low, aligned, inside, rfl⟩)
      have equal := free here node same
      have finer : 2 ^ level ∣ start := (pow_dvd_pow 2 (Nat.le_succ level)).trans aligned
      simp only at equal
      split at equal
      case isTrue zero =>
        -- The path comes from the left half.
        obtain ⟨length, leaf⟩ := ih earlier (by omega) finer inside (injective equal).1
        rw [length] at zero
        have digits : index % 2 ^ (level + 1) = index % 2 ^ level := by
          rw [pow_succ, Nat.mod_mul, zero]
          simp
        rw [digits]
        exact ⟨by simp [length], leaf⟩
      case isFalse one =>
        have reached := (injective equal).2
        unfold rightStart at reached
        split at reached
        case isTrue more =>
          obtain ⟨length, leaf⟩ := ih earlier (by omega) (Nat.dvd_add finer (dvd_refl _)) more reached
          rw [length] at one
          have digits : start + index % 2 ^ (level + 1) = start + 2 ^ level + index % 2 ^ level := by
            rw [pow_succ, Nat.mod_mul, show index / 2 ^ level % 2 = 1 by omega]
            ring
          rw [digits]
          exact ⟨by simp [length], leaf⟩
        case isFalse none =>
          -- The right half is a copy: no index leads there.
          obtain ⟨length, -⟩ := ih earlier (by omega) finer inside reached
          rw [length] at one
          have digits : index % 2 ^ (level + 1) = index % 2 ^ level + 2 ^ level := by
            rw [pow_succ, Nat.mod_mul, show index / 2 ^ level % 2 = 1 by omega, Nat.mul_one]
          refine ⟨by simp [length], ?_⟩
          intro within
          omega

end

end RainbowBridge.Lib
