import RainbowBridge.Lib.TrieMap
import Mathlib.Data.List.Perm.Basic

/-! The trie of some entries does not depend on their order, and a value of 32 bytes or
more is in none of its nodes' parents. -/

namespace RainbowBridge.Lib.Trie

section Order

variable {entries other : Entries}

theorem startingWith_perm (nibble : Nibble) (same : entries.Perm other) :
    (startingWith nibble entries).Perm (startingWith nibble other) :=
  same.filterMap _

/-- The shared nibble of several entries, by membership. -/
theorem shared_eq_iff (nibble : Nibble) (several : entries ≠ []) :
    shared entries = some nibble ↔ ∀ entry ∈ entries, entry.1.head? = some nibble := by
  refine ⟨shared_eq_some, fun heads => ?_⟩
  match entries, several with
  | ([], value) :: others, _ => simp at heads
  | (first :: rest, value) :: others, _ =>
    obtain rfl : first = nibble := by simpa using heads _ List.mem_cons_self
    exact if_pos heads

theorem shared_perm (same : entries.Perm other) : shared entries = shared other := by
  by_cases none : entries = []
  · subst none
    rw [same.nil_eq]
  · have none' : other ≠ [] := fun empty => none (by simpa [empty] using same)
    apply Option.ext
    intro nibble
    rw [shared_eq_iff nibble none, shared_eq_iff nibble none']
    exact forall_congr' fun entry => by rw [same.mem_iff]

theorem lookup_perm (same : entries.Perm other) (distinct : (entries.map Prod.fst).Nodup) (key : List Nibble) :
    entries.lookup key = other.lookup key := by
  have distinct' := (same.map Prod.fst).nodup_iff.mp distinct
  apply Option.ext
  intro value
  constructor
  · exact fun found => lookup_of_mem distinct' (same.mem_iff.mp (mem_of_lookup found))
  · exact fun found => lookup_of_mem distinct (same.mem_iff.mpr (mem_of_lookup found))

theorem exists_cons_cons {first second : List Nibble × Bytes} {rest other : Entries}
    (same : (first :: second :: rest).Perm other) : ∃ first' second' rest', other = first' :: second' :: rest' := by
  match other, same.length_eq with
  | first' :: second' :: rest', _ => exact ⟨first', second', rest', rfl⟩

/-- Entries in another order have the same trie. -/
theorem ofEntries_perm {depth : Nat} (same : entries.Perm other) (distinct : (entries.map Prod.fst).Nodup) :
    ofEntries depth entries = ofEntries depth other := by
  fun_induction ofEntries depth entries generalizing other with
  | case1 depth => rw [← same.nil_eq, ofEntries]
  | case2 depth path value => rw [List.perm_singleton.mp same.symm, ofEntries]
  | case3 first second rest =>
    obtain ⟨first', second', rest', rfl⟩ := exists_cons_cons same
    rfl
  | case4 depth first second rest nibble shares ih =>
    obtain ⟨first', second', rest', rfl⟩ := exists_cons_cons same
    rw [ofEntries, ← shared_perm same, shares]
    exact congrArg (under nibble) (ih (startingWith_perm nibble same) (startingWith_distinct distinct))
  | case5 depth first second rest different ih =>
    obtain ⟨first', second', rest', rfl⟩ := exists_cons_cons same
    rw [ofEntries, ← shared_perm same, different, lookup_perm same distinct]
    congr 1
    funext nibble
    exact ih nibble (startingWith_perm nibble same) (startingWith_distinct distinct)

theorem longest_perm (same : entries.Perm other) : longest entries = longest other := by
  induction same with
  | nil => rfl
  | cons entry _ ih => simp only [longest, ih]
  | swap first second rest => simp only [longest, Nat.max_left_comm]
  | trans _ _ first second => exact first.trans second

end Order

section Long

variable {hash : Bytes → Bytes32}

/-- A parent has the whole hash of a child that is not inside it. -/
theorem length_parent {content : List Rlp.Item} {child : Trie} (long : 32 ≤ (child.encode hash).length)
    (member : refer hash (child.item hash) ∈ content) : 32 ≤ (Rlp.Item.list content).encode.length := by
  have hashed : refer hash (child.item hash) = .data (hash (child.encode hash)).toList :=
    if_neg (Nat.not_lt.mpr long)
  rw [hashed] at member
  have length := Rlp.length_data_lt member
  rw [List.Vector.toList_length] at length
  exact Nat.le_of_lt length

/-- A node over a long value is long. -/
theorem length_encode_of_long {trie : Trie} {key : List Nibble} {value : Bytes}
    (found : trie.find key = some value) (long : 32 ≤ value.length) : 32 ≤ (trie.encode hash).length := by
  induction trie generalizing key with
  | empty => cases found
  | leaf path own =>
    simp only [find] at found
    split at found
    · cases found
      exact Nat.le_trans long (Nat.le_of_lt (Rlp.length_data_lt (by simp)))
    · cases found
  | extension path child ih =>
    simp only [find] at found
    split at found
    · exact length_parent (ih found) (by simp)
    · cases found
  | branch children own ih =>
    cases key with
    | nil =>
      simp only [find] at found
      split at found
      · cases found
      · cases found
        exact Nat.le_trans long (Nat.le_of_lt (Rlp.length_data_lt (by simp)))
    | cons nibble rest =>
      refine length_parent (ih nibble found) ?_
      exact List.mem_of_getElem? (getElem_references children own nibble)

/-- No node on the path of a long value stands inside its parent. -/
theorem hashed_of_long {trie : Trie} {key : List Nibble} {value : Bytes} (found : trie.find key = some value)
    (long : 32 ≤ value.length) : trie.Hashed hash key := by
  induction trie generalizing key with
  | empty => cases found
  | leaf path own => simp [Hashed, pathNodes]
  | extension path child ih =>
    simp only [find] at found
    split at found
    · exact (hashed_extension (ne_empty_of_find found)).mpr ⟨length_encode_of_long found long, ih found⟩
    · cases found
  | branch children own ih =>
    cases key with
    | nil => simp [Hashed, pathNodes]
    | cons nibble rest =>
      have below : (children nibble).find rest = some value := found
      exact (hashed_branch (ne_empty_of_find below)).mpr ⟨length_encode_of_long below long, ih nibble found⟩

/-- A value stands in a node, which is longer. -/
theorem length_of_find {trie : Trie} {key : List Nibble} {value : Bytes} (found : trie.find key = some value) :
    ∃ string ∈ trie.encodings hash, value.length < string.length := by
  induction trie generalizing key with
  | empty => cases found
  | leaf path own =>
    simp only [find] at found
    split at found
    · cases found
      exact ⟨_, encode_mem _, Rlp.length_data_lt (by simp)⟩
    · cases found
  | extension path child ih =>
    simp only [find] at found
    split at found
    · obtain ⟨string, member, shorter⟩ := ih found
      exact ⟨string, (Within.extension path (.refl child)).encodings member, shorter⟩
    · cases found
  | branch children own ih =>
    cases key with
    | nil =>
      simp only [find] at found
      split at found
      · cases found
      · cases found
        exact ⟨_, encode_mem _, Rlp.length_data_lt (by simp)⟩
    | cons nibble rest =>
      obtain ⟨string, member, shorter⟩ := ih nibble found
      exact ⟨string, (Within.branch nibble own (.refl _)).encodings member, shorter⟩

end Long

end RainbowBridge.Lib.Trie
