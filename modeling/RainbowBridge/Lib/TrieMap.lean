import RainbowBridge.Lib.Trie

/-! The Merkle Patricia trie of a finite map, and the nodes on the path of a key. -/

namespace RainbowBridge.Lib.Trie

/-- Keys with their values. -/
abbrev Entries := List (List Nibble × Bytes)

/-- The entries whose key starts with a nibble, without it. -/
def startingWith (nibble : Nibble) (entries : Entries) : Entries :=
  entries.filterMap fun
    | (first :: rest, value) => if first = nibble then some (rest, value) else none
    | ([], _) => none

/-- The nibble that every key starts with, if there is one. -/
def shared : Entries → Option Nibble
  | (nibble :: rest, value) :: others =>
    if ∀ entry ∈ (nibble :: rest, value) :: others, entry.1.head? = some nibble then some nibble
    else none
  | _ => none

/-- One more nibble in front of the paths of a trie. -/
def under (nibble : Nibble) : Trie → Trie
  | extension path child => extension (nibble :: path) child
  | trie => extension [nibble] trie

/-- The trie of some entries with keys of at most `depth` nibbles. The path of an
extension is the longest prefix that the keys share, nibble by nibble. -/
def ofEntries : Nat → Entries → Trie
  | _, [] => empty
  | _, [(path, value)] => leaf path value
  | 0, _ :: _ :: _ => empty
  | depth + 1, first :: second :: rest =>
    match shared (first :: second :: rest) with
    | some nibble => under nibble (ofEntries depth (startingWith nibble (first :: second :: rest)))
    | none => branch (fun nibble => ofEntries depth (startingWith nibble (first :: second :: rest)))
        (((first :: second :: rest).lookup []).getD [])

theorem find_under (nibble : Nibble) (trie : Trie) (key : List Nibble) :
    (under nibble trie).find key =
      match key with
      | [] => none
      | first :: rest => if first = nibble then trie.find rest else none := by
  have single : ∀ child : Trie, (extension [nibble] child).find key =
      match key with
      | [] => none
      | first :: rest => if first = nibble then child.find rest else none := by
    intro child
    cases key with
    | nil => simp [find]
    | cons first rest => simp [find, eq_comm]
  cases trie with
  | extension path child =>
    cases key with
    | nil => simp [under, find]
    | cons first rest =>
      by_cases same : first = nibble
      · subst same
        simp [under, find]
      · have other : nibble ≠ first := Ne.symm same
        simp [under, find, same, other]
  | empty => exact single _
  | leaf path value => exact single _
  | branch children value => exact single _

theorem lookup_cons_eq (path : List Nibble) (value : Bytes) (others : Entries) (key : List Nibble) :
    ((path, value) :: others : Entries).lookup key =
      if key = path then some value else others.lookup key := by
  rw [List.lookup_cons]
  by_cases same : key = path
  · simp [same]
  · simp [same, beq_eq_false_iff_ne.mpr same]

theorem startingWith_cons (nibble : Nibble) (path : List Nibble) (value : Bytes) (others : Entries) :
    startingWith nibble ((path, value) :: others) =
      match path with
      | first :: rest =>
        if first = nibble then (rest, value) :: startingWith nibble others
        else startingWith nibble others
      | [] => startingWith nibble others := by
  cases path with
  | nil => rfl
  | cons first rest => by_cases same : first = nibble <;> simp [startingWith, same]

theorem lookup_startingWith (nibble : Nibble) (rest : List Nibble) (entries : Entries) :
    (startingWith nibble entries).lookup rest = entries.lookup (nibble :: rest) := by
  induction entries with
  | nil => rfl
  | cons entry others ih =>
    obtain ⟨path, value⟩ := entry
    rw [startingWith_cons, lookup_cons_eq]
    cases path with
    | nil => simpa using ih
    | cons first tail =>
      by_cases same : first = nibble
      · simp [same, lookup_cons_eq, ih]
      · simp [same, Ne.symm same, ih]

theorem mem_startingWith {nibble : Nibble} {entries : Entries} {rest : List Nibble} {value : Bytes} :
    (rest, value) ∈ startingWith nibble entries ↔ (nibble :: rest, value) ∈ entries := by
  induction entries with
  | nil => simp [startingWith]
  | cons entry others ih =>
    obtain ⟨path, own⟩ := entry
    rw [startingWith_cons]
    cases path with
    | nil => simp [ih]
    | cons first tail =>
      by_cases same : first = nibble
      · simp [same, ih]
      · simp [same, Ne.symm same, ih]

theorem startingWith_distinct {nibble : Nibble} {entries : Entries}
    (distinct : (entries.map Prod.fst).Nodup) :
    ((startingWith nibble entries).map Prod.fst).Nodup := by
  induction entries with
  | nil => simp [startingWith]
  | cons entry others ih =>
    obtain ⟨path, own⟩ := entry
    obtain ⟨fresh, later⟩ := List.nodup_cons.mp distinct
    rw [startingWith_cons]
    cases path with
    | nil => exact ih later
    | cons first tail =>
      by_cases same : first = nibble
      · subst same
        simp only [if_true, List.map_cons, List.nodup_cons]
        refine ⟨fun member => fresh ?_, ih later⟩
        obtain ⟨⟨_, value⟩, found, rfl⟩ := List.mem_map.mp member
        exact List.mem_map.mpr ⟨_, mem_startingWith.mp found, rfl⟩
      · simpa [same] using ih later

theorem shared_eq_some {entries : Entries} {nibble : Nibble} (same : shared entries = some nibble) :
    ∀ entry ∈ entries, entry.1.head? = some nibble := by
  unfold shared at same
  split at same
  · split at same
    · cases same
      assumption
    · cases same
  · cases same

theorem lookup_of_shared {entries : Entries} {nibble : Nibble}
    (same : ∀ entry ∈ entries, entry.1.head? = some nibble) {key : List Nibble}
    (other : key.head? ≠ some nibble) : entries.lookup key = none := by
  rw [List.lookup_eq_none_iff]
  intro entry member
  rw [bne_iff_ne]
  rintro rfl
  exact other (same entry member)

/-- Entries that a trie can be made of: no key twice, no empty value. -/
structure Proper (depth : Nat) (entries : Entries) : Prop where
  short : ∀ entry ∈ entries, entry.1.length ≤ depth
  distinct : (entries.map Prod.fst).Nodup
  filled : ∀ entry ∈ entries, entry.2 ≠ []

theorem Proper.startingWith {depth : Nat} {entries : Entries} (proper : Proper (depth + 1) entries)
    (nibble : Nibble) : Proper depth (startingWith nibble entries) where
  short := by
    rintro ⟨rest, value⟩ member
    simpa using proper.short _ (mem_startingWith.mp member)
  distinct := startingWith_distinct proper.distinct
  filled := by
    rintro ⟨rest, value⟩ member
    exact proper.filled (nibble :: rest, value) (mem_startingWith.mp member)

theorem mem_of_lookup {entries : Entries} {key : List Nibble} {value : Bytes}
    (found : entries.lookup key = some value) : (key, value) ∈ entries := by
  induction entries with
  | nil => cases found
  | cons entry others ih =>
    obtain ⟨path, own⟩ := entry
    rw [lookup_cons_eq] at found
    split at found
    · cases found
      simp [*]
    · exact List.mem_cons_of_mem _ (ih found)

/-- A trie stores exactly the entries it was made from. -/
theorem find_ofEntries {depth : Nat} {entries : Entries} (proper : Proper depth entries)
    (key : List Nibble) : (ofEntries depth entries).find key = entries.lookup key := by
  fun_induction ofEntries depth entries generalizing key with
  | case1 depth => rfl
  | case2 depth path value => simp [find, lookup_cons_eq]
  | case3 first second rest =>
    -- two keys without nibbles would be the same
    have one := List.eq_nil_of_length_eq_zero (Nat.le_zero.mp (proper.short first (by simp)))
    have two := List.eq_nil_of_length_eq_zero (Nat.le_zero.mp (proper.short second (by simp)))
    have distinct := proper.distinct
    simp [one, two] at distinct
  | case4 depth first second rest nibble same ih =>
    have heads := shared_eq_some same
    rw [find_under]
    cases key with
    | nil => exact (lookup_of_shared heads (by simp)).symm
    | cons head tail =>
      by_cases equal : head = nibble
      · simp only [equal, if_true]
        rw [ih (proper.startingWith nibble), lookup_startingWith]
      · simp only [equal, if_false]
        exact (lookup_of_shared heads (by simpa using equal)).symm
  | case5 depth first second rest different ih =>
    cases key with
    | nil =>
      cases own : (first :: second :: rest : Entries).lookup [] with
      | none => simp [find]
      | some value =>
        have filled := proper.filled _ (mem_of_lookup own)
        simpa [find] using filled
    | cons nibble tail =>
      rw [find, ih nibble (proper.startingWith nibble), lookup_startingWith]

theorem lookup_of_mem {entries : Entries} (distinct : (entries.map Prod.fst).Nodup)
    {key : List Nibble} {value : Bytes} (member : (key, value) ∈ entries) :
    entries.lookup key = some value := by
  induction entries with
  | nil => simp at member
  | cons entry others ih =>
    obtain ⟨path, own⟩ := entry
    obtain ⟨fresh, later⟩ := List.nodup_cons.mp distinct
    rw [lookup_cons_eq]
    rcases List.mem_cons.mp member with here | there
    · cases here
      simp
    · have other : key ≠ path := by
        rintro rfl
        exact fresh (List.mem_map.mpr ⟨_, there, rfl⟩)
      rw [if_neg other, ih later there]

/-- A finite map from byte strings to byte strings that are not empty. -/
structure ByteMap where
  entries : List (Bytes × Bytes)
  distinct : (entries.map Prod.fst).Nodup
  filled : ∀ entry ∈ entries, entry.2 ≠ []

/-- The longest key of some entries. -/
def longest : Entries → Nat
  | [] => 0
  | (path, _) :: others => max path.length (longest others)

theorem length_le_longest {entries : Entries} {entry : List Nibble × Bytes} (member : entry ∈ entries) :
    entry.1.length ≤ longest entries := by
  induction entries with
  | nil => simp at member
  | cons first others ih =>
    rcases List.mem_cons.mp member with rfl | there
    · exact Nat.le_max_left _ _
    · exact Nat.le_trans (ih there) (Nat.le_max_right _ _)

/-- The entries of a map by the nibbles of their keys. -/
def ByteMap.paths (map : ByteMap) : Entries := map.entries.map fun entry => (nibbles entry.1, entry.2)

/-- The trie of a finite map. -/
def ofMap (map : ByteMap) : Trie := ofEntries (longest map.paths) map.paths

theorem ByteMap.proper (map : ByteMap) : Proper (longest map.paths) map.paths where
  short := fun _ member => length_le_longest member
  distinct := by
    have keys : map.paths.map Prod.fst = (map.entries.map Prod.fst).map nibbles := by
      simp [ByteMap.paths]
    rw [keys]
    exact map.distinct.map nibbles_injective
  filled := by
    intro entry member
    obtain ⟨own, found, rfl⟩ := List.mem_map.mp member
    exact map.filled own found

theorem find_ofMap (map : ByteMap) {key value : Bytes} (member : (key, value) ∈ map.entries) :
    (ofMap map).find (nibbles key) = some value := by
  rw [ofMap, find_ofEntries map.proper]
  exact lookup_of_mem map.proper.distinct (List.mem_map.mpr ⟨_, member, rfl⟩)

/-- The nodes on the path of a key, from the root down. -/
def pathNodes : Trie → List Nibble → List Trie
  | empty, _ => []
  | leaf path value, _ => [leaf path value]
  | extension path child, key => extension path child :: child.pathNodes (key.drop path.length)
  | branch children value, [] => [branch children value]
  | branch children value, nibble :: rest =>
    branch children value :: (children nibble).pathNodes rest

/-- Whether no node on the path of a key stands inside its parent. -/
def Hashed (hash : Bytes → Bytes32) (trie : Trie) (key : List Nibble) : Prop :=
  ∀ node ∈ (trie.pathNodes key).tail, 32 ≤ (node.encode hash).length

theorem ne_empty_of_find {trie : Trie} {key : List Nibble} {value : Bytes}
    (found : trie.find key = some value) : trie ≠ empty := by
  rintro rfl
  cases found

theorem forall_pathNodes {trie : Trie} (filled : trie ≠ empty) (key : List Nibble)
    (property : Trie → Prop) :
    (∀ node ∈ trie.pathNodes key, property node) ↔
      property trie ∧ ∀ node ∈ (trie.pathNodes key).tail, property node := by
  cases trie with
  | empty => exact absurd rfl filled
  | leaf path value => simp [pathNodes]
  | extension path child => simp [pathNodes]
  | branch children value => cases key <;> simp [pathNodes]

theorem hashed_extension {hash : Bytes → Bytes32} {path key : List Nibble} {child : Trie}
    (filled : child ≠ empty) : (extension path child).Hashed hash key ↔
      32 ≤ (child.encode hash).length ∧ child.Hashed hash (key.drop path.length) :=
  forall_pathNodes filled _ _

theorem hashed_branch {hash : Bytes → Bytes32} {children : Nibble → Trie} {own : Bytes}
    {nibble : Nibble} {rest : List Nibble} (filled : children nibble ≠ empty) :
    (branch children own).Hashed hash (nibble :: rest) ↔
      32 ≤ ((children nibble).encode hash).length ∧ (children nibble).Hashed hash rest :=
  forall_pathNodes filled _ _

/-- `Encodable` as a test. -/
def encodable (hash : Bytes → Bytes32) : Trie → Bool
  | empty => true
  | leaf path value => ((leaf path value).encode hash).length < 2 ^ 64
  | extension path child =>
    ((extension path child).encode hash).length < 2 ^ 64 && child.encodable hash
  | branch children value =>
    ((branch children value).encode hash).length < 2 ^ 64 &&
      (List.finRange 16).all fun nibble => (children nibble).encodable hash

theorem encodable_sound {hash : Bytes → Bytes32} {trie : Trie} (checked : trie.encodable hash = true) :
    trie.Encodable hash := by
  rintro string ⟨sub, inside, rfl⟩
  induction inside with
  | refl =>
    cases sub with
    | empty => simp [encode, item, Rlp.Item.encode, Rlp.encodeBytes, Rlp.header]
    | leaf path value => simpa [encodable] using checked
    | extension path child =>
      simp only [encodable, Bool.and_eq_true, decide_eq_true_eq] at checked
      exact checked.1
    | branch children value =>
      simp only [encodable, Bool.and_eq_true, decide_eq_true_eq] at checked
      exact checked.1
  | extension path inside ih =>
    simp only [encodable, Bool.and_eq_true] at checked
    exact ih checked.2
  | branch nibble value inside ih =>
    simp only [encodable, Bool.and_eq_true, List.all_eq_true] at checked
    exact ih (checked.2 nibble (List.mem_finRange nibble))

end RainbowBridge.Lib.Trie
