import RainbowBridge.Lib.Rlp
import Mathlib.Data.List.OfFn

/-! Merkle Patricia tries: leaf, extension and branch nodes as RLP items, with a
child stored inline when its encoding is shorter than 32 bytes and by its hash
otherwise. -/

namespace RainbowBridge.Lib

abbrev Nibble := Fin 16

def Nibble.byte (nibble : Nibble) : UInt8 := UInt8.ofNat nibble

/-- The two halves of each byte, the high one first. -/
def nibbles (bytes : Bytes) : List Nibble :=
  bytes.flatMap fun byte => [⟨byte.toNat / 16, by have := byte.toNat_lt; omega⟩,
    ⟨byte.toNat % 16, Nat.mod_lt _ (by decide)⟩]

/-- Two nibbles to a byte; a last single one is dropped. -/
def packNibbles : List Nibble → Bytes
  | high :: low :: rest => UInt8.ofNat (16 * high.val + low.val) :: packNibbles rest
  | _ => []

/-- The path of a leaf or an extension: a flag and the parity in the first
nibble, and padding after it when the length is even. -/
def hexPrefix (isLeaf : Bool) (path : List Nibble) : Bytes :=
  let flag := if isLeaf then 2 else 0
  if path.length % 2 = 0 then UInt8.ofNat (16 * flag) :: packNibbles path
  else
    match path with
    | [] => []
    | first :: rest => UInt8.ofNat (16 * (flag + 1) + first.val) :: packNibbles rest

inductive Trie where
  | empty
  | leaf (path : List Nibble) (value : Bytes)
  | extension (path : List Nibble) (child : Trie)
  | branch (children : Nibble → Trie) (value : Bytes)

namespace Trie

/-- What a trie stores under a key. The empty string in a branch means no value. -/
def find : Trie → List Nibble → Option Bytes
  | empty, _ => none
  | leaf path value, key => if key = path then some value else none
  | extension path child, key =>
    if path <+: key then child.find (key.drop path.length) else none
  | branch _ value, [] => if value = [] then none else some value
  | branch children _, nibble :: rest => (children nibble).find rest

/-- The path of a key ends at a branch without a value. -/
def endsBare : Trie → List Nibble → Bool
  | empty, _ => false
  | leaf _ _, _ => false
  | extension path child, key => path <+: key && child.endsBare (key.drop path.length)
  | branch _ value, [] => value = []
  | branch children _, nibble :: rest => (children nibble).endsBare rest

/-- What a reader of the node at the end of the path gets: the value, or the
empty string from a branch without one. -/
def Yields (trie : Trie) (key : List Nibble) (value : Bytes) : Prop :=
  trie.find key = some value ∨ value = [] ∧ trie.endsBare key = true

/-- The way to a value, given by the item to follow in each node, with the path
that is read on it. -/
inductive Leads : Trie → List Nat → List Nibble → Bytes → Prop where
  | leaf (path : List Nibble) (value : Bytes) : Leads (leaf path value) [1] path value
  | extension {child : Trie} {way : List Nat} {rest : List Nibble} {value : Bytes}
    (path : List Nibble) (later : Leads child way rest value) :
    Leads (extension path child) (1 :: way) (path ++ rest) value
  | branch {children : Nibble → Trie} {way : List Nat} {rest : List Nibble} {value : Bytes}
    (nibble : Nibble) (own : Bytes) (later : Leads (children nibble) way rest value) :
    Leads (branch children own) (nibble.val :: way) (nibble :: rest) value
  | own (children : Nibble → Trie) (value : Bytes) : Leads (branch children value) [16] [] value

/-- A trie inside another, possibly the whole. -/
inductive Within : Trie → Trie → Prop where
  | refl (trie : Trie) : Within trie trie
  | extension {sub child : Trie} (path : List Nibble) (inside : Within sub child) :
    Within sub (extension path child)
  | branch {sub : Trie} {children : Nibble → Trie} (nibble : Nibble) (value : Bytes)
    (inside : Within sub (children nibble)) : Within sub (branch children value)

section Hash

variable (hash : Bytes → Bytes32)

/-- How a node stands in its parent. -/
def refer (item : Rlp.Item) : Rlp.Item :=
  if item.encode.length < 32 then item else .data (hash item.encode).toList

def item : Trie → Rlp.Item
  | empty => .data []
  | leaf path value => .list [.data (hexPrefix true path), .data value]
  | extension path child => .list [.data (hexPrefix false path), refer hash child.item]
  | branch children value =>
    .list (List.ofFn (fun nibble => refer hash (children nibble).item) ++ [.data value])

/-- The number of items in a node. -/
def arity : Trie → Nat
  | empty => 0
  | leaf _ _ => 2
  | extension _ _ => 2
  | branch _ _ => 17

def encode (trie : Trie) : Bytes := (trie.item hash).encode

def root (trie : Trie) : Bytes32 := hash (trie.encode hash)

/-- The encodings of all nodes. -/
def encodings (trie : Trie) : Set Bytes :=
  { string | ∃ sub : Trie, sub.Within trie ∧ string = sub.encode hash }

/-- Every node has an RLP encoding. -/
def Encodable (trie : Trie) : Prop := ∀ string ∈ trie.encodings hash, string.length < 2 ^ 64

end Hash

theorem Within.encodings {hash : Bytes → Bytes32} {sub trie : Trie} (inside : sub.Within trie) :
    sub.encodings hash ⊆ trie.encodings hash := by
  rintro string ⟨node, deeper, rfl⟩
  refine ⟨node, ?_, rfl⟩
  induction inside with
  | refl => exact deeper
  | extension path _ ih => exact .extension path ih
  | branch nibble value _ ih => exact .branch nibble value ih

theorem encode_mem {hash : Bytes → Bytes32} (trie : Trie) : trie.encode hash ∈ trie.encodings hash :=
  ⟨trie, .refl trie, rfl⟩

theorem encodings_leaf (hash : Bytes → Bytes32) (path : List Nibble) (value : Bytes) :
    (leaf path value).encodings hash = {(leaf path value).encode hash} := by
  ext string
  constructor
  · rintro ⟨node, inside, rfl⟩
    cases inside
    rfl
  · rintro rfl
    exact encode_mem _

theorem Encodable.within {hash : Bytes → Bytes32} {sub trie : Trie} (encodable : trie.Encodable hash)
    (inside : sub.Within trie) : sub.Encodable hash :=
  fun string member => encodable string (inside.encodings member)

theorem getElem_references {hash : Bytes → Bytes32} (children : Nibble → Trie) (value : Bytes)
    (nibble : Nibble) :
    (List.ofFn (fun nibble => refer hash ((children nibble).item hash)) ++
      [Rlp.Item.data value])[nibble.val]? = some (refer hash ((children nibble).item hash)) := by
  rw [List.getElem?_append_left (by simp)]
  simp only [List.getElem?_ofFn, nibble.isLt, dif_pos, Fin.eta]

theorem yields_branch_end (children : Nibble → Trie) (value : Bytes) :
    (branch children value).Yields [] value := by
  by_cases bare : value = []
  · exact .inr ⟨bare, by simp [endsBare, bare]⟩
  · exact .inl (if_neg bare)

theorem Leads.yields {trie : Trie} {way : List Nat} {path : List Nibble} {value : Bytes}
    (leads : trie.Leads way path value) : trie.Yields path value := by
  induction leads with
  | leaf path value => exact .inl (if_pos rfl)
  | extension path later ih =>
    rcases ih with found | ⟨bare, ends⟩
    · exact .inl (by simp [find, found])
    · exact .inr ⟨bare, by simp [endsBare, ends]⟩
  | branch nibble own later ih => exact ih
  | own children value => exact yields_branch_end children value

theorem Leads.way_ne_nil {trie : Trie} {way : List Nat} {path : List Nibble} {value : Bytes}
    (leads : trie.Leads way path value) : way ≠ [] := by
  cases leads <;> simp

/-- A way goes to one value only, along one path. -/
theorem Leads.unique {trie : Trie} {way : List Nat} {path path' : List Nibble} {value value' : Bytes}
    (first : trie.Leads way path value) (second : trie.Leads way path' value') :
    path = path' ∧ value = value' := by
  induction first generalizing path' value' with
  | leaf path value =>
    cases second
    exact ⟨rfl, rfl⟩
  | extension path later ih =>
    cases second with
    | extension path later' =>
      obtain ⟨rfl, rfl⟩ := ih later'
      exact ⟨rfl, rfl⟩
  | @branch children way _ _ nibble own later ih =>
    generalize whole : nibble.val :: way = items at second
    cases second with
    | branch nibble' own later' =>
      obtain ⟨same, rfl⟩ := List.cons.inj whole
      obtain rfl := Fin.ext same
      obtain ⟨rfl, rfl⟩ := ih later'
      exact ⟨rfl, rfl⟩
    | own children value => exact absurd (List.cons.inj whole).2 later.way_ne_nil
  | own children value =>
    generalize whole : [16] = items at second
    cases second with
    | branch nibble own later' => exact absurd (List.cons.inj whole).2.symm later'.way_ne_nil
    | own children value => exact ⟨rfl, rfl⟩

end Trie

theorem Nibble.byte_injective : Function.Injective Nibble.byte := by
  intro first second same
  have values := congrArg UInt8.toNat same
  have small : ∀ nibble : Nibble, nibble.val < 256 := fun nibble => by omega
  simp only [Nibble.byte, Rlp.toNat_ofNat _ (small _)] at values
  exact Fin.ext values

theorem nibbles_bytes (bytes : Bytes) :
    (nibbles bytes).map Nibble.byte = bytes.flatMap fun byte => [byte / 16, byte % 16] := by
  induction bytes with
  | nil => rfl
  | cons byte rest ih =>
    have bound := byte.toNat_lt
    have high : UInt8.ofNat (byte.toNat / 16) = byte / 16 := by
      apply UInt8.toNat.inj
      rw [Rlp.toNat_ofNat _ (by omega)]
      rfl
    have low : UInt8.ofNat (byte.toNat % 16) = byte % 16 := by
      apply UInt8.toNat.inj
      rw [Rlp.toNat_ofNat _ (by omega)]
      rfl
    have head : nibbles (byte :: rest) = nibbles [byte] ++ nibbles rest := by simp [nibbles]
    rw [head, List.map_append, ih]
    simp [nibbles, Nibble.byte, high, low]

theorem nibbles_injective : Function.Injective nibbles := by
  intro first second same
  have halves := congrArg (List.map Nibble.byte) same
  rw [nibbles_bytes, nibbles_bytes] at halves
  clear same
  induction first generalizing second with
  | nil =>
    cases second with
    | nil => rfl
    | cons byte rest => simp at halves
  | cons byte rest ih =>
    cases second with
    | nil => simp at halves
    | cons other later =>
      simp only [List.flatMap_cons, List.cons_append, List.nil_append, List.cons.injEq] at halves
      obtain ⟨high, low, tails⟩ := halves
      have highs := congrArg UInt8.toNat high
      have lows := congrArg UInt8.toNat low
      rw [UInt8.toNat_div, UInt8.toNat_div] at highs
      rw [UInt8.toNat_mod, UInt8.toNat_mod] at lows
      change byte.toNat / 16 = other.toNat / 16 at highs
      change byte.toNat % 16 = other.toNat % 16 at lows
      have values : byte = other := UInt8.toNat.inj (by omega)
      rw [values, ih tails]

theorem nibbles_packNibbles (path : List Nibble) (even : path.length % 2 = 0) :
    nibbles (packNibbles path) = path := by
  induction path using packNibbles.induct with
  | case1 high low rest ih =>
    have later := ih (by simp at even; omega)
    have value := Rlp.toNat_ofNat (16 * high.val + low.val) (by omega)
    have split : nibbles (packNibbles (high :: low :: rest)) =
        nibbles [UInt8.ofNat (16 * high.val + low.val)] ++ nibbles (packNibbles rest) := by
      simp [packNibbles, nibbles]
    rw [split, later]
    simp only [nibbles, List.flatMap_cons, List.flatMap_nil, value]
    have first : (16 * high.val + low.val) / 16 = high := by omega
    have second : (16 * high.val + low.val) % 16 = low := by omega
    simp [first, second]
  | case2 path short =>
    match path with
    | [] => rfl
    | [_] => simp at even
    | first :: second :: rest => exact absurd rfl (short first second rest)

/-- A path can be read back: the flag and the parity from the first byte, then
its low nibble if the length is odd, then the other bytes. -/
theorem hexPrefix_cons (isLeaf : Bool) (path : List Nibble) :
    ∃ first rest, hexPrefix isLeaf path = first :: rest ∧
      first.toNat / 16 = (if isLeaf then 2 else 0) + path.length % 2 ∧
      (if path.length % 2 = 1 then [first % 16] else []) ++ (nibbles rest).map Nibble.byte =
        path.map Nibble.byte := by
  unfold hexPrefix
  have flags : (if isLeaf then 2 else 0) ≤ 2 := by split <;> decide
  generalize (if isLeaf then 2 else 0) = flag at flags ⊢
  rcases Nat.mod_two_eq_zero_or_one path.length with even | odd
  · refine ⟨_, _, if_pos even, ?_, ?_⟩
    · rw [Rlp.toNat_ofNat _ (by omega)]
      omega
    · rw [if_neg (by omega), nibbles_packNibbles path even, List.nil_append]
  · cases path with
    | nil => simp at odd
    | cons first rest =>
      have value := Rlp.toNat_ofNat (16 * (flag + 1) + first.val) (by omega)
      refine ⟨UInt8.ofNat (16 * (flag + 1) + first.val), packNibbles rest, ?_, ?_, ?_⟩
      · rw [if_neg (by omega)]
      · omega
      · have low : UInt8.ofNat (16 * (flag + 1) + first.val) % 16 = first.byte := by
          apply UInt8.toNat.inj
          rw [UInt8.toNat_mod, value, Nibble.byte, Rlp.toNat_ofNat _ (by omega)]
          change (16 * (flag + 1) + first.val) % 16 = first.val
          omega
        rw [if_pos odd, low, nibbles_packNibbles rest (by simp at odd; omega)]
        rfl

end RainbowBridge.Lib
