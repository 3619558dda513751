import RainbowBridge.Lib.Bytes

/-! Recursive length prefix encoding: the canonical encoding of byte strings and
lists, and a reader that splits the first item off a string. RLP is defined for
strings and payloads shorter than `2 ^ 64` bytes. -/

namespace RainbowBridge.Lib.Rlp

inductive Item where
  | data (body : Bytes)
  | list (items : List Item)

/-- The bytes before a payload: `short` is `0x80` for strings and `0xc0` for
lists. -/
def header (short length : Nat) : Bytes :=
  if length < 56 then [UInt8.ofNat (short + length)]
  else UInt8.ofNat (short + 55 + byteLength length) :: uintBytes length

def encodeBytes (body : Bytes) : Bytes :=
  match body with
  | [byte] => if byte.toNat < 0x80 then [byte] else header 0x80 1 ++ [byte]
  | body => header 0x80 body.length ++ body

/-- A list, given its items encoded one after another. -/
def encodeList (payload : Bytes) : Bytes := header 0xc0 payload.length ++ payload

/-- A number as a string without leading zeros. -/
def encodeUint (value : Nat) : Bytes := encodeBytes (uintBytes value)

mutual

def Item.encode : Item → Bytes
  | .data body => encodeBytes body
  | .list items => encodeList (encodeAll items)

def encodeAll : List Item → Bytes
  | [] => []
  | item :: rest => item.encode ++ encodeAll rest

end

theorem encodeAll_eq (items : List Item) : encodeAll items = items.flatMap Item.encode := by
  induction items with
  | nil => rw [encodeAll]; rfl
  | cons item rest ih => rw [encodeAll, ih, List.flatMap_cons]

/-- A payload of known length, and what follows. -/
def cut (isList : Bool) (length : Nat) (data : Bytes) : Option (Bool × Bytes × Bytes) :=
  if length ≤ data.length then some (isList, data.take length, data.drop length) else none

/-- A payload whose length stands in the next `width` bytes. -/
def cutLong (isList : Bool) (width : Nat) (data : Bytes) : Option (Bool × Bytes × Bytes) :=
  if width ≤ data.length then cut isList (beNat (data.take width)) (data.drop width) else none

/-- The first item of a string: whether it is a list, its payload, and what
follows. -/
def split : Bytes → Option (Bool × Bytes × Bytes)
  | [] => none
  | first :: rest =>
    if first.toNat < 0x80 then some (false, [first], rest)
    else if first.toNat < 0xb8 then cut false (first.toNat - 0x80) rest
    else if first.toNat < 0xc0 then cutLong false (first.toNat - 0xb7) rest
    else if first.toNat < 0xf8 then cut true (first.toNat - 0xc0) rest
    else cutLong true (first.toNat - 0xf7) rest

theorem cut_append (isList : Bool) (body rest : Bytes) :
    cut isList body.length (body ++ rest) = some (isList, body, rest) := by
  simp [cut]

theorem cutLong_append (isList : Bool) (body rest : Bytes) :
    cutLong isList (byteLength body.length) (uintBytes body.length ++ (body ++ rest)) =
      some (isList, body, rest) := by
  have front : (uintBytes body.length ++ (body ++ rest)).take (byteLength body.length) =
      uintBytes body.length := List.take_left' (by simp)
  have back : (uintBytes body.length ++ (body ++ rest)).drop (byteLength body.length) =
      body ++ rest := List.drop_left' (by simp)
  rw [cutLong, if_pos (by simp), front, back, beNat_uintBytes, cut_append]

theorem toNat_ofNat (value : Nat) (small : value < 256) : (UInt8.ofNat value).toNat = value := by
  simp [Nat.mod_eq_of_lt small]

theorem byteLength_le_eight {length : Nat} (fits : length < 2 ^ 64) : byteLength length ≤ 8 :=
  byteLength_le (by simpa using fits)

theorem split_header_data (body : Bytes) (fits : body.length < 2 ^ 64) (rest : Bytes) :
    split (header 0x80 body.length ++ (body ++ rest)) = some (false, body, rest) := by
  unfold header
  split
  · rename_i small
    have tag := toNat_ofNat (128 + body.length) (by omega)
    simp only [List.singleton_append, Rlp.split, tag]
    rw [if_neg (by omega), if_pos (by omega), show 128 + body.length - 128 = body.length by omega,
      cut_append]
  · rename_i large
    have positive : 0 < byteLength body.length := byteLength_pos (by omega)
    have bounded := byteLength_le_eight fits
    have tag := toNat_ofNat (128 + 55 + byteLength body.length) (by omega)
    simp only [List.cons_append, Rlp.split, tag]
    rw [if_neg (by omega), if_neg (by omega), if_pos (by omega),
      show 128 + 55 + byteLength body.length - 183 = byteLength body.length by omega, cutLong_append]

/-- The reader takes a canonical string apart, whatever follows. -/
theorem split_encodeBytes {body : Bytes} (fits : body.length < 2 ^ 64) (rest : Bytes) :
    split (encodeBytes body ++ rest) = some (false, body, rest) := by
  unfold encodeBytes
  split
  · rename_i byte
    split
    · rename_i small
      simp [Rlp.split, small]
    · rw [List.append_assoc]
      exact split_header_data [byte] (by simp) rest
  · rw [List.append_assoc]
    exact split_header_data body fits rest

/-- The reader takes a canonical list apart, whatever follows. -/
theorem split_encodeList {payload : Bytes} (fits : payload.length < 2 ^ 64) (rest : Bytes) :
    split (encodeList payload ++ rest) = some (true, payload, rest) := by
  rw [encodeList, List.append_assoc]
  unfold header
  split
  · rename_i small
    have tag := toNat_ofNat (192 + payload.length) (by omega)
    simp only [List.singleton_append, Rlp.split, tag]
    rw [if_neg (by omega), if_neg (by omega), if_neg (by omega), if_pos (by omega),
      show 192 + payload.length - 192 = payload.length by omega, cut_append]
  · rename_i large
    have positive : 0 < byteLength payload.length := byteLength_pos (by omega)
    have bounded := byteLength_le_eight fits
    have tag := toNat_ofNat (192 + 55 + byteLength payload.length) (by omega)
    simp only [List.cons_append, Rlp.split, tag]
    rw [if_neg (by omega), if_neg (by omega), if_neg (by omega), if_neg (by omega),
      show 192 + 55 + byteLength payload.length - 247 = byteLength payload.length by omega,
      cutLong_append]

theorem header_ne_nil (short length : Nat) : header short length ≠ [] := by
  unfold header
  split <;> simp

theorem length_le_encodeBytes (body : Bytes) : body.length ≤ (encodeBytes body).length := by
  unfold encodeBytes
  split
  · split <;> simp
  · simp

theorem encodeBytes_ne_nil (body : Bytes) : encodeBytes body ≠ [] := by
  unfold encodeBytes
  split
  · split <;> simp
  · simp [header_ne_nil]

theorem length_lt_encodeList (payload : Bytes) : payload.length < (encodeList payload).length := by
  have head := List.length_pos_iff.mpr (header_ne_nil 192 payload.length)
  simp only [encodeList, List.length_append]
  omega

theorem Item.encode_ne_nil (item : Item) : item.encode ≠ [] := by
  cases item with
  | data body =>
    rw [Item.encode]
    exact encodeBytes_ne_nil body
  | list items =>
    rw [Item.encode]
    exact List.ne_nil_of_length_pos (Nat.zero_lt_of_lt (length_lt_encodeList _))

/-- An item can be split off its encoding if the encoding is short enough. -/
theorem split_encode {item : Item} (fits : item.encode.length < 2 ^ 64) (rest : Bytes) :
    ∃ isList payload, split (item.encode ++ rest) = some (isList, payload, rest) := by
  cases item with
  | data body =>
    rw [Item.encode] at fits ⊢
    exact ⟨false, body, split_encodeBytes (Nat.lt_of_le_of_lt (length_le_encodeBytes body) fits) rest⟩
  | list items =>
    rw [Item.encode] at fits ⊢
    exact ⟨true, _, split_encodeList (Nat.lt_trans (length_lt_encodeList _) fits) rest⟩

theorem length_encode_le {item : Item} {items : List Item} (member : item ∈ items) :
    item.encode.length ≤ (encodeAll items).length := by
  induction items with
  | nil => simp at member
  | cons first rest ih =>
    rw [encodeAll, List.length_append]
    rcases List.mem_cons.mp member with rfl | later
    · exact Nat.le_add_right _ _
    · exact Nat.le_trans (ih later) (Nat.le_add_left _ _)

theorem length_item_lt {content : List Item} {item : Item} (member : item ∈ content) :
    item.encode.length < (Item.list content).encode.length := by
  rw [Item.encode]
  exact Nat.lt_of_le_of_lt (length_encode_le member) (length_lt_encodeList _)

theorem length_data_lt {content : List Item} {body : Bytes} (member : .data body ∈ content) :
    body.length < (Item.list content).encode.length := by
  have inner := length_item_lt member
  rw [Item.encode] at inner
  exact Nat.lt_of_le_of_lt (length_le_encodeBytes body) inner

theorem encodeAll_append (first second : List Item) :
    encodeAll (first ++ second) = encodeAll first ++ encodeAll second := by
  simp [encodeAll_eq]

/-- The items of a payload as they are encoded there, at most `fuel` of them. -/
def rawItems : Nat → Bytes → List Bytes
  | 0, _ => []
  | fuel + 1, data =>
    match split data with
    | none => []
    | some (_, _, rest) => data.take (data.length - rest.length) :: rawItems fuel rest

theorem rawItems_encodeAll (items : List Item) (fuel : Nat) (enough : items.length ≤ fuel)
    (fits : (encodeAll items).length < 2 ^ 64) :
    rawItems fuel (encodeAll items) = items.map Item.encode := by
  induction items generalizing fuel with
  | nil =>
    rw [encodeAll]
    cases fuel <;> rfl
  | cons item rest ih =>
    rw [encodeAll, List.length_append] at fits
    obtain ⟨fuel, rfl⟩ : ∃ left, fuel = left + 1 := ⟨fuel - 1, by simp at enough; omega⟩
    obtain ⟨isList, payload, read⟩ := split_encode (show item.encode.length < _ by omega) (encodeAll rest)
    have later := ih fuel (by simpa using enough) (by omega)
    rw [encodeAll, rawItems, read]
    simp [later]

theorem length_le_encodeAll (items : List Item) : items.length ≤ (encodeAll items).length := by
  induction items with
  | nil => exact Nat.zero_le _
  | cons item rest ih =>
    have positive := List.length_pos_iff.mpr item.encode_ne_nil
    rw [encodeAll, List.length_append, List.length_cons]
    omega

/-- The items of a list as they are encoded in it; none for a string. -/
def items (raw : Bytes) : List Bytes :=
  match split raw with
  | some (true, payload, _) => rawItems payload.length payload
  | _ => []

theorem items_list {content : List Item} (fits : (Item.list content).encode.length < 2 ^ 64) :
    items (Item.list content).encode = content.map Item.encode := by
  rw [Item.encode] at fits ⊢
  have small := Nat.lt_trans (length_lt_encodeList _) fits
  have read := split_encodeList small []
  rw [List.append_nil] at read
  rw [items, read]
  exact rawItems_encodeAll content _ (length_le_encodeAll content) small

/-- The content of a string, if the input is one. -/
def bytes (raw : Bytes) : Option Bytes :=
  match split raw with
  | some (false, body, _) => some body
  | _ => none

theorem split_data {body : Bytes} (fits : (Item.data body).encode.length < 2 ^ 64) :
    split (Item.data body).encode = some (false, body, []) := by
  rw [Item.encode] at fits ⊢
  have read := split_encodeBytes (Nat.lt_of_le_of_lt (length_le_encodeBytes body) fits) []
  rwa [List.append_nil] at read

theorem encodeUint_inj {first second : Nat} (fits : first < 256 ^ 32) (fits' : second < 256 ^ 32)
    (same : encodeUint first = encodeUint second) : first = second := by
  have short := byteLength_le fits
  have short' := byteLength_le fits'
  have read := split_encodeBytes (show (uintBytes first).length < 2 ^ 64 by simp; omega) []
  have read' := split_encodeBytes (show (uintBytes second).length < 2 ^ 64 by simp; omega) []
  have bodies : uintBytes first = uintBytes second := by
    unfold encodeUint at same
    rw [same, read'] at read
    simpa using read.symm
  rw [← beNat_uintBytes first, bodies, beNat_uintBytes]

/-- A finished list followed by more is not that list with more in it. -/
theorem encodeList_append_ne {payload more : Bytes} (fits : (payload ++ more).length < 2 ^ 64)
    (nonempty : more ≠ []) : encodeList payload ++ more ≠ encodeList (payload ++ more) := by
  intro same
  have first := split_encodeList (show payload.length < 2 ^ 64 by simp at fits; omega) more
  have second := split_encodeList fits []
  rw [List.append_nil, ← same, first] at second
  simp [nonempty] at second

end RainbowBridge.Lib.Rlp
