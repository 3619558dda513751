import RainbowBridge.Lib.Rlp

/-! The `rlp` crate as the NEAR contracts use it. The crate is a parameter: the
operations below, with what its documentation promises on canonical RLP. The
contracts unwrap every decoding error, so an error is `none`. -/

namespace RainbowBridge.EthTypes

open Lib

structure RlpCrate where
  /-- `Rlp::new(raw).iter()`, each item as its raw bytes. -/
  items : Bytes → List Bytes
  /-- `as_val::<Vec<u8>>()`. -/
  bytes : Bytes → Option Bytes
  /-- `as_val` at one of the fixed hash types. -/
  fixed : (width : Nat) → Bytes → Option (FixedBytes width)
  /-- `as_val` at one of the integer types. -/
  uint : (width : Nat) → Bytes → Option (BitVec width)
  /-- `as_val::<bool>()`. -/
  bool : Bytes → Option Bool
  /-- `rlp::encode` of a byte string or a fixed hash. -/
  encodeBytes : Bytes → Bytes
  /-- `rlp::encode` of an integer. -/
  encodeUint : Nat → Bytes
  Stream : Type
  newStream : Stream
  beginList : Nat → Stream → Stream
  /-- `append(&value)`, given what `rlp::encode` writes for the value. -/
  append : Bytes → Stream → Stream
  out : Stream → Bytes

namespace RlpCrate

/-- `at(index)`. -/
def get (crate : RlpCrate) (raw : Bytes) (index : Nat) : Option Bytes := (crate.items raw)[index]?

def fixedAt (crate : RlpCrate) (width : Nat) (raw : Bytes) (index : Nat) : Option (FixedBytes width) :=
  crate.get raw index >>= crate.fixed width

def uintAt (crate : RlpCrate) (width : Nat) (raw : Bytes) (index : Nat) : Option (BitVec width) :=
  crate.get raw index >>= crate.uint width

def bytesAt (crate : RlpCrate) (raw : Bytes) (index : Nat) : Option Bytes :=
  crate.get raw index >>= crate.bytes

/-- `list_at(index)` with a decoder for the elements. -/
def listAt {α : Type} (crate : RlpCrate) (element : Bytes → Option α) (raw : Bytes) (index : Nat) :
    Option (List α) := do
  let list ← crate.get raw index
  (crate.items list).mapM element

/-- What the crate promises. -/
structure Documented (crate : RlpCrate) : Prop where
  items_list : ∀ content : List Rlp.Item, (Rlp.Item.list content).encode.length < 2 ^ 64 →
    crate.items (Rlp.Item.list content).encode = content.map Rlp.Item.encode
  items_data : ∀ body, (Rlp.Item.data body).encode.length < 2 ^ 64 →
    crate.items (Rlp.Item.data body).encode = []
  items_nil : crate.items [] = []
  bytes_data : ∀ body, (Rlp.Item.data body).encode.length < 2 ^ 64 →
    crate.bytes (Rlp.Item.data body).encode = some body
  bytes_list : ∀ content : List Rlp.Item, (Rlp.Item.list content).encode.length < 2 ^ 64 →
    crate.bytes (Rlp.Item.list content).encode = none
  fixed_data : ∀ (width : Nat) (body : FixedBytes width),
    (Rlp.Item.data body.toList).encode.length < 2 ^ 64 →
    crate.fixed width (Rlp.Item.data body.toList).encode = some body
  uint_data : ∀ (width : Nat) (value : BitVec width), width ≤ 256 →
    crate.uint width (Rlp.encodeUint value.toNat) = some value
  encodeBytes_eq : crate.encodeBytes = Rlp.encodeBytes
  encodeUint_eq : crate.encodeUint = Rlp.encodeUint
  /-- A list of `count` items is finished after that many; the rest follows it. -/
  out_eq : ∀ (count : Nat) (elements : List Bytes), 0 < count → count ≤ elements.length →
    crate.out (elements.foldl (fun stream element => crate.append element stream)
      (crate.beginList count crate.newStream)) =
        Rlp.encodeList (elements.take count).flatten ++ (elements.drop count).flatten

section Documented

variable {crate : RlpCrate} (documented : crate.Documented) {content : List Rlp.Item}
  (fits : (Rlp.Item.list content).encode.length < 2 ^ 64) {index : Nat}

include documented fits

theorem Documented.get {item : Rlp.Item} (found : content[index]? = some item) :
    crate.get (Rlp.Item.list content).encode index = some item.encode := by
  simp [RlpCrate.get, documented.items_list content fits, found]

omit documented in
theorem length_encode_lt {item : Rlp.Item} (found : content[index]? = some item) :
    item.encode.length < 2 ^ 64 := by
  have inside := Rlp.length_encode_le (List.mem_of_getElem? found)
  have whole := Rlp.length_lt_encodeList (Rlp.encodeAll content)
  rw [Rlp.Item.encode] at fits
  omega

theorem Documented.bytesAt {body : Bytes} (found : content[index]? = some (.data body)) :
    crate.bytesAt (Rlp.Item.list content).encode index = some body := by
  rw [RlpCrate.bytesAt, documented.get fits found]
  exact documented.bytes_data body (length_encode_lt fits found)

theorem Documented.fixedAt {width : Nat} {body : FixedBytes width}
    (found : content[index]? = some (.data body.toList)) :
    crate.fixedAt width (Rlp.Item.list content).encode index = some body := by
  rw [RlpCrate.fixedAt, documented.get fits found]
  exact documented.fixed_data width body (length_encode_lt fits found)

theorem Documented.uintAt {width : Nat} {value : BitVec width} (narrow : width ≤ 256)
    (found : content[index]? = some (.data (uintBytes value.toNat))) :
    crate.uintAt width (Rlp.Item.list content).encode index = some value := by
  rw [RlpCrate.uintAt, documented.get fits found, Rlp.Item.encode]
  exact documented.uint_data width value narrow

end Documented

/-- An `RlpStream` with at most one list open: its output, and how many items the
list still waits for with what it has. -/
structure ListStream where
  finished : Bytes
  waiting : Nat
  payload : Bytes

def ListStream.append (element : Bytes) (stream : ListStream) : ListStream :=
  match stream.waiting with
  | 0 => { stream with finished := stream.finished ++ element }
  | 1 => ⟨stream.finished ++ Rlp.encodeList (stream.payload ++ element), 0, []⟩
  | waiting + 2 => { stream with waiting := waiting + 1, payload := stream.payload ++ element }

/-- The canonical reader and writer, as an instance of the crate. -/
def reference : RlpCrate where
  items := Rlp.items
  bytes := Rlp.bytes
  fixed := fun width raw => (Rlp.bytes raw).bind fun body =>
    if same : body.length = width then some ⟨body, same⟩ else none
  uint := fun width raw => (Rlp.bytes raw).bind fun body =>
    if beNat body < 2 ^ width then some (BitVec.ofNat width (beNat body)) else none
  bool := fun raw => (Rlp.bytes raw).bind fun body =>
    if body = [] then some false else if body = [1] then some true else none
  encodeBytes := Rlp.encodeBytes
  encodeUint := Rlp.encodeUint
  Stream := ListStream
  newStream := ⟨[], 0, []⟩
  beginList := fun count stream => { stream with waiting := count, payload := [] }
  append := ListStream.append
  out := ListStream.finished

theorem ListStream.append_finished (elements : List Bytes) (finished payload : Bytes) :
    (elements.foldl (fun stream element => append element stream) ⟨finished, 0, payload⟩).finished =
      finished ++ elements.flatten := by
  induction elements generalizing finished with
  | nil => simp
  | cons element rest ih => exact (ih (finished ++ element)).trans (by simp)

theorem ListStream.append_waiting (elements : List Bytes) (count : Nat) (finished payload : Bytes)
    (enough : count + 1 ≤ elements.length) :
    (elements.foldl (fun stream element => append element stream)
        ⟨finished, count + 1, payload⟩).finished =
      finished ++ Rlp.encodeList (payload ++ (elements.take (count + 1)).flatten) ++
        (elements.drop (count + 1)).flatten := by
  induction elements generalizing count payload with
  | nil => simp at enough
  | cons element rest ih =>
    cases count with
    | zero => exact (append_finished rest _ []).trans (by simp)
    | succ count => exact (ih count (payload ++ element) (by simpa using enough)).trans (by simp)

theorem reference_documented : reference.Documented where
  items_list := fun _ fits => Rlp.items_list fits
  items_data := by
    intro body fits
    simp only [reference, Rlp.items, Rlp.split_data fits]
  items_nil := rfl
  bytes_data := by
    intro body fits
    simp only [reference, Rlp.bytes, Rlp.split_data fits]
  bytes_list := by
    intro content fits
    have read := Rlp.split_encodeList (Nat.lt_trans (Rlp.length_lt_encodeList _) fits) []
    rw [List.append_nil] at read
    simp only [reference, Rlp.bytes, Rlp.Item.encode, read]
  fixed_data := by
    intro width body fits
    simp only [reference, Rlp.bytes, Rlp.split_data fits, Option.bind_some,
      List.Vector.toList_length, dif_pos]
    rfl
  uint_data := by
    intro width value narrow
    have small : value.toNat < 256 ^ 32 :=
      Nat.lt_of_lt_of_le value.isLt (Nat.pow_le_pow_right (by decide) narrow)
    have short := byteLength_le small
    have read := Rlp.split_encodeBytes
      (show (uintBytes value.toNat).length < 2 ^ 64 by simp; omega) []
    rw [List.append_nil] at read
    simp [reference, Rlp.bytes, Rlp.encodeUint, read, beNat_uintBytes, value.isLt]
  encodeBytes_eq := rfl
  encodeUint_eq := rfl
  out_eq := by
    intro count elements positive enough
    obtain ⟨count, rfl⟩ : ∃ less, count = less + 1 := ⟨count - 1, by omega⟩
    have streamed := ListStream.append_waiting elements count [] [] enough
    simpa [reference] using streamed

end RlpCrate

end RainbowBridge.EthTypes
