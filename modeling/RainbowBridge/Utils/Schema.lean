import RainbowBridge.Lib.BufferReader
import RainbowBridge.Utils.Buffers

/-! `borsh.js`: the interpreters of a schema. One writes a value through the package's
`BinaryWriter`, the other reads it back with a reader of its own. Both call
themselves once for each type inside a type, so that a call needs as much of the
stack as its types are nested; a call without stack left throws. -/

namespace RainbowBridge.Utils

open Lib

/-- What a call throws. -/
inductive Thrown where
  /-- `RangeError` of a call without stack left. -/
  | stack
  /-- `RangeError` of a read outside a buffer, or of a value outside its range. -/
  | range
  | type
  | borsh (message : String)
  | error (message : String)

/-- Values of JavaScript as far as a schema speaks of them. A property that an object
does not have is undefined. -/
inductive Value where
  | undefined
  | null
  | bool (value : Bool)
  | number (value : Nat)
  /-- `BN`. -/
  | bn (value : Nat)
  | string (text : String)
  /-- `Uint8Array`. -/
  | bytes (data : Bytes)
  | array (items : List Value)
  | object (property : String → Value)
  deriving Inhabited

namespace Value

def truthy : Value → Bool
  | undefined => false
  | null => false
  | bool value => value
  | number value => value != 0
  | string text => text != ""
  | _ => true

/-- `value[name]`, which throws for what has no properties. -/
def get (name : String) : Value → Except Thrown Value
  | undefined => .error .type
  | null => .error .type
  | object property => .ok (property name)
  | string text => .ok (if name = "length" then .number (codeUnits text) else .undefined)
  | bytes data => .ok (if name = "length" then .number data.length else .undefined)
  | array items => .ok (if name = "length" then .number items.length else .undefined)
  | _ => .ok .undefined

/-- The number that a property is, for a strict comparison with a number. -/
def asNumber : Value → Option Nat
  | number value => some value
  | _ => none

/-- The integer that a number holds exactly, or a `BN`. -/
def integer : Value → Option Nat
  | number value => if value < 2 ^ 53 then some value else none
  | bn value => some value
  | _ => none

end Value

/-- The entries of `fieldType`: a name, or an array of a length or of a type. -/
inductive FieldType where
  | name (text : String)
  | fixed (length : Nat)
  | vector (item : FieldType)
  deriving DecidableEq

def FieldType.text : FieldType → String
  | name text => text
  | fixed length => toString length
  | vector item => item.text

/-- The package's writer and the hexadecimal functions of `web3.utils`. -/
class BorshPackages where
  BinaryWriter : Type
  new : BinaryWriter
  writeU8 : Value → BinaryWriter → Except Thrown BinaryWriter
  writeU64 : Value → BinaryWriter → Except Thrown BinaryWriter
  writeU128 : Value → BinaryWriter → Except Thrown BinaryWriter
  writeString : Value → BinaryWriter → Except Thrown BinaryWriter
  writeFixedArray : Value → BinaryWriter → Except Thrown BinaryWriter
  writeBuffer : Bytes → BinaryWriter → Except Thrown BinaryWriter
  /-- `write_array`, with the function that it calls for each item. -/
  writeArray : Value → (Value → BinaryWriter → Except Thrown BinaryWriter) → BinaryWriter →
    Except Thrown BinaryWriter
  toArray : BinaryWriter → Bytes
  hexToBytes : Value → Except Thrown Bytes
  bytesToHex : Bytes → String

export BorshPackages (BinaryWriter writeU8 writeU64 writeU128 writeString writeFixedArray writeBuffer
  writeArray toArray hexToBytes bytesToHex)

/-- `BinaryReader`: the buffer, and the offset as its state. -/
abbrev Reader (α : Type) := BufferReader Thrown UInt8 α

namespace Reader

def readU8 : Reader UInt8 := do
  let buf ← BufferReader.window 1 .range
  return buf.headD 0

def readU32 : Reader Nat := do
  let buf ← BufferReader.window 4 .range
  return leNat buf

def readBuffer (len : Nat) : Reader Bytes :=
  BufferReader.window len (.borsh s!"Expected buffer length {len} isn't within bounds")

def readU64 : Reader Value := do
  let buf ← readBuffer 8
  return .bn (leNat buf)

def readU128 : Reader Value := do
  let buf ← readBuffer 16
  return .bn (leNat buf)

/-- `TextDecoder` is a class and is called as a function, which throws before anything
is decoded. -/
def readString : Reader Value := do
  let len ← readU32
  let _ ← readBuffer len
  BufferReader.fail .type

def readFixedArray (len : Nat) : Reader Bytes := readBuffer len

def readArray (fn : Reader Value) : Reader Value := do
  let len ← readU32
  let result ← BufferReader.times len fn
  return .array result

end Reader

/-- An entry of a schema. -/
inductive Kind where
  | option (type : FieldType)
  | struct (fields : List (String × FieldType))
  | function (ser : Value → Except Thrown Bytes) (deser : Reader Value)
  | other (kind : String)

/-- `schema[name]`. -/
abbrev Schema := String → Option Kind

def missingType (fieldType : FieldType) : Thrown :=
  .error s!"Schema type {fieldType.text} is missing in schema"

def unexpectedKind (kind : String) (fieldType : FieldType) : Thrown :=
  .error s!"Unexpected schema kind: {kind} for {fieldType.text}"

/-- `result[name] = value`. The name of the prototype makes no property. -/
def assign (property : String → Value) (name : String) (value : Value) : String → Value :=
  if name = "__proto__" then property else Function.update property name value

section Serialize

variable [BorshPackages] (schema : Schema)

/-- What `serializeField` does with a type that the schema names. -/
def serializeNamed (inner : Value → FieldType → BinaryWriter → Except Thrown BinaryWriter) (value : Value)
    (name : String) (writer : BinaryWriter) : Except Thrown BinaryWriter :=
  match schema name with
  | none => .error (missingType (.name name))
  | some (.option type) =>
    match value with
    | .null => writeU8 (.number 0) writer
    | _ => do
      let writer ← writeU8 (.number 1) writer
      inner value type writer
  | some (.struct fields) =>
    fields.foldlM (fun writer field => do inner (← value.get field.1) field.2 writer) writer
  | some (.function ser _) => do writeBuffer (← ser value) writer
  | some (.other kind) => .error (unexpectedKind kind (.name name))

/-- One call of `serializeField`, which calls `inner` where the source calls itself. -/
def serializeStep (inner : Value → FieldType → BinaryWriter → Except Thrown BinaryWriter) (value : Value)
    (fieldType : FieldType) (writer : BinaryWriter) : Except Thrown BinaryWriter :=
  if fieldType = .name "u8" then writeU8 value writer
  else if fieldType = .name "u64" then writeU64 value writer
  else if fieldType = .name "u128" then writeU128 value writer
  else if fieldType = .name "bool" then writeU8 (.number (if value.truthy then 1 else 0)) writer
  else if fieldType = .name "string" then writeString value writer
  else match fieldType with
    | .fixed length => do
      let actual ← value.get "length"
      if actual.asNumber = some length then writeFixedArray value writer
      else
        let got := (actual.asNumber.map toString).getD "undefined"
        .error (.error s!"Expecting byte array of length {length}, but got {got} bytes")
    | .vector item => writeArray value (fun element => inner element item) writer
    | .name type => serializeNamed schema inner value type writer

/-- `serializeField` with a stack for `depth` calls. -/
def serializeField : Nat → Value → FieldType → BinaryWriter → Except Thrown BinaryWriter
  | 0 => fun _ _ _ => .error .stack
  | depth + 1 => serializeStep schema (serializeField depth)

/-- No type is the source's `null`. -/
def serialize (depth : Nat) (fieldType : Option FieldType) (obj : Value) : Except Thrown Bytes :=
  match fieldType with
  | none => .ok []
  | some fieldType => do
    let writer ← serializeField schema depth obj fieldType BorshPackages.new
    return toArray writer

end Serialize

section Deserialize

variable (schema : Schema)

/-- The object that the fields give, one after the other. -/
def readFields (inner : FieldType → Reader Value) (fields : List (String × FieldType)) :
    Reader (String → Value) :=
  fields.foldlM (fun result field => do
    let value ← inner field.2
    return assign result field.1 value) fun _ => .undefined

/-- What `deserializeField` does with a type that the schema names. -/
def deserializeNamed (inner : FieldType → Reader Value) (name : String) : Reader Value :=
  match schema name with
  | none => BufferReader.fail (missingType (.name name))
  | some (.option type) => do
    let optionRes ← Reader.readU8
    if optionRes = 0 then return .null
    else if optionRes = 1 then inner type
    else BufferReader.fail (.error s!"Unexpected option flag: {optionRes}")
  | some (.struct fields) => do return .object (← readFields inner fields)
  | some (.function _ deser) => deser
  | some (.other kind) => BufferReader.fail (unexpectedKind kind (.name name))

/-- One call of `deserializeField`. -/
def deserializeStep (inner : FieldType → Reader Value) (fieldType : FieldType) : Reader Value :=
  if fieldType = .name "u8" then do return .number (← Reader.readU8).toNat
  else if fieldType = .name "u64" then Reader.readU64
  else if fieldType = .name "u128" then Reader.readU128
  else if fieldType = .name "bool" then do return .bool ((← Reader.readU8) != 0)
  else if fieldType = .name "string" then Reader.readString
  else match fieldType with
    | .fixed length => do return .bytes (← Reader.readFixedArray length)
    | .vector item => Reader.readArray (inner item)
    | .name type => deserializeNamed schema inner type

/-- `deserializeField` with a stack for `depth` calls. -/
def deserializeField : Nat → FieldType → Reader Value
  | 0 => fun _ => BufferReader.fail .stack
  | depth + 1 => deserializeStep schema (deserializeField depth)

def deserialize (depth : Nat) (fieldType : Option FieldType) (buffer : Bytes) : Except Thrown Value :=
  match fieldType with
  | none => .ok .null
  | some fieldType => do
    let (result, offset) ← deserializeField schema depth fieldType buffer 0
    if offset < buffer.length then
      .error (.error s!"Unexpected {buffer.length - offset} bytes after deserialized data")
    else return result

end Deserialize

/-- The kinds of `H128`, `H256` and `H512`, with `hexToBuffer` and `readerToHex(len)`. -/
def hashKind [BorshPackages] (len : Nat) : Kind :=
  .function hexToBytes (do return .string (bytesToHex (← Reader.readFixedArray len)))

/-- The schema of the client's contract. The entry for `bool` is never looked up. -/
def borshSchema [BorshPackages] : Schema
  | "bool" => some (.function
      (fun b => hexToBytes (.string (if b.truthy then "0x01" else "0x00")))
      (do return .bool (bytesToHex (← Reader.readFixedArray 1) == "0x01")))
  | "initInput" => some (.struct
      [("validate_ethash", .name "bool"),
        ("dags_start_epoch", .name "u64"),
        ("dags_merkle_roots", .vector (.name "H128")),
        ("first_header", .vector (.name "u8")),
        ("hashes_gc_threshold", .name "u64"),
        ("finalized_gc_threshold", .name "u64"),
        ("num_confirmations", .name "u64"),
        ("trusted_signer", .name "?AccountId")])
  | "dagMerkleRootInput" => some (.struct [("epoch", .name "u64")])
  | "addBlockHeaderInput" => some (.struct
      [("block_header", .vector (.name "u8")),
        ("dag_nodes", .vector (.name "DoubleNodeWithMerkleProof"))])
  | "DoubleNodeWithMerkleProof" => some (.struct
      [("dag_nodes", .vector (.name "H512")), ("proof", .vector (.name "H128"))])
  | "H128" => some (hashKind 16)
  | "H256" => some (hashKind 32)
  | "H512" => some (hashKind 64)
  | "?H256" => some (.option (.name "H256"))
  | "?AccountId" => some (.option (.name "string"))
  | _ => none

end RainbowBridge.Utils
