import RainbowBridge.Utils.Schema
import RainbowBridge.Lib.Hex
import Mathlib.Order.Filter.AtTopBot.Basic
import Mathlib.Order.Filter.Finite
import Mathlib.Data.Set.Finite.List

/-! What a schema's writer writes, its reader reads back, unless a string was written:
`readString` calls the class `TextDecoder` as a function. A hash comes back in lower
case. Types may refer to each other, so that the stack that a value needs is found
along its types. -/

namespace RainbowBridge.Utils

open Lib

/-- A call that succeeds and writes `data`. -/
def Appends [BorshPackages] (write : BinaryWriter → Except Thrown BinaryWriter) (data : Bytes) : Prop :=
  ∀ writer, ∃ next, write writer = .ok next ∧ toArray next = toArray writer ++ data

/-- A text of hexadecimal digits after `0x`. -/
def prefixed (digits : List Char) : String := String.ofList ('0' :: 'x' :: digits)

/-- What the packages say of these functions. -/
structure BorshPackages.Documented [BorshPackages] : Prop where
  new : toArray BorshPackages.new = []
  writeU8 : ∀ n, n < 2 ^ 8 → Appends (writeU8 (.number n)) (leBytes 1 n)
  writeU64 : ∀ value n, value.integer = some n → n < 2 ^ 64 → Appends (writeU64 value) (leBytes 8 n)
  writeU128 : ∀ value n, value.integer = some n → n < 2 ^ 128 → Appends (writeU128 value) (leBytes 16 n)
  writeString : ∀ text, (utf8 text).length < 2 ^ 32 →
    Appends (writeString (.string text)) (leBytes 4 (utf8 text).length ++ utf8 text)
  writeFixedArray : ∀ data, Appends (writeFixedArray (.bytes data)) data
  writeBuffer : ∀ data, Appends (writeBuffer data) data
  writeArray : ∀ items each encode, items.length < 2 ^ 32 →
    (∀ item ∈ items, Appends (each item) (encode item)) →
      Appends (writeArray (.array items) each) (leBytes 4 items.length ++ items.flatMap encode)
  /-- Digits of either case are read. -/
  hexToBytes : ∀ digits data, digits.map Char.toLower = hexOf data →
    hexToBytes (.string (prefixed digits)) = .ok data
  bytesToHex : ∀ data, bytesToHex data = prefixed (hexOf data)

/-- The names that are not looked up in a schema. -/
def builtin : List String := ["u8", "u64", "u128", "bool", "string"]

/-- A type that the schema resolves to an option. -/
def IsOption (schema : Schema) (fieldType : FieldType) : Prop :=
  ∃ name inner, fieldType = .name name ∧ name ∉ builtin ∧ schema name = some (.option inner)

/-- Values of a type. An object of a struct has the fields and no other property; the
name of the prototype is no property. -/
inductive WellTyped [BorshPackages] (schema : Schema) : FieldType → Value → Prop
  | u8 {n : Nat} (fits : n < 2 ^ 8) : WellTyped schema (.name "u8") (.number n)
  | u64 {value : Value} {n : Nat} (int : value.integer = some n) (fits : n < 2 ^ 64) :
    WellTyped schema (.name "u64") value
  | u128 {value : Value} {n : Nat} (int : value.integer = some n) (fits : n < 2 ^ 128) :
    WellTyped schema (.name "u128") value
  | bool (value : Bool) : WellTyped schema (.name "bool") (.bool value)
  | string {text : String} (fits : (utf8 text).length < 2 ^ 32) :
    WellTyped schema (.name "string") (.string text)
  | fixed (data : Bytes) : WellTyped schema (.fixed data.length) (.bytes data)
  | vector {item : FieldType} {items : List Value} (fits : items.length < 2 ^ 32)
    (each : ∀ value ∈ items, WellTyped schema item value) : WellTyped schema (.vector item) (.array items)
  | none {name : String} {type : FieldType} (user : name ∉ builtin)
    (kind : schema name = some (.option type)) : WellTyped schema (.name name) .null
  | some {name : String} {type : FieldType} {value : Value} (user : name ∉ builtin)
    (kind : schema name = some (.option type)) (flat : ¬ IsOption schema type)
    (inside : WellTyped schema type value) : WellTyped schema (.name name) value
  | struct {name : String} {fields : List (String × FieldType)} {property : String → Value}
    (user : name ∉ builtin) (kind : schema name = some (.struct fields))
    (named : ∀ field ∈ fields, field.1 ≠ "__proto__")
    (each : ∀ field ∈ fields, WellTyped schema field.2 (property field.1))
    (only : ∀ other, other ∉ fields.map Prod.fst → property other = .undefined) :
    WellTyped schema (.name name) (.object property)
  | hash {name : String} {digits : List Char} {data : Bytes} (user : name ∉ builtin)
    (kind : schema name = some (hashKind data.length)) (hex : digits.map Char.toLower = hexOf data) :
    WellTyped schema (.name name) (.string (prefixed digits))

/-- A value of which a string is written. -/
inductive WritesString (schema : Schema) : FieldType → Value → Prop
  | here (value : Value) : WritesString schema (.name "string") value
  | vector {item : FieldType} {items : List Value} {value : Value} (member : value ∈ items)
    (inside : WritesString schema item value) : WritesString schema (.vector item) (.array items)
  | some {name : String} {type : FieldType} {value : Value} (user : name ∉ builtin)
    (kind : schema name = some (.option type)) (given : value ≠ .null)
    (inside : WritesString schema type value) : WritesString schema (.name name) value
  | struct {name : String} {fields : List (String × FieldType)} {property : String → Value}
    {field : String × FieldType} (user : name ∉ builtin) (kind : schema name = some (.struct fields))
    (member : field ∈ fields) (inside : WritesString schema field.2 (property field.1)) :
    WritesString schema (.name name) (.object property)

/-- A value with a text in it that has an upper-case letter, one that its lower case
differs from. Where no string is written, the texts of a value are its hashes. -/
inductive HasUpper : Value → Prop
  | string {text : String} {char : Char} (member : char ∈ text.toList) (upper : char.toLower ≠ char) :
    HasUpper (.string text)
  | array {items : List Value} {value : Value} (member : value ∈ items) (inside : HasUpper value) :
    HasUpper (.array items)
  | object {property : String → Value} (name : String) (inside : HasUpper (property name)) :
    HasUpper (.object property)

/-- Equal values; integers are compared as integers. -/
inductive Same : Value → Value → Prop
  | refl (value : Value) : Same value value
  | integer {first second : Value} {n : Nat} (left : first.integer = some n) (right : second.integer = some n) :
    Same first second
  | array {first second : List Value} (each : List.Forall₂ Same first second) :
    Same (.array first) (.array second)
  | object {first second : String → Value} (each : ∀ name, Same (first name) (second name)) :
    Same (.object first) (.object second)

/-- The call throws, and not for want of stack. -/
def Throws (call : Except Thrown Value) : Prop := ∃ error, error ≠ Thrown.stack ∧ call = .error error

/-- With enough stack a value is written, read back, and refused when its encoding is cut
short or continued. -/
def RoundTrips [BorshPackages] (schema : Schema) (fieldType : FieldType) (value : Value) : Prop :=
  ∃ needed, ∀ depth ≥ needed, ∃ encoded, serialize schema depth (some fieldType) value = .ok encoded ∧
    (∃ result, deserialize schema depth (some fieldType) encoded = .ok result ∧ Same result value) ∧
    (∀ part missing, encoded = part ++ missing → missing ≠ [] →
      Throws (deserialize schema depth (some fieldType) part)) ∧
    ∀ extra, extra ≠ [] → Throws (deserialize schema depth (some fieldType) (encoded ++ extra))

section Equality

theorem same_array {items : List Value} {result : Value → Value} :
    Same (.array (items.map result)) (.array items) ↔ ∀ value ∈ items, Same (result value) value := by
  have each : List.Forall₂ Same (items.map result) items ↔ ∀ value ∈ items, Same (result value) value := by
    rw [List.forall₂_map_left_iff, List.forall₂_same]
  rw [← each]
  generalize items.map result = results
  constructor
  · intro same
    cases same with
    | refl => exact List.forall₂_same.mpr fun value _ => .refl value
    | integer left => cases left
    | array each => exact each
  · exact .array

theorem same_object {first second : String → Value} :
    Same (.object first) (.object second) ↔ ∀ name, Same (first name) (second name) := by
  constructor
  · intro same
    cases same with
    | refl => exact fun name => .refl _
    | integer left => cases left
    | object each => exact each
  · exact .object

theorem same_string {first second : String} :
    Same (.string first) (.string second) ↔ first = second := by
  constructor
  · intro same
    cases same with
    | refl => rfl
    | integer left => cases left
  · rintro rfl
    exact .refl _

theorem hasUpper_array {items : List Value} :
    HasUpper (.array items) ↔ ∃ value ∈ items, HasUpper value := by
  constructor
  · rintro (_ | ⟨member, inside⟩)
    exact ⟨_, member, inside⟩
  · rintro ⟨value, member, inside⟩
    exact .array member inside

theorem hasUpper_object {property : String → Value} :
    HasUpper (.object property) ↔ ∃ name, HasUpper (property name) := by
  constructor
  · rintro (_ | _ | ⟨name, inside⟩)
    exact ⟨name, inside⟩
  · rintro ⟨name, inside⟩
    exact .object name inside

theorem hasUpper_string {text : String} :
    HasUpper (.string text) ↔ ∃ char ∈ text.toList, char.toLower ≠ char := by
  constructor
  · rintro ⟨member, upper⟩
    exact ⟨_, member, upper⟩
  · rintro ⟨char, member, upper⟩
    exact .string member upper

theorem not_hasUpper_of_integer {value : Value} {n : Nat} (int : value.integer = some n) :
    ¬ HasUpper value := by
  rintro (_ | _ | _) <;> cases int

/-- A hash comes back as it was given if none of its digits is in upper case. -/
theorem same_lower (digits : List Char) :
    Same (.string (prefixed (digits.map Char.toLower))) (.string (prefixed digits)) ↔
      ¬ HasUpper (.string (prefixed digits)) := by
  have lower (chars : List Char) :
      (∀ char ∈ chars, char.toLower = char) ↔ chars.map Char.toLower = chars := by
    simpa using (List.map_inj_left (l := chars) (g := id)).symm
  rw [same_string, hasUpper_string]
  push Not
  rw [lower, prefixed, prefixed, String.toList_ofList, String.ofList_inj]
  exact Iff.rfl

end Equality

section Writer

variable [BorshPackages]

theorem Appends.bind {first second : BinaryWriter → Except Thrown BinaryWriter} {front back : Bytes}
    (here : Appends first front) (later : Appends second back) :
    Appends (fun writer => first writer >>= second) (front ++ back) := by
  intro writer
  obtain ⟨middle, written, added⟩ := here writer
  obtain ⟨next, rest, more⟩ := later middle
  refine ⟨next, ?_, by rw [more, added, List.append_assoc]⟩
  simpa [written] using rest

theorem Appends.foldlM {β : Type} {step : BinaryWriter → β → Except Thrown BinaryWriter}
    {encode : β → Bytes} (items : List β)
    (each : ∀ item ∈ items, Appends (fun writer => step writer item) (encode item)) :
    Appends (fun writer => items.foldlM step writer) (items.flatMap encode) := by
  induction items with
  | nil => exact fun writer => ⟨writer, rfl, by simp⟩
  | cons item items ih =>
    exact (each item (by simp)).bind (ih fun other member => each other (by simp [member]))

end Writer

section Steps

variable {schema : Schema} {name : String}

/-- The fault that a reader may have: anything but an exhausted stack. -/
abbrev Fault : Thrown → Prop := fun error => error ≠ .stack

theorem name_ne_builtin (user : name ∉ builtin) (other : String) (member : other ∈ builtin) :
    FieldType.name name ≠ .name other := by
  intro same
  cases same
  exact user member

theorem serializeStep_name [BorshPackages] (user : name ∉ builtin)
    (inner : Value → FieldType → BinaryWriter → Except Thrown BinaryWriter) (value : Value) :
    serializeStep schema inner value (.name name) = serializeNamed schema inner value name := by
  have different := name_ne_builtin user
  funext writer
  rw [serializeStep, if_neg (different "u8" (by decide)), if_neg (different "u64" (by decide)),
    if_neg (different "u128" (by decide)), if_neg (different "bool" (by decide)),
    if_neg (different "string" (by decide))]

theorem serializeNamed_null [BorshPackages] {type : FieldType} (kind : schema name = some (.option type))
    (inner : Value → FieldType → BinaryWriter → Except Thrown BinaryWriter) :
    serializeNamed schema inner .null name = writeU8 (.number 0) := by
  funext writer
  rw [serializeNamed, kind]

theorem serializeNamed_some [BorshPackages] {type : FieldType} (kind : schema name = some (.option type))
    (inner : Value → FieldType → BinaryWriter → Except Thrown BinaryWriter) {value : Value}
    (given : value ≠ .null) :
    serializeNamed schema inner value name = fun writer => writeU8 (.number 1) writer >>= inner value type := by
  funext writer
  rw [serializeNamed, kind]
  cases value with
  | null => exact absurd rfl given
  | _ => rfl

theorem serializeNamed_struct [BorshPackages] {fields : List (String × FieldType)}
    (kind : schema name = some (.struct fields))
    (inner : Value → FieldType → BinaryWriter → Except Thrown BinaryWriter) (property : String → Value) :
    serializeNamed schema inner (.object property) name = fun writer =>
      fields.foldlM (fun writer field => inner (property field.1) field.2 writer) writer := by
  funext writer
  rw [serializeNamed, kind]
  rfl

theorem serializeNamed_function [BorshPackages] {ser : Value → Except Thrown Bytes} {deser : Reader Value}
    (kind : schema name = some (.function ser deser))
    (inner : Value → FieldType → BinaryWriter → Except Thrown BinaryWriter) {value : Value} {data : Bytes}
    (computed : ser value = .ok data) : serializeNamed schema inner value name = writeBuffer data := by
  funext writer
  rw [serializeNamed, kind]
  change (ser value >>= fun data => writeBuffer data writer) = _
  rw [computed]
  rfl

theorem deserializeStep_name (user : name ∉ builtin) (inner : FieldType → Reader Value) :
    deserializeStep schema inner (.name name) = deserializeNamed schema inner name := by
  have different := name_ne_builtin user
  rw [deserializeStep, if_neg (different "u8" (by decide)), if_neg (different "u64" (by decide)),
    if_neg (different "u128" (by decide)), if_neg (different "bool" (by decide)),
    if_neg (different "string" (by decide))]

theorem not_writesString_builtin (member : name ∈ builtin) (other : name ≠ "string") (value : Value) :
    ¬ WritesString schema (.name name) value := by
  intro writes
  cases writes with
  | here => exact other rfl
  | some user => exact user member
  | struct user => exact user member

theorem readU8_reads (byte : UInt8) : BufferReader.Reads Fault Reader.readU8 [byte] byte :=
  (BufferReader.Reads.window [byte] (by simp [Fault])).map fun buf => buf.headD 0

theorem readBuffer_reads (data : Bytes) :
    BufferReader.Reads Fault (Reader.readBuffer data.length) data data :=
  BufferReader.Reads.window data (by simp [Fault])

theorem readU32_reads {n : Nat} (fits : n < 2 ^ 32) :
    BufferReader.Reads Fault Reader.readU32 (leBytes 4 n) n := by
  have window := BufferReader.Reads.window (leBytes 4 n) (show Fault .range by simp [Fault])
  rw [length_leBytes] at window
  have read := window.map leNat
  rwa [leNat_leBytes 4 n (by omega)] at read

/-- Both wide readers. -/
theorem readBN_reads {width n : Nat} (fits : n < 256 ^ width) :
    BufferReader.Reads Fault (do let buf ← Reader.readBuffer width; return Value.bn (leNat buf))
      (leBytes width n) (.bn n) := by
  have window := readBuffer_reads (leBytes width n)
  rw [length_leBytes] at window
  have read := window.map fun buf => Value.bn (leNat buf)
  rwa [leNat_leBytes width n fits] at read

end Steps

section Interpreters

variable [BorshPackages] {schema : Schema}
  {write : Value → FieldType → BinaryWriter → Except Thrown BinaryWriter} {read : FieldType → Reader Value}

/-- A value is written as `encoded`, which is read back as `result` unless a string is
written. -/
structure Interprets (schema : Schema)
    (write : Value → FieldType → BinaryWriter → Except Thrown BinaryWriter) (read : FieldType → Reader Value)
    (fieldType : FieldType) (value : Value) (encoded : Bytes) (result : Value) : Prop where
  writes : Appends (write value fieldType) encoded
  settles : BufferReader.Settles Fault (WritesString schema fieldType value) (read fieldType) encoded result

theorem interprets_u8 (documented : BorshPackages.Documented) {n : Nat} (fits : n < 2 ^ 8) :
    Interprets schema (serializeStep schema write) (deserializeStep schema read) (.name "u8") (.number n)
      (leBytes 1 n) (.number n) where
  writes := documented.writeU8 n fits
  settles := by
    refine ⟨fun _ => ?_, fun bad => absurd bad (not_writesString_builtin (by decide) (by decide) _)⟩
    have byte : (UInt8.ofNat (n % 256)).toNat = n := by
      simp only [UInt8.toNat_ofNat']
      omega
    have whole := (readU8_reads (UInt8.ofNat (n % 256))).map fun byte => Value.number byte.toNat
    rwa [byte] at whole

theorem interprets_u64 (documented : BorshPackages.Documented) {value : Value} {n : Nat}
    (int : value.integer = some n) (fits : n < 2 ^ 64) :
    Interprets schema (serializeStep schema write) (deserializeStep schema read) (.name "u64") value
      (leBytes 8 n) (.bn n) where
  writes := documented.writeU64 value n int fits
  settles := by
    refine ⟨fun _ => ?_, fun bad => absurd bad (not_writesString_builtin (by decide) (by decide) _)⟩
    exact readBN_reads (by omega)

theorem interprets_u128 (documented : BorshPackages.Documented) {value : Value} {n : Nat}
    (int : value.integer = some n) (fits : n < 2 ^ 128) :
    Interprets schema (serializeStep schema write) (deserializeStep schema read) (.name "u128") value
      (leBytes 16 n) (.bn n) where
  writes := documented.writeU128 value n int fits
  settles := by
    refine ⟨fun _ => ?_, fun bad => absurd bad (not_writesString_builtin (by decide) (by decide) _)⟩
    exact readBN_reads (by omega)

theorem interprets_bool (documented : BorshPackages.Documented) (value : Bool) :
    Interprets schema (serializeStep schema write) (deserializeStep schema read) (.name "bool") (.bool value)
      (leBytes 1 (if value then 1 else 0)) (.bool value) where
  writes := documented.writeU8 _ (by cases value <;> decide)
  settles := by
    refine ⟨fun _ => ?_, fun bad => absurd bad (not_writesString_builtin (by decide) (by decide) _)⟩
    cases value with
    | false => exact (readU8_reads 0).map fun byte => Value.bool (byte != 0)
    | true => exact (readU8_reads 1).map fun byte => Value.bool (byte != 0)

/-- A string is written and never read. -/
theorem interprets_string (documented : BorshPackages.Documented) {text : String}
    (fits : (utf8 text).length < 2 ^ 32) :
    Interprets schema (serializeStep schema write) (deserializeStep schema read) (.name "string")
      (.string text) (leBytes 4 (utf8 text).length ++ utf8 text) (.string text) where
  writes := documented.writeString text fits
  settles := by
    refine ⟨fun good => absurd (.here _) good, fun _ => ?_⟩
    apply (readU32_reads fits).bind_fails
    have rest : BufferReader.Fails (do
        let _ ← Reader.readBuffer (utf8 text).length
        BufferReader.fail .type : Reader Value) (utf8 text ++ []) :=
      (readBuffer_reads (utf8 text)).bind_fails (.fail _ [])
    rwa [List.append_nil] at rest

theorem interprets_fixed (documented : BorshPackages.Documented) (data : Bytes) :
    Interprets schema (serializeStep schema write) (deserializeStep schema read) (.fixed data.length)
      (.bytes data) data (.bytes data) where
  writes := by
    intro writer
    obtain ⟨next, written, added⟩ := documented.writeFixedArray data writer
    refine ⟨next, ?_, added⟩
    simpa [serializeStep, Value.get, Value.asNumber, bind, Except.bind] using written
  settles := by
    refine ⟨fun _ => (readBuffer_reads data).map Value.bytes, fun bad => by cases bad⟩

omit [BorshPackages] in
theorem writesString_vector {item : FieldType} {items : List Value} :
    WritesString schema (.vector item) (.array items) ↔ ∃ value ∈ items, WritesString schema item value := by
  constructor
  · intro writes
    cases writes with
    | vector member inside => exact ⟨_, member, inside⟩
  · rintro ⟨value, member, inside⟩
    exact .vector member inside

theorem interprets_vector (documented : BorshPackages.Documented) {item : FieldType} {items : List Value}
    {encode : Value → Bytes} {result : Value → Value} (fits : items.length < 2 ^ 32)
    (each : ∀ value ∈ items, Interprets schema write read item value (encode value) (result value)) :
    Interprets schema (serializeStep schema write) (deserializeStep schema read) (.vector item)
      (.array items) (leBytes 4 items.length ++ items.flatMap encode) (.array (items.map result)) where
  writes := documented.writeArray items _ encode fits fun value member => (each value member).writes
  settles := by
    have all := BufferReader.Settles.times items fun value member => (each value member).settles
    have count := readU32_reads fits
    rw [writesString_vector]
    exact ⟨fun good => count.bind ((all.reads good).map Value.array),
      fun bad => count.bind_fails ((all.fails bad).map _)⟩

theorem interprets_none (documented : BorshPackages.Documented) {name : String} {type : FieldType}
    (user : name ∉ builtin) (kind : schema name = some (.option type)) :
    Interprets schema (serializeStep schema write) (deserializeStep schema read) (.name name) .null
      (leBytes 1 0) .null where
  writes := by
    rw [serializeStep_name user, serializeNamed_null kind]
    exact documented.writeU8 0 (by decide)
  settles := by
    refine ⟨fun _ => ?_, fun bad => ?_⟩
    · rw [deserializeStep_name user, deserializeNamed, kind]
      have absent : BufferReader.Reads Fault (do
          let flag ← Reader.readU8
          if flag = 0 then return .null
          else if flag = 1 then read type
          else BufferReader.fail (.error s!"Unexpected option flag: {flag}")) ([0] ++ []) Value.null :=
        (readU8_reads 0).bind (.pure Value.null)
      exact absent
    · cases bad with
      | here => exact absurd (by decide) user
      | some _ _ given => exact absurd rfl given

omit [BorshPackages] in
theorem writesString_some {name : String} {type : FieldType} {value : Value} (user : name ∉ builtin)
    (kind : schema name = some (.option type)) (given : value ≠ .null) :
    WritesString schema (.name name) value ↔ WritesString schema type value := by
  constructor
  · intro writes
    cases writes with
    | here => exact absurd (by decide) user
    | some _ other _ inside =>
      rw [kind] at other
      cases other
      exact inside
    | struct _ other =>
      rw [kind] at other
      cases other
  · exact .some user kind given

theorem interprets_some (documented : BorshPackages.Documented) {name : String} {type : FieldType}
    {value result : Value} {encoded : Bytes} (user : name ∉ builtin)
    (kind : schema name = some (.option type)) (given : value ≠ .null)
    (inside : Interprets schema write read type value encoded result) :
    Interprets schema (serializeStep schema write) (deserializeStep schema read) (.name name) value
      (leBytes 1 1 ++ encoded) result where
  writes := by
    rw [serializeStep_name user, serializeNamed_some kind _ given]
    exact (documented.writeU8 1 (by decide)).bind inside.writes
  settles := by
    have flag := readU8_reads 1
    rw [writesString_some user kind given, deserializeStep_name user, deserializeNamed, kind]
    exact ⟨fun good => flag.bind (inside.settles.reads good),
      fun bad => flag.bind_fails (inside.settles.fails bad)⟩

omit [BorshPackages] in
theorem writesString_struct {name : String} {fields : List (String × FieldType)} {property : String → Value}
    (user : name ∉ builtin) (kind : schema name = some (.struct fields)) :
    WritesString schema (.name name) (.object property) ↔
      ∃ field ∈ fields, WritesString schema field.2 (property field.1) := by
  constructor
  · intro writes
    cases writes with
    | here => exact absurd (by decide) user
    | some _ other =>
      rw [kind] at other
      cases other
    | struct _ other member inside =>
      rw [kind] at other
      cases other
      exact ⟨_, member, inside⟩
  · rintro ⟨field, member, inside⟩
    exact .struct user kind member inside

theorem interprets_struct {name : String} {fields : List (String × FieldType)} {property : String → Value}
    {encode : String × FieldType → Bytes} {result : String × FieldType → Value} (user : name ∉ builtin)
    (kind : schema name = some (.struct fields))
    (each : ∀ field ∈ fields,
      Interprets schema write read field.2 (property field.1) (encode field) (result field)) :
    Interprets schema (serializeStep schema write) (deserializeStep schema read) (.name name) (.object property)
      (fields.flatMap encode)
      (.object (fields.foldl (fun object field => assign object field.1 (result field)) fun _ => .undefined))
    where
  writes := by
    rw [serializeStep_name user, serializeNamed_struct kind]
    exact Appends.foldlM fields fun field member => (each field member).writes
  settles := by
    have all : BufferReader.Settles Fault _ (readFields read fields) (fields.flatMap encode)
        (fields.foldl (fun object field => assign object field.1 (result field)) fun _ => .undefined) :=
      BufferReader.Settles.foldlM fields
        (fun field member object => ⟨fun good => ((each field member).settles.reads good).map _,
          fun bad => ((each field member).settles.fails bad).map _⟩) _
    rw [writesString_struct user kind, deserializeStep_name user, deserializeNamed, kind]
    exact ⟨fun good => (all.reads good).map Value.object, fun bad => (all.fails bad).map _⟩

omit [BorshPackages] in
theorem not_writesString_function {name : String} {ser : Value → Except Thrown Bytes} {deser : Reader Value}
    {value : Value} (user : name ∉ builtin) (kind : schema name = some (.function ser deser)) :
    ¬ WritesString schema (.name name) value := by
  intro writes
  cases writes with
  | here => exact user (by decide)
  | some _ other =>
    rw [kind] at other
    cases other
  | struct _ other =>
    rw [kind] at other
    cases other

theorem interprets_hash (documented : BorshPackages.Documented) {name : String} {digits : List Char}
    {data : Bytes} (user : name ∉ builtin) (kind : schema name = some (hashKind data.length))
    (hex : digits.map Char.toLower = hexOf data) :
    Interprets schema (serializeStep schema write) (deserializeStep schema read) (.name name)
      (.string (prefixed digits)) data (.string (prefixed (digits.map Char.toLower))) where
  writes := by
    rw [serializeStep_name user, serializeNamed_function kind _ (documented.hexToBytes digits data hex)]
    exact documented.writeBuffer data
  settles := by
    refine ⟨fun _ => ?_, fun bad => ?_⟩
    · rw [deserializeStep_name user, deserializeNamed, kind, hex, ← documented.bytesToHex]
      exact (readBuffer_reads data).map fun data => Value.string (bytesToHex data)
    · exact absurd bad (not_writesString_function user kind)

/-- Every value of a type that is no option differs from the one that stands for an
absent value. -/
theorem WellTyped.ne_null {fieldType : FieldType} {value : Value} (typed : WellTyped schema fieldType value)
    (flat : ¬ IsOption schema fieldType) : value ≠ .null := by
  rintro rfl
  cases typed with
  | u64 int => simp [Value.integer] at int
  | u128 int => simp [Value.integer] at int
  | none user kind => exact flat ⟨_, _, rfl, user, kind⟩
  | some user kind => exact flat ⟨_, _, rfl, user, kind⟩

omit [BorshPackages] in
/-- The properties that were assigned, in whatever order the fields name them. -/
theorem foldl_assign_related (related : Value → Value → Prop) {property : String → Value}
    {result : String × FieldType → Value} (fields : List (String × FieldType))
    (named : ∀ field ∈ fields, field.1 ≠ "__proto__")
    (each : ∀ field ∈ fields, related (result field) (property field.1)) (start : String → Value)
    (name : String) (settled : name ∈ fields.map Prod.fst ∨ related (start name) (property name)) :
    related (fields.foldl (fun object field => assign object field.1 (result field)) start name)
      (property name) := by
  induction fields generalizing start with
  | nil => simpa using settled
  | cons field fields ih =>
    apply ih (fun other member => named other (by simp [member]))
      (fun other member => each other (by simp [member]))
    have assigned : assign start field.1 (result field) = Function.update start field.1 (result field) :=
      if_neg (named field (by simp))
    beta_reduce
    rw [assigned]
    by_cases here : name = field.1
    · right
      rw [here, Function.update_self]
      exact each field (by simp)
    · rw [Function.update_of_ne here]
      simpa [here] using settled

omit [BorshPackages] in
theorem eventually_succ {holds : Nat → Prop} (next : ∀ᶠ depth in Filter.atTop, holds (depth + 1)) :
    ∀ᶠ depth in Filter.atTop, holds depth := by
  rwa [← Filter.map_add_atTop_eq_nat 1, Filter.eventually_map]

omit [BorshPackages] in
theorem eventually_forall_mem {β : Type} {holds : Nat → β → Prop} (items : List β)
    (each : ∀ item ∈ items, ∀ᶠ depth in Filter.atTop, holds depth item) :
    ∀ᶠ depth in Filter.atTop, ∀ item ∈ items, holds depth item :=
  (Filter.eventually_all_finite (List.finite_toSet items)).mpr each

/-- With enough stack, every value of a type is written and then read back unless a
string is written; what is read is equal to the value unless a hash is in upper case. -/
theorem interpreted (documented : BorshPackages.Documented) {fieldType : FieldType} {value : Value}
    (typed : WellTyped schema fieldType value) :
    ∃ encoded result, (¬ WritesString schema fieldType value → (Same result value ↔ ¬ HasUpper value)) ∧
      ∀ᶠ depth in Filter.atTop,
        Interprets schema (serializeField schema depth) (deserializeField schema depth) fieldType value
          encoded result := by
  induction typed with
  | u8 fits =>
    exact ⟨_, _, fun _ => iff_of_true (.refl _) (by rintro ⟨⟩),
      eventually_succ (.of_forall fun _ => interprets_u8 documented fits)⟩
  | u64 int fits =>
    exact ⟨_, _, fun _ => iff_of_true (.integer rfl int) (not_hasUpper_of_integer int),
      eventually_succ (.of_forall fun _ => interprets_u64 documented int fits)⟩
  | u128 int fits =>
    exact ⟨_, _, fun _ => iff_of_true (.integer rfl int) (not_hasUpper_of_integer int),
      eventually_succ (.of_forall fun _ => interprets_u128 documented int fits)⟩
  | bool value =>
    exact ⟨_, _, fun _ => iff_of_true (.refl _) (by rintro ⟨⟩),
      eventually_succ (.of_forall fun _ => interprets_bool documented value)⟩
  | string fits =>
    exact ⟨_, _, fun good => absurd (.here _) good,
      eventually_succ (.of_forall fun _ => interprets_string documented fits)⟩
  | fixed data =>
    exact ⟨_, _, fun _ => iff_of_true (.refl _) (by rintro ⟨⟩),
      eventually_succ (.of_forall fun _ => interprets_fixed documented data)⟩
  | @vector item items fits each ih =>
    choose! encode result same inside using ih
    refine ⟨_, _, fun good => ?_, eventually_succ ((eventually_forall_mem items inside).mono
      fun depth all => interprets_vector documented fits all)⟩
    rw [writesString_vector] at good
    rw [same_array, hasUpper_array]
    push Not
    exact forall₂_congr fun value member => same value member fun writes => good ⟨value, member, writes⟩
  | none user kind =>
    exact ⟨_, _, fun _ => iff_of_true (.refl _) (by rintro ⟨⟩),
      eventually_succ (.of_forall fun _ => interprets_none documented user kind)⟩
  | some user kind flat typed ih =>
    obtain ⟨encoded, result, same, inside⟩ := ih
    have given := typed.ne_null flat
    exact ⟨_, _, fun good => same fun writes => good ((writesString_some user kind given).mpr writes),
      eventually_succ (inside.mono fun depth inner => interprets_some documented user kind given inner)⟩
  | @struct name fields property user kind named each only ih =>
    choose! encode result same inside using ih
    refine ⟨_, _, fun good => ?_, eventually_succ ((eventually_forall_mem fields inside).mono
      fun depth all => interprets_struct user kind all)⟩
    rw [writesString_struct user kind] at good
    rw [same_object, hasUpper_object, not_exists]
    refine forall_congr' fun other => ?_
    -- a field named twice is read twice, and what is read last stays
    apply foldl_assign_related (fun result value => Same result value ↔ ¬ HasUpper value) fields named
      fun field member => same field member fun writes => good ⟨field, member, writes⟩
    by_cases member : other ∈ fields.map Prod.fst
    · exact .inl member
    · right
      rw [only other member]
      exact iff_of_true (.refl _) (by rintro ⟨⟩)
  | hash user kind hex =>
    exact ⟨_, _, fun _ => same_lower _,
      eventually_succ (.of_forall fun _ => interprets_hash documented user kind hex)⟩

end Interpreters

section RoundTrip

variable [BorshPackages] {schema : Schema} {fieldType : FieldType} {value result : Value} {encoded : Bytes}
  {depth : Nat}

theorem Interprets.serialize (documented : BorshPackages.Documented)
    (inside : Interprets schema (serializeField schema depth) (deserializeField schema depth) fieldType value
      encoded result) : serialize schema depth (some fieldType) value = .ok encoded := by
  obtain ⟨next, written, added⟩ := inside.writes BorshPackages.new
  rw [documented.new, List.nil_append] at added
  change (serializeField schema depth value fieldType BorshPackages.new >>= fun writer =>
    pure (toArray writer)) = _
  rw [written, ← added]
  rfl

omit [BorshPackages] in
/-- A run of the reader from the start of a buffer. -/
theorem deserialize_of_ok {buffer : Bytes} {offset : Nat}
    (read : deserializeField schema depth fieldType buffer 0 = .ok (result, offset)) :
    deserialize schema depth (some fieldType) buffer = if offset < buffer.length then
      .error (.error s!"Unexpected {buffer.length - offset} bytes after deserialized data")
      else .ok result := by
  change (deserializeField schema depth fieldType buffer 0 >>= fun pair => if pair.2 < buffer.length then
    .error (.error s!"Unexpected {buffer.length - pair.2} bytes after deserialized data") else .ok pair.1) = _
  rw [read]
  rfl

omit [BorshPackages] in
theorem deserialize_of_error {buffer : Bytes} {error : Thrown}
    (read : deserializeField schema depth fieldType buffer 0 = .error error) :
    deserialize schema depth (some fieldType) buffer = .error error := by
  change (deserializeField schema depth fieldType buffer 0 >>= fun pair => if pair.2 < buffer.length then
    .error (.error s!"Unexpected {buffer.length - pair.2} bytes after deserialized data") else .ok pair.1) = _
  rw [read]
  rfl

theorem roundTrips_of_interprets (documented : BorshPackages.Documented) (same : Same result value)
    (good : ¬ WritesString schema fieldType value)
    (inside : ∀ᶠ depth in Filter.atTop, Interprets schema (serializeField schema depth)
      (deserializeField schema depth) fieldType value encoded result) :
    RoundTrips schema fieldType value := by
  obtain ⟨needed, enough⟩ := Filter.eventually_atTop.mp inside
  refine ⟨needed, fun depth deep => ?_⟩
  have read := (enough depth deep).settles.reads good
  refine ⟨encoded, (enough depth deep).serialize documented, ⟨result, ?_, same⟩, ?_, ?_⟩
  · have whole := read.whole [] []
    simp only [List.nil_append, List.append_nil, List.length_nil] at whole
    rw [deserialize_of_ok whole, if_neg (Nat.lt_irrefl _)]
  · intro part missing split nonempty
    obtain ⟨error, expected, failed⟩ := read.short [] part missing split nonempty
    exact ⟨error, expected, deserialize_of_error failed⟩
  · intro extra nonempty
    have whole := read.whole [] extra
    simp only [List.nil_append, List.length_nil] at whole
    have longer : encoded.length < (encoded ++ extra).length := by
      have positive := List.length_pos_iff.mpr nonempty
      rw [List.length_append]
      omega
    refine ⟨.error s!"Unexpected {(encoded ++ extra).length - encoded.length} bytes after deserialized data",
      by simp, ?_⟩
    rw [deserialize_of_ok whole, if_pos longer]

/-- What comes back is what the reader reads. -/
theorem RoundTrips.same (documented : BorshPackages.Documented)
    (inside : ∀ᶠ depth in Filter.atTop, Interprets schema (serializeField schema depth)
      (deserializeField schema depth) fieldType value encoded result)
    (trips : RoundTrips schema fieldType value) :
    ¬ WritesString schema fieldType value ∧ Same result value := by
  obtain ⟨needed, trips⟩ := trips
  obtain ⟨other, enough⟩ := Filter.eventually_atTop.mp inside
  have interprets := enough (max needed other) (Nat.le_max_right _ _)
  obtain ⟨written, serialized, ⟨back, deserialized, same⟩, _⟩ :=
    trips (max needed other) (Nat.le_max_left _ _)
  rw [interprets.serialize documented] at serialized
  cases serialized
  by_cases bad : WritesString schema fieldType value
  · obtain ⟨error, failed⟩ := interprets.settles.fails bad [] []
    simp only [List.nil_append, List.append_nil, List.length_nil] at failed
    rw [deserialize_of_error failed] at deserialized
    cases deserialized
  · have whole := (interprets.settles.reads bad).whole [] []
    simp only [List.nil_append, List.append_nil, List.length_nil] at whole
    rw [deserialize_of_ok whole, if_neg (Nat.lt_irrefl _)] at deserialized
    cases deserialized
    exact ⟨bad, same⟩

/-- A value of any type of a schema is written, read back as an equal one, and refused
when it is cut short or continued, if and only if no string is written and no hash is
given with an upper-case digit. -/
theorem schema_round_trip_iff (documented : BorshPackages.Documented) (typed : WellTyped schema fieldType value) :
    RoundTrips schema fieldType value ↔ ¬ WritesString schema fieldType value ∧ ¬ HasUpper value := by
  obtain ⟨encoded, result, same, inside⟩ := interpreted documented typed
  constructor
  · intro trips
    obtain ⟨good, back⟩ := trips.same documented inside
    exact ⟨good, (same good).mp back⟩
  · rintro ⟨good, lower⟩
    exact roundTrips_of_interprets documented ((same good).mpr lower) good inside

end RoundTrip

section Sample

/-- The value of a digit of either case. -/
def digitValue (char : Char) : Option Nat :=
  (List.range 16).find? fun value => value.digitChar = char.toLower

def parseDigits : List Char → Option Bytes
  | [] => some []
  | high :: low :: rest => do
    let upper ← digitValue high
    let lower ← digitValue low
    let bytes ← parseDigits rest
    return UInt8.ofNat (upper * 16 + lower) :: bytes
  | _ => none

theorem digitValue_of_toLower {char : Char} {value : Nat} (small : value < 16)
    (same : char.toLower = value.digitChar) : digitValue char = some value := by
  have all : ∀ value ∈ List.range 16,
      (List.range 16).find? (fun other => other.digitChar = value.digitChar) = some value := by decide
  rw [digitValue, same]
  exact all value (List.mem_range.mpr small)

theorem parseDigits_of_toLower {digits : List Char} {data : Bytes}
    (hex : digits.map Char.toLower = hexOf data) : parseDigits digits = some data := by
  induction data generalizing digits with
  | nil =>
    obtain rfl := List.map_eq_nil_iff.mp hex
    rfl
  | cons byte data ih =>
    have small : byte.toNat < 256 := byte.toNat_lt
    change _ = (byte.toNat / 16).digitChar :: (byte.toNat % 16).digitChar :: hexOf data at hex
    obtain ⟨high, tail, rfl, upper, hex⟩ := List.map_eq_cons_iff.mp hex
    obtain ⟨low, rest, rfl, lower, hex⟩ := List.map_eq_cons_iff.mp hex
    have whole : byte.toNat / 16 * 16 + byte.toNat % 16 = byte.toNat := by omega
    rw [parseDigits, digitValue_of_toLower (by omega) upper, digitValue_of_toLower (by omega) lower, ih hex]
    simp only [Option.bind_eq_bind, Option.bind_some, Option.pure_def, whole, UInt8.ofNat_toNat]

/-- An integer of a width, after what was written. -/
def appendInteger (width : Nat) (value : Value) (writer : Bytes) : Except Thrown Bytes :=
  match value.integer with
  | some n => if n < 256 ^ width then .ok (writer ++ leBytes width n) else .error .range
  | none => .error .type

theorem appendInteger_eq {width n : Nat} {value : Value} (int : value.integer = some n)
    (fits : n < 256 ^ width) (writer : Bytes) :
    appendInteger width value writer = .ok (writer ++ leBytes width n) := by
  simp only [appendInteger, int, if_pos fits]

def unhex (value : Value) : Except Thrown Bytes :=
  match value with
  | .string text => ((parseDigits (text.toList.drop 2)).map Except.ok).getD (.error .type)
  | _ => .error .type

theorem unhex_prefixed {digits : List Char} {data : Bytes} (hex : digits.map Char.toLower = hexOf data) :
    unhex (.string (prefixed digits)) = .ok data := by
  have text : (prefixed digits).toList.drop 2 = digits := by simp [prefixed]
  simp only [unhex, text, parseDigits_of_toLower hex, Option.map_some, Option.getD_some]

/-- A writer that keeps what was written, and throws for other values than these. -/
@[reducible] def sampleBorshPackages : BorshPackages where
  BinaryWriter := Bytes
  new := []
  writeU8 := appendInteger 1
  writeU64 := appendInteger 8
  writeU128 := appendInteger 16
  writeString
    | .string text, writer => .ok (List.append writer (leBytes 4 (utf8 text).length ++ utf8 text))
    | _, _ => .error .type
  writeFixedArray
    | .bytes data, writer => .ok (List.append writer data)
    | _, _ => .error .type
  writeBuffer data writer := .ok (List.append writer data)
  writeArray
    | .array items, each, writer =>
      items.foldlM (fun writer item => each item writer) (List.append writer (leBytes 4 items.length))
    | _, _, _ => .error .type
  toArray := id
  hexToBytes := unhex
  bytesToHex data := prefixed (hexOf data)

theorem sampleBorshPackages_documented : @BorshPackages.Documented sampleBorshPackages :=
  letI := sampleBorshPackages
  { new := rfl
    writeU8 := by
      intro n fits writer
      have int : (Value.number n).integer = some n := if_pos (by omega)
      exact ⟨_, appendInteger_eq int (by omega) writer, rfl⟩
    writeU64 := fun value n int fits writer => ⟨_, appendInteger_eq int (by omega) writer, rfl⟩
    writeU128 := fun value n int fits writer => ⟨_, appendInteger_eq int (by omega) writer, rfl⟩
    writeString := fun text _ writer => ⟨_, rfl, rfl⟩
    writeFixedArray := fun data writer => ⟨_, rfl, rfl⟩
    writeBuffer := fun data writer => ⟨_, rfl, rfl⟩
    writeArray := by
      intro items each encode _ appends writer
      obtain ⟨next, written, added⟩ := Appends.foldlM items appends (List.append writer (leBytes 4 items.length))
      refine ⟨next, written, ?_⟩
      rw [added]
      exact List.append_assoc _ _ _
    hexToBytes := fun digits data hex => unhex_prefixed hex
    bytesToHex := fun _ => rfl }

/-- A node of the dataset and its proof as the relay passes them, with one digit that
may be in upper case. -/
def sampleNode (digit : Char) : Value := .object fun name =>
  if name = "dag_nodes" then .array [.string (prefixed (List.replicate 128 '0'))]
  else if name = "proof" then .array [.string (prefixed (digit :: List.replicate 31 '0'))]
  else .undefined

theorem sampleNode_typed {digit : Char} (lower : digit.toLower = 'a') :
    letI := sampleBorshPackages
    WellTyped borshSchema (.name "DoubleNodeWithMerkleProof") (sampleNode digit) := by
  let := sampleBorshPackages
  have hex : (digit :: List.replicate 31 '0').map Char.toLower = hexOf (160 :: List.replicate 15 0) := by
    rw [List.map_cons, lower]
    decide
  apply WellTyped.struct (by decide) (rfl : borshSchema "DoubleNodeWithMerkleProof" = _)
  · decide
  · intro field member
    rcases List.mem_pair.mp member with rfl | rfl
    · apply WellTyped.vector (by decide)
      intro value here
      obtain rfl := List.mem_singleton.mp here
      exact @WellTyped.hash _ borshSchema "H512" _ (List.replicate 64 0) (by decide) rfl (by decide)
    · refine WellTyped.vector ?_ ?_
      · simp
      intro value here
      obtain rfl := List.mem_singleton.mp here
      exact @WellTyped.hash _ borshSchema "H128" _ (160 :: List.replicate 15 0) (by decide) rfl hex
  · intro other missing
    simp only [List.map_cons, List.map_nil, List.mem_cons, List.not_mem_nil, or_false, not_or] at missing
    simp [missing]

theorem sampleNode_writes_no_string (digit : Char) :
    letI := sampleBorshPackages
    ¬ WritesString borshSchema (.name "DoubleNodeWithMerkleProof") (sampleNode digit) := by
  let := sampleBorshPackages
  rw [sampleNode, writesString_struct (by decide) rfl]
  rintro ⟨field, member, inside⟩
  rcases List.mem_pair.mp member with rfl | rfl
  · obtain ⟨value, here, writes⟩ := writesString_vector.mp inside
    obtain rfl := List.mem_singleton.mp here
    exact not_writesString_function (by decide) rfl writes
  · obtain ⟨value, here, writes⟩ := writesString_vector.mp inside
    obtain rfl := List.mem_singleton.mp here
    exact not_writesString_function (by decide) rfl writes

theorem sampleNode_hasUpper_iff (digit : Char) :
    HasUpper (sampleNode digit) ↔ digit.toLower ≠ digit := by
  have zeros : ∀ count, ∀ char ∈ List.replicate count '0', char.toLower = char := by
    intro count char member
    rw [List.eq_of_mem_replicate member]
    decide
  rw [sampleNode, hasUpper_object]
  constructor
  · rintro ⟨name, inside⟩
    split at inside
    · obtain ⟨value, here, upper⟩ := hasUpper_array.mp inside
      obtain rfl := List.mem_singleton.mp here
      refine absurd upper ((same_lower _).mp ?_)
      rw [List.map_congr_left (zeros 128), List.map_id']
      exact .refl _
    · split at inside
      · obtain ⟨value, here, upper⟩ := hasUpper_array.mp inside
        obtain rfl := List.mem_singleton.mp here
        intro lower
        refine (same_lower _).mp ?_ upper
        rw [List.map_cons, lower, List.map_congr_left (zeros 31), List.map_id']
        exact .refl _
      · cases inside
  · intro upper
    refine ⟨"proof", hasUpper_array.mpr ⟨_, List.mem_singleton_self _, hasUpper_string.mpr ⟨digit, ?_, upper⟩⟩⟩
    simp [prefixed]

theorem schema_round_trip_iff_sample :
    letI := sampleBorshPackages
    RoundTrips borshSchema (.name "DoubleNodeWithMerkleProof") (sampleNode 'a') ∧
      ¬ RoundTrips borshSchema (.name "DoubleNodeWithMerkleProof") (sampleNode 'A') := by
  let := sampleBorshPackages
  rw [schema_round_trip_iff sampleBorshPackages_documented (sampleNode_typed (by decide)),
    schema_round_trip_iff sampleBorshPackages_documented (sampleNode_typed (by decide)),
    sampleNode_hasUpper_iff, sampleNode_hasUpper_iff]
  exact ⟨⟨sampleNode_writes_no_string 'a', by decide⟩, fun good => good.2 (by decide)⟩

/-- The trusted signer that is passed to the client's contract is written and cannot be
read back. -/
theorem account_not_read_back :
    letI := sampleBorshPackages
    WellTyped borshSchema (.name "?AccountId") (.string "relay.near") ∧
      ¬ RoundTrips borshSchema (.name "?AccountId") (.string "relay.near") := by
  let := sampleBorshPackages
  have inner : WellTyped borshSchema (.name "string") (.string "relay.near") := .string (by decide)
  have flat : ¬ IsOption borshSchema (.name "string") := by
    rintro ⟨name, type, same, user, _⟩
    cases same
    exact user (by decide)
  have typed : WellTyped borshSchema (.name "?AccountId") (.string "relay.near") :=
    .some (by decide) rfl flat inner
  obtain ⟨_, _, _, inside⟩ := interpreted sampleBorshPackages_documented typed
  exact ⟨typed, fun trips =>
    (trips.same sampleBorshPackages_documented inside).1 (.some (by decide) rfl (by simp) (.here _))⟩

end Sample

end RainbowBridge.Utils
