import RainbowBridge.Lib.Bytes
import RainbowBridge.Lib.Decoder

/-! The `borsh` crate as the NEAR contracts use it. `deserialize` takes the input
slice by reference and moves it past each field, also when a later field fails:
a failure carries the slice as it then is. -/

namespace RainbowBridge.Near.Borsh

open Lib

/-- `deserialize(buf: &mut &[u8])`. -/
abbrev Deserialize (α : Type) := Decoder Bytes UInt8 α

/-- The next `width` bytes; nothing is consumed when they are not there. -/
def fixed (width : Nat) : Deserialize (FixedBytes width) := fun buf =>
  if enough : width ≤ buf.length then .ok (⟨buf.take width, List.length_take_of_le enough⟩, buf.drop width)
  else .error buf

/-- A little-endian integer of `width` bytes. -/
def uint (width : Nat) : Deserialize Nat := do
  let raw ← fixed width
  return leNat raw.toList

def u64 : Deserialize (BitVec 64) := do
  let value ← uint 8
  return BitVec.ofNat 64 value

/-- `Option<T>`: a flag, then the value. -/
def option {α : Type} (value : Deserialize α) : Deserialize (Option α) := do
  let flag ← uint 1
  if flag = 0 then return none
  else if flag = 1 then do
    let inner ← value
    return some inner
  else fun buf => .error buf

/-- `Vec<T>`: the number of elements, then each. -/
def vec {α : Type} (element : Deserialize α) : Deserialize (List α) := do
  let count ← uint 4
  Decoder.times count element

/-- `Vec<u8>`. -/
def bytes : Deserialize Bytes := do
  let count ← uint 4
  let body ← fixed count
  return body.toList

def serializeOption {α : Type} (serialize : α → Bytes) : Option α → Bytes
  | none => [0]
  | some value => 1 :: serialize value

def serializeVec {α : Type} (serialize : α → Bytes) (values : List α) : Bytes :=
  leBytes 4 values.length ++ values.flatMap serialize

def serializeBytes (body : Bytes) : Bytes := leBytes 4 body.length ++ body

theorem fixed_reads {width : Nat} (value : FixedBytes width) : (fixed width).Reads value.toList value := by
  intro rest
  have front : (value.toList ++ rest).take width = value.toList := List.take_left' (by simp)
  have back : (value.toList ++ rest).drop width = rest := List.drop_left' (by simp)
  simp only [fixed, front, back]
  rw [dif_pos (by simp)]
  rfl

theorem uint_reads {width value : Nat} (small : value < 256 ^ width) :
    (uint width).Reads (leBytes width value) value := by
  have read := (fixed_reads (⟨leBytes width value, by simp⟩ : FixedBytes width)).map
    fun raw => leNat raw.toList
  simp only [List.Vector.toList_mk, leNat_leBytes width value small] at read
  exact read

theorem u64_reads (value : BitVec 64) : u64.Reads (leBytes 8 value.toNat) value := by
  have read := (uint_reads (show value.toNat < 256 ^ 8 from value.isLt)).map (BitVec.ofNat 64)
  simp only [BitVec.ofNat_toNat, BitVec.setWidth_eq] at read
  exact read

theorem option_reads {α : Type} {deserialize : Deserialize α} {serialize : α → Bytes}
    (value : Option α) (each : ∀ inner ∈ value, deserialize.Reads (serialize inner) inner) :
    (option deserialize).Reads (serializeOption serialize value) value := by
  cases value with
  | none => exact (uint_reads (show 0 < 256 ^ 1 by decide)).bind (.pure none)
  | some inner =>
    have later := (each inner rfl).map some
    exact (uint_reads (show 1 < 256 ^ 1 by decide)).bind later

theorem vec_reads {α : Type} {deserialize : Deserialize α} {serialize : α → Bytes} {values : List α}
    (few : values.length < 2 ^ 32)
    (each : ∀ value ∈ values, deserialize.Reads (serialize value) value) :
    (vec deserialize).Reads (serializeVec serialize values) values :=
  (uint_reads (show values.length < 256 ^ 4 from few)).bind (.times values each)

theorem bytes_reads {body : Bytes} (short : body.length < 2 ^ 32) :
    bytes.Reads (serializeBytes body) body :=
  (uint_reads (show body.length < 256 ^ 4 from short)).bind
    ((fixed_reads (⟨body, rfl⟩ : FixedBytes body.length)).map List.Vector.toList)

/-- The slice that a deserializer leaves, successful or not. -/
def left {α : Type} : Except Bytes (α × Bytes) → Bytes
  | .ok (_, buf) => buf
  | .error buf => buf

/-- A deserializer never moves the slice back. -/
def Advances {α : Type} (deserialize : Deserialize α) : Prop :=
  ∀ buf, (left (deserialize buf)).length ≤ buf.length

theorem Advances.pure {α : Type} (value : α) : Advances (Pure.pure value) :=
  fun _ => Nat.le_refl _

theorem Advances.bind {α β : Type} {first : Deserialize α} {next : α → Deserialize β}
    (here : Advances first) (later : ∀ value, Advances (next value)) : Advances (first >>= next) := by
  intro buf
  have moved := here buf
  change (left (first buf >>= fun pair => next pair.1 pair.2)).length ≤ _
  cases step : first buf with
  | error stopped =>
    rw [step] at moved
    exact moved
  | ok pair =>
    simp only [left, step] at moved
    exact Nat.le_trans (later pair.1 pair.2) moved

theorem fixed_advances (width : Nat) : Advances (fixed width) := by
  intro buf
  unfold fixed
  split <;> simp [left]

theorem uint_advances (width : Nat) : Advances (uint width) :=
  (fixed_advances width).bind fun _ => .pure _

theorem u64_advances : Advances u64 := (uint_advances 8).bind fun _ => .pure _

theorem option_advances {α : Type} {value : Deserialize α} (inner : Advances value) :
    Advances (option value) := by
  refine (uint_advances 1).bind fun flag => ?_
  split
  · exact .pure none
  · split
    · exact inner.bind fun _ => .pure _
    · exact fun _ => Nat.le_refl _

theorem fixed_length {width : Nat} {buf rest : Bytes} {value : FixedBytes width}
    (success : fixed width buf = .ok (value, rest)) : buf.length = width + rest.length := by
  unfold fixed at success
  split at success
  · cases success
    rw [List.length_drop]
    omega
  · cases success

theorem uint_length {width value : Nat} {buf rest : Bytes}
    (success : uint width buf = .ok (value, rest)) : buf.length = width + rest.length := by
  obtain ⟨raw, middle, read, last⟩ := Decoder.bind_eq_ok.mp success
  obtain ⟨-, rfl⟩ := Decoder.pure_eq_ok.mp last
  exact fixed_length read

theorem u64_length {value : BitVec 64} {buf rest : Bytes} (success : u64 buf = .ok (value, rest)) :
    buf.length = 8 + rest.length := by
  obtain ⟨raw, middle, read, last⟩ := Decoder.bind_eq_ok.mp success
  obtain ⟨-, rfl⟩ := Decoder.pure_eq_ok.mp last
  exact uint_length read

/-- An optional hash takes its flag alone or the flag and all of the hash. -/
theorem option_length {width : Nat} {value : Option (FixedBytes width)} {buf rest : Bytes}
    (success : option (fixed width) buf = .ok (value, rest)) :
    buf.length = 1 + rest.length ∨ buf.length = 1 + width + rest.length := by
  obtain ⟨flag, middle, read, last⟩ := Decoder.bind_eq_ok.mp success
  have start := uint_length read
  split at last
  · obtain ⟨-, rfl⟩ := Decoder.pure_eq_ok.mp last
    exact .inl start
  · split at last
    · obtain ⟨inner, _, body, done⟩ := Decoder.bind_eq_ok.mp last
      obtain ⟨-, rfl⟩ := Decoder.pure_eq_ok.mp done
      have hashed := fixed_length body
      exact .inr (by omega)
    · cases last

end RainbowBridge.Near.Borsh
