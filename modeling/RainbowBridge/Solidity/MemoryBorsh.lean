import RainbowBridge.Solidity.Borsh
import RainbowBridge.Solidity.Utils

/-! `Borsh.sol` over memory. Every read loads a whole word, which may reach past the
input, and `decodeBytes` copies whole words. What the operations return and whether
they revert is nevertheless said by the bytes of the input alone, and it is what the
decoders over lists of bytes say. -/

namespace RainbowBridge.Solidity.MemoryBorsh

open Lib Lib.Stateful Utils
open Borsh (unexpectedEnd endExpected invalidBool)

/-- `Borsh.Data`, a struct that Solidity keeps apart. -/
structure Data where
  ptr : Nat
  /-- `end`. -/
  stop : Nat

structure State where
  memory : Memory
  data : Data

/-- Why there is no result: the call reverted, or it ran out of gas over memory that none
can pay for, or a loop does not end. -/
inductive Halt where
  | revert (error : Revert)
  | outOfGas
  | endless
  deriving DecidableEq

abbrev Call (α : Type) := StateT State (Except Halt) α

/-- `from(data)`, for a `bytes memory` at an address. -/
def fromMemory (memory : Memory) (data : Nat) : State :=
  let ptr := uncheckedAdd data 32
  ⟨memory, ptr, uncheckedAdd ptr (readMemory memory data)⟩

def requireSpace (length : Nat) : Call Unit := fun state =>
  if uncheckedAdd state.data.ptr length ≤ state.data.stop then .ok ((), state)
  else .error (.revert unexpectedEnd)

/-- `data.ptr += length`. -/
def advance (length : Nat) : Call Unit := fun state =>
  .ok ((), { state with data := { state.data with ptr := uncheckedAdd state.data.ptr length } })

/-- `Utils.readMemory(data.ptr)`. -/
def load : Call Nat := fun state => .ok (readMemory state.memory state.data.ptr, state)

def read (length : Nat) : Call Nat := do
  requireSpace length
  let res ← load
  advance length
  return res

def done : Call Unit := fun state =>
  if state.data.ptr = state.data.stop then .ok ((), state) else .error (.revert endExpected)

section

variable [Hashing]

/-- `Utils.keccak256Raw(data.ptr, length)`. -/
def hashKeccak256 (length : Nat) : Call Bytes32 := fun state =>
  match keccak256Raw state.memory state.data.ptr length with
  | some res => .ok (res, state)
  | none => .error .outOfGas

def peekKeccak256 (length : Nat) : Call Bytes32 := do
  requireSpace length
  hashKeccak256 length

/-- `Utils.sha256Raw(data.ptr, length)`. -/
def hashSha256 (length : Nat) : Call Nat := fun state =>
  match sha256Raw state.memory state.data.ptr length with
  | some (res, memory) => .ok (res, { state with memory := memory })
  | none => .error .outOfGas

def peekSha256 (length : Nat) : Call Nat := do
  requireSpace length
  hashSha256 length

end

/-- `uintN(bytesN(word))`: the first bytes of a word. -/
def high (count word : Nat) : Nat := word / 256 ^ (32 - count)

def decodeU8 : Call Nat := do return high 1 (← read 1)

def decodeU16 : Call Nat := do return (swapBytes2 (BitVec.ofNat 16 (high 2 (← read 2)))).toNat

def decodeU32 : Call Nat := do return (swapBytes4 (BitVec.ofNat 32 (high 4 (← read 4)))).toNat

def decodeU64 : Call Nat := do return (swapBytes8 (BitVec.ofNat 64 (high 8 (← read 8)))).toNat

def decodeU128 : Call Nat := do return (swapBytes16 (BitVec.ofNat 128 (high 16 (← read 16)))).toNat

def decodeU256 : Call Nat := do return (swapBytes32 (BitVec.ofNat 256 (← read 32))).toNat

def decodeBytes20 : Call Bytes := do return beBytes 20 (high 20 (← read 20))

def decodeBytes32 : Call Bytes := do return beBytes 32 (← read 32)

def decodeBool : Call Bool := do
  let res ← decodeU8
  if res ≤ 1 then return res != 0 else fun _ => .error (.revert invalidBool)

def skipBytes : Call Unit := do
  let length ← decodeU32
  requireSpace length
  advance length

/-- `Utils.memoryToBytes(data.ptr, length)`. -/
def copy (length : Nat) : Call Nat := fun state =>
  match memoryToBytes state.memory state.data.ptr length with
  | some (res, memory) => .ok (res, { state with memory := memory })
  | none => .error .endless

/-- The address of the bytes that are returned. -/
def decodeBytes : Call Nat := do
  let length ← decodeU32
  requireSpace length
  let res ← copy length
  advance length
  return res

inductive Operation where
  | decodeU8
  | decodeU16
  | decodeU32
  | decodeU64
  | decodeU128
  | decodeU256
  | decodeBytes20
  | decodeBytes32
  | decodeBool
  | skipBytes
  | decodeBytes
  | peekKeccak256 (length : Nat)
  | peekSha256 (length : Nat)
  | done

/-- What an operation returns: an integer, a word of fixed length, a truth value, the
content of a `bytes memory`, or nothing. -/
inductive Value where
  | uint (value : Nat)
  | word (data : Bytes)
  | bool (value : Bool)
  | bytes (content : Bytes)
  | none
  deriving DecidableEq

variable [Hashing]

def Operation.call : Operation → Call Value
  | .decodeU8 => do return .uint (← MemoryBorsh.decodeU8)
  | .decodeU16 => do return .uint (← MemoryBorsh.decodeU16)
  | .decodeU32 => do return .uint (← MemoryBorsh.decodeU32)
  | .decodeU64 => do return .uint (← MemoryBorsh.decodeU64)
  | .decodeU128 => do return .uint (← MemoryBorsh.decodeU128)
  | .decodeU256 => do return .uint (← MemoryBorsh.decodeU256)
  | .decodeBytes20 => do return .word (← MemoryBorsh.decodeBytes20)
  | .decodeBytes32 => do return .word (← MemoryBorsh.decodeBytes32)
  | .decodeBool => do return .bool (← MemoryBorsh.decodeBool)
  | .skipBytes => do
    MemoryBorsh.skipBytes
    return .none
  | .decodeBytes => do
    let res ← MemoryBorsh.decodeBytes
    let state ← get
    return .bytes (bytesAt state.memory res)
  | .peekKeccak256 length => do return .word (← MemoryBorsh.peekKeccak256 length).toList
  | .peekSha256 length => do return .word (beBytes 32 (← MemoryBorsh.peekSha256 length))
  | .done => do
    MemoryBorsh.done
    return .none

structure Run where
  values : List Value
  last : State
  halted : Option Halt

/-- Operations one after the other, up to the first that halts. -/
def run : List Operation → State → Run
  | [], state => ⟨[], state, none⟩
  | operation :: operations, state =>
    match operation.call state with
    | .error halt => ⟨[], state, some halt⟩
    | .ok (value, next) =>
      let rest := run operations next
      { rest with values := value :: rest.values }

/-! What the bytes that are left say of an operation. -/

namespace Operation

/-- The number of bytes that an operation needs. -/
def needs (remaining : Bytes) : Operation → Nat
  | decodeU8 => 1
  | decodeU16 => 2
  | decodeU32 => 4
  | decodeU64 => 8
  | decodeU128 => 16
  | decodeU256 => 32
  | decodeBytes20 => 20
  | decodeBytes32 => 32
  | decodeBool => 1
  | skipBytes => if remaining.length < 4 then 4 else 4 + leNat (remaining.take 4)
  | decodeBytes => if remaining.length < 4 then 4 else 4 + leNat (remaining.take 4)
  | peekKeccak256 length => length
  | peekSha256 length => length
  | done => 0

/-- The number of bytes that an operation consumes. -/
def consumes (remaining : Bytes) : Operation → Nat
  | peekKeccak256 _ => 0
  | peekSha256 _ => 0
  | operation => operation.needs remaining

/-- Why an operation reverts although there are the bytes that it needs: a bool that is
neither 0 nor 1, or bytes that are left at the end. -/
def refusal (remaining : Bytes) : Operation → Option Revert
  | decodeBool => if 1 < remaining.headD 0 then some invalidBool else Option.none
  | done => if remaining ≠ [] then some endExpected else Option.none
  | _ => Option.none

def value (remaining : Bytes) : Operation → Value
  | decodeU8 => .uint (leNat (remaining.take 1))
  | decodeU16 => .uint (leNat (remaining.take 2))
  | decodeU32 => .uint (leNat (remaining.take 4))
  | decodeU64 => .uint (leNat (remaining.take 8))
  | decodeU128 => .uint (leNat (remaining.take 16))
  | decodeU256 => .uint (leNat (remaining.take 32))
  | decodeBytes20 => .word (remaining.take 20)
  | decodeBytes32 => .word (remaining.take 32)
  | decodeBool => .bool (remaining.headD 0 != 0)
  | skipBytes => .none
  | decodeBytes => .bytes ((remaining.drop 4).take (leNat (remaining.take 4)))
  | peekKeccak256 length => .word (keccak256 (remaining.take length)).toList
  | peekSha256 length => .word (sha256 (remaining.take length)).toList
  | done => .none

end Operation

/-- What a sequence of operations gives: the values, the number of consumed bytes, and why
it reverted. -/
structure Outcome where
  values : List Value
  consumed : Nat
  reverted : Option Revert

/-- The outcome that the bytes of the input say. -/
def outcome : List Operation → Bytes → Outcome
  | [], _ => ⟨[], 0, none⟩
  | operation :: operations, remaining =>
    if remaining.length < operation.needs remaining then ⟨[], 0, some unexpectedEnd⟩
    else
      match operation.refusal remaining with
      | some error => ⟨[], 0, some error⟩
      | none =>
        let consumed := operation.consumes remaining
        let rest := outcome operations (remaining.drop consumed)
        ⟨operation.value remaining :: rest.values, consumed + rest.consumed, rest.reverted⟩

/-- A call ends with a revert, or without gas where too few bytes are left: a length that
makes the sum with the cursor wrap gets past the check, and then none can pay for it. -/
def Halt.Means : Halt → Revert → Prop
  | .revert error, expected => error = expected
  | .outOfGas, expected => expected = unexpectedEnd
  | .endless, _ => False

omit [Hashing] in
theorem Halt.means_revert (error : Revert) : (Halt.revert error).Means error := rfl

omit [Hashing] in
theorem Halt.means_outOfGas : Halt.outOfGas.Means unexpectedEnd := rfl

/-- The bytes that are left lie at the cursor, below the free memory, of which there is
enough for copies of them. -/
structure Placed (remaining : Bytes) (state : State) : Prop where
  content : state.memory.slice state.data.ptr remaining.length = remaining
  stop : state.data.stop = state.data.ptr + remaining.length
  short : remaining.length < 2 ^ 32
  above : 0x80 ≤ state.data.ptr
  below : state.data.stop ≤ state.memory.mload freeMemoryPointer
  room : state.memory.mload freeMemoryPointer + 16 * remaining.length ≤ 2 ^ 65
  zeros : state.memory.mload zeroSlot = 0

/-- A byte string in memory as Solidity lays it out: its length and then its bytes, above
the reserved slots and below the free memory, which Solidity does not let grow further
than `2 ^ 64`. -/
structure Allocated (data : Bytes) (memory : Memory) (pointer : Nat) : Prop where
  short : data.length < 2 ^ 32
  length : memory.mload pointer = data.length
  content : memory.slice (pointer + 32) data.length = data
  above : zeroSlot ≤ pointer
  below : pointer + 32 + data.length ≤ memory.mload freeMemoryPointer
  limit : memory.mload freeMemoryPointer < 2 ^ 64
  zeros : memory.mload zeroSlot = 0

omit [Hashing] in
theorem Allocated.placed {data : Bytes} {memory : Memory} {pointer : Nat}
    (allocated : Allocated data memory pointer) : Placed data (fromMemory memory pointer) ∧
      (fromMemory memory pointer).data = ⟨pointer + 32, pointer + 32 + data.length⟩ := by
  have short := allocated.short
  have below := allocated.below
  have limit := allocated.limit
  have start : uncheckedAdd pointer 32 = pointer + 32 := Nat.mod_eq_of_lt (by omega)
  have stop : uncheckedAdd (pointer + 32) data.length = pointer + 32 + data.length :=
    Nat.mod_eq_of_lt (by omega)
  have cursor : fromMemory memory pointer = ⟨memory, pointer + 32, pointer + 32 + data.length⟩ := by
    rw [fromMemory, start, readMemory, allocated.length, stop]
  rw [cursor]
  refine ⟨⟨allocated.content, rfl, short, ?_, below, ?_, allocated.zeros⟩, rfl⟩
  · have above : 0x60 ≤ pointer := allocated.above
    show 0x80 ≤ pointer + 32
    omega
  · show memory.mload freeMemoryPointer + 16 * data.length ≤ 2 ^ 65
    omega

section Calls

variable {state : State} {remaining : Bytes} {length : Nat}

/-- The cursor moved on, the memory as it was. -/
def State.moved (state : State) (length : Nat) : State :=
  { state with data := { state.data with ptr := state.data.ptr + length } }

omit [Hashing] in
theorem Placed.moved (placed : Placed remaining state) (fits : length ≤ remaining.length) :
    Placed (remaining.drop length) (state.moved length) := by
  have stop := placed.stop
  have room := placed.room
  have short := placed.short
  have above := placed.above
  have rest : (remaining.drop length).length = remaining.length - length := List.length_drop
  refine ⟨?_, ?_, by omega, ?_, placed.below, ?_, placed.zeros⟩
  · rw [rest, State.moved, Memory.slice_drop fits, placed.content]
  · rw [rest, State.moved]
    show state.data.stop = state.data.ptr + length + (remaining.length - length)
    omega
  · show 0x80 ≤ state.data.ptr + length
    omega
  · show state.memory.mload freeMemoryPointer + 16 * (remaining.drop length).length ≤ 2 ^ 65
    omega

omit [Hashing] in
theorem Placed.bounded (placed : Placed remaining state) : state.data.ptr + remaining.length ≤ 2 ^ 65 := by
  have stop := placed.stop
  have below := placed.below
  have room := placed.room
  omega

omit [Hashing] in
theorem Placed.uncheckedAdd (placed : Placed remaining state) (reasonable : length < 2 ^ 255) :
    Solidity.uncheckedAdd state.data.ptr length = state.data.ptr + length := by
  have bounded := placed.bounded
  exact Nat.mod_eq_of_lt (by omega)

omit [Hashing] in
theorem requireSpace_of_le (placed : Placed remaining state) (fits : length ≤ remaining.length) :
    requireSpace length state = .ok ((), state) := by
  have short := placed.short
  have stop := placed.stop
  rw [requireSpace, placed.uncheckedAdd (by omega)]
  exact if_pos (by omega)

omit [Hashing] in
theorem requireSpace_of_lt (placed : Placed remaining state) (reasonable : length < 2 ^ 255)
    (short : remaining.length < length) : requireSpace length state = .error (.revert unexpectedEnd) := by
  have stop := placed.stop
  rw [requireSpace, placed.uncheckedAdd reasonable]
  exact if_neg (by omega)

omit [Hashing] in
theorem advance_eq (fits : state.data.ptr + length < 2 ^ 256) :
    advance length state = .ok ((), state.moved length) := by
  rw [advance, Solidity.uncheckedAdd, Nat.mod_eq_of_lt fits]
  rfl

omit [Hashing] in
theorem Placed.inside (placed : Placed remaining state) (fits : length ≤ remaining.length) :
    state.data.ptr + length < 2 ^ 256 := by
  have bounded := placed.bounded
  omega

omit [Hashing] in
/-- A read returns the word at the cursor, and its first bytes are those of the input. -/
theorem read_of_le (placed : Placed remaining state) (fits : length ≤ remaining.length) :
    read length state = .ok (state.memory.mload state.data.ptr, state.moved length) := by
  have loaded : load state = .ok (state.memory.mload state.data.ptr, state) := rfl
  rw [read, bind_of_ok (requireSpace_of_le placed fits), bind_of_ok loaded, bind_of_ok (advance_eq (placed.inside fits))]
  rfl

omit [Hashing] in
theorem read_of_lt (placed : Placed remaining state) (reasonable : length < 2 ^ 255)
    (short : remaining.length < length) : read length state = .error (.revert unexpectedEnd) :=
  bind_of_error (requireSpace_of_lt placed reasonable short)

omit [Hashing] in
theorem high_mload (placed : Placed remaining state) (fits : length ≤ remaining.length) (word : length ≤ 32) :
    high length (state.memory.mload state.data.ptr) = beNat (remaining.take length) := by
  rw [high, Memory.mload_div _ _ word, Memory.slice_of_le fits, placed.content]

omit [Hashing] in
/-- A memory that has changed in the scratch space and in the free memory only. -/
theorem Placed.of_same {later : Memory} (placed : Placed remaining state)
    (same : ∀ other < state.memory.mload freeMemoryPointer, 0x60 ≤ other → later other = state.memory other)
    (grown : state.memory.mload freeMemoryPointer ≤ later.mload freeMemoryPointer)
    (room : later.mload freeMemoryPointer + 16 * remaining.length ≤ 2 ^ 65) :
    Placed remaining { state with memory := later } := by
  have stop := placed.stop
  have above := placed.above
  have below := placed.below
  refine ⟨?_, placed.stop, placed.short, placed.above, below.trans grown, room, ?_⟩
  · rw [Memory.slice_congr fun i inside => same (state.data.ptr + i) (by omega) (by omega)]
    exact placed.content
  · rw [Memory.mload_congr fun i inside => same (zeroSlot + i)
      (by simp only [zeroSlot]; omega) (by simp only [zeroSlot]; omega)]
    exact placed.zeros

omit [Hashing] in
/-- A length that is too large gets past the check if the sum wraps, and costs too much. -/
theorem requireSpace_of_missing (placed : Placed remaining state) (short : remaining.length < length) :
    requireSpace length state = .error (.revert unexpectedEnd) ∨
      requireSpace length state = .ok ((), state) ∧ ¬ Payable state.data.ptr length := by
  by_cases reasonable : length < 2 ^ 255
  · exact .inl (requireSpace_of_lt placed reasonable short)
  · have unpaid : ¬ Payable state.data.ptr length := by
      rw [Payable, memoryLimit]
      omega
    by_cases wraps : Solidity.uncheckedAdd state.data.ptr length ≤ state.data.stop
    · exact .inr ⟨if_pos wraps, unpaid⟩
    · exact .inl (if_neg wraps)

omit [Hashing] in
theorem Placed.payable (placed : Placed remaining state) (fits : length ≤ remaining.length) :
    Payable state.data.ptr length := by
  have bounded := placed.bounded
  refine .inr ?_
  rw [memoryLimit]
  omega

theorem hashKeccak256_eq (placed : Placed remaining state) (fits : length ≤ remaining.length) :
    hashKeccak256 length state = .ok (keccak256 (remaining.take length), state) := by
  rw [hashKeccak256, keccak256Raw, if_pos (placed.payable fits), Memory.slice_of_le fits, placed.content]

/-- The hash replaces what lay in the scratch space. -/
theorem hashSha256_eq (placed : Placed remaining state) (fits : length ≤ remaining.length) :
    ∃ memory, hashSha256 length state =
        .ok (beNat (sha256 (remaining.take length)).toList, { state with memory := memory }) ∧
      Placed remaining { state with memory := memory } := by
  have hashed : state.memory.slice state.data.ptr length = remaining.take length := by
    rw [Memory.slice_of_le fits, placed.content]
  have digest := beNat_lt (sha256 (remaining.take length)).toList
  rw [List.Vector.toList_length] at digest
  have pointer : (state.memory.mstore 0 (beNat (sha256 (remaining.take length)).toList)).mload freeMemoryPointer =
      state.memory.mload freeMemoryPointer :=
    Memory.mload_congr fun i inside => Memory.mstore_of_outside (.inr (by simp only [freeMemoryPointer]; omega))
  refine ⟨state.memory.mstore 0 (beNat (sha256 (remaining.take length)).toList), ?_, placed.of_same ?_ ?_ ?_⟩
  · rw [hashSha256, sha256Raw, if_pos (placed.payable fits), hashed]
    simp only [Memory.mload_mstore digest]
  · exact fun other _ high => Memory.mstore_of_outside (.inr (by omega))
  · exact pointer.ge
  · exact pointer ▸ placed.room

omit [Hashing] in
/-- The copy takes free memory, of which there are sixteen bytes for each that is read. -/
theorem copy_eq (placed : Placed remaining state) (fits : length ≤ remaining.length)
    (spare : state.memory.mload freeMemoryPointer + 16 * remaining.length + 64 ≤ 2 ^ 65) :
    ∃ res memory, copy length state = .ok (res, { state with memory := memory }) ∧
      bytesAt memory res = remaining.take length ∧
      Placed (remaining.drop length) (State.moved { state with memory := memory } length) := by
  have stop := placed.stop
  have above := placed.above
  have below := placed.below
  have rest : (remaining.drop length).length = remaining.length - length := List.length_drop
  obtain ⟨res, memory, made, content, same, grown, bound⟩ := memoryToBytes_eq
    (show 0x60 ≤ state.data.ptr by omega) (by omega)
    (show state.data.ptr + length ≤ state.memory.mload freeMemoryPointer by omega) (by omega) placed.zeros
  refine ⟨res, memory, ?_, ?_, ?_⟩
  · rw [copy, made]
  · rw [content, Memory.slice_of_le fits, placed.content]
  · apply (placed.moved fits).of_same same grown
    omega

end Calls

end RainbowBridge.Solidity.MemoryBorsh
