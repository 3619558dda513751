import RainbowBridge.Solidity.MemoryBorsh

/-! Decoding from memory sees the input and nothing else. What each operation does is said
by the bytes that are left of the input, and so is what a sequence of them does, whatever
lies before and after the input. It is also what the decoders over lists do. -/

namespace RainbowBridge.Solidity.MemoryBorsh

open Lib Lib.Stateful Utils
open Borsh (unexpectedEnd endExpected invalidBool)

variable [Hashing]

/-- An operation does what the bytes that are left say. -/
inductive Behaves (operation : Operation) (remaining : Bytes) (state : State) : Prop
  | short {halt : Halt} (missing : remaining.length < operation.needs remaining)
    (means : halt.Means unexpectedEnd) (halts : operation.call state = .error halt)
  | refused {error : Revert} (enough : operation.needs remaining ≤ remaining.length)
    (refusal : operation.refusal remaining = some error)
    (reverts : operation.call state = .error (.revert error))
  | answered {next : State} (enough : operation.needs remaining ≤ remaining.length)
    (accepted : operation.refusal remaining = none)
    (answers : operation.call state = .ok (operation.value remaining, next))
    (placed : Placed (remaining.drop (operation.consumes remaining)) next)
    (cursor : next.data = ⟨state.data.ptr + operation.consumes remaining, state.data.stop⟩)

section Operations

variable {operation : Operation} {remaining : Bytes} {state : State}

/-- An operation that reads a fixed number of bytes. -/
theorem behaves_of_read (placed : Placed remaining state) (count : Nat) (result : Nat → Value)
    (call : operation.call = result <$> read count) (needs : operation.needs remaining = count)
    (consumes : operation.consumes remaining = count) (accepted : operation.refusal remaining = none)
    (word : count ≤ 32) (value : count ≤ remaining.length →
      result (state.memory.mload state.data.ptr) = operation.value remaining) :
    Behaves operation remaining state := by
  by_cases fits : count ≤ remaining.length
  · have answers : operation.call state = .ok (operation.value remaining, state.moved count) := by
      rw [call, map_of_ok (read_of_le placed fits), value fits]
    have moved := placed.moved fits
    rw [← consumes] at moved
    exact .answered (by omega) accepted answers (consumes ▸ moved) (by rw [consumes]; rfl)
  · exact .short (by omega) (Halt.means_revert _) (call ▸ map_of_error (read_of_lt placed (by omega) (by omega)) result)

omit [Hashing] in
theorem toNat_high {w count : Nat} (placed : Placed remaining state) (fits : count ≤ remaining.length)
    (word : count ≤ 32) (width : w = 8 * count) :
    (BitVec.ofNat w (high count (state.memory.mload state.data.ptr))).toNat = beNat (remaining.take count) := by
  have bound := beNat_lt (remaining.take count)
  rw [List.length_take_of_le fits] at bound
  have power : 256 ^ count = 2 ^ w := by rw [width, Nat.pow_mul]
  rw [high_mload placed fits word, BitVec.toNat_ofNat, Nat.mod_eq_of_lt (power ▸ bound)]

omit [Hashing] in
/-- One byte is the same number either way. -/
theorem high_one (placed : Placed remaining state) (fits : 1 ≤ remaining.length) :
    high 1 (state.memory.mload state.data.ptr) = leNat (remaining.take 1) := by
  obtain ⟨byte, one⟩ := List.length_eq_one_iff.mp (List.length_take_of_le fits)
  rw [high_mload placed fits (by decide), one]
  simp [beNat, leNat]

omit [Hashing] in
theorem high_all (word : Nat) : high 32 word = word := Nat.div_one word

theorem behaves_decodeU8 (placed : Placed remaining state) : Behaves .decodeU8 remaining state := by
  apply behaves_of_read placed 1 fun word => .uint (high 1 word)
  case call => simp [Operation.call, decodeU8]
  case needs => rfl
  case consumes => rfl
  case accepted => rfl
  case word => decide
  case value =>
    intro fits
    exact congrArg Value.uint (high_one placed fits)

/-- An integer of several bytes, which are exchanged. -/
theorem behaves_of_swap (placed : Placed remaining state) {count w : Nat} (swap : BitVec w → BitVec w)
    (swaps : ∀ {data : Bytes} {v : BitVec w}, data.length = count → v.toNat = beNat data →
      (swap v).toNat = leNat data)
    (width : w = 8 * count) (word : count ≤ 32)
    (call : operation.call = (fun word => .uint (swap (BitVec.ofNat w (high count word))).toNat) <$> read count)
    (needs : operation.needs remaining = count) (consumes : operation.consumes remaining = count)
    (accepted : operation.refusal remaining = none)
    (value : operation.value remaining = .uint (leNat (remaining.take count))) :
    Behaves operation remaining state := by
  apply behaves_of_read placed count _ call needs consumes accepted word
  intro fits
  rw [value]
  exact congrArg Value.uint (swaps (List.length_take_of_le fits) (toNat_high placed fits word width))

theorem behaves_decodeU16 (placed : Placed remaining state) : Behaves .decodeU16 remaining state :=
  behaves_of_swap placed swapBytes2 toNat_swapBytes2 rfl (by decide) (by simp [Operation.call, decodeU16])
    rfl rfl rfl rfl

theorem behaves_decodeU32 (placed : Placed remaining state) : Behaves .decodeU32 remaining state :=
  behaves_of_swap placed swapBytes4 toNat_swapBytes4 rfl (by decide) (by simp [Operation.call, decodeU32])
    rfl rfl rfl rfl

theorem behaves_decodeU64 (placed : Placed remaining state) : Behaves .decodeU64 remaining state :=
  behaves_of_swap placed swapBytes8 toNat_swapBytes8 rfl (by decide) (by simp [Operation.call, decodeU64])
    rfl rfl rfl rfl

theorem behaves_decodeU128 (placed : Placed remaining state) : Behaves .decodeU128 remaining state :=
  behaves_of_swap placed swapBytes16 toNat_swapBytes16 rfl (by decide) (by simp [Operation.call, decodeU128])
    rfl rfl rfl rfl

theorem behaves_decodeU256 (placed : Placed remaining state) : Behaves .decodeU256 remaining state :=
  behaves_of_swap placed swapBytes32 toNat_swapBytes32 rfl (by decide)
    (by simp [Operation.call, decodeU256, high_all]) rfl rfl rfl rfl

theorem behaves_decodeBytes20 (placed : Placed remaining state) : Behaves .decodeBytes20 remaining state := by
  apply behaves_of_read placed 20 fun word => .word (beBytes 20 (high 20 word))
  case call => simp [Operation.call, decodeBytes20]
  case needs => rfl
  case consumes => rfl
  case accepted => rfl
  case word => decide
  case value =>
    intro fits
    have bytes := beBytes_beNat (remaining.take 20)
    rw [List.length_take_of_le fits, ← high_mload placed fits (by decide)] at bytes
    exact congrArg Value.word bytes

theorem behaves_decodeBytes32 (placed : Placed remaining state) : Behaves .decodeBytes32 remaining state := by
  apply behaves_of_read placed 32 fun word => .word (beBytes 32 word)
  case call => simp [Operation.call, decodeBytes32]
  case needs => rfl
  case consumes => rfl
  case accepted => rfl
  case word => decide
  case value =>
    intro fits
    have bytes := beBytes_beNat (remaining.take 32)
    rw [List.length_take_of_le fits, ← high_mload placed fits (by decide), high_all] at bytes
    exact congrArg Value.word bytes

omit [Hashing] in
theorem decodeU32_of_le (placed : Placed remaining state) (fits : 4 ≤ remaining.length) :
    decodeU32 state = .ok (leNat (remaining.take 4), state.moved 4) := by
  have value := toNat_swapBytes4 (List.length_take_of_le fits) (toNat_high placed fits (by decide) rfl)
  rw [decodeU32, bind_of_ok (read_of_le placed fits), value]
  rfl

omit [Hashing] in
theorem decodeU32_of_lt (placed : Placed remaining state) (short : remaining.length < 4) :
    decodeU32 state = .error (.revert unexpectedEnd) :=
  bind_of_error (read_of_lt placed (by omega) short)

omit [Hashing] in
/-- A length of four bytes is below the limit of a space that can be required. -/
theorem leNat_take_lt (fits : 4 ≤ remaining.length) : leNat (remaining.take 4) < 2 ^ 32 := by
  have bound := leNat_lt (remaining.take 4)
  rwa [List.length_take_of_le fits] at bound

/-- An operation that reads a length of four bytes and then uses as many bytes. -/
theorem behaves_of_length (placed : Placed remaining state) (rest : Nat → Call Value)
    (call : operation.call = decodeU32 >>= fun length => requireSpace length >>= fun _ => rest length)
    (needs : operation.needs remaining = if remaining.length < 4 then 4 else 4 + leNat (remaining.take 4))
    (consumes : operation.consumes remaining = operation.needs remaining)
    (accepted : operation.refusal remaining = none)
    (uses : ∀ length, length = leNat (remaining.take 4) → 4 + length ≤ remaining.length →
      ∃ next, rest length (state.moved 4) = .ok (operation.value remaining, next) ∧
        Placed ((remaining.drop 4).drop length) next ∧
        next.data = ⟨state.data.ptr + 4 + length, state.data.stop⟩) :
    Behaves operation remaining state := by
  by_cases counted : remaining.length < 4
  · have reverts : operation.call state = .error (.revert unexpectedEnd) :=
      call ▸ bind_of_error (decodeU32_of_lt placed counted)
    rw [if_pos counted] at needs
    exact .short (needs ▸ counted) (Halt.means_revert _) reverts
  · rw [if_neg counted] at needs
    have header : 4 ≤ remaining.length := by omega
    have small := leNat_take_lt header
    have middle := placed.moved header
    have left : (remaining.drop 4).length = remaining.length - 4 := List.length_drop
    by_cases fits : leNat (remaining.take 4) ≤ (remaining.drop 4).length
    · obtain ⟨next, used, left, cursor⟩ := uses _ rfl (by omega)
      have answers : operation.call state = .ok (operation.value remaining, next) := by
        rw [call, bind_of_ok (decodeU32_of_le placed header), bind_of_ok (requireSpace_of_le middle fits), used]
      rw [List.drop_drop, ← needs, ← consumes] at left
      rw [Nat.add_assoc, ← needs, ← consumes] at cursor
      exact .answered (by omega) accepted answers left cursor
    · have reverts : operation.call state = .error (.revert unexpectedEnd) := by
        rw [call, bind_of_ok (decodeU32_of_le placed header)]
        exact bind_of_error (requireSpace_of_lt middle (by omega) (by omega))
      exact .short (by omega) (Halt.means_revert _) reverts

theorem behaves_skipBytes (placed : Placed remaining state) : Behaves .skipBytes remaining state := by
  apply behaves_of_length placed fun length => advance length >>= fun _ => pure .none
  case call => simp [Operation.call, skipBytes]
  case needs => rfl
  case consumes => rfl
  case accepted => rfl
  case uses =>
    intro length _ fits
    have inside : length ≤ (remaining.drop 4).length := by
      rw [List.length_drop]
      omega
    have middle := placed.moved (by omega : 4 ≤ remaining.length)
    refine ⟨_, ?_, middle.moved inside, rfl⟩
    rw [bind_of_ok (advance_eq (middle.inside inside))]
    rfl

theorem behaves_decodeBytes (placed : Placed remaining state) : Behaves .decodeBytes remaining state := by
  apply behaves_of_length placed fun length => do
    let res ← copy length
    advance length
    let state ← get
    return .bytes (bytesAt state.memory res)
  case call => simp [Operation.call, decodeBytes]
  case needs => rfl
  case consumes => rfl
  case accepted => rfl
  case uses =>
    intro length counted fits
    have rest : (remaining.drop 4).length = remaining.length - 4 := List.length_drop
    have inside : length ≤ (remaining.drop 4).length := by omega
    have middle := placed.moved (by omega : 4 ≤ remaining.length)
    have room := placed.room
    obtain ⟨res, memory, copied, content, later⟩ := copy_eq middle inside (by
      show state.memory.mload freeMemoryPointer + 16 * (remaining.drop 4).length + 64 ≤ 2 ^ 65
      omega)
    refine ⟨_, ?_, later, rfl⟩
    have moved : advance length { state.moved 4 with memory := memory } =
        .ok ((), State.moved { state.moved 4 with memory := memory } length) := advance_eq (middle.inside inside)
    rw [bind_of_ok copied, bind_of_ok moved, bind_of_ok rfl]
    show Except.ok (Value.bytes (bytesAt memory res), _) = _
    rw [content, counted]
    rfl

theorem behaves_decodeBool (placed : Placed remaining state) : Behaves .decodeBool remaining state := by
  cases remaining with
  | nil =>
    have reverts : decodeBool state = .error (.revert unexpectedEnd) :=
      bind_of_error (bind_of_error (read_of_lt placed (by decide) (by decide)))
    exact .short (by decide) (Halt.means_revert _) (bind_of_error reverts)
  | cons byte rest =>
    have fits : 1 ≤ (byte :: rest).length := by simp
    have value : high 1 (state.memory.mload state.data.ptr) = byte.toNat := by
      rw [high_one placed fits]
      simp [leNat]
    have byteRead : decodeU8 state = .ok (byte.toNat, state.moved 1) := by
      rw [decodeU8, bind_of_ok (read_of_le placed fits), value]
      rfl
    by_cases large : 1 < byte
    · have reverts : decodeBool state = .error (.revert invalidBool) := by
        rw [decodeBool, bind_of_ok byteRead]
        exact congrFun (if_neg (Nat.not_le.mpr large)) _
      exact .refused fits (if_pos large) (bind_of_error reverts)
    · have decoded : decodeBool state = .ok (byte.toNat != 0, state.moved 1) := by
        rw [decodeBool, bind_of_ok byteRead]
        exact congrFun (if_pos (Nat.not_lt.mp large)) _
      have same : (byte.toNat != 0) = (byte != 0) := by
        rw [bne, bne, Bool.beq_eq_decide_eq, Bool.beq_eq_decide_eq]
        simp [← UInt8.toNat_inj]
      refine .answered fits (if_neg large) ?_ (placed.moved fits) rfl
      rw [Operation.call, bind_of_ok decoded, same]
      rfl

/-- An operation that hashes bytes and does not move the cursor. -/
theorem behaves_of_peek {α : Type} (placed : Placed remaining state) (length : Nat) (hash : Call α)
    (result : α → Value) (call : operation.call = result <$> (requireSpace length >>= fun _ => hash))
    (needs : operation.needs remaining = length) (consumes : operation.consumes remaining = 0)
    (accepted : operation.refusal remaining = none)
    (unpaid : ¬ Payable state.data.ptr length → hash state = .error .outOfGas)
    (hashes : length ≤ remaining.length → ∃ res memory, hash state = .ok (res, { state with memory := memory }) ∧
      result res = operation.value remaining ∧ Placed remaining { state with memory := memory }) :
    Behaves operation remaining state := by
  by_cases fits : length ≤ remaining.length
  · obtain ⟨res, memory, hashed, value, later⟩ := hashes fits
    have answers : operation.call state = .ok (operation.value remaining, { state with memory := memory }) := by
      rw [call, map_of_ok ((bind_of_ok (requireSpace_of_le placed fits)).trans hashed), value]
    rw [← List.drop_zero (l := remaining), ← consumes] at later
    exact .answered (by omega) accepted answers later (by rw [consumes]; rfl)
  · obtain reverts | ⟨passes, costs⟩ := requireSpace_of_missing placed (by omega : remaining.length < length)
    · exact .short (by omega) (Halt.means_revert _) (call ▸ map_of_error (bind_of_error reverts) result)
    · have halts : operation.call state = .error .outOfGas := by
        rw [call, map_of_error ((bind_of_ok passes).trans (unpaid costs))]
      exact .short (by omega) Halt.means_outOfGas halts

theorem behaves_peekKeccak256 (placed : Placed remaining state) (length : Nat) :
    Behaves (.peekKeccak256 length) remaining state := by
  apply behaves_of_peek placed length (hashKeccak256 length) fun res => .word res.toList
  case call => simp [Operation.call, peekKeccak256]
  case needs => rfl
  case consumes => rfl
  case accepted => rfl
  case unpaid =>
    intro costs
    rw [hashKeccak256, keccak256Raw, if_neg costs]
  case hashes =>
    intro fits
    exact ⟨_, state.memory, hashKeccak256_eq placed fits, rfl, placed⟩

theorem behaves_peekSha256 (placed : Placed remaining state) (length : Nat) :
    Behaves (.peekSha256 length) remaining state := by
  apply behaves_of_peek placed length (hashSha256 length) fun res => .word (beBytes 32 res)
  case call => simp [Operation.call, peekSha256]
  case needs => rfl
  case consumes => rfl
  case accepted => rfl
  case unpaid =>
    intro costs
    rw [hashSha256, sha256Raw, if_neg costs]
  case hashes =>
    intro fits
    obtain ⟨memory, hashed, later⟩ := hashSha256_eq placed fits
    have digest := beBytes_beNat (sha256 (remaining.take length)).toList
    rw [List.Vector.toList_length] at digest
    exact ⟨_, memory, hashed, congrArg Value.word digest, later⟩

theorem behaves_done (placed : Placed remaining state) : Behaves .done remaining state := by
  have stop := placed.stop
  by_cases empty : remaining = []
  · have finished : done state = .ok ((), state) := by
      subst empty
      exact if_pos stop.symm
    refine .answered (Nat.zero_le _) (if_neg (not_not.mpr empty)) ?_ placed rfl
    rw [Operation.call, bind_of_ok finished]
    rfl
  · have long : 0 < remaining.length := List.length_pos_iff.mpr empty
    have reverts : done state = .error (.revert endExpected) := if_neg (by omega)
    exact .refused (Nat.zero_le _) (if_pos empty) (bind_of_error reverts)

theorem behaves (placed : Placed remaining state) : Behaves operation remaining state := by
  cases operation with
  | decodeU8 => exact behaves_decodeU8 placed
  | decodeU16 => exact behaves_decodeU16 placed
  | decodeU32 => exact behaves_decodeU32 placed
  | decodeU64 => exact behaves_decodeU64 placed
  | decodeU128 => exact behaves_decodeU128 placed
  | decodeU256 => exact behaves_decodeU256 placed
  | decodeBytes20 => exact behaves_decodeBytes20 placed
  | decodeBytes32 => exact behaves_decodeBytes32 placed
  | decodeBool => exact behaves_decodeBool placed
  | skipBytes => exact behaves_skipBytes placed
  | decodeBytes => exact behaves_decodeBytes placed
  | peekKeccak256 length => exact behaves_peekKeccak256 placed length
  | peekSha256 length => exact behaves_peekSha256 placed length
  | done => exact behaves_done placed

end Operations

/-- The decoder over lists of bytes that an operation stands for. -/
def Operation.decode : Operation → Borsh.Decoder Value
  | .decodeU8 => do return .uint (← Borsh.decodeU8).toNat
  | .decodeU16 => do return .uint (← Borsh.decodeU16).toNat
  | .decodeU32 => do return .uint (← Borsh.decodeU32)
  | .decodeU64 => do return .uint (← Borsh.decodeU64).toNat
  | .decodeU128 => do return .uint (← Borsh.decodeU128).toNat
  | .decodeU256 => do return .uint (← Borsh.decodeU256).toNat
  | .decodeBytes20 => do return .word (← Borsh.decodeBytes20).toList
  | .decodeBytes32 => do return .word (← Borsh.decodeBytes32).toList
  | .decodeBool => do return .bool (← Borsh.decodeBool)
  | .skipBytes => do
    Borsh.skipBytes
    return .none
  | .decodeBytes => do return .bytes (← Borsh.decodeBytes)
  | .peekKeccak256 length => do return .word (← Borsh.peekKeccak256 length).toList
  | .peekSha256 length => do return .word (← Borsh.peekSha256 length).toList
  | .done => do
    Borsh.done
    return .none

section Lists

variable {operation : Operation} {remaining : Bytes}

/-- What the bytes that are left say of an operation, as the result of a decoder. -/
def Operation.answer (remaining : Bytes) (operation : Operation) : Except Revert (Value × Bytes) :=
  if remaining.length < operation.needs remaining then .error unexpectedEnd
  else
    match operation.refusal remaining with
    | some error => .error error
    | none => .ok (operation.value remaining, remaining.drop (operation.consumes remaining))

theorem answer_of_short (missing : remaining.length < operation.needs remaining) :
    operation.answer remaining = .error unexpectedEnd :=
  if_pos missing

theorem answer_of_accepted (enough : operation.needs remaining ≤ remaining.length)
    (accepted : operation.refusal remaining = none) :
    operation.answer remaining =
      .ok (operation.value remaining, remaining.drop (operation.consumes remaining)) := by
  rw [Operation.answer, if_neg (Nat.not_lt.mpr enough), accepted]

theorem answer_of_refused {error : Revert} (enough : operation.needs remaining ≤ remaining.length)
    (refusal : operation.refusal remaining = some error) : operation.answer remaining = .error error := by
  rw [Operation.answer, if_neg (Nat.not_lt.mpr enough), refusal]

omit [Hashing] in
theorem listRead_of_lt {length : Nat} (short : remaining.length < length) :
    Borsh.read length remaining = .error unexpectedEnd :=
  dif_neg (Nat.not_le.mpr short)

omit [Hashing] in
theorem listRead_of_le {length : Nat} (fits : length ≤ remaining.length) :
    ∃ raw : FixedBytes length, raw.toList = remaining.take length ∧
      Borsh.read length remaining = .ok (raw, remaining.drop length) :=
  ⟨⟨remaining.take length, List.length_take_of_le fits⟩, rfl, dif_pos fits⟩

/-- A decoder of a fixed number of bytes. -/
theorem decode_of_read (count : Nat) (result : FixedBytes count → Value)
    (decode : operation.decode = result <$> Borsh.read count) (needs : operation.needs remaining = count)
    (consumes : operation.consumes remaining = count) (accepted : operation.refusal remaining = none)
    (value : ∀ raw : FixedBytes count, raw.toList = remaining.take count →
      result raw = operation.value remaining) :
    operation.decode remaining = operation.answer remaining := by
  by_cases fits : count ≤ remaining.length
  · obtain ⟨raw, front, taken⟩ := listRead_of_le fits
    rw [decode, map_of_ok taken, value raw front, answer_of_accepted (by omega) accepted, consumes]
  · rw [decode, map_of_error (listRead_of_lt (by omega)), answer_of_short (by omega)]

/-- A number of as many bytes is not reduced. -/
theorem decode_of_word (width : Nat)
    (decode : operation.decode = (fun raw : FixedBytes width =>
      .uint (BitVec.ofNat (8 * width) (leNat raw.toList)).toNat) <$> Borsh.read width)
    (needs : operation.needs remaining = width) (consumes : operation.consumes remaining = width)
    (accepted : operation.refusal remaining = none)
    (value : operation.value remaining = .uint (leNat (remaining.take width))) :
    operation.decode remaining = operation.answer remaining := by
  apply decode_of_read width _ decode needs consumes accepted
  intro raw front
  have bound := Borsh.leNat_read_lt raw
  have power : 256 ^ width = 2 ^ (8 * width) := by rw [Nat.pow_mul]
  rw [value, BitVec.toNat_ofNat, Nat.mod_eq_of_lt (power ▸ bound), front]

/-- A decoder of a length of four bytes and of as many bytes. -/
theorem decode_of_length (result : Bytes → Value)
    (decode : operation.decode = (fun body => result body) <$> Borsh.decodeBytes)
    (needs : operation.needs remaining = if remaining.length < 4 then 4 else 4 + leNat (remaining.take 4))
    (consumes : operation.consumes remaining = operation.needs remaining)
    (accepted : operation.refusal remaining = none)
    (value : operation.value remaining = result ((remaining.drop 4).take (leNat (remaining.take 4)))) :
    operation.decode remaining = operation.answer remaining := by
  rw [decode]
  by_cases counted : remaining.length < 4
  · have stops : Borsh.decodeBytes remaining = .error unexpectedEnd :=
      bind_of_error (bind_of_error (listRead_of_lt counted))
    rw [if_pos counted] at needs
    rw [map_of_error stops, answer_of_short (needs ▸ counted)]
  · rw [if_neg counted] at needs
    have length : Borsh.decodeU32 remaining = .ok (leNat (remaining.take 4), remaining.drop 4) := by
      obtain ⟨raw, front, taken⟩ := listRead_of_le (Nat.not_lt.mp counted)
      rw [← front]
      exact bind_of_ok taken
    have left : (remaining.drop 4).length = remaining.length - 4 := List.length_drop
    by_cases fits : leNat (remaining.take 4) ≤ (remaining.drop 4).length
    · have body : Borsh.decodeBytes remaining = .ok ((remaining.drop 4).take (leNat (remaining.take 4)),
          (remaining.drop 4).drop (leNat (remaining.take 4))) := by
        obtain ⟨raw, front, taken⟩ := listRead_of_le fits
        rw [Borsh.decodeBytes, bind_of_ok length, bind_of_ok taken, ← front]
        rfl
      rw [map_of_ok body, answer_of_accepted (by omega) accepted, value, consumes, needs, List.drop_drop]
    · have stops : Borsh.decodeBytes remaining = .error unexpectedEnd := by
        rw [Borsh.decodeBytes, bind_of_ok length]
        exact bind_of_error (listRead_of_lt (Nat.not_le.mp fits))
      rw [map_of_error stops, answer_of_short (by omega)]

theorem decode_decodeBool : Operation.decodeBool.decode remaining = Operation.decodeBool.answer remaining := by
  cases remaining with
  | nil =>
    have stops : Borsh.decodeBool [] = .error unexpectedEnd :=
      bind_of_error (bind_of_error (listRead_of_lt (by decide)))
    exact bind_of_error stops
  | cons byte rest =>
    have first : Borsh.decodeU8 (byte :: rest) = .ok (byte, rest) := rfl
    have enough : Operation.decodeBool.needs (byte :: rest) ≤ (byte :: rest).length := Nat.le_add_left _ _
    by_cases large : 1 < byte
    · have refused : Borsh.decodeBool (byte :: rest) = .error invalidBool := by
        rw [Borsh.decodeBool, bind_of_ok first]
        exact congrFun (if_neg (Nat.not_le.mpr large)) _
      rw [answer_of_refused enough (if_pos large)]
      exact bind_of_error refused
    · have decoded : Borsh.decodeBool (byte :: rest) = .ok (byte != 0, rest) := by
        rw [Borsh.decodeBool, bind_of_ok first]
        exact congrFun (if_pos (Nat.not_lt.mp large)) _
      rw [answer_of_accepted enough (if_neg large)]
      exact bind_of_ok decoded

/-- A decoder that looks at bytes ahead. -/
theorem decode_of_peek (hash : Bytes → Bytes32) (length : Nat) (peek : Borsh.Decoder Bytes32)
    (peeks : peek = fun data => do
      require (length ≤ data.length) unexpectedEnd
      return (hash (data.take length), data))
    (decode : operation.decode = (fun res => .word res.toList) <$> peek)
    (needs : operation.needs remaining = length) (consumes : operation.consumes remaining = 0)
    (accepted : operation.refusal remaining = none)
    (value : operation.value remaining = .word (hash (remaining.take length)).toList) :
    operation.decode remaining = operation.answer remaining := by
  by_cases fits : length ≤ remaining.length
  · have peeked : peek remaining = .ok (hash (remaining.take length), remaining) := by
      simp only [peeks, require, if_pos fits]
      rfl
    rw [decode, map_of_ok peeked, answer_of_accepted (by omega) accepted, value, consumes]
    rfl
  · have stops : peek remaining = .error unexpectedEnd := by
      simp only [peeks, require, if_neg fits]
      rfl
    rw [decode, map_of_error stops, answer_of_short (by omega)]

theorem decode_done : Operation.done.decode remaining = Operation.done.answer remaining := by
  cases remaining with
  | nil => rfl
  | cons byte rest => rfl

/-- The decoders over lists do what the bytes that are left say. -/
theorem decode_eq_answer (operation : Operation) (remaining : Bytes) :
    operation.decode remaining = operation.answer remaining := by
  cases operation with
  | decodeU8 =>
    apply decode_of_read 1 (fun raw => .uint raw.head.toNat) (by simp [Operation.decode, Borsh.decodeU8]) rfl rfl rfl
    intro raw front
    show _ = Value.uint (leNat (remaining.take 1))
    rw [← front]
    obtain ⟨list, long⟩ := raw
    obtain ⟨byte, rfl⟩ := List.length_eq_one_iff.mp long
    simp [leNat, List.Vector.head]
  | decodeU16 => exact decode_of_word 2 (by simp [Operation.decode, Borsh.decodeU16]) rfl rfl rfl rfl
  | decodeU32 =>
    apply decode_of_read 4 (fun raw => .uint (leNat raw.toList)) (by simp [Operation.decode, Borsh.decodeU32])
      rfl rfl rfl
    exact fun raw front => congrArg (fun data => Value.uint (leNat data)) front
  | decodeU64 => exact decode_of_word 8 (by simp [Operation.decode, Borsh.decodeU64]) rfl rfl rfl rfl
  | decodeU128 => exact decode_of_word 16 (by simp [Operation.decode, Borsh.decodeU128]) rfl rfl rfl rfl
  | decodeU256 => exact decode_of_word 32 (by simp [Operation.decode, Borsh.decodeU256]) rfl rfl rfl rfl
  | decodeBytes20 =>
    apply decode_of_read 20 (fun raw => .word raw.toList) (by simp [Operation.decode, Borsh.decodeBytes20]) rfl rfl rfl
    exact fun raw front => congrArg Value.word front
  | decodeBytes32 =>
    apply decode_of_read 32 (fun raw => .word raw.toList) (by simp [Operation.decode, Borsh.decodeBytes32]) rfl rfl rfl
    exact fun raw front => congrArg Value.word front
  | decodeBool => exact decode_decodeBool
  | skipBytes =>
    exact decode_of_length (fun _ => .none) (by simp [Operation.decode, Borsh.skipBytes, Borsh.decodeBytes])
      rfl rfl rfl rfl
  | decodeBytes => exact decode_of_length .bytes (by simp [Operation.decode]) rfl rfl rfl rfl
  | peekKeccak256 length =>
    exact decode_of_peek keccak256 length (Borsh.peekKeccak256 length) rfl (by simp [Operation.decode]) rfl rfl rfl rfl
  | peekSha256 length =>
    exact decode_of_peek sha256 length (Borsh.peekSha256 length) rfl (by simp [Operation.decode]) rfl rfl rfl rfl
  | done => exact decode_done

end Lists

/-- An operation over memory does what the decoder does over the bytes that lie there. -/
theorem call_refines_decode {operation : Operation} {remaining : Bytes} {state : State}
    (placed : Placed remaining state) :
    match operation.decode remaining with
    | .error error => ∃ halt : Halt, halt.Means error ∧ operation.call state = .error halt
    | .ok (value, rest) => ∃ next, operation.call state = .ok (value, next) ∧ Placed rest next := by
  rw [decode_eq_answer]
  cases @behaves _ operation _ _ placed with
  | short missing means halts =>
    rw [answer_of_short missing]
    exact ⟨_, means, halts⟩
  | refused enough refusal reverts =>
    rw [answer_of_refused enough refusal]
    exact ⟨_, Halt.means_revert _, reverts⟩
  | answered enough accepted answers later cursor =>
    rw [answer_of_accepted enough accepted]
    exact ⟨_, answers, later⟩

omit [Hashing] in
theorem isSome_of_rel {α β : Type} {related : α → β → Prop} {first : Option α} {second : Option β}
    (same : Option.Rel related first second) : first.isSome = second.isSome := by
  cases same with
  | none => rfl
  | some _ => rfl

/-- A run gives what the bytes say, and has moved the cursor over the bytes that were
consumed. -/
structure Follows (run : Run) (state : State) (expected : Outcome) : Prop where
  values : run.values = expected.values
  halted : Option.Rel Halt.Means run.halted expected.reverted
  cursor : run.last.data = ⟨state.data.ptr + expected.consumed, state.data.stop⟩

theorem outcome_of_short {operation : Operation} {operations : List Operation} {remaining : Bytes}
    (missing : remaining.length < operation.needs remaining) :
    outcome (operation :: operations) remaining = ⟨[], 0, some unexpectedEnd⟩ :=
  if_pos missing

theorem outcome_of_refused {operation : Operation} {operations : List Operation} {remaining : Bytes}
    {error : Revert} (enough : operation.needs remaining ≤ remaining.length)
    (refusal : operation.refusal remaining = some error) :
    outcome (operation :: operations) remaining = ⟨[], 0, some error⟩ := by
  rw [outcome, if_neg (Nat.not_lt.mpr enough), refusal]

theorem outcome_of_answered {operation : Operation} {operations : List Operation} {remaining : Bytes}
    (enough : operation.needs remaining ≤ remaining.length) (accepted : operation.refusal remaining = none) :
    outcome (operation :: operations) remaining =
      let rest := outcome operations (remaining.drop (operation.consumes remaining))
      ⟨operation.value remaining :: rest.values, operation.consumes remaining + rest.consumed, rest.reverted⟩ := by
  rw [outcome, if_neg (Nat.not_lt.mpr enough), accepted]

/-- The run from any place that holds the bytes. -/
theorem run_follows (operations : List Operation) {remaining : Bytes} {state : State}
    (placed : Placed remaining state) :
    Follows (run operations state) state (outcome operations remaining) := by
  induction operations generalizing remaining state with
  | nil => exact ⟨rfl, .none, rfl⟩
  | cons operation operations ih =>
    cases behaves placed with
    | short missing means halts =>
      rw [run, halts, outcome_of_short missing]
      exact ⟨rfl, .some means, rfl⟩
    | refused enough refusal reverts =>
      rw [run, reverts, outcome_of_refused enough refusal]
      exact ⟨rfl, .some (Halt.means_revert _), rfl⟩
    | answered enough accepted answers later cursor =>
      have rest := ih later
      rw [run, answers, outcome_of_answered enough accepted]
      refine ⟨congrArg _ rest.values, rest.halted, rest.cursor.trans ?_⟩
      rw [cursor, Nat.add_assoc]

omit [Hashing] in
theorem Operation.consumes_le (operation : Operation) (remaining : Bytes) :
    operation.consumes remaining ≤ operation.needs remaining := by
  cases operation with
  | peekKeccak256 length => exact Nat.zero_le length
  | peekSha256 length => exact Nat.zero_le length
  | _ => exact Nat.le_refl _

/-- No more is consumed than there is. -/
theorem consumed_le (operations : List Operation) (remaining : Bytes) :
    (outcome operations remaining).consumed ≤ remaining.length := by
  induction operations generalizing remaining with
  | nil => exact Nat.zero_le _
  | cons operation operations ih =>
    have rest := ih (remaining.drop (operation.consumes remaining))
    have consumes := operation.consumes_le remaining
    rw [List.length_drop] at rest
    by_cases enough : operation.needs remaining ≤ remaining.length
    · cases refusal : operation.refusal remaining with
      | some error =>
        rw [outcome_of_refused enough refusal]
        exact Nat.zero_le _
      | none =>
        rw [outcome_of_answered enough refusal]
        show operation.consumes remaining + _ ≤ _
        omega
    · rw [outcome_of_short (Nat.not_le.mp enough)]
      exact Nat.zero_le _

/-- A memory with an input in it, and one byte everywhere around it. -/
def place (data : Bytes) (around : UInt8) : Memory :=
  let input : Memory := fun other =>
    if 0xa0 ≤ other ∧ other < 0xa0 + data.length then data.getD (other - 0xa0) 0 else around
  ((input.mstore 0x80 data.length).mstore zeroSlot 0).mstore freeMemoryPointer (0xa0 + data.length)

omit [Hashing] in
/-- Every byte string that is short enough can be in memory. -/
theorem place_allocated (data : Bytes) (short : data.length < 2 ^ 32) (around : UInt8) :
    Allocated data (place data around) 0x80 := by
  have free : (place data around).mload freeMemoryPointer = 0xa0 + data.length :=
    Memory.mload_mstore (by omega)
  have outside {other : Nat} (high : 0x80 ≤ other) : place data around other =
      Memory.mstore (fun other =>
        if 0xa0 ≤ other ∧ other < 0xa0 + data.length then data.getD (other - 0xa0) 0 else around)
        0x80 data.length other := by
    rw [place, Memory.mstore_of_outside (.inr (by simp only [freeMemoryPointer]; omega)),
      Memory.mstore_of_outside (.inr (by simp only [zeroSlot]; omega))]
  refine ⟨short, ?_, ?_, by decide, free.ge, ?_, ?_⟩
  · rw [Memory.mload_congr fun i _ => outside (Nat.le_add_right 0x80 i)]
    exact Memory.mload_mstore (by omega)
  · apply List.ext_getElem?
    intro i
    by_cases inside : i < data.length
    · rw [Memory.getElem?_slice _ _ inside, outside (by omega), Memory.mstore_of_outside (.inr (by omega)),
        if_pos (by omega), Nat.add_sub_cancel_left, List.getD_eq_getElem?_getD, List.getElem?_eq_getElem inside]
      rfl
    · rw [List.getElem?_eq_none (by simpa using inside), List.getElem?_eq_none (by simpa using inside)]
  · rw [free]
    omega
  · have above : ∀ i < 32, place data around (zeroSlot + i) =
        Memory.mstore (Memory.mstore (fun other =>
          if 0xa0 ≤ other ∧ other < 0xa0 + data.length then data.getD (other - 0xa0) 0 else around)
          0x80 data.length) zeroSlot 0 (zeroSlot + i) := fun i _ =>
      Memory.mstore_of_outside (.inr (by simp only [freeMemoryPointer, zeroSlot]; omega))
    rw [Memory.mload_congr above]
    exact Memory.mload_mstore (by decide)

/-- Decoding sees the bytes of the input and nothing else: the cursor stays between their
start and their end, each operation reverts exactly if they are too few for it or it
refuses them, and what is returned is what they say. Another place in another memory gives
the same. -/
theorem decoding_sees_input {data : Bytes} {memory : Memory} {pointer : Nat}
    (allocated : Allocated data memory pointer) (operations : List Operation) :
    let here := run operations (fromMemory memory pointer)
    here.values = (outcome operations data).values ∧
      Option.Rel Halt.Means here.halted (outcome operations data).reverted ∧
      here.last.data.ptr = pointer + 32 + (outcome operations data).consumed ∧
      here.last.data.stop = pointer + 32 + data.length ∧
      here.last.data.ptr ≤ here.last.data.stop ∧
      ∀ {memory' : Memory} {pointer' : Nat}, Allocated data memory' pointer' →
        let there := run operations (fromMemory memory' pointer')
        there.values = here.values ∧ there.halted.isSome = here.halted.isSome ∧
          there.last.data.ptr - pointer' = here.last.data.ptr - pointer := by
  have follows {memory : Memory} {pointer : Nat} (allocated : Allocated data memory pointer) :
      Follows (run operations (fromMemory memory pointer)) ⟨memory, pointer + 32, pointer + 32 + data.length⟩
        (outcome operations data) := by
    obtain ⟨placed, start⟩ := allocated.placed
    exact start ▸ run_follows operations placed
  have here := follows allocated
  have inside := consumed_le operations data
  refine ⟨here.values, here.halted, ?_, ?_, ?_, ?_⟩
  · rw [here.cursor]
  · rw [here.cursor]
  · rw [here.cursor]
    exact Nat.add_le_add_left inside _
  · intro memory' pointer' elsewhere
    have there := follows elsewhere
    refine ⟨there.values.trans here.values.symm, ?_, ?_⟩
    · rw [isSome_of_rel there.halted, isSome_of_rel here.halted]
    · rw [there.cursor, here.cursor]
      show pointer' + 32 + _ - pointer' = pointer + 32 + _ - pointer
      omega

omit [Hashing] in
/-- A bool and two bytes, read from a memory that is full of ones. -/
theorem decoding_sees_input_sample :
    let input : Bytes := [1, 2, 0, 0, 0, 0xaa, 0xbb]
    let here := @run Hashing.platform [.decodeBool, .decodeBytes, .done] (fromMemory (place input 0xff) 0x80)
    Allocated input (place input 0xff) 0x80 ∧ here.values = [.bool true, .bytes [0xaa, 0xbb], .none] := by
  have allocated := place_allocated [1, 2, 0, 0, 0, 0xaa, 0xbb] (by decide) 0xff
  exact ⟨allocated, (@decoding_sees_input Hashing.platform _ _ _ allocated
    [.decodeBool, .decodeBytes, .done]).1⟩

end RainbowBridge.Solidity.MemoryBorsh
