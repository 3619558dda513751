import RainbowBridge.Lib.ByteBits

/-! A memory of bytes that is read and written in big-endian words of 32 bytes at any
address, and the loop that copies word by word. Reads and writes run past the bytes
that are meant; what they do to the others is said here. -/

namespace RainbowBridge.Lib

abbrev Memory := Nat → UInt8

namespace Memory

/-- The bytes from an address on. -/
def slice (memory : Memory) (start length : Nat) : Bytes := (List.range length).map fun i => memory (start + i)

def mload (memory : Memory) (address : Nat) : Nat := beNat (memory.slice address 32)

def mstore (memory : Memory) (address value : Nat) : Memory := fun other =>
  if address ≤ other ∧ other < address + 32 then (beBytes 32 value).getD (other - address) 0 else memory other

variable {memory later : Memory} {start length address : Nat}

@[simp] theorem length_slice (memory : Memory) (start length : Nat) : (memory.slice start length).length = length := by
  simp [slice]

theorem getElem?_slice (memory : Memory) (start : Nat) {length i : Nat} (inside : i < length) :
    (memory.slice start length)[i]? = some (memory (start + i)) := by
  simp [slice, inside]

theorem slice_add (memory : Memory) (start first second : Nat) :
    memory.slice start (first + second) = memory.slice start first ++ memory.slice (start + first) second := by
  simp [slice, List.range_add, Nat.add_assoc]

theorem slice_congr (same : ∀ i < length, later (address + i) = memory (start + i)) :
    later.slice address length = memory.slice start length := by
  apply List.map_congr_left
  intro i member
  exact same i (List.mem_range.mp member)

theorem slice_of_le {count : Nat} (inside : count ≤ length) :
    memory.slice start count = (memory.slice start length).take count := by
  obtain ⟨rest, rfl⟩ := Nat.exists_eq_add_of_le inside
  rw [slice_add, List.take_left' (length_slice _ _ _)]

theorem slice_drop {count : Nat} (inside : count ≤ length) :
    memory.slice (start + count) (length - count) = (memory.slice start length).drop count := by
  obtain ⟨rest, rfl⟩ := Nat.exists_eq_add_of_le inside
  rw [slice_add, List.drop_left' (length_slice _ _ _), Nat.add_sub_cancel_left]

theorem mload_congr (same : ∀ i < 32, later (address + i) = memory (address + i)) :
    later.mload address = memory.mload address :=
  congrArg beNat (slice_congr same)

theorem mstore_of_outside {value other : Nat} (outside : other < address ∨ address + 32 ≤ other) :
    memory.mstore address value other = memory other :=
  if_neg (by omega)

/-- The first bytes of a word are its highest digits. -/
theorem mload_div (memory : Memory) (address : Nat) {count : Nat} (inside : count ≤ 32) :
    memory.mload address / 256 ^ (32 - count) = beNat (memory.slice address count) := by
  have split : memory.slice address 32 =
      memory.slice address count ++ memory.slice (address + count) (32 - count) := by
    rw [← slice_add, Nat.add_sub_cancel' inside]
  have low := beNat_lt (memory.slice (address + count) (32 - count))
  rw [length_slice] at low
  rw [mload, split, beNat_eq_leNat_reverse, List.reverse_append, leNat_append, List.length_reverse,
    length_slice, ← beNat_eq_leNat_reverse, ← beNat_eq_leNat_reverse,
    Nat.add_mul_div_left _ _ (Nat.pow_pos (by decide)), Nat.div_eq_of_lt low, Nat.zero_add]

/-- A word that is written is read back. -/
theorem mload_mstore {value : Nat} (fits : value < 2 ^ 256) :
    (memory.mstore address value).mload address = value := by
  have written : (memory.mstore address value).slice address 32 = beBytes 32 value := by
    apply List.ext_getElem?
    intro i
    by_cases inside : i < 32
    · rw [getElem?_slice _ _ inside, mstore, if_pos (by omega), Nat.add_sub_cancel_left,
        List.getD_eq_getElem?_getD, List.getElem?_eq_getElem (by simpa using inside)]
      rfl
    · rw [List.getElem?_eq_none (by simpa using inside), List.getElem?_eq_none (by simpa using inside)]
  rw [mload, written, beNat_beBytes]
  exact Nat.mod_eq_of_lt fits

/-- A word that was read is written byte by byte. -/
theorem mstore_mload (memory later : Memory) (start address : Nat) {i : Nat} (inside : i < 32) :
    memory.mstore address (later.mload start) (address + i) = later (start + i) := by
  have bytes := beBytes_beNat (later.slice start 32)
  rw [length_slice] at bytes
  rw [mstore, if_pos (by omega), mload, bytes, Nat.add_sub_cancel_left, List.getD_eq_getElem?_getD,
    getElem?_slice _ _ inside]
  rfl

/-- `turns` turns at most of the loop that copies the words from `source` on to those from
`target` on, until it has reached `stop`; addresses wrap. -/
def copyWords : Nat → Nat → Nat → Nat → Memory → Option Memory
  | 0, _, _, _, _ => none
  | turns + 1, source, target, stop, memory =>
    let memory := memory.mstore target (memory.mload source)
    let target := (target + 32) % 2 ^ 256
    if target = stop then some memory
    else copyWords turns ((source + 32) % 2 ^ 256) target stop memory

/-- The loop ends after as many turns as there are words. What lay below the target
stays, and is what was copied as far as it was the source. -/
theorem copyWords_eq {words turns source target : Nat} (enough : words < turns)
    (sourceFits : source + 32 * (words + 1) < 2 ^ 256) (targetFits : target + 32 * (words + 1) < 2 ^ 256) :
    ∃ later, copyWords turns source target (target + 32 * (words + 1)) memory = some later ∧
      (∀ other < target, later other = memory other) ∧
      ∀ i < 32 * (words + 1), source + i < target → later (target + i) = memory (source + i) := by
  induction words generalizing turns source target memory with
  | zero =>
    obtain ⟨turns, rfl⟩ := Nat.exists_eq_succ_of_ne_zero (by omega : turns ≠ 0)
    refine ⟨memory.mstore target (memory.mload source), ?_, ?_, ?_⟩
    · rw [copyWords, Nat.mod_eq_of_lt (by omega)]
      exact if_pos (by omega)
    · exact fun other below => mstore_of_outside (.inl below)
    · exact fun i inside _ => mstore_mload _ _ _ _ (by omega)
  | succ words ih =>
    obtain ⟨turns, rfl⟩ := Nat.exists_eq_succ_of_ne_zero (by omega : turns ≠ 0)
    obtain ⟨later, rest, below, copied⟩ := @ih (memory.mstore target (memory.mload source)) turns (source + 32)
      (target + 32) (by omega) (by omega) (by omega)
    refine ⟨later, ?_, fun other low => ?_, fun i inside early => ?_⟩
    · rw [copyWords, Nat.mod_eq_of_lt (by omega), Nat.mod_eq_of_lt (by omega)]
      rw [show target + 32 * (words + 1 + 1) = target + 32 + 32 * (words + 1) by omega]
      exact (if_neg (by omega)).trans rest
    · rw [below other (by omega), mstore_of_outside (.inl low)]
    · by_cases first : i < 32
      · rw [below _ (by omega), mstore_mload _ _ _ _ first]
      · obtain ⟨j, rfl⟩ := Nat.exists_eq_add_of_le (by omega : 32 ≤ i)
        have next := copied j (by omega) (by omega)
        rw [Nat.add_assoc, Nat.add_assoc] at next
        rw [next, mstore_of_outside (.inl early)]

end Memory

end RainbowBridge.Lib
