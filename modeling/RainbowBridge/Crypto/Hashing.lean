import RainbowBridge.Crypto.Keccak
import RainbowBridge.Crypto.Sha256

/-! The hash functions that the contracts call. Every result below holds for any
two functions with 32-byte digests; what it needs of them is said in its
hypotheses. -/

namespace RainbowBridge

/-- `sha256` of Solidity and `env::sha256`, `keccak256` and `env::keccak256`. -/
class Hashing where
  sha256 : Bytes → Bytes32
  keccak256 : Bytes → Bytes32

export Hashing (sha256 keccak256)

/-- The functions that the two platforms provide. -/
@[reducible] def Hashing.platform : Hashing := ⟨Sha256.hash, Keccak.hash⟩

/-- The platform's functions, with the `keccak256` digests of some strings looked up. -/
@[reducible] def Hashing.lookup (digests : List (Bytes × Bytes32)) : Hashing where
  sha256 := Sha256.hash
  keccak256 := fun bytes =>
    match digests.find? fun entry => entry.1 = bytes with
    | some entry => entry.2
    | none => Keccak.hash bytes

theorem Hashing.lookup_eq {digests : List (Bytes × Bytes32)}
    (right : ∀ entry ∈ digests, Keccak.hash entry.1 = entry.2) :
    Hashing.lookup digests = Hashing.platform := by
  refine congrArg (Hashing.mk Sha256.hash) (funext fun bytes => ?_)
  cases found : digests.find? fun entry => entry.1 = bytes with
  | none => rfl
  | some entry =>
    have equal : entry.1 = bytes := by simpa using List.find?_some found
    rw [← equal]
    exact (right entry (List.mem_of_find?_eq_some found)).symm

/-- No two of these strings have the same digest. -/
def CollisionFree (hash : Bytes → Bytes32) (strings : Set Bytes) : Prop :=
  Set.InjOn hash strings

theorem CollisionFree.pair {hash : Bytes → Bytes32} {first second : Bytes}
    (different : hash first ≠ hash second) : CollisionFree hash {first, second} := by
  rintro left (rfl | rfl) right (rfl | rfl) same
  · rfl
  · exact absurd same different
  · exact absurd same.symm different
  · rfl

end RainbowBridge
