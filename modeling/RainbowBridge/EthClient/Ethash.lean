import RainbowBridge.EthTypes.Header
import RainbowBridge.Near.Runtime

/-! The proof of work of a header: nodes of the DAG with their Merkle proofs, and
the `ethash` crate, which is a parameter. -/

namespace RainbowBridge.EthClient

open Lib EthTypes Near

abbrev H128 := FixedBytes 16

abbrev H512 := FixedBytes 64

structure DoubleNodeWithMerkleProof where
  dagNodes : List H512
  proof : List H128

/-- The `ethash` crate with the keccak functions of the platform. -/
structure EthashCrate where
  getFullSize : Nat → Nat
  crossBoundary : U256 → U256
  /-- The mix hash and the result. The lookup is given the number of the call to
  it, which the contract counts, and the offset. -/
  hashimotoWithHasher : H256 → H64 → Nat → (Nat → Nat → Option H512) → Option (H256 × H256)

variable [Hashing]

def truncateToH128 (arr : H256) : H128 := List.Vector.drop 16 arr

def hashH128 (l r : H128) : H128 :=
  truncateToH128 (sha256
    ((zeroBytes 16).toList ++ l.toList ++ ((zeroBytes 16).toList ++ r.toList)))

/-- The root above two nodes. A shift by 64 or more is a panic. -/
def DoubleNodeWithMerkleProof.applyMerkleProof (node : DoubleNodeWithMerkleProof) (index : Nat) :
    Option H128 := do
  let first ← node.dagNodes[0]?
  let second ← node.dagNodes[1]?
  guard (node.proof.length ≤ 64)
  let leaf := truncateToH128 (sha256 (first.toList ++ second.toList))
  return node.proof.zipIdx.foldl (fun leaf (sibling, i) =>
    if (index >>> i) % 2 = 0 then hashH128 leaf sibling else hashH128 sibling leaf) leaf

/-- Whether a pair of nodes is in the DAG; checked once for the two. -/
def checkNode (validateEthash : Bool) (merkleRoot : H128) (node : DoubleNodeWithMerkleProof)
    (idx offset : Nat) : Option Unit :=
  if idx % 2 = 0 ∧ validateEthash = true then guard (some merkleRoot = node.applyMerkleProof (offset / 2))
  else some ()

/-- The closure that `hashimoto_merkle` passes to the crate. -/
def lookup (validateEthash : Bool) (merkleRoot : H128) (nodes : List DoubleNodeWithMerkleProof)
    (idx offset : Nat) : Option H512 := do
  let node ← nodes[idx / 2]?
  checkNode validateEthash merkleRoot node idx offset
  let data ← node.dagNodes[idx % 2]?
  return ⟨(data.toList.take 32).reverse ++ (data.toList.drop 32).reverse, by simp⟩

end RainbowBridge.EthClient
