import RainbowBridge.Lib.Merkle
import RainbowBridge.Solidity.ProofDecoder

/-! The `NearProver` contract: `proveOutcome` recomputes an outcome root and a
block root and compares them with the header and with the bridge. -/

namespace RainbowBridge.NearProver

open Lib Solidity

variable [Hashing]

/-- The contract's storage. `bridge` is the call `bridge.blockMerkleRoots(height)`
as it would answer now. -/
structure Prover where
  admin : Address
  paused : Nat
  bridge : Uint64 → Except Revert Bytes32

def pausedVerify : Nat := 1

def computeRoot (node : Bytes32) : MerklePath → Bytes32
  | [] => node
  | item :: rest =>
    if item.direction = 0 then computeRoot (hashPair item.hash node) rest
    else computeRoot (hashPair node item.hash) rest

/-- From the hash of an outcome to the root that the header should have. -/
def computeOutcomeRoot (proof : FullOutcomeProof) : Bytes32 :=
  let shardRoot := computeRoot proof.outcomeProof.outcomeWithId.hash proof.outcomeProof.proof
  computeRoot (sha256 shardRoot.toList) proof.outcomeRootProof

def proveOutcome (prover : Prover) (env : Env) (proofData : Bytes) (blockHeight : Uint64) :
    Except Revert Bool := do
  require (prover.paused &&& pausedVerify = 0 ∨ env.sender = prover.admin) .bare
  let proof ← Borsh.decodeAll ProofDecoder.decodeFullOutcomeProof proofData
  require (computeOutcomeRoot proof = proof.blockHeaderLite.innerLite.outcomeRoot)
    "NearProver: outcome merkle proof is not valid"
  let expectedBlockMerkleRoot ← prover.bridge blockHeight
  require (computeRoot proof.blockHeaderLite.hash proof.blockProof = expectedBlockMerkleRoot)
    "NearProver: block proof is not valid"
  return true

theorem proveOutcome_eq_ok {prover : Prover} {env : Env} {proofData : Bytes} {blockHeight : Uint64}
    {answer : Bool} (success : proveOutcome prover env proofData blockHeight = .ok answer) :
    ∃ proof, Borsh.decodeAll ProofDecoder.decodeFullOutcomeProof proofData = .ok proof ∧
      computeOutcomeRoot proof = proof.blockHeaderLite.innerLite.outcomeRoot ∧
      prover.bridge blockHeight = .ok (computeRoot proof.blockHeaderLite.hash proof.blockProof) := by
  simp only [proveOutcome, bind_eq_ok, require_eq_ok, pure_eq_ok] at success
  obtain ⟨_, _, proof, decoded, _, outcome, root, answered, _, rfl, _⟩ := success
  exact ⟨proof, decoded, outcome, answered⟩

/-- The steps of a Merkle path. -/
def steps (path : MerklePath) : List HashStep := path.map fun item => (item.direction = 0, item.hash)

theorem computeRoot_eq_climb (node : Bytes32) (path : MerklePath) :
    computeRoot node path = climb sha256 node (steps path) := by
  induction path generalizing node with
  | nil => rfl
  | cons item rest ih =>
    by_cases left : item.direction = 0
    · simp [computeRoot, steps, climb, HashStep.string, left, ih, hashPair]
    · simp [computeRoot, steps, climb, HashStep.string, left, ih, hashPair]

/-- What the decoded hashes are the digests of. -/
structure HashedFrom (proof : FullOutcomeProof) : Prop where
  lite : proof.blockHeaderLite.innerLite.hash =
    sha256 (NearDecoder.encodeInnerLite proof.blockHeaderLite.innerLite)
  header : proof.blockHeaderLite.hash = hashPair (hashPair proof.blockHeaderLite.innerLite.hash
    proof.blockHeaderLite.innerRestHash) proof.blockHeaderLite.prevBlockHash
  hashes : proof.outcomeProof.outcomeWithId.outcome.merkelizationHashes =
    sha256 (ProofDecoder.encodePartial proof.outcomeProof.outcomeWithId.outcome.toPartialOutcome) ::
      proof.outcomeProof.outcomeWithId.outcome.logs.map sha256
  body : ∃ rest, ProofDecoder.decodePartialOutcome (ProofDecoder.encodePartial
    proof.outcomeProof.outcomeWithId.outcome.toPartialOutcome ++ rest) =
      .ok (proof.outcomeProof.outcomeWithId.outcome.toPartialOutcome, rest)
  outcome : proof.outcomeProof.outcomeWithId.hash = sha256 (ProofDecoder.outcomeString
    proof.outcomeProof.outcomeWithId.id proof.outcomeProof.outcomeWithId.outcome.merkelizationHashes)

theorem decodeBlockHeaderLight_eq_ok {data rest : Bytes} {header : BlockHeaderLight}
    (success : ProofDecoder.decodeBlockHeaderLight data = .ok (header, rest)) :
    header.innerLite.hash = sha256 (NearDecoder.encodeInnerLite header.innerLite) ∧
      header.hash = hashPair (hashPair header.innerLite.hash header.innerRestHash)
        header.prevBlockHash := by
  simp only [ProofDecoder.decodeBlockHeaderLight, Decoder.bind_eq_ok, Decoder.pure_eq_ok] at success
  obtain ⟨_, _, _, _, _, _, lite, _, decoded, rfl, _⟩ := success
  exact ⟨(NearDecoder.decodeBlockHeaderInnerLite_eq_ok decoded).2, rfl⟩

theorem decodeExecutionOutcome_eq_ok {data rest : Bytes} {outcome : ExecutionOutcome}
    (success : ProofDecoder.decodeExecutionOutcome data = .ok (outcome, rest)) :
    outcome.merkelizationHashes =
      sha256 (ProofDecoder.encodePartial outcome.toPartialOutcome) :: outcome.logs.map sha256 ∧
    ∃ rest, ProofDecoder.decodePartialOutcome
      (ProofDecoder.encodePartial outcome.toPartialOutcome ++ rest) =
        .ok (outcome.toPartialOutcome, rest) := by
  simp only [ProofDecoder.decodeExecutionOutcome, Decoder.bind_eq_ok, Decoder.pure_eq_ok] at success
  obtain ⟨length, _, _, logs, start, _, _, _, here, body, left, decoded, hash, _, hashed, rfl, _⟩ :=
    success
  cases here
  have consumed := ProofDecoder.decodePartialOutcome_parses _ _ _ decoded
  rw [Borsh.sha256Since_eq_ok consumed] at hashed
  exact ⟨by simp [hashed.1], left, consumed ▸ decoded⟩

theorem decodeFullOutcomeProof_hashedFrom {proofData : Bytes} {proof : FullOutcomeProof}
    (decoded : Borsh.decodeAll ProofDecoder.decodeFullOutcomeProof proofData = .ok proof) :
    HashedFrom proof := by
  rw [Borsh.decodeAll_eq_ok] at decoded
  simp only [ProofDecoder.decodeFullOutcomeProof, ProofDecoder.decodeExecutionOutcomeWithIdAndProof,
    ProofDecoder.decodeExecutionOutcomeWithId, Decoder.bind_eq_ok, Decoder.pure_eq_ok] at decoded
  obtain ⟨_, _, ⟨_, _, _, _, _, _, _, _, ⟨_, _, _, outcome, _, executed, rfl, _⟩, rfl, _⟩, _, _, _,
    header, _, headed, _, _, _, rfl, _⟩ := decoded
  obtain ⟨lite, hash⟩ := decodeBlockHeaderLight_eq_ok headed
  obtain ⟨hashes, body⟩ := decodeExecutionOutcome_eq_ok executed
  exact ⟨lite, hash, hashes, body, rfl⟩

end RainbowBridge.NearProver
