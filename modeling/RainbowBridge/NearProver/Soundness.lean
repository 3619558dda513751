import RainbowBridge.NearProver.Chain

/-! An accepted outcome proof is about a real outcome. Leaves and inner nodes are
hashed alike and paths have any length, so a proof may stop early or dive below a
leaf; the lengths of the hashed strings (32, 64, 208 and `4 + 32 k`) rule that
out. Below a block hash a path may only go on to an ancestor. -/

namespace RainbowBridge.NearProver

open Lib Solidity

/-- What the hash tree of blocks ends in, once each block hash is opened. -/
inductive Word where
  | lite (body : BlockBody)
  | rest (body : BlockBody)
  /-- The previous hash of the first block. -/
  | zero

def BlockBody.tree (body : BlockBody) : HashTree Word := .node (.leaf (.lite body)) (.leaf (.rest body))

/-- A block hash opened down to its ancestors. -/
def NearBlock.tree : NearBlock → HashTree Word
  | genesis body => .node body.tree (.leaf .zero)
  | child parent body => .node body.tree parent.tree

/-- The tree of blocks with every block hash opened. -/
def openBlocks : HashTree NearBlock → HashTree Word
  | .leaf block => block.tree
  | .node left right => .node (openBlocks left) (openBlocks right)

theorem openBlocks_ne_leaf (blocks : HashTree NearBlock) (word : Word) :
    openBlocks blocks ≠ .leaf word := by
  cases blocks with
  | leaf block => cases block <;> simp [openBlocks, NearBlock.tree]
  | node left right => simp [openBlocks]

/-- A subtree of an opened block: an ancestor, the inside of one, or a word. -/
theorem within_block {sub : HashTree Word} {block : NearBlock} (inside : sub.Within block.tree) :
    (∃ ancestor ∈ block.ancestry, sub = ancestor.tree) ∨ (∃ body : BlockBody, sub = body.tree) ∨
      ∃ word, sub = .leaf word := by
  have within_body : ∀ body : BlockBody, sub.Within body.tree →
      sub = body.tree ∨ ∃ word, sub = .leaf word := by
    intro body inside
    cases inside with
    | refl => exact .inl rfl
    | left _ inside =>
      cases inside
      exact .inr ⟨_, rfl⟩
    | right _ inside =>
      cases inside
      exact .inr ⟨_, rfl⟩
  induction block with
  | genesis body =>
    cases inside with
    | refl => exact .inl ⟨_, by simp [NearBlock.ancestry], rfl⟩
    | left _ inside =>
      rcases within_body body inside with same | word
      · exact .inr (.inl ⟨body, same⟩)
      · exact .inr (.inr word)
    | right _ inside =>
      cases inside
      exact .inr (.inr ⟨_, rfl⟩)
  | child parent body ih =>
    cases inside with
    | refl => exact .inl ⟨_, by simp [NearBlock.ancestry], rfl⟩
    | left _ inside =>
      rcases within_body body inside with same | word
      · exact .inr (.inl ⟨body, same⟩)
      · exact .inr (.inr word)
    | right _ inside =>
      rcases ih inside with ⟨ancestor, member, same⟩ | other
      · exact .inl ⟨ancestor, by simp [NearBlock.ancestry, member], same⟩
      · exact .inr other

theorem within_blocks {sub : HashTree Word} {blocks : HashTree NearBlock}
    (inside : sub.Within (openBlocks blocks)) :
    (∃ left right, sub = .node (openBlocks left) (openBlocks right)) ∨
      ∃ block ∈ blocks.leaves, sub.Within block.tree := by
  induction blocks with
  | leaf block => exact .inr ⟨block, by simp [HashTree.leaves], inside⟩
  | node left right first second =>
    cases inside with
    | refl => exact .inl ⟨left, right, rfl⟩
    | left _ inside =>
      rcases first inside with inner | ⟨block, member, deeper⟩
      · exact .inl inner
      · exact .inr ⟨block, by simp [HashTree.leaves, member], deeper⟩
    | right _ inside =>
      rcases second inside with inner | ⟨block, member, deeper⟩
      · exact .inl inner
      · exact .inr ⟨block, by simp [HashTree.leaves, member], deeper⟩

/-- Only a block has a word two steps down on the left. -/
theorem block_of_shape {word : Word} {other prev : HashTree Word} {blocks : HashTree NearBlock}
    (inside : (HashTree.node (.node (.leaf word) other) prev).Within (openBlocks blocks)) :
    ∃ block ∈ blocks.leaves, ∃ ancestor ∈ block.ancestry,
      HashTree.node (.node (.leaf word) other) prev = ancestor.tree := by
  rcases within_blocks inside with ⟨left, right, same⟩ | ⟨block, member, deeper⟩
  · rw [HashTree.node.injEq] at same
    cases left with
    | leaf block => cases block <;> simp [openBlocks, NearBlock.tree, BlockBody.tree] at same
    | node first second =>
      simp only [openBlocks, HashTree.node.injEq] at same
      exact absurd same.1.1.symm (openBlocks_ne_leaf first word)
  · rcases within_block deeper with ⟨ancestor, above, same⟩ | ⟨body, same⟩ | ⟨_, same⟩
    · exact ⟨block, member, ancestor, above, same⟩
    · simp [BlockBody.tree] at same
    · simp at same

theorem leBytes_inj (width : Nat) {first second : BitVec (8 * width)}
    (same : leBytes width first.toNat = leBytes width second.toNat) : first = second := by
  have bound : ∀ value : BitVec (8 * width), value.toNat < 256 ^ width := by
    intro value
    have small := value.isLt
    rwa [Nat.pow_mul] at small
  apply BitVec.eq_of_toNat_eq
  rw [← leNat_leBytes width _ (bound first), ← leNat_leBytes width _ (bound second), same]

theorem encodeInnerLite_inj {first second : BlockHeaderInnerLite}
    (same : NearDecoder.encodeInnerLite first = NearDecoder.encodeInnerLite second)
    (hashes : first.hash = second.hash) : first = second := by
  unfold NearDecoder.encodeInnerLite at same
  obtain ⟨height, same⟩ := List.append_inj same (by simp)
  obtain ⟨epochId, same⟩ := append_fixed_inj same
  obtain ⟨nextEpochId, same⟩ := append_fixed_inj same
  obtain ⟨prevStateRoot, same⟩ := append_fixed_inj same
  obtain ⟨outcomeRoot, same⟩ := append_fixed_inj same
  obtain ⟨timestamp, same⟩ := List.append_inj same (by simp)
  obtain ⟨nextBpHash, blockMerkleRoot⟩ := append_fixed_inj same
  obtain ⟨_, _, _, _, _, _, _, _, _⟩ := first
  obtain ⟨_, _, _, _, _, _, _, _, _⟩ := second
  simp only [BlockHeaderInnerLite.mk.injEq]
  exact ⟨leBytes_inj 8 height, epochId, nextEpochId, prevStateRoot, outcomeRoot,
    leBytes_inj 8 timestamp, nextBpHash, toList_injective blockMerkleRoot, hashes⟩

/-- An outcome string has the length of no inner node. -/
theorem length_outcomeString (id : Bytes32) (hashes : List Bytes32) :
    (ProofDecoder.outcomeString id hashes).length ≠ 64 := by
  have words : (hashes.flatMap List.Vector.toList).length = 32 * hashes.length := by
    induction hashes with
    | nil => rfl
    | cons hash rest ih =>
      simp only [List.flatMap_cons, List.length_append, ih, List.Vector.toList_length, List.length_cons]
      omega
  simp only [ProofDecoder.outcomeString, List.length_append, length_leBytes, List.Vector.toList_length,
    words]
  omega

theorem flatMap_toList_inj {first second : List Bytes32}
    (same : first.flatMap List.Vector.toList = second.flatMap List.Vector.toList) : first = second := by
  induction first generalizing second with
  | nil =>
    cases second with
    | nil => rfl
    | cons hash rest =>
      have lengths := congrArg List.length same
      simp at lengths
      omega
  | cons hash rest ih =>
    cases second with
    | nil =>
      have lengths := congrArg List.length same
      simp at lengths
    | cons other more =>
      simp only [List.flatMap_cons] at same
      obtain ⟨heads, tails⟩ := append_fixed_inj same
      rw [heads, ih tails]

theorem outcomeString_inj {id other : Bytes32} {hashes others : List Bytes32}
    (same : ProofDecoder.outcomeString id hashes = ProofDecoder.outcomeString other others) :
    id = other ∧ hashes = others := by
  simp only [ProofDecoder.outcomeString, List.append_assoc] at same
  obtain ⟨_, same⟩ := List.append_inj same (by simp)
  obtain ⟨ids, same⟩ := append_fixed_inj same
  exact ⟨ids, flatMap_toList_inj same⟩

theorem Outcome.status_reads (outcome : Outcome) : ProofDecoder.decodeExecutionStatus.Reads
    (ProofDecoder.encodeStatus outcome.status.decoded) outcome.status.decoded := by
  have fits := outcome.value_lt
  cases status : outcome.status with
  | unknown => exact (Borsh.decodeU8_reads 0).bind (.pure _)
  | failure => exact (Borsh.decodeU8_reads 1).bind (.pure _)
  | successValue value => exact ProofDecoder.successValue_reads (fits value status)
  | successReceiptId id => exact ProofDecoder.successReceiptId_reads id

/-- The contract reads a real outcome as what it is. -/
theorem Outcome.body_reads (outcome : Outcome) : ProofDecoder.decodePartialOutcome.Reads
    (ProofDecoder.encodePartial outcome.body) outcome.body :=
  ProofDecoder.decodePartialOutcome_reads outcome.receiptIds_lt outcome.executorId_lt
    outcome.status_reads

/-- The decoded outcome is this one, field by field. -/
def Outcome.DecodedAs (outcome : Outcome) (decoded : ExecutionOutcomeWithId) : Prop :=
  decoded.id = outcome.id ∧ decoded.outcome.toPartialOutcome = outcome.body ∧
    decoded.outcome.logs = outcome.logs

section Hashes

variable [Hashing]

def Word.digest : Word → Bytes32
  | lite body => sha256 (NearDecoder.encodeInnerLite body.innerLite)
  | rest body => sha256 body.innerRest
  | zero => zeroBytes 32

theorem NearBlock.tree_root (block : NearBlock) : block.tree.root sha256 Word.digest = block.hash := by
  induction block with
  | genesis body => rfl
  | child parent body ih =>
    simp only [NearBlock.tree, HashTree.root, ih]
    rfl

theorem NearBlock.tree_eq (block : NearBlock) :
    ∃ prev, block.tree = .node block.body.tree prev ∧ prev.root sha256 Word.digest = block.prevHash := by
  cases block with
  | genesis body => exact ⟨_, rfl, rfl⟩
  | child parent body => exact ⟨_, rfl, parent.tree_root⟩

theorem NearBlock.hash_eq (block : NearBlock) : block.hash = block.body.hashOver block.prevHash := by
  cases block <;> rfl

theorem openBlocks_root (blocks : HashTree NearBlock) :
    (openBlocks blocks).root sha256 Word.digest = blocks.root sha256 NearBlock.hash := by
  induction blocks with
  | leaf block => exact block.tree_root
  | node left right first second => simp only [openBlocks, HashTree.root, first, second]

theorem NearBlock.tree_strings {block : NearBlock} {string : Bytes}
    (member : string ∈ block.tree.strings sha256 Word.digest) : string ∈ block.strings := by
  induction block with
  | genesis body =>
    simp only [NearBlock.tree, BlockBody.tree, HashTree.strings, HashTree.root, List.append_nil,
      List.mem_cons, List.not_mem_nil, or_false] at member
    rcases member with rfl | rfl
    · exact List.mem_cons_of_mem _ (List.mem_cons_of_mem _ (List.mem_cons_of_mem _ List.mem_cons_self))
    · exact List.mem_cons_of_mem _ (List.mem_cons_of_mem _ List.mem_cons_self)
  | child parent body ih =>
    simp only [NearBlock.tree, BlockBody.tree, HashTree.strings, HashTree.root, List.append_nil,
      List.mem_cons, List.not_mem_nil, or_false, List.mem_append, parent.tree_root] at member
    rcases member with rfl | rfl | later
    · exact List.mem_append_left _
        (List.mem_cons_of_mem _ (List.mem_cons_of_mem _ (List.mem_cons_of_mem _ List.mem_cons_self)))
    · exact List.mem_append_left _ (List.mem_cons_of_mem _ (List.mem_cons_of_mem _ List.mem_cons_self))
    · exact List.mem_append_right _ (ih later)

theorem openBlocks_strings {blocks : HashTree NearBlock} {string : Bytes}
    (member : string ∈ (openBlocks blocks).strings sha256 Word.digest) :
    string ∈ chainStrings (some blocks) := by
  simp only [chainStrings, treeStrings, treeLeaves, List.mem_append, List.mem_flatMap]
  induction blocks with
  | leaf block => exact .inr ⟨block, by simp [HashTree.leaves], NearBlock.tree_strings member⟩
  | node left right first second =>
    simp only [openBlocks, HashTree.strings, openBlocks_root, List.mem_cons, List.mem_append] at member
    rcases member with rfl | inLeft | inRight
    · exact .inl (by simp [HashTree.strings])
    · rcases first inLeft with own | ⟨block, leaf, inner⟩
      · exact .inl (by simp [HashTree.strings, own])
      · exact .inr ⟨block, by simp [HashTree.leaves, leaf], inner⟩
    · rcases second inRight with own | ⟨block, leaf, inner⟩
      · exact .inl (by simp [HashTree.strings, own])
      · exact .inr ⟨block, by simp [HashTree.leaves, leaf], inner⟩

/-- The string behind a word is among these. -/
def Word.KnownIn (strings : List Bytes) : Word → Prop
  | lite body => NearDecoder.encodeInnerLite body.innerLite ∈ strings
  | rest body => body.innerRest ∈ strings
  | zero => True

theorem Word.KnownIn.mono {first second : List Bytes} {word : Word} (known : word.KnownIn first)
    (more : first ⊆ second) : word.KnownIn second := by
  cases word with
  | lite body => exact more known
  | rest body => exact more known
  | zero => trivial

theorem BlockBody.tree_known {body : BlockBody} {word : Word} (member : word ∈ body.tree.leaves)
    (prevHash : Bytes32) : word.KnownIn (body.strings prevHash) := by
  simp only [BlockBody.tree, HashTree.leaves, List.singleton_append, List.mem_cons,
    List.not_mem_nil, or_false] at member
  rcases member with rfl | rfl
  · exact List.mem_cons_self
  · exact List.mem_cons_of_mem _ List.mem_cons_self

theorem NearBlock.tree_known {block : NearBlock} {word : Word} (member : word ∈ block.tree.leaves) :
    word.KnownIn block.strings := by
  induction block with
  | genesis body =>
    rcases List.mem_append.mp member with inBody | last
    · exact body.tree_known inBody _
    · simp only [HashTree.leaves, List.mem_singleton] at last
      rw [last]
      trivial
  | child parent body ih =>
    rcases List.mem_append.mp member with inBody | earlier
    · exact (body.tree_known inBody _).mono (List.subset_append_left _ _)
    · exact (ih earlier).mono (List.subset_append_right _ _)

theorem openBlocks_known {blocks : HashTree NearBlock} {word : Word}
    (member : word ∈ (openBlocks blocks).leaves) : word.KnownIn (chainStrings (some blocks)) := by
  have within : ∃ block ∈ blocks.leaves, word ∈ block.tree.leaves := by
    induction blocks with
    | leaf block => exact ⟨block, by simp [HashTree.leaves], member⟩
    | node left right first second =>
      rcases List.mem_append.mp member with inLeft | inRight
      · obtain ⟨block, leaf, inner⟩ := first inLeft
        exact ⟨block, by simp [HashTree.leaves, leaf], inner⟩
      · obtain ⟨block, leaf, inner⟩ := second inRight
        exact ⟨block, by simp [HashTree.leaves, leaf], inner⟩
  obtain ⟨block, leaf, inner⟩ := within
  refine (NearBlock.tree_known inner).mono fun string found => ?_
  exact List.mem_append_right _ (List.mem_flatMap.mpr ⟨block, leaf, found⟩)

section CollisionFree

variable {strings : Set Bytes} (free : CollisionFree sha256 strings)
  (avoids : ∀ string ∈ strings, sha256 string ≠ zeroBytes 32)

include free avoids

/-- No word is the digest of a 64-byte string. -/
theorem Word.digest_ne {known : List Bytes} {word : Word} (behind : word.KnownIn known)
    (inside : ∀ string ∈ known, string ∈ strings) {string : Bytes} (hashed : string ∈ strings)
    (pair : string.length = 64) : word.digest ≠ sha256 string := by
  intro same
  cases word with
  | lite body =>
    have equal := free (inside _ behind) hashed same
    rw [← equal] at pair
    simp at pair
  | rest body =>
    have equal := free (inside _ behind) hashed same
    exact body.innerRest_length (equal ▸ pair)
  | zero => exact avoids string hashed same.symm

/-- A subtree with the digest of a 64-byte string is a node over its halves. -/
theorem node_of_digest {blocks : HashTree NearBlock} {sub : HashTree Word}
    (inside : sub.Within (openBlocks blocks))
    (inChain : ∀ string ∈ chainStrings (some blocks), string ∈ strings) {left right : Bytes32}
    (hashed : left.toList ++ right.toList ∈ strings)
    (same : hashPair left right = sub.root sha256 Word.digest) :
    ∃ first second, sub = .node first second ∧ left = first.root sha256 Word.digest ∧
      right = second.root sha256 Word.digest := by
  cases sub with
  | leaf word =>
    have behind := openBlocks_known inside.mem_leaves
    exact absurd same.symm (word.digest_ne free avoids behind inChain hashed (by simp))
  | node first second =>
    have halves := free hashed (inChain _ (openBlocks_strings inside.mem_strings)) same
    obtain ⟨onLeft, onRight⟩ := append_fixed_inj halves
    exact ⟨first, second, rfl, onLeft, toList_injective onRight⟩

omit avoids in
/-- The light part of a header is a word, not a node. -/
theorem word_of_lite {blocks : HashTree NearBlock} {sub : HashTree Word} {lite : BlockHeaderInnerLite}
    (inside : sub.Within (openBlocks blocks))
    (inChain : ∀ string ∈ chainStrings (some blocks), string ∈ strings)
    (hashed : NearDecoder.encodeInnerLite lite ∈ strings)
    (same : sha256 (NearDecoder.encodeInnerLite lite) = sub.root sha256 Word.digest) :
    ∃ word, sub = .leaf word := by
  cases sub with
  | leaf word => exact ⟨word, rfl⟩
  | node first second =>
    have equal := free hashed (inChain _ (openBlocks_strings inside.mem_strings)) same
    have lengths := congrArg List.length equal
    simp at lengths

/-- A header whose hash leads to the block root is that of a block under the root
or of one of its ancestors. -/
theorem header_found {blocks : HashTree NearBlock} {header : BlockHeaderLight} {path : MerklePath}
    (inChain : ∀ string ∈ chainStrings (some blocks), string ∈ strings)
    (lite : header.innerLite.hash = sha256 (NearDecoder.encodeInnerLite header.innerLite))
    (hash : header.hash = hashPair (hashPair header.innerLite.hash header.innerRestHash)
      header.prevBlockHash)
    (inLite : NearDecoder.encodeInnerLite header.innerLite ∈ strings)
    (inInner : header.innerLite.hash.toList ++ header.innerRestHash.toList ∈ strings)
    (inOuter : (hashPair header.innerLite.hash header.innerRestHash).toList ++
      header.prevBlockHash.toList ∈ strings)
    (inPath : ∀ string ∈ climbStrings sha256 header.hash (steps path), string ∈ strings)
    (same : computeRoot header.hash path = blocks.root sha256 NearBlock.hash) :
    ∃ block ∈ blocks.leaves, ∃ ancestor ∈ block.ancestry, header = ancestor.header := by
  rw [computeRoot_eq_climb, ← openBlocks_root] at same
  rcases climb_eq_root free (steps path) (openBlocks blocks) inPath
    (fun string member => inChain string (openBlocks_strings member)) same with
    ⟨sub, inside, found⟩ | ⟨word, member, string, hashed, below⟩
  · rw [hash] at found
    obtain ⟨inner, prev, rfl, innerRoot, prevRoot⟩ :=
      node_of_digest free avoids inside inChain inOuter found
    have within : inner.Within (openBlocks blocks) := inside.ofLeft
    obtain ⟨first, rest, rfl, liteRoot, restRoot⟩ :=
      node_of_digest free avoids within inChain inInner innerRoot
    obtain ⟨word, rfl⟩ := word_of_lite free within.ofLeft inChain inLite
      (lite ▸ liteRoot)
    obtain ⟨block, leaf, ancestor, above, shape⟩ := block_of_shape inside
    refine ⟨block, leaf, ancestor, above, ?_⟩
    obtain ⟨_, opened, prevHash⟩ := ancestor.tree_eq
    rw [opened] at shape
    simp only [BlockBody.tree, HashTree.node.injEq, HashTree.leaf.injEq] at shape
    obtain ⟨⟨rfl, rfl⟩, rfl⟩ := shape
    have known := inChain _ (openBlocks_known within.ofLeft.mem_leaves)
    have lites : header.innerLite = ancestor.body.innerLite :=
      encodeInnerLite_inj (free inLite known (lite ▸ liteRoot)) liteRoot
    have rests : header.innerRestHash = ancestor.body.innerRestHash := restRoot
    have prevs : header.prevBlockHash = ancestor.prevHash := prevRoot.trans prevHash
    have hashes : header.hash = ancestor.hash := by
      rw [hash, ancestor.hash_eq, lites, rests, prevs]
      rfl
    obtain ⟨_, _, _, _⟩ := header
    simp only [NearBlock.header, BlockHeaderLight.mk.injEq]
    exact ⟨prevs, rests, lites, hashes⟩
  · exact absurd below (word.digest_ne free avoids (openBlocks_known member) inChain
      (inPath string hashed) (length_of_mem_climbStrings hashed))

omit avoids in
/-- Equal digests of logs come from equal logs. -/
theorem logs_inj {first second : List Bytes} (inFirst : ∀ string ∈ first, string ∈ strings)
    (inSecond : ∀ string ∈ second, string ∈ strings) (same : first.map sha256 = second.map sha256) :
    first = second := by
  induction first generalizing second with
  | nil => exact (List.map_eq_nil_iff.mp same.symm).symm
  | cons log rest ih =>
    cases second with
    | nil => simp at same
    | cons other more =>
      simp only [List.map_cons, List.cons.injEq] at same
      rw [free (inFirst _ List.mem_cons_self) (inSecond _ List.mem_cons_self) same.1,
        ih (fun s member => inFirst s (List.mem_cons_of_mem _ member))
          (fun s member => inSecond s (List.mem_cons_of_mem _ member)) same.2]

omit avoids in
theorem outcome_of_string {proof : FullOutcomeProof} (origin : HashedFrom proof) {outcome : Outcome}
    (inProof : ∀ string ∈ proofStrings proof, string ∈ strings)
    (inOutcome : ∀ string ∈ outcome.strings, string ∈ strings)
    (same : ProofDecoder.outcomeString proof.outcomeProof.outcomeWithId.id
      proof.outcomeProof.outcomeWithId.outcome.merkelizationHashes = outcome.string) :
    outcome.DecodedAs proof.outcomeProof.outcomeWithId := by
  obtain ⟨ids, hashes⟩ := outcomeString_inj same
  rw [origin.hashes, List.cons.injEq] at hashes
  have bodies := free (inProof _ (by simp [proofStrings])) (inOutcome _ (by simp [Outcome.strings]))
    hashes.1
  obtain ⟨rest, read⟩ := origin.body
  rw [bodies] at read
  refine ⟨ids, (outcome.body_reads.unique read).1, ?_⟩
  exact logs_inj free (fun log member => inProof log (by simp [proofStrings, member]))
    (fun log member => inOutcome log (by simp [Outcome.strings, member])) hashes.2

/-- An outcome whose hash leads to a block's outcome root is one of the block's. -/
theorem outcome_found {proof : FullOutcomeProof} (origin : HashedFrom proof) {body : BlockBody}
    (inProof : ∀ string ∈ proofStrings proof, string ∈ strings)
    (inTree : ∀ string ∈ treeStrings sha256 shardDigest body.shards, string ∈ strings)
    (inShards : ∀ shard ∈ treeLeaves body.shards, ∀ string ∈ shardStrings shard, string ∈ strings)
    (same : computeOutcomeRoot proof = body.outcomeRoot) :
    ∃ outcome ∈ (treeLeaves body.shards).flatMap treeLeaves,
      outcome.DecodedAs proof.outcomeProof.outcomeWithId := by
  obtain ⟨reached, shardOf⟩ : ∃ reached, computeRoot proof.outcomeProof.outcomeWithId.hash
      proof.outcomeProof.proof = reached := ⟨_, rfl⟩
  have inReached : reached.toList ∈ strings := inProof _ (by simp [proofStrings, shardOf])
  have inUpper : ∀ string ∈ climbStrings sha256 (sha256 reached.toList) (steps proof.outcomeRootProof),
      string ∈ strings := fun string member => inProof string (by simp [proofStrings, shardOf, member])
  have inLower : ∀ string ∈ climbStrings sha256 (sha256 (ProofDecoder.outcomeString
      proof.outcomeProof.outcomeWithId.id
      proof.outcomeProof.outcomeWithId.outcome.merkelizationHashes)) (steps proof.outcomeProof.proof),
      string ∈ strings :=
    fun string member => inProof string (by rw [← origin.outcome] at member; simp [proofStrings, member])
  have inString := inProof (ProofDecoder.outcomeString proof.outcomeProof.outcomeWithId.id
    proof.outcomeProof.outcomeWithId.outcome.merkelizationHashes) (by simp [proofStrings])
  rw [computeOutcomeRoot, shardOf, computeRoot_eq_climb] at same
  rw [computeRoot_eq_climb, origin.outcome] at shardOf
  cases shards : body.shards with
  | none =>
    rw [BlockBody.outcomeRoot, shards] at same
    exact absurd same (climb_ne avoids _ inReached inUpper)
  | some tree =>
    rw [BlockBody.outcomeRoot, shards] at same
    rw [shards] at inTree inShards
    -- The 32 bytes of the shard root are no inner node, so the upper path ends at a shard.
    obtain ⟨shard, leaf, found⟩ := climb_from_leaf free (steps proof.outcomeRootProof) tree
      (fun shard => (shardRoot shard).toList) (fun _ => rfl) inUpper inTree
      (fun shard member => ⟨inShards shard member _ List.mem_cons_self, by simp⟩) inReached (by simp)
      same
    rw [toList_injective found] at shardOf
    have inShard := inShards shard leaf
    cases shard with
    | none => exact absurd shardOf (climb_ne avoids _ inString inLower)
    | some outcomes =>
      have inOutcome : ∀ outcome ∈ outcomes.leaves, ∀ string ∈ outcome.strings, string ∈ strings :=
        fun outcome member string hashed => inShard string (List.mem_cons_of_mem _
          (List.mem_append_right _ (List.mem_flatMap.mpr ⟨outcome, member, hashed⟩)))
      obtain ⟨outcome, member, equal⟩ := climb_from_leaf free (steps proof.outcomeProof.proof) outcomes
        Outcome.string (fun _ => rfl) inLower
        (fun string hashed => inShard string
          (List.mem_cons_of_mem _ (List.mem_append_left _ hashed)))
        (fun outcome member => ⟨inOutcome outcome member _ List.mem_cons_self,
          length_outcomeString _ _⟩) inString (length_outcomeString _ _) shardOf
      exact ⟨outcome, List.mem_flatMap.mpr ⟨some outcomes, leaf, member⟩,
        outcome_of_string free origin inProof (inOutcome outcome member) equal⟩

end CollisionFree

theorem ancestor_strings {block ancestor : NearBlock} (above : ancestor ∈ block.ancestry) :
    ancestor.body.strings ancestor.prevHash ⊆ block.strings := by
  induction block with
  | genesis body =>
    rw [List.mem_singleton.mp above]
    exact List.Subset.refl _
  | child parent body ih =>
    rcases List.mem_cons.mp above with rfl | earlier
    · exact List.subset_append_left _ _
    · exact List.Subset.trans (ih earlier) (List.subset_append_right _ _)

/-- Blocks under a block root, and their ancestors. -/
def ProvableBlocks (blocks : Option (HashTree NearBlock)) : List NearBlock :=
  (treeLeaves blocks).flatMap NearBlock.ancestry

/-- An accepted proof shows a header of the chain under the bridge's root and an
outcome of that very block. -/
theorem proveOutcome_sound (prover : Prover) (env : Env) (proofData : Bytes) (blockHeight : Uint64)
    (blocks : Option (HashTree NearBlock))
    (root : prover.bridge blockHeight = .ok (blockRoot blocks))
    (free : CollisionFree sha256 (hashedStrings blocks proofData))
    (avoids : ∀ string ∈ hashedStrings blocks proofData, sha256 string ≠ zeroBytes 32)
    (accepted : proveOutcome prover env proofData blockHeight = .ok true) :
    ∃ proof, Borsh.decodeAll ProofDecoder.decodeFullOutcomeProof proofData = .ok proof ∧
      ∃ block ∈ ProvableBlocks blocks, proof.blockHeaderLite = block.header ∧
        ∃ outcome ∈ block.outcomes, outcome.DecodedAs proof.outcomeProof.outcomeWithId := by
  obtain ⟨proof, decoded, outcomeRoot, answered⟩ := proveOutcome_eq_ok accepted
  have origin := decodeFullOutcomeProof_hashedFrom decoded
  have inProof : ∀ string ∈ proofStrings proof, string ∈ hashedStrings blocks proofData :=
    fun string member => .inr ⟨proof, decoded, member⟩
  have inChain : ∀ string ∈ chainStrings blocks, string ∈ hashedStrings blocks proofData :=
    fun string member => .inl member
  have inPath : ∀ string ∈ climbStrings sha256 proof.blockHeaderLite.hash (steps proof.blockProof),
      string ∈ hashedStrings blocks proofData :=
    fun string member => inProof string (by simp [proofStrings, member])
  rw [root, Except.ok.injEq] at answered
  refine ⟨proof, decoded, ?_⟩
  cases blocks with
  | none =>
    rw [origin.header, computeRoot_eq_climb] at answered
    rw [origin.header] at inPath
    exact absurd answered.symm (climb_ne avoids _ (inProof _ (by simp [proofStrings])) inPath)
  | some tree =>
    obtain ⟨block, leaf, ancestor, above, header⟩ := header_found free avoids inChain origin.lite
      origin.header (inProof _ (by simp [proofStrings])) (inProof _ (by simp [proofStrings]))
      (inProof _ (by simp [proofStrings])) inPath answered.symm
    have member : ancestor ∈ ProvableBlocks (some tree) := List.mem_flatMap.mpr ⟨block, leaf, above⟩
    have inBody : ∀ string ∈ ancestor.body.strings ancestor.prevHash,
        string ∈ hashedStrings (some tree) proofData :=
      fun string hashed => inChain string (List.mem_append_right _
        (List.mem_flatMap.mpr ⟨block, leaf, ancestor_strings above hashed⟩))
    have sameRoot : computeOutcomeRoot proof = ancestor.body.outcomeRoot := by
      rw [outcomeRoot, header]
      rfl
    refine ⟨ancestor, member, header, ?_⟩
    refine outcome_found free avoids origin inProof (fun string hashed => inBody string ?_)
      (fun shard inside string hashed => inBody string ?_) sameRoot
    · simp [BlockBody.strings, hashed]
    · simp only [BlockBody.strings, List.mem_cons, List.mem_append, List.mem_flatMap]
      exact .inr (.inr (.inr (.inr (.inr ⟨shard, inside, hashed⟩))))

end Hashes

/-! A block with one shard and one outcome, and a proof of it. -/

def sampleBodyHash : Bytes32 :=
  ⟨[148, 134, 192, 86, 5, 45, 236, 213, 178, 34, 173, 254, 205, 43, 83, 96, 33, 197,
    134, 183, 141, 35, 134, 105, 5, 175, 127, 90, 220, 36, 237, 250], rfl⟩

def sampleLogHash : Bytes32 :=
  ⟨[143, 67, 67, 70, 100, 143, 107, 150, 223, 137, 221, 169, 1, 197, 23, 107, 16, 166,
    216, 57, 97, 221, 60, 26, 200, 139, 89, 178, 220, 50, 122, 164], rfl⟩

def sampleShardRoot : Bytes32 :=
  ⟨[88, 153, 134, 135, 12, 45, 26, 11, 253, 19, 48, 32, 165, 62, 19, 206, 96, 220, 158,
    152, 74, 180, 118, 147, 122, 164, 18, 127, 250, 121, 181, 226], rfl⟩

def sampleOutcomeRoot : Bytes32 :=
  ⟨[133, 56, 69, 39, 180, 159, 208, 95, 236, 12, 105, 65, 96, 148, 86, 81, 148, 10, 49,
    245, 48, 51, 141, 16, 253, 247, 178, 68, 1, 8, 105, 139], rfl⟩

def sampleLiteHash : Bytes32 :=
  ⟨[132, 175, 37, 77, 7, 131, 179, 119, 171, 110, 182, 94, 137, 61, 159, 118, 239, 72,
    241, 168, 159, 76, 139, 60, 142, 132, 33, 50, 92, 151, 235, 44], rfl⟩

def sampleRestHash : Bytes32 :=
  ⟨[227, 176, 196, 66, 152, 252, 28, 20, 154, 251, 244, 200, 153, 111, 185, 36, 39,
    174, 65, 228, 100, 155, 147, 76, 164, 149, 153, 27, 120, 82, 184, 85], rfl⟩

def sampleInnerHash : Bytes32 :=
  ⟨[101, 226, 32, 221, 254, 92, 171, 136, 32, 132, 119, 30, 79, 240, 11, 250, 19, 1,
    135, 22, 174, 235, 78, 169, 124, 199, 186, 94, 164, 17, 215, 181], rfl⟩

def sampleBlockHash : Bytes32 :=
  ⟨[173, 252, 140, 43, 107, 105, 235, 209, 24, 232, 37, 166, 247, 155, 50, 106, 24,
    124, 38, 104, 102, 237, 31, 126, 14, 142, 64, 229, 154, 82, 215, 241], rfl⟩

def sampleOutcome : Outcome where
  id := zeroBytes 32
  logs := [[104, 105]]
  receiptIds := []
  gasBurnt := 0
  tokensBurnt := 0
  executorId := []
  status := .successValue [1]
  receiptIds_lt := by decide
  executorId_lt := by decide
  value_lt := by
    intro value same
    cases same
    decide

def sampleBody : BlockBody where
  height := 0
  epochId := zeroBytes 32
  nextEpochId := zeroBytes 32
  prevStateRoot := zeroBytes 32
  timestamp := 0
  nextBpHash := zeroBytes 32
  blockMerkleRoot := zeroBytes 32
  shards := some (.leaf (some (.leaf sampleOutcome)))
  innerRest := []
  innerRest_length := by decide

def sampleBlocks : Option (HashTree NearBlock) := some (.leaf (.genesis sampleBody))

def sampleLite : Bytes :=
  List.replicate 104 0 ++ sampleOutcomeRoot.toList ++ List.replicate 72 0

/-- The strings of the sample with their digests. -/
def sampleDigests : List (Bytes × Bytes32) :=
  [([], sampleRestHash), ([104, 105], sampleLogHash),
    (List.replicate 32 0 ++ [2, 1, 0, 0, 0, 1], sampleBodyHash),
    ([3, 0, 0, 0] ++ List.replicate 32 0 ++ sampleBodyHash.toList ++ sampleLogHash.toList, sampleShardRoot),
    (sampleShardRoot.toList, sampleOutcomeRoot), (sampleLite, sampleLiteHash),
    (sampleLiteHash.toList ++ sampleRestHash.toList, sampleInnerHash),
    (sampleInnerHash.toList ++ List.replicate 32 0, sampleBlockHash)]

/-- The platform's functions, with the digests of the sample looked up. -/
@[reducible] def sampleHashing : Hashing :=
  ⟨fun bytes => (sampleDigests.lookup bytes).getD (Sha256.hash bytes), Keccak.hash⟩

example : ∀ entry ∈ sampleDigests, Sha256.hash entry.1 = entry.2 := by decide +kernel

def sampleProver : Prover := ⟨0, 0, fun _ => .ok sampleBlockHash⟩

def sampleProof : Bytes :=
  List.replicate 68 0 ++ [1, 0, 0, 0, 2, 0, 0, 0, 104, 105] ++
    List.replicate 32 0 ++ [2, 1, 0, 0, 0, 1] ++ List.replicate 36 0 ++ sampleRestHash.toList ++
    sampleLite ++ List.replicate 4 0

theorem proveOutcome_sound_sample :
    letI := sampleHashing
    proveOutcome sampleProver ⟨5, 1, fun _ => true⟩ sampleProof 7 = .ok true ∧
      ∃ proof, Borsh.decodeAll ProofDecoder.decodeFullOutcomeProof sampleProof = .ok proof ∧
        ∃ block ∈ ProvableBlocks sampleBlocks, proof.blockHeaderLite = block.header ∧
          ∃ outcome ∈ block.outcomes, outcome.DecodedAs proof.outcomeProof.outcomeWithId := by
  let := sampleHashing
  have accepted : proveOutcome sampleProver ⟨5, 1, fun _ => true⟩ sampleProof 7 = .ok true := by
    decide +kernel
  have known : ∀ string ∈ hashedStrings sampleBlocks sampleProof,
      string ∈ sampleDigests.map Prod.fst := by
    have chain : chainStrings sampleBlocks ⊆ sampleDigests.map Prod.fst := by decide +kernel
    have proof : (match Borsh.decodeAll ProofDecoder.decodeFullOutcomeProof sampleProof with
        | .ok proof => decide (proofStrings proof ⊆ sampleDigests.map Prod.fst)
        | .error _ => true) = true := by
      decide +kernel
    rintro string (member | ⟨decoded, same, member⟩)
    · exact chain member
    · rw [same] at proof
      exact of_decide_eq_true proof member
  refine ⟨accepted, proveOutcome_sound sampleProver _ _ 7 sampleBlocks ?_ ?_ ?_ accepted⟩
  · have root : blockRoot sampleBlocks = sampleBlockHash := by decide +kernel
    rw [root]
    rfl
  · have injective : ∀ first ∈ sampleDigests.map Prod.fst, ∀ second ∈ sampleDigests.map Prod.fst,
        sha256 first = sha256 second → first = second := by
      decide +kernel
    exact fun first inFirst second inSecond same =>
      injective first (known first inFirst) second (known second inSecond) same
  · have nonzero : ∀ string ∈ sampleDigests.map Prod.fst, sha256 string ≠ zeroBytes 32 := by
      decide +kernel
    exact fun string member => nonzero string (known string member)

end RainbowBridge.NearProver
