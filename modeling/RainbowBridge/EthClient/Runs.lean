import RainbowBridge.EthClient.Canonical
import RainbowBridge.Lib.Machine

/-! Runs of the client: any calls of `add_block_header` after `init`, with the tree
of all headers accepted so far. As long as every new best header can be reached
from the kept part of the canonical chain, that chain is the ancestry of the best
header. -/

namespace RainbowBridge.EthClient

open Lib EthTypes Near

/-- The client with the tree of the headers it has ever accepted. -/
structure History where
  first : Node
  accepted : List Node
  client : Client

/-- The arguments of `add_block_header`. -/
structure Submission where
  env : Env
  blockHeader : Bytes
  dagNodes : List DoubleNodeWithMerkleProof

/-- The header has a higher total difficulty than the best one, or the same and
an even difficulty. -/
def Client.wouldBeBest (client : Client) (header : BlockHeader) : Bool :=
  match client.infos client.bestHeaderHash, client.infos header.parentHash with
  | some bestInfo, some parentInfo =>
    becomesBest ⟨parentInfo.totalDifficulty + header.difficulty.toNat, header.parentHash,
      header.number.toNat⟩ bestInfo header.difficulty
  | _, _ => false

theorem andM_eq_true {left right : Option Bool} :
    (left <&&> right) = some true ↔ left = some true ∧ right = some true := by
  cases left with
  | none => simp [andM]
  | some value => cases value <;> simp [andM, toBool]

/-- The info of a header on top of one with the given info. -/
def childInfo (parentInfo : HeaderInfo) (header : BlockHeader) : HeaderInfo :=
  ⟨parentInfo.totalDifficulty + header.difficulty.toNat, header.parentHash, header.number.toNat⟩

/-- What `record_header` asserts, or would panic on. -/
structure Accepts (client : Client) (header : BlockHeader) (hash : H256)
    (bestInfo parentInfo : HeaderInfo) : Prop where
  best : client.infos client.bestHeaderHash = some bestInfo
  named : header.hash = some hash
  small : header.number.toNat + client.finalizedGcThreshold < 2 ^ 64
  recent : bestInfo.number ≤ header.number.toNat + client.finalizedGcThreshold
  parent : client.infos header.parentHash = some parentInfo
  unknown : hash ∉ client.knownHashes header.number.toNat
  fits : parentInfo.totalDifficulty + header.difficulty.toNat < 2 ^ 256
  positive : client.wouldBeBest header = true → 0 < header.number.toNat

/-- What `record_header` makes of the client. -/
def Client.recorded (client : Client) (header : BlockHeader) (hash : H256)
    (bestInfo parentInfo : HeaderInfo) : Client :=
  let info := childInfo parentInfo header
  let inserted := client.insertHeader header hash info
  if client.wouldBeBest header then inserted.updateCanonical hash info bestInfo else inserted

section Accepted

variable {client after : Client} {header : BlockHeader}

theorem wouldBeBest_eq {bestInfo parentInfo : HeaderInfo}
    (best : client.infos client.bestHeaderHash = some bestInfo)
    (parent : client.infos header.parentHash = some parentInfo) :
    client.wouldBeBest header = becomesBest (childInfo parentInfo header) bestInfo header.difficulty := by
  simp only [Client.wouldBeBest, best, parent, childInfo]

theorem recordHeader_eq_some : client.recordHeader header = some after ↔
    ∃ hash bestInfo parentInfo, Accepts client header hash bestInfo parentInfo ∧
      client.recorded header hash bestInfo parentInfo = after := by
  simp only [Client.recordHeader, Option.bind_eq_bind, Option.bind_eq_some_iff, guard_eq_some,
    exists_const]
  constructor
  · rintro ⟨bestInfo, best, hash, named, small, recent, parentInfo, parent, unknown, fits, success⟩
    rw [← childInfo, ← wouldBeBest_eq best parent] at success
    refine ⟨hash, bestInfo, parentInfo, ⟨best, named, small, by omega, parent, unknown, fits, ?_⟩, ?_⟩
    · intro better
      rw [if_pos better] at success
      obtain ⟨done, positive, -⟩ := Option.bind_eq_some_iff.mp success
      exact guard_eq_some.mp positive
    · rw [Client.recorded]
      split at success
      · rename_i better
        obtain ⟨-, -, returned⟩ := Option.bind_eq_some_iff.mp success
        rw [if_pos better]
        exact Option.some.inj returned
      · rename_i worse
        rw [if_neg worse]
        exact Option.some.inj success
  · rintro ⟨hash, bestInfo, parentInfo, accepts, rfl⟩
    refine ⟨bestInfo, accepts.best, hash, accepts.named, accepts.small, by have := accepts.recent; omega,
      parentInfo, accepts.parent, accepts.unknown, accepts.fits, ?_⟩
    rw [← childInfo, ← wouldBeBest_eq accepts.best accepts.parent, Client.recorded]
    split
    · rename_i better
      exact Option.bind_eq_some_iff.mpr ⟨(), guard_eq_some.mpr (accepts.positive better), rfl⟩
    · rfl

/-- What `record_header` has checked, and what it returns. -/
structure Recorded (client : Client) (header : BlockHeader) (after : Client) (headerHash : H256)
    (info bestInfo : HeaderInfo) : Prop where
  best : client.infos client.bestHeaderHash = some bestInfo
  hash : header.hash = some headerHash
  number : info.number = header.number.toNat
  parentHash : info.parentHash = header.parentHash
  fresh : headerHash ∉ client.knownHashes header.number.toNat
  result : after = if client.wouldBeBest header then
      (client.insertHeader header headerHash info).updateCanonical headerHash info bestInfo
    else client.insertHeader header headerHash info

theorem recorded_of_success (success : client.recordHeader header = some after) :
    ∃ headerHash info bestInfo, Recorded client header after headerHash info bestInfo := by
  obtain ⟨hash, bestInfo, parentInfo, accepts, rfl⟩ := recordHeader_eq_some.mp success
  exact ⟨hash, childInfo parentInfo header, bestInfo, accepts.best, accepts.named, rfl, rfl,
    accepts.unknown, rfl⟩

theorem isNext_of_verify [Hashing] {ethash : EthashCrate} {prev : BlockHeader}
    {dagNodes : List DoubleNodeWithMerkleProof}
    (success : client.verifyHeader ethash header prev dagNodes = some true) :
    header.number.toNat = prev.number.toNat + 1 := by
  unfold Client.verifyHeader at success
  obtain ⟨partialHash, -, success⟩ := Option.bind_eq_some_iff.mp success
  obtain ⟨hashes, -, success⟩ := Option.bind_eq_some_iff.mp success
  simp only [andM_eq_true] at success
  obtain ⟨-, -, -, -, -, -, -, next, -⟩ := success
  simp only [isNext, Option.bind_eq_bind, Option.bind_eq_some_iff, Option.pure_def, Option.some.injEq,
    decide_eq_true_eq] at next
  obtain ⟨-, -, next⟩ := next
  exact next

/-- Without a trusted signer, an accepted header stands on a stored one. -/
theorem parent_of_success [Hashing] {crate : RlpCrate} {eip1559 : Bool} {ethash : EthashCrate} {env : Env}
    {blockHeader : Bytes} {dagNodes : List DoubleNodeWithMerkleProof}
    (anyone : client.trustedSigner = none)
    (success : client.addBlockHeader crate eip1559 ethash env blockHeader dagNodes = some after) :
    ∃ header prev, BlockHeader.decode crate eip1559 blockHeader = some header ∧
      client.headers header.parentHash = some prev ∧
      header.number.toNat = prev.number.toNat + 1 ∧ client.recordHeader header = some after := by
  simp only [Client.addBlockHeader, Client.checkSubmission, anyone, Option.bind_eq_bind,
    Option.bind_eq_some_iff, guard_eq_some, exists_const] at success
  obtain ⟨-, -, header, decoded, ⟨prev, stored, valid, verified, accepted⟩, recorded⟩ := success
  rw [accepted] at verified
  exact ⟨header, prev, decoded, stored, isNext_of_verify verified, recorded⟩

end Accepted

section Step

variable {first best node older : Node} {accepted : List Node} {low : Nat} {client : Client}
  {header : BlockHeader} {headerHash : H256} {info bestInfo : HeaderInfo}

/-- Storing a header changes nothing about the others. -/
theorem insertHeader_infos (fresh : ∀ other ∈ accepted, other.hash ≠ headerHash) {other : Node}
    (member : other ∈ accepted) :
    (client.insertHeader header headerHash info).infos other.hash = client.infos other.hash := by
  rw [Client.insertHeader]
  exact (UnorderedMap.insert_apply _ _ _ _).trans (if_neg (fresh other member))

theorem Recoverable.insertHeader {canonical : UnorderedMap Nat H256} {threshold : Nat}
    (recoverable : Recoverable first accepted canonical client.infos threshold node)
    (root : first ∈ accepted) (fresh : ∀ other ∈ accepted, other.hash ≠ headerHash) :
    Recoverable first accepted canonical (client.insertHeader header headerHash info).infos threshold
      node where
  reached := by
    intro n hash found below kept
    rcases recoverable.reached n hash found below kept with ancestry | stored
    · exact .inl ancestry
    · refine .inr fun k ancestor above ancestry => ?_
      have present := stored k ancestor above ancestry
      obtain ⟨_, _, oldest, member, _, rfl, _⟩ := ancestry
      rwa [insertHeader_infos fresh member]
  bounded := by
    rw [insertHeader_infos fresh root]
    exact recoverable.bounded

/-- The canonical chain of the tree with the new best header. -/
theorem chainOf_updateCanonical (tree : Tree first accepted)
    (stored : Stored first accepted low client.store)
    (chain : ChainOf accepted best client.canonicalHeaderHashes) (top : best ∈ accepted)
    (lowBest : low ≤ best.number) (parent : older ∈ accepted) (hash : older.hash = node.parentHash)
    (number : node.number = older.number + 1) (fresh : ∀ other ∈ accepted, other.hash ≠ node.hash)
    (infoNumber : info.number = node.number) (infoParent : info.parentHash = node.parentHash)
    (bestNumber : bestInfo.number = best.number)
    (recoverable : Recoverable first accepted client.canonicalHeaderHashes client.infos
      client.hashesGcThreshold node) :
    ChainOf (accepted ++ [node]) node ((client.insertHeader header node.hash info).updateCanonical
      node.hash info bestInfo).canonicalHeaderHashes := by
  have same : (client.insertHeader header node.hash info).canonicalUnder node.hash info bestInfo =
      replacePast (client.insertHeader header node.hash info).infos older.number older.hash
        (cleared client.canonicalHeaderHashes node) := by
    rw [canonicalUnder_eq (bestNumber ▸ chain.none_above) infoNumber, infoParent, number, hash,
      Nat.add_sub_cancel]
    rfl
  have parents : ∀ other ∈ accepted, other ≠ first → ∀ found,
      (client.insertHeader header node.hash info).infos other.hash = some found →
        found.parentHash = other.parentHash := by
    intro other member different found present
    rw [insertHeader_infos fresh member] at present
    exact stored.parentHash tree member different present
  obtain ⟨stop, walk⟩ := replacePast_replaced tree parents parent
    (cleared client.canonicalHeaderHashes node)
  have replaced := chainOf_replaced number walk tree chain top parent hash
    (recoverable.insertHeader tree.root fresh) fun middle member gone => by
      rw [insertHeader_infos fresh member] at gone
      have bound := stored.number_lt member gone
      omega
  rw [← same, ← infoNumber] at replaced
  exact replaced

theorem stored_insertHeader (stored : Stored first accepted low client.store) (parent : older ∈ accepted)
    (bound : low ≤ older.number) (number : node.number = older.number + 1)
    (fresh : ∀ other ∈ accepted, other.hash ≠ node.hash)
    (headerNumber : header.number.toNat = node.number) (infoNumber : info.number = node.number)
    (infoParent : info.parentHash = node.parentHash) :
    Stored first (accepted ++ [node]) low (client.insertHeader header node.hash info).store := by
  have inserted := stored.insert parent bound number fresh headerNumber infoNumber infoParent
  rw [← infoNumber] at inserted
  exact inserted

/-- Of the headers below a new best one, those close enough to it stay stored. -/
theorem stored_updateCanonical (tree : Tree first accepted)
    (stored : Stored first accepted low client.store) (member : node ∈ accepted)
    (bound : low ≤ node.number) (infoNumber : info.number = node.number)
    (positive : 0 < client.finalizedGcThreshold) :
    ∃ low' ≤ node.number, Stored first accepted low'
      (client.updateCanonical node.hash info bestInfo).store := by
  have store : (client.updateCanonical node.hash info bestInfo).store =
      if node.number ≥ client.finalizedGcThreshold then
        gcHeaders (node.number - client.finalizedGcThreshold) client.store
      else client.store := by
    rw [← infoNumber]
    rfl
  rw [store]
  split
  · have collected := gcHeaders_collected
      (stored.closed member (Nat.sub_le node.number client.finalizedGcThreshold))
    exact ⟨_, by omega, stored.collect tree collected⟩
  · exact ⟨low, bound, stored⟩

end Step

theorem ChainOf.mono {accepted more : List Node} (contained : accepted ⊆ more) {best : Node}
    {canonical : UnorderedMap Nat H256} (chain : ChainOf accepted best canonical) :
    ChainOf more best canonical where
  ancestors := by
    intro n hash found
    obtain ⟨older, path, rest⟩ := chain.ancestors n hash found
    exact ⟨older, Descends.mono contained path, rest⟩
  filled := chain.filled

variable [Hashing] (crate : RlpCrate) (eip1559 : Bool) (ethash : EthashCrate)

/-- The node of a header as it is submitted. -/
def nodeOf (blockHeader : Bytes) : Option Node := do
  let header ← BlockHeader.decode crate eip1559 blockHeader
  let hash ← header.hash
  return ⟨hash, header.parentHash, header.number.toNat⟩

def start (config : Config) : Option History := do
  let client ← init crate eip1559 none config
  let first ← nodeOf crate eip1559 config.firstHeader
  return ⟨first, [first], client⟩

/-- A call that panics changes nothing. -/
def machine : Machine History Submission where
  next := fun history call =>
    match history.client.addBlockHeader crate eip1559 ethash call.env call.blockHeader call.dagNodes with
    | none => history
    | some client => { history with
        accepted := history.accepted ++ (nodeOf crate eip1559 call.blockHeader).toList
        client }

/-- If the call makes a header the best one, the canonical chain can follow it. -/
def Follows (history : History) (call : Submission) : Prop :=
  (history.client.addBlockHeader crate eip1559 ethash call.env call.blockHeader
      call.dagNodes).isSome → ∀ header node, BlockHeader.decode crate eip1559 call.blockHeader = some header →
    nodeOf crate eip1559 call.blockHeader = some node → history.client.wouldBeBest header = true →
      Recoverable history.first history.accepted history.client.canonicalHeaderHashes
        history.client.infos history.client.hashesGcThreshold node

/-- The tree, the stored part of it and the canonical chain in a reached state. -/
structure Good (submitted : Set Bytes) (history : History) (best : Node) (low : Nat) : Prop where
  tree : Tree history.first history.accepted
  origin : ∀ node ∈ history.accepted, ∃ raw ∈ submitted, nodeOf crate eip1559 raw = some node
  anyone : history.client.trustedSigner = none
  positive : 0 < history.client.finalizedGcThreshold
  stored : Stored history.first history.accepted low history.client.store
  member : best ∈ history.accepted
  hash : best.hash = history.client.bestHeaderHash
  low : low ≤ best.number
  chain : ChainOf history.accepted best history.client.canonicalHeaderHashes

theorem hash_of_nodeOf {blockHeader : Bytes} {node : Node}
    (found : nodeOf crate eip1559 blockHeader = some node) : node.hash = keccak256 blockHeader := by
  simp only [nodeOf, Option.bind_eq_bind, Option.bind_eq_some_iff, Option.pure_def,
    Option.some.injEq] at found
  obtain ⟨header, decoded, hash, named, rfl⟩ := found
  rw [hash_of_decode decoded] at named
  exact (Option.some.inj named).symm

variable {crate eip1559 ethash}

/-- No info has been collected since the header with number zero. -/
def Archived (history : History) : Prop :=
  history.first.number = 0 ∧ ∀ node ∈ history.accepted, (history.client.infos node.hash).isSome

omit [Hashing] in
instance : DecidablePred Archived := fun history =>
  inferInstanceAs (Decidable (history.first.number = 0 ∧
    ∀ node ∈ history.accepted, (history.client.infos node.hash).isSome))

/-- Where all infos are kept, the walk along a new branch reaches the old one. -/
theorem follows_of_archived {history : History} (archived : Archived history) (call : Submission) :
    Follows crate eip1559 ethash history call := by
  intro _ header node _ _ _
  refine ⟨fun n hash _ _ _ => .inr ?_, fun _ positive _ => ?_⟩
  · rintro k ancestor _ ⟨_, _, older, member, _, rfl, _, _⟩
    exact archived.2 older member
  · rw [archived.1] at positive
    exact absurd positive (Nat.lt_irrefl 0)

theorem good_start {config : Config} {history : History}
    (started : start crate eip1559 config = some history) (anyone : config.trustedSigner = none)
    (positive : 0 < config.finalizedGcThreshold) {submitted : Set Bytes}
    (member : config.firstHeader ∈ submitted) :
    ∃ best low, Good crate eip1559 submitted history best low := by
  simp only [start, Option.bind_eq_bind, Option.bind_eq_some_iff, Option.pure_def,
    Option.some.injEq] at started
  obtain ⟨client, initialized, first, found, rfl⟩ := started
  have origin := found
  simp only [nodeOf, init, Option.bind_eq_bind, Option.bind_eq_some_iff, Option.pure_def,
    Option.some.injEq] at found initialized
  obtain ⟨header, decoded, hash, named, rfl⟩ := found
  obtain ⟨-, -, header', decoded', hash', named', rfl⟩ := initialized
  rw [decoded] at decoded'
  obtain rfl := Option.some.inj decoded'
  rw [named] at named'
  obtain rfl := Option.some.inj named'
  refine ⟨⟨hash, header.parentHash, header.number.toNat⟩, header.number.toNat, Tree.start _, ?_, anyone,
    positive, Stored.start _ rfl rfl, by simp, rfl, Nat.le_refl _, ChainOf.start _⟩
  intro node inside
  rw [List.mem_singleton.mp inside]
  exact ⟨config.firstHeader, member, origin⟩

section Extension

variable {submitted : Set Bytes} {history : History} {best node older : Node} {low : Nat}
  {header : BlockHeader} {info bestInfo : HeaderInfo} {raw : Bytes}
  (good : Good crate eip1559 submitted history best low) (given : raw ∈ submitted)
  (named : nodeOf crate eip1559 raw = some node) (parent : older ∈ history.accepted)
  (lower : low ≤ older.number) (hash : older.hash = node.parentHash)
  (number : node.number = older.number + 1)
  (fresh : ∀ other ∈ history.accepted, other.hash ≠ node.hash)
  (headerNumber : header.number.toNat = node.number) (infoNumber : info.number = node.number)
  (infoParent : info.parentHash = node.parentHash)

include good given named parent lower hash number fresh headerNumber infoNumber infoParent

/-- A header that is stored without becoming the best one. -/
theorem Good.insertHeader : Good crate eip1559 submitted { history with
      accepted := history.accepted ++ [node]
      client := history.client.insertHeader header node.hash info } best low where
  tree := good.tree.extend parent hash number fresh
  origin := by
    intro other inside
    rcases List.mem_append.mp inside with old | new
    · exact good.origin other old
    · rw [List.mem_singleton.mp new]
      exact ⟨raw, given, named⟩
  anyone := good.anyone
  positive := good.positive
  stored := stored_insertHeader good.stored parent lower number fresh headerNumber infoNumber infoParent
  member := List.mem_append_left _ good.member
  hash := good.hash
  low := good.low
  chain := good.chain.mono (List.subset_append_left _ _)

/-- A header that becomes the best one. -/
theorem Good.updateCanonical (bestNumber : bestInfo.number = best.number)
    (recoverable : Recoverable history.first history.accepted history.client.canonicalHeaderHashes
      history.client.infos history.client.hashesGcThreshold node) :
    ∃ low', Good crate eip1559 submitted { history with
      accepted := history.accepted ++ [node]
      client := (history.client.insertHeader header node.hash info).updateCanonical node.hash info
        bestInfo } node low' := by
  have inserted := good.insertHeader given named parent lower hash number fresh headerNumber
    infoNumber infoParent
  obtain ⟨low', bound, stored⟩ := stored_updateCanonical inserted.tree inserted.stored
    (by simp : node ∈ history.accepted ++ [node]) (by omega) infoNumber inserted.positive
  exact ⟨low', inserted.tree, inserted.origin, inserted.anyone, inserted.positive, stored, by simp, rfl,
    bound, chainOf_updateCanonical good.tree good.stored good.chain good.member good.low parent hash
      number fresh infoNumber infoParent bestNumber recoverable⟩

end Extension

theorem good_next {submitted : Set Bytes} (free : CollisionFree keccak256 submitted) {history : History}
    {best : Node} {low : Nat} (good : Good crate eip1559 submitted history best low) {call : Submission}
    (member : call.blockHeader ∈ submitted) (follows : Follows crate eip1559 ethash history call) :
    ∃ best low, Good crate eip1559 submitted ((machine crate eip1559 ethash).next history call)
      best low := by
  cases added : history.client.addBlockHeader crate eip1559 ethash call.env call.blockHeader
      call.dagNodes with
  | none => exact ⟨best, low, by simpa only [machine, added] using good⟩
  | some after =>
    simp only [machine, added]
    obtain ⟨header, prev, decoded, held, number, recorded⟩ := parent_of_success good.anyone added
    obtain ⟨headerHash, info, bestInfo, recorded⟩ := recorded_of_success recorded
    have named : nodeOf crate eip1559 call.blockHeader =
        some ⟨headerHash, header.parentHash, header.number.toNat⟩ := by
      simp [nodeOf, decoded, recorded.hash]
    obtain ⟨node, equal⟩ : ∃ node : Node, node = ⟨headerHash, header.parentHash, header.number.toNat⟩ :=
      ⟨_, rfl⟩
    rw [← equal] at named
    obtain rfl : node.hash = headerHash := by rw [equal]
    have level : header.number.toNat = node.number := by rw [equal]
    have parentHash : header.parentHash = node.parentHash := by rw [equal]
    obtain ⟨older, parent, hash, lower, height⟩ := good.stored.headersMem _ _ held
    have fresh : ∀ other ∈ history.accepted, other.hash ≠ node.hash := by
      intro other inside same
      obtain ⟨raw, given, origin⟩ := good.origin other inside
      have strings := free given member ((hash_of_nodeOf _ _ origin).symm.trans
        (same.trans (hash_of_nodeOf _ _ named)))
      rw [strings, named] at origin
      obtain rfl := Option.some.inj origin
      exact recorded.fresh ((good.stored.known _ _).mpr ⟨by omega, node, inside, rfl, level.symm⟩)
    have infoNumber := recorded.number.trans level
    have infoParent := recorded.parentHash.trans parentHash
    rw [named, recorded.result]
    split
    · rename_i better
      obtain ⟨bestInfo', found, bestNumber, -⟩ := good.stored.infos best good.member good.low
      rw [good.hash, show history.client.store.infos = history.client.infos from rfl,
        recorded.best] at found
      obtain rfl := Option.some.inj found
      exact ⟨node, good.updateCanonical member named parent lower (hash.trans parentHash) (by omega)
        fresh level infoNumber infoParent bestNumber (follows (by rw [added]; rfl) header node decoded
          named better)⟩
    · exact ⟨best, low, good.insertHeader member named parent lower (hash.trans parentHash) (by omega)
        fresh level infoNumber infoParent⟩

omit [Hashing] in
theorem blockHash_of_safe {client : Client} {n : Nat} {hash : H256}
    (safe : client.blockHashSafe n = some (some hash)) : client.blockHash n = some hash := by
  unfold Client.blockHashSafe at safe
  split at safe
  · cases safe
  · rename_i found
    obtain ⟨-, -, returned⟩ := Option.bind_eq_some_iff.mp safe
    simp only [Option.pure_def, Option.some.injEq] at returned
    split at returned
    · cases returned
    · rw [found, returned]

/-- In every run whose steps all meet the condition, the canonical chain is the
ancestry of the best header in the tree of all accepted headers. -/
theorem canonical_ancestry (crate : RlpCrate) (eip1559 : Bool) (ethash : EthashCrate) (config : Config)
    (history : History) (calls : List Submission)
    (started : start crate eip1559 config = some history) (anyone : config.trustedSigner = none)
    (positive : 0 < config.finalizedGcThreshold)
    (free : CollisionFree keccak256
      ({config.firstHeader} ∪ { raw | ∃ call ∈ calls, raw = call.blockHeader }))
    (follows : (machine crate eip1559 ethash).StepsMeet (Follows crate eip1559 ethash) history calls)
    (n : Nat) (hash : H256) :
    let reached := (machine crate eip1559 ethash).run history calls
    reached.client.blockHash n = some hash ∨ reached.client.blockHashSafe n = some (some hash) →
      AncestorAt reached.accepted reached.client.bestHeaderHash n hash := by
  intro reached canonical
  let submitted : Set Bytes := {config.firstHeader} ∪ { raw | ∃ call ∈ calls, raw = call.blockHeader }
  have initial : ∃ best low, Good crate eip1559 submitted history best low :=
    good_start started anyone positive (.inl rfl)
  have preserved : ∀ state call, (∃ best low, Good crate eip1559 submitted state best low) →
      Follows crate eip1559 ethash state call ∧ call ∈ calls →
      ∃ best low, Good crate eip1559 submitted ((machine crate eip1559 ethash).next state call) best low := by
    rintro state call ⟨best, low, good⟩ ⟨permitted, member⟩
    exact good_next free good (.inr ⟨call, member, rfl⟩) permitted
  obtain ⟨best, low, good⟩ := Machine.run_invariant_of_steps _ preserved initial calls
    (follows.mem (List.Subset.refl calls))
  have found : reached.client.canonicalHeaderHashes n = some hash := by
    rcases canonical with found | safe
    · exact found
    · exact blockHash_of_safe safe
  obtain ⟨older, path, height, named⟩ := good.chain.ancestors n hash found
  exact ⟨best, good.member, older, Descends.mem path good.member, good.hash, named, height, path⟩

section Sample

omit [Hashing]

/-- A header of difficulty one; the mark tells two branches apart. -/
def sampleBlock (parentHash : H256) (number : Nat) (mark : UInt8) : Bytes :=
  HeaderFields.encode { sampleHeader with
    parentHash
    difficulty := 1
    number := BitVec.ofNat 64 number
    gasLimit := 5000
    timestamp := BitVec.ofNat 64 number
    extraData := [mark] } (some 7)

def digest (value : Nat) : H256 := ⟨beBytes 32 value, by simp⟩

/-- The hashes of two branches on one first header. -/
def leftHash : Nat → H256
  | 0 => digest 0x9022f2b614750a85975032e482068dfa2cd2fc5e26b47646b905689a4d2c0594
  | 1 => digest 0x8de9b32cd0e83a02a3e243a3e9be14cce9bcbce1dc8afddc811a7dbe120bcc2c
  | 2 => digest 0x4a92564bee53d8c273a31ff0f049854836cfccf2c49a94404bfd85b67d652737
  | 3 => digest 0x57df938e0959a3baaad539f39015fd927c185ca47d22078e497df4c68f79d90a
  | _ => digest 0x87466ac798e0acdaf7cd1bd876a6deeda845486c6594fc0e9389053a3ac8a389

def rightHash : Nat → H256
  | 0 => leftHash 0
  | 1 => digest 0xba33bb8aa4e0067111cc33c87236833d7ed3455700fa5b0347dcd4d981099cd4
  | 2 => digest 0x8e4654618fd54a603b28ac89cc003ca7e91ea5908f195c020e8969021990830a
  | 3 => digest 0xd994f56a555d474c153867b21da86f576193eba0ce882103503828e89a0ca2aa
  | 4 => digest 0x01f8893ca87bd5c6d5f636d7a40ace260f40a3bd4ab2255446f1dc6b19f1288e
  | _ => digest 0xb957b4ab309796d794c784267407572a6ea5d55da89905fd2fcfe2808b32dfd7

def leftBlock (number : Nat) : Node × Bytes :=
  (⟨leftHash number, leftHash (number - 1), number⟩, sampleBlock (leftHash (number - 1)) number 1)

def rightBlock (number : Nat) : Node × Bytes :=
  (⟨rightHash number, rightHash (number - 1), number⟩, sampleBlock (rightHash (number - 1)) number 2)

def firstBlock : Node × Bytes :=
  (⟨leftHash 0, zeroBytes 32, 0⟩, sampleBlock (zeroBytes 32) 0 0)

/-- The branches grow in turn; the right one is longer in the end. -/
def sampleBlocks : List (Node × Bytes) :=
  [leftBlock 1, rightBlock 1, leftBlock 2, rightBlock 2, leftBlock 3, rightBlock 3, leftBlock 4,
    rightBlock 4, rightBlock 5]

/-- Two generations of headers are kept, and all canonical hashes. -/
def sampleConfig : Config where
  validateEthash := false
  dagsStartEpoch := 0
  dagsMerkleRoots := [zeroBytes 16]
  firstHeader := firstBlock.2
  hashesGcThreshold := 100
  finalizedGcThreshold := 2
  numConfirmations := 4
  trustedSigner := none

/-- The boundary of the crate, and a result below it. -/
def sampleEthash : EthashCrate where
  getFullSize := fun _ => 0
  crossBoundary := fun value => if value ≤ 1 then BitVec.allOnes 256 else (2 ^ 255 / value) * 2
  hashimotoWithHasher := fun _ _ _ _ => some (zeroBytes 32, zeroBytes 32)

def sampleCalls : List Submission :=
  sampleBlocks.map fun block => ⟨⟨"client", "relayer", "relayer"⟩, block.2, []⟩

theorem sampleBlocks_hash : ∀ block ∈ firstBlock :: sampleBlocks, Keccak.hash block.2 = block.1.hash := by
  decide +kernel

def sampleDigests : List (Bytes × Bytes32) :=
  (firstBlock :: sampleBlocks).map fun block => (block.2, block.1.hash)

/-- The digests of blocks that were named by their hashes can be looked up. -/
theorem lookup_blocks {blocks : List (Node × Bytes)}
    (named : ∀ block ∈ blocks, Keccak.hash block.2 = block.1.hash) :
    Hashing.lookup (blocks.map fun block => (block.2, block.1.hash)) = Hashing.platform := by
  refine Hashing.lookup_eq fun entry member => ?_
  obtain ⟨block, inside, rfl⟩ := List.mem_map.mp member
  exact named block inside

/-- Strings among blocks with different hashes do not collide. -/
theorem collisionFree_blocks {hash : Bytes → Bytes32} {blocks : List (Node × Bytes)} {strings : Set Bytes}
    (named : ∀ block ∈ blocks, hash block.2 = block.1.hash)
    (distinct : (blocks.map fun block => block.1.hash).Nodup)
    (given : ∀ raw ∈ strings, ∃ block ∈ blocks, block.2 = raw) : CollisionFree hash strings := by
  intro left inside right inside' same
  obtain ⟨block, member, rfl⟩ := given left inside
  obtain ⟨block', member', rfl⟩ := given right inside'
  rw [named block member, named block' member'] at same
  rw [List.inj_on_of_nodup_map distinct member member' same]

theorem sampleDigests_right : Hashing.lookup sampleDigests = Hashing.platform :=
  lookup_blocks sampleBlocks_hash

theorem sampleBlocks_free :
    letI := Hashing.platform
    CollisionFree keccak256 { raw | ∃ block ∈ firstBlock :: sampleBlocks, block.2 = raw } :=
  collisionFree_blocks sampleBlocks_hash (by decide +kernel) fun _ given => given

theorem sampleCalls_free :
    letI := Hashing.platform
    CollisionFree keccak256
      ({sampleConfig.firstHeader} ∪ { raw | ∃ call ∈ sampleCalls, raw = call.blockHeader }) := by
  refine sampleBlocks_free.mono ?_
  rintro raw (same | ⟨call, member, same⟩)
  · exact ⟨firstBlock, List.mem_cons_self, same.symm⟩
  · obtain ⟨block, inside, rfl⟩ := List.mem_map.mp member
    exact ⟨block, List.mem_cons_of_mem _ inside, same.symm⟩

/-- The right branch becomes canonical down to number two only: the info of its
header there is gone. -/
theorem stale_hash_after_reorg :
    letI := Hashing.platform
    CollisionFree keccak256
      ({sampleConfig.firstHeader} ∪ { raw | ∃ call ∈ sampleCalls, raw = call.blockHeader }) ∧
    ∃ history, start .reference true sampleConfig = some history ∧
      let reached := (machine .reference true sampleEthash).run history sampleCalls
      reached.accepted = (firstBlock :: sampleBlocks).map Prod.fst ∧
      reached.client.blockHashSafe 1 = some (some (leftHash 1)) ∧
      ¬ AncestorAt reached.accepted reached.client.bestHeaderHash 1 (leftHash 1) := by
  refine ⟨sampleCalls_free, ?_⟩
  rw [← sampleDigests_right]
  let := Hashing.lookup sampleDigests
  have computed : (start .reference true sampleConfig).map (fun history =>
      let reached := (machine .reference true sampleEthash).run history sampleCalls
      (reached.accepted, reached.client.blockHashSafe 1, reached.client.bestHeaderHash)) =
      some ((firstBlock :: sampleBlocks).map Prod.fst, some (some (leftHash 1)), rightHash 5) := by
    decide +kernel
  obtain ⟨history, started, results⟩ := Option.map_eq_some_iff.mp computed
  simp only [Prod.mk.injEq] at results
  obtain ⟨accepted, safe, best⟩ := results
  refine ⟨history, started, accepted, safe, ?_⟩
  rw [accepted, best]
  rintro ⟨child, _, older, _, named, named', -, path⟩
  have closed : ∀ child ∈ (firstBlock :: sampleBlocks).map Prod.fst,
      ∀ older ∈ (firstBlock :: sampleBlocks).map Prod.fst, older.hash = child.parentHash →
        child.hash ∈ (List.range 6).map rightHash → older.hash ∈ (List.range 6).map rightHash := by
    decide +kernel
  have right := Descends.preserves closed path (by rw [named]; decide +kernel)
  rw [named'] at right
  revert right
  decide +kernel

/-- The same thresholds, but the infos of all headers are kept. -/
def roomyConfig : Config := { sampleConfig with finalizedGcThreshold := 100 }

/-- With room for all headers, the same calls leave the right branch canonical. -/
theorem canonical_ancestry_sample :
    letI := Hashing.platform
    ∃ history, start .reference true roomyConfig = some history ∧
      let reached := (machine .reference true sampleEthash).run history sampleCalls
      reached.client.bestHeaderHash = rightHash 5 ∧
      ∀ n ∈ List.range 6, reached.client.blockHash n = some (rightHash n) ∧
        AncestorAt reached.accepted (rightHash 5) n (rightHash n) := by
  have free := sampleCalls_free
  rw [← sampleDigests_right] at free ⊢
  let := Hashing.lookup sampleDigests
  have computed : (start .reference true roomyConfig).map (fun history =>
      let reached := (machine .reference true sampleEthash).run history sampleCalls
      (reached.client.bestHeaderHash, (List.range 6).map reached.client.blockHash,
        decide ((machine .reference true sampleEthash).StepsMeet (fun history _ => Archived history)
          history sampleCalls))) =
      some (rightHash 5, (List.range 6).map fun n => some (rightHash n), true) := by
    decide +kernel
  obtain ⟨history, started, results⟩ := Option.map_eq_some_iff.mp computed
  simp only [Prod.mk.injEq, decide_eq_true_eq] at results
  obtain ⟨best, canonical, archived⟩ := results
  refine ⟨history, started, best, fun n member => ?_⟩
  have found := List.map_inj_left.mp canonical n member
  have ancestry := canonical_ancestry .reference true sampleEthash roomyConfig history sampleCalls started
    rfl (by decide) free (archived.imp fun history call here => follows_of_archived here call) n (rightHash n)
    (.inl found)
  rw [best] at ancestry
  exact ⟨found, ancestry⟩

end Sample

end RainbowBridge.EthClient
