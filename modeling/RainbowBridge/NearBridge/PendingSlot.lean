import RainbowBridge.NearBridge.Submissions

/-! The untrusted slot. As long as `lastValidAt` is not zero, it describes one
submitted block. Signatures, keys and stakes that earlier blocks and epochs left
in the arrays are never taken for those of that block. -/

namespace RainbowBridge.NearBridge

open Lib Solidity

/-- The 41 bytes that a producer signs to approve the block. -/
def approvalBytes (nearBlock : LightClientBlock) : FixedBytes 41 :=
  ⟨0 :: nearBlock.nextHash.toList ++ leBytes 8 ((nearBlock.innerLite.height.toNat + 2) % 2 ^ 64),
    by simp⟩

/-- `Ed25519.check` of a whole message, which it takes in two parts. -/
def Config.verify (cfg : Config) (key : Bytes32) (signature : Signature) (message : FixedBytes 41) :
    Bool :=
  cfg.edwards key signature.r signature.s ⟨message.toList.take 32, by simp⟩
    ⟨message.toList.drop 32, by simp⟩

/-- The untrusted slot describes this block, in a bridge whose current and next
epoch are these. -/
structure SlotDescribes (s : State) (current next : EpochInfo) (nearBlock : LightClientBlock) :
    Prop where
  currentSlot : (s.epochs s.curEpoch).Stores current
  nextSlot : (s.epochs (s.curEpoch + 1)).Stores next
  height : s.untrustedHeight = nearBlock.innerLite.height
  timestamp : s.untrustedTimestamp = nearBlock.innerLite.timestamp.toNat
  hash : s.untrustedHash = nearBlock.hash
  merkleRoot : s.untrustedMerkleRoot = nearBlock.innerLite.blockMerkleRoot
  nextHash : s.untrustedNextHash = nearBlock.nextHash
  nextEpoch : s.untrustedNextEpoch = true ↔
    nearBlock.innerLite.epochId ≠ current.epochId ∧ nearBlock.innerLite.epochId = next.epochId
  sameEpoch : s.untrustedNextEpoch = false ↔ nearBlock.innerLite.epochId = current.epochId
  signatureSet : ∀ i, s.untrustedSignatureSet.getLsbD i = true ↔
    i < (if s.untrustedNextEpoch then next else current).producers.length ∧
      approved nearBlock.approvalsAfterNext i = true
  announced : s.untrustedNextEpoch = true → (s.epochs (s.curEpoch + 2)).Stores (declaredEpoch nearBlock)

/-- What `checkBlockProducerSignatureInHead` answers for a block whose producers
are these. -/
def checkApproval (cfg : Config) (producers : List BlockProducer) (nearBlock : LightClientBlock)
    (signatureIndex : Nat) : Except Revert Bool :=
  match producers[signatureIndex]?, nearBlock.approvalsAfterNext[signatureIndex]? with
  | some producer, some ⟨true, signature⟩ =>
    .ok (cfg.verify producer.publicKey signature (approvalBytes nearBlock))
  | _, _ => .error "No such signature"

theorem Untrusted.slotDescribes {s : State} {validators : List BlockProducer}
    {chain : List LightClientBlock} {nearBlock : LightClientBlock}
    (committed : Committed s validators chain) (untrusted : Untrusted s validators chain nearBlock) :
    SlotDescribes s (epochsAfter validators chain).1 (epochsAfter validators chain).2 nearBlock := by
  have stores := committed.epochOf_stores s.untrustedNextEpoch
  refine ⟨committed.current, committed.next, untrusted.height, untrusted.timestamp, untrusted.hash,
    untrusted.merkleRoot, untrusted.nextHash, ?_, ?_, ?_, untrusted.announced⟩
  · rw [untrusted.nextEpoch]
    rcases untrusted.follows with ⟨same, _⟩ | ⟨_, opens, _⟩
    · simp [same]
    · exact (and_iff_left opens).symm
  · rw [← Bool.not_eq_true, untrusted.nextEpoch, not_not]
  · intro i
    rw [← and_shift_ne_zero, ← stores.2.count]
    exact untrusted.present i

/-- The bytes of the message that the contract builds are those to be signed. -/
theorem approvalMessage_eq {s : State} {nearBlock : LightClientBlock}
    (height : s.untrustedHeight = nearBlock.innerLite.height)
    (nextHash : s.untrustedNextHash = nearBlock.nextHash) :
    (approvalMessage s.untrustedNextHash s.untrustedHeight).toList =
      (approvalBytes nearBlock).toList ++ List.replicate 23 0 := by
  rw [height, nextHash]
  simp [approvalMessage, approvalBytes]

theorem edwardsCheck_eq {cfg : Config} {s : State} {nearBlock : LightClientBlock} {i : Nat}
    (height : s.untrustedHeight = nearBlock.innerLite.height)
    (nextHash : s.untrustedNextHash = nearBlock.nextHash) :
    edwardsCheck cfg s i = cfg.verify ((s.epochOf s.untrustedNextEpoch).keys i)
      (s.untrustedSignatures i) (approvalBytes nearBlock) := by
  have message := approvalMessage_eq height nextHash
  have length : (approvalBytes nearBlock).toList.length = 41 := by simp
  have front : (approvalMessage s.untrustedNextHash s.untrustedHeight).toList.take 32 =
      (approvalBytes nearBlock).toList.take 32 := by
    rw [message, List.take_append_of_le_length (by omega)]
  have back : ((approvalMessage s.untrustedNextHash s.untrustedHeight).toList.drop 32).take 9 =
      (approvalBytes nearBlock).toList.drop 32 := by
    rw [message, List.drop_append_of_le_length (by omega), List.take_left' (by simp)]
  simp only [edwardsCheck, Config.verify, front, back]

/-- The answers of the contract are about the block in the slot. -/
theorem Untrusted.checkBlockProducerSignatureInHead {s : State} {validators : List BlockProducer}
    {chain : List LightClientBlock} {nearBlock : LightClientBlock}
    (committed : Committed s validators chain) (untrusted : Untrusted s validators chain nearBlock)
    (cfg : Config) (i : Nat) :
    NearBridge.checkBlockProducerSignatureInHead cfg s i =
      checkApproval cfg (if s.untrustedNextEpoch then (epochsAfter validators chain).2
        else (epochsAfter validators chain).1).producers nearBlock i := by
  have stores := (committed.epochOf_stores s.untrustedNextEpoch).2
  have present := untrusted.present i
  have few := (s.epochOf s.untrustedNextEpoch).numBPs_le
  generalize (if s.untrustedNextEpoch then (epochsAfter validators chain).2
    else (epochsAfter validators chain).1).producers = producers at stores ⊢
  unfold checkApproval
  split
  · rename_i producer signature inside found
    obtain ⟨known, rfl⟩ := List.getElem?_eq_some_iff.mp inside
    have bit : s.hasSignature i := present.mpr ⟨stores.count ▸ known, by simp [approved, found]⟩
    have low : i < maxBlockProducers := by
      have count := stores.count
      omega
    have signed : s.untrustedSignatures i = signature := by
      rw [untrusted.signatures i bit, signatureAt, found]
    rw [NearBridge.checkBlockProducerSignatureInHead, edwardsCheck_eq untrusted.height untrusted.nextHash,
      stores.keys i known, signed]
    simp [bit, low, require]
  · rename_i absent
    have unset : ¬ s.hasSignature i := by
      intro bit
      obtain ⟨inside, found⟩ := present.mp bit
      have known : i < producers.length := stores.count ▸ inside
      unfold approved at found
      split at found
      · cases found
      · rename_i approval here
        obtain ⟨given, signature⟩ := approval
        obtain rfl : given = true := found
        exact absent producers[i] signature (List.getElem?_eq_getElem known) here
    simp [NearBridge.checkBlockProducerSignatureInHead, unset, require]
    rfl

section Run

variable [Hashing]

/-- A successful call of this run submitted the block. -/
def SubmittedIn (cfg : Config) (time pausedFlags : Nat) (labels : List Label) (submitter : Address)
    (nearBlock : LightClientBlock) : Prop :=
  ∃ earlier later accepts data state,
    labels = earlier ++ .call submitter accepts (.addLightClientBlock data) :: later ∧
    Borsh.decodeAll NearDecoder.decodeLightClientBlock data = .ok nearBlock ∧
    exec cfg (((machine cfg).run (.deployed time pausedFlags) earlier).env submitter accepts)
      (.addLightClientBlock data) ((machine cfg).run (.deployed time pausedFlags) earlier).state =
        .ok state

theorem SubmittedIn.snoc {cfg : Config} {time pausedFlags : Nat} {labels : List Label}
    {submitter : Address} {nearBlock : LightClientBlock} (label : Label)
    (submitted : SubmittedIn cfg time pausedFlags labels submitter nearBlock) :
    SubmittedIn cfg time pausedFlags (labels ++ [label]) submitter nearBlock := by
  obtain ⟨earlier, later, accepts, data, state, rfl, decoded, success⟩ := submitted
  exact ⟨earlier, later ++ [label], accepts, data, state, by simp, decoded, success⟩

/-- The state of the logged run is that of the contract. -/
theorem logged_run_moment (cfg : Config) (time pausedFlags : Nat) (labels : List Label) :
    ((logged cfg).run (.deployed time pausedFlags) labels).point.moment =
      (machine cfg).run (.deployed time pausedFlags) labels := by
  rw [logged_run_point, watched_run_moment]
  rfl

/-- A call adds at most its own block to the chain. -/
theorem mem_recordSubmission {env : Env} {before : State} {chain : List Submission} {call : Call}
    {submission : Submission} (member : submission ∈ recordSubmission env before chain call) :
    submission ∈ chain ∨ env.sender = submission.submitter ∧ call = .addLightClientBlock submission.data ∧
      Borsh.decodeAll NearDecoder.decodeLightClientBlock submission.data = .ok submission.block := by
  cases call with
  | addLightClientBlock data =>
    simp only [recordSubmission] at member
    split at member
    · rename_i nearBlock decoded
      rcases List.mem_cons.mp member with rfl | earlier
      · exact .inr ⟨rfl, rfl, decoded⟩
      · split at earlier
        · exact .inl earlier
        · cases earlier
    · exact .inl member
  | challenge receiver signatureIndex => cases member
  | deposit value => exact .inl member
  | withdraw => exact .inl member
  | initWithValidators data => exact .inl member
  | initWithBlock data => exact .inl member
  | adminPause flags => exact .inl member
  | adminReceiveEth value => exact .inl member

/-- Whatever stands in the log was submitted by a call of the run. -/
theorem submittedIn_of_mem (cfg : Config) (time pausedFlags : Nat) (labels : List Label) :
    ∀ submission ∈ ((logged cfg).run (.deployed time pausedFlags) labels).chain,
      SubmittedIn cfg time pausedFlags labels submission.submitter submission.block := by
  induction labels using List.reverseRecOn with
  | nil => exact fun _ none => (nomatch none)
  | append_singleton labels label ih =>
    intro submission member
    have same := logged_run_moment cfg time pausedFlags labels
    rw [Machine.run_append] at member
    generalize (logged cfg).run (.deployed time pausedFlags) labels = log at ih same member
    cases label with
    | call sender accepts call =>
      simp only [Machine.run_cons, Machine.run_nil, logged] at member
      split at member
      · rename_i state success
        rcases mem_recordSubmission member with earlier | ⟨rfl, rfl, decoded⟩
        · exact (ih submission earlier).snoc _
        · rw [same] at success
          exact ⟨labels, [], accepts, submission.data, state, rfl, decoded, success⟩
      · exact (ih submission member).snoc _
    | wait seconds => exact (ih submission member).snoc _
    | force value => exact (ih submission member).snoc _

omit [Hashing] in
/-- With an untrusted block, storage is committed to the blocks before it. -/
theorem Tracks.untrusted {time : Nat} {s : State} {history : History} {nearBlock : LightClientBlock}
    (tracks : Tracks time s history) (used : s.lastValidAt ≠ 0)
    (latest : history.latest = some nearBlock) :
    ∃ chain, (history.confirmed = chain ∨ history.confirmed = nearBlock :: chain) ∧
      Committed s history.validators chain ∧ Untrusted s history.validators chain nearBlock := by
  cases tracks with
  | uninitialized _ idle => exact absurd idle used
  | settled _ idle => exact absurd idle used
  | pending _ _ committed last waiting untrusted =>
    obtain rfl : last = nearBlock := by simpa [History.latest, waiting] using latest
    exact ⟨history.confirmed, .inl rfl, committed, untrusted⟩
  | confirmed _ _ _ chain last added quiet committed untrusted =>
    obtain rfl : last = nearBlock := by simpa [History.latest, quiet, added] using latest
    exact ⟨chain, .inr added, committed, untrusted⟩

/-- In every reachable state with an untrusted block, the slot describes one block
that the last submitter submitted, and the signature check answers for that
block, whatever the arrays held before. -/
theorem pending_slot (cfg : Config) (time pausedFlags : Nat) (labels : List Label)
    (used : ((machine cfg).run (.deployed time pausedFlags) labels).state.lastValidAt ≠ 0) :
    let s := ((machine cfg).run (.deployed time pausedFlags) labels).state
    let history := ((watched cfg).run (.deployed time pausedFlags) labels).history
    ∃ nearBlock chain,
      SubmittedIn cfg time pausedFlags labels s.lastSubmitter nearBlock ∧
      (history.confirmed = chain ∨ history.confirmed = nearBlock :: chain) ∧
      let epochs := epochsAfter history.validators chain
      SlotDescribes s epochs.1 epochs.2 nearBlock ∧
      ∀ signatureIndex, checkBlockProducerSignatureInHead cfg s signatureIndex =
        checkApproval cfg (if s.untrustedNextEpoch then epochs.2 else epochs.1).producers nearBlock
          signatureIndex := by
  have valid := Logged.Valid.run cfg time pausedFlags labels
  have members := submittedIn_of_mem cfg time pausedFlags labels
  have moments := logged_run_moment cfg time pausedFlags labels
  have points := logged_run_point cfg (.deployed time pausedFlags) labels
  generalize (logged cfg).run (.deployed time pausedFlags) labels = log at valid members moments points
  dsimp only
  rw [← moments] at used ⊢
  rw [show (watched cfg).run (.deployed time pausedFlags) labels = log.point from points.symm]
  obtain ⟨submission, earlier, listed, describes⟩ := valid.last used
  obtain ⟨chain, split, committed, untrusted⟩ := valid.tracked.untrusted used describes.latest
  refine ⟨submission.block, chain, ?_, split, untrusted.slotDescribes committed,
    untrusted.checkBlockProducerSignatureInHead committed cfg⟩
  rw [← describes.submitter]
  exact members submission (by simp [listed])

end Run

/-- One submission, in a bridge whose current and next epoch have the same id. -/
def sampleSubmission : List Label :=
  sampleStart ++ [.call 1 (fun _ => true) (.addLightClientBlock (sampleBlock 2 [0]))]

theorem pending_slot_sample :
    letI := Hashing.platform
    let s := ((machine sampleConfig).run (.deployed 1 0) sampleSubmission).state
    s.lastValidAt ≠ 0 ∧ ∃ nearBlock current next,
      SubmittedIn sampleConfig 1 0 sampleSubmission s.lastSubmitter nearBlock ∧
      SlotDescribes s current next nearBlock := by
  let := Hashing.platform
  intro s
  have used : s.lastValidAt ≠ 0 := by decide +kernel
  obtain ⟨nearBlock, chain, submitted, _, describes, _⟩ :=
    pending_slot sampleConfig 1 0 sampleSubmission used
  exact ⟨used, nearBlock, _, _, submitted, describes⟩

/-- Nothing keeps the ids of two epochs apart. The flag is then not set for a block
whose epoch id is that of the next epoch. -/
theorem flag_of_equal_ids :
    letI := Hashing.platform
    let s := ((machine sampleConfig).run (.deployed 1 0) sampleSubmission).state
    s.lastValidAt ≠ 0 ∧
      ∀ nearBlock, SubmittedIn sampleConfig 1 0 sampleSubmission s.lastSubmitter nearBlock →
        ¬ (s.untrustedNextEpoch = true ↔
          nearBlock.innerLite.epochId = (s.epochs (s.curEpoch + 1)).epochId) := by
  let := Hashing.platform
  intro s
  have stored : s.lastValidAt ≠ 0 ∧ s.untrustedNextEpoch = false ∧
      (s.epochs (s.curEpoch + 1)).epochId = zeroBytes 32 := by
    decide +kernel
  have id : (Borsh.decodeAll NearDecoder.decodeLightClientBlock (sampleBlock 2 [0])).map
      (fun nearBlock => nearBlock.innerLite.epochId) = .ok (zeroBytes 32) := by
    decide +kernel
  clear_value s
  obtain ⟨used, unset, next⟩ := stored
  refine ⟨used, fun nearBlock submitted flag => ?_⟩
  obtain ⟨earlier, later, accepts, data, state, listed, decoded, _⟩ := submitted
  have member : Label.call s.lastSubmitter accepts (.addLightClientBlock data) ∈ sampleSubmission := by
    rw [listed]
    exact List.mem_append_right _ List.mem_cons_self
  obtain ⟨_, _, rfl⟩ : s.lastSubmitter = 1 ∧ accepts = (fun _ => true) ∧ data = sampleBlock 2 [0] := by
    simpa [sampleSubmission, sampleStart] using member
  rw [decoded] at id
  rw [unset, next] at flag
  exact absurd (flag.mpr (Except.ok.inj id)) (by simp)

end RainbowBridge.NearBridge
