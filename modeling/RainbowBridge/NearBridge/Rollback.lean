import RainbowBridge.NearBridge.Tracks

/-! A challenge undoes a submission. Two states are equivalent when they differ
only in storage that no later call reads before writing it: the untrusted fields
without an untrusted block, the slot of an epoch that nothing announced, and
what lies beyond the producers of a slot. Equivalent states cannot be told apart. -/

namespace RainbowBridge.NearBridge

open Lib Solidity

/-- The slots agree on everything below the number of producers. -/
structure Epoch.Alike (epoch other : Epoch) : Prop where
  epochId : epoch.epochId = other.epochId
  numBPs : epoch.numBPs = other.numBPs
  keys : ∀ i < epoch.numBPs, epoch.keys i = other.keys i
  stakes : ∀ i < epoch.numBPs, packedStake epoch.packedStakes i = packedStake other.packedStakes i
  stakeThreshold : epoch.stakeThreshold = other.stakeThreshold

/-- The states have the same untrusted block. -/
structure SameUntrusted (s other : State) : Prop where
  height : s.untrustedHeight = other.untrustedHeight
  timestamp : s.untrustedTimestamp = other.untrustedTimestamp
  nextEpoch : s.untrustedNextEpoch = other.untrustedNextEpoch
  hash : s.untrustedHash = other.untrustedHash
  merkleRoot : s.untrustedMerkleRoot = other.untrustedMerkleRoot
  nextHash : s.untrustedNextHash = other.untrustedNextHash
  signatureSet : s.untrustedSignatureSet = other.untrustedSignatureSet
  signatures : ∀ i, s.hasSignature i → s.untrustedSignatures i = other.untrustedSignatures i
  indices : ∀ i, s.hasSignature i → i < (s.epochOf s.untrustedNextEpoch).numBPs
  submitter : s.lastSubmitter = other.lastSubmitter
  announced : s.untrustedNextEpoch = true →
    (s.epochs (s.curEpoch + 2)).Alike (other.epochs (s.curEpoch + 2))

/-- The states differ only in storage that is dead. -/
structure Equivalent (s other : State) : Prop where
  ready : s.initialized = true
  initialized : s.initialized = other.initialized
  paused : s.paused = other.paused
  curEpoch : s.curEpoch = other.curEpoch
  curHeight : s.curHeight = other.curHeight
  lastValidAt : s.lastValidAt = other.lastValidAt
  hashes : s.blockHashes_ = other.blockHashes_
  roots : s.blockMerkleRoots_ = other.blockMerkleRoots_
  balanceOf : s.balanceOf = other.balanceOf
  balance : s.balance = other.balance
  current : (s.epochs s.curEpoch).Alike (other.epochs s.curEpoch)
  next : (s.epochs (s.curEpoch + 1)).Alike (other.epochs (s.curEpoch + 1))
  untrusted : s.lastValidAt ≠ 0 → SameUntrusted s other

theorem Epoch.Alike.refl (epoch : Epoch) : epoch.Alike epoch :=
  ⟨rfl, rfl, fun _ _ => rfl, fun _ _ => rfl, rfl⟩

/-- Slots that hold one validator set are alike. -/
theorem Epoch.Holds.alike {epoch other : Epoch} {producers : List BlockProducer}
    (stored : epoch.Holds producers) (stored' : other.Holds producers)
    (id : epoch.epochId = other.epochId) : epoch.Alike other := by
  refine ⟨id, stored.count.trans stored'.count.symm, ?_, ?_,
    stored.threshold.trans stored'.threshold.symm⟩
  · intro i inside
    have known : i < producers.length := stored.count ▸ inside
    rw [stored.keys i known, stored'.keys i known]
  · intro i inside
    have known : i < producers.length := stored.count ▸ inside
    rw [stored.stakes i known, stored'.stakes i known]

/-- The vote count reads no stake beyond the producers. -/
theorem countVotes_congr {packed other : Nat → Nat} (approvals : List OptionalSignature)
    (remaining i votedFor : Nat)
    (same : ∀ j, i ≤ j → j < i + remaining → packedStake packed j = packedStake other j) :
    countVotes packed approvals remaining i votedFor =
      countVotes other approvals remaining i votedFor := by
  have addVote_congr : ∀ j votedFor, i ≤ j → j < i + remaining →
      addVote packed approvals j votedFor = addVote other approvals j votedFor := by
    intro j votedFor low high
    rw [addVote, addVote, same j low high]
  fun_induction countVotes packed approvals remaining i votedFor with
  | case1 i votedFor => rfl
  | case2 i votedFor => exact addVote_congr i votedFor (by omega) (by omega)
  | case3 remaining i votedFor ih =>
    rw [countVotes, ← addVote_congr i _ (by omega) (by omega),
      ← addVote_congr (i + 1) _ (by omega) (by omega)]
    exact ih (fun j low high => same j (by omega) (by omega))
      (fun j votedFor low high => addVote_congr j votedFor (by omega) (by omega))

theorem Equivalent.epochOf {s other : State} (same : Equivalent s other) (next : Bool) :
    (s.epochOf next).Alike (other.epochOf next) := by
  unfold State.epochOf
  rw [← same.curEpoch]
  cases next with
  | false => exact same.current
  | true => exact same.next

theorem Equivalent.unpaused {s other : State} (same : Equivalent s other) (cfg : Config) (env : Env)
    (flag : Nat) : Unpaused cfg env s flag ↔ Unpaused cfg env other flag := by
  rw [Unpaused, Unpaused, same.paused]

/-- Pause flags, deposits and ETH can change alike on both sides. -/
theorem Equivalent.pay {s other : State} (same : Equivalent s other) {paused paused' : Nat}
    {balanceOf balanceOf' : Address → Nat} {balance balance' : Nat} (flags : paused = paused')
    (deposits : balanceOf = balanceOf') (ether : balance = balance') :
    Equivalent { s with paused := paused, balanceOf := balanceOf, balance := balance }
      { other with paused := paused', balanceOf := balanceOf', balance := balance' } where
  ready := same.ready
  initialized := same.initialized
  paused := flags
  curEpoch := same.curEpoch
  curHeight := same.curHeight
  lastValidAt := same.lastValidAt
  hashes := same.hashes
  roots := same.roots
  balanceOf := deposits
  balance := ether
  current := same.current
  next := same.next
  untrusted := fun used =>
    have block := same.untrusted used
    ⟨block.height, block.timestamp, block.nextEpoch, block.hash, block.merkleRoot, block.nextHash,
      block.signatureSet, block.signatures, block.indices, block.submitter, block.announced⟩

theorem Equivalent.transfer {s other : State} (same : Equivalent s other) (env : Env)
    (recipient : Address) (amount : Nat) :
    EndAlike Equivalent (transfer env recipient amount s) (transfer env recipient amount other) :=
  .require_bind (by rw [same.balance]) fun _ =>
    .succeeded (same.pay same.paused same.balanceOf (by rw [same.balance]))

theorem Equivalent.deposit {s other : State} (same : Equivalent s other) (cfg : Config) (env : Env)
    (value : Nat) :
    EndAlike Equivalent (deposit cfg env value s) (deposit cfg env value other) :=
  .require_bind (same.unpaused cfg env _) fun _ =>
    .require_bind (by rw [same.balanceOf]) fun _ =>
      .succeeded (same.pay same.paused (by rw [same.balanceOf]) (by rw [same.balance]))

/-- Without an untrusted block, everyone may withdraw whoever submitted last. -/
theorem Equivalent.free {s other : State} (same : Equivalent s other) (env : Env) :
    env.sender ≠ s.lastSubmitter ∨ s.lastValidAt ≤ env.timestamp ↔
      env.sender ≠ other.lastSubmitter ∨ other.lastValidAt ≤ env.timestamp := by
  rw [← same.lastValidAt]
  by_cases idle : s.lastValidAt = 0
  · simp [idle]
  · rw [(same.untrusted idle).submitter]

theorem Equivalent.withdraw {s other : State} (same : Equivalent s other) (cfg : Config) (env : Env) :
    EndAlike Equivalent (withdraw cfg env s) (withdraw cfg env other) := by
  refine .require_bind (same.unpaused cfg env _) fun _ => .require_bind (same.free env) fun _ =>
    .require_bind (by rw [same.balanceOf]) fun _ => ?_
  rw [← same.balanceOf]
  exact (same.pay same.paused rfl same.balance).transfer env _ _

theorem Equivalent.hasSignature {s other : State} (block : SameUntrusted s other) (i : Nat) :
    s.hasSignature i ↔ other.hasSignature i := by
  rw [State.hasSignature, State.hasSignature, block.signatureSet]

theorem Equivalent.edwardsCheck {s other : State} (same : Equivalent s other)
    (block : SameUntrusted s other) (cfg : Config) {i : Nat} (present : s.hasSignature i) :
    edwardsCheck cfg s i = edwardsCheck cfg other i := by
  have key := (same.epochOf s.untrustedNextEpoch).keys i (block.indices i present)
  rw [block.nextEpoch] at key
  simp only [NearBridge.edwardsCheck, key, block.signatures i present, block.nextHash, block.height,
    block.nextEpoch]

theorem Equivalent.checkBlockProducerSignatureInHead {s other : State} (same : Equivalent s other)
    (block : SameUntrusted s other) (cfg : Config) (i : Nat) :
    EndAlike Eq (checkBlockProducerSignatureInHead cfg s i)
      (checkBlockProducerSignatureInHead cfg other i) :=
  .require_bind (Equivalent.hasSignature block i) fun present =>
    .require_bind Iff.rfl fun _ => .succeeded (same.edwardsCheck block cfg present)

/-- Dropping the untrusted block leaves its fields dead. -/
theorem Equivalent.drop {s other : State} (same : Equivalent s other) :
    Equivalent { s with lastValidAt := 0 } { other with lastValidAt := 0 } :=
  ⟨same.ready, same.initialized, same.paused, same.curEpoch, same.curHeight, rfl, same.hashes,
    same.roots, same.balanceOf, same.balance, same.current, same.next, fun used => absurd rfl used⟩

theorem Equivalent.challenge {s other : State} (same : Equivalent s other) (cfg : Config) (env : Env)
    (receiver : Address) (signatureIndex : Nat) :
    EndAlike Equivalent (challenge cfg env receiver signatureIndex s)
      (challenge cfg env receiver signatureIndex other) := by
  refine .require_bind (same.unpaused cfg env _) fun _ =>
    .require_bind (by rw [same.lastValidAt]) fun inside => ?_
  have block := same.untrusted (by omega)
  refine .bind (same.checkBlockProducerSignatureInHead block cfg signatureIndex) ?_
  rintro valid _ rfl
  refine .require_bind Iff.rfl fun _ => .require_bind (by rw [same.balanceOf, block.submitter]) fun _ => ?_
  have debited : Function.update s.balanceOf s.lastSubmitter
      (s.balanceOf s.lastSubmitter - cfg.lockEthAmount) =
      Function.update other.balanceOf other.lastSubmitter
        (other.balanceOf other.lastSubmitter - cfg.lockEthAmount) := by
    rw [same.balanceOf, block.submitter]
  refine .bind ((same.pay same.paused debited same.balance).transfer env receiver _) ?_
  intro paid paid' alike
  exact .succeeded alike.drop

theorem Equivalent.commit {s other : State} (same : Equivalent s other) (used : s.lastValidAt ≠ 0) :
    Equivalent s.commit other.commit := by
  have block := same.untrusted used
  have two := ring_two s.curEpoch
  have epoch : s.commit.curEpoch = other.commit.curEpoch := by
    simp only [State.commit, block.nextEpoch, same.curEpoch]
  refine ⟨same.ready, same.initialized, same.paused, epoch, block.height, rfl, ?_, ?_, same.balanceOf,
    same.balance, ?_, ?_, fun used => absurd rfl used⟩
  · simp only [State.commit, same.hashes, block.height, block.hash]
  · simp only [State.commit, same.roots, block.height, block.merkleRoot]
  · by_cases next : s.untrustedNextEpoch = true
    · simpa only [State.commit, next, if_true] using same.next
    · simpa [State.commit, next] using same.current
  · by_cases next : s.untrustedNextEpoch = true
    · simpa only [State.commit, next, if_true, two] using block.announced next
    · simpa [State.commit, next] using same.next

theorem Equivalent.commitOrReplace {s other : State} (same : Equivalent s other) (cfg : Config)
    (env : Env) (nearBlock : LightClientBlock) :
    EndAlike Equivalent (commitOrReplace cfg env nearBlock s)
      (commitOrReplace cfg env nearBlock other) := by
  unfold NearBridge.commitOrReplace
  rw [← same.lastValidAt]
  split
  · have block := same.untrusted (by omega)
    exact .require_bind (by rw [block.timestamp]) fun _ => .succeeded same
  · split
    · rename_i used
      exact .succeeded (same.commit used)
    · exact .succeeded same

theorem Equivalent.fromNextEpoch {s other : State} (same : Equivalent s other)
    (nearBlock : LightClientBlock) :
    EndAlike Eq (fromNextEpoch nearBlock s) (fromNextEpoch nearBlock other) := by
  unfold NearBridge.fromNextEpoch
  rw [← same.curEpoch, ← same.current.epochId, ← same.next.epochId]
  split
  · exact .succeeded rfl
  · split
    · exact .succeeded rfl
    · exact .reverted _

/-- Two writes of one validator set leave slots alike, whatever they held. -/
theorem setBlockProducers_alike (src : List BlockProducer) {epoch other : Epoch}
    (id : epoch.epochId = other.epochId) :
    EndAlike Epoch.Alike (setBlockProducers src epoch) (setBlockProducers src other) := by
  by_cases few : src.length ≤ maxBlockProducers
  · obtain ⟨result, stored⟩ := setBlockProducers_of_le few epoch
    obtain ⟨result', stored'⟩ := setBlockProducers_of_le few other
    obtain ⟨_, holds, same⟩ := setBlockProducers_eq_ok stored
    obtain ⟨_, holds', same'⟩ := setBlockProducers_eq_ok stored'
    rw [stored, stored']
    exact .succeeded (holds.alike holds' (by rw [same, same', id]))
  · simp only [setBlockProducers, few, dif_neg, not_false_eq_true]
    exact .reverted _

/-- The rings after the same announcement: the two slots in use stay. -/
structure SameRing (s other : State) (next : Bool) (epochs epochs' : Fin 3 → Epoch) : Prop where
  current : epochs s.curEpoch = s.epochs s.curEpoch
  current' : epochs' s.curEpoch = other.epochs s.curEpoch
  following : epochs (s.curEpoch + 1) = s.epochs (s.curEpoch + 1)
  following' : epochs' (s.curEpoch + 1) = other.epochs (s.curEpoch + 1)
  announced : next = true → (epochs (s.curEpoch + 2)).Alike (epochs' (s.curEpoch + 2))

theorem Equivalent.announceEpoch {s other : State} (same : Equivalent s other)
    (nearBlock : LightClientBlock) (next : Bool) :
    EndAlike (SameRing s other next) (announceEpoch nearBlock next s)
      (announceEpoch nearBlock next other) := by
  unfold NearBridge.announceEpoch
  split
  · refine .bind (setBlockProducers_alike _ rfl) fun epoch epoch' alike => .succeeded ?_
    obtain ⟨current, following⟩ := ring_ne s.curEpoch
    rw [← same.curEpoch]
    refine ⟨Function.update_of_ne current _ _, Function.update_of_ne current _ _,
      Function.update_of_ne following _ _, Function.update_of_ne following _ _, fun _ => ?_⟩
    simpa only [Function.update_self] using alike
  · rename_i stays
    exact .succeeded ⟨rfl, rfl, rfl, rfl, fun next => absurd next stays⟩

theorem Equivalent.submit {s other : State} (same : Equivalent s other) (cfg : Config) (env : Env)
    (nearBlock : LightClientBlock) {next : Bool} {epochs epochs' : Fin 3 → Epoch}
    (ring : SameRing s other next epochs epochs') :
    Equivalent (s.submit cfg env nearBlock next epochs)
      (other.submit cfg env nearBlock next epochs') := by
  have count := (same.epochOf next).numBPs
  have few : (s.epochOf next).numBPs ≤ 256 := Nat.le_trans (s.epochOf next).numBPs_le (by decide)
  have slot : (s.submit cfg env nearBlock next epochs).epochOf next = s.epochOf next := by
    cases next with
    | false => exact ring.current
    | true => exact ring.following
  have bits : ∀ i, (s.submit cfg env nearBlock next epochs).hasSignature i →
      i < (s.epochOf next).numBPs ∧ approved nearBlock.approvalsAfterNext i = true :=
    fun i present => (recordSignatures_set _ _ _ few i).mp ((and_shift_ne_zero _ i).mp present)
  have sets : (s.submit cfg env nearBlock next epochs).untrustedSignatureSet =
      (other.submit cfg env nearBlock next epochs').untrustedSignatureSet := by
    apply BitVec.eq_of_getLsbD_eq
    intro i _
    rw [Bool.eq_iff_iff]
    simp only [State.submit]
    rw [recordSignatures_set _ _ _ few, recordSignatures_set _ _ _ (count ▸ few), count]
  refine ⟨same.ready, same.initialized, same.paused, same.curEpoch, same.curHeight, rfl, same.hashes,
    same.roots, same.balanceOf, same.balance, ?_, ?_, fun _ =>
    ⟨rfl, rfl, rfl, rfl, rfl, rfl, sets, ?_, ?_, rfl, ring.announced⟩⟩
  · simp only [State.submit, ring.current, ring.current']
    exact same.current
  · simp only [State.submit, ring.following, ring.following']
    exact same.next
  · intro i present
    have seen := bits i present
    refine (recordSignatures_signature _ _ _ i).trans ?_
    rw [if_pos seen]
    refine Eq.symm ((recordSignatures_signature _ _ _ i).trans ?_)
    rw [if_pos (count ▸ seen)]
  · intro i present
    have seen := bits i present
    exact slot ▸ seen.1

/-- The checks and writes for a new block cannot tell equivalent states apart. -/
theorem Equivalent.acceptBlock {s other : State} (same : Equivalent s other) (cfg : Config)
    (env : Env) (nearBlock : LightClientBlock) :
    EndAlike Equivalent (acceptBlock cfg env nearBlock s) (acceptBlock cfg env nearBlock other) := by
  refine .require_bind (by rw [same.curHeight]) fun _ => .bind (same.fromNextEpoch nearBlock) ?_
  rintro next _ rfl
  have slot := same.epochOf next
  have votes := countVotes_congr nearBlock.approvalsAfterNext (s.epochOf next).numBPs 0 0
    (fun j _ inside => slot.stakes j (by omega))
  refine .require_bind (by rw [slot.numBPs]) fun _ =>
    .require_bind (by rw [votes, slot.numBPs, slot.stakeThreshold]) fun _ =>
    .require_bind Iff.rfl fun _ => .require_bind Iff.rfl fun _ =>
    .bind (same.announceEpoch nearBlock next) fun epochs epochs' ring =>
    .succeeded (same.submit cfg env nearBlock ring)

theorem Equivalent.bridgeState {s other : State} (same : Equivalent s other) (env : Env) :
    bridgeState env s = bridgeState env other := by
  unfold NearBridge.bridgeState
  rw [← same.lastValidAt, ← same.curHeight]
  by_cases idle : s.lastValidAt = 0
  · simp [idle]
  · have block := same.untrusted idle
    rw [← block.height, ← block.timestamp, ← block.nextEpoch,
      (same.epochOf s.untrustedNextEpoch).numBPs]

theorem Equivalent.readConfirmed {s other : State} (same : Equivalent s other) (env : Env)
    {stored stored' : Uint64 → Bytes32} {untrusted untrusted' : Bytes32} (mapping : stored = stored')
    (slot : s.lastValidAt ≠ 0 → untrusted = untrusted') (height : Uint64) :
    readConfirmed env s stored untrusted height = readConfirmed env other stored' untrusted' height := by
  unfold NearBridge.readConfirmed
  rw [← same.lastValidAt, ← mapping]
  by_cases idle : s.lastValidAt = 0
  · simp [idle]
  · rw [(same.untrusted idle).height, slot idle]

theorem Equivalent.blockHashes {s other : State} (same : Equivalent s other) (cfg : Config)
    (env : Env) (height : Uint64) :
    blockHashes cfg env s height = blockHashes cfg env other height := by
  simp only [NearBridge.blockHashes, same.unpaused cfg env,
    same.readConfirmed env same.hashes (fun used => (same.untrusted used).hash)]

theorem Equivalent.blockMerkleRoots {s other : State} (same : Equivalent s other) (cfg : Config)
    (env : Env) (height : Uint64) :
    blockMerkleRoots cfg env s height = blockMerkleRoots cfg env other height := by
  simp only [NearBridge.blockMerkleRoots, same.unpaused cfg env,
    same.readConfirmed env same.roots (fun used => (same.untrusted used).merkleRoot)]

/-- An accepted block leaves the settled state alone but for dead storage. -/
theorem acceptBlock_equivalent {cfg : Config} {env : Env} {nearBlock : LightClientBlock}
    {s s' : State} (ready : s.initialized = true)
    (success : acceptBlock cfg env nearBlock s = .ok s') :
    Equivalent { s' with lastValidAt := 0 } { s with lastValidAt := 0 } := by
  obtain ⟨_, next, _, _, _, _, _, epochs, announced, rfl⟩ := acceptBlock_eq_ok.mp success
  obtain ⟨current, following, _⟩ := announceEpoch_eq_ok announced
  refine ⟨ready, rfl, rfl, rfl, rfl, rfl, rfl, rfl, rfl, rfl, ?_, ?_, fun used => absurd rfl used⟩
  · simp only [State.submit, current]
    exact .refl _
  · simp only [State.submit, following]
    exact .refl _

variable [Hashing]

theorem Equivalent.exec {s other : State} (same : Equivalent s other) (cfg : Config) (env : Env)
    (call : Call) : EndAlike Equivalent (exec cfg env call s) (exec cfg env call other) := by
  have ready' : other.initialized = true := same.initialized ▸ same.ready
  cases call with
  | deposit value => exact same.deposit cfg env value
  | withdraw => exact same.withdraw cfg env
  | challenge receiver signatureIndex => exact same.challenge cfg env receiver signatureIndex
  | addLightClientBlock data =>
    refine .require_bind (same.unpaused cfg env _) fun _ =>
      .require_bind (by rw [same.initialized]) fun _ =>
      .require_bind (by rw [same.balanceOf]) fun _ => .bind (.refl _) ?_
    rintro nearBlock _ rfl
    exact .bind (same.commitOrReplace cfg env nearBlock) fun settled settled' alike =>
      alike.acceptBlock cfg env nearBlock
  | initWithValidators data =>
    exact .require_bind Iff.rfl fun _ => .require_bind (by simp [same.ready, ready']) fun early =>
      absurd early.1 (by simp [same.ready])
  | initWithBlock data =>
    exact .require_bind Iff.rfl fun _ => .require_bind (by simp [same.ready, ready']) fun early =>
      absurd early.1 (by simp [same.ready])
  | adminPause flags =>
    exact .require_bind Iff.rfl fun _ => .succeeded (same.pay rfl same.balanceOf same.balance)
  | adminReceiveEth value =>
    exact .require_bind Iff.rfl fun _ =>
      .succeeded (same.pay same.paused same.balanceOf (by rw [same.balance]))

/-- Equivalent states at one time. -/
def Indistinct (first second : Moment) : Prop :=
  first.time = second.time ∧ Equivalent first.state second.state

/-- No sequence of calls and reads tells equivalent states apart. -/
theorem trace_eq_of_equivalent (cfg : Config) {time : Nat} {s other : State}
    (same : Equivalent s other) (events : List Event) :
    (questioned cfg).trace (observe cfg) ⟨time, s⟩ events =
      (questioned cfg).trace (observe cfg) ⟨time, other⟩ events := by
  have initial : Indistinct ⟨time, s⟩ ⟨time, other⟩ := ⟨rfl, same⟩
  refine Machine.trace_eq_of_steps _ _ Indistinct ?_ ?_ initial events (Machine.stepsMeet_true _ _ _)
  · rintro ⟨now, s⟩ ⟨_, other⟩ event ⟨rfl, same⟩ -
    cases event with
    | step label =>
      cases label with
      | call sender accepts call =>
        have ends := same.exec cfg ⟨sender, now, accepts⟩ call
        simp only [observe, Moment.env]
        generalize exec cfg ⟨sender, now, accepts⟩ call s = first at ends
        generalize exec cfg ⟨sender, now, accepts⟩ call other = second at ends
        cases ends with
        | reverted error => rfl
        | succeeded alike => rfl
      | wait seconds => rfl
      | force value => rfl
    | bridgeState => exact congrArg Observation.bridgeState (same.bridgeState _)
    | blockHashes sender height => exact congrArg Observation.word (same.blockHashes cfg _ height)
    | blockMerkleRoots sender height =>
      exact congrArg Observation.word (same.blockMerkleRoots cfg _ height)
    | balanceOf account =>
      simp only [observe]
      rw [show s.balanceOf = other.balanceOf from same.balanceOf]
  · rintro ⟨now, s⟩ ⟨_, other⟩ event ⟨rfl, same⟩ -
    cases event with
    | step label =>
      cases label with
      | call sender accepts call =>
        have ends := same.exec cfg ⟨sender, now, accepts⟩ call
        simp only [questioned, machine, Moment.env]
        generalize exec cfg ⟨sender, now, accepts⟩ call s = first at ends
        generalize exec cfg ⟨sender, now, accepts⟩ call other = second at ends
        cases ends with
        | reverted error => exact ⟨rfl, same⟩
        | succeeded alike => exact ⟨rfl, alike⟩
      | wait seconds => exact ⟨rfl, same⟩
      | force value =>
        exact ⟨rfl, same.pay same.paused same.balanceOf
          (congrArg (· + value) same.balance)⟩
    | _ => exact ⟨rfl, same⟩

/-- The state without the block that was submitted at `time` and challenged: the
block before it is confirmed if its period was over, and dropped otherwise; the
submitter loses the bond and half of it is paid out. -/
def rollback (cfg : Config) (time : Nat) (submitter : Address) (s : State) : State :=
  let settled := if s.lastValidAt ≠ 0 ∧ s.lastValidAt ≤ time then s.commit else { s with lastValidAt := 0 }
  { settled with
    balanceOf := Function.update s.balanceOf submitter (s.balanceOf submitter - cfg.lockEthAmount)
    balance := s.balance - cfg.lockEthAmount / 2 }

/-- After a successful challenge of the block that was just accepted, no sequence
of calls and reads can tell that it ever was. -/
theorem challenge_rolls_back (cfg : Config) (submission : Env) (data : Bytes) (s added : State)
    (accepted : addLightClientBlock cfg submission data s = .ok added)
    (env : Env) (receiver : Address) (signatureIndex : Nat) (challenged : State)
    (success : challenge cfg env receiver signatureIndex added = .ok challenged)
    (events : List Event) :
    (questioned cfg).trace (observe cfg) ⟨env.timestamp, challenged⟩ events =
      (questioned cfg).trace (observe cfg)
        ⟨env.timestamp, rollback cfg submission.timestamp submission.sender s⟩ events := by
  apply trace_eq_of_equivalent
  obtain ⟨_, ready, _, nearBlock, _, settled, replaced, taken⟩ := addLightClientBlock_eq_ok.mp accepted
  obtain ⟨_, _, _, _, _, rfl⟩ := challenge_eq_ok.mp success
  obtain ⟨submitter, _, initialized, deposits, ether, flags⟩ := acceptBlock_submission taken
  obtain ⟨deposits', ether'⟩ := commitOrReplace_frame replaced
  have debited : Function.update added.balanceOf added.lastSubmitter
      (added.balanceOf added.lastSubmitter - cfg.lockEthAmount) =
      Function.update s.balanceOf submission.sender
        (s.balanceOf submission.sender - cfg.lockEthAmount) := by
    rw [submitter, deposits, deposits']
  have paid : added.balance - cfg.lockEthAmount / 2 = s.balance - cfg.lockEthAmount / 2 := by
    rw [ether, ether']
  unfold rollback
  rcases commitOrReplace_eq_ok.mp replaced with ⟨inside, _, rfl⟩ | ⟨passed, used, rfl⟩ | ⟨idle, rfl⟩
  · rw [if_neg (by omega)]
    exact (acceptBlock_equivalent ready taken).pay flags debited paid
  · rw [if_pos ⟨used, passed⟩]
    have alike := acceptBlock_equivalent (s := s.commit) ready taken
    exact alike.pay flags debited paid
  · rw [if_neg (by omega)]
    exact (acceptBlock_equivalent ready taken).pay flags debited paid

/-- A bridge with one validator, for examples. The only signature submitted to it
has an `s` beyond the group order, which no key verifies. -/
def sampleConfig : Config where
  admin := 1
  edwards := fun _ _ _ _ _ => false
  lockEthAmount := 10
  lockDuration := 60
  replaceDuration := 60000000001
  replaceDuration_lt := by decide
  replace_gt := by decide

/-- A list of one producer, with stake one. -/
def sampleProducers : Bytes :=
  [1, 0, 0, 0, 0, 0, 0, 0, 0] ++ List.replicate 33 0 ++ 1 :: List.replicate 15 0

/-- A block of the first epoch with one approval. -/
def sampleBlock (height : UInt8) (nextBps : Bytes) : Bytes :=
  List.replicate 64 0 ++ height :: List.replicate 239 0 ++ nextBps ++
    [1, 0, 0, 0, 1, 0] ++ List.replicate 32 0 ++ List.replicate 32 255

/-- Both stages of initialization, and a deposit. -/
def sampleStart : List Label :=
  [.call 1 (fun _ => true) (.initWithValidators sampleProducers),
    .call 1 (fun _ => true) (.initWithBlock (sampleBlock 1 (1 :: sampleProducers))),
    .call 1 (fun _ => true) (.deposit 10)]

omit [Hashing] in
theorem challenge_rolls_back_sample :
    letI := Hashing.platform
    let s := ((machine sampleConfig).run (.deployed 1 0) sampleStart).state
    ∃ added challenged,
      addLightClientBlock sampleConfig ⟨1, 5, fun _ => true⟩ (sampleBlock 2 [0]) s = .ok added ∧
      challenge sampleConfig ⟨2, 64, fun _ => true⟩ 2 0 added = .ok challenged ∧
      ∀ events, (questioned sampleConfig).trace (observe sampleConfig) ⟨64, challenged⟩ events =
        (questioned sampleConfig).trace (observe sampleConfig) ⟨64, rollback sampleConfig 5 1 s⟩ events := by
  let := Hashing.platform
  intro s
  have both : (do
      let added ← addLightClientBlock sampleConfig ⟨1, 5, fun _ => true⟩ (sampleBlock 2 [0]) s
      challenge sampleConfig ⟨2, 64, fun _ => true⟩ 2 0 added).isOk = true := by
    decide +kernel
  obtain ⟨challenged, success⟩ := exists_of_isOk both
  obtain ⟨added, accepted, slashed⟩ := bind_eq_ok.mp success
  exact ⟨added, challenged, accepted, slashed,
    challenge_rolls_back sampleConfig _ _ s added accepted _ 2 0 challenged slashed⟩

end RainbowBridge.NearBridge
