import RainbowBridge.NearBridge.History

/-! How storage and history hang together. The committed part of storage describes
a confirmed chain; the untrusted fields describe one block that follows it. The
block is pending until its challenge period ends and confirmed from then on,
although storage changes only with the next submission. -/

namespace RainbowBridge.NearBridge

open Lib Solidity

/-- What the chain says about a height, or the zero word. -/
def valueAt (value : LightClientBlock → Bytes32) (chain : List LightClientBlock) (height : Uint64) :
    Bytes32 :=
  match chain.find? fun nearBlock => nearBlock.innerLite.height = height with
  | none => zeroBytes 32
  | some nearBlock => value nearBlock

def blockRoot (nearBlock : LightClientBlock) : Bytes32 := nearBlock.innerLite.blockMerkleRoot

/-- The slot holds the id and the validators of this epoch. -/
def Epoch.Stores (epoch : Epoch) (info : EpochInfo) : Prop :=
  epoch.epochId = info.epochId ∧ epoch.Holds info.producers

/-- The committed part of storage describes this chain. -/
structure Committed (s : State) (validators : List BlockProducer) (chain : List LightClientBlock) :
    Prop where
  height : chain.head?.map (·.innerLite.height) = some s.curHeight
  current : (s.epochs s.curEpoch).Stores (epochsAfter validators chain).1
  next : (s.epochs (s.curEpoch + 1)).Stores (epochsAfter validators chain).2
  hashes : ∀ height, s.blockHashes_ height = valueAt LightClientBlock.hash chain height
  roots : ∀ height, s.blockMerkleRoots_ height = valueAt blockRoot chain height
  bounded : ∀ nearBlock ∈ chain, nearBlock.innerLite.height ≤ s.curHeight
  trust : ChainOfTrust validators chain

/-- The untrusted fields describe a block that follows this chain. -/
structure Untrusted (s : State) (validators : List BlockProducer) (chain : List LightClientBlock)
    (nearBlock : LightClientBlock) : Prop where
  height : s.untrustedHeight = nearBlock.innerLite.height
  timestamp : s.untrustedTimestamp = nearBlock.innerLite.timestamp.toNat
  hash : s.untrustedHash = nearBlock.hash
  merkleRoot : s.untrustedMerkleRoot = nearBlock.innerLite.blockMerkleRoot
  nextHash : s.untrustedNextHash = nearBlock.nextHash
  nextEpoch : s.untrustedNextEpoch = true ↔
    nearBlock.innerLite.epochId ≠ (epochsAfter validators chain).1.epochId
  higher : s.curHeight < nearBlock.innerLite.height
  follows : Follows (epochsAfter validators chain) nearBlock
  present : ∀ i, s.hasSignature i ↔
    i < (s.epochOf s.untrustedNextEpoch).numBPs ∧ approved nearBlock.approvalsAfterNext i = true
  signatures : ∀ i, s.hasSignature i →
    s.untrustedSignatures i = signatureAt nearBlock.approvalsAfterNext i
  announced : s.untrustedNextEpoch = true → (s.epochs (s.curEpoch + 2)).Stores (declaredEpoch nearBlock)

/-- Storage at a time, and the history that led there. -/
inductive Tracks (time : Nat) (s : State) (history : History) : Prop where
  | uninitialized (fresh : s.initialized = false) (idle : s.lastValidAt = 0) (first : s.curEpoch = 0)
      (low : s.curHeight = 0) (validators : (s.epochs 0).Holds history.validators)
      (hashes : s.blockHashes_ = fun _ => zeroBytes 32)
      (roots : s.blockMerkleRoots_ = fun _ => zeroBytes 32)
      (empty : history.confirmed = []) (quiet : history.pending = none)
  | settled (ready : s.initialized = true) (idle : s.lastValidAt = 0)
      (committed : Committed s history.validators history.confirmed) (quiet : history.pending = none)
  | pending (ready : s.initialized = true) (inside : time < s.lastValidAt)
      (committed : Committed s history.validators history.confirmed) (nearBlock : LightClientBlock)
      (waiting : history.pending = some ⟨nearBlock, s.lastSubmitter, s.lastValidAt⟩)
      (untrusted : Untrusted s history.validators history.confirmed nearBlock)
  | confirmed (ready : s.initialized = true) (used : s.lastValidAt ≠ 0) (passed : s.lastValidAt ≤ time)
      (chain : List LightClientBlock) (nearBlock : LightClientBlock)
      (added : history.confirmed = nearBlock :: chain) (quiet : history.pending = none)
      (committed : Committed s history.validators chain)
      (untrusted : Untrusted s history.validators chain nearBlock)

theorem valueAt_cons (value : LightClientBlock → Bytes32) (nearBlock : LightClientBlock)
    (chain : List LightClientBlock) (height : Uint64) :
    valueAt value (nearBlock :: chain) height =
      if nearBlock.innerLite.height = height then value nearBlock else valueAt value chain height := by
  by_cases same : nearBlock.innerLite.height = height
  · simp [valueAt, same]
  · simp [valueAt, same]

theorem Committed.chain_ne_nil {s : State} {validators : List BlockProducer}
    {chain : List LightClientBlock} (committed : Committed s validators chain) : chain ≠ [] := by
  rintro rfl
  simpa using committed.height

/-- Only the listed fields matter to the committed part. -/
theorem Committed.congr {s s' : State} {validators : List BlockProducer}
    {chain : List LightClientBlock} (committed : Committed s validators chain)
    (height : s'.curHeight = s.curHeight) (epoch : s'.curEpoch = s.curEpoch)
    (current : s'.epochs s.curEpoch = s.epochs s.curEpoch)
    (next : s'.epochs (s.curEpoch + 1) = s.epochs (s.curEpoch + 1))
    (hashes : s'.blockHashes_ = s.blockHashes_) (roots : s'.blockMerkleRoots_ = s.blockMerkleRoots_) :
    Committed s' validators chain := by
  refine ⟨?_, ?_, ?_, ?_, ?_, ?_, committed.trust⟩
  · rw [height]
    exact committed.height
  · rw [epoch, current]
    exact committed.current
  · rw [epoch, next]
    exact committed.next
  · rw [hashes]
    exact committed.hashes
  · rw [roots]
    exact committed.roots
  · rw [height]
    exact committed.bounded

theorem epochsAfter_cons {validators : List BlockProducer} {chain : List LightClientBlock}
    (started : chain ≠ []) (nearBlock : LightClientBlock) :
    epochsAfter validators (nearBlock :: chain) =
      if nearBlock.innerLite.epochId = (epochsAfter validators chain).1.epochId then
        epochsAfter validators chain
      else ((epochsAfter validators chain).2, declaredEpoch nearBlock) := by
  cases chain with
  | nil => exact absurd rfl started
  | cons parent earlier => simp [epochsAfter]

theorem chainOfTrust_cons {s : State} {validators : List BlockProducer}
    {chain : List LightClientBlock} {nearBlock : LightClientBlock}
    (committed : Committed s validators chain) (untrusted : Untrusted s validators chain nearBlock) :
    ChainOfTrust validators (nearBlock :: chain) := by
  have height := committed.height
  have trust := committed.trust
  have follows := untrusted.follows
  have higher := untrusted.higher
  cases chain with
  | nil => simp at height
  | cons parent earlier =>
    simp only [List.head?_cons, Option.map_some, Option.some.injEq] at height
    exact ⟨trust, height ▸ higher, follows⟩

/-- Committing the untrusted block extends the chain by it. -/
theorem Committed.commit {s : State} {validators : List BlockProducer} {chain : List LightClientBlock}
    {nearBlock : LightClientBlock} (committed : Committed s validators chain)
    (untrusted : Untrusted s validators chain nearBlock) :
    Committed s.commit validators (nearBlock :: chain) := by
  have epochs : epochsAfter validators (nearBlock :: chain) = _ :=
    epochsAfter_cons committed.chain_ne_nil nearBlock
  have two := ring_two s.curEpoch
  refine ⟨?_, ?_, ?_, ?_, ?_, ?_, chainOfTrust_cons committed untrusted⟩
  · simp [State.commit, untrusted.height]
  · rw [epochs]
    by_cases next : s.untrustedNextEpoch = true
    · simpa [State.commit, next, untrusted.nextEpoch.mp next] using committed.next
    · have same := mt untrusted.nextEpoch.mpr next
      rw [ne_eq, not_not] at same
      simpa [State.commit, next, same] using committed.current
  · rw [epochs]
    by_cases next : s.untrustedNextEpoch = true
    · simpa [State.commit, next, untrusted.nextEpoch.mp next, two] using untrusted.announced next
    · have same := mt untrusted.nextEpoch.mpr next
      rw [ne_eq, not_not] at same
      simpa [State.commit, next, same] using committed.next
  · intro height
    rw [valueAt_cons, ← committed.hashes, ← untrusted.height, ← untrusted.hash]
    simp only [State.commit, Function.update_apply, eq_comm]
  · intro height
    rw [valueAt_cons, ← committed.roots, ← untrusted.height, blockRoot, ← untrusted.merkleRoot]
    simp only [State.commit, Function.update_apply, eq_comm]
  · intro other member
    simp only [State.commit, untrusted.height]
    rcases List.mem_cons.mp member with rfl | earlier
    · exact BitVec.le_refl _
    · have below := committed.bounded other earlier
      have higher := untrusted.higher
      simp only [BitVec.le_def, BitVec.lt_def] at below higher ⊢
      omega

theorem fromNextEpoch_eq_ok {nearBlock : LightClientBlock} {s : State} {next : Bool} :
    fromNextEpoch nearBlock s = .ok next ↔
      (nearBlock.innerLite.epochId = (s.epochs s.curEpoch).epochId ∧ next = false) ∨
      (nearBlock.innerLite.epochId ≠ (s.epochs s.curEpoch).epochId ∧
        nearBlock.innerLite.epochId = (s.epochs (s.curEpoch + 1)).epochId ∧ next = true) := by
  unfold fromNextEpoch
  split
  · rename_i same
    simp [same, eq_comm]
  · rename_i other
    split
    · rename_i following
      constructor
      · intro success
        cases success
        exact .inr ⟨other, following, rfl⟩
      · rintro (⟨same, _⟩ | ⟨_, _, rfl⟩)
        · exact absurd same other
        · rfl
    · rename_i unknown
      simp [other, unknown]

/-- The two slots that the ring keeps for the current and the next epoch. -/
theorem Committed.epochOf_stores {s : State} {validators : List BlockProducer}
    {chain : List LightClientBlock} (committed : Committed s validators chain) (next : Bool) :
    (s.epochOf next).Stores
      (if next then (epochsAfter validators chain).2 else (epochsAfter validators chain).1) := by
  cases next with
  | false => exact committed.current
  | true => exact committed.next

/-- An accepted block follows the committed chain, which stays as it was. -/
theorem Committed.accept {cfg : Config} {env : Env} {s s' : State} {validators : List BlockProducer}
    {chain : List LightClientBlock} {nearBlock : LightClientBlock}
    (committed : Committed s validators chain)
    (success : acceptBlock cfg env nearBlock s = .ok s') :
    Committed s' validators chain ∧ Untrusted s' validators chain nearBlock := by
  obtain ⟨higher, next, epoch, long, votes, given, hash, epochs, announced, rfl⟩ :=
    acceptBlock_eq_ok.mp success
  obtain ⟨current, following, declared⟩ := announceEpoch_eq_ok announced
  have stores := committed.epochOf_stores next
  have quorum := (stores.2.votes_iff long).mp votes
  have slot : (s.submit cfg env nearBlock next epochs).epochOf next = s.epochOf next := by
    cases next with
    | false => exact current
    | true => exact following
  have bits : ∀ i, (s.submit cfg env nearBlock next epochs).hasSignature i ↔
      i < (s.epochOf next).numBPs ∧ approved nearBlock.approvalsAfterNext i = true := by
    intro i
    exact (and_shift_ne_zero _ i).trans (recordSignatures_set _ _ _
      (Nat.le_trans (s.epochOf next).numBPs_le (by decide)) i)
  rw [fromNextEpoch_eq_ok, committed.current.1, committed.next.1] at epoch
  refine ⟨committed.congr rfl rfl current following rfl rfl,
    ⟨rfl, rfl, rfl, rfl, rfl, ?_, higher, ?_, ?_, ?_, declared⟩⟩
  · rcases epoch with ⟨same, rfl⟩ | ⟨other, _, rfl⟩
    · simp [State.submit, same]
    · simp [State.submit, other]
  · rcases epoch with ⟨same, rfl⟩ | ⟨other, opens, rfl⟩
    · exact .inl ⟨same, quorum⟩
    · exact .inr ⟨other, opens, quorum, given rfl, hash rfl⟩
  · intro i
    exact (bits i).trans (by rw [show (s.submit cfg env nearBlock next epochs).untrustedNextEpoch = next
      from rfl, slot])
  · intro i present
    have seen := (bits i).mp present
    exact (recordSignatures_signature _ _ _ i).trans (if_pos seen)

/-- Deposits, ETH and pause flags have no part in what storage tracks. -/
theorem Tracks.frame {time : Nat} {s : State} {history : History} (tracks : Tracks time s history)
    (paused : Nat) (balanceOf : Address → Nat) (balance challenges donated : Nat) :
    Tracks time { s with paused := paused, balanceOf := balanceOf, balance := balance }
      { history with challenges := challenges, donated := donated } := by
  have describes : ∀ chain, Committed s history.validators chain →
      Committed { s with paused := paused, balanceOf := balanceOf, balance := balance }
        history.validators chain :=
    fun chain committed => committed.congr rfl rfl rfl rfl rfl rfl
  have follows : ∀ chain nearBlock, Untrusted s history.validators chain nearBlock →
      Untrusted { s with paused := paused, balanceOf := balanceOf, balance := balance }
        history.validators chain nearBlock :=
    fun chain nearBlock u => ⟨u.height, u.timestamp, u.hash, u.merkleRoot, u.nextHash, u.nextEpoch,
      u.higher, u.follows, u.present, u.signatures, u.announced⟩
  cases tracks with
  | uninitialized fresh idle first low validators hashes roots empty quiet =>
    exact .uninitialized fresh idle first low validators hashes roots empty quiet
  | settled ready idle committed quiet => exact .settled ready idle (describes _ committed) quiet
  | pending ready inside committed nearBlock waiting untrusted =>
    exact .pending ready inside (describes _ committed) nearBlock waiting (follows _ _ untrusted)
  | confirmed ready used passed chain nearBlock added quiet committed untrusted =>
    exact .confirmed ready used passed chain nearBlock added quiet (describes _ committed)
      (follows _ _ untrusted)

/-- Time passing may confirm the pending block. -/
theorem Tracks.wait {time later : Nat} {s : State} {history : History}
    (tracks : Tracks time s history) (order : time ≤ later) :
    Tracks later s (history.settle later) := by
  cases tracks with
  | uninitialized fresh idle first low validators hashes roots empty quiet =>
    simp only [History.settle, quiet]
    exact .uninitialized fresh idle first low validators hashes roots empty quiet
  | settled ready idle committed quiet =>
    simp only [History.settle, quiet]
    exact .settled ready idle committed quiet
  | pending ready inside committed nearBlock waiting untrusted =>
    simp only [History.settle, waiting]
    split
    · rename_i passed
      exact .confirmed ready (by omega) passed _ nearBlock rfl rfl committed untrusted
    · rename_i waits
      exact .pending ready (by omega) committed nearBlock waiting untrusted
  | confirmed ready used passed chain nearBlock added quiet committed untrusted =>
    simp only [History.settle, quiet]
    exact .confirmed ready used (by omega) chain nearBlock added quiet committed untrusted

/-- Committing or keeping the previous block leaves storage committed to all
confirmed blocks. -/
theorem Tracks.commitOrReplace {cfg : Config} {env : Env} {s settled : State} {history : History}
    {nearBlock : LightClientBlock} (tracks : Tracks env.timestamp s history)
    (ready : s.initialized = true)
    (success : NearBridge.commitOrReplace cfg env nearBlock s = .ok settled) :
    Committed settled history.validators history.confirmed ∧ settled.initialized = true := by
  rcases commitOrReplace_eq_ok.mp success with
    ⟨inside, _, rfl⟩ | ⟨passed, used, rfl⟩ | ⟨idle, rfl⟩
  · cases tracks with
    | uninitialized fresh idle => omega
    | settled _ idle => omega
    | pending _ _ committed => exact ⟨committed, ready⟩
    | confirmed _ _ passed => omega
  · cases tracks with
    | uninitialized fresh idle => omega
    | settled _ idle => omega
    | pending _ inside => omega
    | confirmed _ _ _ chain last added _ committed untrusted =>
      rw [added]
      exact ⟨committed.commit untrusted, ready⟩
  · cases tracks with
    | uninitialized fresh => simp [ready] at fresh
    | settled _ _ committed => exact ⟨committed, ready⟩
    | pending _ inside => omega
    | confirmed _ used => exact absurd idle used

theorem Tracks.deployed (time pausedFlags : Nat) : Tracks time (.deployed pausedFlags) .empty :=
  .uninitialized rfl rfl rfl rfl
    ⟨rfl, fun i inside => absurd inside (Nat.not_lt_zero i),
      fun i inside => absurd inside (Nat.not_lt_zero i), rfl⟩ rfl rfl rfl rfl

def Watched.Tracked (point : Watched) : Prop :=
  Tracks point.moment.time point.moment.state point.history

/-- A call sees the time that the moment has. -/
theorem Watched.Tracked.tracks {point : Watched} (tracked : point.Tracked) (sender : Address)
    (accepts : Address → Bool) :
    Tracks (point.moment.env sender accepts).timestamp point.moment.state point.history :=
  tracked

theorem Watched.Tracked.deployed (time pausedFlags : Nat) :
    (Watched.deployed time pausedFlags).Tracked :=
  Tracks.deployed time pausedFlags

theorem acceptBlock_submission {cfg : Config} {env : Env} {nearBlock : LightClientBlock}
    {s s' : State} (success : acceptBlock cfg env nearBlock s = .ok s') :
    s'.lastSubmitter = env.sender ∧ s'.lastValidAt = uncheckedAdd env.timestamp cfg.lockDuration ∧
      s'.initialized = s.initialized ∧ s'.balanceOf = s.balanceOf ∧ s'.balance = s.balance ∧
      s'.paused = s.paused := by
  obtain ⟨_, next, _, _, _, _, _, epochs, _, rfl⟩ := acceptBlock_eq_ok.mp success
  exact ⟨rfl, rfl, rfl, rfl, rfl, rfl⟩

variable [Hashing]

theorem Tracks.addLightClientBlock {cfg : Config} {env : Env} {s s' : State} {history : History}
    {data : Bytes} (tracks : Tracks env.timestamp s history)
    (success : NearBridge.addLightClientBlock cfg env data s = .ok s') :
    Tracks env.timestamp s' (history.record env s' (.addLightClientBlock data)) := by
  obtain ⟨_, ready, _, nearBlock, decoded, settled, replaced, accepted⟩ :=
    addLightClientBlock_eq_ok.mp success
  obtain ⟨described, initialized⟩ := tracks.commitOrReplace ready replaced
  obtain ⟨committed, untrusted⟩ := described.accept accepted
  obtain ⟨submitter, _, same, _⟩ := acceptBlock_submission accepted
  rw [initialized] at same
  simp only [History.record, decoded, History.submit, ← submitter]
  by_cases none : s'.lastValidAt = 0
  · simp only [none, if_true, History.settle]
    exact .settled same none committed rfl
  · by_cases passed : s'.lastValidAt ≤ env.timestamp
    · simp only [none, if_false, History.settle, passed, if_true]
      exact .confirmed same none passed _ nearBlock rfl rfl committed untrusted
    · simp only [none, if_false, History.settle, passed]
      exact .pending same (by omega) committed nearBlock rfl untrusted

theorem Tracks.challenge {cfg : Config} {env : Env} {s s' : State} {history : History}
    {receiver : Address} {signatureIndex : Nat} (tracks : Tracks env.timestamp s history)
    (success : NearBridge.challenge cfg env receiver signatureIndex s = .ok s') :
    Tracks env.timestamp s' (history.record env s' (.challenge receiver signatureIndex)) := by
  obtain ⟨_, inside, _, _, _, rfl⟩ := challenge_eq_ok.mp success
  cases tracks with
  | uninitialized fresh idle => omega
  | settled _ idle => omega
  | pending ready _ committed =>
    exact .settled ready rfl (committed.congr rfl rfl rfl rfl rfl rfl) rfl
  | confirmed _ _ passed => omega

theorem Tracks.initWithValidators {cfg : Config} {env : Env} {s s' : State} {history : History}
    {data : Bytes} (tracks : Tracks env.timestamp s history)
    (success : NearBridge.initWithValidators cfg env data s = .ok s') :
    Tracks env.timestamp s' (history.record env s' (.initWithValidators data)) := by
  obtain ⟨_, ⟨fresh, _⟩, validators, decoded, epoch, stored, rfl⟩ :=
    initWithValidators_eq_ok.mp success
  obtain ⟨_, holds, _⟩ := setBlockProducers_eq_ok stored
  simp only [History.record, decoded]
  cases tracks with
  | uninitialized _ idle first low _ hashes roots empty quiet =>
    refine .uninitialized fresh idle first low ?_ hashes roots empty quiet
    simpa using holds
  | settled ready => simp [fresh] at ready
  | pending ready => simp [fresh] at ready
  | confirmed ready => simp [fresh] at ready

theorem Tracks.initWithBlock {cfg : Config} {env : Env} {s s' : State} {history : History}
    {data : Bytes} (tracks : Tracks env.timestamp s history)
    (success : NearBridge.initWithBlock cfg env data s = .ok s') :
    Tracks env.timestamp s' (history.record env s' (.initWithBlock data)) := by
  obtain ⟨_, ⟨fresh, _⟩, nearBlock, decoded, given, next, stored, rfl⟩ :=
    initWithBlock_eq_ok.mp success
  obtain ⟨_, holds, id⟩ := setBlockProducers_eq_ok stored
  simp only [History.record, decoded]
  cases tracks with
  | uninitialized _ idle first low validators hashes roots empty quiet =>
    refine .settled rfl idle ⟨rfl, ?_, ?_, ?_, ?_, ?_, given⟩ quiet
    · simp only [first, Function.update_of_ne (show (0 : Fin 3) ≠ 1 by decide), Function.update_self]
      exact ⟨rfl, validators.count, validators.keys, validators.stakes, validators.threshold⟩
    · simp only [first, zero_add, Function.update_self]
      exact ⟨id, holds⟩
    · intro height
      rw [valueAt_cons]
      simp only [hashes, Function.update_apply, eq_comm]
      rfl
    · intro height
      rw [valueAt_cons]
      simp only [roots, Function.update_apply, eq_comm]
      rfl
    · intro other member
      rw [List.mem_singleton.mp member]
      exact BitVec.le_refl _
  | settled ready => simp [fresh] at ready
  | pending ready => simp [fresh] at ready
  | confirmed ready => simp [fresh] at ready

theorem Tracks.exec {cfg : Config} {env : Env} {call : Call} {s s' : State} {history : History}
    (tracks : Tracks env.timestamp s history) (success : NearBridge.exec cfg env call s = .ok s') :
    Tracks env.timestamp s' (history.record env s' call) := by
  cases call with
  | deposit value =>
    obtain ⟨_, _, rfl⟩ := deposit_eq_ok.mp success
    exact tracks.frame _ _ _ _ _
  | withdraw =>
    obtain ⟨_, _, _, _, rfl⟩ := withdraw_eq_ok.mp success
    exact tracks.frame _ _ _ _ _
  | challenge receiver signatureIndex => exact tracks.challenge success
  | addLightClientBlock data => exact tracks.addLightClientBlock success
  | initWithValidators data => exact tracks.initWithValidators success
  | initWithBlock data => exact tracks.initWithBlock success
  | adminPause flags =>
    obtain ⟨_, rfl⟩ := adminPause_eq_ok.mp success
    exact tracks.frame _ _ _ _ _
  | adminReceiveEth value =>
    obtain ⟨_, rfl⟩ := adminReceiveEth_eq_ok.mp success
    exact tracks.frame _ _ _ _ _

/-- From a moment that tracks its history, every run does. -/
theorem Watched.Tracked.run (cfg : Config) {point : Watched} (tracked : point.Tracked)
    (labels : List Label) : ((watched cfg).run point labels).Tracked :=
  watched_invariant
    (fun _ _ _ _ _ _ tracks success => Tracks.exec tracks success)
    (fun _ _ _ tracks => Tracks.wait tracks (Nat.le_add_right _ _))
    (fun _ _ _ tracks => Tracks.frame tracks _ _ _ _ _) tracked labels

end RainbowBridge.NearBridge
