import RainbowBridge.NearBridge.Bonds
import RainbowBridge.NearBridge.Eager
import RainbowBridge.NearBridge.Threshold

/-! The watchdog, which checks the signatures of the pending block one by one and
challenges a false one. Anything can happen to the contract between two of its
requests. -/

namespace RainbowBridge.Near2Eth

open Lib Solidity NearBridge

/-- Where `run` is in an iteration of its loop. -/
inductive Phase where
  | start
  | checking (numBlockProducers i : Nat)
  | challenging (i : Nat)

/-- The contract with its history, and the watchdog. Two marks are kept beside it and
never read: whether the iteration is over the submission that it began with, and
whether an iteration has gone over the last submission to its end. -/
structure Patrol where
  point : Watched
  phase : Phase
  fresh : Bool
  cleared : Bool

/-- A step of the contract or of time, a request of the watchdog that is answered, or one
that fails. -/
inductive Action where
  | world (label : Label)
  | turn (accepts : Address → Bool)
  | fail

/-- The calls that write the untrusted block or the epochs. -/
def rewrites : Call → Bool
  | .addLightClientBlock _ | .initWithValidators _ | .initWithBlock _ => true
  | _ => false

def Patrol.next (patrol : Patrol) : Phase → Patrol := fun phase => { patrol with phase }

section

variable [Hashing] (cfg : Config)

def resubmits (point : Watched) : Label → Bool
  | .call sender accepts call =>
    rewrites call && (exec cfg (point.moment.env sender accepts) call point.moment.state).isOk
  | _ => false

/-- The loop of `run`, request by request. An error of a check other than a missing
signature ends the iteration; whether its challenge succeeds or not, so does the first
false signature. -/
def patrol (ethMasterAccount : Address) : Machine Patrol Action where
  next patrol action :=
    let s := patrol.point.moment.state
    match action with
    | .world label =>
      let kept := !resubmits cfg patrol.point label
      ⟨(watched cfg).next patrol.point label, patrol.phase, patrol.fresh && kept, patrol.cleared && kept⟩
    | .fail => patrol.next .start
    | .turn accepts =>
      match patrol.phase with
      | .start =>
        let state := bridgeState (patrol.point.moment.env ethMasterAccount accepts) s
        if state.nextValidAt = 0 then patrol
        else { patrol with phase := .checking state.numBlockProducers 0, fresh := true }
      | .checking numBlockProducers i =>
        if i < numBlockProducers then
          match checkBlockProducerSignatureInHead cfg s i with
          | .ok true => patrol.next (.checking numBlockProducers (i + 1))
          | .ok false => patrol.next (.challenging i)
          | .error error =>
            if error = "No such signature" then patrol.next (.checking numBlockProducers (i + 1))
            else patrol.next .start
        else { patrol with phase := .start, cleared := patrol.cleared || patrol.fresh }
      | .challenging i =>
        { patrol with
          point := (watched cfg).next patrol.point (.call ethMasterAccount accepts (.challenge ethMasterAccount i))
          phase := .start }

def Patrol.deployed (time pausedFlags : Nat) : Patrol := ⟨.deployed time pausedFlags, .start, false, false⟩

/-- Every approval of the block is signed by its producer. -/
def Signed (producers : List BlockProducer) (nearBlock : LightClientBlock) : Prop :=
  ∀ i, ¬ FalseApproval cfg producers nearBlock i

/-- Every block after the first is signed by the producers of its epoch. -/
def ChainOfSignatures (validators : List BlockProducer) : List LightClientBlock → Prop
  | [] => True
  | [_] => True
  | nearBlock :: parent :: earlier =>
    ChainOfSignatures validators (parent :: earlier) ∧
      Signed cfg (producersOf (epochsAfter validators (parent :: earlier)) nearBlock) nearBlock

/-- Every signature that is stored for the untrusted block is valid. -/
def AllValid (s : State) : Prop := ∀ i, s.hasSignature i → edwardsCheck cfg s i = true

end

section Untrusted

variable {cfg : Config}

/-- The stored signatures of a block are those of its approvals. -/
theorem allValid_iff {s : State} {validators : List BlockProducer} {chain : List LightClientBlock}
    {nearBlock : LightClientBlock} (committed : Committed s validators chain)
    (untrusted : Untrusted s validators chain nearBlock) :
    AllValid cfg s ↔ Signed cfg (producersOf (epochsAfter validators chain) nearBlock) nearBlock := by
  constructor
  · intro valid i wrong
    obtain ⟨present, -, invalid⟩ := checkBlockProducerSignatureInHead_eq_ok.mp
      ((untrusted.falseApproval_iff committed i).mpr wrong)
    rw [valid i present] at invalid
    cases invalid
  · intro signed i present
    by_contra invalid
    have inside := ((untrusted.present i).mp present).1
    exact signed i ((untrusted.falseApproval_iff committed i).mp (checkBlockProducerSignatureInHead_eq_ok.mpr
      ⟨present, Nat.lt_of_lt_of_le inside (Epoch.numBPs_le _), Bool.eq_false_of_not_eq_true invalid⟩))

theorem chainOfSignatures_cons {validators : List BlockProducer} {chain : List LightClientBlock}
    {nearBlock : LightClientBlock} (signed : ChainOfSignatures cfg validators chain)
    (own : Signed cfg (producersOf (epochsAfter validators chain) nearBlock) nearBlock) :
    ChainOfSignatures cfg validators (nearBlock :: chain) := by
  cases chain with
  | nil => trivial
  | cons parent earlier => exact ⟨signed, own⟩

end Untrusted

section Soundness

/-- What the checks read is the same. -/
structure SameHead (s s' : State) : Prop where
  epochs : s'.epochs = s.epochs
  curEpoch : s'.curEpoch = s.curEpoch
  height : s'.untrustedHeight = s.untrustedHeight
  nextEpoch : s'.untrustedNextEpoch = s.untrustedNextEpoch
  nextHash : s'.untrustedNextHash = s.untrustedNextHash
  signatureSet : s'.untrustedSignatureSet = s.untrustedSignatureSet
  signatures : s'.untrustedSignatures = s.untrustedSignatures

variable {cfg : Config} {s s' : State}

theorem SameHead.refl (s : State) : SameHead s s := ⟨rfl, rfl, rfl, rfl, rfl, rfl, rfl⟩

theorem SameHead.hasSignature (same : SameHead s s') (i : Nat) : s'.hasSignature i ↔ s.hasSignature i := by
  rw [State.hasSignature, State.hasSignature, same.signatureSet]

theorem SameHead.edwardsCheck (same : SameHead s s') (i : Nat) :
    edwardsCheck cfg s' i = edwardsCheck cfg s i := by
  simp only [NearBridge.edwardsCheck, State.epochOf, same.epochs, same.curEpoch, same.height, same.nextEpoch,
    same.nextHash, same.signatures]

variable [Hashing]

/-- Other calls leave the untrusted block and the epochs alone. -/
theorem sameHead_exec {env : Env} {call : Call} (other : rewrites call = false)
    (success : exec cfg env call s = .ok s') : SameHead s s' := by
  cases call with
  | deposit value =>
    obtain ⟨-, -, rfl⟩ := deposit_eq_ok.mp success
    exact ⟨rfl, rfl, rfl, rfl, rfl, rfl, rfl⟩
  | withdraw =>
    obtain ⟨-, -, -, -, rfl⟩ := withdraw_eq_ok.mp success
    exact ⟨rfl, rfl, rfl, rfl, rfl, rfl, rfl⟩
  | challenge receiver signatureIndex =>
    obtain ⟨-, -, -, -, -, rfl⟩ := challenge_eq_ok.mp success
    exact ⟨rfl, rfl, rfl, rfl, rfl, rfl, rfl⟩
  | adminPause flags =>
    obtain ⟨-, rfl⟩ := adminPause_eq_ok.mp success
    exact ⟨rfl, rfl, rfl, rfl, rfl, rfl, rfl⟩
  | adminReceiveEth value =>
    obtain ⟨-, rfl⟩ := adminReceiveEth_eq_ok.mp success
    exact ⟨rfl, rfl, rfl, rfl, rfl, rfl, rfl⟩
  | addLightClientBlock data => cases other
  | initWithValidators data => cases other
  | initWithBlock data => cases other

theorem sameHead_next {point : Watched} {label : Label} (kept : resubmits cfg point label = false) :
    SameHead point.moment.state ((watched cfg).next point label).moment.state := by
  cases label with
  | wait seconds => exact .refl _
  | force value => exact ⟨rfl, rfl, rfl, rfl, rfl, rfl, rfl⟩
  | call sender accepts call =>
    simp only [watched, machine]
    cases success : exec cfg (point.moment.env sender accepts) call point.moment.state with
    | error error => exact .refl _
    | ok state =>
      refine sameHead_exec ?_ success
      simpa [resubmits, success, Except.isOk, Except.toBool] using kept

/-- Challenge periods take time, and none of them ends before the watchdog has gone over
the signatures of the block. -/
def Punctual (cfg : Config) (patrol : Patrol) : Action → Prop
  | .world (.wait seconds) => ∀ pending, patrol.point.history.pending = some pending →
      pending.validAt ≤ patrol.point.moment.time + seconds → patrol.cleared = true
  | .world (.call _ _ (.addLightClientBlock _)) =>
      patrol.point.moment.time < uncheckedAdd patrol.point.moment.time cfg.lockDuration
  | _ => True

/-- What the watchdog knows about the signatures that are stored. -/
structure Checks (cfg : Config) (patrol : Patrol) : Prop where
  tracked : patrol.point.Tracked
  cleared : patrol.cleared = true → AllValid cfg patrol.point.moment.state
  few : ∀ n i, patrol.phase = .checking n i → n ≤ maxBlockProducers
  checked : ∀ n i, patrol.phase = .checking n i → patrol.fresh = true →
    (∀ j, patrol.point.moment.state.hasSignature j → j < n) ∧
      ∀ j < i, patrol.point.moment.state.hasSignature j → edwardsCheck cfg patrol.point.moment.state j = true
  found : ∀ i, patrol.phase = .challenging i → patrol.fresh = true →
    patrol.point.moment.state.hasSignature i ∧ edwardsCheck cfg patrol.point.moment.state i = false

omit [Hashing] in
/-- Waiting confirms a block only after the watchdog has gone over it. -/
theorem signed_wait {point : Watched} {cleared : Bool} {later : Nat} (tracked : point.Tracked)
    (valid : cleared = true → AllValid cfg point.moment.state)
    (punctual : ∀ pending, point.history.pending = some pending → pending.validAt ≤ later → cleared = true)
    (signed : ChainOfSignatures cfg point.history.validators point.history.confirmed) :
    ChainOfSignatures cfg (point.history.settle later).validators (point.history.settle later).confirmed := by
  cases tracked with
  | uninitialized _ _ _ _ _ _ _ _ quiet => simpa only [History.settle, quiet] using signed
  | settled _ _ _ quiet => simpa only [History.settle, quiet] using signed
  | confirmed _ _ _ _ _ _ quiet => simpa only [History.settle, quiet] using signed
  | pending _ _ committed nearBlock waiting untrusted =>
    simp only [History.settle, waiting]
    split
    · rename_i ended
      exact chainOfSignatures_cons signed
        ((allValid_iff committed untrusted).mp (valid (punctual _ waiting ended)))
    · exact signed

/-- No call confirms a block whose challenge period takes time. -/
theorem signed_exec {env : Env} {history : History} {call : Call} (tracks : Tracks env.timestamp s history)
    (success : exec cfg env call s = .ok s')
    (late : ∀ data, call = .addLightClientBlock data → env.timestamp < uncheckedAdd env.timestamp cfg.lockDuration)
    (signed : ChainOfSignatures cfg history.validators history.confirmed) :
    ChainOfSignatures cfg (history.record env s' call).validators (history.record env s' call).confirmed := by
  cases call with
  | addLightClientBlock data =>
    obtain ⟨_, _, _, nearBlock, decoded, settled, _, accepted⟩ := addLightClientBlock_eq_ok.mp success
    obtain ⟨_, validAt, _⟩ := acceptBlock_submission accepted
    have after := late data rfl
    simp only [History.record, decoded, History.submit, History.settle, validAt]
    rw [if_neg (by omega)]
    simp only [show ¬ uncheckedAdd env.timestamp cfg.lockDuration ≤ env.timestamp by omega, if_false]
    exact signed
  | initWithValidators data =>
    obtain ⟨_, ⟨fresh, _⟩, validators, decoded, _⟩ := initWithValidators_eq_ok.mp success
    simp only [History.record, decoded]
    cases tracks with
    | uninitialized _ _ _ _ _ _ _ empty =>
      rw [empty]
      trivial
    | settled ready => simp [fresh] at ready
    | pending ready => simp [fresh] at ready
    | confirmed ready => simp [fresh] at ready
  | initWithBlock data =>
    obtain ⟨_, _, nearBlock, decoded, _⟩ := initWithBlock_eq_ok.mp success
    simp only [History.record, decoded]
    trivial
  | challenge receiver signatureIndex => exact signed
  | deposit value => exact signed
  | withdraw => exact signed
  | adminPause flags => exact signed
  | adminReceiveEth value => exact signed

variable (cfg) in
theorem watched_tracked {point : Watched} (tracked : point.Tracked) (label : Label) :
    ((watched cfg).next point label).Tracked :=
  tracked.run cfg [label]

theorem signed_next {patrol : Patrol} (checks : Checks cfg patrol) {label : Label}
    (punctual : Punctual cfg patrol (.world label))
    (signed : ChainOfSignatures cfg patrol.point.history.validators patrol.point.history.confirmed) :
    ChainOfSignatures cfg ((watched cfg).next patrol.point label).history.validators
      ((watched cfg).next patrol.point label).history.confirmed := by
  cases label with
  | wait seconds => exact signed_wait checks.tracked checks.cleared punctual signed
  | force value => exact signed
  | call sender accepts call =>
    simp only [watched]
    cases success : exec cfg (patrol.point.moment.env sender accepts) call patrol.point.moment.state with
    | error error => exact signed
    | ok state =>
      refine signed_exec (checks.tracked.tracks sender accepts) success ?_ signed
      rintro data rfl
      exact punctual

/-- A step of the contract keeps what the watchdog has found out, unless it resubmits. -/
theorem Checks.world {patrol : Patrol} (checks : Checks cfg patrol) (label : Label) (ethMasterAccount : Address) :
    Checks cfg ((Near2Eth.patrol cfg ethMasterAccount).next patrol (.world label)) := by
  have tracked := watched_tracked cfg checks.tracked label
  simp only [Near2Eth.patrol]
  by_cases kept : resubmits cfg patrol.point label = false
  · have same := sameHead_next kept
    refine ⟨tracked, fun cleared i present => ?_, checks.few, fun n i phase fresh => ?_, fun i phase fresh => ?_⟩
    · simp only [kept, Bool.not_false, Bool.and_true] at cleared
      rw [same.edwardsCheck]
      exact checks.cleared cleared i ((same.hasSignature i).mp present)
    · simp only [kept, Bool.not_false, Bool.and_true] at fresh
      obtain ⟨inside, before⟩ := checks.checked n i phase fresh
      refine ⟨fun j present => inside j ((same.hasSignature j).mp present), fun j low present => ?_⟩
      rw [same.edwardsCheck]
      exact before j low ((same.hasSignature j).mp present)
    · simp only [kept, Bool.not_false, Bool.and_true] at fresh
      obtain ⟨present, invalid⟩ := checks.found i phase fresh
      rw [same.edwardsCheck]
      exact ⟨(same.hasSignature i).mpr present, invalid⟩
  · rw [Bool.not_eq_false] at kept
    refine ⟨tracked, fun cleared => ?_, checks.few, fun n i _ fresh => ?_, fun i _ fresh => ?_⟩
    · simp [kept] at cleared
    · simp [kept] at fresh
    · simp [kept] at fresh

omit [Hashing] in
theorem Checks.rest {patrol : Patrol} (checks : Checks cfg patrol) : Checks cfg (patrol.next .start) :=
  ⟨checks.tracked, checks.cleared, fun _ _ => nofun, fun _ _ => nofun, fun _ => nofun⟩

omit [Hashing] in
/-- The error that the watchdog skips means that there is no signature. -/
theorem check_eq_noSignature {i : Nat}
    (missing : checkBlockProducerSignatureInHead cfg s i = .error "No such signature") : ¬ s.hasSignature i := by
  intro present
  by_cases inside : i < maxBlockProducers
  · have found := checkBlockProducerSignatureInHead_eq_ok.mpr
      ⟨present, inside, (rfl : edwardsCheck cfg s i = edwardsCheck cfg s i)⟩
    rw [found] at missing
    cases missing
  · simp [checkBlockProducerSignatureInHead, require, present, inside, bind, Except.bind] at missing

omit [Hashing] in
/-- The bridge state names the number of producers of the pending block. -/
theorem bridgeState_pending {patrol : Patrol} (tracked : patrol.point.Tracked) {sender : Address}
    {accepts : Address → Bool}
    (waiting : (bridgeState (patrol.point.moment.env sender accepts) patrol.point.moment.state).nextValidAt ≠ 0) :
    let s := patrol.point.moment.state
    (bridgeState (patrol.point.moment.env sender accepts) s).numBlockProducers =
        (s.epochOf s.untrustedNextEpoch).numBPs ∧
      ∀ j, s.hasSignature j → j < (s.epochOf s.untrustedNextEpoch).numBPs := by
  intro s
  have inside : patrol.point.moment.time < s.lastValidAt := by
    by_contra ended
    exact waiting (congrArg BridgeState.nextValidAt (if_neg ended))
  refine ⟨by simp [bridgeState, Moment.env, inside, s], ?_⟩
  cases tracked with
  | uninitialized _ idle => exact absurd (idle ▸ inside) (Nat.not_lt_zero _)
  | settled _ idle => exact absurd (idle ▸ inside) (Nat.not_lt_zero _)
  | confirmed _ _ passed => exact absurd inside (Nat.not_lt.mpr passed)
  | pending _ _ _ nearBlock _ untrusted => exact fun j present => ((untrusted.present j).mp present).1

omit [Hashing] in
/-- A signature that is valid or missing is behind the watchdog. -/
theorem Checks.pass {patrol : Patrol} (checks : Checks cfg patrol) {n i : Nat}
    (here : patrol.phase = .checking n i)
    (own : patrol.point.moment.state.hasSignature i → edwardsCheck cfg patrol.point.moment.state i = true) :
    Checks cfg (patrol.next (.checking n (i + 1))) := by
  refine ⟨checks.tracked, checks.cleared, fun n' i' phase => ?_, fun n' i' phase fresh => ?_, fun _ => nofun⟩
  · cases phase
    exact checks.few n i here
  · cases phase
    obtain ⟨inside, before⟩ := checks.checked n i here fresh
    refine ⟨inside, fun j low present => ?_⟩
    rcases Nat.lt_succ_iff_lt_or_eq.mp low with earlier | rfl
    · exact before j earlier present
    · exact own present

theorem Checks.turn {patrol : Patrol} (checks : Checks cfg patrol) (ethMasterAccount : Address)
    (accepts : Address → Bool) :
    Checks cfg ((Near2Eth.patrol cfg ethMasterAccount).next patrol (.turn accepts)) := by
  cases here : patrol.phase with
  | start =>
    simp only [Near2Eth.patrol, here]
    split
    · exact checks
    · rename_i waiting
      obtain ⟨count, inside⟩ := bridgeState_pending checks.tracked waiting
      refine ⟨checks.tracked, checks.cleared, fun n i phase => ?_, fun n i phase _ => ?_, fun _ => nofun⟩
      · cases phase
        rw [count]
        exact Epoch.numBPs_le _
      · cases phase
        rw [count]
        exact ⟨inside, fun j low => absurd low (Nat.not_lt_zero j)⟩
  | checking n i =>
    simp only [Near2Eth.patrol, here]
    split
    · split
      · rename_i valid
        exact checks.pass here fun _ => (checkBlockProducerSignatureInHead_eq_ok.mp valid).2.2
      · rename_i invalid
        obtain ⟨present, -, fails⟩ := checkBlockProducerSignatureInHead_eq_ok.mp invalid
        refine ⟨checks.tracked, checks.cleared, fun _ _ => nofun, fun _ _ => nofun, fun j phase _ => ?_⟩
        cases phase
        exact ⟨present, fails⟩
      · rename_i error failed
        split
        · rename_i missing
          rw [missing] at failed
          exact checks.pass here fun present => absurd present (check_eq_noSignature failed)
        · exact checks.rest
    · rename_i ended
      refine ⟨checks.tracked, fun cleared j present => ?_, fun _ _ => nofun, fun _ _ => nofun, fun _ => nofun⟩
      rcases Bool.or_eq_true_iff.mp cleared with before | fresh
      · exact checks.cleared before j present
      · obtain ⟨inside, checked⟩ := checks.checked n i here fresh
        exact checked j (by have low := inside j present; omega) present
  | challenging i =>
    simp only [Near2Eth.patrol, here]
    have kept : resubmits cfg patrol.point
        (.call ethMasterAccount accepts (.challenge ethMasterAccount i)) = false := rfl
    have same := sameHead_next kept
    refine ⟨watched_tracked cfg checks.tracked (.call ethMasterAccount accepts (.challenge ethMasterAccount i)),
      fun cleared j present => ?_, fun _ _ => nofun, fun _ _ => nofun, fun _ => nofun⟩
    rw [same.edwardsCheck]
    exact checks.cleared cleared j ((same.hasSignature j).mp present)

theorem Checks.next {patrol : Patrol} (checks : Checks cfg patrol) (ethMasterAccount : Address)
    (action : Action) : Checks cfg ((Near2Eth.patrol cfg ethMasterAccount).next patrol action) := by
  cases action with
  | world label => exact checks.world label ethMasterAccount
  | turn accepts => exact checks.turn ethMasterAccount accepts
  | fail => exact checks.rest

omit [Hashing] in
theorem Checks.deployed (cfg : Config) (time pausedFlags : Nat) : Checks cfg (.deployed time pausedFlags) :=
  ⟨Watched.Tracked.deployed time pausedFlags, nofun, fun _ _ => nofun, fun _ _ => nofun, fun _ => nofun⟩

variable (cfg) in
/-- A request changes the contract by a challenge at most. -/
theorem turn_point (patrol : Patrol) (ethMasterAccount : Address) (accepts : Address → Bool) :
    ((Near2Eth.patrol cfg ethMasterAccount).next patrol (.turn accepts)).point = patrol.point ∨
      ∃ i, ((Near2Eth.patrol cfg ethMasterAccount).next patrol (.turn accepts)).point =
        (watched cfg).next patrol.point (.call ethMasterAccount accepts (.challenge ethMasterAccount i)) := by
  cases here : patrol.phase with
  | start =>
    simp only [Near2Eth.patrol, here]
    split <;> exact .inl rfl
  | checking n i =>
    simp only [Near2Eth.patrol, here]
    split
    · split
      · exact .inl rfl
      · exact .inl rfl
      · split <;> exact .inl rfl
    · exact .inl rfl
  | challenging i =>
    simp only [Near2Eth.patrol, here]
    exact .inr ⟨i, rfl⟩

/-- The checks of the watchdog, and what they say about the confirmed blocks. -/
def Sound (cfg : Config) (patrol : Patrol) : Prop :=
  Checks cfg patrol ∧ ChainOfSignatures cfg patrol.point.history.validators patrol.point.history.confirmed

theorem Sound.next {patrol : Patrol} (sound : Sound cfg patrol) (ethMasterAccount : Address) {action : Action}
    (punctual : Punctual cfg patrol action) :
    Sound cfg ((Near2Eth.patrol cfg ethMasterAccount).next patrol action) := by
  obtain ⟨checks, signed⟩ := sound
  refine ⟨checks.next ethMasterAccount action, ?_⟩
  cases action with
  | world label => exact signed_next checks punctual signed
  | fail => exact signed
  | turn accepts =>
    rcases turn_point cfg patrol ethMasterAccount accepts with same | ⟨i, challenged⟩
    · rw [same]
      exact signed
    · rw [challenged]
      exact signed_next checks (show Punctual cfg patrol (.world (.call ethMasterAccount accepts
        (.challenge ethMasterAccount i))) from trivial) signed

end Soundness

section Final

instance (cfg : Config) (producers : List BlockProducer) (nearBlock : LightClientBlock) (i : Nat) :
    Decidable (FalseApproval cfg producers nearBlock i) :=
  exists_prop_decidable _

/-- The stake of the producers whose approval is present and signed. -/
def signedStake (cfg : Config) (producers : List BlockProducer) (nearBlock : LightClientBlock) : Nat :=
  ∑ i : Fin producers.length,
    if approved nearBlock.approvalsAfterNext i = true ∧ ¬ FalseApproval cfg producers nearBlock i then
      (producers.get i).stake.toNat
    else 0

/-- Every block after the first has the signatures of more than two thirds of the stake
of its epoch. -/
def Final (cfg : Config) (validators : List BlockProducer) : List LightClientBlock → Prop
  | [] => True
  | [_] => True
  | nearBlock :: parent :: earlier =>
    Final cfg validators (parent :: earlier) ∧
      let producers := producersOf (epochsAfter validators (parent :: earlier)) nearBlock
      2 * totalStake producers < 3 * signedStake cfg producers nearBlock

variable {cfg : Config}

theorem signedStake_eq {producers : List BlockProducer} {nearBlock : LightClientBlock}
    (signed : Signed cfg producers nearBlock) :
    signedStake cfg producers nearBlock = approvedStake producers nearBlock.approvalsAfterNext := by
  rw [signedStake, approvedStake_eq_sum]
  apply Finset.sum_congr rfl
  intro i _
  simp only [signed i, not_false_eq_true, and_true, List.get_eq_getElem, Fin.getElem_fin]

theorem final_of_signed {validators : List BlockProducer} {chain : List LightClientBlock}
    (trust : ChainOfTrust validators chain) (signed : ChainOfSignatures cfg validators chain) :
    Final cfg validators chain := by
  induction chain with
  | nil => trivial
  | cons nearBlock rest ih =>
    cases rest with
    | nil => trivial
    | cons parent earlier =>
      obtain ⟨tail, _, follows⟩ := trust
      obtain ⟨before, own⟩ := signed
      refine ⟨ih tail before, ?_⟩
      intro producers
      rw [signedStake_eq own]
      rcases follows with ⟨same, quorum⟩ | ⟨other, _, quorum, _⟩
      · simpa only [Quorum, producers, producersOf, same, if_true] using quorum
      · simpa only [Quorum, producers, producersOf, other, if_false] using quorum

variable [Hashing]

/-- The bridge of one validator, whose signatures are valid. -/
def signingConfig : Config := { sampleConfig with edwards := fun _ _ _ _ _ => true }

/-- A block, an iteration of the watchdog, and the end of the challenge period. -/
def samplePatrol : List Action :=
  sampleStart.map .world ++
    [.world (.call 1 (fun _ => true) (.addLightClientBlock (sampleBlock 2 [0]))),
      .turn fun _ => true, .turn fun _ => true, .turn fun _ => true, .world (.wait 60)]

end Final

end RainbowBridge.Near2Eth
