import RainbowBridge.Near2Eth.Watchdog

/-! How the watchdog decides about a block. With enough requests inside the challenge
period, a block with a false signature is gone and any other one has been gone over. -/

namespace RainbowBridge.Near2Eth

open Lib Solidity NearBridge

def Action.isTurn : Action → Bool
  | .turn _ => true
  | .world _ | .fail => false

section

variable [Hashing] (cfg : Config)

/-- The watchdog's requests are answered, nothing stops its challenge, and meanwhile
nobody resubmits and the challenge period does not end. -/
def Calm (ethMasterAccount : Address) (patrol : Patrol) : Action → Prop
  | .world label => resubmits cfg patrol.point label = false ∧ ∀ seconds, label = .wait seconds →
      patrol.point.moment.state.lastValidAt = 0 ∨
        patrol.point.moment.time + seconds < patrol.point.moment.state.lastValidAt
  | .turn accepts => accepts ethMasterAccount = true ∧
      Unpaused cfg (patrol.point.moment.env ethMasterAccount accepts) patrol.point.moment.state pausedChallenge
  | .fail => False

/-- The requests that are left in an iteration over the pending block, and one more
iteration if it began with another block. -/
def Phase.requests (fresh : Bool) : Phase → Nat
  | .start => maxBlockProducers + 3
  | .checking numBlockProducers i => numBlockProducers - i + 2 + if fresh then 0 else maxBlockProducers + 3
  | .challenging _ => 1 + if fresh then 0 else maxBlockProducers + 3

/-- The requests that are left until the watchdog has decided. -/
def Patrol.requests (patrol : Patrol) : Nat :=
  if patrol.cleared = true ∨ patrol.point.moment.state.lastValidAt = 0 then 0
  else patrol.phase.requests patrol.fresh

end

section Quiet

variable [Hashing] {cfg : Config}

/-- What the contract and its history keep while nobody resubmits: the confirmed blocks,
and the pending one unless it was challenged for a false signature. -/
structure Keeps (cfg : Config) (point after : Watched) : Prop where
  validators : after.history.validators = point.history.validators
  confirmed : after.history.confirmed = point.history.confirmed
  head : SameHead point.moment.state after.moment.state
  pending : (after.history.pending = point.history.pending ∧
      after.moment.state.lastValidAt = point.moment.state.lastValidAt) ∨
    (¬ AllValid cfg point.moment.state ∧ after.history.pending = none ∧ after.moment.state.lastValidAt = 0)
  early : after.moment.state.lastValidAt = 0 ∨ after.moment.time < after.moment.state.lastValidAt

/-- The challenge period of the untrusted block, if there is one, has not ended. -/
def Early (point : Watched) : Prop :=
  point.moment.state.lastValidAt = 0 ∨ point.moment.time < point.moment.state.lastValidAt

omit [Hashing] in
theorem settle_early {point : Watched} (tracked : point.Tracked) {later : Nat}
    (early : point.moment.state.lastValidAt = 0 ∨ later < point.moment.state.lastValidAt) :
    point.history.settle later = point.history := by
  cases tracked with
  | uninitialized _ _ _ _ _ _ _ _ quiet => simp only [History.settle, quiet]
  | settled _ _ _ quiet => simp only [History.settle, quiet]
  | confirmed _ _ _ _ _ _ quiet => simp only [History.settle, quiet]
  | pending _ inside committed nearBlock waiting untrusted =>
    simp only [History.settle, waiting]
    rw [if_neg (by omega)]

theorem keeps_next {point : Watched} (tracked : point.Tracked) (now : Early point) {label : Label}
    (kept : resubmits cfg point label = false) (waits : ∀ seconds, label = .wait seconds →
      point.moment.state.lastValidAt = 0 ∨ point.moment.time + seconds < point.moment.state.lastValidAt) :
    Keeps cfg point ((watched cfg).next point label) := by
  have head := sameHead_next kept
  cases label with
  | wait seconds =>
    have same : ((watched cfg).next point (.wait seconds)).history = point.history :=
      settle_early tracked (waits seconds rfl)
    exact ⟨by rw [same], by rw [same], head, .inl ⟨by rw [same], rfl⟩, waits seconds rfl⟩
  | force value => exact ⟨rfl, rfl, head, .inl ⟨rfl, rfl⟩, now⟩
  | call sender accepts call =>
    cases success : exec cfg (point.moment.env sender accepts) call point.moment.state with
    | error error =>
      have same : (watched cfg).next point (.call sender accepts call) = point := by
        simp only [watched, machine, success]
      rw [same]
      exact ⟨rfl, rfl, .refl _, .inl ⟨rfl, rfl⟩, now⟩
    | ok state =>
      have other : rewrites call = false := by
        simpa [resubmits, success, Except.isOk, Except.toBool] using kept
      have after : (watched cfg).next point (.call sender accepts call) =
          ⟨{ point.moment with state := state },
            point.history.record (point.moment.env sender accepts) state call⟩ := by
        simp only [watched, machine, success]
      rw [after] at head ⊢
      cases call with
      | challenge receiver signatureIndex =>
        obtain ⟨-, -, checked, -, -, rfl⟩ := challenge_eq_ok.mp success
        obtain ⟨present, -, invalid⟩ := checkBlockProducerSignatureInHead_eq_ok.mp checked
        refine ⟨rfl, rfl, head, .inr ⟨fun valid => ?_, rfl, rfl⟩, .inl rfl⟩
        rw [valid signatureIndex present] at invalid
        cases invalid
      | deposit value =>
        obtain ⟨-, -, rfl⟩ := deposit_eq_ok.mp success
        exact ⟨rfl, rfl, head, .inl ⟨rfl, rfl⟩, now⟩
      | withdraw =>
        obtain ⟨-, -, -, -, rfl⟩ := withdraw_eq_ok.mp success
        exact ⟨rfl, rfl, head, .inl ⟨rfl, rfl⟩, now⟩
      | adminPause flags =>
        obtain ⟨-, rfl⟩ := adminPause_eq_ok.mp success
        exact ⟨rfl, rfl, head, .inl ⟨rfl, rfl⟩, now⟩
      | adminReceiveEth value =>
        obtain ⟨-, rfl⟩ := adminReceiveEth_eq_ok.mp success
        exact ⟨rfl, rfl, head, .inl ⟨rfl, rfl⟩, now⟩
      | addLightClientBlock data => cases other
      | initWithValidators data => cases other
      | initWithBlock data => cases other

omit [Hashing] in
theorem SameHead.allValid {s s' : State} (same : SameHead s s') : AllValid cfg s' ↔ AllValid cfg s := by
  simp only [AllValid, same.hasSignature, same.edwardsCheck]

omit [Hashing] in
theorem SameHead.trans {s s' s'' : State} (first : SameHead s s') (second : SameHead s' s'') : SameHead s s'' where
  epochs := second.epochs.trans first.epochs
  curEpoch := second.curEpoch.trans first.curEpoch
  height := second.height.trans first.height
  nextEpoch := second.nextEpoch.trans first.nextEpoch
  nextHash := second.nextHash.trans first.nextHash
  signatureSet := second.signatureSet.trans first.signatureSet
  signatures := second.signatures.trans first.signatures

omit [Hashing] in
theorem Keeps.refl {point : Watched} (early : Early point) : Keeps cfg point point :=
  ⟨rfl, rfl, .refl _, .inl ⟨rfl, rfl⟩, early⟩

omit [Hashing] in
theorem Keeps.trans {point mid after : Watched} (first : Keeps cfg point mid) (second : Keeps cfg mid after) :
    Keeps cfg point after := by
  refine ⟨second.validators.trans first.validators, second.confirmed.trans first.confirmed,
    first.head.trans second.head, ?_, second.early⟩
  rcases second.pending with ⟨pending, validAt⟩ | ⟨invalid, dropped⟩
  · rw [pending, validAt]
    exact first.pending
  · exact .inr ⟨mt first.head.allValid.mpr invalid, dropped⟩

end Quiet

section Progress

variable [Hashing] {cfg : Config} {ethMasterAccount : Address} {patrol : Patrol}

omit [Hashing] in
theorem requests_eq_zero :
    patrol.requests = 0 ↔ patrol.cleared = true ∨ patrol.point.moment.state.lastValidAt = 0 := by
  rw [Patrol.requests]
  split
  · simpa
  · rename_i undecided
    have some : patrol.phase.requests patrol.fresh ≠ 0 := by
      cases patrol.phase <;> simp [Phase.requests]
    simp [some, undecided]

omit [Hashing] in
theorem requests_le (few : ∀ n i, patrol.phase = .checking n i → n ≤ maxBlockProducers) :
    patrol.requests ≤ 2 * maxBlockProducers + 5 := by
  rw [Patrol.requests]
  split
  · exact Nat.zero_le _
  · cases here : patrol.phase with
    | start =>
      simp only [Phase.requests]
      omega
    | checking n i =>
      have bound := few n i here
      simp only [Phase.requests]
      split <;> omega
    | challenging i =>
      simp only [Phase.requests]
      split <;> omega

/-- What the watchdog does is nothing to the contract, or a challenge. -/
theorem keeps_turn (checks : Checks cfg patrol) (early : Early patrol.point) (accepts : Address → Bool) :
    Keeps cfg patrol.point ((Near2Eth.patrol cfg ethMasterAccount).next patrol (.turn accepts)).point := by
  rcases turn_point cfg patrol ethMasterAccount accepts with same | ⟨i, challenged⟩
  · rw [same]
    exact .refl early
  · rw [challenged]
    exact keeps_next checks.tracked early rfl fun _ => nofun

theorem keeps_calm (checks : Checks cfg patrol) (early : Early patrol.point) {action : Action}
    (calm : Calm cfg ethMasterAccount patrol action) :
    Keeps cfg patrol.point ((Near2Eth.patrol cfg ethMasterAccount).next patrol action).point := by
  cases action with
  | world label => exact keeps_next checks.tracked early calm.1 calm.2
  | turn accepts => exact keeps_turn checks early accepts
  | fail => exact calm.elim

/-- Once the watchdog has decided, it stays so. -/
theorem decided_next (checks : Checks cfg patrol) (early : Early patrol.point) {action : Action}
    (calm : Calm cfg ethMasterAccount patrol action) (decided : patrol.requests = 0) :
    ((Near2Eth.patrol cfg ethMasterAccount).next patrol action).requests = 0 := by
  rw [requests_eq_zero] at decided ⊢
  rcases decided with cleared | idle
  · left
    cases action with
    | world label => simp [Near2Eth.patrol, cleared, calm.1]
    | fail => exact calm.elim
    | turn accepts =>
      simp only [Near2Eth.patrol]
      split
      · split <;> exact cleared
      · split
        · split
          · exact cleared
          · exact cleared
          · split <;> exact cleared
        · simp [cleared]
      · exact cleared
  · right
    rcases (keeps_calm checks early calm).pending with ⟨-, same⟩ | ⟨-, -, dropped⟩
    · rw [same, idle]
    · exact dropped

variable (cfg) in
omit [Hashing] in
/-- A check inside the number of producers has an answer. -/
theorem check_cases (s : State) {i : Nat} (inside : i < maxBlockProducers) :
    checkBlockProducerSignatureInHead cfg s i = .ok true ∨
      checkBlockProducerSignatureInHead cfg s i = .ok false ∨
      checkBlockProducerSignatureInHead cfg s i = .error "No such signature" := by
  by_cases present : s.hasSignature i
  · cases valid : edwardsCheck cfg s i with
    | true => exact .inl (checkBlockProducerSignatureInHead_eq_ok.mpr ⟨present, inside, valid⟩)
    | false => exact .inr (.inl (checkBlockProducerSignatureInHead_eq_ok.mpr ⟨present, inside, valid⟩))
  · simp [checkBlockProducerSignatureInHead, require, present, bind, Except.bind]

/-- A request decides, or brings the decision nearer. -/
theorem requests_turn (checks : Checks cfg patrol) (bonds : Bonds cfg patrol.point) (early : Early patrol.point)
    {accepts : Address → Bool} (calm : Calm cfg ethMasterAccount patrol (.turn accepts)) :
    ((Near2Eth.patrol cfg ethMasterAccount).next patrol (.turn accepts)).requests ≤ patrol.requests - 1 := by
  by_cases decided : patrol.requests = 0
  · rw [decided_next checks early calm decided]
    exact Nat.zero_le _
  · have undecided := mt requests_eq_zero.mpr decided
    obtain ⟨uncleared, used⟩ := not_or.mp undecided
    have inside : patrol.point.moment.time < patrol.point.moment.state.lastValidAt := early.resolve_left used
    have now : patrol.requests = patrol.phase.requests patrol.fresh := if_neg undecided
    -- As long as the contract is the same, what is left is up to the phase.
    have left (phase : Phase) (fresh : Bool)
        (less : phase.requests fresh ≤ patrol.phase.requests patrol.fresh - 1) :
        Patrol.requests { patrol with phase, fresh } ≤ patrol.requests - 1 := by
      rw [now, Patrol.requests, if_neg undecided]
      exact less
    cases here : patrol.phase with
    | start =>
      have state : bridgeState (patrol.point.moment.env ethMasterAccount accepts) patrol.point.moment.state =
          ⟨_, _, _, _⟩ := if_pos inside
      simp only [Near2Eth.patrol, here, state, used, if_false]
      apply left
      have few := (patrol.point.moment.state.epochOf patrol.point.moment.state.untrustedNextEpoch).numBPs_le
      simp only [here, Phase.requests, if_true]
      omega
    | checking n i =>
      have few := checks.few n i here
      simp only [Near2Eth.patrol, here]
      split
      · rename_i low
        rcases check_cases cfg patrol.point.moment.state (Nat.lt_of_lt_of_le low few) with
          valid | invalid | missing
        · simp only [valid]
          apply left
          simp only [here, Phase.requests]
          omega
        · simp only [invalid]
          apply left
          simp only [here, Phase.requests]
          omega
        · simp only [missing, if_true]
          apply left
          simp only [here, Phase.requests]
          omega
      · cases fresh : patrol.fresh with
        | true => simp [Patrol.requests]
        | false =>
          rw [Bool.or_false]
          have less := left .start patrol.fresh (by simp [here, Phase.requests, fresh]; omega)
          exact less
    | challenging i =>
      cases fresh : patrol.fresh with
      | true =>
        obtain ⟨present, invalid⟩ := checks.found i here fresh
        obtain ⟨state, success⟩ := bonds.challenge_succeeds
          (show (patrol.point.moment.env ethMasterAccount accepts).timestamp < _ from inside) rfl calm.2 present invalid
          calm.1
        have dropped : state.lastValidAt = 0 := by
          obtain ⟨-, -, -, -, -, rfl⟩ := challenge_eq_ok.mp success
          rfl
        rw [requests_eq_zero.mpr (.inr _)]
        · exact Nat.zero_le _
        · simp only [Near2Eth.patrol, here, watched, machine, exec, success, dropped]
      | false =>
        rw [now, here, fresh]
        simp only [Near2Eth.patrol, here, Patrol.requests, Phase.requests]
        split
        · exact Nat.zero_le _
        · simp

theorem requests_next (checks : Checks cfg patrol) (bonds : Bonds cfg patrol.point) (early : Early patrol.point)
    {action : Action} (calm : Calm cfg ethMasterAccount patrol action) :
    ((Near2Eth.patrol cfg ethMasterAccount).next patrol action).requests ≤
      patrol.requests - if action.isTurn then 1 else 0 := by
  cases action with
  | turn accepts => exact requests_turn checks bonds early calm
  | fail => exact calm.elim
  | world label =>
    by_cases decided : patrol.requests = 0
    · rw [decided_next checks early calm decided]
      exact Nat.zero_le _
    · have left : patrol.requests = patrol.phase.requests patrol.fresh :=
        if_neg (mt requests_eq_zero.mpr decided)
      rw [left]
      simp only [Action.isTurn, Near2Eth.patrol, calm.1, Bool.not_false, Bool.and_true, Patrol.requests]
      split
      · exact Nat.zero_le _
      · exact Nat.le_refl _

end Progress

section Decision

variable [Hashing] {cfg : Config} {ethMasterAccount : Address} {time pausedFlags : Nat}

/-- The watchdog's requests are a run of the contract. -/
theorem exists_labels (patrol : Patrol) (actions : List Action)
    (before : ∃ labels, patrol.point = (watched cfg).run (.deployed time pausedFlags) labels) :
    ∃ labels, ((Near2Eth.patrol cfg ethMasterAccount).run patrol actions).point =
      (watched cfg).run (.deployed time pausedFlags) labels := by
  induction actions generalizing patrol with
  | nil => exact before
  | cons action rest ih =>
    apply ih
    obtain ⟨labels, same⟩ := before
    have step (label : Label) :
        ∃ labels, (watched cfg).next patrol.point label = (watched cfg).run (.deployed time pausedFlags) labels := by
      refine ⟨labels ++ [label], ?_⟩
      rw [Machine.run_append, ← same]
      rfl
    cases action with
    | world label => exact step label
    | fail => exact ⟨labels, same⟩
    | turn accepts =>
      rcases turn_point cfg patrol ethMasterAccount accepts with unchanged | ⟨i, challenged⟩
      · rw [unchanged]
        exact ⟨labels, same⟩
      · rw [challenged]
        exact step _

theorem Checks.run {patrol : Patrol} (checks : Checks cfg patrol) (actions : List Action) :
    Checks cfg ((Near2Eth.patrol cfg ethMasterAccount).run patrol actions) := by
  induction actions generalizing patrol with
  | nil => exact checks
  | cons action rest ih => exact ih (checks.next ethMasterAccount action)

/-- What stays true while the watchdog decides. -/
structure Deciding (cfg : Config) (time pausedFlags : Nat) (point : Watched) (patrol : Patrol) : Prop where
  reached : ∃ labels, patrol.point = (watched cfg).run (.deployed time pausedFlags) labels
  checks : Checks cfg patrol
  keeps : Keeps cfg point patrol.point

theorem Deciding.bonds {point : Watched} {patrol : Patrol}
    (deciding : Deciding cfg time pausedFlags point patrol) : Bonds cfg patrol.point := by
  obtain ⟨labels, same⟩ := deciding.reached
  rw [same]
  exact Bonds.always cfg time pausedFlags labels

theorem Deciding.next {point : Watched} {patrol : Patrol} (deciding : Deciding cfg time pausedFlags point patrol)
    {action : Action} (calm : Calm cfg ethMasterAccount patrol action) :
    Deciding cfg time pausedFlags point ((Near2Eth.patrol cfg ethMasterAccount).next patrol action) :=
  ⟨exists_labels patrol [action] deciding.reached, deciding.checks.next ethMasterAccount action,
    deciding.keeps.trans (keeps_calm deciding.checks deciding.keeps.early calm)⟩

omit [Hashing] in
/-- Inside a challenge period the stored signatures are those of the pending block. -/
theorem valid_iff_of_pending {point : Watched} (tracked : point.Tracked) {pending : Pending}
    (waiting : point.history.pending = some pending) :
    point.moment.time < point.moment.state.lastValidAt ∧ ∀ cfg : Config, AllValid cfg point.moment.state ↔
      Signed cfg (producersOf (epochsAfter point.history.validators point.history.confirmed) pending.block)
        pending.block := by
  cases tracked with
  | uninitialized _ _ _ _ _ _ _ _ quiet => simp [quiet] at waiting
  | settled _ _ _ quiet => simp [quiet] at waiting
  | confirmed _ _ _ _ _ _ quiet => simp [quiet] at waiting
  | pending _ inside committed nearBlock own untrusted =>
    rw [own, Option.some.injEq] at waiting
    rw [← waiting]
    exact ⟨inside, fun cfg => allValid_iff committed untrusted⟩

/-- The turns of a watchdog that is the admin of the contract are calm. -/
theorem sampleTurns_calm (patrol : Patrol) (count : Nat) :
    (Near2Eth.patrol sampleConfig 1).StepsMeet (Calm sampleConfig 1) patrol
      (List.replicate count (.turn fun _ => true)) := by
  induction count generalizing patrol with
  | zero => trivial
  | succ count ih => exact ⟨⟨rfl, .inr rfl⟩, ih _⟩

/-- The pending block, if its first approval is that of a validator. -/
def Patrol.sampleBlock (patrol : Patrol) : Option Pending :=
  let history := patrol.point.history
  history.pending.filter fun pending =>
    0 < (producersOf (epochsAfter history.validators history.confirmed) pending.block).length ∧
      approved pending.block.approvalsAfterNext 0 = true

end Decision

end RainbowBridge.Near2Eth
