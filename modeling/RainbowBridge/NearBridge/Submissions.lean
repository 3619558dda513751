import RainbowBridge.NearBridge.Rollback
import Mathlib.Data.List.Chain
import Mathlib.Tactic.Linarith

/-! The submissions of a run that replaced one another. Each one came while the one
before it was inside its challenge period, so that NEAR time advances by
`replaceDuration` with every replacement and Ethereum time by less than
`lockDuration`. -/

namespace RainbowBridge.NearBridge

open Lib Solidity

variable [Hashing]

/-- A successful call of `addLightClientBlock`. -/
structure Submission where
  submitter : Address
  time : Nat
  data : Bytes
  block : LightClientBlock

/-- NEAR timestamp of the block, in nanoseconds. -/
def Submission.timestamp (submission : Submission) : Nat := submission.block.innerLite.timestamp.toNat

/-- A watched moment, with the latest submission and those it replaced inside their
challenge periods, the latest one first. -/
structure Logged where
  point : Watched
  chain : List Submission

/-- What a successful call does to the chain of replacements. A submission that
does not replace a block inside its challenge period starts a new one. -/
def recordSubmission (env : Env) (before : State) (chain : List Submission) : Call → List Submission
  | .addLightClientBlock data =>
    match Borsh.decodeAll NearDecoder.decodeLightClientBlock data with
    | .ok nearBlock =>
      ⟨env.sender, env.timestamp, data, nearBlock⟩ ::
        if env.timestamp < before.lastValidAt then chain else []
    | .error _ => chain
  | .challenge _ _ => []
  | .deposit _ | .withdraw | .initWithValidators _ | .initWithBlock _ | .adminPause _
  | .adminReceiveEth _ => chain

/-- The watched runs of the contract with the submissions kept beside them. -/
def logged (cfg : Config) : Machine Logged Label where
  next log label :=
    let point := (watched cfg).next log.point label
    match label with
    | .call sender accepts call =>
      let env := log.point.moment.env sender accepts
      match exec cfg env call log.point.moment.state with
      | .ok _ => ⟨point, recordSubmission env log.point.moment.state log.chain call⟩
      | .error _ => ⟨point, log.chain⟩
    | .wait _ | .force _ => ⟨point, log.chain⟩

def Logged.deployed (time pausedFlags : Nat) : Logged := ⟨.deployed time pausedFlags, []⟩

/-- Keeping the submissions does not influence the run. -/
theorem logged_run_point (cfg : Config) (log : Logged) (labels : List Label) :
    ((logged cfg).run log labels).point = (watched cfg).run log.point labels := by
  refine Machine.run_simulation (logged cfg) (watched cfg) (fun log point => log.point = point) ?_ rfl
    labels
  intro log point label same
  subst same
  cases label with
  | call sender accepts call =>
    simp only [logged]
    split <;> rfl
  | wait seconds => rfl
  | force value => rfl

/-- The block that was submitted last: the pending one, or else the one that was
confirmed last. -/
def History.latest (history : History) : Option LightClientBlock :=
  match history.pending with
  | some pending => some pending.block
  | none => history.confirmed.head?

/-- The untrusted fields belong to this submission. -/
structure Describes (cfg : Config) (s : State) (history : History) (submission : Submission) : Prop where
  submitter : submission.submitter = s.lastSubmitter
  latest : history.latest = some submission.block
  timestamp : s.untrustedTimestamp = submission.timestamp
  validAt : s.lastValidAt = uncheckedAdd submission.time cfg.lockDuration

/-- The newer block may replace the older one, and did so in time. -/
def Replaces (cfg : Config) (newer older : Submission) : Prop :=
  uncheckedAdd older.timestamp cfg.replaceDuration ≤ newer.timestamp ∧
    newer.time < uncheckedAdd older.time cfg.lockDuration

structure Logged.Valid (cfg : Config) (log : Logged) : Prop where
  tracked : log.point.Tracked
  decoded : ∀ submission ∈ log.chain,
    Borsh.decodeAll NearDecoder.decodeLightClientBlock submission.data = .ok submission.block
  replaced : log.chain.IsChain (Replaces cfg)
  last : log.point.moment.state.lastValidAt ≠ 0 → ∃ submission earlier,
    log.chain = submission :: earlier ∧ Describes cfg log.point.moment.state log.point.history submission

omit [Hashing] in
theorem History.latest_settle (time : Nat) (history : History) :
    (history.settle time).latest = history.latest := by
  unfold History.settle
  split
  · rfl
  · rename_i pending waiting
    split
    · simp [History.latest, waiting]
    · rfl

omit [Hashing] in
/-- Before the initialization there is no untrusted block. -/
theorem Tracks.idle_of_fresh {time : Nat} {s : State} {history : History} (tracks : Tracks time s history)
    (fresh : s.initialized = false) : s.lastValidAt = 0 := by
  cases tracks with
  | uninitialized _ idle => exact idle
  | settled ready => simp [fresh] at ready
  | pending ready => simp [fresh] at ready
  | confirmed ready => simp [fresh] at ready

omit [Hashing] in
theorem Describes.frame {cfg : Config} {s : State} {history : History} {submission : Submission}
    (describes : Describes cfg s history submission) (paused : Nat) (balanceOf : Address → Nat)
    (balance donated : Nat) :
    Describes cfg { s with paused := paused, balanceOf := balanceOf, balance := balance }
      { history with donated := donated } submission :=
  ⟨describes.submitter, describes.latest, describes.timestamp, describes.validAt⟩

/-- The state that a submission leaves belongs to it. -/
theorem Describes.submit {cfg : Config} {env : Env} {s s' : State} {data : Bytes}
    {nearBlock : LightClientBlock} (history : History)
    (decoded : Borsh.decodeAll NearDecoder.decodeLightClientBlock data = .ok nearBlock)
    (accepted : acceptBlock cfg env nearBlock s = .ok s') (used : s'.lastValidAt ≠ 0) :
    Describes cfg s' (history.record env s' (.addLightClientBlock data))
      ⟨env.sender, env.timestamp, data, nearBlock⟩ := by
  obtain ⟨submitter, validAt, -⟩ := acceptBlock_submission accepted
  have timestamp : s'.untrustedTimestamp = nearBlock.innerLite.timestamp.toNat := by
    obtain ⟨_, next, _, _, _, _, _, epochs, _, rfl⟩ := acceptBlock_eq_ok.mp accepted
    rfl
  refine ⟨submitter.symm, ?_, timestamp, validAt⟩
  simp only [History.record, decoded]
  rw [History.latest_settle, History.submit, if_neg used]
  rfl

section Step

variable {cfg : Config} {moment : Moment} {history : History} {chain : List Submission}
  (valid : Logged.Valid cfg ⟨⟨moment, history⟩, chain⟩)

include valid

/-- A submission inside the challenge period replaces the one before it. -/
theorem Logged.Valid.replaces {env : Env} {nearBlock : LightClientBlock} {data : Bytes} {settled : State}
    (time : env.timestamp = moment.time) (inside : env.timestamp < moment.state.lastValidAt)
    (success : commitOrReplace cfg env nearBlock moment.state = .ok settled) :
    (⟨env.sender, env.timestamp, data, nearBlock⟩ :: chain).IsChain (Replaces cfg) := by
  obtain ⟨last, earlier, rfl, describes⟩ := valid.last (by dsimp only; omega)
  refine List.isChain_cons_cons.mpr ⟨⟨?_, ?_⟩, valid.replaced⟩
  · rcases commitOrReplace_eq_ok.mp success with ⟨_, newer, -⟩ | ⟨passed, -⟩ | ⟨idle, -⟩
    · rwa [← describes.timestamp]
    · omega
    · omega
  · rw [← describes.validAt]
    exact inside

theorem Logged.Valid.addLightClientBlock {env : Env} {data : Bytes} {state : State}
    (time : env.timestamp = moment.time)
    (success : NearBridge.addLightClientBlock cfg env data moment.state = .ok state) :
    Logged.Valid cfg ⟨⟨{ moment with state := state },
      history.record env state (.addLightClientBlock data)⟩,
      recordSubmission env moment.state chain (.addLightClientBlock data)⟩ := by
  obtain ⟨_, _, _, nearBlock, decoded, settled, replaced, accepted⟩ :=
    addLightClientBlock_eq_ok.mp success
  have tracks : Tracks env.timestamp moment.state history := time ▸ valid.tracked
  have chains : recordSubmission env moment.state chain (.addLightClientBlock data) =
      ⟨env.sender, env.timestamp, data, nearBlock⟩ ::
        if env.timestamp < moment.state.lastValidAt then chain else [] := by
    simp only [recordSubmission, decoded]
  rw [chains]
  refine ⟨time ▸ tracks.addLightClientBlock success, ?_, ?_, fun used => ⟨_, _, rfl, ?_⟩⟩
  · intro submission member
    rcases List.mem_cons.mp member with rfl | earlier
    · exact decoded
    · split at earlier
      · exact valid.decoded submission earlier
      · cases earlier
  · dsimp only
    split
    · rename_i inside
      exact valid.replaces time inside replaced
    · exact .singleton _
  · exact Describes.submit history decoded accepted used

theorem Logged.Valid.exec {sender : Address} {accepts : Address → Bool} {call : Call} {state : State}
    (success : NearBridge.exec cfg (moment.env sender accepts) call moment.state = .ok state) :
    Logged.Valid cfg ⟨⟨{ moment with state := state },
      history.record (moment.env sender accepts) state call⟩,
      recordSubmission (moment.env sender accepts) moment.state chain call⟩ := by
  have tracks : Tracks moment.time state (history.record (moment.env sender accepts) state call) :=
    Tracks.exec (valid.tracked.tracks sender accepts) success
  have same : (∀ submission, Describes cfg moment.state history submission →
      Describes cfg state (history.record (moment.env sender accepts) state call) submission) →
      (state.lastValidAt ≠ 0 → moment.state.lastValidAt ≠ 0) →
      Logged.Valid cfg ⟨⟨{ moment with state := state },
        history.record (moment.env sender accepts) state call⟩, chain⟩ := by
    intro carried used
    refine ⟨tracks, valid.decoded, valid.replaced, fun pending => ?_⟩
    obtain ⟨last, earlier, listed, describes⟩ := valid.last (used pending)
    exact ⟨last, earlier, listed, carried last describes⟩
  cases call with
  | deposit value =>
    obtain ⟨_, _, rfl⟩ := deposit_eq_ok.mp success
    exact same (fun _ describes => describes.frame _ _ _ _) id
  | withdraw =>
    obtain ⟨_, _, _, _, rfl⟩ := withdraw_eq_ok.mp success
    exact same (fun _ describes => describes.frame _ _ _ _) id
  | challenge receiver signatureIndex =>
    obtain ⟨_, _, _, _, _, rfl⟩ := challenge_eq_ok.mp success
    refine ⟨tracks, fun _ none => (nomatch none), .nil, fun pending => absurd rfl pending⟩
  | addLightClientBlock data => exact valid.addLightClientBlock rfl success
  | initWithValidators data =>
    obtain ⟨_, ⟨fresh, _⟩, _, _, _, _, rfl⟩ := initWithValidators_eq_ok.mp success
    exact ⟨tracks, valid.decoded, valid.replaced, fun pending =>
      absurd (valid.tracked.idle_of_fresh fresh) pending⟩
  | initWithBlock data =>
    obtain ⟨_, ⟨fresh, _⟩, _, _, _, _, _, rfl⟩ := initWithBlock_eq_ok.mp success
    exact ⟨tracks, valid.decoded, valid.replaced, fun pending =>
      absurd (valid.tracked.idle_of_fresh fresh) pending⟩
  | adminPause flags =>
    obtain ⟨_, rfl⟩ := adminPause_eq_ok.mp success
    exact same (fun _ describes => describes.frame _ _ _ _) id
  | adminReceiveEth value =>
    obtain ⟨_, rfl⟩ := adminReceiveEth_eq_ok.mp success
    exact same (fun _ describes => describes.frame _ _ _ _) id

end Step

theorem Logged.Valid.deployed (cfg : Config) (time pausedFlags : Nat) :
    (Logged.deployed time pausedFlags).Valid cfg :=
  ⟨Watched.Tracked.deployed time pausedFlags, fun _ none => (nomatch none), .nil,
    fun used => absurd rfl used⟩

theorem Logged.Valid.next {cfg : Config} {log : Logged} (valid : log.Valid cfg) (label : Label) :
    ((logged cfg).next log label).Valid cfg := by
  obtain ⟨⟨moment, history⟩, chain⟩ := log
  cases label with
  | call sender accepts call =>
    simp only [logged, watched, machine]
    cases success : NearBridge.exec cfg (moment.env sender accepts) call moment.state with
    | ok state => exact valid.exec success
    | error error => exact valid
  | wait seconds =>
    refine ⟨Tracks.wait valid.tracked (Nat.le_add_right _ _), valid.decoded, valid.replaced,
      fun used => ?_⟩
    obtain ⟨last, earlier, listed, describes⟩ := valid.last used
    exact ⟨last, earlier, listed, describes.submitter,
      (History.latest_settle _ history).trans describes.latest, describes.timestamp, describes.validAt⟩
  | force value =>
    refine ⟨Tracks.frame valid.tracked _ _ _ _ _, valid.decoded, valid.replaced, fun used => ?_⟩
    obtain ⟨last, earlier, listed, describes⟩ := valid.last used
    exact ⟨last, earlier, listed, describes.frame _ _ _ _⟩

/-- Every state that a run reaches has a valid log. -/
theorem Logged.Valid.run (cfg : Config) (time pausedFlags : Nat) (labels : List Label) :
    ((logged cfg).run (.deployed time pausedFlags) labels).Valid cfg :=
  (logged cfg).run_invariant (fun _ label valid => valid.next label) (.deployed cfg time pausedFlags)
    labels

section Replacement

variable {cfg : Config} (fits : cfg.replaceDuration + 2 ^ 64 ≤ 2 ^ 256)

include fits

omit [Hashing] in
/-- The unchecked sums do not wrap, or only make the period shorter. -/
theorem Replaces.bounds {newer older : Submission} (replaces : Replaces cfg newer older) :
    older.timestamp + cfg.replaceDuration ≤ newer.timestamp ∧
      newer.time < older.time + cfg.lockDuration := by
  obtain ⟨newerTime, inside⟩ := replaces
  have small : older.timestamp < 2 ^ 64 := older.block.innerLite.timestamp.isLt
  constructor
  · rwa [uncheckedAdd, Nat.mod_eq_of_lt (by omega)] at newerTime
  · exact Nat.lt_of_lt_of_le inside (Nat.mod_le _ _)

omit [Hashing] in
/-- Over a chain of replacements the bounds add up. -/
theorem chain_bounds {newer older : List Submission} {first last : Submission}
    (chain : (newer ++ first :: older).IsChain (Replaces cfg)) (head : newer.head? = some last) :
    first.timestamp + newer.length * cfg.replaceDuration ≤ last.timestamp ∧
      last.time < first.time + newer.length * cfg.lockDuration := by
  induction newer generalizing last with
  | nil => cases head
  | cons newest rest ih =>
    obtain rfl := Option.some.inj head
    cases rest with
    | nil =>
      have bounds := (List.isChain_cons_cons.mp chain).1.bounds fits
      simpa using bounds
    | cons next rest =>
      obtain ⟨replaces, tail⟩ := List.isChain_cons_cons.mp chain
      obtain ⟨near, time⟩ := replaces.bounds fits
      obtain ⟨nears, times⟩ := ih tail rfl
      have longer : (newest :: next :: rest).length = (next :: rest).length + 1 := rfl
      rw [longer, Nat.add_mul, Nat.add_mul]
      omega

/-- A chain of replacements advances NEAR time by `replaceDuration` with each one.
Without blocks from the future it is therefore shorter than the age of its first
block allows, and a fresh block is not replaced at all. -/
theorem replacement_bounded (time pausedFlags : Nat) (labels : List Label)
    (newer older : List Submission) (first last : Submission)
    (split : ((logged cfg).run (.deployed time pausedFlags) labels).chain = newer ++ first :: older)
    (head : newer.head? = some last) :
    first.timestamp + newer.length * cfg.replaceDuration ≤ last.timestamp ∧
    ((∀ submission ∈ newer, submission.timestamp ≤ 10 ^ 9 * submission.time) →
      (newer.length : ℤ) * (cfg.replaceDuration - 10 ^ 9 * cfg.lockDuration) <
        10 ^ 9 * first.time - first.timestamp) ∧
    (10 ^ 9 * first.time ≤ first.timestamp → ∀ next, newer.getLast? = some next →
      10 ^ 9 * next.time < next.timestamp) := by
  have chain := (Logged.Valid.run cfg time pausedFlags labels).replaced
  rw [split] at chain
  obtain ⟨near, ethereum⟩ := chain_bounds fits chain head
  refine ⟨near, fun past => ?_, fun fresh next adjacent => ?_⟩
  · have present := past last (List.mem_of_mem_head? head)
    have near' : (first.timestamp : ℤ) + newer.length * cfg.replaceDuration ≤ last.timestamp := by
      exact_mod_cast near
    have ethereum' : (last.time : ℤ) + 1 ≤ first.time + newer.length * cfg.lockDuration := by
      exact_mod_cast ethereum
    have present' : (last.timestamp : ℤ) ≤ 10 ^ 9 * last.time := by exact_mod_cast present
    linarith
  · obtain ⟨before, rfl⟩ := List.getLast?_eq_some_iff.mp adjacent
    have single : ([next] ++ first :: older).IsChain (Replaces cfg) := by
      rw [List.append_assoc] at chain
      exact chain.right_of_append
    obtain ⟨step, period⟩ := chain_bounds fits single rfl
    have constructor := cfg.replace_gt
    simp only [List.length_singleton, Nat.one_mul] at step period
    omega

end Replacement

/-- A block of the first epoch whose timestamp is `2 ^ 40` nanoseconds. -/
def laterBlock (height : UInt8) : Bytes :=
  List.replicate 64 0 ++ height :: List.replicate 135 0 ++ [0, 0, 0, 0, 0, 1, 0, 0] ++
    List.replicate 97 0 ++ [1, 0, 0, 0, 1, 0] ++ List.replicate 32 0 ++ List.replicate 32 255

/-- The second block comes 30 seconds after the first one. -/
def sampleReplacement : List Label :=
  sampleStart ++ [.call 1 (fun _ => true) (.addLightClientBlock (sampleBlock 2 [0])), .wait 30,
    .call 1 (fun _ => true) (.addLightClientBlock (laterBlock 3))]

omit [Hashing] in
theorem replacement_bounded_sample :
    letI := Hashing.platform
    ∃ first last : Submission,
      ((logged sampleConfig).run (.deployed 2000 0) sampleReplacement).chain = [last, first] ∧
      first.timestamp + 1 * sampleConfig.replaceDuration ≤ last.timestamp ∧
      (1 : ℤ) * (sampleConfig.replaceDuration - 10 ^ 9 * sampleConfig.lockDuration) <
        10 ^ 9 * first.time - first.timestamp := by
  let := Hashing.platform
  have times : ((logged sampleConfig).run (.deployed 2000 0) sampleReplacement).chain.map
      (fun submission => (submission.time, submission.timestamp)) = [(2030, 2 ^ 40), (2000, 0)] := by
    decide +kernel
  obtain ⟨last, rest, listed, present, others⟩ := List.map_eq_cons_iff.mp times
  obtain ⟨first, none, rfl, _, empty⟩ := List.map_eq_cons_iff.mp others
  obtain rfl := List.map_eq_nil_iff.mp empty
  obtain ⟨near, past, _⟩ :=
    replacement_bounded (by decide) 2000 0 sampleReplacement [last] [] first last listed rfl
  refine ⟨first, last, listed, near, past ?_⟩
  intro submission member
  obtain rfl := List.mem_singleton.mp member
  obtain ⟨time, timestamp⟩ := Prod.mk.inj present
  omega

end RainbowBridge.NearBridge
