import RainbowBridge.Lib.Bytes
import RainbowBridge.Utils.CallContract

/-! `signAndSendTransaction` and the NEAR node it talks to. The call is a machine
that waits for the replies of the node; the node takes steps of its own between
them, and a transaction that was sent may reach it at any time or not at all. -/

namespace RainbowBridge.Utils

open Lib

def retrySendTx : Nat := 10

def retryTxStatus : Nat := 10

/-- A signed transaction. The receiver and the actions are those of the call. -/
structure SignedTx where
  nonce : Nat
  blockHash : Bytes
deriving DecidableEq

/-- A final execution status; a failure is the text of its JSON. -/
inductive ExecutionStatus
  | successValue (value : String)
  | failure (reason : String)
deriving DecidableEq

def ExecutionStatus.isFailure : ExecutionStatus → Bool
  | successValue _ => false
  | failure _ => true

/-- What `txStatus` answers. A result that is not final has neither of the two
fields that the call looks at. -/
inductive TxStatus
  | error (message : String)
  | pending
  | final (outcome : ExecutionStatus)

/-- What the call waits for, or how it ended. -/
inductive Phase
  | status
  | broadcast
  | txStatus (j : Nat) (pendingResult : Bool)
  | returned (value : String)
  | thrown (message : Option String)
deriving DecidableEq

structure SendCall where
  accessKeyNonce : Nat
  i : Nat
  errorMsg : Option String
  resendLast : Bool
  /-- What `sendTxnAsync` sends and `txHash` is the hash of. -/
  signedTx : Option SignedTx
  phase : Phase

/-- The replies to the requests of the call. -/
inductive Reply
  | status (latestBlockHash : Except String Bytes)
  | signFailed (message : String)
  | broadcast (error : Option String)
  | txStatus (status : TxStatus)

namespace SendCall

/-- The head of the loop over `i`. -/
def iteration (call : SendCall) (i : Nat) : SendCall :=
  if i < retrySendTx then
    { call with i, phase := if call.resendLast then .broadcast else .status }
  else { call with i, phase := .thrown call.errorMsg }

/-- `await sleep(500); continue` after an error was caught. -/
def retryAfter (call : SendCall) (message : String) : SendCall :=
  { call with errorMsg := some message }.iteration (call.i + 1)

/-- What follows the loop over `j` when it ended without a final result. -/
def noFinalResult (call : SendCall) (pendingResult : Bool) : SendCall :=
  if pendingResult then
    -- `errorMsg` becomes undefined, and so has no method `includes`.
    { call with errorMsg := none, phase := .thrown (some "Cannot read property 'includes' of undefined") }
  else { call with resendLast := true }.iteration (call.i + 1)

def nextPoll (call : SendCall) (j : Nat) (pendingResult : Bool) : SendCall :=
  if j + 1 < retryTxStatus then { call with phase := .txStatus (j + 1) pendingResult }
  else call.noFinalResult pendingResult

def finish (call : SendCall) : ExecutionStatus → SendCall
  | .successValue value => { call with phase := .returned value }
  | .failure reason =>
    if includes reason "Transaction nonce" then
      { call with errorMsg := some reason }.iteration (call.i + 1)
    else { call with errorMsg := some reason, phase := .thrown (some reason) }

/-- How the call goes on after a reply; a reply that it does not wait for is
ignored. -/
def receive (call : SendCall) : Reply → SendCall
  | .status latestBlockHash =>
    if call.phase = .status then
      match latestBlockHash with
      | .error message => call.retryAfter message
      | .ok blockHash =>
        { call with
          accessKeyNonce := call.accessKeyNonce + 1
          signedTx := some ⟨call.accessKeyNonce + 1, blockHash⟩
          phase := .broadcast }
    else call
  | .signFailed message =>
    if call.phase = .status then
      { call with accessKeyNonce := call.accessKeyNonce + 1 }.retryAfter message
    else call
  | .broadcast error =>
    if call.phase = .broadcast then
      match error with
      | some message => call.retryAfter message
      | none => { call with resendLast := false, phase := .txStatus 0 false }
    else call
  | .txStatus status =>
    match call.phase with
    | .txStatus j pendingResult =>
      match status with
      | .error message => { call with errorMsg := some message }.nextPoll j pendingResult
      | .pending => call.nextPoll j true
      | .final outcome => call.finish outcome
    | _ => call

/-- `signAndSendTransaction` up to its first request. -/
def start (accessKeyNonce : Nat) : SendCall :=
  { accessKeyNonce, i := 0, errorMsg := none, resendLast := false, signedTx := none, phase := .status }

end SendCall

/-- The node, as far as the transactions of the call are concerned. -/
structure NearNode where
  accepted : List SignedTx
  /-- The highest nonce that a transaction of the key was executed with. -/
  accessKeyNonce : Nat
  outcome : SignedTx → Option ExecutionStatus
  /-- The successful executions, each time one happened. -/
  executed : List SignedTx

namespace NearNode

def start (accessKeyNonce : Nat) : NearNode := ⟨[], accessKeyNonce, fun _ => none, []⟩

def settle (node : NearNode) (tx : SignedTx) (outcome : ExecutionStatus) : NearNode :=
  { node with outcome := fun other => if other = tx then some outcome else node.outcome other }

/-- A transaction waits to be executed. -/
def Waits (node : NearNode) (tx : SignedTx) : Prop := tx ∈ node.accepted ∧ node.outcome tx = none

instance (node : NearNode) (tx : SignedTx) : Decidable (node.Waits tx) := inferInstanceAs (Decidable (_ ∧ _))

def execute (node : NearNode) (tx : SignedTx) (outcome : ExecutionStatus) : NearNode :=
  if node.Waits tx ∧ node.accessKeyNonce < tx.nonce then
    let settled := { node.settle tx outcome with accessKeyNonce := tx.nonce }
    match outcome with
    | .successValue _ => { settled with executed := node.executed ++ [tx] }
    | .failure _ => settled
  else node

def reject (node : NearNode) (tx : SignedTx) (reason : String) : NearNode :=
  if node.Waits tx then node.settle tx (.failure reason) else node

end NearNode

/-- One step of the call or of the node. -/
inductive Event
  | reply (reply : Reply)
  | accept (tx : SignedTx)
  | execute (tx : SignedTx) (outcome : ExecutionStatus)
  | reject (tx : SignedTx) (reason : String)
  /-- Another transaction is executed with the same key. -/
  | keyUsed (nonce : Nat)

structure Sending where
  call : SendCall
  node : NearNode
  /-- What was ever sent to the node. -/
  sent : List SignedTx
  /-- The transactions that were given up for new ones. -/
  unconfirmed : List SignedTx

namespace Sending

/-- A final status is reported as it is. -/
def truthful (world : Sending) : Reply → Bool
  | .txStatus (.final outcome) =>
    decide (world.call.signedTx.bind world.node.outcome = some outcome)
  | _ => true

/-- The transaction that the call gives up as it signs a new one: the one that it signed
before, unless the node has settled it as a failure. -/
def givenUp (world : Sending) : Reply → List SignedTx
  | .status (.ok _) =>
    if world.call.phase = .status then
      world.call.signedTx.toList.filter fun tx => !(world.node.outcome tx).any ExecutionStatus.isFailure
    else []
  | _ => []

def next (world : Sending) : Event → Sending
  | .reply reply =>
    if world.truthful reply then
      let call := world.call.receive reply
      { world with
        call
        sent := if call.phase = .broadcast then call.signedTx.toList ++ world.sent else world.sent
        unconfirmed := world.givenUp reply ++ world.unconfirmed }
    else world
  | .accept tx =>
    if tx ∈ world.sent then
      { world with node := { world.node with accepted := tx :: world.node.accepted } }
    else world
  | .execute tx outcome => { world with node := world.node.execute tx outcome }
  | .reject tx reason => { world with node := world.node.reject tx reason }
  | .keyUsed nonce =>
    { world with
      node := { world.node with accessKeyNonce := max world.node.accessKeyNonce nonce } }

def machine : Machine Sending Event := ⟨next⟩

def start (accessKeyNonce nodeNonce : Nat) : Sending :=
  ⟨SendCall.start accessKeyNonce, NearNode.start nodeNonce, [], []⟩

/-- A transaction that the call gives up as it signs another was not accepted by the
node and is not later. -/
def Lossless (world : Sending) : Event → Prop
  | .reply reply => ∀ tx ∈ world.givenUp reply, tx ∉ world.node.accepted
  | .accept tx => tx ∉ world.unconfirmed
  | _ => True

instance (world : Sending) : (event : Event) → Decidable (world.Lossless event)
  | .reply reply => inferInstanceAs (Decidable (∀ tx ∈ world.givenUp reply, _))
  | .accept tx => inferInstanceAs (Decidable (tx ∉ world.unconfirmed))
  | .execute _ _ | .reject _ _ | .keyUsed _ => inferInstanceAs (Decidable True)

end Sending

namespace SendCall

@[simp] theorem iteration_signedTx (call : SendCall) (i : Nat) :
    (call.iteration i).signedTx = call.signedTx := by
  unfold iteration
  split <;> rfl

theorem iteration_ne_returned (call : SendCall) (i : Nat) (value : String) :
    (call.iteration i).phase ≠ .returned value := by
  unfold iteration
  split
  · split <;> simp
  · simp

theorem nextPoll_spec (call : SendCall) (j : Nat) (pendingResult : Bool) :
    (call.nextPoll j pendingResult).signedTx = call.signedTx ∧
      ∀ value, (call.nextPoll j pendingResult).phase ≠ .returned value := by
  unfold nextPoll noFinalResult
  split
  · simp
  · split
    · simp
    · exact ⟨by simp, iteration_ne_returned _ _⟩

/-- What a reply makes of the call: it signs a new transaction after a status only,
and returns only a reported success. -/
theorem receive_cases (call : SendCall) (reply : Reply) :
    (call.phase = .status ∧ (∃ blockHash, reply = .status (.ok blockHash)) ∧
      (call.receive reply).phase = .broadcast) ∨
    ((call.receive reply).signedTx = call.signedTx ∧
      ∀ value, (call.receive reply).phase = .returned value →
        call.phase = .returned value ∨ reply = .txStatus (.final (.successValue value))) := by
  cases reply with
  | status latestBlockHash =>
    by_cases waits : call.phase = .status
    · cases latestBlockHash with
      | error message =>
        right
        simp [receive, waits, retryAfter, iteration_ne_returned]
      | ok blockHash =>
        left
        simp [receive, waits]
    · right
      simp [receive, waits]
  | signFailed message =>
    right
    by_cases waits : call.phase = .status
    · simp [receive, waits, retryAfter, iteration_ne_returned]
    · simp [receive, waits]
  | broadcast error =>
    right
    by_cases waits : call.phase = .broadcast
    · cases error with
      | none => simp [receive, waits]
      | some message => simp [receive, waits, retryAfter, iteration_ne_returned]
    · simp [receive, waits]
  | txStatus status =>
    right
    cases phase : call.phase with
    | txStatus j pendingResult =>
      cases status with
      | error message =>
        simp only [receive, phase]
        have polled := nextPoll_spec
          { call with errorMsg := some message, phase := .txStatus j pendingResult } j pendingResult
        exact ⟨polled.1, fun value returns => absurd returns (polled.2 value)⟩
      | pending =>
        simp only [receive, phase]
        have polled := nextPoll_spec call j true
        exact ⟨polled.1, fun value returns => absurd returns (polled.2 value)⟩
      | final outcome =>
        cases outcome with
        | successValue value => simp [receive, phase, finish]
        | failure reason =>
          refine ⟨?_, ?_⟩
          · simp only [receive, phase, finish]
            split <;> simp
          · simp only [receive, phase, finish]
            intro value returns
            split at returns
            · exact absurd returns (iteration_ne_returned _ _ value)
            · cases returns
    | _ => simp [receive, phase]

end SendCall

namespace NearNode

/-- What the node keeps about the executions. -/
structure Consistent (node : NearNode) : Prop where
  executed_iff : ∀ tx, tx ∈ node.executed ↔ ∃ value, node.outcome tx = some (.successValue value)
  accepted : ∀ tx ∈ node.executed, tx ∈ node.accepted
  nodup : node.executed.Nodup

/-- A node that has gone on: what was settled is as it was. -/
structure After (node later : NearNode) : Prop where
  accepted : later.accepted = node.accepted
  outcome : ∀ tx outcome, node.outcome tx = some outcome → later.outcome tx = some outcome

theorem After.refl (node : NearNode) : node.After node := ⟨rfl, fun _ _ same => same⟩

theorem settle_after {node : NearNode} {tx : SignedTx} (waits : node.Waits tx) (outcome : ExecutionStatus) :
    node.After (node.settle tx outcome) where
  accepted := rfl
  outcome := by
    intro other known settled
    have different : other ≠ tx := by
      rintro rfl
      simp [waits.2] at settled
    simp [settle, different, settled]

theorem execute_after (node : NearNode) (tx : SignedTx) (outcome : ExecutionStatus) :
    node.After (node.execute tx outcome) := by
  unfold execute
  split
  case isTrue allowed =>
    have settled := settle_after allowed.1 outcome
    cases outcome with
    | successValue value => exact ⟨settled.accepted, settled.outcome⟩
    | failure reason => exact ⟨settled.accepted, settled.outcome⟩
  case isFalse => exact .refl node

theorem reject_after (node : NearNode) (tx : SignedTx) (reason : String) :
    node.After (node.reject tx reason) := by
  unfold reject
  split
  case isTrue waits => exact settle_after waits _
  case isFalse => exact .refl node

theorem Consistent.settle_failure {node : NearNode} (consistent : node.Consistent) {tx : SignedTx}
    (waits : node.Waits tx) (reason : String) : (node.settle tx (.failure reason)).Consistent where
  executed_iff := by
    intro other
    rw [show (node.settle tx (.failure reason)).executed = node.executed from rfl,
      consistent.executed_iff]
    by_cases same : other = tx
    · subst same
      simp [settle, waits.2]
    · simp [settle, same]
  accepted := consistent.accepted
  nodup := consistent.nodup

theorem Consistent.execute {node : NearNode} (consistent : node.Consistent) (tx : SignedTx)
    (outcome : ExecutionStatus) : (node.execute tx outcome).Consistent := by
  unfold NearNode.execute
  split
  case isTrue allowed =>
    obtain ⟨waits, -⟩ := allowed
    cases outcome with
    | failure reason =>
      have settled := consistent.settle_failure waits reason
      exact ⟨settled.executed_iff, settled.accepted, settled.nodup⟩
    | successValue value =>
      have fresh : tx ∉ node.executed := by
        rw [consistent.executed_iff]
        simp [waits.2]
      refine ⟨?_, ?_, ?_⟩
      · intro other
        by_cases same : other = tx
        · subst same
          simp [settle]
        · simp [settle, same, consistent.executed_iff]
      · intro other executed
        obtain old | same := List.mem_append.mp executed
        · exact consistent.accepted other old
        · rw [List.mem_singleton.mp same]
          exact waits.1
      · exact List.Nodup.append consistent.nodup (List.nodup_singleton tx) (by simpa using fresh)
  case isFalse => exact consistent

theorem Consistent.reject {node : NearNode} (consistent : node.Consistent) (tx : SignedTx)
    (reason : String) : (node.reject tx reason).Consistent := by
  unfold NearNode.reject
  split
  case isTrue waits => exact consistent.settle_failure waits reason
  case isFalse => exact consistent

/-- The transaction was executed without success, or refused for good. -/
def Failed (node : NearNode) (tx : SignedTx) : Prop := ∃ reason, node.outcome tx = some (.failure reason)

theorem After.failed {node later : NearNode} (after : node.After later) {tx : SignedTx}
    (failed : node.Failed tx) : later.Failed tx := by
  obtain ⟨reason, settled⟩ := failed
  exact ⟨reason, after.outcome tx _ settled⟩

end NearNode

namespace Sending

/-- Only the last signed transaction can still succeed. -/
structure Exclusive (world : Sending) : Prop where
  consistent : world.node.Consistent
  accepted : ∀ tx ∈ world.node.accepted, world.call.signedTx = some tx ∨ world.node.Failed tx
  sent : ∀ tx ∈ world.sent,
    world.call.signedTx = some tx ∨ world.node.Failed tx ∨ tx ∈ world.unconfirmed
  returned : ∀ value, world.call.phase = .returned value →
    ∃ tx ∈ world.node.executed, world.call.signedTx = some tx

theorem Exclusive.start (accessKeyNonce nodeNonce : Nat) :
    (start accessKeyNonce nodeNonce).Exclusive where
  consistent := ⟨by simp [Sending.start, NearNode.start], by simp [Sending.start, NearNode.start],
    by simp [Sending.start, NearNode.start]⟩
  accepted := by simp [Sending.start, NearNode.start]
  sent := by simp [Sending.start]
  returned := by simp [Sending.start, SendCall.start]

/-- A step of the node that only settles transactions. -/
theorem Exclusive.settles {world : Sending} (exclusive : world.Exclusive) {later : NearNode}
    (after : world.node.After later) (consistent : later.Consistent) :
    { world with node := later }.Exclusive where
  consistent := consistent
  accepted := by
    intro tx accepted
    rw [after.accepted] at accepted
    exact (exclusive.accepted tx accepted).imp id after.failed
  sent := by
    intro tx sent
    exact (exclusive.sent tx sent).imp id (.imp after.failed id)
  returned := by
    intro value returns
    obtain ⟨tx, executed, last⟩ := exclusive.returned value returns
    obtain ⟨result, success⟩ := (exclusive.consistent.executed_iff tx).mp executed
    exact ⟨tx, (consistent.executed_iff tx).mpr ⟨result, after.outcome tx _ success⟩, last⟩

theorem Exclusive.accept {world : Sending} (exclusive : world.Exclusive) {tx : SignedTx}
    (sent : tx ∈ world.sent) (confirmed : tx ∉ world.unconfirmed) :
    { world with node := { world.node with accepted := tx :: world.node.accepted } }.Exclusive where
  consistent := ⟨exclusive.consistent.executed_iff,
    fun other executed => List.mem_cons_of_mem tx (exclusive.consistent.accepted other executed),
    exclusive.consistent.nodup⟩
  accepted := by
    intro other accepted
    obtain rfl | old := List.mem_cons.mp accepted
    · obtain last | failed | given := exclusive.sent other sent
      · exact .inl last
      · exact .inr failed
      · exact absurd given confirmed
    · exact exclusive.accepted other old
  sent := exclusive.sent
  returned := exclusive.returned

/-- When a new transaction is signed, the last one has failed or is given up. -/
theorem failed_or_givenUp {world : Sending} {tx : SignedTx} {blockHash : Bytes}
    (signs : world.call.phase = .status) (last : world.call.signedTx = some tx) :
    world.node.Failed tx ∨ tx ∈ world.givenUp (.status (.ok blockHash)) := by
  rw [givenUp, if_pos signs, last, Option.toList_some, List.mem_filter]
  cases settled : world.node.outcome tx with
  | none => simp
  | some outcome =>
    cases outcome with
    | successValue value => simp [ExecutionStatus.isFailure]
    | failure reason => exact .inl ⟨reason, settled⟩

/-- A reply to the call: what it leaves behind has failed or never arrives. -/
theorem Exclusive.reply {world : Sending} (exclusive : world.Exclusive) {reply : Reply}
    (truth : world.truthful reply = true)
    (lost : ∀ tx ∈ world.givenUp reply, tx ∉ world.node.accepted) :
    (world.next (.reply reply)).Exclusive := by
  have shape := world.call.receive_cases reply
  simp only [next, if_pos truth]
  constructor
  case consistent => exact exclusive.consistent
  case accepted =>
    intro tx accepted
    obtain ⟨signs, ⟨blockHash, rfl⟩, -⟩ | ⟨same, -⟩ := shape
    · -- The call signs a new transaction, and gives up the one before.
      obtain last | failed := exclusive.accepted tx accepted
      · obtain failed | given := failed_or_givenUp signs last
        · exact .inr failed
        · exact absurd accepted (lost tx given)
      · exact .inr failed
    · rw [same]
      exact exclusive.accepted tx accepted
  case sent =>
    -- What was sent before the reply, and what it makes the call send.
    have earlier : ∀ tx ∈ world.sent, (world.call.receive reply).signedTx = some tx ∨
        world.node.Failed tx ∨ tx ∈ world.givenUp reply ++ world.unconfirmed := by
      intro tx sent
      obtain last | failed | given := exclusive.sent tx sent
      · obtain ⟨signs, ⟨blockHash, rfl⟩, -⟩ | ⟨same, -⟩ := shape
        · obtain failed | given := failed_or_givenUp signs last
          · exact .inr (.inl failed)
          · exact .inr (.inr (List.mem_append_left _ given))
        · exact .inl (same.trans last)
      · exact .inr (.inl failed)
      · exact .inr (.inr (List.mem_append_right _ given))
    intro tx sent
    simp only at sent
    split at sent
    · obtain new | old := List.mem_append.mp sent
      · exact .inl (by simpa using new)
      · exact earlier tx old
    · exact earlier tx sent
  case returned =>
    intro value returns
    obtain ⟨-, -, sends⟩ | ⟨same, origin⟩ := shape
    · rw [sends] at returns
      cases returns
    · rw [same]
      obtain before | rfl := origin value returns
      · exact exclusive.returned value before
      · obtain ⟨tx, last, success⟩ : ∃ tx, world.call.signedTx = some tx ∧
            world.node.outcome tx = some (.successValue value) := by
          simpa [truthful, Option.bind_eq_some_iff] using truth
        exact ⟨tx, (exclusive.consistent.executed_iff tx).mpr ⟨value, success⟩, last⟩

theorem Exclusive.next {world : Sending} (exclusive : world.Exclusive) (event : Event)
    (lossless : world.Lossless event) : (world.next event).Exclusive := by
  cases event with
  | reply reply =>
    by_cases truth : world.truthful reply = true
    · exact exclusive.reply truth lossless
    · simpa [Sending.next, truth] using exclusive
  | accept tx =>
    simp only [Sending.next]
    split
    case isTrue sent => exact exclusive.accept sent lossless
    case isFalse => exact exclusive
  | execute tx outcome =>
    exact exclusive.settles (world.node.execute_after tx outcome) (exclusive.consistent.execute tx outcome)
  | reject tx reason =>
    exact exclusive.settles (world.node.reject_after tx reason) (exclusive.consistent.reject tx reason)
  | keyUsed nonce =>
    exact exclusive.settles ⟨rfl, fun _ _ same => same⟩
      ⟨exclusive.consistent.executed_iff, exclusive.consistent.accepted, exclusive.consistent.nodup⟩

theorem Exclusive.executed_eq {world : Sending} (exclusive : world.Exclusive) {tx : SignedTx}
    (executed : tx ∈ world.node.executed) : world.call.signedTx = some tx := by
  obtain last | ⟨reason, failed⟩ :=
    exclusive.accepted tx (exclusive.consistent.accepted tx executed)
  · exact last
  · obtain ⟨value, success⟩ := (exclusive.consistent.executed_iff tx).mp executed
    rw [success] at failed
    cases failed

theorem Exclusive.executed_le_one {world : Sending} (exclusive : world.Exclusive) :
    world.node.executed.length ≤ 1 := by
  by_contra several
  have first : 0 < world.node.executed.length := by omega
  have second : 1 < world.node.executed.length := by omega
  have same : world.node.executed[0] = world.node.executed[1] := by
    have zero := exclusive.executed_eq (List.getElem_mem first)
    have one := exclusive.executed_eq (List.getElem_mem second)
    exact Option.some.inj (zero.symm.trans one)
  have := (exclusive.consistent.nodup.getElem_inj_iff).mp same
  omega

/-- In a run without such losses, at most one of the signed transactions is executed
with success, and exactly one if the call returns. -/
theorem executed_at_most_once (accessKeyNonce nodeNonce : Nat) (events : List Event)
    (lossless : machine.StepsMeet Lossless (start accessKeyNonce nodeNonce) events) :
    (machine.run (start accessKeyNonce nodeNonce) events).node.executed.length ≤ 1 ∧
      ∀ value, (machine.run (start accessKeyNonce nodeNonce) events).call.phase = .returned value →
        (machine.run (start accessKeyNonce nodeNonce) events).node.executed.length = 1 := by
  have step : ∀ world event, Exclusive world → Lossless world event →
      Exclusive (machine.next world event) :=
    fun world event kept meets => kept.next event meets
  have exclusive := machine.run_invariant_of_steps step
    (Exclusive.start accessKeyNonce nodeNonce) events lossless
  refine ⟨exclusive.executed_le_one, ?_⟩
  intro value returns
  obtain ⟨tx, executed, -⟩ := exclusive.returned value returns
  have some := List.length_pos_of_mem executed
  have few := exclusive.executed_le_one
  omega

/-- The first transaction never reaches the node. The second one is executed, and the
call sees it. -/
def resignedRun : List Event :=
  [.reply (.status (.ok [7])), .reply (.broadcast (some "timeout")), .reply (.status (.ok [8])),
    .accept ⟨6, [8]⟩, .reply (.broadcast none), .reply (.txStatus (.error "timeout")),
    .execute ⟨6, [8]⟩ (.successValue "done"), .reply (.txStatus (.final (.successValue "done")))]

theorem executed_at_most_once_sample :
    (machine.run (start 4 4) resignedRun).call.phase = .returned "done" ∧
      (machine.run (start 4 4) resignedRun).unconfirmed = [⟨5, [7]⟩] ∧
      (machine.run (start 4 4) resignedRun).node.executed.length = 1 := by
  have returns : (machine.run (start 4 4) resignedRun).call.phase = .returned "done" := by decide
  refine ⟨returns, by decide, (executed_at_most_once 4 4 resignedRun ?_).2 "done" returns⟩
  decide

/-- The first transaction is accepted and executed, but the answer to its broadcast
is lost: the call signs a second one with the same actions. -/
def lostAnswerRun : List Event :=
  [.reply (.status (.ok [7])), .accept ⟨5, [7]⟩, .reply (.broadcast (some "timeout")),
    .execute ⟨5, [7]⟩ (.successValue "done"), .reply (.status (.ok [8])), .accept ⟨6, [8]⟩,
    .reply (.broadcast none), .execute ⟨6, [8]⟩ (.successValue "done"),
    .reply (.txStatus (.final (.successValue "done")))]

theorem lost_answer_executes_twice :
    (machine.run (start 4 4) lostAnswerRun).call.phase = .returned "done" ∧
      (machine.run (start 4 4) lostAnswerRun).node.executed = [⟨5, [7]⟩, ⟨6, [8]⟩] := by
  decide

end Sending

end RainbowBridge.Utils
