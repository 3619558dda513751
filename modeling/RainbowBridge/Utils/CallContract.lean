import RainbowBridge.Lib.Machine
import Mathlib.Algebra.Group.Nat.Defs

/-! `RobustWeb3.callContract` and the Ethereum node it sends to. The node keeps one
transaction of the account for each nonce and mines them in order; the call sees
only a receipt or the text of an error, the five minutes being over among them. -/

namespace RainbowBridge.Utils

open Lib

def slowTxErrorMsg : String := "transaction not executed within 5 minutes"

/-- The gas price at which no further attempt is made, `10000 * 1e9`. -/
def gasPriceLimit : Nat := 10000 * 10 ^ 9

/-- A transaction of the account. What it calls is the same for all that one call
of `callContract` sends. -/
structure EthTx where
  nonce : Nat
  gasPrice : Nat
deriving DecidableEq

inductive ContractPhase
  | sending
  | returned
  | thrown (message : String)
deriving DecidableEq

structure ContractCall where
  /-- `options.gasPrice`. -/
  fixedGasPrice : Option Nat
  gasPrice : Nat
  nonce : Nat
  phase : ContractPhase

/-- How the race of `sendTransaction` against the timeout ends. -/
inductive SendReply
  | receipt
  | error (message : String)

def includesChars (part : List Char) : List Char → Bool
  | [] => part.isEmpty
  | char :: rest => part.isPrefixOf (char :: rest) || includesChars part rest

/-- `text.includes(part)`, which is `text.indexOf(part) >= 0`. -/
def includes (text part : String) : Bool := includesChars part.toList text.toList

/-- The errors after which another nonce is tried. -/
def isNonceError (message : String) : Bool :=
  includes message "the tx doesn't have the correct nonce" ||
    includes message "replacement transaction underpriced"

namespace ContractCall

/-- The head of the loop. -/
def attempt (call : ContractCall) : ContractCall :=
  if call.gasPrice < gasPriceLimit then { call with phase := .sending }
  else { call with phase := .thrown "Cannot finish txn within 1e13 gas" }

/-- The transaction of an attempt. A fixed price of zero counts as none. -/
def tx (call : ContractCall) : EthTx where
  nonce := call.nonce
  gasPrice := match call.fixedGasPrice with
    | none => call.gasPrice
    | some price => if price = 0 then call.gasPrice else price

def receive (call : ContractCall) : SendReply → ContractCall
  | .receipt => { call with phase := .returned }
  | .error message =>
    if message = slowTxErrorMsg then { call with gasPrice := call.gasPrice * 2 }.attempt
    else if isNonceError message then { call with nonce := call.nonce + 1 }.attempt
    else if "Error: " ++ message = "Error: connection not open" then call.attempt
    else { call with phase := .thrown message }

def start (fixedGasPrice : Option Nat) (gasPrice nonce : Nat) : ContractCall :=
  attempt { fixedGasPrice, gasPrice, nonce, phase := .sending }

end ContractCall

/-- A transaction in the pool, sent by the call or by someone else with the account. -/
structure Pooled where
  tx : EthTx
  own : Bool

structure EthNode where
  /-- The next nonce to be mined. -/
  nonce : Nat
  pool : Nat → Option Pooled
  /-- What was mined of the transactions of the call. -/
  mined : List EthTx

namespace EthNode

/-- The nonce of the transaction is not used, and its place is not taken by one that
pays as much. -/
def takes (node : EthNode) (entry : Pooled) : Bool :=
  node.nonce ≤ entry.tx.nonce &&
    (node.pool entry.tx.nonce).all fun present => present.tx.gasPrice < entry.tx.gasPrice

def accept (node : EthNode) (entry : Pooled) : EthNode :=
  if node.takes entry then
    { node with
      pool := fun nonce => if nonce = entry.tx.nonce then some entry else node.pool nonce }
  else node

def mine (node : EthNode) : EthNode :=
  match node.pool node.nonce with
  | none => node
  | some entry =>
    { nonce := node.nonce + 1
      pool := fun nonce => if nonce = node.nonce then none else node.pool nonce
      mined := if entry.own then node.mined ++ [entry.tx] else node.mined }

def evict (node : EthNode) (nonce : Nat) : EthNode :=
  { node with pool := fun other => if other = nonce then none else node.pool other }

end EthNode

/-- One step of the call or of the node. -/
inductive ContractEvent
  | reply (reply : SendReply)
  | accept (tx : EthTx)
  | foreign (tx : EthTx)
  | mine
  | evict (nonce : Nat)

structure ContractSending where
  call : ContractCall
  node : EthNode
  /-- What the call ever handed to `sendTransaction`. -/
  sent : List EthTx

namespace ContractSending

/-- A receipt is one of the transaction that the call waits for. -/
def truthful (world : ContractSending) : SendReply → Bool
  | .receipt => decide (world.call.tx ∈ world.node.mined)
  | .error _ => true

def next (world : ContractSending) : ContractEvent → ContractSending
  | .reply reply =>
    if world.call.phase = .sending ∧ world.truthful reply = true then
      let call := world.call.receive reply
      { world with
        call
        sent := if call.phase = .sending then call.tx :: world.sent else world.sent }
    else world
  | .accept tx => if tx ∈ world.sent then { world with node := world.node.accept ⟨tx, true⟩ } else world
  | .foreign tx => { world with node := world.node.accept ⟨tx, false⟩ }
  | .mine => { world with node := world.node.mine }
  | .evict nonce => { world with node := world.node.evict nonce }

def machine : Machine ContractSending ContractEvent := ⟨next⟩

def start (fixedGasPrice : Option Nat) (gasPrice nonce nodeNonce : Nat) : ContractSending :=
  let call := ContractCall.start fixedGasPrice gasPrice nonce
  ⟨call, ⟨nodeNonce, fun _ => none, []⟩, if call.phase = .sending then [call.tx] else []⟩

/-- A transaction of the call with this nonce is in the pool or was mined. -/
def Occupied (world : ContractSending) (nonce : Nat) : Prop :=
  (world.node.pool nonce).any Pooled.own = true ∨ ∃ tx ∈ world.node.mined, tx.nonce = nonce

instance (world : ContractSending) (nonce : Nat) : Decidable (world.Occupied nonce) :=
  inferInstanceAs (Decidable (_ ∨ _))

/-- The call leaves a nonce after an error only if none of its transactions has
that nonce, and none that was sent with it enters the pool later. -/
def LeavesFree (world : ContractSending) : ContractEvent → Prop
  | .reply (.error message) =>
    world.call.phase = .sending ∧ isNonceError message = true → ¬ world.Occupied world.call.nonce
  | .accept tx =>
    tx ∈ world.sent ∧ world.node.takes ⟨tx, true⟩ = true → tx.nonce = world.call.nonce
  | _ => True

instance (world : ContractSending) : (event : ContractEvent) → Decidable (world.LeavesFree event)
  | .reply (.error _) => inferInstanceAs (Decidable (_ → ¬ world.Occupied world.call.nonce))
  | .accept tx => inferInstanceAs (Decidable (_ → tx.nonce = world.call.nonce))
  | .reply .receipt | .foreign _ | .mine | .evict _ => inferInstanceAs (Decidable True)

end ContractSending

namespace ContractCall

@[simp] theorem attempt_nonce (call : ContractCall) : call.attempt.nonce = call.nonce := by
  unfold attempt
  split <;> rfl

/-- The call leaves its nonce only after an error that names it. -/
theorem receive_nonce (call : ContractCall) (reply : SendReply) :
    (call.receive reply).nonce = call.nonce ∨
      ∃ message, reply = .error message ∧ isNonceError message = true := by
  cases reply with
  | receipt => exact .inl rfl
  | error message =>
    by_cases named : isNonceError message = true
    · exact .inr ⟨message, rfl, named⟩
    · left
      simp only [receive, named]
      split
      · simp
      · split
        · contradiction
        · split <;> simp

end ContractCall

namespace ContractSending

/-- The transactions of the call in the pool or mined all have its present nonce. -/
structure OneNonce (world : ContractSending) : Prop where
  pooled : ∀ nonce entry, world.node.pool nonce = some entry → entry.own = true →
    nonce = world.call.nonce ∧ entry.tx.nonce = nonce
  mined : ∀ tx ∈ world.node.mined, tx.nonce = world.call.nonce ∧ tx.nonce < world.node.nonce
  few : world.node.mined.length ≤ 1

theorem OneNonce.start (fixedGasPrice : Option Nat) (gasPrice nonce nodeNonce : Nat) :
    (start fixedGasPrice gasPrice nonce nodeNonce).OneNonce where
  pooled := by simp [ContractSending.start]
  mined := by simp [ContractSending.start]
  few := by simp [ContractSending.start]

/-- With no transaction of the call at its nonce, there is none at all. -/
theorem OneNonce.empty {world : ContractSending} (one : world.OneNonce)
    (free : ¬ world.Occupied world.call.nonce) :
    (∀ nonce entry, world.node.pool nonce = some entry → entry.own = false) ∧ world.node.mined = [] := by
  simp only [Occupied, not_or, not_exists, not_and] at free
  constructor
  · intro nonce entry present
    by_contra own
    obtain ⟨same, -⟩ := one.pooled nonce entry present (by simpa using own)
    subst same
    simp [present] at free
    simp [free.1] at own
  · apply List.eq_nil_iff_forall_not_mem.mpr
    intro tx mined
    exact free.2 tx mined (one.mined tx mined).1

theorem OneNonce.reply {world : ContractSending} (one : world.OneNonce) (reply : SendReply)
    (leaves : world.LeavesFree (.reply reply)) : (world.next (.reply reply)).OneNonce := by
  simp only [next]
  split
  case isTrue waits =>
    obtain same | ⟨message, rfl, named⟩ := world.call.receive_nonce reply
    · constructor
      case pooled =>
        rw [same]
        exact one.pooled
      case mined =>
        rw [same]
        exact one.mined
      case few => exact one.few
    · obtain ⟨pool, mined⟩ := one.empty (leaves ⟨waits.1, named⟩)
      constructor
      case pooled =>
        intro nonce entry present own
        rw [pool nonce entry present] at own
        cases own
      case mined =>
        intro tx member
        rw [mined] at member
        cases member
      case few => exact one.few
  case isFalse => exact one

/-- A transaction of the call enters the pool at its nonce only. -/
theorem OneNonce.accept {world : ContractSending} (one : world.OneNonce) (entry : Pooled)
    (present : entry.own = true → world.node.takes entry = true → entry.tx.nonce = world.call.nonce) :
    { world with node := world.node.accept entry }.OneNonce := by
  unfold EthNode.accept
  split
  case isTrue taken =>
    refine ⟨?_, one.mined, one.few⟩
    intro nonce other placed own
    simp only at placed
    split at placed
    case isTrue here =>
      cases placed
      exact ⟨here.trans (present own taken), here.symm⟩
    case isFalse => exact one.pooled nonce other placed own
  case isFalse => exact one

theorem OneNonce.evict {world : ContractSending} (one : world.OneNonce) (nonce : Nat) :
    { world with node := world.node.evict nonce }.OneNonce := by
  refine ⟨?_, one.mined, one.few⟩
  intro other entry present own
  simp only [EthNode.evict] at present
  split at present
  case isTrue => cases present
  case isFalse => exact one.pooled other entry present own

/-- What is mined next is the first of the call's, or not its own: the others were
mined with the nonce before. -/
theorem OneNonce.mine {world : ContractSending} (one : world.OneNonce) :
    { world with node := world.node.mine }.OneNonce := by
  unfold EthNode.mine
  cases present : world.node.pool world.node.nonce with
  | none => exact one
  | some entry =>
    simp only
    constructor
    case pooled =>
      intro nonce other placed own
      simp only at placed
      split at placed
      case isTrue => cases placed
      case isFalse => exact one.pooled nonce other placed own
    case mined =>
      intro tx member
      simp only at member ⊢
      split at member
      case isTrue own =>
        obtain old | new := List.mem_append.mp member
        · have := one.mined tx old
          exact ⟨this.1, by omega⟩
        · obtain ⟨here, same⟩ := one.pooled _ entry present own
          rw [List.mem_singleton.mp new]
          exact ⟨same.trans here, by omega⟩
      case isFalse =>
        have := one.mined tx member
        exact ⟨this.1, by omega⟩
    case few =>
      simp only
      split
      case isTrue own =>
        have first : world.node.mined = [] := by
          apply List.eq_nil_iff_forall_not_mem.mpr
          intro tx member
          have before := one.mined tx member
          have here := one.pooled _ entry present own
          omega
        simp [first]
      case isFalse => exact one.few

theorem OneNonce.next {world : ContractSending} (one : world.OneNonce) (event : ContractEvent)
    (leaves : world.LeavesFree event) : (world.next event).OneNonce := by
  cases event with
  | reply reply => exact one.reply reply leaves
  | accept tx =>
    simp only [ContractSending.next]
    split
    case isTrue given => exact one.accept ⟨tx, true⟩ fun _ taken => leaves ⟨given, taken⟩
    case isFalse => exact one
  | foreign tx =>
    refine one.accept ⟨tx, false⟩ ?_
    intro own
    cases own
  | mine => exact one.mine
  | evict nonce => exact one.evict nonce

/-- In a run in which the call never leaves a nonce that its own transaction may
take, at most one of its transactions is mined. -/
theorem mined_at_most_once (fixedGasPrice : Option Nat) (gasPrice nonce nodeNonce : Nat)
    (events : List ContractEvent)
    (leaves : machine.StepsMeet LeavesFree (start fixedGasPrice gasPrice nonce nodeNonce) events) :
    (machine.run (start fixedGasPrice gasPrice nonce nodeNonce) events).node.mined.length ≤ 1 := by
  have step : ∀ world event, OneNonce world → LeavesFree world event →
      OneNonce (machine.next world event) :=
    fun world event kept meets => kept.next event meets
  have one := machine.run_invariant_of_steps step
    (OneNonce.start fixedGasPrice gasPrice nonce nodeNonce) events leaves
  exact one.few

/-- Someone else takes the nonce, the call moves on to the next one and is slow
there: the replacement at twice the price is mined. What was sent with the first nonce
comes late and is refused. -/
def replacedRun : List ContractEvent :=
  [.foreign ⟨3, 50⟩, .reply (.error "replacement transaction underpriced"), .mine, .accept ⟨3, 20⟩,
    .accept ⟨4, 20⟩, .reply (.error slowTxErrorMsg), .accept ⟨4, 40⟩, .mine, .reply .receipt]

theorem mined_at_most_once_sample :
    (machine.run (start none 20 3 3) replacedRun).call.phase = .returned ∧
      (machine.run (start none 20 3 3) replacedRun).node.mined.length ≤ 1 := by
  refine ⟨by decide, mined_at_most_once none 20 3 3 replacedRun ?_⟩
  decide

/-- The first transaction is mined while the timeout fires. Its replacement is told
that the nonce is used, and the call sends again with the next one. -/
def lateReceiptRun : List ContractEvent :=
  [.accept ⟨3, 20⟩, .mine, .reply (.error slowTxErrorMsg),
    .reply (.error "the tx doesn't have the correct nonce. account has nonce of: 4 tx has nonce of: 3"),
    .accept ⟨4, 40⟩, .mine, .reply .receipt]

/-- The same with a fixed gas price, while the first transaction still waits. -/
def fixedPriceRun : List ContractEvent :=
  [.accept ⟨3, 20⟩, .reply (.error slowTxErrorMsg), .reply (.error "replacement transaction underpriced"),
    .accept ⟨4, 20⟩, .mine, .mine, .reply .receipt]

theorem late_receipt_mines_twice :
    (machine.run (start none 20 3 3) lateReceiptRun).node.mined = [⟨3, 20⟩, ⟨4, 40⟩] ∧
      (machine.run (start (some 20) 20 3 3) fixedPriceRun).node.mined = [⟨3, 20⟩, ⟨4, 20⟩] := by
  decide

end ContractSending

end RainbowBridge.Utils
