import RainbowBridge.NearBridge.History
import Mathlib.Data.FinEnum
import Mathlib.Algebra.BigOperators.Pi
import Mathlib.Algebra.Order.BigOperators.Group.Finset
import Mathlib.Data.Fintype.Basic

/-! The bonds of submitters. Inside a challenge period the last submitter's bond
is still there, so that a false signature can always be punished. -/

namespace RainbowBridge.NearBridge

open Lib Solidity

theorem sum_update_add {ι : Type} [Fintype ι] [DecidableEq ι] (f : ι → Nat) (a : ι) (value : Nat) :
    ∑ x, Function.update f a value x + f a = ∑ x, f x + value := by
  have whole := Finset.add_sum_erase Finset.univ f (Finset.mem_univ a)
  rw [Finset.sum_update_of_mem (Finset.mem_univ a), Finset.sdiff_singleton_eq_erase]
  omega

variable [Hashing]

/-- What the deposits and the contract's ETH satisfy in every run. -/
structure Bonds (cfg : Config) (point : Watched) : Prop where
  entries : ∀ address, point.moment.state.balanceOf address = 0 ∨
    point.moment.state.balanceOf address = cfg.lockEthAmount
  funds : point.moment.state.balance = ∑ address, point.moment.state.balanceOf address +
    point.history.challenges * (cfg.lockEthAmount - cfg.lockEthAmount / 2) + point.history.donated
  bond : point.moment.time < point.moment.state.lastValidAt →
    point.moment.state.balanceOf point.moment.state.lastSubmitter = cfg.lockEthAmount
  indices : ∀ i, point.moment.state.hasSignature i → i < maxBlockProducers

theorem record_addLightClientBlock_counts (env : Env) (state : State) (history : History)
    (data : Bytes) :
    (history.record env state (.addLightClientBlock data)).challenges = history.challenges ∧
      (history.record env state (.addLightClientBlock data)).donated = history.donated := by
  simp only [History.record, History.settle, History.submit]
  split
  · split
    · exact ⟨rfl, rfl⟩
    · split <;> exact ⟨rfl, rfl⟩
  · exact ⟨rfl, rfl⟩

theorem Bonds.addLightClientBlock {cfg : Config} {moment : Moment} {history : History} {env : Env}
    {data : Bytes} {state : State} (valid : Bonds cfg ⟨moment, history⟩)
    (success : addLightClientBlock cfg env data moment.state = .ok state) :
    Bonds cfg ⟨{ moment with state := state }, history.record env state (.addLightClientBlock data)⟩ := by
  obtain ⟨_, _, enough, nearBlock, _, settled, committed, accepted⟩ :=
    addLightClientBlock_eq_ok.mp success
  obtain ⟨_, next, _, _, _, _, _, epochs, _, rfl⟩ := acceptBlock_eq_ok.mp accepted
  obtain ⟨deposits, ether⟩ := commitOrReplace_frame committed
  obtain ⟨challenges, donated⟩ := record_addLightClientBlock_counts env
    (settled.submit cfg env nearBlock next epochs) history data
  refine ⟨?_, ?_, ?_, ?_⟩
  · simpa only [State.submit, deposits] using valid.entries
  · simp only [challenges, donated]
    simpa only [State.submit, deposits, ether] using valid.funds
  · intro _
    simp only [State.submit, deposits]
    rcases valid.entries env.sender with empty | locked
    · simp only at empty
      omega
    · exact locked
  · intro i present
    have recorded := (recordSignatures_set _ _ _
      (Nat.le_trans (settled.epochOf next).numBPs_le (by decide)) i).mp ((and_shift_ne_zero _ i).mp present)
    exact Nat.lt_of_lt_of_le recorded.1 (settled.epochOf next).numBPs_le

omit [Hashing] in
theorem Bonds.deposit {cfg : Config} {moment : Moment} {history : History} {env : Env}
    {value : Nat} {state : State} (valid : Bonds cfg ⟨moment, history⟩)
    (success : NearBridge.deposit cfg env value moment.state = .ok state) :
    Bonds cfg ⟨{ moment with state := state }, history⟩ := by
  obtain ⟨_, ⟨rfl, empty⟩, rfl⟩ := deposit_eq_ok.mp success
  refine ⟨?_, ?_, ?_, valid.indices⟩
  · intro address
    by_cases same : address = env.sender
    · exact .inr (by simp [same])
    · simpa [same] using valid.entries address
  · have total := sum_update_add moment.state.balanceOf env.sender cfg.lockEthAmount
    have funds := valid.funds
    simp only at funds ⊢
    omega
  · intro inside
    have bond := valid.bond inside
    simp only at bond ⊢
    by_cases same : moment.state.lastSubmitter = env.sender
    · simp [same]
    · simpa [same] using bond

omit [Hashing] in
theorem Bonds.withdraw {cfg : Config} {moment : Moment} {history : History} {sender : Address}
    {accepts : Address → Bool} {state : State} (valid : Bonds cfg ⟨moment, history⟩)
    (success : NearBridge.withdraw cfg (moment.env sender accepts) moment.state = .ok state) :
    Bonds cfg ⟨{ moment with state := state }, history⟩ := by
  obtain ⟨_, free, _, ⟨payable, _⟩, rfl⟩ := withdraw_eq_ok.mp success
  simp only [Moment.env] at free payable ⊢
  refine ⟨?_, ?_, ?_, valid.indices⟩
  · intro address
    by_cases same : address = sender
    · exact .inl (by simp [same])
    · simpa [same] using valid.entries address
  · have total := sum_update_add moment.state.balanceOf sender 0
    have funds := valid.funds
    simp only at funds ⊢
    omega
  · intro inside
    have bond := valid.bond inside
    simp only at bond inside ⊢
    have different : moment.state.lastSubmitter ≠ sender := by
      rintro rfl
      rcases free with other | passed
      · exact other rfl
      · omega
    simpa [different] using bond

theorem Bonds.challenge {cfg : Config} {moment : Moment} {history : History} {env : Env}
    {receiver : Address} {signatureIndex : Nat} {state : State} (valid : Bonds cfg ⟨moment, history⟩)
    (success : NearBridge.challenge cfg env receiver signatureIndex moment.state = .ok state) :
    Bonds cfg ⟨{ moment with state := state },
      history.record env state (.challenge receiver signatureIndex)⟩ := by
  obtain ⟨_, _, _, bond, ⟨payable, _⟩, rfl⟩ := challenge_eq_ok.mp success
  have full : moment.state.balanceOf moment.state.lastSubmitter = cfg.lockEthAmount := by
    rcases valid.entries moment.state.lastSubmitter with empty | locked
    · simp only at empty
      omega
    · exact locked
  refine ⟨?_, ?_, ?_, valid.indices⟩
  · intro address
    by_cases same : address = moment.state.lastSubmitter
    · exact .inl (by simp [same, full])
    · simpa [same] using valid.entries address
  · have total := sum_update_add moment.state.balanceOf moment.state.lastSubmitter
      (moment.state.balanceOf moment.state.lastSubmitter - cfg.lockEthAmount)
    have funds := valid.funds
    have half : cfg.lockEthAmount / 2 ≤ cfg.lockEthAmount := Nat.div_le_self _ _
    simp only [History.record, Nat.add_mul, Nat.one_mul] at funds ⊢
    omega
  · intro inside
    simp at inside

theorem Bonds.exec {cfg : Config} {moment : Moment} {history : History} {sender : Address}
    {accepts : Address → Bool} {call : Call} {state : State} (valid : Bonds cfg ⟨moment, history⟩)
    (success : NearBridge.exec cfg (moment.env sender accepts) call moment.state = .ok state) :
    Bonds cfg ⟨{ moment with state := state }, history.record (moment.env sender accepts) state call⟩ := by
  cases call with
  | deposit value => exact valid.deposit success
  | withdraw => exact valid.withdraw success
  | challenge receiver signatureIndex => exact valid.challenge success
  | addLightClientBlock data => exact valid.addLightClientBlock success
  | initWithValidators data =>
    obtain ⟨_, _, validators, decoded, epoch, _, rfl⟩ := initWithValidators_eq_ok.mp success
    simp only [History.record, decoded]
    exact ⟨valid.entries, valid.funds, valid.bond, valid.indices⟩
  | initWithBlock data =>
    obtain ⟨_, _, nearBlock, decoded, _, next, _, rfl⟩ := initWithBlock_eq_ok.mp success
    simp only [History.record, decoded]
    exact ⟨valid.entries, valid.funds, valid.bond, valid.indices⟩
  | adminPause flags =>
    simp only [NearBridge.exec, adminPause, bind_eq_ok, require_eq_ok, pure_eq_ok, exists_and_left,
      exists_const] at success
    obtain ⟨_, rfl⟩ := success
    exact ⟨valid.entries, valid.funds, valid.bond, valid.indices⟩
  | adminReceiveEth value =>
    simp only [NearBridge.exec, adminReceiveEth, bind_eq_ok, require_eq_ok, pure_eq_ok,
      exists_and_left, exists_const] at success
    obtain ⟨_, rfl⟩ := success
    refine ⟨valid.entries, ?_, valid.bond, valid.indices⟩
    have funds := valid.funds
    simp only [History.record] at funds ⊢
    omega

theorem Bonds.always (cfg : Config) (time pausedFlags : Nat) (labels : List Label) :
    Bonds cfg ((watched cfg).run (.deployed time pausedFlags) labels) := by
  apply watched_invariant (fun _ _ _ _ _ _ valid success => valid.exec success)
  · intro moment history seconds valid
    refine ⟨valid.entries, ?_, ?_, valid.indices⟩
    · have funds := valid.funds
      simp only [History.settle]
      split
      · exact funds
      · split <;> exact funds
    · intro inside
      exact valid.bond (by simp only at inside ⊢; omega)
  · intro moment history value valid
    refine ⟨valid.entries, ?_, valid.bond, valid.indices⟩
    have funds := valid.funds
    simp only at funds ⊢
    omega
  · refine ⟨fun _ => .inl rfl, ?_, ?_, ?_⟩
    · simp [Watched.deployed, Moment.deployed, State.deployed, History.empty]
    · simp [Watched.deployed, Moment.deployed, State.deployed]
    · simp [Watched.deployed, Moment.deployed, State.deployed, State.hasSignature]

omit [Hashing] in
/-- Inside the challenge period nothing can make a justified challenge revert. -/
theorem Bonds.challenge_succeeds {cfg : Config} {point : Watched} (valid : Bonds cfg point)
    {env : Env} {receiver : Address} {signatureIndex : Nat}
    (inside : env.timestamp < point.moment.state.lastValidAt) (now : env.timestamp = point.moment.time)
    (unpaused : Unpaused cfg env point.moment.state pausedChallenge)
    (present : point.moment.state.hasSignature signatureIndex)
    (invalid : edwardsCheck cfg point.moment.state signatureIndex = false)
    (accepted : env.accepts receiver = true) :
    ∃ state, NearBridge.challenge cfg env receiver signatureIndex point.moment.state = .ok state := by
  have bond := valid.bond (now ▸ inside)
  have single := Finset.single_le_sum_of_canonicallyOrdered
    (Finset.mem_univ point.moment.state.lastSubmitter) (f := point.moment.state.balanceOf)
  have half : cfg.lockEthAmount / 2 ≤ cfg.lockEthAmount := Nat.div_le_self _ _
  have funds := valid.funds
  have payable : cfg.lockEthAmount / 2 ≤ point.moment.state.balance := by omega
  exact ⟨_, challenge_eq_ok.mpr ⟨unpaused, inside, checkBlockProducerSignatureInHead_eq_ok.mpr
    ⟨present, valid.indices _ present, invalid⟩, by omega, ⟨payable, accepted⟩, rfl⟩⟩

/-- Every false block can be slashed: deposits are whole bonds, the contract owns
what it owes, the last submitter's bond stays until the challenge period ends,
and so a challenge of a false signature goes through. -/
theorem bonds_slashable (cfg : Config) (time pausedFlags : Nat) (labels : List Label) :
    let point := (watched cfg).run (.deployed time pausedFlags) labels
    let now := point.moment.time
    let s := point.moment.state
    (∀ address, s.balanceOf address = 0 ∨ s.balanceOf address = cfg.lockEthAmount) ∧
    s.balance = ∑ address, s.balanceOf address +
      point.history.challenges * (cfg.lockEthAmount - cfg.lockEthAmount / 2) + point.history.donated ∧
    (now < s.lastValidAt → s.balanceOf s.lastSubmitter = cfg.lockEthAmount) ∧
    ∀ (env : Env) (receiver : Address) (signatureIndex : Nat), env.timestamp = now →
      now < s.lastValidAt → Unpaused cfg env s pausedChallenge → s.hasSignature signatureIndex →
      edwardsCheck cfg s signatureIndex = false → env.accepts receiver = true →
      ∃ state, challenge cfg env receiver signatureIndex s = .ok state := by
  have valid := Bonds.always cfg time pausedFlags labels
  refine ⟨valid.entries, valid.funds, valid.bond, ?_⟩
  intro env receiver signatureIndex now inside unpaused present invalid accepted
  exact valid.challenge_succeeds (now ▸ inside) now unpaused present invalid accepted

end RainbowBridge.NearBridge
