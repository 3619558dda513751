import Mathlib.Algebra.Group.Nat.Defs
import Mathlib.Logic.Basic

/-! The part of Solidity that the contracts share: reverts, `require`, and the
environment of a call. A call that reverts leaves the state as it was, so a
function of a contract is a function into `Except Revert`. -/

namespace RainbowBridge.Solidity

/-- Why a call reverted: a bare `require`, one with a reason, a checked
arithmetic or array access that failed, or a refused payment. -/
inductive Revert where
  | bare
  | reason (message : String)
  | panic
  | transferFailed
  deriving DecidableEq, Repr

instance : Coe String Revert := ⟨.reason⟩

/-- `require(condition, error)`. -/
def require (condition : Prop) [Decidable condition] (error : Revert) : Except Revert Unit :=
  if condition then .ok () else .error error

/-- `unchecked { a + b }` on `uint256`. -/
def uncheckedAdd (a b : Nat) : Nat := (a + b) % 2 ^ 256

abbrev Address := BitVec 160

abbrev Uint64 := BitVec 64

abbrev Uint128 := BitVec 128

/-- What a call sees of its transaction and block. `accepts` says which
recipients take a plain payment made with the stipend of `transfer`. -/
structure Env where
  sender : Address
  timestamp : Nat
  accepts : Address → Bool

@[simp] theorem require_eq_ok {condition : Prop} [Decidable condition] {error : Revert}
    {result : Unit} : require condition error = .ok result ↔ condition := by
  unfold require
  split <;> simp_all

@[simp] theorem bind_eq_ok {α β ε : Type} {first : Except ε α} {next : α → Except ε β} {result : β} :
    (first >>= next) = .ok result ↔ ∃ value, first = .ok value ∧ next value = .ok result := by
  cases first with
  | error error => simp [bind, Except.bind]
  | ok value => simp [bind, Except.bind]

@[simp] theorem pure_eq_ok {α ε : Type} {value result : α} :
    (pure value : Except ε α) = .ok result ↔ value = result := by
  simp [pure, Except.pure]

theorem exists_of_isOk {α ε : Type} {result : Except ε α} (success : result.isOk = true) :
    ∃ value, result = .ok value := by
  cases result with
  | error error => simp [Except.isOk, Except.toBool] at success
  | ok value => exact ⟨value, rfl⟩

/-- Two calls end alike: both revert for the same reason, or both succeed with
related results. -/
inductive EndAlike {α β : Type} (related : α → β → Prop) : Except Revert α → Except Revert β → Prop where
  | reverted (error : Revert) : EndAlike related (.error error) (.error error)
  | succeeded {left : α} {right : β} (same : related left right) :
    EndAlike related (.ok left) (.ok right)

theorem EndAlike.refl {α : Type} (result : Except Revert α) : EndAlike Eq result result := by
  cases result with
  | error error => exact .reverted error
  | ok value => exact .succeeded rfl

theorem EndAlike.require_bind {α β : Type} {related : α → β → Prop} {left right : Prop}
    [Decidable left] [Decidable right] {error : Revert} {first : Except Revert α}
    {second : Except Revert β} (same : left ↔ right) (rest : left → EndAlike related first second) :
    EndAlike related (do require left error; first) (do require right error; second) := by
  by_cases holds : left
  · simp only [require, holds, same.mp holds, if_true]
    exact rest holds
  · have fails : ¬ right := fun right => holds (same.mpr right)
    simp only [require, holds, fails, if_false]
    exact .reverted error

theorem EndAlike.bind {α β γ δ : Type} {related : α → β → Prop} {result : γ → δ → Prop}
    {first : Except Revert α} {second : Except Revert β} {next : α → Except Revert γ}
    {next' : β → Except Revert δ} (same : EndAlike related first second)
    (rest : ∀ left right, related left right → EndAlike result (next left) (next' right)) :
    EndAlike result (first >>= next) (second >>= next') := by
  cases same with
  | reverted error => exact .reverted error
  | succeeded same => exact rest _ _ same

end RainbowBridge.Solidity
