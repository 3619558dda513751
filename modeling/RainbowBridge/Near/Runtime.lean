import Mathlib.Data.Option.Basic
import Mathlib.Logic.Function.Basic

/-! What the two NEAR contracts share: the accounts of a call, the maps in their
storage, and the `admin_controlled` crate with its mask of paused methods. A
panic is `none`. -/

namespace RainbowBridge.Near

/-- An assertion holds in a run that does not panic. -/
theorem guard_eq_some {condition : Prop} [Decidable condition] {done : Unit} :
    (guard condition : Option Unit) = some done ↔ condition := by
  by_cases holds : condition <;> simp [guard, holds]

abbrev AccountId := String

abbrev Mask := BitVec 128

/-- The accounts that a method sees in `env`. -/
structure Env where
  currentAccountId : AccountId
  predecessorAccountId : AccountId
  signerAccountId : AccountId

def assertSelf (env : Env) : Option Unit := guard (env.currentAccountId = env.predecessorAccountId)

def isOwner (env : Env) : Bool := env.currentAccountId = env.predecessorAccountId

def isPaused (paused : Mask) (env : Env) (flag : Mask) : Bool := paused &&& flag ≠ 0 && !isOwner env

def checkNotPaused (paused : Mask) (env : Env) (flag : Mask) : Option Unit :=
  guard (!isPaused paused env flag)

/-- `UnorderedMap` by its lookups. -/
abbrev UnorderedMap (Key Value : Type) := Key → Option Value

namespace UnorderedMap

variable {Key Value : Type} [DecidableEq Key]

def insert (map : UnorderedMap Key Value) (key : Key) (value : Value) : UnorderedMap Key Value :=
  Function.update map key (some value)

def remove (map : UnorderedMap Key Value) (key : Key) : UnorderedMap Key Value :=
  Function.update map key none

theorem insert_apply (map : UnorderedMap Key Value) (key : Key) (value : Value) (other : Key) :
    map.insert key value other = if other = key then some value else map other :=
  Function.update_apply map key (some value) other

theorem remove_apply (map : UnorderedMap Key Value) (key other : Key) :
    map.remove key other = if other = key then none else map other :=
  Function.update_apply map key none other

end UnorderedMap

end RainbowBridge.Near
