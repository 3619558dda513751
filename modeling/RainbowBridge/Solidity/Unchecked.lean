import Mathlib.Data.BitVec
import Mathlib.Data.Int.ModEq
import Mathlib.Tactic.Ring
import Mathlib.Tactic.Linarith

/-! Arithmetic of `uint256` in an `unchecked` block. A sum or difference wraps;
whether it does as a whole is a question about the expression, so a computation
is kept together with the expressions that it evaluates. -/

namespace RainbowBridge.Solidity

abbrev Uint256 := BitVec 256

/-- `mulmod(a, b, m)`; the product does not wrap. -/
def mulmod (a b m : Uint256) : Uint256 := BitVec.ofNat 256 (a.toNat * b.toNat % m.toNat)

/-- `addmod(a, b, m)`; the sum does not wrap. -/
def addmod (a b m : Uint256) : Uint256 := BitVec.ofNat 256 ((a.toNat + b.toNat) % m.toNat)

theorem toNat_mulmod {m : Uint256} (positive : 0 < m.toNat) (a b : Uint256) :
    (mulmod a b m).toNat = a.toNat * b.toNat % m.toNat := by
  rw [mulmod, BitVec.toNat_ofNat, Nat.mod_eq_of_lt ((Nat.mod_lt _ positive).trans m.isLt)]

theorem toNat_addmod {m : Uint256} (positive : 0 < m.toNat) (a b : Uint256) :
    (addmod a b m).toNat = (a.toNat + b.toNat) % m.toNat := by
  rw [addmod, BitVec.toNat_ofNat, Nat.mod_eq_of_lt ((Nat.mod_lt _ positive).trans m.isLt)]

/-- A sum or difference of words, as one expression of the source. -/
inductive Linear where
  | word (value : Uint256)
  | add (left right : Linear)
  | sub (left right : Linear)

namespace Linear

instance : Add Linear := ⟨add⟩

instance : Sub Linear := ⟨sub⟩

/-- What the machine computes: every operation wraps. -/
def wrapped : Linear → Uint256
  | word value => value
  | add left right => left.wrapped + right.wrapped
  | sub left right => left.wrapped - right.wrapped

/-- What the expression says of integers. -/
def exact : Linear → ℤ
  | word value => value.toNat
  | add left right => left.exact + right.exact
  | sub left right => left.exact - right.exact

@[simp] theorem wrapped_word (value : Uint256) : (word value).wrapped = value := rfl

@[simp] theorem wrapped_add (left right : Linear) :
    (left + right).wrapped = left.wrapped + right.wrapped := rfl

@[simp] theorem wrapped_sub (left right : Linear) :
    (left - right).wrapped = left.wrapped - right.wrapped := rfl

@[simp] theorem exact_word (value : Uint256) : (word value).exact = value.toNat := rfl

@[simp] theorem exact_add (left right : Linear) : (left + right).exact = left.exact + right.exact := rfl

@[simp] theorem exact_sub (left right : Linear) : (left - right).exact = left.exact - right.exact := rfl

/-- Wraps on the way may cancel: the machine's result is the integer's, and so
the integer is a word. -/
def IsExact (e : Linear) : Prop := (e.wrapped.toNat : ℤ) = e.exact

theorem wrapped_emod (e : Linear) : (e.wrapped.toNat : ℤ) = e.exact % 2 ^ 256 := by
  have congruent : (e.wrapped.toNat : ℤ) ≡ e.exact [ZMOD 2 ^ 256] := by
    induction e with
    | word value => rfl
    | add left right ihl ihr =>
      simp only [wrapped, exact, BitVec.toNat_add]
      push_cast
      exact (Int.mod_modEq _ _).trans (ihl.add ihr)
    | sub left right ihl ihr =>
      have small := right.wrapped.isLt
      simp only [wrapped, exact, BitVec.toNat_sub]
      rw [show ((2 ^ 256 - right.wrapped.toNat + left.wrapped.toNat) % 2 ^ 256 : Nat) =
        (left.wrapped.toNat + (2 ^ 256 - right.wrapped.toNat)) % 2 ^ 256 by rw [Nat.add_comm]]
      push_cast [Nat.cast_sub small.le]
      have shifted : (left.wrapped.toNat : ℤ) + (2 ^ 256 - right.wrapped.toNat) ≡
          left.wrapped.toNat - right.wrapped.toNat [ZMOD 2 ^ 256] := by
        rw [Int.modEq_iff_dvd]
        exact ⟨-1, by ring⟩
      exact (Int.mod_modEq _ _).trans (shifted.trans (ihl.sub ihr))
  have bound := e.wrapped.isLt
  rw [← congruent, Int.emod_eq_of_lt (by omega) (by exact_mod_cast bound)]

theorem isExact_iff (e : Linear) : e.IsExact ↔ 0 ≤ e.exact ∧ e.exact < 2 ^ 256 := by
  rw [IsExact, wrapped_emod]
  constructor
  · intro same
    rw [← same]
    exact ⟨Int.emod_nonneg _ (by decide), Int.emod_lt_of_pos _ (by decide)⟩
  · intro bounds
    exact Int.emod_eq_of_lt bounds.1 bounds.2

end Linear

/-- A value with the sums and differences that were evaluated to compute it. -/
structure Traced (α : Type) where
  value : α
  sums : List Linear

namespace Traced

variable {α β : Type}

instance : Monad Traced where
  pure value := ⟨value, []⟩
  bind first next := ⟨(next first.value).value, first.sums ++ (next first.value).sums⟩

def Exact (traced : Traced α) : Prop := ∀ e ∈ traced.sums, e.IsExact

@[simp] theorem value_pure (a : α) : (pure a : Traced α).value = a := rfl

@[simp] theorem value_bind (first : Traced α) (next : α → Traced β) :
    (first >>= next).value = (next first.value).value := rfl

@[simp] theorem exact_pure (a : α) : (pure a : Traced α).Exact := by
  simp [Exact, pure]

@[simp] theorem exact_bind (first : Traced α) (next : α → Traced β) :
    (first >>= next).Exact ↔ first.Exact ∧ (next first.value).Exact := by
  simp [Exact, bind, or_imp, forall_and]

end Traced

/-- Evaluates a sum or difference in an `unchecked` block. -/
def unchecked (e : Linear) : Traced Uint256 := ⟨e.wrapped, [e]⟩

@[simp] theorem value_unchecked (e : Linear) : (unchecked e).value = e.wrapped := rfl

@[simp] theorem exact_unchecked (e : Linear) : (unchecked e).Exact ↔ e.IsExact := by
  simp [Traced.Exact, unchecked]

/-- `for (uint256 i = first; ; i++)`, left `more` turns later. -/
def countUp {σ : Type} (body : Nat → σ → Traced σ) : Nat → Nat → σ → Traced σ
  | 0, i, state => body i state
  | more + 1, i, state => do
    let state ← body i state
    let _ ← unchecked (.word (BitVec.ofNat 256 i) + .word 1)
    countUp body more (i + 1) state

/-- `for (uint256 i = first; ; i--)`, left at zero. -/
def countDown {σ : Type} (body : Nat → σ → Traced σ) : Nat → σ → Traced σ
  | 0, state => body 0 state
  | i + 1, state => do
    let state ← body (i + 1) state
    let _ ← unchecked (.word (BitVec.ofNat 256 (i + 1)) - .word 1)
    countDown body i state

section Loops

variable {σ : Type} {body : Nat → σ → Traced σ}

theorem countUp_exact (bodyExact : ∀ i state, (body i state).Exact) {more i : Nat}
    (fits : i + more < 2 ^ 256) (state : σ) : (countUp body more i state).Exact := by
  induction more generalizing i state with
  | zero => exact bodyExact i state
  | succ more ih =>
    have counter : (i : ℤ) < 2 ^ 256 := by exact_mod_cast (by omega : i < 2 ^ 256)
    simp only [countUp, Traced.exact_bind, exact_unchecked, Linear.isExact_iff, Linear.exact_add,
      Linear.exact_word, BitVec.toNat_ofNat]
    refine ⟨bodyExact i state, ?_, ih (by omega) _⟩
    rw [Nat.mod_eq_of_lt (by omega)]
    simp
    omega

theorem countDown_exact (bodyExact : ∀ i state, (body i state).Exact) {i : Nat}
    (fits : i < 2 ^ 256) (state : σ) : (countDown body i state).Exact := by
  induction i generalizing state with
  | zero => exact bodyExact 0 state
  | succ i ih =>
    simp only [countDown, Traced.exact_bind, exact_unchecked, Linear.isExact_iff, Linear.exact_sub,
      Linear.exact_word, BitVec.toNat_ofNat]
    refine ⟨bodyExact (i + 1) state, ?_, ih (by omega) _⟩
    rw [Nat.mod_eq_of_lt fits]
    simp
    omega

/-- An invariant that holds of the state before each turn. -/
theorem countUp_invariant {invariant : Nat → σ → Prop}
    (step : ∀ i state, invariant i state → invariant (i + 1) (body i state).value) {more i : Nat}
    {state : σ} (start : invariant i state) :
    invariant (i + more + 1) (countUp body more i state).value := by
  induction more generalizing i state with
  | zero => exact step i state start
  | succ more ih =>
    have rest := ih (step i state start)
    rwa [show i + 1 + more + 1 = i + (more + 1) + 1 by omega] at rest

theorem countDown_invariant {invariant : Nat → σ → Prop}
    (step : ∀ i state, invariant (i + 1) state → invariant i (body (i + 1) state).value) {i : Nat}
    {state : σ} (start : invariant i state) :
    ∃ last, invariant 0 last ∧ (countDown body i state).value = (body 0 last).value := by
  induction i generalizing state with
  | zero => exact ⟨state, start, rfl⟩
  | succ i ih => exact ih (step i state start)

end Loops

end RainbowBridge.Solidity
