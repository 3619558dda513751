import Mathlib.Tactic.Ring
import Mathlib.Tactic.Linarith

/-! Searching the integers for a turning point of a predicate: a step that is
doubled while a condition holds of it, and the bisection of an interval. -/

namespace RainbowBridge.Lib

/-- Doubles `step` while `condition` holds of it. -/
def doubleWhile (condition : ℤ → Bool) : Nat → ℤ → ℤ
  | 0, step => step
  | fuel + 1, step => if condition step then doubleWhile condition fuel (step * 2) else step

/-- The step at which the doubling stops is the first power that fails. -/
theorem doubleWhile_spec {condition : ℤ → Bool} {bound : ℤ}
    (bounded : ∀ step, condition step = true → step < bound) (fuel : Nat) (step : ℤ)
    (positive : 0 < step) (enough : bound ≤ fuel + step) :
    ∃ j : Nat, doubleWhile condition fuel step = step * 2 ^ j ∧
      condition (step * 2 ^ j) = false ∧ ∀ i < j, condition (step * 2 ^ i) = true := by
  induction fuel generalizing step with
  | zero =>
    refine ⟨0, by simp [doubleWhile], ?_, by simp⟩
    by_contra holds
    have below := bounded (step * 2 ^ 0) (by simpa using holds)
    simp at below enough
    omega
  | succ fuel ih =>
    by_cases holds : condition step = true
    · obtain ⟨j, result, stops, before⟩ := ih (step * 2) (by omega) (by push_cast at enough; omega)
      refine ⟨j + 1, ?_, ?_, ?_⟩
      · rw [doubleWhile, if_pos holds, result, pow_succ]
        ring
      · rw [← stops, pow_succ]
        ring_nf
      · intro i below
        cases i with
        | zero => simpa using holds
        | succ i =>
          rw [← before i (by omega), pow_succ]
          ring_nf
    · refine ⟨0, ?_, ?_, by simp⟩
      · rw [doubleWhile, if_neg holds]
        simp
      · simpa using holds

/-- A doubling from one stops at `2 ^ n` if that is the first power to fail. -/
theorem doubleWhile_eq_two_pow {condition : ℤ → Bool} {bound : ℤ}
    (bounded : ∀ step, condition step = true → step < bound) {fuel : Nat} (enough : bound ≤ fuel + 1)
    {n : Nat} (stops : condition (2 ^ n) = false) (before : ∀ i < n, condition (2 ^ i) = true) :
    doubleWhile condition fuel 1 = 2 ^ n := by
  obtain ⟨j, result, fails, holds⟩ := doubleWhile_spec bounded fuel 1 (by omega) enough
  simp only [one_mul] at result fails holds
  obtain less | same | more := lt_trichotomy j n
  · simp [before j less] at fails
  · rw [result, same]
  · simp [holds n more] at stops

/-- The last test of a doubling from one failed, the one before, of half the step, held. -/
theorem doubleWhile_half {condition : ℤ → Bool} {bound : ℤ}
    (bounded : ∀ step, condition step = true → step < bound) {fuel : Nat} (enough : bound ≤ fuel + 1) :
    let step := doubleWhile condition fuel 1
    condition step = false ∧ (step = 1 ∨ 2 ≤ step ∧ condition (step / 2) = true) := by
  obtain ⟨j, result, stops, before⟩ := doubleWhile_spec bounded fuel 1 (by omega) enough
  simp only [one_mul] at result stops before
  simp only [result]
  refine ⟨stops, ?_⟩
  cases j with
  | zero => exact .inl rfl
  | succ i =>
    right
    have half : (2 : ℤ) ^ (i + 1) / 2 = 2 ^ i := by omega
    have positive : (0 : ℤ) < 2 ^ i := by positivity
    rw [half]
    exact ⟨by omega, before i (Nat.lt_succ_self i)⟩

/-- Halves the interval above `lo` up to `hi` until `hi` alone is left. -/
def bisectFrom (predicate : ℤ → Bool) : Nat → ℤ → ℤ → ℤ
  | 0, _, hi => hi
  | fuel + 1, lo, hi =>
    if lo + 1 < hi then
      let mid := (lo + hi) / 2
      if predicate mid then bisectFrom predicate fuel lo mid else bisectFrom predicate fuel mid hi
    else hi

def bisect (predicate : ℤ → Bool) (lo hi : ℤ) : ℤ := bisectFrom predicate (hi - lo).toNat lo hi

section

variable {predicate : ℤ → Bool}

theorem bisectFrom_bounds (predicate : ℤ → Bool) (fuel : Nat) (lo hi : ℤ) (nonempty : lo < hi) :
    lo < bisectFrom predicate fuel lo hi ∧ bisectFrom predicate fuel lo hi ≤ hi := by
  induction fuel generalizing lo hi with
  | zero => exact ⟨nonempty, le_refl hi⟩
  | succ fuel ih =>
    simp only [bisectFrom]
    split
    case isTrue more =>
      split
      · have := ih lo ((lo + hi) / 2) (by omega)
        omega
      · have := ih ((lo + hi) / 2) hi (by omega)
        omega
    case isFalse => exact ⟨nonempty, le_refl hi⟩

/-- Where the predicate holds from `turn` on, the bisection finds `turn`. -/
theorem bisectFrom_of_monotone {turn : ℤ} (fuel : Nat) {lo hi : ℤ} (enough : hi - lo ≤ fuel + 1)
    (above : lo < turn) (below : turn ≤ hi)
    (holds : ∀ v, lo < v → v < hi → (predicate v = true ↔ turn ≤ v)) :
    bisectFrom predicate fuel lo hi = turn := by
  induction fuel generalizing lo hi with
  | zero =>
    simp only [bisectFrom]
    push_cast at enough
    omega
  | succ fuel ih =>
    simp only [bisectFrom]
    push_cast at enough
    split
    case isTrue more =>
      have middle := holds ((lo + hi) / 2) (by omega) (by omega)
      split
      case isTrue found =>
        exact ih (by omega) above (middle.mp found) fun v low high => holds v low (by omega)
      case isFalse missed =>
        have higher : (lo + hi) / 2 < turn := lt_of_not_ge fun low => missed (middle.mpr low)
        exact ih (by omega) higher below fun v low high => holds v (by omega) high
    case isFalse => omega

/-- The points that a bisection asks while no answer is yes: each halves what is
left below `hi`. -/
def probe (lo hi : ℤ) (k : Nat) : ℤ := hi + (lo - hi) / 2 ^ (k + 1)

theorem probe_zero (lo hi : ℤ) : probe lo hi 0 = (lo + hi) / 2 := by
  simp only [probe, zero_add, pow_one]
  omega

theorem probe_succ (lo hi : ℤ) (k : Nat) : probe lo hi (k + 1) = probe ((lo + hi) / 2) hi k := by
  have half : (lo + hi) / 2 - hi = (lo - hi) / 2 := by omega
  rw [probe, probe, half, Int.ediv_ediv_of_nonneg (by norm_num)]
  ring_nf

theorem probe_zero_le (lo : ℤ) {hi : ℤ} (nonempty : lo < hi) (k : Nat) : probe lo hi 0 ≤ probe lo hi k := by
  induction k generalizing lo with
  | zero => exact le_refl _
  | succ k ih =>
    rw [probe_succ]
    refine le_trans ?_ (ih ((lo + hi) / 2) (by omega))
    rw [probe_zero, probe_zero]
    omega

/-- Where the predicate holds on a window only, the bisection finds its lower
end exactly if it asks a point of the window before it has passed it. -/
theorem bisectFrom_window {first last : ℤ} (fuel : Nat) {lo hi : ℤ} (enough : hi - lo ≤ fuel + 1)
    (above : lo < first) (below : first < hi)
    (holds : ∀ v, lo < v → v < hi → (predicate v = true ↔ first ≤ v ∧ v < last)) :
    bisectFrom predicate fuel lo hi = first ↔
      ∃ k, first ≤ probe lo hi k ∧ probe lo hi k < last := by
  induction fuel generalizing lo with
  | zero =>
    push_cast at enough
    omega
  | succ fuel ih =>
    push_cast at enough
    have middle := holds ((lo + hi) / 2) (by omega) (by omega)
    simp only [bisectFrom, if_pos (show lo + 1 < hi by omega)]
    split
    case isTrue found =>
      -- The window is hit: what is left below `mid` is monotone.
      obtain ⟨low, high⟩ := middle.mp found
      have result : bisectFrom predicate fuel lo ((lo + hi) / 2) = first := by
        refine bisectFrom_of_monotone fuel (by omega) above low ?_
        intro v lower upper
        rw [holds v lower (by omega)]
        omega
      refine iff_of_true result ⟨0, ?_⟩
      rw [probe_zero]
      exact ⟨low, high⟩
    case isFalse missed =>
      by_cases low : (lo + hi) / 2 < first
      · rw [ih (by omega) low fun v lower upper => holds v (by omega) upper]
        constructor
        · rintro ⟨k, inside⟩
          exact ⟨k + 1, by rwa [probe_succ]⟩
        · rintro ⟨k, inside⟩
          cases k with
          | zero =>
            rw [probe_zero] at inside
            omega
          | succ k => exact ⟨k, by rwa [probe_succ] at inside⟩
      · -- The window is passed: everything asked from here on is above it.
        have past : last ≤ (lo + hi) / 2 := by
          by_contra inside
          exact missed (middle.mpr ⟨by omega, by omega⟩)
        refine iff_of_false ?_ ?_
        · have := (bisectFrom_bounds predicate fuel ((lo + hi) / 2) hi (by omega)).1
          omega
        · rintro ⟨k, -, inside⟩
          have least := probe_zero_le lo (show lo < hi by omega) k
          rw [probe_zero] at least
          omega

theorem bisect_window {first lo hi : ℤ} (last : ℤ) (above : lo < first) (below : first < hi)
    (holds : ∀ v, lo < v → v < hi → (predicate v = true ↔ first ≤ v ∧ v < last)) :
    bisect predicate lo hi = first ↔ ∃ k, first ≤ probe lo hi k ∧ probe lo hi k < last :=
  bisectFrom_window _ (by omega) above below holds

theorem lt_bisect (predicate : ℤ → Bool) {lo hi : ℤ} (nonempty : lo < hi) : lo < bisect predicate lo hi :=
  (bisectFrom_bounds predicate _ lo hi nonempty).1

theorem bisect_of_le_one {lo hi : ℤ} (short : hi ≤ lo + 1) : bisect predicate lo hi = hi := by
  unfold bisect
  cases (hi - lo).toNat with
  | zero => rfl
  | succ fuel => rw [bisectFrom, if_neg (by omega)]

end

/-! The loops as such: given up after a number of turns, they have ended before
when the number is large enough. -/

/-- `while (condition) body`, if it ends within so many tests of the condition. -/
def runWhile {σ : Type} (condition : σ → Bool) (body : σ → σ) : Nat → σ → Option σ
  | 0, _ => none
  | turns + 1, state => if condition state then runWhile condition body turns (body state) else some state

theorem runWhile_double {condition : ℤ → Bool} {bound : ℤ}
    (bounded : ∀ step, condition step = true → step < bound) {fuel turns : Nat} {step : ℤ}
    (positive : 0 < step) (enough : bound ≤ fuel + step) (more : fuel < turns) :
    runWhile condition (fun step => step * 2) turns step = some (doubleWhile condition fuel step) := by
  induction fuel generalizing step turns with
  | zero =>
    obtain ⟨rest, rfl⟩ := Nat.exists_eq_succ_of_ne_zero (by omega : turns ≠ 0)
    have stops : ¬ condition step = true := by
      intro holds
      have := bounded step holds
      omega
    rw [runWhile, if_neg stops, doubleWhile]
  | succ fuel ih =>
    obtain ⟨rest, rfl⟩ := Nat.exists_eq_succ_of_ne_zero (by omega : turns ≠ 0)
    rw [runWhile, doubleWhile]
    split
    case isTrue holds =>
      apply ih
      · omega
      · push_cast at enough
        omega
      · omega
    case isFalse stops => rfl

/-- One turn of a bisection. -/
def halve (predicate : ℤ → Bool) (interval : ℤ × ℤ) : ℤ × ℤ :=
  let mid := (interval.1 + interval.2) / 2
  if predicate mid then (interval.1, mid) else (mid, interval.2)

theorem runWhile_halve {predicate : ℤ → Bool} {fuel turns : Nat} {lo hi : ℤ} (enough : hi - lo ≤ fuel + 1)
    (more : fuel < turns) :
    (runWhile (fun interval => decide (interval.1 + 1 < interval.2)) (halve predicate) turns (lo, hi)).map
      Prod.snd = some (bisectFrom predicate fuel lo hi) := by
  induction fuel generalizing lo hi turns with
  | zero =>
    obtain ⟨rest, rfl⟩ := Nat.exists_eq_succ_of_ne_zero (by omega : turns ≠ 0)
    rw [runWhile, if_neg (by simp only [decide_eq_true_eq]; omega), bisectFrom]
    rfl
  | succ fuel ih =>
    obtain ⟨rest, rfl⟩ := Nat.exists_eq_succ_of_ne_zero (by omega : turns ≠ 0)
    push_cast at enough
    simp only [runWhile, bisectFrom, decide_eq_true_eq]
    split
    case isTrue wide =>
      simp only [halve]
      split
      case isTrue found => exact ih (by omega) (by omega)
      case isFalse missed => exact ih (by omega) (by omega)
    case isFalse => rfl

end RainbowBridge.Lib
