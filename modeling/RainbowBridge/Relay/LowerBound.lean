import RainbowBridge.Relay.Search
import Mathlib.Data.Int.LeastGreatest
import Mathlib.Order.Bounds.Basic

/-! `binarySearchWithEstimate` as a search for the least value at which a predicate
holds, when it holds from there on. It ends for every predicate. It finds the
least value, unless that is the lower limit and the estimate is above it. -/

namespace RainbowBridge.Relay

open Lib

/-- The source's loops, each given up after some turns. -/
def searchWithin (turns : Nat) (limitLo limitHi estimatedPosition : ℤ) (predicate : ℤ → Bool) : Option ℤ := do
  let bisection (lo hi : ℤ) : Option ℤ :=
    (runWhile (fun interval => decide (interval.1 + 1 < interval.2)) (halve predicate) turns (lo, hi)).map
      Prod.snd
  if predicate estimatedPosition then
    let step ← runWhile
      (fun step => estimatedPosition - step > limitLo && predicate (estimatedPosition - step))
      (fun step => step * 2) turns 1
    let hi := estimatedPosition - step / 2
    bisection (max limitLo (hi - step)) hi
  else
    let step ← runWhile
      (fun step => estimatedPosition + step < limitHi && !predicate (estimatedPosition + step))
      (fun step => step * 2) turns 1
    let lo := estimatedPosition + step / 2
    bisection lo (min limitHi (lo + step))

section

variable {limitLo limitHi estimatedPosition : ℤ} {predicate : ℤ → Bool}

/-- Both doublings stay within the limits. -/
theorem bounded_down (step : ℤ)
    (continues : (decide (estimatedPosition - step > limitLo) && predicate (estimatedPosition - step)) = true) :
    step < estimatedPosition - limitLo := by
  simp only [Bool.and_eq_true, decide_eq_true_eq] at continues
  omega

theorem bounded_up (step : ℤ)
    (continues : (decide (estimatedPosition + step < limitHi) && !predicate (estimatedPosition + step)) = true) :
    step < limitHi - estimatedPosition := by
  simp only [Bool.and_eq_true, decide_eq_true_eq] at continues
  omega

/-- The step down ends outside the limit or at a value that is too low, and half of
it does not. -/
theorem step_down (lower : limitLo ≤ estimatedPosition) :
    let step := doubleWhile
      (fun step => estimatedPosition - step > limitLo && predicate (estimatedPosition - step))
      (estimatedPosition - limitLo).toNat 1
    (estimatedPosition - step ≤ limitLo ∨ predicate (estimatedPosition - step) = false) ∧
      (step = 1 ∨ 2 ≤ step ∧ limitLo < estimatedPosition - step / 2 ∧
        predicate (estimatedPosition - step / 2) = true) := by
  intro step
  have half := doubleWhile_half (@bounded_down limitLo estimatedPosition predicate) (by omega :
    estimatedPosition - limitLo ≤ ((estimatedPosition - limitLo).toNat : ℤ) + 1)
  simpa only [Bool.and_eq_true, Bool.and_eq_false_iff, decide_eq_true_eq, decide_eq_false_iff_not, gt_iff_lt,
    not_lt] using half

theorem step_up (upper : estimatedPosition ≤ limitHi) :
    let step := doubleWhile
      (fun step => estimatedPosition + step < limitHi && !predicate (estimatedPosition + step))
      (limitHi - estimatedPosition).toNat 1
    (limitHi ≤ estimatedPosition + step ∨ predicate (estimatedPosition + step) = true) ∧
      (step = 1 ∨ 2 ≤ step ∧ estimatedPosition + step / 2 < limitHi ∧
        predicate (estimatedPosition + step / 2) = false) := by
  intro step
  have half := doubleWhile_half (@bounded_up limitHi estimatedPosition predicate) (by omega :
    limitHi - estimatedPosition ≤ ((limitHi - estimatedPosition).toNat : ℤ) + 1)
  simpa only [Bool.and_eq_true, Bool.and_eq_false_iff, decide_eq_true_eq, decide_eq_false_iff_not, not_lt,
    Bool.not_eq_true', Bool.not_eq_false'] using half

/-- The search ends, whatever the answers are. -/
theorem searchWithin_eq (lower : limitLo ≤ estimatedPosition) (upper : estimatedPosition ≤ limitHi) {turns : Nat}
    (more : (limitHi - limitLo).toNat < turns) :
    searchWithin turns limitLo limitHi estimatedPosition predicate =
      some (binarySearchWithEstimate limitLo limitHi estimatedPosition predicate) := by
  have down := runWhile_double (@bounded_down limitLo estimatedPosition predicate) (by decide) (by omega :
    estimatedPosition - limitLo ≤ ((estimatedPosition - limitLo).toNat : ℤ) + 1) (by omega :
    (estimatedPosition - limitLo).toNat < turns)
  have up := runWhile_double (@bounded_up limitHi estimatedPosition predicate) (by decide) (by omega :
    limitHi - estimatedPosition ≤ ((limitHi - estimatedPosition).toNat : ℤ) + 1) (by omega :
    (limitHi - estimatedPosition).toNat < turns)
  have goesDown := @step_down limitLo estimatedPosition predicate lower
  have goesUp := @step_up limitHi estimatedPosition predicate upper
  unfold searchWithin binarySearchWithEstimate
  split
  case isTrue found =>
    rw [down, Option.bind_eq_bind, Option.bind_some]
    apply runWhile_halve <;> omega
  case isFalse missed =>
    rw [up, Option.bind_eq_bind, Option.bind_some]
    apply runWhile_halve <;> omega

/-- Where the predicate turns at one value, the search finds that value, unless it is
the lower limit and the estimate is not. -/
theorem search_turn {turn : ℤ} (lower : limitLo ≤ estimatedPosition) (upper : estimatedPosition ≤ limitHi)
    (inside : limitLo ≤ turn ∧ turn ≤ limitHi)
    (turns : ∀ v, limitLo ≤ v → v ≤ limitHi → (predicate v = true ↔ turn ≤ v)) :
    binarySearchWithEstimate limitLo limitHi estimatedPosition predicate = turn ↔
      estimatedPosition = limitLo ∨ limitLo < turn := by
  have goesDown := @step_down limitLo estimatedPosition predicate lower
  have goesUp := @step_up limitHi estimatedPosition predicate upper
  unfold binarySearchWithEstimate
  split
  case isTrue found =>
    dsimp only at goesDown
    generalize doubleWhile _ _ 1 = step at goesDown ⊢
    dsimp only
    obtain ⟨stops, half⟩ := goesDown
    have below : turn ≤ estimatedPosition - step / 2 := by
      rw [turns _ lower upper] at found
      obtain rfl | ⟨large, within, holds⟩ := half
      · omega
      · exact (turns _ (by omega) (by omega)).mp holds
    by_cases low : limitLo < turn
    · -- The interval begins at a value that is too low.
      have above : max limitLo (estimatedPosition - step / 2 - step) < turn := by
        apply max_lt low
        obtain outside | misses := stops
        · omega
        · by_cases within : limitLo ≤ estimatedPosition - step
          · have := (turns _ within (by omega)).not.mp (by simp [misses])
            omega
          · omega
      refine iff_of_true ?_ (.inr low)
      exact bisectFrom_of_monotone _ (by omega) above below fun v _ _ => turns v (by omega) (by omega)
    · by_cases start : estimatedPosition = limitLo
      · refine iff_of_true ?_ (.inl start)
        obtain rfl | ⟨large, within, -⟩ := half
        · rw [bisect_of_le_one (by omega)]
          omega
        · omega
      · -- The lower limit itself is not asked: what is found is above it.
        refine iff_of_false ?_ (by omega)
        have nonempty : max limitLo (estimatedPosition - step / 2 - step) < estimatedPosition - step / 2 := by
          omega
        have above := lt_bisect predicate nonempty
        omega
  case isFalse missed =>
    dsimp only at goesUp
    generalize doubleWhile _ _ 1 = step at goesUp ⊢
    dsimp only
    obtain ⟨stops, half⟩ := goesUp
    rw [turns _ lower upper, not_le] at missed
    refine iff_of_true ?_ (.inr (by omega))
    apply bisectFrom_of_monotone
    · omega
    · obtain rfl | ⟨large, within, fails⟩ := half
      · omega
      · have := (turns (estimatedPosition + step / 2) (by omega) (by omega)).not.mp (by simp [fails])
        omega
    · apply le_min inside.2
      obtain outside | holds := stops
      · omega
      · by_cases within : estimatedPosition + step ≤ limitHi
        · have := (turns _ (by omega) within).mp holds
          omega
        · omega
    · intro v above below
      exact turns v (by omega) (by omega)

/-- The search ends with the least value at which a monotone predicate holds, unless
it holds at the lower limit already and the estimate is above that. -/
theorem search_isLeast_iff (lower : limitLo ≤ estimatedPosition) (upper : estimatedPosition ≤ limitHi)
    (monotone : ∀ v w, limitLo ≤ v → v ≤ w → w ≤ limitHi → predicate v = true → predicate w = true)
    (top : predicate limitHi = true) :
    (∀ turns, (limitHi - limitLo).toNat < turns →
      searchWithin turns limitLo limitHi estimatedPosition predicate =
        some (binarySearchWithEstimate limitLo limitHi estimatedPosition predicate)) ∧
    (IsLeast {v | limitLo ≤ v ∧ v ≤ limitHi ∧ predicate v = true}
        (binarySearchWithEstimate limitLo limitHi estimatedPosition predicate) ↔
      estimatedPosition = limitLo ∨ predicate limitLo = false) := by
  refine ⟨fun turns more => searchWithin_eq lower upper more, ?_⟩
  obtain ⟨turn, ⟨low, high, holds⟩, least⟩ := Int.exists_least_of_bdd
    (P := fun v => limitLo ≤ v ∧ v ≤ limitHi ∧ predicate v = true)
    ⟨limitLo, fun v member => member.1⟩ ⟨limitHi, by omega, le_refl _, top⟩
  have isLeast : IsLeast {v | limitLo ≤ v ∧ v ≤ limitHi ∧ predicate v = true} turn :=
    ⟨⟨low, high, holds⟩, fun v member => least v member⟩
  have turns (v : ℤ) (above : limitLo ≤ v) (below : v ≤ limitHi) : predicate v = true ↔ turn ≤ v :=
    ⟨fun found => least v ⟨above, below, found⟩, fun more => monotone turn v low more below holds⟩
  have start : limitLo < turn ↔ predicate limitLo = false := by
    rw [← Bool.not_eq_true, turns limitLo (le_refl _) (by omega), not_le]
  rw [← start, ← search_turn lower upper ⟨low, high⟩ turns]
  constructor
  · intro found
    exact found.unique isLeast
  · intro same
    rwa [same]

end

theorem search_isLeast_iff_sample :
    IsLeast {v | (0 : ℤ) ≤ v ∧ v ≤ 10 ∧ decide (6 ≤ v) = true}
      (binarySearchWithEstimate 0 10 3 fun v => decide (6 ≤ v)) :=
  (search_isLeast_iff (by decide) (by decide)
    (by intro v w _ le _ holds; simp only [decide_eq_true_eq] at *; omega) (by decide)).2.mpr (.inr (by decide))

/-- The head of the client is valid, an estimate of one finds one. -/
theorem search_above_lower_limit :
    binarySearchWithEstimate 0 10 1 (fun _ => true) = 1 ∧
      IsLeast {v | (0 : ℤ) ≤ v ∧ v ≤ 10 ∧ (fun _ => true) v = true} 0 := by
  refine ⟨by decide, ⟨by decide, ?_⟩⟩
  intro v member
  exact member.1

end RainbowBridge.Relay
