import Mathlib.Data.List.Basic

/-! Deterministic labelled machines. A run is a list of labels folded over a
start state; invariants and simulations are proved once per label and lifted
here to whole runs. -/

namespace RainbowBridge.Lib

universe u v w x

/-- A machine answers every label; a label it refuses leaves the state alone. -/
structure Machine (State : Type u) (Label : Type v) where
  next : State → Label → State

namespace Machine

variable {State : Type u} {Label : Type v} {Other : Type w} {Reading : Type x}

def run (machine : Machine State Label) (start : State) (labels : List Label) : State :=
  labels.foldl machine.next start

@[simp] theorem run_nil (machine : Machine State Label) (start : State) :
    machine.run start [] = start := rfl

@[simp] theorem run_cons (machine : Machine State Label) (start : State) (label : Label)
    (rest : List Label) :
    machine.run start (label :: rest) = machine.run (machine.next start label) rest := rfl

theorem run_append (machine : Machine State Label) (start : State) (first second : List Label) :
    machine.run start (first ++ second) = machine.run (machine.run start first) second := by
  simp [run, List.foldl_append]

/-- Every step of a run is taken from a state that meets the condition. -/
def StepsMeet (machine : Machine State Label) (condition : State → Label → Prop) :
    State → List Label → Prop
  | _, [] => True
  | state, label :: rest =>
    condition state label ∧ machine.StepsMeet condition (machine.next state label) rest

/-- An invariant that every permitted step preserves holds after every
permitted run. -/
theorem run_invariant_of_steps (machine : Machine State Label)
    {condition : State → Label → Prop} {invariant : State → Prop}
    (preserved : ∀ state label, invariant state → condition state label →
      invariant (machine.next state label))
    {start : State} (initial : invariant start) (labels : List Label)
    (permitted : machine.StepsMeet condition start labels) :
    invariant (machine.run start labels) := by
  induction labels generalizing start with
  | nil => exact initial
  | cons label rest ih =>
    obtain ⟨here, later⟩ := permitted
    exact ih (preserved start label initial here) later

/-- An invariant that every step preserves holds after every run. -/
theorem run_invariant (machine : Machine State Label) {invariant : State → Prop}
    (preserved : ∀ state label, invariant state → invariant (machine.next state label))
    {start : State} (initial : invariant start) (labels : List Label) :
    invariant (machine.run start labels) := by
  induction labels generalizing start with
  | nil => exact initial
  | cons label rest ih => exact ih (preserved start label initial)

/-- A rank that no permitted step increases, and that the counted ones decrease until it
is zero, is zero after a permitted run with enough of them. -/
theorem run_rank_eq_zero (machine : Machine State Label) {condition : State → Label → Prop}
    {invariant : State → Prop} (rank : State → Nat) (counted : Label → Bool)
    (preserved : ∀ state label, invariant state → condition state label →
      invariant (machine.next state label))
    (decreases : ∀ state label, invariant state → condition state label →
      rank (machine.next state label) ≤ rank state - if counted label then 1 else 0)
    {start : State} (initial : invariant start) (labels : List Label)
    (permitted : machine.StepsMeet condition start labels) (enough : rank start ≤ labels.countP counted) :
    rank (machine.run start labels) = 0 := by
  induction labels generalizing start with
  | nil => exact Nat.le_zero.mp enough
  | cons label rest ih =>
    obtain ⟨here, later⟩ := permitted
    have first := decreases start label initial here
    rw [List.countP_cons] at enough
    exact ih (preserved start label initial here) later (by omega)

/-- A relation that every label preserves on both sides relates whole runs. -/
theorem run_simulation (concrete : Machine State Label) (spec : Machine Other Label)
    (related : State → Other → Prop)
    (step : ∀ state other label, related state other →
      related (concrete.next state label) (spec.next other label))
    {start : State} {origin : Other} (initial : related start origin) (labels : List Label) :
    related (concrete.run start labels) (spec.run origin labels) := by
  induction labels generalizing start origin with
  | nil => exact initial
  | cons label rest ih => exact ih (step start origin label initial)

/-- What an observer sees of a run: one output for each label. -/
def trace (machine : Machine State Label) (output : State → Label → Reading) :
    State → List Label → List Reading
  | _, [] => []
  | state, label :: rest => output state label :: machine.trace output (machine.next state label) rest

/-- Two machines whose related states answer alike and stay related under every
permitted label cannot be told apart by a permitted run. -/
theorem trace_eq_of_steps (concrete : Machine State Label) (spec : Machine Other Label)
    {output : State → Label → Reading} {expected : Other → Label → Reading}
    (related : State → Other → Prop) {condition : State → Label → Prop}
    (agree : ∀ state other label, related state other → condition state label →
      output state label = expected other label)
    (step : ∀ state other label, related state other → condition state label →
      related (concrete.next state label) (spec.next other label))
    {start : State} {origin : Other} (initial : related start origin) (labels : List Label)
    (permitted : concrete.StepsMeet condition start labels) :
    concrete.trace output start labels = spec.trace expected origin labels := by
  induction labels generalizing start origin with
  | nil => rfl
  | cons label rest ih =>
    obtain ⟨here, later⟩ := permitted
    simp only [trace, agree start origin label initial here, List.cons.injEq, true_and]
    exact ih (step start origin label initial here) later

theorem stepsMeet_true (machine : Machine State Label) (start : State) (labels : List Label) :
    machine.StepsMeet (fun _ _ => True) start labels := by
  induction labels generalizing start with
  | nil => trivial
  | cons label rest ih => exact ⟨trivial, ih _⟩

theorem StepsMeet.imp {machine : Machine State Label} {condition weaker : State → Label → Prop}
    (implies : ∀ state label, condition state label → weaker state label) {start : State}
    {labels : List Label} (permitted : machine.StepsMeet condition start labels) :
    machine.StepsMeet weaker start labels := by
  induction labels generalizing start with
  | nil => trivial
  | cons label rest ih => exact ⟨implies _ _ permitted.1, ih permitted.2⟩

/-- A condition on steps that can be decided can be decided along a run. -/
instance decidableStepsMeet (machine : Machine State Label) (condition : State → Label → Prop)
    [∀ state label, Decidable (condition state label)] :
    ∀ start labels, Decidable (machine.StepsMeet condition start labels)
  | _, [] => inferInstanceAs (Decidable True)
  | start, label :: rest =>
    haveI := decidableStepsMeet machine condition (machine.next start label) rest
    inferInstanceAs
      (Decidable (condition start label ∧ machine.StepsMeet condition (machine.next start label) rest))

/-- The labels of a run may be used in the condition on its steps. -/
theorem StepsMeet.mem {machine : Machine State Label} {condition : State → Label → Prop} {start : State}
    {labels all : List Label} (permitted : machine.StepsMeet condition start labels)
    (contained : labels ⊆ all) :
    machine.StepsMeet (fun state label => condition state label ∧ label ∈ all) start labels := by
  induction labels generalizing start with
  | nil => trivial
  | cons label rest ih =>
    exact ⟨⟨permitted.1, contained (by simp)⟩,
      ih permitted.2 (List.Subset.trans (List.subset_cons_self _ _) contained)⟩

end Machine

end RainbowBridge.Lib
