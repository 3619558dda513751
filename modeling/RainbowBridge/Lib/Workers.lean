import RainbowBridge.Lib.Machine

/-! Workers that fill the slots of a buffer, each those of an interval of its own, in
any order of their turns. -/

namespace RainbowBridge.Lib

universe u

/-- The slots, and the slot that each worker is at. -/
structure Workers (β : Type u) where
  slots : List β
  next : Nat → Nat

namespace Workers

variable {β : Type u} (f : Nat → β) (count : Nat) (limit : Nat → Nat)

/-- In its turn a worker below its limit fills a slot. -/
def turns : Machine (Workers β) Nat where
  next := fun workers id =>
    if id < count ∧ workers.next id < limit id then
      ⟨workers.slots.set (workers.next id) (f (workers.next id)),
        Function.update workers.next id (workers.next id + 1)⟩
    else workers

/-- No worker has a slot left. -/
def Finished (workers : Workers β) : Prop := ∀ id < count, limit id ≤ workers.next id

/-- The intervals together are the slots. -/
structure Covering (first : Nat → Nat) (slots : Nat) : Prop where
  inside : ∀ id < count, first id < limit id → limit id ≤ slots
  cover : ∀ i < slots, ∃ id < count, first id ≤ i ∧ i < limit id

/-- What a worker has passed is filled. -/
structure Filled (first : Nat → Nat) (slots : Nat) (workers : Workers β) : Prop where
  length : workers.slots.length = slots
  started : ∀ id < count, first id ≤ workers.next id
  bounded : ∀ id < count, workers.next id ≤ max (first id) (limit id)
  filled : ∀ id < count, ∀ i, first id ≤ i → i < workers.next id → workers.slots[i]? = some (f i)

variable {f count limit} {first : Nat → Nat} {slots : Nat} {workers : Workers β}

theorem turn_working {id : Nat} (working : id < count ∧ workers.next id < limit id) :
    (turns f count limit).next workers id =
      ⟨workers.slots.set (workers.next id) (f (workers.next id)),
        Function.update workers.next id (workers.next id + 1)⟩ :=
  if_pos working

theorem turn_idle {id : Nat} (idle : ¬ (id < count ∧ workers.next id < limit id)) :
    (turns f count limit).next workers id = workers :=
  if_neg idle

/-- A turn of one worker is nothing to the others. -/
theorem next_turn_of_ne {id other : Nat} (different : other ≠ id) :
    ((turns f count limit).next workers id).next other = workers.next other := by
  by_cases working : id < count ∧ workers.next id < limit id
  · rw [turn_working working]
    exact Function.update_of_ne different _ _
  · rw [turn_idle working]

theorem next_turn_self {id : Nat} (working : id < count ∧ workers.next id < limit id) :
    ((turns f count limit).next workers id).next id = workers.next id + 1 := by
  rw [turn_working working]
  exact Function.update_self _ _ _

theorem Filled.turn (covering : Covering count limit first slots)
    (filled : Filled f count limit first slots workers) (id : Nat) :
    Filled f count limit first slots ((turns f count limit).next workers id) := by
  by_cases working : id < count ∧ workers.next id < limit id
  · have below := working.2
    have started := filled.started id working.1
    have bound := covering.inside id working.1 (by omega)
    have passed := next_turn_self (f := f) working
    have slot : ((turns f count limit).next workers id).slots =
        workers.slots.set (workers.next id) (f (workers.next id)) := by
      rw [turn_working working]
    constructor
    case length => rw [slot, List.length_set, filled.length]
    case started =>
      intro other member
      by_cases same : other = id
      · subst same
        omega
      · rw [next_turn_of_ne same]
        exact filled.started other member
    case bounded =>
      intro other member
      by_cases same : other = id
      · subst same
        omega
      · rw [next_turn_of_ne same]
        exact filled.bounded other member
    case filled =>
      intro other member i low high
      rw [slot]
      by_cases here : workers.next id = i
      · subst here
        exact List.getElem?_set_self (by rw [filled.length]; omega)
      · rw [List.getElem?_set_ne here]
        apply filled.filled other member i low
        by_cases same : other = id
        · subst same
          omega
        · rwa [next_turn_of_ne same] at high
  · rwa [turn_idle working]

theorem Filled.run (covering : Covering count limit first slots)
    (filled : Filled f count limit first slots workers) (schedule : List Nat) :
    Filled f count limit first slots ((turns f count limit).run workers schedule) :=
  (turns f count limit).run_invariant (fun state id (here : Filled f count limit first slots state) => here.turn covering id)
    filled schedule

/-- When all are finished every slot is filled, whatever the order of the turns was. -/
theorem Filled.finished (covering : Covering count limit first slots)
    (filled : Filled f count limit first slots workers) (finished : Finished count limit workers) :
    workers.slots = (List.range slots).map f := by
  apply List.ext_getElem?
  intro i
  by_cases inside : i < slots
  · obtain ⟨id, member, low, high⟩ := covering.cover i inside
    rw [filled.filled id member i low (Nat.lt_of_lt_of_le high (finished id member))]
    simp [inside]
  · have beyond : (List.range slots).length ≤ i := by simpa using inside
    rw [List.getElem?_eq_none (by rw [filled.length]; omega), List.getElem?_eq_none (by simpa using beyond)]

variable (f limit workers) in
/-- A worker passes a slot in each of its turns, up to its limit. -/
theorem next_run (schedule : List Nat) {id : Nat} (member : id < count) :
    min (limit id) (workers.next id + schedule.count id) ≤
      ((turns f count limit).run workers schedule).next id := by
  induction schedule generalizing workers with
  | nil => exact Nat.min_le_right _ _
  | cons turn rest ih =>
    have later := @ih ((turns f count limit).next workers turn)
    rw [Machine.run_cons, List.count_cons]
    refine Nat.le_trans ?_ later
    by_cases same : turn = id
    · subst same
      simp only [beq_self_eq_true, if_true]
      by_cases working : turn < count ∧ workers.next turn < limit turn
      · rw [next_turn_self working]
        omega
      · rw [turn_idle working]
        omega
    · rw [next_turn_of_ne (Ne.symm same)]
      simp [same]

end Workers

end RainbowBridge.Lib
