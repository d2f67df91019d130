import Clyde.Foundation.LabelledRun
import Mathlib.Order.Nat
import Mathlib.Order.Lattice

/-!
# Endless executions and weak fairness

`Execution step` is an endless sequence of steps of a labelled transition relation, with pauses:
nothing has to happen at a time, so a system that has come to rest has executions too.
`Execution.Fair` is weak fairness of a set of events: what stays possible for ever happens again.
`Execution.eventually_of_fair` is the rule by which fairness is used: what every step keeps until
the goal, and a fair event that is possible meanwhile and reaches the goal, reach the goal.

Scope. States, events and the relation are arbitrary.
-/

set_option autoImplicit false

namespace Clyde.Foundation

variable {State Event : Type} {step : State → Event → State → Prop}

/-- An endless sequence of steps, with pauses. -/
structure Execution (step : State → Event → State → Prop) where
  state : ℕ → State
  event : ℕ → Option Event
  steps : ∀ {time : ℕ} {happening : Event}, event time = some happening →
    step (state time) happening (state (time + 1))
  pauses : ∀ {time : ℕ}, event time = none → state (time + 1) = state time

namespace Execution

/-- Weak fairness: from no time on is one of the events possible for ever without one of them
happening. -/
def Fair (execution : Execution step) (actions : Set Event) : Prop :=
  ∀ start, (∀ time, start ≤ time → ∃ happening ∈ actions, ∃ after,
    step (execution.state time) happening after) →
    ∃ time, start ≤ time ∧ ∃ happening ∈ actions, execution.event time = some happening

def eventsBefore (execution : Execution step) : ℕ → List Event
  | 0 => []
  | time + 1 => execution.eventsBefore time ++ (execution.event time).toList

variable (execution : Execution step) (Good : State → Prop) {start : ℕ}

/-- What every event from a time on preserves holds from then on. -/
theorem invariant_from
    (hpreserved : ∀ {time happening}, start ≤ time → execution.event time = some happening →
      Good (execution.state time) → Good (execution.state (time + 1)))
    (hstart : Good (execution.state start)) {time : ℕ} (htime : start ≤ time) :
    Good (execution.state time) := by
  induction time, htime using Nat.le_induction with
  | base => exact hstart
  | succ time htime ih =>
    cases hevent : execution.event time with
    | none =>
      rw [execution.pauses hevent]
      exact ih
    | some => exact hpreserved htime hevent ih

/-- What every step preserves holds at all times. -/
theorem invariant
    (hpreserved : ∀ {before happening after}, Good before → step before happening after →
      Good after) (hstart : Good (execution.state 0)) (time : ℕ) : Good (execution.state time) :=
  execution.invariant_from Good
    (fun _ hevent hgood ↦ hpreserved hgood (execution.steps hevent)) hstart (Nat.zero_le time)

variable {actions : Set Event}

/-- Assumes: while the pending property holds, every step keeps it or reaches the goal, one of the
fair events is possible, and each of them reaches the goal. -/
theorem eventually_of_fair (hfair : execution.Fair actions) (Pending Goal : State → Prop)
    (hstep : ∀ {time happening}, start ≤ time → execution.event time = some happening →
      Pending (execution.state time) → Goal (execution.state (time + 1)) ∨
        (happening ∉ actions ∧ Pending (execution.state (time + 1))))
    (henabled : ∀ {time}, Pending (execution.state time) →
      ∃ happening ∈ actions, ∃ after, step (execution.state time) happening after)
    (hstart : Pending (execution.state start)) :
    ∃ time, start ≤ time ∧ Goal (execution.state time) := by
  by_contra hnever
  have hgoal : ∀ time, start ≤ time → ¬ Goal (execution.state time) :=
    fun time htime hreached ↦ hnever ⟨time, htime, hreached⟩
  -- Without the goal every step keeps the pending property, so the fair events stay possible.
  have hpending : ∀ time, start ≤ time → Pending (execution.state time) := by
    intro time htime
    refine execution.invariant_from Pending ?_ hstart htime
    intro time happening hle hevent hnow
    exact ((hstep hle hevent hnow).resolve_left (hgoal (time + 1) (Nat.le_succ_of_le hle))).2
  obtain ⟨time, htime, _, hmem, hevent⟩ :=
    hfair start (fun time htime ↦ henabled (hpending time htime))
  exact ((hstep htime hevent (hpending time htime)).resolve_left
    (hgoal (time + 1) (Nat.le_succ_of_le htime))).1 hmem

def cons {first : State} {happening : Event} (execution : Execution step)
    (hstep : step first happening (execution.state 0)) : Execution step where
  state
    | 0 => first
    | time + 1 => execution.state time
  event
    | 0 => some happening
    | time + 1 => execution.event time
  steps := by
    rintro (_ | time) event hevent
    · rw [← Option.some.inj hevent]
      exact hstep
    · exact execution.steps hevent
  pauses := by
    rintro (_ | time) hevent
    · exact absurd hevent (Option.some_ne_none happening)
    · exact execution.pauses hevent

def rest (state : State) : Execution step where
  state := fun _ ↦ state
  event := fun _ ↦ none
  steps := nofun
  pauses := fun _ ↦ rfl

/-- Every finite run is the beginning of an execution that then rests. -/
theorem exists_of_run {first last : State} {events : List Event}
    (hrun : Run step first events last) :
    ∃ execution : Execution step, execution.state 0 = first ∧
      (∀ time, execution.event time = events[time]?) ∧
      ∀ time, events.length ≤ time → execution.state time = last := by
  induction hrun with
  | @nil state => exact ⟨rest state, rfl, fun _ ↦ rfl, fun _ _ ↦ rfl⟩
  | cons hstep _ ih =>
    obtain ⟨execution, hzero, hevents, _⟩ := ih
    exact ⟨execution.cons (hzero ▸ hstep), rfl, by rintro (_ | time) <;> simp [cons, hevents],
      by rintro (_ | time) htime <;> simp_all [cons]⟩

theorem exists_of_runs {first middle last : State} {front back : List Event}
    (hfront : Run step first front middle) (hback : Run step middle back last) :
    ∃ execution : Execution step, execution.state 0 = first ∧
      (∀ time, execution.event time = (front ++ back)[time]?) ∧
      execution.state front.length = middle ∧
      ∀ time, (front ++ back).length ≤ time → execution.state time = last := by
  induction hfront with
  | nil =>
    obtain ⟨execution, hzero, hevents, hlast⟩ := exists_of_run hback
    exact ⟨execution, hzero, hevents, hzero, hlast⟩
  | cons hstep _ ih =>
    obtain ⟨execution, hzero, hevents, hmiddle, _⟩ := ih hback
    exact ⟨execution.cons (hzero ▸ hstep), rfl,
      by rintro (_ | time) <;> simp [cons, hevents], hmiddle,
      by rintro (_ | time) htime <;> simp_all [cons]⟩

theorem fair_of_disabled (rest : ℕ)
    (hdisabled : ∀ time, rest ≤ time → ∀ happening ∈ actions, ∀ after,
      ¬ step (execution.state time) happening after) : execution.Fair actions := by
  intro start hpossible
  obtain ⟨happening, hmem, after, hstep⟩ := hpossible _ (le_max_left start rest)
  exact absurd hstep (hdisabled _ (le_max_right start rest) happening hmem after)

end Execution

end Clyde.Foundation
