import Mathlib.Data.List.Basic

/-!
# Runs of a labelled transition relation

`Run step start events finish` says that the steps with these events, in this order, lead from
`start` to `finish`.

Scope. States, events and the relation are arbitrary.
-/

set_option autoImplicit false

namespace Clyde.Foundation

inductive Run {State Event : Type} (step : State → Event → State → Prop) :
    State → List Event → State → Prop where
  | nil {state : State} : Run step state [] state
  | cons {first second last : State} {event : Event} {events : List Event}
      (hstep : step first event second) (hrun : Run step second events last) :
      Run step first (event :: events) last

namespace Run

variable {State Event : Type} {step : State → Event → State → Prop} {first last : State}
  {front back events : List Event}

theorem split_append (hrun : Run step first (front ++ back) last) :
    ∃ middle, Run step first front middle ∧ Run step middle back last := by
  induction front generalizing first with
  | nil => exact ⟨first, nil, hrun⟩
  | cons _ _ ih =>
    cases hrun with
    | cons hstep hrun =>
      obtain ⟨middle, hfront, hback⟩ := ih hrun
      exact ⟨middle, cons hstep hfront, hback⟩

variable {event : Event}

theorem split_cons (hrun : Run step first (event :: events) last) :
    ∃ second, step first event second ∧ Run step second events last := by
  cases hrun with
  | cons hstep hrun => exact ⟨_, hstep, hrun⟩

theorem split_at (hrun : Run step first (front ++ event :: back) last) :
    ∃ before after, Run step first front before ∧ step before event after ∧
      Run step after back last := by
  obtain ⟨before, hfront, hrest⟩ := hrun.split_append
  obtain ⟨after, hstep, hback⟩ := hrest.split_cons
  exact ⟨before, after, hfront, hstep, hback⟩

/-- What the events of a run preserve holds at its end. -/
theorem invariant_of_mem (Good : State → Prop)
    (hpreserved : ∀ {before event after}, event ∈ events → Good before → step before event after →
      Good after) (hrun : Run step first events last) (hfirst : Good first) : Good last := by
  induction hrun with
  | nil => exact hfirst
  | cons hstep _ ih =>
    exact ih (fun hmem ↦ hpreserved (List.mem_cons_of_mem _ hmem))
      (hpreserved List.mem_cons_self hfirst hstep)

/-- What every step preserves holds at the end of a run. -/
theorem invariant (Good : State → Prop)
    (hpreserved : ∀ {before event after}, Good before → step before event after → Good after)
    (hrun : Run step first events last) (hfirst : Good first) : Good last :=
  hrun.invariant_of_mem Good (fun _ hgood hstep ↦ hpreserved hgood hstep) hfirst

theorem exists_cons {Goal : State → Prop} {second : State}
    (hstep : step first event second) (hrest : ∃ last, Run step second events last ∧ Goal last) :
    ∃ last, Run step first (event :: events) last ∧ Goal last := by
  obtain ⟨last, hrun, hgoal⟩ := hrest
  exact ⟨last, cons hstep hrun, hgoal⟩

theorem mono {other : State → Event → State → Prop}
    (hsteps : ∀ {before event after}, step before event after → other before event after)
    (hrun : Run step first events last) : Run other first events last := by
  induction hrun with
  | nil => exact nil
  | cons hstep _ ih => exact cons (hsteps hstep) ih

end Run

end Clyde.Foundation
