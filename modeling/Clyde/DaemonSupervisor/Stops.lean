import Clyde.DaemonSupervisor.Ownership
import Clyde.Foundation.Execution

/-!
# Calls of `stopWorker`

A call of `stopWorker` waits for the exit value of a worker that its goroutine owns, so nobody else
receives it, except for the goroutine that waits for the readiness of the first worker when the
start is interrupted. `Uninterrupted` leaves that out. In a run of the other kind the call never
returns (`stopWorker_blocked_after_interrupted_start`).
-/

set_option autoImplicit false

namespace Clyde.DaemonSupervisor

open Foundation SupervisorState

/-- The value of a worker's life after the next event of its process, its wait goroutine or a
receiver. -/
def Life.next : Life → Option Life
  | .unstarted => some .running
  | .running => some .exited
  | .exited => some .reported
  | .reported => some .received
  | .received => none

def Life.hasExited : Life → Bool
  | .unstarted => false
  | .running => false
  | _ => true

def Control.stopped : Control → Option Worker
  | .stopping worker _ _ => some worker
  | _ => none

def Handler.stopped : Handler → Option Worker
  | .stopping worker _ => some worker
  | _ => none

variable {worker : Worker}

theorem Control.stopped_eq_some {control : Control} :
    control.stopped = some worker ↔ ∃ killed next, control = .stopping worker killed next := by
  cases control <;> simp [stopped]

theorem Handler.stopped_eq_some {handler : Handler} :
    handler.stopped = some worker ↔ ∃ killed, handler = .stopping worker killed := by
  cases handler <;> simp [stopped]

def SupervisorState.stops (state : SupervisorState) : Caller → Option Worker
  | .supervisor => state.control.stopped
  | .handler connection => (state.handler connection).stopped

variable {pidOf : Worker → ℕ} {before after : SupervisorState} {event : SupervisorEvent}

/-! ### What a step does to a worker and to a call -/

theorem update_life_step {life : Worker → Life} {new : Life} (hnew : (life worker).next = some new)
    (other : Worker) :
    Function.update life worker new other = life other ∨
      (life other).next = some (Function.update life worker new other) := by
  rw [Function.update_apply]
  split_ifs with heq
  · exact .inr (heq ▸ hnew)
  · exact .inl rfl

variable (state : SupervisorState)

theorem prune_life_step (worker : Worker) :
    state.prune.life worker = state.life worker ∨
      (state.life worker).next = some (state.prune.life worker) := by
  rw [state.prune_life]
  split_ifs with hpruned
  · rw [hpruned.2]
    exact .inr rfl
  · exact .inl rfl

/-- Where the goroutine of `SuperviseContext` is after a stop. -/
def AfterStop.control : AfterStop → Control
  | .finish => .returned
  | .unwind => .unwinding
  | .answerAbort _ => .looping

theorem afterStop_frame (next : AfterStop) :
    (state.afterStop next).life = state.life ∧ (state.afterStop next).started = state.started ∧
      (state.afterStop next).readiness = state.readiness ∧
      (state.afterStop next).control = next.control := by
  cases next with
  | finish | unwind => exact ⟨rfl, rfl, rfl, rfl⟩
  | answerAbort =>
    simp only [afterStop]
    split <;> exact ⟨rfl, rfl, rfl, rfl⟩

/-- A step leaves a worker's life or moves it to the next stage. -/
theorem SupervisorStep.life_step (hsound : before.Sound)
    (hstep : SupervisorStep pidOf before event after) (worker : Worker) :
    after.life worker = before.life worker ∨
      (before.life worker).next = some (after.life worker) := by
  cases hstep with
  | exit hlife | report hlife | readinessReceives _ hlife | currentExited _ hlife
  | handlerReceives _ hlife => exact update_life_step (by rw [hlife]; rfl) worker
  | replace | refuseAbort | acceptAbort => exact prune_life_step before worker
  | @stopReceives _ _ next _ hlife =>
    rw [(afterStop_frame _ next).1]
    exact update_life_step (by rw [hlife]; rfl) worker
  | startReplacement =>
    refine update_life_step ?_ worker
    rw [hsound.unstarted _ (Nat.le_refl _)]
    rfl
  | _ => exact .inl rfl

theorem SupervisorStep.life_of_report
    (hstep : SupervisorStep pidOf before (.report worker) after) :
    after.life worker = .reported := by
  cases hstep with
  | report => exact Function.update_self ..

theorem afterStop_stopped (next : AfterStop) : (state.afterStop next).control.stopped = none := by
  rw [(afterStop_frame state next).2.2.2]
  cases next <;> rfl

/-- While the loop stops a worker, only the exit value or the timeout moves it. -/
theorem SupervisorStep.stopping_step (hstep : SupervisorStep pidOf before event after)
    {killed : Bool} {next : AfterStop} (hcontrol : before.control = .stopping worker killed next) :
    (event = .stopReceives .supervisor ∧ after.control.stopped = none) ∨
      (event = .stopTimesOut .supervisor ∧ after.control = .stopping worker true next) ∨
      (event ≠ .stopReceives .supervisor ∧ event ≠ .stopTimesOut .supervisor ∧
        after.control = .stopping worker killed next) := by
  cases hstep with
  | stopReceives => exact .inl ⟨rfl, afterStop_stopped _ _⟩
  | stopTimesOut hother =>
    rw [hcontrol] at hother
    injection hother with hworker _ hnext
    exact .inr (.inl ⟨rfl, by rw [hworker, hnext]; rfl⟩)
  | interruptStart hother | takeReady hother | takeFailure hother | takeExit hother
  | interruptLoop hother | acceptAbort hother | currentExited hother | takeControlError hother
  | stopNext hother | closeLoop hother | returns hother =>
    exact absurd (hcontrol.symm.trans hother) (by simp)
  | _ => exact .inr (.inr ⟨by simp, by simp, hcontrol⟩)

theorem SupervisorStep.control_step (hstep : SupervisorStep pidOf before event after)
    (hstops : before.control.stopped = some worker) :
    (event = .stopReceives .supervisor ∧ after.control.stopped = none) ∨
      (event ≠ .stopReceives .supervisor ∧ after.control.stopped = some worker) := by
  obtain ⟨_, _, hcontrol⟩ := Control.stopped_eq_some.mp hstops
  rcases hstep.stopping_step hcontrol with hreceived | ⟨hevent, hafter⟩ | ⟨hevent, -, hafter⟩
  · exact .inl hreceived
  · exact .inr ⟨by simp [hevent], by rw [hafter]; rfl⟩
  · exact .inr ⟨hevent, by rw [hafter]; rfl⟩

/-- How a handler goes on after its part in the loop, and in a call of `stopWorker`. -/
def Handler.GoesOn (place : Handler) (connection : Connection) (event : SupervisorEvent)
    (next : Handler) : Prop :=
  match place with
  | .replaced _ | .decided _ _ => event = .answer connection ∧ ∃ response, next = .answered response
  | .awaiting pid => event = .stopReceives .supervisor ∧ next = .decided pid none
  | .stopping worker _ => (event = .stopReceives (.handler connection) ∧ next.stopped = none) ∨
      (event = .stopTimesOut (.handler connection) ∧ next = .stopping worker true)
  | _ => True

/-- A step that moves one handler leaves the others where they are. -/
theorem goesOn_of_update {moved : Connection} {place handler : Handler}
    (hhandler : before.handler moved = place)
    (hafter : after.handler = Function.update before.handler moved handler)
    (hgoes : place.GoesOn moved event handler) (hevent : ∀ connection, moved ≠ connection →
      event ≠ .answer connection ∧ event ≠ .stopReceives (.handler connection))
    (connection : Connection) :
    (before.handler connection).GoesOn connection event (after.handler connection) ∨
      (event ≠ .answer connection ∧ event ≠ .stopReceives (.handler connection)) ∧
        after.handler connection = before.handler connection := by
  by_cases heq : connection = moved
  · subst heq
    rw [hhandler, hafter, Function.update_self]
    exact .inl hgoes
  · exact .inr ⟨hevent connection (Ne.symm heq), by rw [hafter, Function.update_of_ne heq]⟩

/-- A step leaves a handler or moves it along its own transitions. -/
theorem SupervisorStep.handler_goesOn (hstep : SupervisorStep pidOf before event after)
    (connection : Connection) :
    (before.handler connection).GoesOn connection event (after.handler connection) ∨
      (event ≠ .answer connection ∧ event ≠ .stopReceives (.handler connection)) ∧
        after.handler connection = before.handler connection := by
  cases hstep with
  | replace _ hhandler | refuseAbort _ hhandler | acceptAbort _ hhandler | accept _ hhandler
  | answerDirectly _ hhandler | startReplacement hhandler | requestAbort _ hhandler
  | offerEnds hhandler | requestEnds hhandler =>
    exact goesOn_of_update hhandler rfl trivial (by simp) connection
  | answerReplace hhandler | answerAbort hhandler =>
    exact goesOn_of_update hhandler rfl ⟨rfl, _, rfl⟩ (by simp) connection
  | handlerReceives hhandler =>
    exact goesOn_of_update hhandler rfl (.inl ⟨rfl, rfl⟩) (by simp) connection
  | handlerTimesOut hhandler =>
    exact goesOn_of_update hhandler rfl (.inr ⟨rfl, rfl⟩) (by simp) connection
  | @stopReceives _ _ next =>
    cases next with
    | finish | unwind => exact .inr ⟨by simp, rfl⟩
    | answerAbort =>
      simp only [afterStop]
      split
      · rename_i pid hawaiting
        exact goesOn_of_update hawaiting rfl ⟨rfl, rfl⟩ (by simp) connection
      · exact .inr ⟨by simp, rfl⟩
  | _ => exact .inr ⟨by simp, rfl⟩

/-- A handler's stop goes on until it receives the exit value. -/
theorem SupervisorStep.handler_step (hstep : SupervisorStep pidOf before event after)
    {connection : Connection} (hstops : (before.handler connection).stopped = some worker) :
    (event = .stopReceives (.handler connection) ∧ (after.handler connection).stopped = none) ∨
      (event ≠ .stopReceives (.handler connection) ∧
        (after.handler connection).stopped = some worker) := by
  rcases hstep.handler_goesOn connection with hgoes | ⟨hevent, hsame⟩
  · obtain ⟨_, hhandler⟩ := Handler.stopped_eq_some.mp hstops
    rw [hhandler] at hgoes
    rcases hgoes with hreceives | ⟨hevent, hkilled⟩
    · exact .inl hreceives
    · exact .inr ⟨by simp [hevent], by rw [hkilled]; rfl⟩
  · exact .inr ⟨hevent.2, hsame ▸ hstops⟩

variable {caller : Caller}

/-- A stop goes on until it receives the exit value. -/
theorem SupervisorStep.stops_step (hstep : SupervisorStep pidOf before event after)
    (hstops : before.stops caller = some worker) :
    (event = .stopReceives caller ∧ after.stops caller = none) ∨
      (event ≠ .stopReceives caller ∧ after.stops caller = some worker) := by
  cases caller with
  | supervisor => exact hstep.control_step hstops
  | handler => exact hstep.handler_step hstops

theorem exists_stopReceives (hstops : before.stops caller = some worker)
    (hlife : before.life worker = .reported) :
    ∃ after, SupervisorStep pidOf before (.stopReceives caller) after := by
  cases caller with
  | supervisor =>
    obtain ⟨killed, _, hcontrol⟩ := Control.stopped_eq_some.mp hstops
    exact ⟨_, .stopReceives hcontrol hlife⟩
  | handler =>
    obtain ⟨_, hhandler⟩ := Handler.stopped_eq_some.mp hstops
    exact ⟨_, .handlerReceives hhandler hlife⟩

/-! ### The exit value of a worker that is being stopped -/

/-- A signal or a cancellation ends the start only after the wait for the readiness has ended
without the exit value. -/
def Uninterrupted (state : SupervisorState) (event : SupervisorEvent) : Prop :=
  event = .interrupt → state.control = .awaitingReady → state.readiness = .ready ∨
    state.readiness = .failed

/-- While the first worker is stopped because the start is given up, nobody waits for its readiness.
-/
def Settled (state : SupervisorState) : Prop :=
  ∀ {worker killed}, state.control = .stopping worker killed .finish →
    state.readiness = .ready ∨ state.readiness = .failed

/-- An uninterrupted step keeps the wait for the readiness settled. -/
theorem Settled.step (hsettled : Settled before) (hstep : SupervisorStep pidOf before event after)
    (huninterrupted : Uninterrupted before event) : Settled after := by
  intro _ _ hfinish
  cases hstep with
  | readinessEnds | readinessReceives => rcases hsettled hfinish with _ | hfailed <;> simp_all
  | interruptStart hcontrol => exact huninterrupted rfl hcontrol
  | takeFailure hcontrol hfailed => exact .inr hfailed
  | stopTimesOut hcontrol =>
    simp only [goControl_control, Control.stopping.injEq] at hfinish
    exact hsettled (hfinish.2.2 ▸ hcontrol)
  | @stopReceives stopped _ next hcontrol _ =>
    have hnone := afterStop_stopped (before.setLife stopped .received) next
    rw [hfinish] at hnone
    exact absurd hnone (by simp [Control.stopped])
  | takeReady hcontrol | takeExit hcontrol | interruptLoop hcontrol | acceptAbort hcontrol
  | currentExited hcontrol | takeControlError hcontrol | stopNext hcontrol | closeLoop hcontrol
  | returns hcontrol => exact absurd hfinish (by simp [restore])
  | replace hcontrol | refuseAbort hcontrol => exact absurd (hcontrol.symm.trans hfinish) (by simp)
  | _ => exact hsettled hfinish

/-- The exit value that a stop waits for has not been received by anyone else. -/
theorem unreceived_of_stops {state : SupervisorState} (hsound : state.Sound)
    (hsettled : Settled state) (hstops : state.stops caller = some worker) :
    state.life worker ≠ .received := by
  cases caller with
  | handler connection =>
    obtain ⟨killed, hhandler⟩ := Handler.stopped_eq_some.mp hstops
    exact hsound.held_received (by rw [hhandler]; rfl)
  | supervisor =>
    obtain ⟨killed, next, hcontrol⟩ := Control.stopped_eq_some.mp hstops
    have hmem : worker ∈ state.owned := by
      cases next <;> simp [owned, hcontrol]
    intro hreceived
    have hexited := hsound.owned_received worker hmem hreceived
    rcases hsound.phase with hearly | hlate
    · -- Before the loop, a call gives up the start.
      have hfinish : next = .finish := by
        rcases hearly.control with h | ⟨_, h⟩ | h
        · simp [h] at hcontrol
        · rw [h] at hcontrol
          injection hcontrol with _ _ hnext
          exact hnext.symm
        · simp [h] at hcontrol
      rcases hsettled (hfinish ▸ hcontrol) with h | h <;> simp [h] at hexited
    · exact hsound.unreceived hlate hmem hreceived

/-! ### Every call returns -/

section

variable (execution : Execution (SupervisorStep pidOf)) {caller : Caller} {worker : Worker}
  {time : ℕ}

/-- A stop returns once the exit value is reported, if receiving is fair. -/
theorem returns_of_reported (hreceives : execution.Fair {.stopReceives caller})
    (hsound : ∀ later, (execution.state later).Sound)
    (hunreceived : ∀ later, time ≤ later → (execution.state later).stops caller = some worker →
      (execution.state later).life worker ≠ .received)
    (hstops : (execution.state time).stops caller = some worker)
    (hlife : (execution.state time).life worker = .reported) :
    ∃ later, time ≤ later ∧ (execution.state later).stops caller = none := by
  refine execution.eventually_of_fair hreceives
    (fun state ↦ state.stops caller = some worker ∧ state.life worker = .reported)
    (fun state ↦ state.stops caller = none) ?_ ?_ ⟨hstops, hlife⟩
  · rintro later _ htime hevent ⟨hstops, hlife⟩
    have hstep := execution.steps hevent
    rcases hstep.stops_step hstops with ⟨_, hnone⟩ | ⟨hne, hsome⟩
    · exact .inl hnone
    refine .inr ⟨hne, hsome, ?_⟩
    rcases hstep.life_step (hsound later) worker with hsame | hnext
    · rw [hsame, hlife]
    · rw [hlife] at hnext
      exact absurd (Option.some.inj hnext).symm (hunreceived _ (Nat.le_succ_of_le htime) hsome)
  · rintro _ ⟨hstops, hlife⟩
    exact ⟨_, rfl, exists_stopReceives hstops hlife⟩

/-- A stop returns once its worker has exited, if reporting and receiving are fair. -/
theorem returns_of_exited (hreports : execution.Fair {.report worker})
    (hreceives : execution.Fair {.stopReceives caller})
    (hsound : ∀ later, (execution.state later).Sound)
    (hunreceived : ∀ later, time ≤ later → (execution.state later).stops caller = some worker →
      (execution.state later).life worker ≠ .received)
    (hstops : (execution.state time).stops caller = some worker)
    (hlife : ((execution.state time).life worker).hasExited = true) :
    ∃ later, time ≤ later ∧ (execution.state later).stops caller = none := by
  -- The exit value is put in the channel, unless the call has returned before.
  have hreported : ∃ later, time ≤ later ∧ ((execution.state later).stops caller = none ∨
      ((execution.state later).stops caller = some worker ∧
        (execution.state later).life worker = .reported)) := by
    cases hnow : (execution.state time).life worker with
    | unstarted | running => simp [hnow, Life.hasExited] at hlife
    | received => exact absurd hnow (hunreceived time (Nat.le_refl time) hstops)
    | reported => exact ⟨time, Nat.le_refl time, .inr ⟨hstops, hnow⟩⟩
    | exited =>
      refine execution.eventually_of_fair hreports
        (fun state ↦ state.stops caller = some worker ∧ state.life worker = .exited)
        (fun state ↦ state.stops caller = none ∨
          (state.stops caller = some worker ∧ state.life worker = .reported)) ?_ ?_ ⟨hstops, hnow⟩
      · rintro later _ _ hevent ⟨hstops, hexited⟩
        have hstep := execution.steps hevent
        rcases hstep.stops_step hstops with ⟨_, hnone⟩ | ⟨_, hsome⟩
        · exact .inl (.inl hnone)
        rcases hstep.life_step (hsound later) worker with hsame | hnext
        · refine .inr ⟨?_, hsome, hsame.trans hexited⟩
          rintro rfl
          exact absurd (hsame.symm.trans hstep.life_of_report) (by simp [hexited])
        · rw [hexited] at hnext
          exact .inl (.inr ⟨hsome, (Option.some.inj hnext).symm⟩)
      · rintro later ⟨_, hexited⟩
        exact ⟨_, rfl, _, .report hexited⟩
  obtain ⟨middle, hmiddle, hnone | ⟨hstops, hlife⟩⟩ := hreported
  · exact ⟨middle, hmiddle, hnone⟩
  · obtain ⟨later, hlater, hnone⟩ := returns_of_reported execution hreceives hsound
      (fun later hlater ↦ hunreceived later (hmiddle.trans hlater)) hstops hlife
    exact ⟨later, hmiddle.trans hlater, hnone⟩

end

/-- In every fair execution whose start is not interrupted while the readiness wait may receive the
exit value, no call of `stopWorker` waits for a value that somebody else has received, and every
call returns once its process has exited. -/
theorem stopWorker_returns_once_exited (execution : Execution (SupervisorStep pidOf))
    (hinitial : execution.state 0 = initial)
    (hreports : ∀ worker, execution.Fair {.report worker})
    (hreceives : ∀ caller, execution.Fair {.stopReceives caller})
    (huninterrupted : ∀ {time event}, execution.event time = some event →
      Uninterrupted (execution.state time) event)
    {time : ℕ} {caller : Caller} {worker : Worker}
    (hstops : (execution.state time).stops caller = some worker) :
    (execution.state time).life worker ≠ .received ∧
      (((execution.state time).life worker).hasExited = true →
        ∃ later, time ≤ later ∧ (execution.state later).stops caller = none) := by
  have hsound : ∀ later, (execution.state later).Sound :=
    execution.invariant SupervisorState.Sound (fun hsound hstep ↦ hsound.step hstep)
      (hinitial ▸ sound_initial)
  have hsettled : ∀ later, Settled (execution.state later) := by
    intro later
    refine execution.invariant_from Settled ?_ ?_ (Nat.zero_le later)
    · exact fun _ hevent hsettled ↦ hsettled.step (execution.steps hevent) (huninterrupted hevent)
    · rw [hinitial]
      intro worker _ hcontrol
      exact absurd hcontrol (by simp [initial])
  have hunreceived : ∀ later, time ≤ later → (execution.state later).stops caller = some worker →
      (execution.state later).life worker ≠ .received :=
    fun later _ hlater ↦ unreceived_of_stops (hsound later) (hsettled later) hlater
  exact ⟨hunreceived time (Nat.le_refl time) hstops,
    returns_of_exited execution (hreports worker) (hreceives caller) hsound hunreceived hstops⟩

/-- The readiness text is missing, and the first worker is stopped. -/
theorem stopWorker_returns_after_failed_readiness :
    ∃ execution : Execution (SupervisorStep id),
      (execution.state 3).stops .supervisor = some 0 ∧ (execution.state 3).life 0 = .exited ∧
      (execution.state 3).life 0 ≠ .received ∧
      (((execution.state 3).life 0).hasExited = true →
        ∃ later, 3 ≤ later ∧ (execution.state later).stops .supervisor = none) := by
  have hfront : Run (SupervisorStep id) initial [.readinessEnds false, .takeReadiness, .exit 0] _ :=
    .cons (.readinessEnds false rfl) (.cons (.takeFailure rfl rfl) (.cons (.exit rfl) .nil))
  obtain ⟨execution, hzero, hevents, hmiddle, hlast⟩ := Execution.exists_of_runs hfront
    (.cons (@SupervisorStep.report _ _ 0 rfl) (.cons (.stopReceives rfl rfl) .nil))
  have hmiddle : execution.state 3 = _ := hmiddle
  have hlife : (execution.state 3).life 0 = .exited := by rw [hmiddle]; rfl
  have hstops : (execution.state 3).stops .supervisor = some 0 := by rw [hmiddle]; rfl
  refine ⟨execution, hstops, hlife, ?_⟩
  -- At the end the first worker is the only one, and its exit value was received.
  refine stopWorker_returns_once_exited execution hzero (fun worker ↦ ?_)
    (fun caller ↦ ?_) ?_ hstops
  · refine execution.fair_of_disabled 5 fun time htime event hevent after hstep ↦ ?_
    rw [hlast time htime, hevent] at hstep
    cases hstep with
    | report hlife =>
      by_cases heq : worker = 0
      · subst heq
        exact absurd hlife (by decide)
      · simp [afterStop, initial, Function.update_of_ne heq] at hlife
  · refine execution.fair_of_disabled 5 fun time htime event hevent after hstep ↦ ?_
    rw [hlast time htime, hevent] at hstep
    cases hstep with
    | stopReceives hcontrol => exact Control.noConfusion hcontrol
    | handlerReceives hhandler => exact Handler.noConfusion hhandler
  intro _ _ hevent hinterrupt
  rw [hevents, hinterrupt] at hevent
  have hmem := List.mem_of_getElem? hevent
  simp at hmem

/-! ### An interrupted start -/

/-- The call that gives up the start, after the wait for the readiness has received the exit value.
-/
structure Blocked (state : SupervisorState) : Prop where
  control : ∃ killed, state.control = .stopping 0 killed .finish
  life : state.life 0 = .received

/-- An interrupted start that is blocked stays blocked. -/
theorem Blocked.step (hblocked : Blocked before) (hsound : before.Sound)
    (hstep : SupervisorStep pidOf before event after) : Blocked after := by
  obtain ⟨killed, hcontrol⟩ := hblocked.control
  have hlife : after.life 0 = .received := by
    rcases hstep.life_step hsound 0 with hsame | hnext
    · rw [hsame, hblocked.life]
    · simp [hblocked.life, Life.next] at hnext
  refine ⟨?_, hlife⟩
  rcases hstep.stopping_step hcontrol with ⟨rfl, -⟩ | ⟨-, hafter⟩ | ⟨-, -, hafter⟩
  · -- There is no exit value left to receive.
    cases hstep with
    | stopReceives hother hreported =>
      rw [hcontrol] at hother
      injection hother with hworker
      rw [← hworker, hblocked.life] at hreported
      simp at hreported
  · exact ⟨true, hafter⟩
  · exact ⟨killed, hafter⟩

/-- A signal arrives while the supervisor waits for the first worker, and the wait for its readiness
receives the exit value. The call of `stopWorker` waits for ever. -/
theorem stopWorker_blocked_after_interrupted_start :
    ∃ state, Reachable id state ∧ state.stops .supervisor = some 0 ∧
      (state.life 0).hasExited = true ∧
      ∀ events later, Run (SupervisorStep id) state events later →
      later.stops .supervisor = some 0 := by
  have hrun : Run (SupervisorStep id) initial [.interrupt, .exit 0, .report 0,
      .readinessReceives] _ :=
    .cons (.interruptStart rfl) (.cons (.exit rfl) (.cons (.report rfl)
      (.cons (.readinessReceives rfl rfl) .nil)))
  refine ⟨_, ⟨_, hrun⟩, rfl, rfl, fun events later hlater ↦ ?_⟩
  have hblocked : Blocked later ∧ later.Sound := by
    refine hlater.invariant (fun state ↦ Blocked state ∧ state.Sound) ?_
      ⟨⟨⟨false, rfl⟩, rfl⟩, .of_run hrun⟩
    exact fun hgood hstep ↦ ⟨hgood.1.step hgood.2 hstep, hgood.2.step hstep⟩
  obtain ⟨killed, hcontrol⟩ := hblocked.1.control
  exact Control.stopped_eq_some.mpr ⟨killed, _, hcontrol⟩

end Clyde.DaemonSupervisor
