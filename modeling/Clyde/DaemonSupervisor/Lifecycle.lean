import Clyde.DaemonSupervisor.Stops
import Mathlib.Tactic.IntervalCases

/-!
# What the supervisor leaves behind

Which workers still run when `SuperviseContext` returns, which worker an accepted abort request
restores, and whether every request that the loop has received is answered.

`Covered` says that every running worker has an owner, and `running_worker_has_one_owner` who else
waits for it. `succession` reads off the events of a run which worker is current and which were
superseded. `supervised_workers_stopped_restored_answered` answers the questions for the executions
whose steps are `Orderly`; `worker_running_after_return` has a run for each of its first two
conditions.
-/

set_option autoImplicit false

namespace Clyde.DaemonSupervisor

open Foundation SupervisorState List Function Control

variable {pidOf : Worker → ℕ} {before after state : SupervisorState} {event : SupervisorEvent}

structure Orderly (state : SupervisorState) (event : SupervisorEvent) : Prop where
  /-- The loop is left for an accept error only when the current worker is not running. -/
  controlError : event = .takeControlError → state.life state.current ≠ .running
  /-- When `SuperviseContext` returns, no control handler holds a worker that it has started. -/
  returns : event = .returns → ∀ connection, (state.handler connection).held = none
  /-- When an abort request is received, the exits of the superseded workers were reported. -/
  abort : ∀ {connection restored}, event = .acceptAbort connection restored →
    ∀ worker ∈ state.superseded, state.life worker ≠ .exited

/-! ### Every running worker has an owner -/

/-- The goroutine of `SuperviseContext` or a control handler will wait for the worker. -/
def HasOwner (state : SupervisorState) (worker : Worker) : Prop :=
  worker ∈ state.owned ∨ ∃ connection, (state.handler connection).held = some worker

structure Covered (state : SupervisorState) : Prop where
  running : ∀ {worker}, state.life worker = .running → HasOwner state worker
  begun : ∀ {worker}, worker < state.started → state.life worker ≠ .unstarted
  exited : state.readiness = .exitedBeforeReady → state.life 0 = .received

theorem covered_initial : Covered initial where
  running := by
    intro worker hrunning
    by_cases heq : worker = 0
    · exact .inl (heq ▸ mem_cons_self)
    · simp [initial, update_of_ne heq] at hrunning
  begun := by
    intro worker hlt
    obtain rfl : worker = 0 := Nat.lt_one_iff.mp hlt
    simp [initial]
  exited := by simp [initial]

variable {worker : Worker}

theorem SupervisorStep.running_before (hsound : before.Sound)
    (hstep : SupervisorStep pidOf before event after) (hrunning : after.life worker = .running) :
    before.life worker = .running ∨ before.life worker = .unstarted := by
  rcases hstep.life_step hsound worker with hsame | hnext
  · exact .inl (hsame ▸ hrunning)
  · rw [hrunning] at hnext
    cases hlife : before.life worker <;> simp [hlife, Life.next] at hnext ⊢

variable {connection : Connection} {handler : Handler}

theorem HasOwner.goHandler (howner : HasOwner state worker)
    (hheld : (state.handler connection).held = some worker → handler.held = some worker) :
    HasOwner (state.goHandler connection handler) worker := by
  refine howner.imp_right ?_
  rintro ⟨other, hother⟩
  by_cases heq : other = connection
  · subst heq
    exact ⟨other, by simpa using hheld hother⟩
  · exact ⟨other, by simpa [update_of_ne heq] using hother⟩

theorem HasOwner.goHandler_of_free (howner : HasOwner state worker)
    (hfree : (state.handler connection).held = none) :
    HasOwner (state.goHandler connection handler) worker :=
  howner.goHandler fun hheld ↦ absurd (hfree.symm.trans hheld) (by simp)

theorem HasOwner.of_owned_subset (howner : HasOwner before worker)
    (hhandler : after.handler = before.handler)
    (howned : worker ∈ before.owned → worker ∈ after.owned) : HasOwner after worker := by
  refine howner.imp howned ?_
  rintro ⟨connection, hheld⟩
  exact ⟨connection, hhandler ▸ hheld⟩

/-- A running worker keeps its owner when exited workers are dropped. -/
theorem HasOwner.prune (hsound : state.Sound) (hlooping : state.control = .looping)
    (howner : HasOwner state worker) (hrunning : state.prune.life worker = .running) :
    HasOwner state.prune worker := by
  refine howner.of_owned_subset rfl fun hmem ↦ ?_
  rw [state.owned_looping hlooping, mem_cons] at hmem
  rw [state.prune.owned_looping hlooping, mem_cons, state.prune_superseded hsound.superseded_nodup,
    mem_filter]
  refine hmem.imp_right fun hmem ↦ ⟨hmem, ?_⟩
  rw [prune_life] at hrunning
  split_ifs at hrunning with hpruned
  simp [hrunning]

/-- One step keeps an owner for every running worker it had one for, by cases on the step. -/
theorem HasOwner.step (hsound : before.Sound) (hcovered : Covered before)
    (hstep : SupervisorStep pidOf before event after)
    (hcontrolError : event = .takeControlError → before.life before.current ≠ .running)
    (howner : HasOwner before worker) (hrunning : after.life worker = .running) :
    HasOwner after worker := by
  cases hstep with
  | interruptStart hcontrol | takeFailure hcontrol | interruptLoop hcontrol =>
    exact howner.of_owned_subset rfl fun hmem ↦ by simpa [owned, hcontrol] using hmem
  | takeReady hcontrol =>
    refine howner.of_owned_subset rfl fun hmem ↦ ?_
    simp only [owned, hcontrol] at hmem
    exact mem_cons.mpr (.inl (mem_singleton.mp hmem))
  | takeExit hcontrol hexited =>
    refine howner.of_owned_subset rfl fun hmem ↦ ?_
    have hearly := hsound.phase.resolve_right fun hlate ↦ hlate.awaitingReady hcontrol
    simp only [owned, hcontrol, hearly.current, mem_singleton] at hmem
    have hreceived := hcovered.exited hexited
    rw [hmem, goControl_life, hreceived] at hrunning
    simp at hrunning
  | @replace connection replacement hcontrol hhandler =>
    have howned : ((before.replace replacement).goHandler connection
      (.replaced replacement)).owned =
        replacement :: (before.prune.superseded ++ [before.current]) :=
      owned_looping _ hcontrol
    rcases HasOwner.prune hsound hcontrol howner hrunning with hmem | ⟨other, hheld⟩
    · rw [before.prune.owned_looping hcontrol] at hmem
      refine .inl ?_
      rw [howned]
      exact mem_cons_of_mem _ ((perm_append_singleton _ _).mem_iff.mpr hmem)
    by_cases heq : other = connection
    · subst heq
      have hheld : (before.handler other).held = some worker := hheld
      rw [hhandler] at hheld
      refine .inl ?_
      rw [howned]
      exact mem_cons.mpr (.inl (Option.some.inj hheld).symm)
    · refine .inr ⟨other, ?_⟩
      simp only [goHandler_handler, update_of_ne heq]
      exact hheld
  | refuseAbort hcontrol hhandler =>
    exact (HasOwner.prune hsound hcontrol howner hrunning).goHandler_of_free
      (congrArg Handler.held hhandler)
  | @acceptAbort connection pid _ _ hcontrol hhandler _ hrest =>
    have hpruned := HasOwner.prune hsound hcontrol howner hrunning
    refine HasOwner.goHandler_of_free (hpruned.of_owned_subset rfl fun hmem ↦ ?_)
      (congrArg Handler.held hhandler)
    rw [before.prune.owned_looping hcontrol, hrest] at hmem
    simp only [owned, SupervisorState.restore]
    simp only [mem_cons, mem_append, not_mem_nil, or_false] at hmem ⊢
    tauto
  | currentExited hcontrol hlife =>
    refine howner.of_owned_subset rfl fun hmem ↦ ?_
    rw [before.owned_looping hcontrol, mem_cons] at hmem
    refine hmem.resolve_left ?_
    rintro rfl
    simp at hrunning
  | takeControlError hcontrol =>
    refine howner.of_owned_subset rfl fun hmem ↦ ?_
    rw [before.owned_looping hcontrol, mem_cons] at hmem
    refine hmem.resolve_left ?_
    rintro rfl
    exact hcontrolError rfl hrunning
  | @stopReceives stopped killed next hcontrol hlife =>
    have hne : worker ≠ stopped := by
      rintro rfl
      rw [(afterStop_frame _ next).1] at hrunning
      simp at hrunning
    cases next with
    | finish =>
      refine howner.of_owned_subset rfl fun hmem ↦ ?_
      simp only [owned, hcontrol] at hmem
      exact absurd (mem_singleton.mp hmem) hne
    | unwind =>
      refine howner.of_owned_subset rfl fun hmem ↦ ?_
      simp only [owned, hcontrol] at hmem
      exact (mem_cons.mp hmem).resolve_left hne
    | answerAbort connection =>
      have hlooping : HasOwner ((before.setLife stopped .received).goControl .looping) worker := by
        refine howner.of_owned_subset rfl fun hmem ↦ ?_
        simp only [owned, hcontrol] at hmem
        exact (mem_cons.mp hmem).resolve_left hne
      simp only [afterStop]
      split
      · rename_i pid hawaiting
        exact hlooping.goHandler_of_free (congrArg Handler.held hawaiting)
      · exact hlooping
  | @stopTimesOut _ next hcontrol =>
    refine howner.of_owned_subset rfl fun hmem ↦ ?_
    cases next <;> simpa [owned, hcontrol] using hmem
  | stopNext hcontrol hsuperseded =>
    refine howner.of_owned_subset rfl fun hmem ↦ ?_
    simp only [owned, hcontrol, hsuperseded] at hmem
    simpa [owned] using hmem
  | closeLoop hcontrol hsuperseded =>
    exact howner.of_owned_subset rfl fun hmem ↦ by simp [owned, hcontrol, hsuperseded] at hmem
  | returns hcontrol =>
    exact howner.of_owned_subset rfl fun hmem ↦ by simp [owned, hcontrol] at hmem
  | @startReplacement connection hhandler =>
    have hstarted : HasOwner (before.setLife before.started .running) worker := howner
    exact hstarted.goHandler_of_free (congrArg Handler.held hhandler)
  | @handlerReceives connection held _ hhandler _ =>
    have hreceived : HasOwner (before.setLife held .received) worker := howner
    refine hreceived.goHandler fun hheld ↦ ?_
    have hheld : (before.handler connection).held = some worker := hheld
    rw [hhandler] at hheld
    obtain rfl : held = worker := Option.some.inj hheld
    simp at hrunning
  | offerEnds hhandler | handlerTimesOut hhandler =>
    refine howner.goHandler fun hheld ↦ ?_
    rwa [hhandler] at hheld
  | accept _ hhandler | answerDirectly _ hhandler | requestAbort _ hhandler | requestEnds hhandler
  | answerReplace hhandler | answerAbort hhandler =>
    exact howner.goHandler_of_free (congrArg Handler.held hhandler)
  | exit | report | readinessEnds | readinessReceives | acceptFails => exact howner

/-- Only a replace request starts a worker. -/
theorem SupervisorStep.started_step (hstep : SupervisorStep pidOf before event after) :
    after.started = before.started ∨ ∃ connection, after = before.startReplacement connection := by
  cases hstep with
  | startReplacement => exact .inr ⟨_, rfl⟩
  | stopReceives => exact .inl (afterStop_frame _ _).2.1
  | _ => exact .inl rfl

theorem SupervisorStep.readiness_step (hstep : SupervisorStep pidOf before event after)
    (hexited : after.readiness = .exitedBeforeReady) :
    before.readiness = .exitedBeforeReady ∨ after.life 0 = .received := by
  cases hstep with
  | readinessEnds success => cases success <;> simp at hexited
  | readinessReceives => exact .inr (by simp)
  | stopReceives =>
    rw [(afterStop_frame _ _).2.2.1] at hexited
    exact .inl hexited
  | _ => exact .inl hexited

theorem startReplacement_life (state : SupervisorState) (connection : Connection)
    (worker : Worker) :
    (state.startReplacement connection).life worker =
      if worker = state.started then .running else state.life worker := by
  simp [SupervisorState.startReplacement, SupervisorState.goHandler, update_apply]

/-- A step keeps every running worker owned, unless a control error is taken while the current one
runs. -/
theorem Covered.step_of_controlError (hcovered : Covered before) (hsound : before.Sound)
    (hstep : SupervisorStep pidOf before event after)
    (hcontrolError : event = .takeControlError → before.life before.current ≠ .running) :
    Covered after where
  running := by
    intro worker hrunning
    rcases hstep.running_before hsound hrunning with hbefore | hunstarted
    · exact (hcovered.running hbefore).step hsound hcovered hstep hcontrolError hrunning
    · -- The worker was started by this step, so its handler holds it.
      have hlt : worker < after.started := (hsound.step hstep).lt_started (by rw [hrunning]; decide)
      have hge : ¬ worker < before.started := fun hlt ↦ hcovered.begun hlt hunstarted
      rcases hstep.started_step with hsame | ⟨connection, rfl⟩
      · exact absurd (hsame ▸ hlt) hge
      refine .inr ⟨connection, ?_⟩
      have hnew : worker = before.started :=
        Nat.le_antisymm (Nat.le_of_lt_succ hlt) (Nat.le_of_not_lt hge)
      simp [SupervisorState.startReplacement, SupervisorState.goHandler, Handler.held, hnew]
  begun := by
    intro worker hlt hunstarted
    have hnever : (before.life worker).next ≠ some .unstarted := by
      cases before.life worker <;> simp [Life.next]
    have hbefore : before.life worker = .unstarted := by
      rcases hstep.life_step hsound worker with hsame | hnext
      · exact hsame ▸ hunstarted
      · exact absurd (hunstarted ▸ hnext) hnever
    rcases hstep.started_step with hsame | ⟨connection, rfl⟩
    · exact hcovered.begun (hsame ▸ hlt) hbefore
    · rw [startReplacement_life] at hunstarted
      split_ifs at hunstarted with hnew
      exact hcovered.begun (Nat.lt_of_le_of_ne (Nat.le_of_lt_succ hlt) hnew) hunstarted
  exited := by
    intro hexited
    rcases hstep.readiness_step hexited with hbefore | hreceived
    · rcases hstep.life_step hsound 0 with hsame | hnext
      · exact hsame.trans (hcovered.exited hbefore)
      · simp [hcovered.exited hbefore, Life.next] at hnext
    · exact hreceived

/-- One orderly step keeps every running worker owned. -/
theorem Covered.step (hcovered : Covered before) (hsound : before.Sound)
    (hstep : SupervisorStep pidOf before event after) (horderly : Orderly before event) :
    Covered after :=
  hcovered.step_of_controlError hsound hstep horderly.controlError

/-- A goroutine that receives, or will receive, from the wait channel of a worker. -/
inductive Waiter
  | supervisor
  | readiness
  | handler (connection : Connection)

/-- Who waits for a worker. The goroutine of `waitForWorkerReady` receives from the first worker's
channel as well, until its wait has ended. -/
def Waits (state : SupervisorState) (worker : Worker) : Waiter → Prop
  | .supervisor => worker ∈ state.owned
  | .readiness => worker = 0 ∧ state.readiness = .waiting
  | .handler connection => (state.handler connection).held = some worker

/-- While the readiness of the first worker is waited for, the goroutine of `SuperviseContext` and
that of the wait are the only ones that wait for it. -/
theorem waits_iff_of_waiting (hsound : state.Sound) (hcovered : Covered state)
    (hrunning : state.life worker = .running) (hwaiting : Waits state worker .readiness)
    (waiter : Waiter) : Waits state worker waiter ↔ waiter = .supervisor ∨ waiter = .readiness := by
  have hunheld (connection : Connection) : (state.handler connection).held ≠ some worker := by
    rw [(hsound.early_of_waiting hwaiting.2).handler connection]
    exact (Option.some_ne_none worker).symm
  cases waiter with
  | supervisor =>
    have howned := (hcovered.running hrunning).resolve_right fun ⟨connection, hheld⟩ ↦
      hunheld connection hheld
    simp [Waits, howned]
  | readiness => simp [hwaiting]
  | handler connection => simp [Waits, hunheld connection]

/-- At any other time a running worker has one waiter. -/
theorem existsUnique_waits (hsound : state.Sound) (hcovered : Covered state)
    (hrunning : state.life worker = .running) (hended : ¬Waits state worker .readiness) :
    ∃! waiter, Waits state worker waiter := by
  rcases hcovered.running hrunning with howned | ⟨connection, hheld⟩
  · refine ⟨.supervisor, howned, fun waiter hwaits ↦ ?_⟩
    cases waiter with
    | supervisor => rfl
    | readiness => exact absurd hwaits hended
    | handler => exact absurd howned (hsound.apart hwaits)
  · refine ⟨.handler connection, hheld, fun waiter hwaits ↦ ?_⟩
    cases waiter with
    | supervisor => exact absurd hwaits (hsound.apart hheld)
    | readiness => exact absurd hwaits hended
    | handler => rw [hsound.distinct hwaits hheld]

/-- In every run exactly one goroutine waits for a running worker, and has it once, for as long as
the loop was not left for an accept error; the first worker has a second waiter, the wait for its
readiness, until that has ended. -/
theorem running_worker_has_one_owner {events : List SupervisorEvent}
    (hrun : Run (SupervisorStep pidOf) initial events state) (herror : .takeControlError ∉ events)
    (hrunning : state.life worker = .running) :
    (Waits state worker .readiness → ∀ waiter,
      Waits state worker waiter ↔ waiter = .supervisor ∨ waiter = .readiness) ∧
    (¬Waits state worker .readiness → ∃! waiter, Waits state worker waiter) ∧
      state.owned.count worker ≤ 1 := by
  obtain ⟨hsound, hcovered⟩ := hrun.invariant_of_mem (fun state ↦ state.Sound ∧ Covered state)
    (fun hmem hbefore hstep ↦ ⟨hbefore.1.step hstep, hbefore.2.step_of_controlError hbefore.1 hstep
      fun hevent ↦ absurd (hevent ▸ hmem) herror⟩) ⟨sound_initial, covered_initial⟩
  exact ⟨waits_iff_of_waiting hsound hcovered hrunning,
    existsUnique_waits hsound hcovered hrunning, nodup_iff_count_le_one.mp hsound.nodup worker⟩

/-- A worker that a control handler has started, and the first one when the start is given up
before it was ready: the stop of it and the wait for its readiness both wait. -/
theorem running_worker_has_one_owner_sample :
    (∃ state, Run (SupervisorStep id) initial
      [.readinessEnds true, .takeReadiness, .accept 0, .startReplacement 0] state ∧
      ∃! waiter, Waits state 1 waiter) ∧
    ∃ state, Run (SupervisorStep id) initial [.interrupt] state ∧
      Waits state 0 .supervisor ∧ Waits state 0 .readiness := by
  have hstarted : Run (SupervisorStep id) initial
      [.readinessEnds true, .takeReadiness, .accept 0, .startReplacement 0] _ :=
    .cons (.readinessEnds true rfl) (.cons (.takeReady rfl rfl) (.cons (.accept rfl rfl)
      (.cons (.startReplacement rfl) .nil)))
  have hgivenUp : Run (SupervisorStep id) initial [.interrupt] _ := .cons (.interruptStart rfl) .nil
  refine ⟨⟨_, hstarted, (running_worker_has_one_owner hstarted (by decide) rfl).2.1 ?_⟩, _,
    hgivenUp,
    ((running_worker_has_one_owner hgivenUp (by decide) rfl).1 ⟨rfl, rfl⟩ _).mpr (.inl rfl), rfl,
    rfl⟩
  rintro ⟨hworker, -⟩
  cases hworker

/-- How `SuperviseContext` can return: from its loop, before the first readiness or after its last
stop. -/
theorem SupervisorStep.returned_step (hstep : SupervisorStep pidOf before event after)
    (hbefore : before.control ≠ .returned) (hafter : after.control = .returned) :
    after.handler = before.handler ∧ (event = .returns ∨ before.control = .awaitingReady ∨
      ∃ worker killed, before.control = .stopping worker killed .finish) := by
  cases hstep with
  | takeExit hcontrol => exact ⟨rfl, .inr (.inl hcontrol)⟩
  | returns => exact ⟨rfl, .inl rfl⟩
  | @stopReceives worker killed next hcontrol _ =>
    rw [(afterStop_frame _ next).2.2.2] at hafter
    cases next with
    | finish => exact ⟨rfl, .inr (.inr ⟨worker, killed, hcontrol⟩)⟩
    | unwind | answerAbort => exact absurd hafter (by simp [AfterStop.control])
  | interruptStart | takeReady | takeFailure | interruptLoop | acceptAbort | currentExited
  | takeControlError | stopTimesOut | stopNext | closeLoop =>
    exact absurd hafter (by simp [SupervisorState.restore])
  | _ => exact absurd hafter hbefore

/-- When `SuperviseContext` returns, no worker is running. -/
theorem not_running_of_returned (hcovered : Covered before) (hsound : before.Sound)
    (hstep : SupervisorStep pidOf before event after) (horderly : Orderly before event)
    (hbefore : before.control ≠ .returned) (hafter : after.control = .returned) (worker : Worker) :
    after.life worker ≠ .running := by
  intro hrunning
  obtain ⟨hhandler, hevent⟩ := hstep.returned_step hbefore hafter
  rcases (hcovered.step hsound hstep horderly).running hrunning with hmem | ⟨connection, hheld⟩
  · simp [owned, hafter] at hmem
  rw [hhandler] at hheld
  -- No handler is there when the start is given up, and none holds a worker after the loop.
  have hnone : (before.handler connection).held = none := by
    rcases hevent with hreturns | hstart
    · exact horderly.returns hreturns connection
    have hearly : before.Early := by
      refine hsound.phase.resolve_right fun hlate ↦ ?_
      rcases hstart with hcontrol | ⟨worker, killed, hcontrol⟩
      · exact hlate.awaitingReady hcontrol
      · exact hlate.finish worker killed hcontrol
    rw [hearly.handler connection]
    rfl
  rw [hnone] at hheld
  simp at hheld

/-! ### Superseded workers -/

/-- The effect of an event on the current worker and the superseded ones. -/
def succeed : Worker × List Worker → SupervisorEvent → Worker × List Worker
  | (current, superseded), .replace _ replacement => (replacement, superseded ++ [current])
  | (_, superseded), .acceptAbort _ restored => (restored, superseded.filter (· ≠ restored))
  | workers, _ => workers

/-- The current worker, and the workers that were superseded and not made current again, the latest
last. -/
def succession (events : List SupervisorEvent) : Worker × List Worker :=
  events.foldl succeed (0, [])

/-- The loop has not been left. -/
def Control.inService : Control → Bool
  | .awaitingReady => true
  | .looping => true
  | .stopping _ _ (.answerAbort _) => true
  | _ => false

/-- The loop's list has the superseded workers whose exit value was not received. -/
def Follows (state : SupervisorState) (workers : Worker × List Worker) : Prop :=
  state.control.inService = true → state.current = workers.1 ∧
    state.superseded = workers.2.filter (fun worker ↦ state.life worker ≠ .received)

theorem mem_owned_of_superseded (hsound : state.Sound) (hservice : state.control.inService = true)
    (hmem : worker ∈ state.superseded) : worker ∈ state.owned := by
  cases hcontrol : state.control with
  | awaitingReady =>
    have hearly := hsound.phase.resolve_right fun hlate ↦ hlate.awaitingReady hcontrol
    simp [hearly.superseded] at hmem
  | looping | unwinding => simp [owned, hcontrol, hmem]
  | stopping _ _ next =>
    cases next with
    | finish => simp [hcontrol, inService] at hservice
    | unwind | answerAbort => simp [owned, hcontrol, hmem]
  | closed | returned => simp [hcontrol, inService] at hservice

namespace Follows

variable {workers : Worker × List Worker}

section

variable (hfollows : Follows before workers)
  (hservice : after.control.inService = true → before.control.inService = true)
  (hcurrent : after.current = before.current) (hsuperseded : after.superseded = before.superseded)
include hfollows hservice hcurrent hsuperseded

/-- The abstract succession still describes a state in which no superseded worker was newly reaped.
-/
theorem frame (hkept : ∀ {worker}, before.life worker = .received → after.life worker = .received)
    (hnew : ∀ {worker}, before.control.inService = true → worker ∈ before.superseded →
      after.life worker = .received → before.life worker = .received) :
    Follows after workers := by
  intro hafter
  obtain ⟨hcurrent', hsuperseded'⟩ := hfollows (hservice hafter)
  refine ⟨hcurrent.trans hcurrent', ?_⟩
  rw [hsuperseded, hsuperseded']
  refine filter_congr fun worker hmem ↦ ?_
  have hiff : before.life worker = .received ↔ after.life worker = .received := by
    refine ⟨hkept, fun hreceived ↦ ?_⟩
    by_contra hother
    refine hother (hnew (hservice hafter) ?_ hreceived)
    rw [hsuperseded']
    exact mem_filter.mpr ⟨hmem, by simpa using hother⟩
  simp [hiff]

theorem frame_same (hlife : after.life = before.life) : Follows after workers :=
  hfollows.frame hservice hcurrent hsuperseded (fun hreceived ↦ hlife ▸ hreceived)
    (fun _ _ hreceived ↦ hlife ▸ hreceived)

theorem frame_update {moved : Worker} {life : Life}
    (hlife : after.life = update before.life moved life) (hbefore : before.life moved ≠ .received)
    (hnew : life = .received → before.control.inService = true → moved ∉ before.superseded) :
    Follows after workers := by
  refine hfollows.frame hservice hcurrent hsuperseded ?_ ?_
  · intro worker hreceived
    have hne : worker ≠ moved := fun heq ↦ hbefore (heq ▸ hreceived)
    rwa [hlife, update_of_ne hne]
  intro worker hin hmem hreceived
  rw [hlife, update_apply] at hreceived
  split_ifs at hreceived with heq
  · exact absurd (heq ▸ hmem) (hnew hreceived hin)
  · exact hreceived

end

/-- Dropping exited workers leaves those of the succession that were not reaped. -/
theorem prune (hfollows : Follows state workers) (hsound : state.Sound)
    (hlooping : state.control = .looping) :
    state.prune.superseded = workers.2.filter
      (fun worker ↦ state.prune.life worker ≠ .received) := by
  have hsuperseded := (hfollows (by simp [hlooping, inService])).2
  rw [state.prune_superseded hsound.superseded_nodup, hsuperseded, filter_filter]
  refine filter_congr fun worker hmem ↦ ?_
  rw [prune_life]
  simp only [hsuperseded, mem_filter]
  cases hlife : state.life worker <;> simp [hmem]

section

variable (hfollows : Follows before workers) (hsound : before.Sound)
include hfollows hsound

/-- A replacement puts the current worker behind the superseded ones. -/
theorem replace (hlooping : before.control = .looping) {replacement : Worker} :
    Follows (before.replace replacement) (succeed workers (.replace connection replacement)) := by
  intro _
  have hcurrent := (hfollows (by simp [hlooping, inService])).1
  refine ⟨rfl, ?_⟩
  -- The exit value of the worker that was current is not received by anybody.
  have hpruned := hsound.prune hlooping
  have hlate := hsound.late_of_looping hlooping
  have hunreceived : before.prune.life before.current ≠ .received := by
    refine hpruned.unreceived ⟨hlate.1, hlate.2, hlate.3⟩ ?_
    rw [before.prune.owned_looping hlooping]
    exact mem_cons_self
  calc (before.replace replacement).superseded = before.prune.superseded ++ [before.current] := rfl
    _ = (workers.2 ++ [before.current]).filter
      (fun worker ↦ before.prune.life worker ≠ .received) := by
        rw [filter_append, filter_cons_of_pos (by simpa using hunreceived), filter_nil,
          hfollows.prune hsound hlooping]
    _ = _ := by
        rw [hcurrent]
        rfl

/-- An abort makes the last superseded worker current again. -/
theorem restore (hlooping : before.control = .looping) {rest : List Worker} {restored : Worker}
    (hrest : before.prune.superseded = rest ++ [restored]) :
    Follows (before.restore connection rest restored)
      (succeed workers (.acceptAbort connection restored)) := by
  intro _
  refine ⟨rfl, ?_⟩
  have hprune := hfollows.prune hsound hlooping
  have hnodup := (hsound.prune hlooping).superseded_nodup
  rw [hrest] at hnodup hprune
  have hnotMem : restored ∉ rest := by
    intro hmem
    exact (nodup_append.mp hnodup).2.2 _ hmem _ (mem_singleton_self _) rfl
  calc rest = (rest ++ [restored]).filter (· ≠ restored) := by
        rw [filter_append, filter_cons_of_neg (by simp), filter_nil, append_nil]
        refine (filter_eq_self.mpr fun worker hmem ↦ ?_).symm
        have hne : worker ≠ restored := fun heq ↦ hnotMem (heq ▸ hmem)
        simpa using hne
    _ = (workers.2.filter (· ≠ restored)).filter
      (fun worker ↦ before.prune.life worker ≠ .received) := by
        rw [hprune, filter_comm]

/-- One step of the supervisor is one step of the succession. -/
theorem step (hstep : SupervisorStep pidOf before event after) :
    Follows after (succeed workers event) := by
  cases hstep with
  | replace hcontrol => exact hfollows.replace hsound hcontrol
  | acceptAbort hcontrol _ _ hrest => exact hfollows.restore hsound hcontrol hrest
  | refuseAbort hcontrol =>
    intro _
    exact ⟨(hfollows (by simp [hcontrol, inService])).1, hfollows.prune hsound hcontrol⟩
  | exit hlife | report hlife =>
    exact hfollows.frame_update id rfl rfl rfl (by simp [hlife]) (by simp)
  | startReplacement =>
    refine hfollows.frame_update id rfl rfl rfl ?_ (by simp)
    rw [hsound.unstarted _ (Nat.le_refl _)]
    decide
  | readinessReceives hwaiting hlife =>
    refine hfollows.frame_update id rfl rfl rfl (by simp [hlife]) fun _ _ hmem ↦ ?_
    simp [(hsound.early_of_waiting hwaiting).superseded] at hmem
  | handlerReceives hhandler hlife =>
    refine hfollows.frame_update id rfl rfl rfl (by simp [hlife]) fun _ hservice hmem ↦ ?_
    exact hsound.apart (by rw [hhandler]; rfl) (mem_owned_of_superseded hsound hservice hmem)
  | @stopReceives stopped _ next hcontrol hlife =>
    cases next with
    | finish | unwind => exact fun hservice ↦ absurd hservice (by simp [afterStop, inService])
    | answerAbort =>
      have hnotMem : stopped ∉ before.superseded := by
        have hnodup := hsound.nodup
        simp only [owned, hcontrol, nodup_cons, mem_cons, not_or] at hnodup
        exact hnodup.1.2
      have hlooping : Follows ((before.setLife stopped .received).goControl .looping) workers :=
        hfollows.frame_update (fun _ ↦ by simp [hcontrol, inService]) rfl rfl rfl
          (by simp [hlife]) (fun _ _ ↦ hnotMem)
      simp only [afterStop]
      split <;> exact hlooping
  | takeReady hcontrol =>
    exact hfollows.frame_same (fun _ ↦ by simp [hcontrol, inService]) rfl rfl rfl
  | @stopTimesOut _ next hcontrol =>
    refine hfollows.frame_same (fun hservice ↦ ?_) rfl rfl rfl
    rw [hcontrol]
    cases next <;> exact hservice
  | interruptStart | takeFailure | takeExit | interruptLoop | currentExited | takeControlError
  | stopNext | closeLoop | returns => exact fun hservice ↦ absurd hservice (by simp [inService])
  | _ => exact hfollows.frame_same id rfl rfl rfl

/-- An abort restores the last superseded worker that is still running. -/
theorem restored_last (hcovered : Covered before) {restored : Worker}
    (hstep : SupervisorStep pidOf before (.acceptAbort connection restored) after)
    (horderly : Orderly before (.acceptAbort connection restored)) :
    after.current = restored ∧ before.life restored = .running ∧
      ∃ earlier later, workers.2 = earlier ++ restored :: later ∧
        ∀ worker ∈ later, before.life worker ≠ .running := by
  cases hstep with
  | @acceptAbort _ _ _ _ hcontrol _ _ hrest =>
    have hprune := hfollows.prune hsound hcontrol
    have hmem : restored ∈ before.prune.superseded := by
      rw [hrest]
      exact mem_append_right _ (mem_singleton_self _)
    refine ⟨rfl, ?_, ?_⟩
    · rw [before.prune_superseded hsound.superseded_nodup, mem_filter] at hmem
      have howned : restored ∈ before.owned := by
        rw [before.owned_looping hcontrol]
        exact mem_cons_of_mem _ hmem.1
      have hlate := hsound.late_of_looping hcontrol
      have hexited := horderly.abort rfl restored hmem.1
      have hbegun := hcovered.begun (hsound.owned_started restored howned)
      have hunreceived := hsound.unreceived hlate howned
      cases hlife : before.life restored <;> simp_all
    rw [hrest] at hprune
    obtain ⟨earlier, _, hworkers, _, htail⟩ := filter_eq_append_iff.mp hprune.symm
    obtain ⟨skipped, later, htail', _, _, hlater⟩ := filter_eq_cons_iff.mp htail
    refine ⟨earlier ++ skipped, later, by rw [hworkers, htail', append_assoc], ?_⟩
    intro worker hmem hrunning
    have hreceived := filter_eq_nil_iff.mp hlater worker hmem
    have hpruned : before.prune.life worker = .received := by simpa using hreceived
    rw [prune_life, hrunning] at hpruned
    simp at hpruned

end

end Follows

/-! ### Answers -/

/-- An abort request that the loop has received is the one whose worker the loop is stopping. -/
def Paired (state : SupervisorState) : Prop :=
  ∀ connection pid, state.handler connection = .awaiting pid →
    ∃ worker killed, state.control = .stopping worker killed (.answerAbort connection)

theorem Paired.goHandler (hpaired : Paired before) {moved : Connection}
    (hcontrol : after.control = before.control)
    (hafter : after.handler = update before.handler moved handler)
    (hhandler : ∀ pid, handler ≠ .awaiting pid) : Paired after := by
  intro connection pid hawaiting
  rw [hcontrol]
  rw [hafter, update_apply] at hawaiting
  split_ifs at hawaiting
  · exact absurd hawaiting (hhandler pid)
  · exact hpaired connection pid hawaiting

/-- One step keeps each accepted abort with the stop that it waits for. -/
theorem Paired.step (hpaired : Paired before) (hstep : SupervisorStep pidOf before event after) :
    Paired after := by
  cases hstep with
  | @acceptAbort aborting pid _ _ hcontrol _ =>
    intro connection pid hawaiting
    by_cases heq : connection = aborting
    · subst heq
      exact ⟨before.current, false, rfl⟩
    · -- No other request was received before: the loop was waiting.
      rw [goHandler_handler, update_of_ne heq] at hawaiting
      obtain ⟨worker, killed, hother⟩ := hpaired connection pid hawaiting
      exact absurd (hcontrol.symm.trans hother) (by simp)
  | @stopReceives stopped killed next hcontrol _ =>
    intro connection pid hawaiting
    have hnext : ∀ {pid}, before.handler connection = .awaiting pid →
        next = .answerAbort connection := by
      intro pid hbefore
      obtain ⟨worker, killed, hother⟩ := hpaired connection pid hbefore
      rw [hcontrol] at hother
      injection hother
    cases next with
    | finish | unwind => exact absurd (hnext hawaiting) (by simp)
    | answerAbort aborting =>
      simp only [afterStop] at hawaiting
      split at hawaiting
      · rw [goHandler_handler, update_apply] at hawaiting
        split_ifs at hawaiting with heq
        injection hnext hawaiting with heq'
        exact absurd heq'.symm heq
      · rename_i hother
        injection hnext hawaiting with heq
        exact absurd (heq ▸ hawaiting) (hother pid)
  | @stopTimesOut stopped _ hcontrol =>
    intro connection pid hawaiting
    obtain ⟨worker, killed, hother⟩ := hpaired connection pid hawaiting
    rw [hcontrol] at hother
    injection hother with _ _ hnext
    exact ⟨stopped, true, by rw [hnext]; rfl⟩
  | interruptStart hcontrol | takeReady hcontrol | takeFailure hcontrol | takeExit hcontrol
  | interruptLoop hcontrol | currentExited hcontrol | takeControlError hcontrol | stopNext hcontrol
  | closeLoop hcontrol | returns hcontrol =>
    intro connection pid hawaiting
    obtain ⟨_, _, hother⟩ := hpaired connection pid hawaiting
    exact absurd (hcontrol.symm.trans hother) (by simp)
  | replace | refuseAbort | accept | answerDirectly | startReplacement | requestAbort | offerEnds
  | requestEnds | handlerReceives | handlerTimesOut | answerReplace | answerAbort =>
    exact hpaired.goHandler rfl rfl (by simp)
  | exit | report | readinessEnds | readinessReceives | acceptFails => exact hpaired

/-- The loop has done its part of the request. -/
def Handler.answerable : Handler → Bool
  | .replaced _ => true
  | .decided _ _ => true
  | _ => false

/-- The response has been written. -/
def Handler.isAnswered : Handler → Bool
  | .answered _ => true
  | _ => false

/-- The loop has received the request of this connection, and the response has not been written. -/
def Handler.accepted : Handler → Bool
  | .awaiting _ => true
  | handler => handler.answerable

/-- A handler that can answer stays so until it does. -/
theorem SupervisorStep.answerable_step (hstep : SupervisorStep pidOf before event after)
    (hanswerable : (before.handler connection).answerable = true) :
    (after.handler connection).isAnswered = true ∨
      (event ≠ .answer connection ∧ (after.handler connection).answerable = true) := by
  rcases hstep.handler_goesOn connection with hgoes | ⟨hevent, hsame⟩
  · cases hhandler : before.handler connection with
    | replaced | decided =>
      rw [hhandler] at hgoes
      obtain ⟨-, _, hanswered⟩ := hgoes
      exact .inl (by rw [hanswered]; rfl)
    | _ => simp [hhandler, Handler.answerable] at hanswerable
  · exact .inr ⟨hevent.1, hsame ▸ hanswerable⟩

/-- A handler that awaits its abort goes on awaiting until it can answer. -/
theorem SupervisorStep.awaiting_step (hstep : SupervisorStep pidOf before event after) {pid : ℕ}
    (hawaiting : before.handler connection = .awaiting pid) :
    after.handler connection = .awaiting pid ∨ (after.handler connection).answerable = true := by
  rcases hstep.handler_goesOn connection with hgoes | ⟨-, hsame⟩
  · rw [hawaiting] at hgoes
    exact .inr (by rw [hgoes.2]; rfl)
  · exact .inl (hsame.trans hawaiting)

/-- A supervisor that has become ready stays past its start. -/
theorem SupervisorState.Late.step (hlate : before.Late)
    (hstep : SupervisorStep pidOf before event after) : after.Late := by
  obtain ⟨hready, hawaiting, hfinish⟩ := hlate
  cases hstep with
  | readinessEnds _ hwaiting | readinessReceives hwaiting =>
    exact absurd (hready.symm.trans hwaiting) (by simp)
  | interruptStart hcontrol | takeReady hcontrol | takeFailure hcontrol | takeExit hcontrol =>
    exact absurd hcontrol hawaiting
  | @stopReceives stopped killed next hcontrol _ =>
    obtain ⟨-, -, hreadiness, hnext⟩ := afterStop_frame _ next
    refine ⟨hreadiness.trans hready, ?_, ?_⟩ <;> rw [hnext] <;> cases next <;>
      simp [AfterStop.control]
  | @stopTimesOut stopped _ hcontrol =>
    refine ⟨hready, by simp, fun worker killed hother ↦ ?_⟩
    simp only [goControl_control, stopping.injEq] at hother
    exact hfinish stopped false (hother.2.2 ▸ hcontrol)
  | interruptLoop | acceptAbort | currentExited | takeControlError | stopNext | closeLoop
  | returns =>
    exact ⟨hready, by simp [SupervisorState.restore], by simp [SupervisorState.restore]⟩
  | _ => exact ⟨hready, hawaiting, hfinish⟩

section

variable (execution : Execution (SupervisorStep pidOf)) {time : ℕ}

/-- A goroutine that can go on does so, a timer runs out, and a killed process exits. -/
structure FairExecution : Prop where
  reports : ∀ worker, execution.Fair {.report worker}
  receives : ∀ caller, execution.Fair {.stopReceives caller}
  timesOut : execution.Fair {.stopTimesOut .supervisor}
  answers : ∀ connection, execution.Fair {.answer connection}
  kills : ∀ {time worker next}, (execution.state time).control = .stopping worker true next →
    ∃ later, time ≤ later ∧ (execution.state later).life worker ≠ .running

variable {execution} {later : ℕ}

theorem stops_until (hstops : (execution.state time).stops .supervisor = some worker)
    (hlater : time ≤ later) :
    (∃ middle, time ≤ middle ∧ (execution.state middle).stops .supervisor = none) ∨
      (execution.state later).stops .supervisor = some worker := by
  by_contra hnot
  rw [not_or] at hnot
  refine hnot.2 (execution.invariant_from
    (fun state ↦ state.stops .supervisor = some worker) ?_ hstops hlater)
  intro middle _ hmiddle hevent hstops
  rcases (execution.steps hevent).stops_step hstops with ⟨_, hnone⟩ | ⟨_, hsome⟩
  · exact absurd ⟨middle + 1, Nat.le_succ_of_le hmiddle, hnone⟩ hnot.1
  · exact hsome

theorem begun_later (hsound : ∀ later, (execution.state later).Sound)
    (hbegun : (execution.state time).life worker ≠ .unstarted) (hlater : time ≤ later) :
    (execution.state later).life worker ≠ .unstarted := by
  refine execution.invariant_from (fun state ↦ state.life worker ≠ .unstarted) ?_ hbegun hlater
  intro now _ _ hevent hbegun hunstarted
  rcases (execution.steps hevent).life_step (hsound now) worker with hsame | hnext
  · exact hbegun (hsame ▸ hunstarted)
  · rw [hunstarted] at hnext
    cases hlife : (execution.state now).life worker <;> simp [hlife, Life.next] at hnext

variable (hfair : FairExecution execution) (hsound : ∀ later, (execution.state later).Sound)
include hfair hsound

/-- A stop that has killed its worker returns. -/
theorem returns_of_killed (hlate : ∀ later, time ≤ later → (execution.state later).Late)
    {next : AfterStop} (hcontrol : (execution.state time).control = .stopping worker true next)
    (hbegun : (execution.state time).life worker ≠ .unstarted) :
    ∃ later, time ≤ later ∧ (execution.state later).stops .supervisor = none := by
  have hstops : (execution.state time).stops .supervisor = some worker :=
    stopped_eq_some.mpr ⟨true, next, hcontrol⟩
  obtain ⟨middle, hmiddle, _⟩ := hfair.kills hcontrol
  rcases stops_until hstops hmiddle with hreturned | hstops
  · exact hreturned
  have hbegun := begun_later hsound hbegun hmiddle
  have hunreceived : ∀ later, middle ≤ later →
    (execution.state later).stops .supervisor = some worker →
      (execution.state later).life worker ≠ .received := by
    intro later hlater hstops
    obtain ⟨_, next, hcontrol⟩ := stopped_eq_some.mp hstops
    refine (hsound later).unreceived (hlate later (hmiddle.trans hlater)) ?_
    cases next <;> simp [owned, hcontrol]
  have hhasExited : ((execution.state middle).life worker).hasExited = true := by
    cases hlife : (execution.state middle).life worker <;> simp_all [Life.hasExited]
  obtain ⟨later, hlater, hnone⟩ := returns_of_exited execution (hfair.reports worker)
    (hfair.receives .supervisor) hsound hunreceived hstops hhasExited
  exact ⟨later, hmiddle.trans hlater, hnone⟩

/-- A stop returns: the worker exits in time, or it is killed. -/
theorem returns_of_stopping (hlate : ∀ later, time ≤ later → (execution.state later).Late)
    {killed : Bool} {next : AfterStop}
    (hcontrol : (execution.state time).control = .stopping worker killed next)
    (hbegun : (execution.state time).life worker ≠ .unstarted) :
    ∃ later, time ≤ later ∧ (execution.state later).stops .supervisor = none := by
  cases killed with
  | true => exact returns_of_killed hfair hsound hlate hcontrol hbegun
  | false =>
    -- The timer runs out, unless the exit value is there before.
    have htimesOut : ∃ later, time ≤ later ∧
      ((execution.state later).control = .stopping worker true next ∨
          (execution.state later).control.stopped = none) := by
      refine execution.eventually_of_fair hfair.timesOut
        (fun state ↦ state.control = .stopping worker false next)
        (fun state ↦ state.control = .stopping worker true next ∨ state.control.stopped = none)
        ?_ ?_ hcontrol
      · intro _ _ _ hevent hnow
        rcases (execution.steps hevent).stopping_step hnow with ⟨_,
          hnone⟩ | ⟨_, hkilled⟩ | ⟨_, hsame⟩
        · exact .inl (.inr hnone)
        · exact .inl (.inl hkilled)
        · exact .inr hsame
      · exact fun hnow ↦ ⟨_, rfl, _, .stopTimesOut hnow⟩
    obtain ⟨middle, hmiddle, hkilled | hnone⟩ := htimesOut
    · obtain ⟨later, hlater, hnone⟩ := returns_of_killed hfair hsound
        (fun later hlater ↦ hlate later (hmiddle.trans hlater)) hkilled
        (begun_later hsound hbegun hmiddle)
      exact ⟨later, hmiddle.trans hlater, hnone⟩
    · exact ⟨middle, hmiddle, hnone⟩

omit hsound in
theorem answered_of_answerable
    (hanswerable : ((execution.state time).handler connection).answerable = true) :
    ∃ later, time ≤ later ∧ ((execution.state later).handler connection).isAnswered = true := by
  refine execution.eventually_of_fair (hfair.answers connection)
    (fun state ↦ (state.handler connection).answerable = true)
    (fun state ↦ (state.handler connection).isAnswered = true)
    (fun _ hevent ↦ (execution.steps hevent).answerable_step) ?_ hanswerable
  intro now hnow
  cases hhandler : (execution.state now).handler connection with
  | replaced => exact ⟨_, rfl, _, .answerReplace hhandler⟩
  | decided => exact ⟨_, rfl, _, .answerAbort hhandler⟩
  | _ => simp [hhandler, Handler.answerable] at hnow

/-- Every accepted request is answered. -/
theorem answered_of_accepted (hcovered : Covered (execution.state time))
    (hpaired : ∀ later, Paired (execution.state later))
    (haccepted : ((execution.state time).handler connection).accepted = true) :
    ∃ later, time ≤ later ∧ ((execution.state later).handler connection).isAnswered = true := by
  cases hhandler : (execution.state time).handler connection with
  | awaiting pid =>
    obtain ⟨worker, killed, hcontrol⟩ := hpaired time connection pid hhandler
    have hlate : ∀ later, time ≤ later → (execution.state later).Late := by
      intro later hlater
      refine execution.invariant_from Late
        (fun _ hevent hlate ↦ hlate.step (execution.steps hevent))
        ((hsound time).late_of_handler hhandler (by simp)) hlater
    have hbegun : (execution.state time).life worker ≠ .unstarted := by
      refine hcovered.begun ((hsound time).owned_started worker ?_)
      simp [owned, hcontrol]
    obtain ⟨middle, hmiddle, hnone⟩ := returns_of_stopping hfair hsound hlate hcontrol hbegun
    by_contra hnever
    -- Without an answer the handler waits until the outcome is there.
    have hpending : (execution.state middle).handler connection = .awaiting pid ∨
        ((execution.state middle).handler connection).answerable = true := by
      refine execution.invariant_from (fun state ↦ state.handler connection = .awaiting pid ∨
        (state.handler connection).answerable = true) ?_ (.inl hhandler) hmiddle
      rintro now _ hnow hevent (hawaiting | hanswerable)
      · exact (execution.steps hevent).awaiting_step hawaiting
      · rcases (execution.steps hevent).answerable_step hanswerable with hanswered | ⟨_, hlater⟩
        · exact absurd ⟨now + 1, Nat.le_succ_of_le hnow, hanswered⟩ hnever
        · exact .inr hlater
    rcases hpending with hawaiting | hanswerable
    · obtain ⟨_, _, hcontrol⟩ := hpaired middle connection pid hawaiting
      rw [stops, hcontrol] at hnone
      exact absurd hnone (by simp [stopped])
    · obtain ⟨later, hlater, hanswered⟩ := answered_of_answerable hfair hanswerable
      exact hnever ⟨later, hmiddle.trans hlater, hanswered⟩
  | _ =>
    refine answered_of_answerable hfair ?_
    rw [hhandler] at haccepted ⊢
    exact haccepted

end

/-! ### The whole run -/

/-- In every fair execution whose steps are orderly: when `SuperviseContext` returns no worker is
running, an accepted abort request restores the latest superseded worker that is still running, and
every request that the loop has received is answered. -/
theorem supervised_workers_stopped_restored_answered (execution : Execution (SupervisorStep pidOf))
    (hinitial : execution.state 0 = initial) (hfair : FairExecution execution)
    (horderly : ∀ {time event}, execution.event time = some event →
      Orderly (execution.state time) event) :
    (∀ time, (execution.state time).control ≠ .returned →
      (execution.state (time + 1)).control = .returned →
      ∀ worker, (execution.state (time + 1)).life worker ≠ .running) ∧
    (∀ time connection restored, execution.event time = some (.acceptAbort connection restored) →
      (execution.state (time + 1)).current = restored ∧
      (execution.state time).life restored = .running ∧
      ∃ earlier later, (succession (execution.eventsBefore time)).2 = earlier ++ restored :: later ∧
        ∀ worker ∈ later, (execution.state time).life worker ≠ .running) ∧
    (∀ time connection, ((execution.state time).handler connection).accepted = true →
      ∃ later, time ≤ later ∧ ((execution.state later).handler connection).isAnswered = true) := by
  have hsound : ∀ time, (execution.state time).Sound :=
    execution.invariant Sound (fun hsound hstep ↦ hsound.step hstep) (hinitial ▸ sound_initial)
  have hcovered : ∀ time, Covered (execution.state time) := by
    intro time
    refine execution.invariant_from Covered ?_ (hinitial ▸ covered_initial) (Nat.zero_le time)
    intro now event _ hevent hcovered
    exact hcovered.step (hsound now) (execution.steps hevent) (horderly hevent)
  have hpaired : ∀ time, Paired (execution.state time) := by
    refine execution.invariant Paired (fun hpaired hstep ↦ hpaired.step hstep) ?_
    rw [hinitial]
    exact fun _ _ hawaiting ↦ absurd hawaiting (by simp [initial])
  have hfollows : ∀ time, Follows (execution.state time)
      (succession (execution.eventsBefore time)) := by
    intro time
    induction time with
    | zero =>
      rw [hinitial]
      exact fun _ ↦ ⟨rfl, rfl⟩
    | succ time ih =>
      rw [Execution.eventsBefore]
      cases hevent : execution.event time with
      | none => simpa [execution.pauses hevent] using ih
      | some event =>
        have hstep := ih.step (hsound time) (execution.steps hevent)
        rwa [succession, foldl_append]
  refine ⟨?_, ?_, ?_⟩
  · intro time hbefore hafter
    cases hevent : execution.event time with
    | none => exact absurd (execution.pauses hevent ▸ hafter) hbefore
    | some =>
      exact not_running_of_returned (hcovered time) (hsound time) (execution.steps hevent)
        (horderly hevent) hbefore hafter
  · intro time connection _ hevent
    exact (hfollows time).restored_last (hsound time) (hcovered time) (execution.steps hevent)
      (horderly hevent)
  · intro time _ haccepted
    exact answered_of_accepted hfair hsound (hcovered time) hpaired haccepted

/-- A replacement takes over and an abort restores the first worker; a signal arrives, that worker
exits too, and `SuperviseContext` returns. -/
theorem supervised_workers_stopped_after_replacement :
    ∃ execution : Execution (SupervisorStep id), execution.event 8 = some (.acceptAbort 1 0) ∧
      execution.event 18 = some .returns ∧
      ((∀ time, (execution.state time).control ≠ .returned →
        (execution.state (time + 1)).control = .returned →
        ∀ worker, (execution.state (time + 1)).life worker ≠ .running) ∧
      (∀ time connection restored, execution.event time = some (.acceptAbort connection restored) →
        (execution.state (time + 1)).current = restored ∧
        (execution.state time).life restored = .running ∧
        ∃ earlier later, (succession (execution.eventsBefore time)).2 = earlier ++ restored ::
          later ∧ ∀ worker ∈ later, (execution.state time).life worker ≠ .running) ∧
      (∀ time connection, ((execution.state time).handler connection).accepted = true →
        ∃ later, time ≤ later ∧ ((execution.state later).handler connection).isAnswered =
          true)) := by
  have hfront : Run (SupervisorStep id) initial
      [.readinessEnds true, .takeReadiness, .accept 0, .startReplacement 0, .replace 0 1, .answer 0,
        .accept 1, .requestAbort 1] _ :=
    .cons (.readinessEnds true rfl) (.cons (.takeReady rfl rfl) (.cons (.accept rfl rfl)
      (.cons (.startReplacement rfl) (.cons (.replace rfl rfl) (.cons (.answerReplace rfl)
      (.cons (.accept rfl rfl) (.cons (.requestAbort 1 rfl) .nil)))))))
  obtain ⟨execution, hzero, hevents, hmiddle, hlast⟩ := Execution.exists_of_runs hfront
    (show Run (SupervisorStep id) _ [.acceptAbort 1 0, .exit 1, .report 1,
      .stopReceives .supervisor,
      .answer 1, .interrupt, .exit 0, .report 0, .stopReceives .supervisor,
      .closeLoop, .returns] _ by
      exact .cons (.acceptAbort rfl rfl rfl (List.nil_append [0]).symm) (.cons (.exit rfl)
        (.cons (.report rfl) (.cons (.stopReceives rfl rfl) (.cons (.answerAbort rfl)
        (.cons (.interruptLoop rfl) (.cons (.exit rfl) (.cons (.report rfl)
        (.cons (.stopReceives rfl rfl)
          (.cons (.closeLoop rfl rfl) (.cons (.returns rfl) .nil)))))))))))
  -- At the end both exit values were received, and both requests were answered.
  have hcontrol : ∀ time, 19 ≤ time → (execution.state time).control = .returned := by
    intro time htime
    rw [hlast time htime]
    rfl
  have hlife : ∀ time, 19 ≤ time → ∀ worker, (execution.state time).life worker = .received ∨
      (execution.state time).life worker = .unstarted := by
    intro time htime worker
    rw [hlast time htime]
    match worker with
    | 0 => exact .inl rfl
    | 1 => exact .inl rfl
    | worker + 2 => exact .inr rfl
  have hhandler : ∀ time, 19 ≤ time → ∀ connection,
      (∃ response, (execution.state time).handler connection = .answered response) ∨
        (execution.state time).handler connection = .absent := by
    intro time htime connection
    rw [hlast time htime]
    match connection with
    | 0 => exact .inl ⟨_, rfl⟩
    | 1 => exact .inl ⟨_, rfl⟩
    | connection + 2 => exact .inr rfl
  have hfair : FairExecution execution := by
    constructor
    · intro worker
      refine execution.fair_of_disabled 19 fun time htime event hevent after hstep ↦ ?_
      rw [hevent] at hstep
      cases hstep with
      | report hexited => rcases hlife time htime worker with h | h <;> simp [h] at hexited
    · intro caller
      refine execution.fair_of_disabled 19 fun time htime event hevent after hstep ↦ ?_
      rw [hevent] at hstep
      cases hstep with
      | stopReceives hstopping => simp [hcontrol time htime] at hstopping
      | @handlerReceives connection _ _ hstopping =>
        rcases hhandler time htime connection with ⟨_, h⟩ | h <;> simp [h] at hstopping
    · refine execution.fair_of_disabled 19 fun time htime event hevent after hstep ↦ ?_
      rw [hevent] at hstep
      cases hstep with
      | stopTimesOut hstopping => simp [hcontrol time htime] at hstopping
    · intro connection
      refine execution.fair_of_disabled 19 fun time htime event hevent after hstep ↦ ?_
      rw [hevent] at hstep
      cases hstep with
      | answerReplace hreplaced =>
        rcases hhandler time htime connection with ⟨_, h⟩ | h <;> simp [h] at hreplaced
      | answerAbort hdecided =>
        rcases hhandler time htime connection with ⟨_, h⟩ | h <;> simp [h] at hdecided
    · intro time worker next _
      refine ⟨max time 19, le_max_left time 19, ?_⟩
      rcases hlife _ (le_max_right time 19) worker with h | h <;> simp [h]
  refine ⟨execution, by rw [hevents]; rfl, by rw [hevents]; rfl,
    supervised_workers_stopped_restored_answered execution hzero hfair ?_⟩
  intro time _ hevent
  rw [hevents] at hevent
  have hmem := mem_of_getElem? hevent
  refine ⟨?_, ?_, ?_⟩
  · rintro rfl
    simp at hmem
  · rintro rfl connection
    -- The return is the last event; it changes no handler, and both have answered.
    have hlt : time < 19 := (List.getElem?_eq_some_iff.mp hevent).1
    have htime : time = 18 := by
      revert hevent
      revert time
      decide
    have hsame {before after : SupervisorState} (hstep : SupervisorStep id before .returns after) :
        after.handler = before.handler := by
      cases hstep
      rfl
    rw [← hsame (execution.steps ((hevents time).trans hevent))]
    rcases hhandler (time + 1) (by omega) connection with ⟨_, h⟩ | h <;> rw [h] <;> rfl
  · rintro _ _ rfl worker hworker
    have hlt : time < 19 := (List.getElem?_eq_some_iff.mp hevent).1
    have htime : time = 8 := by
      clear hworker
      interval_cases time <;> first | rfl | simp at hevent
    have hmiddle : execution.state 8 = _ := hmiddle
    rw [htime, hmiddle] at hworker ⊢
    obtain rfl : worker = 0 := List.mem_singleton.mp hworker
    exact Life.noConfusion

/-- After an accept error, and during a replace request, a worker is still running when
`SuperviseContext` returns. -/
theorem worker_running_after_return :
    (∃ state, Run (SupervisorStep id) initial [.readinessEnds true, .takeReadiness, .acceptFails,
      .takeControlError, .closeLoop, .returns] state ∧ state.life 0 = .running) ∧
    (∃ state, Run (SupervisorStep id) initial [.readinessEnds true, .takeReadiness, .accept 0,
      .startReplacement 0, .interrupt, .exit 0, .report 0, .stopReceives .supervisor, .closeLoop,
      .returns] state ∧ state.life 1 = .running) := by
  refine ⟨⟨_, .cons (.readinessEnds true rfl) (.cons (.takeReady rfl rfl) (.cons (.acceptFails rfl)
    (.cons (.takeControlError rfl rfl) (.cons (.closeLoop rfl rfl) (.cons (.returns rfl) .nil))))),
    rfl⟩, ⟨_, .cons (.readinessEnds true rfl) (.cons (.takeReady rfl rfl) (.cons (.accept rfl rfl)
    (.cons (.startReplacement rfl)
      (.cons (.interruptLoop rfl) (.cons (.exit rfl) (.cons (.report rfl)
    (.cons (.stopReceives rfl rfl) (.cons (.closeLoop rfl rfl) (.cons (.returns rfl) .nil))))))))),
    rfl⟩⟩

end Clyde.DaemonSupervisor
