import Clyde.Foundation.LabelledRun
import Mathlib.Order.Nat

/-!
# The daemon supervisor

`internal/daemonsupervisor/supervisor.go`: `SuperviseContext` starts a worker, waits until it is
ready, and runs `runSupervisorLoop`, while `serveControl` answers each control connection in a
goroutine (`handleControl`).

`SupervisorStep` is one step of one of these goroutines, of a worker process, or of the goroutine
that waits for it, so `Run SupervisorStep` has all interleavings. `Life` is a worker process with
the one value that its wait goroutine puts in `waitCh`.

Scope. The steps before the first worker are left out. Readiness, signals, cancellation, deadlines
and requests are possible at any time. Requests that touch no worker get an arbitrary response.
Fingerprints, command lines and environments are left out, and process ids are an arbitrary function
of the worker.
-/

set_option autoImplicit false

namespace Clyde.DaemonSupervisor

open Foundation

/-- A worker, by the order in which the workers were started. -/
abbrev Worker := ℕ

abbrev Connection := ℕ

/-- A worker process and its exit value. -/
inductive Life
  | unstarted
  | running
  /-- The process has exited, and `cmd.Wait` has not returned yet. -/
  | exited
  /-- The exit value is in `waitCh`. -/
  | reported
  /-- The exit value was received from `waitCh`. -/
  | received
  deriving DecidableEq

/-- The goroutine of `waitForWorkerReady`, with what it has put in `readyCh`. -/
inductive Readiness
  | waiting
  | ready
  /-- The pipe was closed without the readiness text, or the deadline passed. -/
  | failed
  /-- `errWorkerExitedBeforeReady`: the exit value was received here. -/
  | exitedBeforeReady
  deriving DecidableEq

/-- What follows a call of `stopWorker` in the goroutine of `SuperviseContext`. -/
inductive AfterStop
  /-- The startup is given up. -/
  | finish
  /-- The loop is being left: the deferred stops of the superseded workers follow. -/
  | unwind
  /-- The loop sends the outcome of an abort request. -/
  | answerAbort (connection : Connection)
  deriving DecidableEq

/-- Where the goroutine of `SuperviseContext` is. -/
inductive Control
  /-- In the `select` that waits for the first worker. -/
  | awaitingReady
  /-- In the `select` of `runSupervisorLoop`. -/
  | looping
  /-- In `stopWorker`, before or after the kill. -/
  | stopping (worker : Worker) (killed : Bool) (next : AfterStop)
  /-- Between the deferred stops. -/
  | unwinding
  /-- `loopDone` is closed. -/
  | closed
  | returned
  deriving DecidableEq

structure ControlResponse where
  pid : ℕ
  error : String
  deriving DecidableEq

/-- Where a control connection is. -/
inductive Handler
  | absent
  | reading
  /-- A replacement was started and is offered on `replacementCh`. -/
  | offering (worker : Worker)
  /-- The loop has received the replacement. -/
  | replaced (worker : Worker)
  /-- In `stopWorker`, before or after the kill. -/
  | stopping (worker : Worker) (killed : Bool)
  /-- An abort request is offered on `abortCh`. -/
  | requesting (pid : ℕ)
  /-- The loop has received the abort request. -/
  | awaiting (pid : ℕ)
  /-- The outcome is in `done`. -/
  | decided (pid : ℕ) (outcome : Option String)
  | answered (response : ControlResponse)
  deriving DecidableEq

structure SupervisorState where
  life : Worker → Life
  started : ℕ
  readiness : Readiness
  control : Control
  current : Worker
  superseded : List Worker
  /-- `serveControl` accepts connections. -/
  serving : Bool
  /-- An accept error is in `controlErrCh`. -/
  controlError : Bool
  handler : Connection → Handler

def errSupervisorStopped : String := "daemon supervisor stopped"

def abortError (pid : ℕ) : String :=
  "worker " ++ toString pid ++ " is not a replacement with a running predecessor"

/-- `runningWorkers`: takes the exit value of each worker that has one, and keeps the others. -/
def runningWorkers (life : Worker → Life) : List Worker → (Worker → Life) × List Worker
  | [] => (life, [])
  | worker :: workers =>
    if life worker = .reported then
      runningWorkers (Function.update life worker .received) workers
    else
      let rest := runningWorkers life workers
      (rest.1, worker :: rest.2)

/-- What the handler writes after the outcome of an abort request. -/
def abortResponse (pid : ℕ) : Option String → ControlResponse
  | none => ⟨pid, ""⟩
  | some error => ⟨0, error⟩

namespace SupervisorState

variable (state : SupervisorState)

@[simps] def setLife (worker : Worker) (life : Life) : SupervisorState :=
  { state with life := Function.update state.life worker life }

@[simps] def goHandler (connection : Connection) (handler : Handler) :
    SupervisorState :=
  { state with handler := Function.update state.handler connection handler }

@[simps] def goControl (control : Control) : SupervisorState :=
  { state with control := control }

def loopDone : Prop := state.control = .closed ∨ state.control = .returned

/-- `startWorker` in a control handler. -/
def startReplacement (state : SupervisorState) (connection : Connection) : SupervisorState :=
  { (state.setLife state.started .running).goHandler connection (.offering state.started) with
    started := state.started + 1 }

def prune : SupervisorState :=
  { state with
    life := (runningWorkers state.life state.superseded).1
    superseded := (runningWorkers state.life state.superseded).2 }

def replace (state : SupervisorState) (replacement : Worker) : SupervisorState :=
  { state.prune with
    superseded := state.prune.superseded ++ [state.current]
    current := replacement }

/-- The loop makes a superseded worker current again, and stops the current one. -/
def restore (connection : Connection) (rest : List Worker) (restored : Worker) : SupervisorState :=
  { state.prune with
    superseded := rest
    current := restored
    control := .stopping state.current false (.answerAbort connection) }

/-- What follows the return of `stopWorker` in the goroutine of `SuperviseContext`. -/
def afterStop : AfterStop → SupervisorState
  | .finish => state.goControl .returned
  | .unwind => state.goControl .unwinding
  | .answerAbort connection =>
    match state.handler connection with
    | .awaiting pid => (state.goControl .looping).goHandler connection (.decided pid none)
    | _ => state.goControl .looping

end SupervisorState

/-- The first worker was started, and the wait for its readiness begins. -/
def initial : SupervisorState where
  life := Function.update (fun _ ↦ .unstarted) 0 .running
  started := 1
  readiness := .waiting
  control := .awaitingReady
  current := 0
  superseded := []
  serving := false
  controlError := false
  handler := fun _ ↦ .absent

/-- A goroutine that calls `stopWorker`. -/
inductive Caller
  | supervisor
  | handler (connection : Connection)
  deriving DecidableEq

inductive SupervisorEvent
  | exit (worker : Worker)
  | report (worker : Worker)
  | readinessEnds (success : Bool)
  | readinessReceives
  /-- A signal or the cancellation of the context. -/
  | interrupt
  | takeReadiness
  | replace (connection : Connection) (worker : Worker)
  | refuseAbort (connection : Connection)
  | acceptAbort (connection : Connection) (restored : Worker)
  | currentExited
  | takeControlError
  | stopReceives (caller : Caller)
  | stopTimesOut (caller : Caller)
  | stopNext
  | closeLoop
  | returns
  | accept (connection : Connection)
  | acceptFails
  | answerDirectly (connection : Connection)
  | startReplacement (connection : Connection)
  | requestAbort (connection : Connection)
  | seeLoopDone (connection : Connection)
  | answer (connection : Connection)
  deriving DecidableEq

open SupervisorState in
inductive SupervisorStep (pidOf : Worker → ℕ) (state : SupervisorState) :
    SupervisorEvent → SupervisorState → Prop where
  -- A worker process exits, and `cmd.Wait` returns.
  | exit {worker : Worker} (hlife : state.life worker = .running) :
      SupervisorStep pidOf state (.exit worker) (state.setLife worker .exited)
  | report {worker : Worker} (hlife : state.life worker = .exited) :
      SupervisorStep pidOf state (.report worker) (state.setLife worker .reported)
  -- `waitForWorkerReady`: the pipe, the deadline, or the exit value of the first worker.
  | readinessEnds (success : Bool) (hwaiting : state.readiness = .waiting) :
      SupervisorStep pidOf state (.readinessEnds success)
        { state with readiness := if success then .ready else .failed }
  | readinessReceives (hwaiting : state.readiness = .waiting)
      (hlife : state.life 0 = .reported) :
      SupervisorStep pidOf state .readinessReceives
        { state.setLife 0 .received with readiness := .exitedBeforeReady }
  -- The `select` of `SuperviseContext`.
  | interruptStart (hcontrol : state.control = .awaitingReady) :
      SupervisorStep pidOf state .interrupt
        (state.goControl (.stopping state.current false .finish))
  | takeReady (hcontrol : state.control = .awaitingReady)
      (hready : state.readiness = .ready) :
      SupervisorStep pidOf state .takeReadiness { state.goControl .looping with serving := true }
  | takeFailure (hcontrol : state.control = .awaitingReady)
      (hfailed : state.readiness = .failed) :
      SupervisorStep pidOf state .takeReadiness
        (state.goControl (.stopping state.current false .finish))
  | takeExit (hcontrol : state.control = .awaitingReady)
      (hexited : state.readiness = .exitedBeforeReady) :
      SupervisorStep pidOf state .takeReadiness (state.goControl .returned)
  -- The `select` of `runSupervisorLoop`.
  | interruptLoop (hcontrol : state.control = .looping) :
      SupervisorStep pidOf state .interrupt
        (state.goControl (.stopping state.current false .unwind))
  | replace {connection : Connection} {worker : Worker}
      (hcontrol : state.control = .looping)
        (hhandler : state.handler connection = .offering worker) :
      SupervisorStep pidOf state (.replace connection worker)
        ((state.replace worker).goHandler connection (.replaced worker))
  | refuseAbort {connection : Connection} {pid : ℕ}
      (hcontrol : state.control = .looping) (hhandler : state.handler connection = .requesting pid)
      (hrefused : pidOf state.current ≠ pid ∨ state.prune.superseded = []) :
      SupervisorStep pidOf state (.refuseAbort connection)
        (state.prune.goHandler connection (.decided pid (some (abortError pid))))
  | acceptAbort {connection : Connection} {pid : ℕ} {rest : List Worker}
      {restored : Worker} (hcontrol : state.control = .looping)
      (hhandler : state.handler connection = .requesting pid) (hpid : pidOf state.current = pid)
      (hrest : state.prune.superseded = rest ++ [restored]) :
      SupervisorStep pidOf state (.acceptAbort connection restored)
        ((state.restore connection rest restored).goHandler connection (.awaiting pid))
  | currentExited (hcontrol : state.control = .looping)
      (hlife : state.life state.current = .reported) :
      SupervisorStep pidOf state .currentExited
        ((state.setLife state.current .received).goControl .unwinding)
  | takeControlError (hcontrol : state.control = .looping)
      (herror : state.controlError = true) :
      SupervisorStep pidOf state .takeControlError
        { state.goControl .unwinding with controlError := false }
  -- `stopWorker`: the exit value, or the timeout and the kill.
  | stopReceives {worker : Worker} {killed : Bool} {next : AfterStop}
      (hcontrol : state.control = .stopping worker killed next)
      (hlife : state.life worker = .reported) :
      SupervisorStep pidOf state (.stopReceives .supervisor)
        ((state.setLife worker .received).afterStop next)
  | stopTimesOut {worker : Worker} {next : AfterStop}
      (hcontrol : state.control = .stopping worker false next) :
      SupervisorStep pidOf state (.stopTimesOut .supervisor)
        (state.goControl (.stopping worker true next))
  -- The deferred stops, and the return.
  | stopNext {worker : Worker} {rest : List Worker}
      (hcontrol : state.control = .unwinding) (hsuperseded : state.superseded = worker :: rest) :
      SupervisorStep pidOf state .stopNext
        { state.goControl (.stopping worker false .unwind) with superseded := rest }
  | closeLoop (hcontrol : state.control = .unwinding)
      (hsuperseded : state.superseded = []) :
      SupervisorStep pidOf state .closeLoop (state.goControl .closed)
  | returns (hcontrol : state.control = .closed) :
      SupervisorStep pidOf state .returns { state.goControl .returned with serving := false }
  -- `serveControl`.
  | accept {connection : Connection} (hserving : state.serving = true)
      (hhandler : state.handler connection = .absent) :
      SupervisorStep pidOf state (.accept connection) (state.goHandler connection .reading)
  | acceptFails (hserving : state.serving = true) :
      SupervisorStep pidOf state .acceptFails { state with serving := false, controlError := true }
  -- `handleControl`.
  | answerDirectly {connection : Connection} (response : ControlResponse)
      (hhandler : state.handler connection = .reading) :
      SupervisorStep pidOf state (.answerDirectly connection)
        (state.goHandler connection (.answered response))
  | startReplacement {connection : Connection}
      (hhandler : state.handler connection = .reading) :
      SupervisorStep pidOf state (.startReplacement connection) (state.startReplacement connection)
  | requestAbort {connection : Connection} (pid : ℕ)
      (hhandler : state.handler connection = .reading) :
      SupervisorStep pidOf state (.requestAbort connection)
        (state.goHandler connection (.requesting pid))
  | offerEnds {connection : Connection} {worker : Worker}
      (hhandler : state.handler connection = .offering worker) (hdone : state.loopDone) :
      SupervisorStep pidOf state (.seeLoopDone connection)
        (state.goHandler connection (.stopping worker false))
  | requestEnds {connection : Connection} {pid : ℕ}
      (hhandler : state.handler connection = .requesting pid) (hdone : state.loopDone) :
      SupervisorStep pidOf state (.seeLoopDone connection)
        (state.goHandler connection (.answered ⟨0, errSupervisorStopped⟩))
  | handlerReceives {connection : Connection} {worker : Worker}
      {killed : Bool} (hhandler : state.handler connection = .stopping worker killed)
      (hlife : state.life worker = .reported) :
      SupervisorStep pidOf state (.stopReceives (.handler connection))
        ((state.setLife worker .received).goHandler connection
          (.answered ⟨0, errSupervisorStopped⟩))
  | handlerTimesOut {connection : Connection} {worker : Worker}
      (hhandler : state.handler connection = .stopping worker false) :
      SupervisorStep pidOf state (.stopTimesOut (.handler connection))
        (state.goHandler connection (.stopping worker true))
  | answerReplace {connection : Connection} {worker : Worker}
      (hhandler : state.handler connection = .replaced worker) :
      SupervisorStep pidOf state (.answer connection)
        (state.goHandler connection (.answered ⟨pidOf worker, ""⟩))
  | answerAbort {connection : Connection} {pid : ℕ} {outcome : Option String}
      (hhandler : state.handler connection = .decided pid outcome) :
      SupervisorStep pidOf state (.answer connection)
        (state.goHandler connection (.answered (abortResponse pid outcome)))

def Reachable (pidOf : Worker → ℕ) (state : SupervisorState) : Prop :=
  ∃ events, Run (SupervisorStep pidOf) initial events state

end Clyde.DaemonSupervisor
