import Mathlib.Data.List.Nodup
import Clyde.Foundation.LabelledRun

/-!
# The session registry

`internal/livetrack/registry.go` and `drain.go`. A registry tracks sessions in one map and lists
children in another, both under a mutex. Its state word is changed without it, and `Register` reads
the word twice. `Release`, `ForceCloseMatching` and `drainWith` take sessions out of the maps; the
last two then call the closers.

`RegistryStep` is one step of one goroutine. A critical section is one step, but for that of
`Register`: the word can change between its reading and the insertion.

Scope. The ids that `Register` draws differ, and a session has a closer, which is called before its
grace has passed. Idle and matched sessions are given by arbitrary predicates. The state also has
what has happened so far: the registered and the released sessions, and how often each closer was
called.
-/

set_option autoImplicit false

namespace Clyde.Livetrack

open Foundation List

/-- `Session`: what the registry reads of it. -/
structure Session where
  id : String
  parent : Option String
  deriving DecidableEq

/-- `sessions` and `parents`. -/
structure Maps where
  sessions : List Session
  parents : String → List String

/-- The insertion of `Register`. -/
def Maps.insert (maps : Maps) (session : Session) : Maps where
  sessions := maps.sessions ++ [session]
  parents := match session.parent with
    | none => maps.parents
    | some parent => Function.update maps.parents parent (maps.parents parent ++ [session.id])

def Maps.delete (maps : Maps) (session : Session) : Maps where
  sessions := maps.sessions.filter fun other ↦ other.id ≠ session.id
  parents := match session.parent with
    | none => maps.parents
    | some parent =>
      Function.update maps.parents parent
        ((maps.parents parent).filter fun child ↦ child ≠ session.id)

def Maps.deleteAll (maps : Maps) (sessions : List Session) : Maps := sessions.foldl Maps.delete maps

def Maps.empty : Maps where
  sessions := []
  parents := fun _ ↦ []

/-- `State`. -/
inductive Phase
  | opened
  | draining
  | forcing
  | closed
  deriving DecidableEq

/-- What calls closers: `ForceCloseMatching`, the fast path of a drain, or its deadline path. -/
inductive Stage
  | matching
  | idleGrace
  | deadline
  deriving DecidableEq

/-- Where a goroutine is. -/
inductive Control
  /-- Between calls. -/
  | idle
  /-- `Register` has found the registry open, before the mutex. -/
  | registering (session : Session)
  /-- `Register` holds the mutex and has found the registry open again. -/
  | inserting (session : Session)
  /-- `Release` has set the flag. -/
  | releasing (session : Session)
  /-- Closers are called and flags are set. -/
  | closing (stage : Stage)
  /-- `drainWith` has left the open state. -/
  | starting
  /-- `waitForIdle`. -/
  | waiting
  /-- `waitForIdle` has returned a count that is not zero. -/
  | expired
  /-- The forcing state is stored. -/
  | forcing
  /-- Nothing is left to close. -/
  | finished
  /-- `drainWith` has found the registry not open. -/
  | refused
  /-- `drainWith` has returned. -/
  | returned (final : Phase)
  deriving DecidableEq

def Stage.after : Stage → Control
  | .matching => .idle
  | .idleGrace => .waiting
  | .deadline => .finished

abbrev Goroutine := ℕ

structure Registry where
  phase : Phase
  maps : Maps
  /-- The goroutine that holds the mutex between two steps. -/
  holder : Option Goroutine
  /-- The released flags. -/
  released : String → Bool
  control : Goroutine → Control
  /-- The sessions that a goroutine has taken out of the maps and whose closers it has not called.
  -/
  pending : Goroutine → List Session
  /-- Those whose closers it has called and whose flags it has not set. -/
  unmarked : Goroutine → List Session
  /-- The ids that were drawn. -/
  drawn : List String
  registered : List Session
  releasedByOwner : String → Bool
  closerCalls : String → ℕ

def newRegistry : Registry where
  phase := .opened
  maps := .empty
  holder := none
  released := fun _ ↦ false
  control := fun _ ↦ .idle
  pending := fun _ ↦ []
  unmarked := fun _ ↦ []
  drawn := []
  registered := []
  releasedByOwner := fun _ ↦ false
  closerCalls := fun _ ↦ 0

def Registry.go (registry : Registry) (goroutine : Goroutine) (control : Control) : Registry :=
  { registry with control := Function.update registry.control goroutine control }

def Registry.take (registry : Registry) (goroutine : Goroutine) (taken : List Session) (maps : Maps)
    (stage : Stage) : Registry :=
  { registry.go goroutine (.closing stage) with
    maps := maps
    pending := Function.update registry.pending goroutine taken
    unmarked := Function.update registry.unmarked goroutine [] }

inductive RegistryEvent
  | registerCheck (session : Session)
  | registerLock
  | registerRefuse
  | registerInsert
  | releaseFlag (session : Session)
  | releaseRemove
  | matchRemove (matched : Session → Bool)
  | callCloser (session : Session)
  | markReleased (session : Session)
  | closingDone
  | drainStart
  | drainSkipIdle
  | drainIdle (isIdle : Session → Bool)
  | pollIdle
  | pollExpired
  | storeForcing
  | forceRemove
  | storeClosed
  | drainRefused
  | refusedReturns

open Function in
inductive RegistryStep (registry : Registry) : Goroutine × RegistryEvent → Registry → Prop
  /-- `Register` finds the registry open and draws an id. -/
  | registerCheck {goroutine : Goroutine} (session : Session)
      (hcontrol : registry.control goroutine = .idle) (hphase : registry.phase = .opened)
      (hfresh : session.id ∉ registry.drawn) :
      RegistryStep registry (goroutine, .registerCheck session)
        { registry.go goroutine (.registering session) with drawn := session.id :: registry.drawn }
  | registerLock {goroutine : Goroutine} {session : Session}
      (hcontrol : registry.control goroutine = .registering session)
        (hholder : registry.holder = none)
      (hphase : registry.phase = .opened) :
      RegistryStep registry (goroutine, .registerLock)
        { registry.go goroutine (.inserting session) with holder := some goroutine }
  | registerRefuse {goroutine : Goroutine} {session : Session}
      (hcontrol : registry.control goroutine = .registering session)
        (hholder : registry.holder = none)
      (hphase : registry.phase ≠ .opened) :
      RegistryStep registry (goroutine, .registerRefuse) (registry.go goroutine .idle)
  | registerInsert {goroutine : Goroutine} {session : Session}
      (hcontrol : registry.control goroutine = .inserting session) :
      RegistryStep registry (goroutine, .registerInsert) { registry.go goroutine .idle with
          maps := registry.maps.insert session
          holder := none
          registered := registry.registered ++ [session] }
  /-- `Release` by the owner, which has the session from `Register`. -/
  | releaseFlag {goroutine : Goroutine} (session : Session)
      (hcontrol : registry.control goroutine = .idle) (hregistered : session ∈ registry.registered)
      (hreleased : registry.released session.id = false) :
      RegistryStep registry (goroutine, .releaseFlag session)
        { registry.go goroutine (.releasing session) with
          released := update registry.released session.id true
          releasedByOwner := update registry.releasedByOwner session.id true }
  | releaseRemove {goroutine : Goroutine} {session : Session}
      (hcontrol : registry.control goroutine = .releasing session)
        (hholder : registry.holder = none) :
      RegistryStep registry (goroutine, .releaseRemove)
        { registry.go goroutine .idle with maps := registry.maps.delete session }
  | matchRemove {goroutine : Goroutine} (matched : Session → Bool)
      (hcontrol : registry.control goroutine = .idle) (hholder : registry.holder = none) :
      RegistryStep registry (goroutine, .matchRemove matched)
        (registry.take goroutine (registry.maps.sessions.filter matched)
          (registry.maps.deleteAll (registry.maps.sessions.filter matched)) .matching)
  /-- `ForceCloseMatching` sets each flag before the next closer. -/
  | callCloser {goroutine : Goroutine} {stage : Stage} (session : Session)
      (hcontrol : registry.control goroutine = .closing stage)
      (hpending : session ∈ registry.pending goroutine)
      (horder : stage = .matching → registry.unmarked goroutine = []) :
      RegistryStep registry (goroutine, .callCloser session) { registry with
          pending := update registry.pending goroutine ((registry.pending goroutine).erase session)
          unmarked := update registry.unmarked goroutine (session :: registry.unmarked goroutine)
          closerCalls := update registry.closerCalls session.id
            (registry.closerCalls session.id + 1) }
  /-- A drain sets the flags after all closers. -/
  | markReleased {goroutine : Goroutine} {stage : Stage} (session : Session)
      (hcontrol : registry.control goroutine = .closing stage)
      (hunmarked : session ∈ registry.unmarked goroutine)
      (horder : stage ≠ .matching → registry.pending goroutine = []) :
      RegistryStep registry (goroutine, .markReleased session) { registry with
          released := update registry.released session.id true
          unmarked := update registry.unmarked goroutine
            ((registry.unmarked goroutine).erase session) }
  | closingDone {goroutine : Goroutine} {stage : Stage}
      (hcontrol : registry.control goroutine = .closing stage)
      (hpending : registry.pending goroutine = []) (hunmarked : registry.unmarked goroutine = []) :
      RegistryStep registry (goroutine, .closingDone) (registry.go goroutine stage.after)
  /-- The compare-and-swap of `drainWith`. -/
  | drainStart {goroutine : Goroutine}
      (hcontrol : registry.control goroutine = .idle) (hphase : registry.phase = .opened) :
      RegistryStep registry (goroutine, .drainStart)
        { registry.go goroutine .starting with phase := .draining }
  /-- No idle grace. -/
  | drainSkipIdle {goroutine : Goroutine}
      (hcontrol : registry.control goroutine = .starting) :
      RegistryStep registry (goroutine, .drainSkipIdle) (registry.go goroutine .waiting)
  | drainIdle {goroutine : Goroutine} (isIdle : Session → Bool)
      (hcontrol : registry.control goroutine = .starting) (hholder : registry.holder = none) :
      RegistryStep registry (goroutine, .drainIdle isIdle)
        (registry.take goroutine (registry.maps.sessions.filter isIdle)
          (registry.maps.deleteAll (registry.maps.sessions.filter isIdle)) .idleGrace)
  /-- `Count` is zero. -/
  | pollIdle {goroutine : Goroutine}
      (hcontrol : registry.control goroutine = .waiting) (hholder : registry.holder = none)
      (hcount : registry.maps.sessions = []) :
      RegistryStep registry (goroutine, .pollIdle) (registry.go goroutine .finished)
  /-- The context is done, and `Count` is not zero. -/
  | pollExpired {goroutine : Goroutine}
      (hcontrol : registry.control goroutine = .waiting) (hholder : registry.holder = none)
      (hcount : registry.maps.sessions ≠ []) :
      RegistryStep registry (goroutine, .pollExpired) (registry.go goroutine .expired)
  | storeForcing {goroutine : Goroutine}
      (hcontrol : registry.control goroutine = .expired) :
      RegistryStep registry (goroutine, .storeForcing)
        { registry.go goroutine .forcing with phase := .forcing }
  | forceRemove {goroutine : Goroutine}
      (hcontrol : registry.control goroutine = .forcing) (hholder : registry.holder = none) :
      RegistryStep registry (goroutine, .forceRemove)
        (registry.take goroutine registry.maps.sessions .empty .deadline)
  | storeClosed {goroutine : Goroutine}
      (hcontrol : registry.control goroutine = .finished) :
      RegistryStep registry (goroutine, .storeClosed)
        { registry.go goroutine (.returned .closed) with phase := .closed }
  /-- The compare-and-swap of a second `drainWith` fails. -/
  | drainRefused {goroutine : Goroutine}
      (hcontrol : registry.control goroutine = .idle) (hphase : registry.phase ≠ .opened) :
      RegistryStep registry (goroutine, .drainRefused) (registry.go goroutine .refused)
  | refusedReturns {goroutine : Goroutine}
      (hcontrol : registry.control goroutine = .refused) :
      RegistryStep registry (goroutine, .refusedReturns)
        (registry.go goroutine (.returned registry.phase))

/-- The parents map lists the tracked sessions that have a parent, and nothing else. -/
def Maps.Consistent (maps : Maps) : Prop :=
  ∀ parent, maps.parents parent =
    (maps.sessions.filter fun session ↦ session.parent = some parent).map Session.id

theorem Maps.consistent_empty : Maps.empty.Consistent := fun _ ↦ rfl

variable {maps : Maps}

theorem Maps.Consistent.insert (hmaps : maps.Consistent) (session : Session) :
    (maps.insert session).Consistent := by
  intro parent
  rw [Maps.insert]
  rw [filter_append, map_append, ← hmaps parent]
  cases hparent : session.parent with
  | none => simp [hparent]
  | some other =>
    by_cases hsame : parent = other
    · subst hsame
      simp [hparent]
    · simp [hparent, hsame, Ne.symm hsame]

/-- Deletion keeps the maps consistent, because an id belongs to one session. -/
theorem Maps.Consistent.delete (hmaps : maps.Consistent) {session : Session}
    (hsame : ∀ other ∈ maps.sessions, other.id = session.id → other = session) :
    (maps.delete session).Consistent := by
  intro parent
  have hother : session.parent ≠ some parent →
    (maps.sessions.filter fun other ↦ other.id ≠ session.id).filter
          (fun other ↦ other.parent = some parent) =
        maps.sessions.filter fun other ↦ other.parent = some parent := by
    intro hparent
    rw [filter_filter]
    refine filter_congr fun other hmem ↦ ?_
    by_cases hid : other.id = session.id
    · obtain rfl := hsame other hmem hid
      simp [hparent]
    · simp [hid]
  rw [Maps.delete]
  cases hparent : session.parent with
  | none =>
    rw [hother (by simp [hparent])]
    exact hmaps parent
  | some own =>
    by_cases hown : parent = own
    · subst hown
      dsimp only
      rw [hmaps parent, filter_map, filter_filter]
      simp [Bool.and_comm]
    · dsimp only
      rw [Function.update_of_ne hown, hother (by simpa [hparent] using Ne.symm hown)]
      exact hmaps parent

theorem Maps.sessions_deleteAll (maps : Maps) (removed : List Session) :
    (maps.deleteAll removed).sessions =
      maps.sessions.filter fun session ↦ session.id ∉ removed.map Session.id := by
  induction removed generalizing maps with
  | nil => simp [Maps.deleteAll]
  | cons session _ ih =>
    refine (ih _).trans ?_
    rw [Maps.delete, filter_filter]
    refine filter_congr fun other _ ↦ ?_
    simp only [map_cons, mem_cons, not_or, Bool.decide_and]
    exact Bool.and_comm _ _

theorem Maps.Consistent.deleteAll (hmaps : maps.Consistent) {removed : List Session}
    (hsame : ∀ session ∈ removed, ∀ other ∈ maps.sessions, other.id = session.id →
      other = session) :
    (maps.deleteAll removed).Consistent := by
  induction removed generalizing maps with
  | nil => exact hmaps
  | cons _ _ ih =>
    obtain ⟨hfirst, hrest⟩ := forall_mem_cons.mp hsame
    refine ih (hmaps.delete hfirst) fun later hlater other hother ↦ ?_
    exact hrest later hlater other (mem_of_mem_filter hother)

end Clyde.Livetrack
