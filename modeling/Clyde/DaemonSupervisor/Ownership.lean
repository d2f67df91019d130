import Clyde.DaemonSupervisor.Supervisor
import Mathlib.Data.List.Nodup

/-!
# Who waits for a worker

Every worker is waited for by at most one party: the goroutine of `SuperviseContext`
(`SupervisorState.owned`), or a control handler that has started it and not handed it over
(`Handler.held`). `Sound` says so, and that the exit value of such a worker was received by nobody,
except, while the supervisor starts, by the goroutine that waits for the readiness of the first
worker. It holds in every state of a run (`Sound.of_run`).
-/

set_option autoImplicit false

namespace Clyde.DaemonSupervisor

open Foundation List Function SupervisorState Handler

/-! ### Pruning the superseded workers -/

/-- `runningWorkers` receives the exit values that have been reported and nothing else. -/
theorem runningWorkers_life (life : Worker → Life) (workers : List Worker) (worker : Worker) :
    (runningWorkers life workers).1 worker =
      if worker ∈ workers ∧ life worker = .reported then .received else life worker := by
  induction workers generalizing life with
  | nil => simp [runningWorkers]
  | cons first _ ih =>
    by_cases heq : worker = first
    · subst heq
      by_cases hreported : life worker = .reported <;> simp [runningWorkers, hreported, ih]
    · by_cases hreported : life first = .reported <;> simp [runningWorkers, hreported, ih, heq]

/-- `runningWorkers` drops exactly the workers whose exit value had been reported. -/
theorem runningWorkers_eq_filter (life : Worker → Life) {workers : List Worker}
    (hnodup : workers.Nodup) :
    (runningWorkers life workers).2 = workers.filter (fun worker ↦ life worker ≠ .reported) := by
  induction workers generalizing life with
  | nil => rfl
  | cons first _ ih =>
    obtain ⟨hfirst, hnodup⟩ := nodup_cons.mp hnodup
    unfold runningWorkers
    split_ifs with hreported
    · rw [ih _ hnodup, filter_cons_of_neg (by simpa using hreported)]
      refine filter_congr fun worker hmem ↦ ?_
      have hne : worker ≠ first := fun heq ↦ hfirst (heq ▸ hmem)
      rw [update_of_ne hne]
    · simp only [ih _ hnodup]
      rw [filter_cons_of_pos (by simpa using hreported)]

/-! ### Ownership -/

/-- The worker that a control handler has started and not handed over. -/
def Handler.held : Handler → Option Worker
  | .offering worker => some worker
  | .stopping worker _ => some worker
  | _ => none

namespace SupervisorState

/-- The workers that the goroutine of `SuperviseContext` still waits for or stops. -/
def owned (state : SupervisorState) : List Worker :=
  match state.control with
  | .awaitingReady => [state.current]
  | .looping => state.current :: state.superseded
  | .stopping worker _ .finish => [worker]
  | .stopping worker _ .unwind => worker :: state.superseded
  | .stopping worker _ (.answerAbort _) => worker :: state.current :: state.superseded
  | .unwinding => state.superseded
  | .closed => []
  | .returned => []

/-- The supervisor starts, or has given up the start. -/
structure Early (state : SupervisorState) : Prop where
  control : state.control = .awaitingReady ∨
    (∃ killed, state.control = .stopping 0 killed .finish) ∨
    state.control = .returned
  current : state.current = 0
  superseded : state.superseded = []
  started : state.started = 1
  serving : state.serving = false
  handler : ∀ connection, state.handler connection = .absent

/-- The loop was entered. -/
structure Late (state : SupervisorState) : Prop where
  readiness : state.readiness = .ready
  awaitingReady : state.control ≠ .awaitingReady
  finish : ∀ worker killed, state.control ≠ .stopping worker killed .finish

/-- Every worker has at most one owner, and its exit value was received by nobody but the wait for
the readiness of the first. -/
structure Sound (state : SupervisorState) : Prop where
  phase : state.Early ∨ state.Late
  nodup : state.owned.Nodup
  superseded_nodup : state.superseded.Nodup
  apart : ∀ {connection worker}, (state.handler connection).held =
    some worker → worker ∉ state.owned
  distinct : ∀ {first second worker}, (state.handler first).held = some worker →
    (state.handler second).held = some worker → first = second
  owned_started : ∀ worker ∈ state.owned, worker < state.started
  held_started : ∀ {connection worker}, (state.handler connection).held = some worker →
    worker < state.started
  unstarted : ∀ worker, state.started ≤ worker → state.life worker = .unstarted
  owned_received : ∀ worker ∈ state.owned, state.life worker = .received →
    state.readiness = .exitedBeforeReady
  held_received : ∀ {connection worker}, (state.handler connection).held = some worker →
    state.life worker ≠ .received

/-! ### Projections of the updates -/

section

variable (state : SupervisorState) (worker : Worker) (life : Life) (connection : Connection)
  (handler : Handler)

@[simp] theorem setLife_owned : (state.setLife worker life).owned = state.owned := rfl

@[simp] theorem goHandler_owned : (state.goHandler connection handler).owned = state.owned := rfl

theorem held_goHandler {other : Connection} {held : Worker}
    (hheld : ((state.goHandler connection handler).handler other).held = some held) :
    (other = connection ∧ handler.held = some held) ∨
      (other ≠ connection ∧ (state.handler other).held = some held) := by
  by_cases heq : other = connection
  · subst heq
    exact .inl ⟨rfl, by simpa using hheld⟩
  · exact .inr ⟨heq, by simpa [update_of_ne heq] using hheld⟩

theorem setLife_unstarted (hlife : state.life worker ≠ .unstarted) {other : Worker}
    (hunstarted : state.life other = .unstarted) :
    (state.setLife worker life).life other = .unstarted := by
  have hne : other ≠ worker := fun heq ↦ hlife (heq ▸ hunstarted)
  simpa [update_of_ne hne] using hunstarted

theorem owned_looping (hlooping : state.control = .looping) :
    state.owned = state.current :: state.superseded := by
  simp [owned, hlooping]

theorem prune_life : state.prune.life worker =
    if worker ∈ state.superseded ∧ state.life worker = .reported then .received
    else state.life worker :=
  runningWorkers_life state.life state.superseded worker

theorem prune_superseded (hnodup : state.superseded.Nodup) : state.prune.superseded =
    state.superseded.filter (fun worker ↦ state.life worker ≠ .reported) :=
  runningWorkers_eq_filter state.life hnodup

end

namespace Sound

variable {state after : SupervisorState}

/-- The invariant after a step in which owners only give workers up. -/
theorem narrow (hsound : state.Sound) (hphase : after.Early ∨ after.Late)
    (hnodup : after.owned.Nodup) (howned : after.owned ⊆ state.owned)
    (hsuperseded : after.superseded.Nodup)
    (hheld : ∀ {connection worker}, (after.handler connection).held = some worker →
      (state.handler connection).held = some worker) (hstarted : after.started = state.started)
    (hreadiness : after.readiness = state.readiness)
    (hreceived : ∀ {worker}, after.life worker = .received → state.life worker = .received ∨
      (worker ∈ state.owned ∧ worker ∉ after.owned) ∨
      ∃ connection, (state.handler connection).held = some worker ∧
      (after.handler connection).held = none)
    (hunstarted : ∀ {worker}, state.life worker = .unstarted → after.life worker = .unstarted) :
    after.Sound where
  phase := hphase
  nodup := hnodup
  superseded_nodup := hsuperseded
  apart := fun hafter hmem ↦ hsound.apart (hheld hafter) (howned hmem)
  distinct := fun hfirst hsecond ↦ hsound.distinct (hheld hfirst) (hheld hsecond)
  owned_started := fun worker hmem ↦ hstarted ▸ hsound.owned_started worker (howned hmem)
  held_started := fun hafter ↦ hstarted ▸ hsound.held_started (hheld hafter)
  unstarted := fun worker hle ↦ hunstarted (hsound.unstarted worker (hstarted ▸ hle))
  owned_received := by
    intro worker hmem hlife
    rw [hreadiness]
    rcases hreceived hlife with hbefore | ⟨_, hgone⟩ | ⟨connection, hholder, _⟩
    · exact hsound.owned_received worker (howned hmem) hbefore
    · exact absurd hmem hgone
    · exact absurd (howned hmem) (hsound.apart hholder)
  held_received := by
    intro _ worker hafter hlife
    rcases hreceived hlife with hbefore | ⟨hmem, _⟩ | ⟨_, hholder, hnone⟩
    · exact hsound.held_received (hheld hafter) hbefore
    · exact hsound.apart (hheld hafter) hmem
    · obtain rfl := hsound.distinct (hheld hafter) hholder
      rw [hnone] at hafter
      exact absurd hafter (Option.some_ne_none worker).symm

variable {connection : Connection} {handler : Handler}

theorem late_of_handler (hsound : state.Sound)
    (hhandler : state.handler connection = handler) (hpresent : handler ≠ .absent) : state.Late :=
  hsound.phase.resolve_left fun hearly ↦ hpresent (hhandler ▸ hearly.handler connection)

theorem late_of_control (hsound : state.Sound) (hawaiting : state.control ≠ .awaitingReady)
    (hfinish : ∀ killed, state.control ≠ .stopping 0 killed .finish)
    (hreturned : state.control ≠ .returned) : state.Late := by
  refine hsound.phase.resolve_left fun hearly ↦ ?_
  rcases hearly.control with hcontrol | ⟨killed, hcontrol⟩ | hcontrol
  · exact hawaiting hcontrol
  · exact hfinish killed hcontrol
  · exact hreturned hcontrol

theorem late_of_looping (hsound : state.Sound) (hlooping : state.control = .looping) : state.Late :=
  hsound.late_of_control (by simp [hlooping]) (by simp [hlooping]) (by simp [hlooping])

variable {worker : Worker}

theorem unreceived (hsound : state.Sound) (hlate : state.Late)
    (hmem : worker ∈ state.owned) : state.life worker ≠ .received := by
  intro hreceived
  have hexited := hsound.owned_received worker hmem hreceived
  rw [hlate.readiness] at hexited
  simp at hexited

theorem lt_started (hsound : state.Sound) (hlife : state.life worker ≠ .unstarted) :
    worker < state.started :=
  Nat.lt_of_not_le fun hle ↦ hlife (hsound.unstarted worker hle)

/-! ### Steps of the handlers -/

theorem goHandler (hsound : state.Sound) (hlate : state.Late)
    (hheld : ∀ {worker}, handler.held = some worker →
      (state.handler connection).held = some worker) :
    (state.goHandler connection handler).Sound := by
  refine hsound.narrow (.inr ⟨hlate.1, hlate.2, hlate.3⟩) hsound.nodup (Subset.refl _)
    hsound.superseded_nodup ?_ rfl rfl .inl id
  intro _ _ hafter
  rcases state.held_goHandler _ _ hafter with ⟨rfl, hheld'⟩ | ⟨-, hbefore⟩
  · exact hheld hheld'
  · exact hbefore

/-- Starting a replacement, which its handler holds, keeps the invariant. -/
theorem startReplacement (hsound : state.Sound)
    (hhandler : state.handler connection = .reading) :
    (state.startReplacement connection).Sound := by
  have hlate : state.Late := hsound.late_of_handler hhandler (by simp)
  have hfresh : ∀ {worker}, worker < state.started → worker ≠ state.started := fun hlt ↦ hlt.ne
  -- A held worker is the new one, or was held before by another handler.
  have hheld : ∀ {other worker},
      ((state.startReplacement connection).handler other).held = some worker →
      (other = connection ∧ worker = state.started) ∨
        (other ≠ connection ∧ (state.handler other).held = some worker) := by
    intro other worker hafter
    refine (held_goHandler _ _ _ hafter).imp_left fun hnew ↦ ⟨hnew.1, ?_⟩
    exact (Option.some.inj hnew.2).symm
  have hlife : ∀ {worker}, worker ≠ state.started →
      (state.startReplacement connection).life worker = state.life worker :=
    fun hne ↦ update_of_ne hne ..
  have hnew : (state.startReplacement connection).life state.started = .running := update_self ..
  have hstarted : (state.startReplacement connection).started = state.started + 1 := rfl
  constructor
  · exact .inr ⟨hlate.1, hlate.2, hlate.3⟩
  · exact hsound.nodup
  · exact hsound.superseded_nodup
  · intro other worker hafter hmem
    rcases hheld hafter with ⟨_, rfl⟩ | ⟨_, hbefore⟩
    · exact absurd (hsound.owned_started _ hmem) (Nat.lt_irrefl _)
    · exact hsound.apart hbefore hmem
  · intro _ _ worker hfirst hsecond
    rcases hheld hfirst with ⟨rfl, rfl⟩ | ⟨_, hbefore⟩ <;>
      rcases hheld hsecond with ⟨rfl, hworker⟩ | ⟨_, hbefore'⟩
    · rfl
    · exact absurd (hsound.held_started hbefore') (Nat.lt_irrefl _)
    · exact absurd (hworker ▸ hsound.held_started hbefore) (Nat.lt_irrefl _)
    · exact hsound.distinct hbefore hbefore'
  · intro worker hmem
    exact hstarted ▸ Nat.lt_succ_of_lt (hsound.owned_started worker hmem)
  · intro other worker hafter
    rcases hheld hafter with ⟨_, rfl⟩ | ⟨_, hbefore⟩
    · exact hstarted ▸ Nat.lt_succ_self _
    · exact hstarted ▸ Nat.lt_succ_of_lt (hsound.held_started hbefore)
  · intro worker hle
    rw [hlife (Nat.ne_of_gt hle)]
    exact hsound.unstarted worker (Nat.le_of_succ_le hle)
  · intro worker hmem hreceived
    rw [hlife (hfresh (hsound.owned_started worker hmem))] at hreceived
    exact hsound.owned_received worker hmem hreceived
  intro _ _ hafter
  rcases hheld hafter with ⟨_, rfl⟩ | ⟨_, hbefore⟩
  · rw [hnew]
    decide
  · rw [hlife (hfresh (hsound.held_started hbefore))]
    exact hsound.held_received hbefore

theorem handlerReceives (hsound : state.Sound) {killed : Bool} {response : ControlResponse}
    (hhandler : state.handler connection = .stopping worker killed)
    (hlife : state.life worker = .reported) :
    ((state.setLife worker .received).goHandler connection (.answered response)).Sound := by
  have hlate : state.Late := hsound.late_of_handler hhandler (by simp)
  have hholds : (state.handler connection).held = some worker := by rw [hhandler]; rfl
  refine hsound.narrow (.inr ⟨hlate.1, hlate.2, hlate.3⟩) hsound.nodup (Subset.refl _)
    hsound.superseded_nodup ?_ rfl rfl ?_ ?_
  · intro other held hafter
    exact ((held_goHandler _ _ _ hafter).resolve_left (by simp [Handler.held])).2
  · intro other hreceived
    by_cases heq : other = worker
    · subst heq
      refine .inr (.inr ⟨connection, hholds, ?_⟩)
      simp [held]
    · exact .inl (by simpa [update_of_ne heq] using hreceived)
  · exact state.setLife_unstarted _ _ (by simp [hlife])

/-! ### Steps of the processes and of the readiness wait -/

section

variable (hsound : state.Sound)
include hsound

theorem setLife {life : Life} (hlife : state.life worker ≠ .unstarted) (hnew : life ≠ .received) :
    (state.setLife worker life).Sound := by
  have hphase : (state.setLife worker life).Early ∨ (state.setLife worker life).Late :=
    hsound.phase.imp (fun h ↦ ⟨h.1, h.2, h.3, h.4, h.5, h.6⟩) (fun h ↦ ⟨h.1, h.2, h.3⟩)
  refine hsound.narrow hphase hsound.nodup (Subset.refl _) hsound.superseded_nodup id rfl rfl ?_
    (state.setLife_unstarted _ _ hlife)
  intro other hreceived
  by_cases heq : other = worker
  · subst heq
    exact absurd (by simpa using hreceived) hnew
  · exact .inl (by simpa [update_of_ne heq] using hreceived)

variable (hwaiting : state.readiness = .waiting)
include hwaiting

theorem early_of_waiting : state.Early :=
  hsound.phase.resolve_right fun hlate ↦ by
    have hready := hlate.readiness
    rw [hwaiting] at hready
    simp at hready

theorem readinessEnds {readiness : Readiness} :
    ({ state with readiness := readiness } : SupervisorState).Sound := by
  have hearly := hsound.early_of_waiting hwaiting
  refine { hsound with phase := ?_, owned_received := ?_ }
  · exact .inl ⟨hearly.1, hearly.2, hearly.3, hearly.4, hearly.5, hearly.6⟩
  intro worker hmem hreceived
  have hexited := hsound.owned_received worker hmem hreceived
  rw [hwaiting] at hexited
  simp at hexited

theorem readinessReceives (hlife : state.life 0 = .reported) :
    ({ state.setLife 0 .received with readiness := .exitedBeforeReady } :
      SupervisorState).Sound := by
  have hearly := hsound.early_of_waiting hwaiting
  have hunheld : ∀ {connection worker}, (state.handler connection).held ≠ some worker := by
    intro connection worker
    rw [hearly.handler connection]
    exact (Option.some_ne_none worker).symm
  refine { hsound with
    phase := .inl ⟨hearly.1, hearly.2, hearly.3, hearly.4, hearly.5, hearly.6⟩
    unstarted := ?_
    owned_received := fun _ _ _ ↦ rfl
    held_received := fun hheld ↦ absurd hheld hunheld }
  intro worker hle
  have hne : worker ≠ 0 := by
    rintro rfl
    rw [hsound.unstarted 0 hle] at hlife
    simp at hlife
  simpa [update_of_ne hne] using hsound.unstarted worker hle

end

/-! ### Steps of the supervisor -/

section

variable (hsound : state.Sound)
include hsound

theorem move (hphase : after.Early ∨ after.Late) (hlife : after.life = state.life)
    (hhandler : after.handler = state.handler) (hstarted : after.started = state.started)
    (hreadiness : after.readiness = state.readiness)
    (hsuperseded : after.superseded.Sublist state.superseded)
    (howned : after.owned.Sublist state.owned) :
    after.Sound :=
  hsound.narrow hphase (hsound.nodup.sublist howned) howned.subset
    (hsound.superseded_nodup.sublist hsuperseded) (fun hheld ↦ hhandler ▸ hheld) hstarted hreadiness
    (fun hreceived ↦ .inl (hlife ▸ hreceived)) (fun hunstarted ↦ hlife ▸ hunstarted)

/-- Receiving the exit value of the first owned worker keeps the invariant. -/
theorem receive {rest : List Worker} (hphase : after.Early ∨ after.Late)
    (howned : state.owned = worker :: rest)
    (hlife : after.life = update state.life worker .received)
    (hworker : state.life worker = .reported)
    (hheld : ∀ {connection held}, (after.handler connection).held = some held →
      (state.handler connection).held = some held) (hstarted : after.started = state.started)
    (hreadiness : after.readiness = state.readiness)
    (hsuperseded : after.superseded = state.superseded) (hrest : after.owned = rest) :
    after.Sound := by
  have hnodup := hsound.nodup
  rw [howned, nodup_cons] at hnodup
  refine hsound.narrow hphase (hrest ▸ hnodup.2) ?_ (hsuperseded ▸ hsound.superseded_nodup) hheld
    hstarted hreadiness ?_ ?_
  · rw [hrest, howned]
    exact subset_cons_self worker rest
  · intro other hreceived
    by_cases heq : other = worker
    · refine .inr (.inl ⟨?_, ?_⟩)
      · rw [howned, heq]
        exact mem_cons_self
      · rw [hrest, heq]
        exact hnodup.1
    · rw [hlife, update_of_ne heq] at hreceived
      exact .inl hreceived
  · rw [hlife]
    exact state.setLife_unstarted _ _ (by simp [hworker])

section

variable (hlooping : state.control = .looping)
include hlooping

theorem prune : state.prune.Sound := by
  have hlate := hsound.late_of_looping hlooping
  have howned := state.owned_looping hlooping
  have hafter : state.prune.owned =
      state.current :: state.superseded.filter (fun worker ↦ state.life worker ≠ .reported) := by
    rw [← state.prune_superseded hsound.superseded_nodup]
    exact state.prune.owned_looping hlooping
  have hnodup := hsound.nodup
  rw [howned, nodup_cons] at hnodup
  have hsublist : state.prune.owned.Sublist state.owned := by
    rw [howned, hafter]
    exact filter_sublist.cons_cons _
  refine hsound.narrow (.inr ⟨hlate.1, hlate.2, hlate.3⟩) (hsound.nodup.sublist hsublist)
    hsublist.subset ?_ id rfl rfl ?_ ?_
  · rw [state.prune_superseded hsound.superseded_nodup]
    exact hsound.superseded_nodup.filter _
  · intro worker hreceived
    rw [prune_life] at hreceived
    split_ifs at hreceived with hpruned
    · refine .inr (.inl ⟨?_, ?_⟩)
      · rw [howned]
        exact mem_cons_of_mem _ hpruned.1
      rw [hafter, mem_cons, mem_filter]
      rintro (rfl | ⟨_, hkept⟩)
      · exact hnodup.1 hpruned.1
      · simp [hpruned.2] at hkept
    · exact .inl hreceived
  intro _ hunstarted
  rw [prune_life, if_neg]
  · exact hunstarted
  · rintro ⟨_, hreported⟩
    rw [hunstarted] at hreported
    simp at hreported

/-- Handing a replacement over to the loop moves it from the handler to the owned workers. -/
theorem handOver (hhandler : state.handler connection = .offering worker) :
    (({ state with superseded := state.superseded ++ [state.current], current := worker } :
      SupervisorState).goHandler connection (.replaced worker)).Sound := by
  have hlate := hsound.late_of_looping hlooping
  have howned := state.owned_looping hlooping
  have hholds : (state.handler connection).held = some worker := by rw [hhandler]; rfl
  set after :=
    ({ state with superseded := state.superseded ++ [state.current], current := worker } :
      SupervisorState).goHandler connection (.replaced worker) with hdef
  have hafter : after.owned = worker :: (state.superseded ++ [state.current]) :=
    after.owned_looping hlooping
  have hperm : (state.superseded ++ [state.current]).Perm state.owned := by
    rw [howned]
    exact perm_append_singleton _ _
  have hrest : (state.superseded ++ [state.current]).Nodup := hperm.nodup_iff.mpr hsound.nodup
  have hmem : ∀ {other}, other ∈ after.owned → other = worker ∨ other ∈ state.owned := by
    intro other hother
    rw [hafter, mem_cons] at hother
    exact hother.imp_right hperm.mem_iff.mp
  -- The handler gives its worker away; the others keep theirs.
  have hheld : ∀ {other held}, (after.handler other).held = some held →
      other ≠ connection ∧ (state.handler other).held = some held := by
    intro other held hother
    exact (held_goHandler _ _ _ hother).resolve_left (by simp [Handler.held])
  refine ⟨.inr ⟨hlate.1, hlate.2, hlate.3⟩, ?_, hrest, ?_, ?_, ?_, ?_, hsound.unstarted, ?_, ?_⟩
  · rw [hafter, nodup_cons]
    exact ⟨fun hworker ↦ hsound.apart hholds (hperm.mem_iff.mp hworker), hrest⟩
  · intro other _ hother hin
    obtain ⟨hne, hbefore⟩ := hheld hother
    rcases hmem hin with rfl | hin
    · exact hne (hsound.distinct hbefore hholds)
    · exact hsound.apart hbefore hin
  · exact fun hfirst hsecond ↦ hsound.distinct (hheld hfirst).2 (hheld hsecond).2
  · intro other hin
    rcases hmem hin with rfl | hin
    · exact hsound.held_started hholds
    · exact hsound.owned_started other hin
  · exact fun hother ↦ hsound.held_started (hheld hother).2
  · intro other hin hreceived
    rcases hmem hin with rfl | hin
    · exact absurd hreceived (hsound.held_received hholds)
    · exact hsound.owned_received other hin hreceived
  · exact fun hother ↦ hsound.held_received (hheld hother).2

theorem restore {rest : List Worker} {restored : Worker}
    (hrest : state.prune.superseded = rest ++ [restored]) :
    (state.restore connection rest restored).Sound := by
  have hpruned := hsound.prune hlooping
  have hlate := hsound.late_of_looping hlooping
  have howned : state.prune.owned = state.current :: (rest ++ [restored]) := by
    rw [← hrest]
    exact state.prune.owned_looping hlooping
  have hperm : (state.restore connection rest restored).owned.Perm state.prune.owned := by
    rw [howned]
    exact (perm_append_singleton restored rest).symm.cons _
  have hnodup := hpruned.superseded_nodup
  rw [hrest] at hnodup
  refine hpruned.narrow (.inr ⟨hlate.1, by simp [SupervisorState.restore],
    by simp [SupervisorState.restore]⟩) (hperm.nodup_iff.mpr hpruned.nodup) hperm.subset
    (Nodup.of_append_left hnodup) id rfl rfl .inl id

end

/-- A stop that receives the exit value keeps the invariant, whatever comes after it. -/
theorem stopReceives {killed : Bool} {next : AfterStop}
    (hcontrol : state.control = .stopping worker killed next)
    (hlife : state.life worker = .reported) :
    ((state.setLife worker .received).afterStop next).Sound := by
  have hlate : next ≠ .finish → state.Late := by
    intro hnext
    refine hsound.late_of_control (by simp [hcontrol]) ?_ (by simp [hcontrol])
    intro _ hfinish
    rw [hcontrol] at hfinish
    injection hfinish with _ _ hnext'
    exact hnext hnext'
  cases next with
  | finish =>
    have hearly : state.Early := hsound.phase.resolve_right fun h ↦ h.finish worker killed hcontrol
    have howned : state.owned = [worker] := by simp [owned, hcontrol]
    exact hsound.receive (.inl ⟨.inr (.inr rfl), hearly.2, hearly.3, hearly.4, hearly.5, hearly.6⟩)
      howned rfl hlife id rfl rfl rfl rfl
  | unwind =>
    have hlate := hlate (by simp)
    have howned : state.owned = worker :: state.superseded := by simp [owned, hcontrol]
    exact hsound.receive (.inr ⟨hlate.1, by simp [afterStop],
      by simp [afterStop]⟩) howned rfl hlife id rfl rfl rfl rfl
  | answerAbort =>
    have hlate := hlate (by simp)
    have howned : state.owned = worker :: state.current :: state.superseded := by
      simp [owned, hcontrol]
    simp only [afterStop]
    split
    · refine hsound.receive (.inr ⟨hlate.1, by simp, by simp⟩) howned rfl hlife ?_ rfl rfl rfl rfl
      intro _ held hother
      exact ((held_goHandler _ _ _ hother).resolve_left (by simp [Handler.held])).2
    · exact hsound.receive (.inr ⟨hlate.1, by simp, by simp⟩) howned rfl hlife id rfl rfl rfl rfl

end

/-- One step keeps the invariant, by cases on the step. -/
theorem step {pidOf : Worker → ℕ} {event : SupervisorEvent} (hsound : state.Sound)
    (hstep : SupervisorStep pidOf state event after) : after.Sound := by
  -- A step in the loop, or between the deferred stops, is after the start.
  have hlate : state.control = .looping ∨ state.control = .unwinding ∨ state.control = .closed →
      state.Late := by
    rintro (h | h | h) <;> exact hsound.late_of_control (by simp [h]) (by simp [h]) (by simp [h])
  have hearly : state.control = .awaitingReady → state.Early :=
    fun h ↦ hsound.phase.resolve_right fun hlate ↦ hlate.awaitingReady h
  cases hstep with
  | exit hlife | report hlife => exact hsound.setLife (by simp [hlife]) (by decide)
  | readinessEnds _ hwaiting => exact hsound.readinessEnds hwaiting
  | readinessReceives hwaiting hlife => exact hsound.readinessReceives hwaiting hlife
  | interruptStart hcontrol | takeFailure hcontrol =>
    have h := hearly hcontrol
    have howned : state.owned = [state.current] := by simp [owned, hcontrol]
    exact hsound.move (.inl ⟨.inr (.inl ⟨false, by simp [h.current]⟩), h.2, h.3, h.4, h.5, h.6⟩)
      rfl rfl rfl rfl (.refl _) (howned ▸ .refl _)
  | takeReady hcontrol hready =>
    have h := hearly hcontrol
    have howned : state.owned = [state.current] := by simp [owned, hcontrol]
    refine hsound.move (.inr ⟨hready, by simp, by simp⟩) rfl rfl rfl rfl (.refl _) ?_
    rw [howned, owned_looping _ rfl]
    simp [h.superseded]
  | takeExit hcontrol =>
    have h := hearly hcontrol
    exact hsound.move (.inl ⟨.inr (.inr rfl), h.2, h.3, h.4, h.5, h.6⟩) rfl rfl rfl rfl (.refl _)
      (nil_sublist _)
  | interruptLoop hcontrol =>
    have h := hlate (.inl hcontrol)
    exact hsound.move (.inr ⟨h.1, by simp, by simp⟩) rfl rfl rfl rfl (.refl _)
      (state.owned_looping hcontrol ▸ .refl _)
  | replace hcontrol hhandler => exact (hsound.prune hcontrol).handOver hcontrol hhandler
  | refuseAbort hcontrol hhandler =>
    have h := hlate (.inl hcontrol)
    exact (hsound.prune hcontrol).goHandler ⟨h.1, h.2, h.3⟩ (by simp [held])
  | acceptAbort hcontrol hhandler _ hrest =>
    have h := hlate (.inl hcontrol)
    exact (hsound.restore hcontrol hrest).goHandler
      ⟨h.1, by simp [SupervisorState.restore], by simp [SupervisorState.restore]⟩ (by simp [held])
  | currentExited hcontrol hlife =>
    have h := hlate (.inl hcontrol)
    exact hsound.receive (.inr ⟨h.1, by simp, by simp⟩) (state.owned_looping hcontrol) rfl hlife id
      rfl rfl rfl rfl
  | takeControlError hcontrol =>
    have h := hlate (.inl hcontrol)
    refine hsound.move (.inr ⟨h.1, by simp, by simp⟩) rfl rfl rfl rfl (.refl _) ?_
    rw [state.owned_looping hcontrol]
    exact sublist_cons_self _ _
  | stopReceives hcontrol hlife => exact hsound.stopReceives hcontrol hlife
  | @stopTimesOut worker next hcontrol =>
    have howned : (state.goControl (.stopping worker true next)).owned = state.owned := by
      cases next <;> simp [owned, hcontrol]
    refine hsound.move ?_ rfl rfl rfl rfl (.refl _) (howned ▸ .refl _)
    refine hsound.phase.imp (fun h ↦ ⟨?_, h.2, h.3, h.4, h.5, h.6⟩) (fun h ↦ ⟨h.1, by simp, ?_⟩)
    · rcases h.control with h | ⟨_, h⟩ | h <;> simp_all
    · intro other killed hother
      simp only [goControl_control, Control.stopping.injEq] at hother
      exact h.finish worker false (hother.2.2 ▸ hcontrol)
  | stopNext hcontrol hsuperseded =>
    have h := hlate (.inr (.inl hcontrol))
    refine hsound.move (.inr ⟨h.1, by simp, by simp⟩) rfl rfl rfl rfl ?_ ?_
    · rw [hsuperseded]
      exact sublist_cons_self _ _
    · have howned : state.owned = state.superseded := by simp [owned, hcontrol]
      rw [howned, hsuperseded]
      exact .refl _
  | closeLoop hcontrol =>
    have h := hlate (.inr (.inl hcontrol))
    exact hsound.move (.inr ⟨h.1, by simp, by simp⟩) rfl rfl rfl rfl (.refl _) (nil_sublist _)
  | returns hcontrol =>
    have h := hlate (.inr (.inr hcontrol))
    exact hsound.move (.inr ⟨h.1, by simp, by simp⟩) rfl rfl rfl rfl (.refl _) (nil_sublist _)
  | accept hserving hhandler =>
    have h : state.Late := hsound.phase.resolve_left fun h ↦ by simp [h.serving] at hserving
    exact hsound.goHandler h (by simp [held])
  | acceptFails hserving =>
    have h : state.Late := hsound.phase.resolve_left fun h ↦ by simp [h.serving] at hserving
    exact hsound.move (.inr ⟨h.1, h.2, h.3⟩) rfl rfl rfl rfl (.refl _) (.refl _)
  | answerDirectly _ hhandler | requestAbort _ hhandler | requestEnds hhandler
  | answerReplace hhandler | answerAbort hhandler =>
    exact hsound.goHandler (hsound.late_of_handler hhandler (by simp)) (by simp [held])
  | startReplacement hhandler => exact hsound.startReplacement hhandler
  | offerEnds hhandler | handlerTimesOut hhandler =>
    exact hsound.goHandler (hsound.late_of_handler hhandler (by simp)) (by simp [held, hhandler])
  | handlerReceives hhandler hlife => exact hsound.handlerReceives hhandler hlife

end Sound

theorem sound_initial : initial.Sound where
  phase := .inl ⟨.inl rfl, rfl, rfl, rfl, rfl, fun _ ↦ rfl⟩
  nodup := nodup_singleton 0
  superseded_nodup := nodup_nil
  apart := fun hheld ↦ absurd hheld (by simp [initial, held])
  distinct := fun hheld ↦ absurd hheld (by simp [initial, held])
  owned_started := by simp [initial, owned]
  held_started := fun hheld ↦ absurd hheld (by simp [initial, held])
  unstarted := by
    intro worker hle
    have hne : worker ≠ 0 := Nat.ne_of_gt hle
    simp [initial, update_of_ne hne]
  owned_received := by simp [initial, owned]
  held_received := fun hheld ↦ absurd hheld (by simp [initial, held])

/-- Every reachable state has the invariant. -/
theorem Sound.of_run {pidOf : Worker → ℕ} {events : List SupervisorEvent} {state : SupervisorState}
    (hrun : Run (SupervisorStep pidOf) initial events state) : state.Sound :=
  hrun.invariant Sound (fun hsound hstep ↦ hsound.step hstep) sound_initial

end SupervisorState

end Clyde.DaemonSupervisor
