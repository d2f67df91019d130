import Clyde.Livetrack.Registry

/-!
# What a drain leaves behind

`drainWith` of `internal/livetrack/drain.go` ends with the closed state, and `drained_registry` says
what holds then. The closed state may be stored while a `ForceCloseMatching` still has closers to
call, as in `matched_session_not_closed`; `SettledStep` excludes that.

The invariants are `Tracking` for the maps and the ids, `Closing` for the closers, and `Draining`
for the word.
-/

set_option autoImplicit false

namespace Clyde.Livetrack

open Foundation List Function Control

/-! ### Sessions and ids -/

/-- The session that `Register` is about to insert. -/
@[simp] def Control.draft : Control → Option Session
  | .registering session => some session
  | .inserting session => some session
  | _ => none

/-- The session that `Release` is about to take out. -/
@[simp] def Control.leaving : Control → Option Session
  | .releasing session => some session
  | _ => none

/-- The maps have registered sessions only, and an id belongs to one session. -/
structure Tracking (maps : Maps) (drawn : List String) (registered : List Session)
    (releasedByOwner : String → Bool) (control : Goroutine → Control) : Prop where
  drawnRegistered : ∀ session ∈ registered, session.id ∈ drawn
  distinct : (registered.map Session.id).Nodup
  tracked : List.Sublist maps.sessions registered
  consistent : maps.Consistent
  drafts : ∀ goroutine session, (control goroutine).draft = some session →
    session.id ∈ drawn ∧ session.id ∉ registered.map Session.id
  draftsDiffer : ∀ first second one two, (control first).draft = some one →
    (control second).draft = some two → one.id = two.id → first = second
  leaving : ∀ goroutine session, (control goroutine).leaving = some session →
    session ∈ registered ∧ releasedByOwner session.id = true

variable {next : Control} {other : Goroutine}

section

variable {maps : Maps} {drawn : List String} {registered : List Session}
  {releasedByOwner : String → Bool} {control : Goroutine → Control} {goroutine : Goroutine}
  {session : Session}

theorem of_update {β : Type} {property : Control → β} {value : β} (hnext : property next ≠ value)
    (hother : property (update control goroutine next other) = value) :
    other ≠ goroutine ∧ property (control other) = value := by
  rw [update_apply] at hother
  split_ifs at hother with hsame
  · exact absurd hother hnext
  · exact ⟨hsame, hother⟩

theorem apply_update {β : Type} {property : Control → β} {next : Control}
    (hnext : property next = property (control goroutine)) (other : Goroutine) :
    property (update control goroutine next other) = property (control other) := by
  by_cases hsame : other = goroutine
  · rw [hsame, update_self, hnext]
  · rw [update_of_ne hsame]

section

variable (htracking : Tracking maps drawn registered releasedByOwner control)
include htracking

theorem Tracking.eq_of_id {first second : Session} (hfirst : first ∈ registered)
    (hsecond : second ∈ registered) (hid : first.id = second.id) : first = second :=
  inj_on_of_nodup_map htracking.distinct hfirst hsecond hid

theorem Tracking.mem_registered (hsession : session ∈ maps.sessions) : session ∈ registered :=
  htracking.tracked.subset hsession

theorem Tracking.nodup :
    maps.sessions.Nodup :=
  (Nodup.of_map Session.id htracking.distinct).sublist htracking.tracked

theorem Tracking.go (goroutine : Goroutine) (hdraft : next.draft = none)
    (hleaving : next.leaving = none) :
    Tracking maps drawn registered releasedByOwner (update control goroutine next) :=
  { htracking with
    drafts :=
      fun other draft hother ↦ htracking.drafts other draft
        (of_update (by rw [hdraft]; simp) hother).2
    draftsDiffer := fun first second one two hone htwo hid ↦
      htracking.draftsDiffer first second one two (of_update (by rw [hdraft]; simp) hone).2
        (of_update (by rw [hdraft]; simp) htwo).2 hid
    leaving := fun other session hother ↦
      htracking.leaving other session (of_update (by rw [hleaving]; simp) hother).2 }

/-- A fresh id keeps the ids of sessions distinct. -/
theorem Tracking.check (hfresh : session.id ∉ drawn) :
    Tracking maps (session.id :: drawn) registered releasedByOwner
      (update control goroutine (.registering session)) := by
  refine { htracking with
      drawnRegistered :=
        fun other hother ↦ mem_cons_of_mem _ (htracking.drawnRegistered other hother)
      drafts := ?_
      draftsDiffer := ?_
      leaving := fun other old hother ↦ htracking.leaving other old (of_update (by simp) hother).2 }
  · intro other draft hother
    rw [update_apply] at hother
    split_ifs at hother
    · cases hother
      refine ⟨mem_cons_self, fun hmem ↦ hfresh ?_⟩
      obtain ⟨old, hold, hid⟩ := mem_map.mp hmem
      exact hid ▸ htracking.drawnRegistered old hold
    · obtain ⟨hdrawn, hnew⟩ := htracking.drafts other draft hother
      exact ⟨mem_cons_of_mem _ hdrawn, hnew⟩
  intro first second one two hone htwo hid
  rw [update_apply] at hone htwo
  split_ifs at hone htwo with hfirst hsecond hsecond
  · rw [hfirst, hsecond]
  · cases hone
    exact absurd (hid ▸ (htracking.drafts second two htwo).1) hfresh
  · cases htwo
    exact absurd (hid ▸ (htracking.drafts first one hone).1) hfresh
  · exact htracking.draftsDiffer first second one two hone htwo hid

theorem Tracking.lock (hcontrol : control goroutine = .registering session) :
    Tracking maps drawn registered releasedByOwner
      (update control goroutine (.inserting session)) := by
  have hdrafts :=
    @apply_update control goroutine _ draft (.inserting session) (by rw [hcontrol]; rfl)
  have hleaving :=
    @apply_update control goroutine _ Control.leaving (.inserting session) (by rw [hcontrol]; rfl)
  exact { htracking with
      drafts := fun other draft hother ↦ htracking.drafts other draft (hdrafts other ▸ hother)
      draftsDiffer := fun first second one two hone htwo ↦
        htracking.draftsDiffer first second one two (hdrafts first ▸ hone) (hdrafts second ▸ htwo)
      leaving := fun other draft hother ↦ htracking.leaving other draft (hleaving other ▸ hother) }

/-- An insertion keeps the ids of sessions distinct. -/
theorem Tracking.insert (hcontrol : control goroutine = .inserting session) :
    Tracking (maps.insert session) drawn (registered ++ [session]) releasedByOwner
      (update control goroutine .idle) := by
  have hdraft : (control goroutine).draft = some session := by rw [hcontrol]; rfl
  obtain ⟨_, hnew⟩ := htracking.drafts goroutine session hdraft
  exact
    { drawnRegistered := by
        intro other hother
        rcases mem_append.mp hother with hother | hother
        · exact htracking.drawnRegistered other hother
        · rwa [mem_singleton.mp hother]
      distinct := by
        rw [map_append, nodup_append]
        refine ⟨htracking.distinct, nodup_singleton _, ?_⟩
        rintro _ hid other hother rfl
        exact hnew (mem_singleton.mp hother ▸ hid)
      tracked := htracking.tracked.append_right [session]
      consistent := htracking.consistent.insert session
      drafts := by
        intro other draft hother
        obtain ⟨hsame, hother⟩ := of_update (by simp) hother
        obtain ⟨hdraftDrawn, hdraftNew⟩ := htracking.drafts other draft hother
        refine ⟨hdraftDrawn, fun hmem ↦ ?_⟩
        rw [map_append, mem_append] at hmem
        rcases hmem with hmem | hmem
        · exact hdraftNew hmem
        · exact hsame (htracking.draftsDiffer other goroutine draft session hother hdraft
            (mem_singleton.mp hmem))
      draftsDiffer := (htracking.go goroutine rfl rfl).draftsDiffer
      leaving := fun other old hother ↦
        (htracking.leaving other old (of_update (by simp) hother).2).imp_left (mem_append_left _) }

theorem Tracking.flag (hregistered : session ∈ registered) :
    Tracking maps drawn registered (update releasedByOwner session.id true)
      (update control goroutine (.releasing session)) := by
  refine { htracking with
      drafts := fun other draft hother ↦ htracking.drafts other draft (of_update (by simp) hother).2
      draftsDiffer := fun first second one two hone htwo hid ↦
        htracking.draftsDiffer first second one two (of_update (by simp) hone).2
          (of_update (by simp) htwo).2 hid
      leaving := ?_ }
  intro other draft hother
  rw [update_apply] at hother
  split_ifs at hother
  · cases hother
    exact ⟨hregistered, update_self ..⟩
  obtain ⟨hmem, hreleased⟩ := htracking.leaving other draft hother
  exact ⟨hmem, by simp [update_apply, hreleased]⟩

theorem Tracking.deleteAll {removed : List Session}
    (hremoved : ∀ session ∈ removed, session ∈ registered) :
    Tracking (maps.deleteAll removed) drawn registered releasedByOwner control :=
  { htracking with
    tracked := by
      rw [Maps.sessions_deleteAll]
      exact filter_sublist.trans htracking.tracked
    consistent := htracking.consistent.deleteAll fun session hsession other hother hid ↦
      htracking.eq_of_id (htracking.mem_registered hother) (hremoved session hsession) hid }

theorem Tracking.clear : Tracking .empty drawn registered releasedByOwner control :=
  { htracking with tracked := nil_sublist _, consistent := Maps.consistent_empty }

end

end

/-! ### Closers -/

/-- Tracked, waiting for its closer with one goroutine, closed once, or released by its owner. -/
structure Closing (sessions registered : List Session) (releasedByOwner : String → Bool)
    (closerCalls : String → ℕ) (pending : Goroutine → List Session) : Prop where
  nodup : ∀ goroutine, (pending goroutine).Nodup
  apart : ∀ first second, ∀ session ∈ pending first, session ∈ pending second → first = second
  waiting : ∀ goroutine, ∀ session ∈ pending goroutine,
    session ∈ registered ∧ session ∉ sessions ∧ closerCalls session.id = 0
  tracked : ∀ session ∈ sessions, closerCalls session.id = 0
  once : ∀ id, closerCalls id ≤ 1
  unregistered : ∀ id ∉ registered.map Session.id, closerCalls id = 0
  handled : ∀ session ∈ registered, session ∈ sessions ∨
    (∃ goroutine, session ∈ pending goroutine) ∨
    closerCalls session.id = 1 ∨ releasedByOwner session.id = true

section

variable {sessions registered : List Session} {releasedByOwner : String → Bool}
  {closerCalls : String → ℕ} {pending : Goroutine → List Session} {goroutine : Goroutine}
  {session : Session}

section

variable (hclosing : Closing sessions registered releasedByOwner closerCalls pending)
include hclosing

/-- A new session is tracked and has not been closed. -/
theorem Closing.insert (hnew : session.id ∉ registered.map Session.id) :
    Closing (sessions ++ [session])
      (registered ++ [session]) releasedByOwner closerCalls pending := by
  refine { hclosing with
      waiting := ?_
      tracked := ?_
      unregistered := fun id hid ↦ hclosing.unregistered id fun hmem ↦
        hid (by rw [map_append]; exact mem_append_left _ hmem)
      handled := ?_ }
  · intro other old hold
    obtain ⟨hregistered, huntracked, hcalls⟩ := hclosing.waiting other old hold
    refine ⟨mem_append_left _ hregistered, fun hmem ↦ ?_, hcalls⟩
    rcases mem_append.mp hmem with hmem | hmem
    · exact huntracked hmem
    · obtain rfl := mem_singleton.mp hmem
      exact hnew (mem_map_of_mem hregistered)
  · intro old hold
    rcases mem_append.mp hold with hold | hold
    · exact hclosing.tracked old hold
    · obtain rfl := mem_singleton.mp hold
      exact hclosing.unregistered _ hnew
  intro old hold
  rcases mem_append.mp hold with hold | hold
  · exact (hclosing.handled old hold).imp_left (mem_append_left _)
  · exact .inl (mem_append_right _ hold)

theorem Closing.flag (id : String) :
    Closing sessions registered (update releasedByOwner id true) closerCalls pending := by
  refine { hclosing with handled := fun old hold ↦ ?_ }
  refine (hclosing.handled old hold).imp_right (Or.imp_right (Or.imp_right fun hreleased ↦ ?_))
  simp [update_apply, hreleased]

/-- A session that its owner released may leave the maps without a closer call. -/
theorem Closing.delete (hreleased : releasedByOwner session.id = true) :
    Closing (sessions.filter fun other ↦ other.id ≠ session.id) registered
      releasedByOwner closerCalls pending := by
  refine { hclosing with
      waiting := ?_
      tracked := fun old hold ↦ hclosing.tracked old (mem_of_mem_filter hold)
      handled := ?_ }
  · intro other old hold
    obtain ⟨hregistered, huntracked, hcalls⟩ := hclosing.waiting other old hold
    exact ⟨hregistered, fun hmem ↦ huntracked (mem_of_mem_filter hmem), hcalls⟩
  intro old hold
  rcases hclosing.handled old hold with htracked | hrest
  · by_cases hid : old.id = session.id
    · exact .inr (.inr (.inr (hid ▸ hreleased)))
    · exact .inl (mem_filter.mpr ⟨htracked, by simpa using hid⟩)
  · exact .inr hrest

/-- A goroutine that takes sessions out of the maps has their closers to call. -/
theorem Closing.take {taken left : List Session} (hnone : pending goroutine = [])
    (hnodup : taken.Nodup)
    (htaken : ∀ session ∈ taken, session ∈ sessions ∧ session ∈ registered ∧ session ∉ left)
    (hleft : ∀ session ∈ left, session ∈ sessions)
    (hsplit : ∀ session ∈ sessions, session ∈ left ∨ session ∈ taken) :
    Closing left registered releasedByOwner closerCalls (update pending goroutine taken) := by
  have hold : ∀ {other session}, other ≠ goroutine →
      (session ∈ update pending goroutine taken other ↔ session ∈ pending other) := by
    intro other session hother
    rw [update_of_ne hother]
  refine { hclosing with
      nodup := ?_
      apart := ?_
      waiting := ?_
      tracked := fun old hmem ↦ hclosing.tracked old (hleft old hmem)
      handled := ?_ }
  · exact (forall_update_iff _ fun _ ↦ Nodup).mpr ⟨hnodup, fun other _ ↦ hclosing.nodup other⟩
  · -- A session that another goroutine has is not tracked, and so was not taken.
    have hdifferent : ∀ other session, other ≠ goroutine →
        session ∈ pending other → session ∉ taken :=
      fun other session _ hother htake ↦ (hclosing.waiting other session hother).2.1
        (htaken session htake).1
    intro first second old hfirst hsecond
    by_cases hone : first = goroutine <;> by_cases htwo : second = goroutine
    · rw [hone, htwo]
    · rw [hone, update_self] at hfirst
      exact absurd hfirst (hdifferent second old htwo ((hold htwo).mp hsecond))
    · rw [htwo, update_self] at hsecond
      exact absurd hsecond (hdifferent first old hone ((hold hone).mp hfirst))
    · exact hclosing.apart first second old ((hold hone).mp hfirst) ((hold htwo).mp hsecond)
  · intro other old hother
    by_cases hsame : other = goroutine
    · rw [hsame, update_self] at hother
      obtain ⟨htracked, hregistered, hnot⟩ := htaken old hother
      exact ⟨hregistered, hnot, hclosing.tracked old htracked⟩
    · obtain ⟨hregistered, huntracked, hcalls⟩ :=
        hclosing.waiting other old ((hold hsame).mp hother)
      exact ⟨hregistered, fun hmem ↦ huntracked (hleft old hmem), hcalls⟩
  intro old hregistered
  rcases hclosing.handled old hregistered with htracked | ⟨other, hother⟩ | hrest
  · rcases hsplit old htracked with hstays | htake
    · exact .inl hstays
    · refine .inr (.inl ⟨goroutine, ?_⟩)
      rwa [update_self]
  · refine .inr (.inl ⟨other, (hold ?_).mpr hother⟩)
    rintro rfl
    rw [hnone] at hother
    simp at hother
  · exact .inr (.inr hrest)

/-- Calling the closer of a taken session closes it once. -/
theorem Closing.call
    (hids : ∀ first ∈ registered, ∀ second ∈ registered, first.id = second.id → first = second)
    (hsub : ∀ session ∈ sessions, session ∈ registered) (hpending : session ∈ pending goroutine) :
    Closing sessions registered releasedByOwner
      (update closerCalls session.id (closerCalls session.id + 1))
      (update pending goroutine ((pending goroutine).erase session)) := by
  obtain ⟨hregistered, huntracked, hzero⟩ := hclosing.waiting goroutine session hpending
  have hmem : ∀ {other old}, old ∈ update pending goroutine
      ((pending goroutine).erase session) other → old ∈ pending other ∧ old ≠ session := by
    intro other old hold
    by_cases hsame : other = goroutine
    · rw [hsame, update_self, (hclosing.nodup goroutine).mem_erase_iff] at hold
      rw [hsame]
      exact ⟨hold.2, hold.1⟩
    rw [update_of_ne hsame] at hold
    refine ⟨hold, ?_⟩
    rintro rfl
    exact hsame (hclosing.apart other goroutine old hold hpending)
  have hcalls : ∀ old ∈ registered, old ≠ session →
      update closerCalls session.id (closerCalls session.id + 1) old.id = closerCalls old.id := by
    intro old hold hne
    exact update_of_ne (fun hid ↦ hne (hids old hold session hregistered hid)) _ _
  refine
    { nodup := ?_
      apart := fun first second old hfirst hsecond ↦
        hclosing.apart first second old (hmem hfirst).1 (hmem hsecond).1
      waiting := ?_
      tracked := ?_
      once := ?_
      unregistered := ?_
      handled := ?_ }
  · exact (forall_update_iff _ fun _ ↦ Nodup).mpr
      ⟨(hclosing.nodup goroutine).erase session, fun other _ ↦ hclosing.nodup other⟩
  · intro other old hold
    obtain ⟨hother, hne⟩ := hmem hold
    obtain ⟨holdRegistered, holdUntracked, holdCalls⟩ := hclosing.waiting other old hother
    exact ⟨holdRegistered, holdUntracked, (hcalls old holdRegistered hne).trans holdCalls⟩
  · intro old hold
    have hne : old ≠ session := fun heq ↦ huntracked (heq ▸ hold)
    exact (hcalls old (hsub old hold) hne).trans (hclosing.tracked old hold)
  · exact (forall_update_iff _ fun _ calls ↦ calls ≤ 1).mpr
      ⟨by simp [hzero], fun id _ ↦ hclosing.once id⟩
  · intro id hid
    rw [update_of_ne]
    · exact hclosing.unregistered id hid
    · rintro rfl
      exact hid (mem_map_of_mem hregistered)
  intro old hold
  by_cases hsame : old = session
  · refine .inr (.inr (.inl ?_))
    rw [hsame, update_self, hzero]
  rcases hclosing.handled old hold with htracked | ⟨other, hother⟩ | hcalled | hreleased
  · exact .inl htracked
  · refine .inr (.inl ⟨other, ?_⟩)
    by_cases hgoroutine : other = goroutine
    · rw [hgoroutine] at hother ⊢
      rw [update_self]
      exact (mem_erase_of_ne hsame).mpr hother
    · rwa [update_of_ne hgoroutine]
  · exact .inr (.inr (.inl ((hcalls old hold hsame).trans hcalled)))
  · exact .inr (.inr (.inr hreleased))

end

end

/-! ### The state word -/

/-- The goroutine has moved the registry out of the open state and has not stored the closed one. -/
@[simp] def Control.drains : Control → Bool
  | .closing .idleGrace => true
  | .closing .deadline => true
  | .starting => true
  | .waiting => true
  | .expired => true
  | .forcing => true
  | .finished => true
  | _ => false

/-- The drain has seen or made the maps empty. -/
@[simp] def Control.sealed : Control → Bool
  | .closing .deadline => true
  | .finished => true
  | _ => false

/-- `Register` holds the mutex. -/
@[simp] def Control.inserts : Control → Bool
  | .inserting _ => true
  | _ => false

theorem Control.drains_of_sealed {control : Control} (hsealed : control.sealed = true) :
    control.drains = true := by
  cases control with
  | closing stage => cases stage <;> simp_all [sealed, drains]
  | _ => simp_all [sealed, drains]

/-- One goroutine drains, and nothing is tracked or inserted once it has seen the maps empty. -/
structure Draining (phase : Phase) (sessions : List Session) (holder : Option Goroutine)
    (control : Goroutine → Control) : Prop where
  holds : ∀ goroutine, (control goroutine).inserts = true → holder = some goroutine
  active : ∀ goroutine, (control goroutine).drains = true → phase = .draining ∨ phase = .forcing
  single : ∀ first second, (control first).drains = true →
    (control second).drains = true → first = second
  empty : (phase = .closed ∨ ∃ goroutine, (control goroutine).sealed = true) →
    sessions = [] ∧ ∀ goroutine, (control goroutine).inserts = false
  returned : ∀ goroutine, control goroutine = .returned .closed → phase = .closed

variable {here : Control}

section

variable {phase : Phase} {sessions : List Session} {holder : Option Goroutine}
  {control : Goroutine → Control} {goroutine : Goroutine}

theorem eq_of_update (hnext : next ≠ here) (hother : update control goroutine next other = here) :
    control other = here :=
  (@of_update next other control goroutine _ id here hnext hother).2

theorem inserts_of_update (hnext : next.inserts = false)
    (hnone : ∀ other, (control other).inserts = false) :
    ∀ other, (update control goroutine next other).inserts = false :=
  (forall_update_iff control fun _ here ↦ here.inserts = false).mpr
    ⟨hnext, fun other _ ↦ hnone other⟩

theorem Draining.no_inserts (hdraining : Draining phase sessions none control) (other : Goroutine) :
    (control other).inserts = false := by
  by_contra hinserts
  have hholder := hdraining.holds other (by simpa using hinserts)
  cases hholder

/-- A step of one goroutine that ends neither in a critical section nor in a new part of a drain.
The sessions may only become fewer. -/
theorem Draining.go (hdraining : Draining phase sessions holder control)
    {left : List Session} (hleft : sessions = [] → left = []) (hinserts : next.inserts = false)
    (hdrains : next.drains = true → (control goroutine).drains = true)
    (hsealed : next.sealed = true → left = [] ∧ ∀ other, (control other).inserts = false)
    (hreturned : next = .returned .closed → phase = .closed) :
    Draining phase left holder (update control goroutine next) := by
  have hdrainsOf : ∀ {other}, (update control goroutine next other).drains = true →
      (control other).drains = true := by
    intro other hother
    rw [update_apply] at hother
    split_ifs at hother with hsame
    · exact hsame ▸ hdrains hother
    · exact hother
  refine
    { holds := fun other hother ↦
      hdraining.holds other (of_update (by rw [hinserts]; simp) hother).2
      active := fun other hother ↦ hdraining.active other (hdrainsOf hother)
      single := fun first second hfirst hsecond ↦
        hdraining.single first second (hdrainsOf hfirst) (hdrainsOf hsecond)
      empty := ?_
      returned := ?_ }
  · intro hcase
    have hfacts : left = [] ∧ ∀ other, (control other).inserts = false := by
      by_cases hnext : next.sealed = true
      · exact hsealed hnext
      · obtain ⟨hnil, hnone⟩ := hdraining.empty (hcase.imp_right fun ⟨other, hother⟩ ↦
          ⟨other, (of_update hnext hother).2⟩)
        exact ⟨hleft hnil, hnone⟩
    exact ⟨hfacts.1, inserts_of_update hinserts hfacts.2⟩
  intro other hother
  by_cases hnext : next = .returned .closed
  · exact hreturned hnext
  · exact hdraining.returned other (eq_of_update (by simp [hnext]) hother)

/-- Taking the lock of an open registry for an insertion keeps the drain invariant. -/
theorem Draining.lock (hdraining : Draining .opened sessions none control) (session : Session) :
    Draining .opened sessions (some goroutine) (update control goroutine (.inserting session)) := by
  have hnot : ∀ other, (update control goroutine (.inserting session) other).drains = true →
      False := by
    intro other hother
    rcases hdraining.active other (of_update (by simp) hother).2 with hphase | hphase <;>
      cases hphase
  refine
    { holds := ?_
      active := fun other hother ↦ (hnot other hother).elim
      single := fun first _ hfirst _ ↦ (hnot first hfirst).elim
      empty := ?_
      returned := fun other hother ↦ hdraining.returned other (eq_of_update (by simp) hother) }
  · intro other hother
    by_cases hsame : other = goroutine
    · rw [hsame]
    · rw [update_of_ne hsame, hdraining.no_inserts other] at hother
      cases hother
  · rintro (hphase | ⟨other, hother⟩)
    · cases hphase
    · exact (hnot other (drains_of_sealed hother)).elim

/-- An insertion gives the lock back. -/
theorem Draining.insert (hdraining : Draining phase sessions holder control)
    (hinserts : (control goroutine).inserts = true) (inserted : List Session) :
    Draining phase inserted none (update control goroutine .idle) := by
  have hnot : ¬(phase = .closed ∨ ∃ other, (control other).sealed = true) := by
    intro hcase
    rw [(hdraining.empty hcase).2 goroutine] at hinserts
    cases hinserts
  refine
    { holds := ?_
      active := fun other hother ↦ hdraining.active other (of_update (by simp) hother).2
      single := fun first second hfirst hsecond ↦
        hdraining.single first second (of_update (by simp) hfirst).2 (of_update (by simp) hsecond).2
      empty := fun hcase ↦ absurd (hcase.imp_right fun ⟨other, hother⟩ ↦
        ⟨other, (of_update (by simp) hother).2⟩) hnot
      returned := fun other hother ↦ hdraining.returned other (eq_of_update (by simp) hother) }
  intro other hother
  obtain ⟨hne, hother⟩ := of_update (by simp) hother
  have hsame := (hdraining.holds other hother).symm.trans (hdraining.holds goroutine hinserts)
  exact absurd (Option.some.inj hsame) hne

/-- The first drain closes the registry to new sessions. -/
theorem Draining.start (hdraining : Draining .opened sessions holder control) :
    Draining .draining sessions holder (update control goroutine .starting) := by
  have hdrains : ∀ {other}, (update control goroutine .starting other).drains = true →
      other = goroutine := by
    intro other hother
    by_contra hsame
    rw [update_of_ne hsame] at hother
    rcases hdraining.active other hother with hphase | hphase <;> cases hphase
  refine
    { holds := fun other hother ↦ hdraining.holds other (of_update (by simp) hother).2
      active := fun _ _ ↦ .inl rfl
      single := fun first second hfirst hsecond ↦ (hdrains hfirst).trans (hdrains hsecond).symm
      empty := ?_
      returned := ?_ }
  · rintro (hphase | ⟨other, hother⟩)
    · cases hphase
    · exact absurd (hdrains (drains_of_sealed hother)) (of_update (by simp) hother).1
  · intro other hother
    cases hdraining.returned other (eq_of_update (by simp) hother)

/-- A drain that stores its next phase keeps the invariant. -/
theorem Draining.store (hdraining : Draining phase sessions holder control) {stored : Phase}
    (hdrains : (control goroutine).drains = true) (hinserts : next.inserts = false)
    (hactive : next.drains = true → stored = .forcing) (hsealed : next.sealed = false)
    (hclosed : stored = .closed → (control goroutine).sealed = true)
    (hreturned : next = .returned .closed → stored = .closed) :
    Draining stored sessions holder (update control goroutine next) := by
  have hdrainsOf : ∀ {other}, (update control goroutine next other).drains = true →
      other = goroutine := by
    intro other hother
    by_contra hsame
    rw [update_of_ne hsame] at hother
    exact hsame (hdraining.single other goroutine hother hdrains)
  refine
    { holds := fun other hother ↦
      hdraining.holds other (of_update (by rw [hinserts]; simp) hother).2
      active := ?_
      single := fun first second hfirst hsecond ↦ (hdrainsOf hfirst).trans (hdrainsOf hsecond).symm
      empty := ?_
      returned := ?_ }
  · intro other hother
    rw [hdrainsOf hother, update_self] at hother
    exact .inr (hactive hother)
  · intro hcase
    have hbefore : (control goroutine).sealed = true := by
      rcases hcase with hphase | ⟨other, hother⟩
      · exact hclosed hphase
      · exact absurd (hdrainsOf (drains_of_sealed hother))
          (of_update (by rw [hsealed]; simp) hother).1
    obtain ⟨hnil, hnone⟩ := hdraining.empty (.inr ⟨goroutine, hbefore⟩)
    exact ⟨hnil, inserts_of_update hinserts hnone⟩
  intro other hother
  by_cases hnext : next = .returned .closed
  · exact hreturned hnext
  · rcases hdraining.active goroutine hdrains with hphase | hphase <;>
      cases hphase.symm.trans (hdraining.returned other (eq_of_update (by simp [hnext]) hother))

end

/-! ### Runs -/

/-- What holds in every reachable state. -/
structure Registry.Sound (registry : Registry) : Prop where
  tracking : Tracking registry.maps registry.drawn registry.registered registry.releasedByOwner
    registry.control
  closing : Closing registry.maps.sessions registry.registered registry.releasedByOwner
    registry.closerCalls registry.pending
  draining : Draining registry.phase registry.maps.sessions registry.holder registry.control
  busy : ∀ goroutine, (∀ stage, registry.control goroutine ≠ .closing stage) →
    registry.pending goroutine = []

theorem sound_newRegistry : newRegistry.Sound where
  tracking :=
    { drawnRegistered := fun _ hsession ↦ absurd hsession not_mem_nil
      distinct := nodup_nil
      tracked := nil_sublist _
      consistent := Maps.consistent_empty
      drafts := fun _ _ hdraft ↦ nomatch hdraft
      draftsDiffer := fun _ _ _ _ hdraft ↦ nomatch hdraft
      leaving := fun _ _ hleaving ↦ nomatch hleaving }
  closing :=
    { nodup := fun _ ↦ nodup_nil
      apart := fun _ _ _ hsession ↦ absurd hsession not_mem_nil
      waiting := fun _ _ hsession ↦ absurd hsession not_mem_nil
      tracked := fun _ hsession ↦ absurd hsession not_mem_nil
      once := fun _ ↦ Nat.zero_le _
      unregistered := fun _ _ ↦ rfl
      handled := fun _ hsession ↦ absurd hsession not_mem_nil }
  draining :=
    { holds := fun _ hinserts ↦ nomatch hinserts
      active := fun _ hdrains ↦ nomatch hdrains
      single := fun _ _ hdrains ↦ nomatch hdrains
      empty := by
        rintro (hphase | ⟨_, hsealed⟩)
        · cases hphase
        · cases hsealed
      returned := fun _ hreturned ↦ nomatch hreturned }
  busy _ _ := rfl

section

variable {registry : Registry} {goroutine : Goroutine}

section

variable (hsound : registry.Sound)
include hsound

theorem busy_go (hpending : registry.pending goroutine = []) (other : Goroutine)
    (hother : ∀ stage, update registry.control goroutine next other ≠ .closing stage) :
    registry.pending other = [] := by
  by_cases hsame : other = goroutine
  · rw [hsame, hpending]
  · rw [update_of_ne hsame] at hother
    exact hsound.busy other hother

theorem Registry.Sound.pending_nil (hcontrol : registry.control goroutine = here)
    (hhere : ∀ stage, here ≠ .closing stage) :
    registry.pending goroutine = [] :=
  hsound.busy goroutine fun stage heq ↦ hhere stage (hcontrol.symm.trans heq)

variable (matched : Session → Bool)

/-- The matched sessions leave the maps and wait for their closers. -/
theorem Registry.Sound.closing_matched (hpending : registry.pending goroutine = []) :
    Closing (registry.maps.deleteAll (registry.maps.sessions.filter matched)).sessions
      registry.registered registry.releasedByOwner registry.closerCalls
      (update registry.pending goroutine (registry.maps.sessions.filter matched)) := by
  rw [Maps.sessions_deleteAll]
  refine hsound.closing.take hpending (hsound.tracking.nodup.filter _) ?_ ?_ ?_
  · intro session hsession
    have htracked := mem_of_mem_filter hsession
    refine ⟨htracked, hsound.tracking.mem_registered htracked, fun hleft ↦ ?_⟩
    exact of_decide_eq_true (mem_filter.mp hleft).2 (mem_map_of_mem hsession)
  · exact fun session hsession ↦ mem_of_mem_filter hsession
  intro session hsession
  by_cases hmatched : matched session = true
  · exact .inr (mem_filter.mpr ⟨hsession, hmatched⟩)
  refine .inl (mem_filter.mpr ⟨hsession, decide_eq_true fun hmem ↦ ?_⟩)
  obtain ⟨_, hother, hid⟩ := mem_map.mp hmem
  obtain rfl := hsound.tracking.eq_of_id (hsound.tracking.mem_registered (mem_of_mem_filter hother))
    (hsound.tracking.mem_registered hsession) hid
  exact hmatched (mem_filter.mp hother).2

theorem busy_take {stage : Stage} {taken : List Session} (other : Goroutine)
    (hother : ∀ next, update registry.control goroutine (.closing stage) other ≠ .closing next) :
    update registry.pending goroutine taken other = [] := by
  by_cases hsame : other = goroutine
  · subst hsame
    exact absurd (update_self _ _ _) (hother stage)
  · rw [update_of_ne hsame] at hother ⊢
    exact hsound.busy other hother

theorem Registry.Sound.takeMatched {stage : Stage} (hcontrol : registry.control goroutine = here)
    (hhere : ∀ stage, here ≠ .closing stage) (hstage : stage ≠ .deadline)
    (hdrains : (Control.closing stage).drains = true → here.drains = true) :
    (registry.take goroutine (registry.maps.sessions.filter matched)
      (registry.maps.deleteAll (registry.maps.sessions.filter matched)) stage).Sound where
  tracking := (hsound.tracking.deleteAll fun session hsession ↦
    hsound.tracking.mem_registered (mem_of_mem_filter hsession)).go goroutine rfl rfl
  closing := hsound.closing_matched matched (hsound.pending_nil hcontrol hhere)
  draining := by
    refine hsound.draining.go ?_ rfl (fun hnext ↦ hcontrol ▸ hdrains hnext) ?_ (by simp)
    · intro hnil
      change (registry.maps.deleteAll (registry.maps.sessions.filter matched)).sessions = []
      rw [Maps.sessions_deleteAll, hnil, filter_nil]
    · cases stage <;> simp_all [sealed]
  busy := busy_take hsound

end

/-- One step of a goroutine keeps the registry's invariants, by cases on the step. -/
theorem Registry.Sound.step {event : Goroutine × RegistryEvent} {after : Registry}
    (hsound : registry.Sound) (hstep : RegistryStep registry event after) : after.Sound := by
  have htracking := hsound.tracking
  have hdraining := hsound.draining
  -- A goroutine that has no closers to call goes on, and may store the state word.
  have hstore : ∀ {goroutine next phase}, registry.pending goroutine = [] →
      next.draft = none → next.leaving = none →
      Draining phase registry.maps.sessions registry.holder
        (update registry.control goroutine next) →
      ({ registry.go goroutine next with phase := phase } : Registry).Sound := by
    intro goroutine next phase hpending hdraft hleaving hafter
    exact ⟨htracking.go goroutine hdraft hleaving, hsound.closing, hafter, busy_go hsound hpending⟩
  have hmove : ∀ {goroutine : Goroutine} {next : Control}, registry.pending goroutine = [] →
      next.draft = none → next.leaving = none → next.inserts = false →
      (next.drains = true → (registry.control goroutine).drains = true) → next.sealed = false →
      (next = .returned .closed → registry.phase = .closed) →
      (registry.go goroutine next).Sound := by
    intro goroutine _ hpending hdraft hleaving hinserts hdrains hsealed hreturned
    exact hstore hpending hdraft hleaving (hdraining.go id hinserts hdrains
      (fun hnext ↦ by rw [hsealed] at hnext; cases hnext) hreturned)
  cases hstep with
  | registerCheck session hcontrol hphase hfresh =>
    exact { hsound with
        tracking := htracking.check hfresh
        draining := hdraining.go id rfl (by simp) (by simp) (by simp)
        busy := busy_go hsound (hsound.pending_nil hcontrol (by simp)) }
  | registerLock hcontrol hholder hphase =>
    refine { hsound with
        tracking := htracking.lock hcontrol
        draining := ?_
        busy := busy_go hsound (hsound.pending_nil hcontrol (by simp)) }
    rw [hphase, hholder] at hdraining
    change Draining registry.phase _ _ _
    rw [hphase]
    exact hdraining.lock _
  | registerRefuse hcontrol | drainRefused hcontrol | refusedReturns hcontrol =>
    exact hmove (hsound.pending_nil hcontrol (by simp)) rfl rfl rfl (by simp) rfl (by simp)
  | registerInsert hcontrol =>
    exact
      { tracking := htracking.insert hcontrol
        closing := hsound.closing.insert (htracking.drafts _ _ (by rw [hcontrol]; rfl)).2
        draining := hdraining.insert (by rw [hcontrol]; rfl) _
        busy := busy_go hsound (hsound.pending_nil hcontrol (by simp)) }
  | releaseFlag session hcontrol hregistered hreleased =>
    exact
      { tracking := htracking.flag hregistered
        closing := hsound.closing.flag session.id
        draining := hdraining.go id rfl (by simp) (by simp) (by simp)
        busy := busy_go hsound (hsound.pending_nil hcontrol (by simp)) }
  | @releaseRemove goroutine session hcontrol hholder =>
    obtain ⟨hregistered, hreleased⟩ := htracking.leaving goroutine session (by rw [hcontrol]; rfl)
    have hdeleted : Tracking (registry.maps.deleteAll [session]) registry.drawn registry.registered
        registry.releasedByOwner registry.control :=
      htracking.deleteAll (by simpa using hregistered)
    exact
      { tracking := hdeleted.go goroutine rfl rfl
        closing := hsound.closing.delete hreleased
        draining :=
          hdraining.go (fun hnil ↦ by simp [Maps.delete, hnil]) rfl (by simp) (by simp) (by simp)
        busy := busy_go hsound (hsound.pending_nil hcontrol (by simp)) }
  | matchRemove matched hcontrol hholder =>
    exact hsound.takeMatched matched hcontrol (by simp) (by simp) (by simp)
  | @callCloser goroutine stage session hcontrol hpending horder =>
    refine
      { tracking := htracking
        closing := hsound.closing.call (fun _ hfirst _ hsecond ↦ htracking.eq_of_id hfirst hsecond)
          (fun _ ↦ htracking.mem_registered) hpending
        draining := hdraining
        busy := ?_ }
    intro other hother
    have hne : other ≠ goroutine := fun hsame ↦ hother stage (hsame ▸ hcontrol)
    exact (update_of_ne hne _ _).trans (hsound.busy other hother)
  | markReleased session hcontrol hunmarked =>
    exact ⟨htracking, hsound.closing, hdraining, hsound.busy⟩
  | @closingDone goroutine stage hcontrol hpending _ =>
    cases stage with
    | matching =>
      exact hmove hpending rfl rfl rfl (fun hnext ↦ absurd hnext Bool.false_ne_true)
        rfl Control.noConfusion
    | idleGrace =>
      exact hmove hpending rfl rfl rfl (fun _ ↦ by rw [hcontrol]; rfl) rfl Control.noConfusion
    | deadline =>
      exact hstore hpending rfl rfl (hdraining.go id rfl (fun _ ↦ by rw [hcontrol]; rfl)
        (fun _ ↦ hdraining.empty (.inr ⟨goroutine, by rw [hcontrol]; rfl⟩))
        Control.noConfusion)
  | drainStart hcontrol hphase =>
    rw [hphase] at hdraining
    exact hstore (hsound.pending_nil hcontrol (by simp)) rfl rfl hdraining.start
  | drainSkipIdle hcontrol | pollExpired hcontrol =>
    exact hmove (hsound.pending_nil hcontrol (by simp)) rfl rfl rfl
      (fun _ ↦ by rw [hcontrol]; rfl) rfl
      (by simp)
  | drainIdle isIdle hcontrol hholder =>
    exact hsound.takeMatched isIdle hcontrol (by simp) (by simp) (fun _ ↦ rfl)
  | pollIdle hcontrol hholder hcount =>
    exact hstore (hsound.pending_nil hcontrol (by simp)) rfl rfl (hdraining.go id rfl
      (fun _ ↦ by rw [hcontrol]; rfl)
      (fun _ ↦ ⟨hcount, Draining.no_inserts (hholder ▸ hdraining)⟩) (by simp))
  | storeForcing hcontrol =>
    exact hstore (hsound.pending_nil hcontrol (by simp)) rfl rfl (hdraining.store
      (by rw [hcontrol]; rfl) rfl (fun _ ↦ rfl) rfl (by simp) (by simp))
  | forceRemove hcontrol hholder =>
    exact
      { tracking := htracking.clear.go _ rfl rfl
        closing := hsound.closing.take (hsound.pending_nil hcontrol (by simp)) htracking.nodup
          (fun session hsession ↦ ⟨hsession, htracking.mem_registered hsession, not_mem_nil⟩)
          (fun _ hsession ↦ absurd hsession not_mem_nil) (fun _ ↦ .inr)
        draining := hdraining.go (fun _ ↦ rfl) rfl (fun _ ↦ by rw [hcontrol]; rfl)
          (fun _ ↦ ⟨rfl, Draining.no_inserts (hholder ▸ hdraining)⟩) (by simp)
        busy := busy_take hsound }
  | storeClosed hcontrol =>
    exact hstore (hsound.pending_nil hcontrol (by simp)) rfl rfl (hdraining.store
      (by rw [hcontrol]; rfl) rfl (by simp) rfl
      (fun _ ↦ by rw [hcontrol]; rfl) (fun _ ↦ rfl))

end

variable {registry after : Registry} {events : List (Goroutine × RegistryEvent)}

/-- Every interleaving keeps the registry's invariants. -/
theorem Registry.Sound.run
    (hsound : registry.Sound) (hrun : Run RegistryStep registry events after) : after.Sound :=
  hrun.invariant Registry.Sound (fun hbefore hstep ↦ hbefore.step hstep) hsound

/-- A closed registry stays closed and registers nothing. -/
theorem Registry.Sound.step_of_closed {event : Goroutine × RegistryEvent}
    (hsound : registry.Sound) (hclosed : registry.phase = .closed)
    (hstep : RegistryStep registry event after) :
    after.phase = .closed ∧ after.registered = registry.registered := by
  have hnotDraining : ∀ goroutine, (registry.control goroutine).drains = false := by
    intro goroutine
    by_contra hdrains
    rcases hsound.draining.active goroutine (by simpa using hdrains) with hphase | hphase <;>
      cases hclosed.symm.trans hphase
  cases hstep with
  | registerInsert hcontrol =>
    have hinserts := (hsound.draining.empty (.inl hclosed)).2
    exact absurd (hinserts _) (by rw [hcontrol]; simp [inserts])
  | drainStart hcontrol hphase => cases hclosed.symm.trans hphase
  | storeForcing hcontrol => exact absurd (hnotDraining _) (by rw [hcontrol]; simp [drains])
  | storeClosed => exact ⟨rfl, rfl⟩
  | _ => exact ⟨hclosed, rfl⟩

theorem Registry.Sound.run_of_closed (hsound : registry.Sound)
    (hclosed : registry.phase = .closed) (hrun : Run RegistryStep registry events after) :
    after.registered = registry.registered := by
  have hall : after.Sound ∧ after.phase = .closed ∧ after.registered = registry.registered := by
    refine hrun.invariant
      (fun state ↦ state.Sound ∧ state.phase = .closed ∧ state.registered = registry.registered) ?_
      ⟨hsound, hclosed, rfl⟩
    rintro _ _ _ ⟨hbefore, hphase, hregistered⟩ hstep
    obtain ⟨hnext, hsame⟩ := hbefore.step_of_closed hphase hstep
    exact ⟨hbefore.step hstep, hnext, hsame.trans hregistered⟩
  exact hall.2.2

/-- A step in which the closed state is not stored while a `ForceCloseMatching` has closers to call.
-/
def SettledStep (registry : Registry) (event : Goroutine × RegistryEvent) (after : Registry) :
    Prop :=
  RegistryStep registry event after ∧ (event.2 = .storeClosed →
    ∀ goroutine, registry.control goroutine = .closing .matching → registry.pending goroutine = [])

/-- No closer is left to call once the registry is closed. -/
def Registry.Quiet (registry : Registry) : Prop :=
  registry.phase = .closed → ∀ goroutine, registry.pending goroutine = []

/-- A settled step leaves no closer to call in a closed registry. -/
theorem Registry.Quiet.step {registry after : Registry} {event : Goroutine × RegistryEvent}
    (hquiet : registry.Quiet) (hsound : registry.Sound) (hstep : SettledStep registry event after) :
    after.Quiet := by
  obtain ⟨hstep, hsettled⟩ := hstep
  have hdraining := hsound.draining
  -- Nothing is taken out of the empty maps.
  have htake : ∀ {goroutine taken maps stage}, (registry.maps.sessions = [] → taken = []) →
      (registry.take goroutine taken maps stage).Quiet := by
    intro goroutine taken _ _ htaken hclosed
    exact (forall_update_iff _ fun _ waiting ↦ waiting = []).mpr
      ⟨htaken (hdraining.empty (.inl hclosed)).1, fun other _ ↦ hquiet hclosed other⟩
  cases hstep with
  | matchRemove | drainIdle => exact htake fun hnil ↦ by rw [hnil, filter_nil]
  | forceRemove => exact htake id
  | callCloser _ hcontrol hpending =>
    intro hclosed
    rw [hquiet hclosed] at hpending
    simp at hpending
  | @storeClosed goroutine hcontrol =>
    intro _ other
    by_cases hclosing : ∃ stage, registry.control other = .closing stage
    · obtain ⟨stage, hstage⟩ := hclosing
      have hdrains : (registry.control goroutine).drains = true := by rw [hcontrol]; rfl
      cases stage with
      | matching => exact hsettled rfl other hstage
      | idleGrace | deadline =>
        have hsame := hdraining.single other goroutine (by rw [hstage]; rfl) hdrains
        cases (hsame ▸ hstage).symm.trans hcontrol
    · exact hsound.busy other fun stage hstage ↦ hclosing ⟨stage, hstage⟩
  | drainStart | storeForcing => exact fun hclosed ↦ nomatch hclosed
  | _ => exact hquiet

/-- In every interleaving, no closer is called twice and the parents map lists exactly the tracked
sessions that have a parent. Once a `drainWith` has returned with the closed state, nothing is
tracked or registered any more, and if the interleaving is settled, every session that its owner did
not release has had its closer called once. -/
theorem drained_registry {events : List (Goroutine × RegistryEvent)} {registry : Registry}
    (hrun : Run RegistryStep newRegistry events registry) :
    (∀ id, registry.closerCalls id ≤ 1) ∧ (∀ parent, registry.maps.parents parent =
        (registry.maps.sessions.filter fun session ↦ session.parent = some parent).map Session.id) ∧
      ∀ goroutine, registry.control goroutine = .returned .closed → registry.maps.sessions = [] ∧
        (∀ later after, Run RegistryStep registry later after →
          after.registered = registry.registered) ∧
        (Run SettledStep newRegistry events registry → ∀ session ∈ registry.registered,
          registry.releasedByOwner session.id = false → registry.closerCalls session.id = 1) := by
  have hsound := sound_newRegistry.run hrun
  refine ⟨hsound.closing.once, hsound.tracking.consistent, fun goroutine hreturned ↦ ?_⟩
  have hclosed := hsound.draining.returned goroutine hreturned
  have hempty := (hsound.draining.empty (.inl hclosed)).1
  refine ⟨hempty, fun later after hlater ↦ hsound.run_of_closed hclosed hlater, ?_⟩
  intro hsettled session hsession howner
  have hquiet : registry.Sound ∧ registry.Quiet := by
    refine hsettled.invariant (fun state ↦ state.Sound ∧ state.Quiet) ?_
      ⟨sound_newRegistry, fun hphase ↦ nomatch hphase⟩
    rintro _ _ _ ⟨hbefore, hquiet⟩ hstep
    exact ⟨hbefore.step hstep.1, hquiet.step hbefore hstep⟩
  rcases hsound.closing.handled session hsession with htracked | ⟨other,
    hother⟩ | hcalled | hreleased
  · rw [hempty] at htracked
    simp at htracked
  · rw [hquiet.2 hclosed other] at hother
    simp at hother
  · exact hcalled
  · simp [howner] at hreleased

/-- A session and its child are registered, the child is closed by a match, and a drain passes its
deadline. -/
def forcedEvents : List (Goroutine × RegistryEvent) :=
  [(0, .registerCheck ⟨"a", none⟩), (0, .registerLock), (0, .registerInsert),
    (0, .registerCheck ⟨"b", some "a"⟩), (0, .registerLock), (0, .registerInsert),
    (2, .matchRemove fun session ↦ session.parent = some "a"),
    (1, .drainStart), (1, .drainSkipIdle),
    (2, .callCloser ⟨"b", some "a"⟩), (1, .pollExpired), (1, .storeForcing), (1, .forceRemove),
    (2, .markReleased ⟨"b", some "a"⟩), (2, .closingDone), (1, .callCloser ⟨"a", none⟩),
    (1, .markReleased ⟨"a", none⟩), (1, .closingDone), (1, .storeClosed)]

/-- Both sessions of `forcedEvents` have had their closers called when the drain returns. -/
theorem forced_session_closed :
    ∃ registry, Run SettledStep newRegistry forcedEvents registry ∧
      registry.control 1 = .returned .closed ∧ registry.closerCalls "a" = 1 ∧
      registry.closerCalls "b" = 1 := by
  obtain ⟨registry, hrun, hreturned, hregistered, hfirst, hsecond⟩ : ∃ registry,
      Run SettledStep newRegistry forcedEvents registry ∧ registry.control 1 = .returned .closed ∧
        registry.registered = [⟨"a", none⟩, ⟨"b", some "a"⟩] ∧
        registry.releasedByOwner "a" = false ∧ registry.releasedByOwner "b" = false := by
    refine Run.exists_cons ⟨.registerCheck _ rfl rfl (by simp [newRegistry]), nofun⟩ ?_
    refine Run.exists_cons ⟨.registerLock rfl rfl rfl, nofun⟩ ?_
    refine Run.exists_cons ⟨.registerInsert rfl, nofun⟩ ?_
    refine Run.exists_cons ⟨.registerCheck _ rfl rfl (by decide), nofun⟩ ?_
    refine Run.exists_cons ⟨.registerLock rfl rfl rfl, nofun⟩ ?_
    refine Run.exists_cons ⟨.registerInsert rfl, nofun⟩ ?_
    refine Run.exists_cons ⟨.matchRemove _ rfl rfl, nofun⟩ ?_
    refine Run.exists_cons ⟨.drainStart rfl rfl, nofun⟩ ?_
    refine Run.exists_cons ⟨.drainSkipIdle rfl, nofun⟩ ?_
    refine Run.exists_cons ⟨.callCloser _ rfl (by decide) fun _ ↦ rfl, nofun⟩ ?_
    refine Run.exists_cons ⟨.pollExpired rfl rfl (by decide), nofun⟩ ?_
    refine Run.exists_cons ⟨.storeForcing rfl, nofun⟩ ?_
    refine Run.exists_cons ⟨.forceRemove rfl rfl, nofun⟩ ?_
    refine Run.exists_cons ⟨.markReleased _ rfl (by decide) nofun, nofun⟩ ?_
    refine Run.exists_cons ⟨.closingDone rfl rfl rfl, nofun⟩ ?_
    refine Run.exists_cons ⟨.callCloser _ rfl (by decide) nofun, nofun⟩ ?_
    refine Run.exists_cons ⟨.markReleased _ rfl (by decide) fun _ ↦ rfl, nofun⟩ ?_
    refine Run.exists_cons ⟨.closingDone rfl rfl rfl, nofun⟩ ?_
    refine Run.exists_cons ⟨.storeClosed rfl, fun _ goroutine hclosing ↦ ?_⟩
      ⟨_, .nil, rfl, by decide, rfl, rfl⟩
    by_cases hone : goroutine = 1
    · subst hone
      cases hclosing
    by_cases htwo : goroutine = 2
    · subst htwo
      cases hclosing
    · simp [Registry.go, Registry.take, hone, htwo, newRegistry]
  have hfacts := drained_registry (hrun.mono fun hstep ↦ hstep.1)
  have hclosed := (hfacts.2.2 1 hreturned).2.2 hrun
  exact ⟨registry, hrun, hreturned, hclosed ⟨"a", none⟩ (by simp [hregistered]) hfirst,
    hclosed ⟨"b", some "a"⟩ (by simp [hregistered]) hsecond⟩

/-- A session is registered and matched, and a drain begins and returns before the closer is called.
-/
def matchedEvents : List (Goroutine × RegistryEvent) :=
  [(0, .registerCheck ⟨"a", none⟩), (0, .registerLock), (0, .registerInsert),
    (1, .matchRemove fun _ ↦ true), (2, .drainStart), (2, .drainSkipIdle), (2, .pollIdle),
    (2, .storeClosed)]

/-- The drain of `matchedEvents` has returned with the closed state, and the session that nobody has
released has not had its closer called. -/
theorem matched_session_not_closed :
    ∃ registry, Run RegistryStep newRegistry matchedEvents registry ∧
      registry.control 2 = .returned .closed ∧ ⟨"a", none⟩ ∈ registry.registered ∧
      registry.releasedByOwner "a" = false ∧ registry.closerCalls "a" = 0 := by
  refine Run.exists_cons (.registerCheck _ rfl rfl (by simp [newRegistry])) ?_
  refine Run.exists_cons (.registerLock rfl rfl rfl) ?_
  refine Run.exists_cons (.registerInsert rfl) ?_
  refine Run.exists_cons (.matchRemove _ rfl rfl) ?_
  refine Run.exists_cons (.drainStart rfl rfl) ?_
  refine Run.exists_cons (.drainSkipIdle rfl) ?_
  refine Run.exists_cons (.pollIdle rfl rfl (by decide)) ?_
  exact Run.exists_cons (.storeClosed rfl) ⟨_, .nil, rfl, by decide, rfl, rfl⟩

end Clyde.Livetrack
