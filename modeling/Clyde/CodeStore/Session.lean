import Clyde.CodeStore.Store

/-!
# Calls on a store

`codestore/store.go`: a store keeps the handle that it opened. A call opens the collection when no
handle is kept, catches up with the directory under the lock, and carries out its operation;
`EnsureCollection` creates a collection that is missing.

`reopen_after_run` shows that after any successful calls with compactions in between the directory
opens to the live state in memory.

Scope. A call is one request, without the errors of its context. The store keeps one collection
here, because collections share no state. What fails is in `CallFaults`.
-/

set_option autoImplicit false

namespace Clyde.CodeStore

open Foundation ByteCodec

structure Session where
  disk : Disk
  cached : Option CodeCollection

/-- What fails when the collection is opened and when its handle catches up. -/
structure LockFaults where
  load : LoadFaults
  sync : LoadFaults

/-- What fails during a call. A call that creates the collection takes the lock again. -/
structure CallFaults where
  lock : LockFaults
  create : CreateFaults
  relock : LockFaults
  operation : OperationFaults

section

variable [Externals]

def openedCollection (faults : LoadFaults) (session : Session) :
    Session × Except Failure CodeCollection :=
  match session.cached with
  | some stored => (session, .ok stored)
  | none =>
    match loadCollection faults session.disk with
    | (next, .error failure) => ({ disk := next, cached := none }, .error failure)
    | (next, .ok stored) => ({ disk := next, cached := some stored }, .ok stored)

def lockedCollection (faults : LockFaults) (session : Session) :
    Session × Except Failure CodeCollection :=
  match openedCollection faults.load session with
  | (opened, .error failure) => (opened, .error failure)
  | (opened, .ok stored) =>
    let synced := lockForWrite faults.sync opened.disk stored
    ({ disk := synced.disk, cached := some synced.stored },
      match synced.failure with
      | some failure => .error failure
      | none => .ok synced.stored)

def ensuredCollection (faults : CallFaults) (session : Session) (dimension : ℕ)
    (columns : List ScalarColumn) : Session × Except Failure CodeCollection :=
  if dimension ≠ dimensions then (session, .error (.dimension dimension))
  else
    match lockedCollection faults.lock session with
    | (opened, .ok stored) => (opened, .ok stored)
    | (opened, .error failure) =>
      if failure ≠ .collectionMissing then (opened, .error failure)
      else
        match createCollection faults.create opened.disk columns with
        | (created, some failure) => ({ opened with disk := created }, .error failure)
        | (created, none) => lockedCollection faults.relock { opened with disk := created }

def handleFor (faults : CallFaults) (session : Session) (operation : Operation) :
    Session × Except Failure CodeCollection :=
  match operation with
  | .ensureCollection dimension columns => ensuredCollection faults session dimension columns
  | _ => lockedCollection faults.lock session

def call (faults : CallFaults) (session : Session) (operation : Operation) :
    Session × Option Failure :=
  match handleFor faults session operation with
  | (opened, .error failure) => (opened, some failure)
  | (opened, .ok stored) =>
    let result := perform faults.operation opened.disk stored operation
    ({ disk := result.disk, cached := some result.stored }, result.failure)

/-- The kept handle is current. -/
def Session.Ready (session : Session) : Prop :=
  ∀ stored, session.cached = some stored → Current session.disk stored

/-- A locked handle: current, kept, and with the header that the directory had. -/
structure Locked (session next : Session) (stored : CodeCollection) : Prop where
  cached : next.cached = some stored
  current : Current next.disk stored
  header_eq : next.disk.header = session.disk.header

variable {stored : CodeCollection} {session next : Session}

theorem Locked.columns_eq
    (hlocked : Locked session next stored) : session.disk.columns = stored.header.columns := by
  rw [Disk.columns, ← hlocked.header_eq]
  exact hlocked.current.columns_eq

variable {disk : Disk}

theorem lockForWrite_current (hcurrent : Current disk stored) (faults : LoadFaults) :
    Current (lockForWrite faults disk stored).disk (lockForWrite faults disk stored).stored ∧
      (lockForWrite faults disk stored).disk.header = disk.header := by
  unfold lockForWrite
  split_ifs
  · exact ⟨hcurrent, rfl⟩
  · exact ⟨current_syncWithDisk faults hcurrent,
      (syncWithDisk_spec faults fun _ ↦ hcurrent.toFollows).header_eq⟩

/-- Opening keeps the header and gives a current handle. -/
theorem openedCollection_spec (hready : session.Ready) (faults : LoadFaults) :
    (openedCollection faults session).1.Ready ∧
      (openedCollection faults session).1.disk.header = session.disk.header ∧
      ∀ stored, (openedCollection faults session).2 = .ok stored →
        Current (openedCollection faults session).1.disk stored := by
  unfold openedCollection
  cases hcached : session.cached with
  | some =>
    refine ⟨hready, rfl, fun stored hstored ↦ ?_⟩
    rw [Except.ok.injEq] at hstored
    exact hready stored (hstored ▸ hcached)
  | none =>
    have hloads := loadCollection_spec faults session.disk
    generalize loadCollection faults _ = loaded at hloads
    obtain ⟨_, outcome⟩ := loaded
    cases outcome with
    | error => exact ⟨by simp [Session.Ready], hloads.header_eq, by simp⟩
    | ok fresh =>
      have hcurrent := (hloads.current fresh rfl).1
      refine ⟨fun stored hstored ↦ ?_, hloads.header_eq, fun stored hstored ↦ ?_⟩
      · exact Option.some.inj hstored ▸ hcurrent
      · rw [Except.ok.injEq] at hstored
        exact hstored ▸ hcurrent

/-- A successful lock gives a current handle that the session keeps. -/
theorem lockedCollection_spec (hready : session.Ready) (faults : LockFaults) :
    (lockedCollection faults session).1.Ready ∧
      ∀ stored, (lockedCollection faults session).2 = .ok stored →
        Locked session (lockedCollection faults session).1 stored := by
  obtain ⟨hopened, hheader, hcurrent⟩ := openedCollection_spec hready faults.load
  unfold lockedCollection
  generalize openedCollection faults.load session = opening at hopened hheader hcurrent
  obtain ⟨opened, outcome⟩ := opening
  cases outcome with
  | error failure => exact ⟨hopened, by simp⟩
  | ok stored =>
    obtain ⟨hnext, hsame⟩ := lockForWrite_current (hcurrent stored rfl) faults.sync
    refine ⟨fun kept hkept ↦ ?_, fun locked hlocked ↦ ?_⟩
    · exact Option.some.inj hkept ▸ hnext
    cases hfailure : (lockForWrite faults.sync opened.disk stored).failure with
    | some => simp [hfailure] at hlocked
    | none =>
      simp only [hfailure, Except.ok.injEq] at hlocked
      subst hlocked
      exact ⟨rfl, hnext, hsame.trans hheader⟩

theorem ready_createCollection (hready : session.Ready) (faults : CreateFaults)
    (columns : List ScalarColumn) :
    ({ session with disk := (createCollection faults session.disk columns).1
      } : Session).Ready := by
  intro stored hstored
  have hcurrent := hready stored hstored
  obtain ⟨_, hheader⟩ := hcurrent.exists_header
  have hread := readHeader_eq_ok.mpr ⟨hheader, hcurrent.format⟩
  simpa only [createCollection, hread] using hcurrent

variable {operation : Operation} {faults : CallFaults}

/-- The handle of an operation is a locked one, or the one that `EnsureCollection` just created. -/
theorem handleFor_spec (hready : session.Ready)
    (hhandle : handleFor faults session operation = (next, .ok stored)) :
    Locked session next stored ∨ next.cached = some stored ∧ Current next.disk stored ∧
        ∃ dimension columns, operation = .ensureCollection dimension columns := by
  obtain ⟨hlockedReady, hlocked⟩ := lockedCollection_spec hready faults.lock
  have hplain (hsame : lockedCollection faults.lock session = (next, .ok stored)) :
      Locked session next stored := by
    rw [hsame] at hlocked
    exact hlocked stored rfl
  cases operation with
  | upsert | delete | deleteItems | updateRows => exact .inl (hplain hhandle)
  | ensureCollection dimension columns =>
    simp only [handleFor, ensuredCollection] at hhandle
    split_ifs at hhandle with hdimension
    · simp at hhandle
    generalize hsame : lockedCollection faults.lock session = locking at hhandle hlockedReady
    obtain ⟨opened, outcome⟩ := locking
    cases outcome with
    | ok => exact .inl (hplain (hsame.trans hhandle))
    | error failure =>
      simp only at hhandle
      split_ifs at hhandle with hmissing
      · simp at hhandle
      have hcreated := ready_createCollection hlockedReady faults.create columns
      generalize createCollection _ opened.disk columns = creating at hhandle hcreated
      obtain ⟨_, outcome⟩ := creating
      cases outcome with
      | some => simp at hhandle
      | none =>
        obtain ⟨_, hrelocked⟩ := lockedCollection_spec hcreated _
        simp only at hhandle
        rw [hhandle] at hrelocked
        exact .inr ⟨(hrelocked stored rfl).cached, (hrelocked stored rfl).current,
          dimension, columns, rfl⟩

theorem current_compact (hcurrent : Current disk stored) (faults : CompactFaults) :
    Current (compact faults disk stored).disk (compact faults disk stored).stored := by
  rcases compact_spec hcurrent faults with habandoned | hswitched
  · rw [habandoned.stored_eq]
    exact hcurrent.untouched (habandoned.untouched _ habandoned.last)
  · exact hswitched.current

theorem current_compactIfDead (hcurrent : Current disk stored) (faults : CompactFaults) :
    Current (compactIfDead faults disk stored).disk (compactIfDead faults disk stored).stored := by
  unfold compactIfDead
  split_ifs
  · exact current_compact hcurrent faults
  · exact hcurrent

/-- After a successful operation the handle is current. -/
theorem OperationEnd.current {faults : OperationFaults} {result : HandleResult}
    (hend : OperationEnd faults disk stored result) (hcurrent : Current disk stored)
    (hnone : result.failure = none) :
    Current result.disk result.stored := by
  cases hend with
  | unchanged => exact hcurrent
  | wrote _ hend =>
    cases hend with
    | failed | refused => simp at hnone
    | committed _ hnext => exact current_compactIfDead hnext _
  | schema hend =>
    cases hend with
    | unchanged => exact hcurrent
    | replaced hview hnext => simp at hnone
    | widened _ _ _ hnext => exact hnext

/-- A successful call leaves a session ready. Assumes: the values given fit the declared columns. -/
theorem ready_call (hready : session.Ready) (hfits : operation.Fits session.disk.columns)
    (hcall : (call faults session operation).2 = none) :
    (call faults session operation).1.Ready := by
  unfold call at hcall ⊢
  cases hhandle : handleFor faults session operation with
  | mk opened outcome =>
    cases outcome with
    | error => simp [hhandle] at hcall
    | ok stored =>
      simp only [hhandle] at hcall ⊢
      have hlocked : Current opened.disk stored ∧ operation.Fits stored.header.columns := by
        rcases handleFor_spec hready hhandle with hlocked | ⟨_, hcurrent, _, _, rfl⟩
        · exact ⟨hlocked.current, hlocked.columns_eq ▸ hfits⟩
        · exact ⟨hcurrent, trivial⟩
      have hend := perform_spec hlocked.1 faults.operation hlocked.2
      intro _ hkept
      exact Option.some.inj hkept ▸ hend.current hlocked.1 hcall

/-- Successful calls with values that fit, and a compaction between any two of them. -/
inductive Run (start : Session) : Session → Prop
  | refl : Run start start
  | call {session : Session} (hrun : Run start session) (faults : CallFaults)
    (operation : Operation) (hfits : operation.Fits session.disk.columns)
    (hcall : (call faults session operation).2 = none) :
    Run start (call faults session operation).1
  | compact {session : Session} {stored : CodeCollection} (hrun : Run start session)
    (hcached : session.cached = some stored) (faults : CompactFaults) :
    Run start
      { disk := (compact faults session.disk stored).disk
        cached := some (compact faults session.disk stored).stored }

theorem Run.ready {start : Session} (hrun : Run start session) (hstart : start.Ready) :
    session.Ready := by
  induction hrun with
  | refl => exact hstart
  | call _ faults _ hfits hcall ih => exact ready_call ih hfits hcall
  | compact _ hcached faults ih =>
    intro _ hkept
    exact Option.some.inj hkept ▸ current_compact (ih _ hcached) faults

/-- After every run from a store that keeps no handle yet, opening the directory again gives the
live state that the kept handle has in memory. Positions are those of the rows in order. Dictionary
numbers can differ. -/
theorem reopen_after_run {start session : Session} (hstart : start.cached = none)
    (hrun : Run start session) {stored : CodeCollection} (hcached : session.cached = some stored)
    (kept : GenerationFile → Bool) :
    ∃ next fresh, loadCollection ⟨.none, kept⟩ session.disk = (next, .ok fresh) ∧
      fresh.header = stored.header ∧ view fresh.memory = view stored.memory ∧
      fresh.memory.byID = stored.memory.byID := by
  have hcurrent := hrun.ready (by simp [Session.Ready, hstart]) stored hcached
  obtain ⟨next, fresh, hload, _, hheader, _, _, hview⟩ := load_of_upToDate hcurrent.toUpToDate kept
  refine ⟨next, fresh, hload, hheader, hview, funext fun id ↦ ?_⟩
  have hloads := loadCollection_spec ⟨.none, kept⟩ session.disk
  rw [hload] at hloads
  have hfresh := (hloads.current fresh rfl).1.reflects.coherent
  rw [byID_eq_position hfresh, byID_eq_position hcurrent.reflects.coherent, hview]

end

def noLoadFaults : LoadFaults := ⟨.none, fun _ ↦ false⟩

/-- Nothing fails before a compaction. -/
def sampleCallFaults : CallFaults :=
  { lock := { load := noLoadFaults, sync := noLoadFaults }
    create :=
      { create := fun _ ↦ false, sync := fun _ ↦ false
        header := { replace := false, directory := false, identity := false, info := ⟨7, 1⟩ } }
    relock := { load := noLoadFaults, sync := noLoadFaults }
    operation :=
      { read := fun _ ↦ false
        write :=
          { data := none, dataSync := false, seek := false, rows := none, rowsSync := false
            truncate := false, compact := sampleCompactFaults }
        header := { replace := false, directory := false, identity := false, info := ⟨8, 1⟩ } } }

def emptySession : Session :=
  { disk := { header := none, files := FileSystem.empty }, cached := none }

def sampleUpsert : UpsertRow :=
  { id := [0x61], content := [0x68, 0x69], metadata := [], relativePath := [0x70], splitPart := 3
    splitPartRecorded := true, vector := List.replicate dimensions true
    scalars := ⟨[([0x61], ⟨.string, false, [0x78], false, 0⟩)], by decide⟩ }

def createdSession : Session :=
  (@call sampleExternals sampleCallFaults emptySession
    (.ensureCollection dimensions sampleColumns)).1

theorem fits_sampleUpsert : (Operation.upsert [sampleUpsert]).Fits createdSession.disk.columns := by
  have hcolumns : createdSession.disk.columns = sampleColumns := by decide +kernel
  intro _ hrow
  rw [List.mem_singleton.mp hrow, hcolumns]
  exact @ScalarMap.fits_singleton sampleColumns 0 _ _ _ rfl (by decide) ⟨[0x61], .string⟩ rfl
    (.inr ⟨rfl, rfl⟩)

theorem reopen_after_run_sample :
    ∃ stored next fresh,
      (@call sampleExternals sampleCallFaults createdSession (.upsert [sampleUpsert])).1.cached =
        some stored ∧
      @loadCollection sampleExternals noLoadFaults
        (@call sampleExternals sampleCallFaults createdSession (.upsert [sampleUpsert])).1.disk =
          (next, .ok fresh) ∧
      fresh.header = stored.header ∧ view fresh.memory = view stored.memory ∧
      fresh.memory.byID = stored.memory.byID := by
  let _ := sampleExternals
  have hcreated : Run emptySession createdSession :=
    .call .refl sampleCallFaults _ trivial (by decide +kernel)
  have hwritten := Run.call hcreated sampleCallFaults _ fits_sampleUpsert (by decide +kernel)
  obtain ⟨stored, hstored⟩ := Option.isSome_iff_exists.mp (by decide +kernel :
    (call sampleCallFaults createdSession (.upsert [sampleUpsert])).1.cached.isSome)
  obtain ⟨next, fresh, hreopen⟩ := reopen_after_run rfl hwritten hstored fun _ ↦ false
  exact ⟨stored, next, fresh, hstored, hreopen⟩

end Clyde.CodeStore
