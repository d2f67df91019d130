import Clyde.CodeStore.Session

/-!
# Handles on one directory

`codestore/coherence.go`: any number of handles, of one process or of several, on one collection
directory. Each locked section is one step, with what fails in it as an argument, and the steps
interleave in any order.

`World.Tracked` is what a handle keeps between its steps: as long as the header is the one it
recorded, its rows are what a first part of the row log leaves. `locked_handles_in_step` is the
result.

Two kinds of steps are left out. A load or a catch-up in which the read of a header fails cuts off
the records after it and succeeds (`Action.ReadsHeaders`); `stale_after_misread_header` is that
case. After a write that a full column refuses, the records are in the log, and the handle counts
them as seen without having carried them out (`Action.Roomy`).

Scope. A reader that releases the lock and takes it again is a `reads` step followed by a `locks`
step.
-/

set_option autoImplicit false

namespace Clyde.CodeStore

open Foundation ByteCodec Text List Option Keeps

/-! ### Steps -/

/-- A directory and the handles on it. -/
structure World (ι : Type) where
  disk : Disk
  handles : ι → Option CodeCollection

inductive Action
  | opens (load : LoadFaults)
  | creates (faults : CreateFaults) (columns : List ScalarColumn)
  | operates (load : LoadFaults) (faults : OperationFaults) (operation : Operation)
  | locks (load : LoadFaults)
  | reads (load : LoadFaults)
  | closes

variable {stored : CodeCollection}

section

variable [Externals]

def operate (load : LoadFaults) (faults : OperationFaults) (disk : Disk)
    (stored : CodeCollection) (operation : Operation) : HandleResult :=
  let synced := lockForWrite load disk stored
  match synced.failure with
  | some _ => synced
  | none => perform faults synced.disk synced.stored operation

def runSection (disk : Disk) (stored : CodeCollection) : Action → HandleResult
  | .opens _ => { disk := disk, stored := stored, failure := none }
  | .creates faults columns =>
    let created := createCollection faults disk columns
    { disk := created.1, stored := stored, failure := created.2 }
  | .operates load faults operation => operate load faults disk stored operation
  | .locks load => lockForWrite load disk stored
  | .reads load => lockForRead load disk stored
  | .closes => { disk := disk, stored := { stored with closed := true }, failure := none }

/-- The handle with that name runs a section. Without a handle the collection can be opened or
created. -/
def World.step {ι : Type} [DecidableEq ι] (world : World ι) (name : ι) (action : Action) :
    World ι :=
  match world.handles name with
  | some stored =>
    let result := runSection world.disk stored action
    { disk := result.disk, handles := Function.update world.handles name (some result.stored) }
  | none =>
    match action with
    | .opens load =>
      match loadCollection load world.disk with
      | (next, .ok stored) =>
        { disk := next, handles := Function.update world.handles name (some stored) }
      | (next, .error _) => { world with disk := next }
    | .creates faults columns =>
      { world with disk := (createCollection faults world.disk columns).1 }
    | _ => world

/-! ### What a step commits -/

def LiveRow.widen (extra : ℕ) (row : LiveRow) : LiveRow :=
  { row with cells := row.cells ++ List.replicate extra none }

/-- The log keeps every accepted record, or a current handle replaced the header and the live rows,
or there was no collection. -/
inductive Commits (disk next : Disk) : Prop
  | kept (hkeeps : Keeps disk next)
  | replaced {written : Disk} {before after : CodeCollection} (extra : ℕ)
    (hkeeps : Keeps disk written) (hbefore : Current written before) (hafter : Current next after)
    (hrows : liveRows next after = (liveRows written before).map (LiveRow.widen extra))
  | created (hnone : disk.header = none)

/-- The header stays, or it is replaced under one of the given identities. -/
def HeaderFrom (infos : List FileInfo) (disk next : Disk) : Prop :=
  Keeps disk next ∨ ∃ header, ∃ info ∈ infos, next.header = some (header, info)

variable {disk : Disk} {middle next : Disk}

theorem Commits.of_keeps (hkeeps : Keeps disk middle)
    (hcommits : Commits middle next) : Commits disk next := by
  cases hcommits with
  | kept hlater => exact .kept (hkeeps.trans hlater)
  | replaced extra hlater hbefore hafter hrows =>
    exact .replaced extra (hkeeps.trans hlater) hbefore hafter hrows
  | created hnone => exact .created (hkeeps.header_eq ▸ hnone)

theorem HeaderFrom.of_keeps {infos : List FileInfo} (hkeeps : Keeps disk middle)
    (hheader : HeaderFrom infos middle next) :
    HeaderFrom infos disk next :=
  hheader.imp hkeeps.trans id

variable {next : Disk}

theorem HeaderFrom.mono {infos more : List FileInfo} (hsubset : infos ⊆ more)
    (hheader : HeaderFrom infos disk next) : HeaderFrom more disk next :=
  hheader.imp id fun ⟨header, info, hinfo, hnext⟩ ↦ ⟨header, info, hsubset hinfo, hnext⟩

/-- A change outside the current generation keeps the directory. -/
theorem keeps_of_untouched {point : Disk} (hcurrent : Current disk stored)
    (huntouched : Untouched stored.header.generation disk point) :
    Keeps disk point := by
  obtain ⟨_, hheader⟩ := hcurrent.exists_header
  have hrows := huntouched.contents_eq _ _ hcurrent.rows
  have hdata := huntouched.contents_eq _ _ hcurrent.data
  refine keeps_of_files hheader hcurrent.rows hcurrent.data huntouched.header_eq
    huntouched.lookup_eq ?_ ?_
  · rw [hdata]
  · rw [hdata, hrows]
    exact KeepsChains.refl _ _ _

omit [Externals] in
theorem map_widen_zero (rows : List LiveRow) : rows.map (LiveRow.widen 0) = rows := by
  have hsame : LiveRow.widen 0 = id := funext fun row ↦ by simp [LiveRow.widen]
  rw [hsame, List.map_id]

/-- A compaction commits, and a header that it writes has the identity from its faults. -/
theorem compactIfDead_commits (hcurrent : Current disk stored) (faults : CompactFaults) :
    Commits disk (compactIfDead faults disk stored).disk ∧
      HeaderFrom [faults.info] disk (compactIfDead faults disk stored).disk := by
  unfold compactIfDead
  split_ifs
  · rcases compact_spec hcurrent faults with habandoned | hswitched
    · have hkeeps := keeps_of_untouched hcurrent (habandoned.untouched _ habandoned.last)
      exact ⟨.kept hkeeps, .inl hkeeps⟩
    refine ⟨.replaced 0 (refl disk) hcurrent hswitched.current ?_,
      .inr ⟨_, _, by simp, hswitched.header_eq⟩⟩
    rw [map_widen_zero]
    obtain ⟨rowsOut, _, _, hfiles, hstored, hpoints⟩ := hswitched.stored_eq
    rcases hpoints _ hswitched.last with huntouched | ⟨_, _, hbytes⟩
    · -- The last point has the new header, so it is not an untouched one.
      have hheader := huntouched.header_eq.symm.trans hswitched.header_eq
      have hgeneration := hcurrent.header_eq
      rw [hheader, map_some, Option.some.injEq] at hgeneration
      exact absurd (congrArg CollectionHeader.generation hgeneration) (generation_succ_ne _)
    · rw [hstored]
      exact liveRows_switchHandle faults rowsOut hfiles hbytes
  · exact ⟨.kept (refl disk), .inl (refl disk)⟩

theorem liveRows_widenHandle {faults : HeaderFaults} {header : CollectionHeader} {extra : ℕ}
    (hview : view (widenHandle faults stored header).memory =
      (view stored.memory).widen extra) (info : FileInfo) :
    liveRows { disk with header := some (header, info) } (widenHandle faults stored header) =
      (liveRows disk stored).map (LiveRow.widen extra) := by
  rw [liveRows, hview, Table.widen, List.map_map, liveRows, List.map_map]
  rfl

/-! ### What a section leaves -/

def Action.infos : Action → List FileInfo
  | .creates faults _ => [faults.header.info]
  | .operates _ faults _ => [faults.write.compact.info, faults.header.info]
  | _ => []

/-- No write of the section is refused because a column is full. -/
def Action.Roomy (disk : Disk) (stored : CodeCollection) : Action → Prop
  | .operates load faults operation => (lockForWrite load disk stored).failure = none →
    ∀ column, (operate load faults disk stored operation).failure ≠ some (.internColumn column)
  | _ => True

/-- No read of a header of the row log fails. -/
def Action.ReadsHeaders : Action → Prop
  | .opens load | .operates load _ _ | .locks load | .reads load => load.log.ReadsHeaders
  | _ => True

/-- The values that the section writes fit the declared columns. -/
def Action.Fits (disk : Disk) : Action → Prop
  | .operates _ _ operation => operation.Fits disk.columns
  | _ => True

/-- What every section leaves: the handle tracks the directory, and no committed record is lost. -/
structure Settles (infos : List FileInfo) (disk : Disk) (result : HandleResult) : Prop where
  tracks : Tracks result.disk result.stored
  commits : Commits disk result.disk
  header : HeaderFrom infos disk result.disk

variable {result : HandleResult}

/-- A section settles when its handle tracks the directory and the directory is kept. -/
theorem settles_of_keeps {infos : List FileInfo}
    (htracks : Tracks result.disk result.stored) (hkeeps : Keeps disk result.disk) :
    Settles infos disk result :=
  ⟨htracks, .kept hkeeps, .inl hkeeps⟩

/-- Each end of an operation settles, unless a column was full or a header's identity came back. -/
theorem OperationEnd.settles {faults : OperationFaults}
    (hend : OperationEnd faults disk stored result) (hcurrent : Current disk stored)
    (hroom : ∀ column, result.failure ≠ some (.internColumn column))
    (hinfo : stored.headerInfo ≠ some faults.header.info) :
    Settles [faults.write.compact.info, faults.header.info] disk result := by
  cases hend with
  | unchanged => exact settles_of_keeps (fun _ ↦ hcurrent.toFollows) (refl disk)
  | wrote _ hend =>
    cases hend with
    | failed hkeeps hfollows => exact settles_of_keeps (fun _ ↦ hfollows) hkeeps
    | refused hkeeps => exact absurd rfl (hroom _)
    | @committed _ _ _ _ hkeeps hnext _ _ =>
      obtain ⟨hcommits, hheader⟩ := compactIfDead_commits hnext _
      exact ⟨fun _ ↦ (current_compactIfDead hnext _).toFollows, hcommits.of_keeps hkeeps,
        (hheader.of_keeps hkeeps).mono (by simp)⟩
  | schema hend =>
    cases hend with
    | unchanged => exact settles_of_keeps (fun _ ↦ hcurrent.toFollows) (refl disk)
    | replaced hview hnext =>
      refine ⟨?_, .replaced _ (refl disk) hcurrent hnext (liveRows_widenHandle hview _),
        .inr ⟨_, _, by simp, rfl⟩⟩
      rintro ⟨_, _, hheader, hsame⟩
      rw [Option.some.injEq, Prod.mk.injEq] at hheader
      exact absurd (hheader.2 ▸ hsame) hinfo
    | widened _ _ hview hnext =>
      exact ⟨fun _ ↦ hnext.toFollows, .replaced _ (refl disk) hcurrent hnext
        (liveRows_widenHandle hview _), .inr ⟨_, _, by simp, rfl⟩⟩

theorem lockForWrite_settles (load : LoadFaults) (htracks : Tracks disk stored) :
    CaughtUp load disk (lockForWrite load disk stored) := by
  unfold lockForWrite
  split_ifs
  · exact caughtUp_of_failure load htracks _
  · exact syncWithDisk_spec load htracks

/-- Every locked section settles: opens, creations, operations, locks and reads. -/
theorem runSection_settles (htracks : Tracks disk stored) {action : Action}
    (hheaders : action.ReadsHeaders) (hroom : action.Roomy disk stored) (hfits : action.Fits disk)
    (hheader : ∀ info ∈ action.infos, ∀ header, disk.header ≠ some (header, info))
    (hhandle : ∀ info ∈ action.infos, stored.headerInfo ≠ some info) :
    Settles action.infos disk (runSection disk stored action) := by
  cases action with
  | opens => exact settles_of_keeps htracks (refl disk)
  | closes =>
    refine settles_of_keeps (fun hknows ↦ ?_) (refl disk)
    have hfollows := htracks hknows
    exact ⟨hfollows.header_eq, hfollows.format, hfollows.rows, hfollows.data, hfollows.dataSize_le,
      hfollows.reflects⟩
  | locks load =>
    obtain ⟨_, hkeeps, hnext, _⟩ := lockForWrite_settles load htracks
    exact settles_of_keeps hnext (hkeeps hheaders)
  | reads load =>
    obtain ⟨hkeeps, hnext, _⟩ := lockForRead_spec load htracks
    exact settles_of_keeps hnext (hkeeps hheaders)
  | creates faults columns =>
    rcases createCollection_spec faults disk columns with hkeeps | ⟨hnone, header, hcreated⟩
    · exact settles_of_keeps (htracks.keeps hkeeps) hkeeps
    refine ⟨?_, .created hnone, .inr ⟨header, _, by simp [Action.infos], hcreated⟩⟩
    rintro ⟨_, info, hfound, hsame⟩
    obtain rfl : faults.header.info = info :=
      congrArg Prod.snd (some.inj (hcreated.symm.trans hfound))
    exact absurd hsame (hhandle _ (by simp [Action.infos]))
  | operates load faults operation =>
    obtain ⟨_, hkeeps, hnext, hlocked⟩ := lockForWrite_settles load htracks
    have hkeeps := hkeeps hheaders
    simp only [Action.Roomy, operate] at hroom
    simp only [runSection, operate]
    cases hfailure : (lockForWrite load disk stored).failure with
    | some => exact settles_of_keeps hnext hkeeps
    | none =>
      simp only [hfailure] at hroom ⊢
      obtain ⟨hcurrent, header, info, hfound, hinfo⟩ := hlocked hfailure
      have hcolumns : disk.columns = (lockForWrite load disk stored).stored.header.columns := by
        rw [Disk.columns, ← hkeeps.header_eq]
        exact hcurrent.columns_eq
      have hdeclared : operation.Fits disk.columns := hfits
      rw [hcolumns] at hdeclared
      have hend := perform_spec hcurrent faults hdeclared
      have hother : (lockForWrite load disk stored).stored.headerInfo ≠
          some faults.header.info := by
        rw [hinfo]
        intro hsame
        rw [hkeeps.header_eq, some.inj hsame] at hfound
        exact hheader _ (by simp [Action.infos]) header hfound
      have hsettles := hend.settles hcurrent (hroom trivial) hother
      exact ⟨hsettles.tracks, hsettles.commits.of_keeps hkeeps, hsettles.header.of_keeps hkeeps⟩

/-! ### Every interleaving -/

variable {ι : Type} [DecidableEq ι]

/-- Every handle that recorded the current header follows the directory. -/
def World.Tracked (world : World ι) : Prop :=
  ∀ name stored, world.handles name = some stored → Tracks world.disk stored

/-- A header identity that neither the header has nor a handle recorded. -/
structure World.Fresh (world : World ι) (info : FileInfo) : Prop where
  header : ∀ header, world.disk.header ≠ some (header, info)
  handles : ∀ name stored, world.handles name = some stored → stored.headerInfo ≠ some info

/-- The values fit the declared columns, and a replaced header gets a new identity or modification
time. -/
structure Action.Sound (world : World ι) (action : Action) : Prop where
  fresh : ∀ info ∈ action.infos, world.Fresh info
  fits : action.Fits world.disk

/-- A sound step in which no column is full. -/
structure Action.Fitting (world : World ι) (name : ι) (action : Action) : Prop
    extends Action.Sound world action where
  roomy : ∀ stored, world.handles name = some stored → action.Roomy world.disk stored

/-- A sound step in which no column is full and every header of the row log is read. -/
structure Action.Allowed (world : World ι) (name : ι) (action : Action) : Prop
    extends Action.Fitting world name action where
  headers : action.ReadsHeaders

omit [DecidableEq ι] in
theorem Tracks.headerFrom {infos : List FileInfo}
    (htracks : Tracks disk stored) (hheader : HeaderFrom infos disk next)
    (hhandle : ∀ info ∈ infos, stored.headerInfo ≠ some info) : Tracks next stored := by
  rcases hheader with hkeeps | ⟨_, info, hinfo, hnext⟩
  · exact htracks.keeps hkeeps
  · rintro ⟨_, recorded, hfound, hrecorded⟩
    obtain rfl : info = recorded := congrArg Prod.snd (some.inj (hnext.symm.trans hfound))
    exact absurd hrecorded (hhandle info hinfo)

variable {world : World ι}

omit [DecidableEq ι] in
theorem tracked_others (htracked : world.Tracked) {infos : List FileInfo}
    (hfresh : ∀ info ∈ infos, world.Fresh info) {next : Disk}
    (hheader : HeaderFrom infos world.disk next) :
    ∀ name stored, world.handles name = some stored → Tracks next stored :=
  fun name stored hstored ↦ (htracked name stored hstored).headerFrom hheader
    fun info hinfo ↦ (hfresh info hinfo).handles name stored hstored

/-- One step of any handle: all handles go on tracking the directory, and no committed record is
lost. -/
theorem tracked_step (htracked : world.Tracked) {name : ι} {action : Action}
    (hallowed : action.Allowed world name) :
    (world.step name action).Tracked ∧ Commits world.disk (world.step name action).disk := by
  have hothers := @tracked_others _ _ _ htracked _ hallowed.fresh
  have hupdate {next : Disk} (hheader : HeaderFrom action.infos world.disk next)
      {stored : CodeCollection} (htracks : Tracks next stored) :
      (⟨next, Function.update world.handles name (some stored)⟩ : World ι).Tracked := by
    intro other found hfound
    simp only [Function.update_apply] at hfound
    split_ifs at hfound
    · exact some.inj hfound ▸ htracks
    · exact hothers hheader other found hfound
  unfold World.step
  cases hhandle : world.handles name with
  | some stored =>
    have hsettles := runSection_settles (htracked name stored hhandle) hallowed.headers
      (hallowed.roomy stored hhandle) hallowed.fits
      (fun info hinfo ↦ (hallowed.fresh info hinfo).header)
      fun info hinfo ↦ (hallowed.fresh info hinfo).handles name stored hhandle
    exact ⟨hupdate hsettles.header hsettles.tracks, hsettles.commits⟩
  | none =>
    have hsame : world.Tracked ∧ Commits world.disk world.disk := ⟨htracked, .kept (refl _)⟩
    cases action with
    | opens load =>
      have hloads := loadCollection_spec load world.disk
      have hkeeps := hloads.keeps hallowed.headers
      simp only
      generalize loadCollection load world.disk = loaded at hloads hkeeps
      obtain ⟨_, outcome⟩ := loaded
      cases outcome with
      | ok stored =>
        exact ⟨hupdate (.inl hkeeps) fun _ ↦ (hloads.current stored rfl).1.toFollows, .kept hkeeps⟩
      | error => exact ⟨hothers (.inl hkeeps), .kept hkeeps⟩
    | creates faults columns =>
      rcases createCollection_spec faults world.disk columns with
        hkeeps | ⟨hnone, header, hcreated⟩
      · exact ⟨hothers (.inl hkeeps), .kept hkeeps⟩
      · exact ⟨hothers (.inr ⟨header, _, by simp [Action.infos], hcreated⟩), .created hnone⟩
    | operates | locks | reads | closes => exact hsame

theorem step_section {name : ι} {stored : CodeCollection}
    (hstored : world.handles name = some stored) (action : Action) :
    world.step name action =
      { disk := (runSection world.disk stored action).disk
        handles := Function.update world.handles name
          (some (runSection world.disk stored action).stored) } := by
  simp [World.step, hstored]

/-- The worlds that steps under some condition reach. -/
inductive Reachable (allowed : World ι → ι → Action → Prop) (start : World ι) : World ι → Prop
  | refl : Reachable allowed start start
  | step {world : World ι} (hreachable : Reachable allowed start world) (name : ι)
    (action : Action) (hallowed : allowed world name action) :
    Reachable allowed start (world.step name action)

theorem Reachable.tracked {start : World ι} (hstart : start.Tracked)
    (hreachable : Reachable (fun world name action ↦ action.Allowed world name) start world) :
    world.Tracked := by
  induction hreachable with
  | refl => exact hstart
  | step _ _ _ hallowed ih => exact (tracked_step ih hallowed).1

/-- The handle has the columns, rows and cells of a fresh load, and reads the same data file. -/
def InStep (result : HandleResult) : Prop :=
  result.failure = none → ∀ kept, ∃ next fresh,
    loadCollection ⟨.none, kept⟩ result.disk = (next, .ok fresh) ∧
    fresh.header = result.stored.header ∧ fresh.dataFile = result.stored.dataFile ∧
    next.files.contents = result.disk.files.contents ∧
    view fresh.memory = view result.stored.memory

omit [DecidableEq ι] in
theorem inStep_of_upToDate
    (hresult : result.failure = none → UpToDate result.disk result.stored) : InStep result := by
  intro hnone kept
  obtain ⟨next, fresh, hload, hcontents, hheader, _, hdata, hview⟩ :=
    load_of_upToDate (hresult hnone) kept
  exact ⟨next, fresh, hload, hheader, hdata, hcontents, hview⟩

/-- In every interleaving of any handles' sections, a handle whose write lock or read lock returns
without an error shows what a fresh load shows, whatever fails in the lock, and no section loses a
committed record. Assumes: every header of the row log is read, no column is full when a write needs
it, the values fit their columns, and a replaced header has a new identity or modification time. -/
theorem locked_handles_in_step {start world : World ι} (hstart : ∀ name, start.handles name = none)
    (hreachable : Reachable (fun world name action ↦ action.Allowed world name) start world) :
    (∀ name stored load, world.handles name = some stored →
        InStep (lockForWrite load world.disk stored) ∧
        InStep (lockForRead load world.disk stored)) ∧
      ∀ name action, action.Allowed world name →
      Commits world.disk (world.step name action).disk := by
  have hinitial : start.Tracked := fun name stored hstored ↦ absurd hstored (by simp [hstart])
  have htracked := hreachable.tracked hinitial
  refine ⟨fun name stored load hstored ↦ ⟨?_, ?_⟩, fun name action hallowed ↦
    (tracked_step htracked hallowed).2⟩
  · obtain ⟨_, _, _, hcurrent⟩ := lockForWrite_settles load (htracked name stored hstored)
    exact inStep_of_upToDate fun hnone ↦ (hcurrent hnone).1.toUpToDate
  · obtain ⟨_, _, hcurrent⟩ := lockForRead_spec load (htracked name stored hstored)
    exact inStep_of_upToDate hcurrent

end

/-- Two handles on the sample directory. -/
def sharedWorld : World Bool :=
  @World.step sampleExternals Bool _
    (@World.step sampleExternals Bool _ ⟨sampleDisk, fun _ ↦ none⟩ true (.opens noLoadFaults))
    false (.opens noLoadFaults)

def sampleWrite : Action :=
  .operates noLoadFaults sampleCallFaults.operation (.upsert [sampleUpsert])

/-- A write of the sample row, or of one that differs in its id, to the sample directory. -/
theorem fitting_write [Externals] {world : World Bool} {name : Bool} {load : LoadFaults}
    {row : UpsertRow} (hscalars : row.scalars = sampleUpsert.scalars)
    (hheader : world.disk.header.map Prod.snd = some ⟨7, 1⟩)
    (hrecorded : ∀ name, (world.handles name).bind CodeCollection.headerInfo = some ⟨7, 1⟩)
    (hcolumns : world.disk.columns = sampleColumns)
    (hnone : ((world.handles name).map fun stored ↦ (runSection world.disk stored
      (.operates load sampleCallFaults.operation (.upsert [row]))).failure) = some none) :
    Action.Fitting world name (.operates load sampleCallFaults.operation (.upsert [row])) := by
  have hinfos : (⟨7, 1⟩ : FileInfo) ∉ sampleWrite.infos := by decide
  refine ⟨⟨fun info hinfo ↦ ⟨fun header hsame ↦ ?_, fun name stored hstored hsame ↦ ?_⟩, ?_⟩, ?_⟩
  · rw [hsame, map_some, Option.some.injEq] at hheader
    exact hinfos (hheader ▸ hinfo)
  · have hfound := hrecorded name
    rw [hstored, bind_some, hsame, Option.some.injEq] at hfound
    exact hinfos (hfound ▸ hinfo)
  · intro _ hrow
    rw [mem_singleton.mp hrow, hcolumns, hscalars]
    exact @ScalarMap.fits_singleton sampleColumns 0 _ _ _ rfl (by decide) ⟨[0x61], .string⟩ rfl
      (.inr ⟨rfl, rfl⟩)
  intro _ hstored _ _
  rw [hstored, map_some, Option.some.injEq] at hnone
  exact fun hfull ↦ absurd (hnone.symm.trans hfull) (by simp)

theorem fitting_sampleWrite : @Action.Fitting sampleExternals Bool sharedWorld false sampleWrite :=
  @fitting_write sampleExternals _ _ _ _ rfl (by decide +kernel) (by decide +kernel)
    (by decide +kernel) (by decide +kernel)

theorem locked_handles_in_step_sample :
    ∃ stored, (@World.step sampleExternals Bool _ sharedWorld false sampleWrite).handles true =
      some stored ∧ @InStep sampleExternals (@lockForRead sampleExternals noLoadFaults
        (@World.step sampleExternals Bool _ sharedWorld false sampleWrite).disk stored) := by
  let _ := sampleExternals
  have hheaders : noLoadFaults.log.ReadsHeaders := fun _ ↦ rfl
  have hopens (world : World Bool) (name : Bool) : (Action.opens noLoadFaults).Allowed world name :=
    ⟨⟨⟨by simp [Action.infos], trivial⟩, fun _ _ ↦ trivial⟩, hheaders⟩
  have hreachable : Reachable (fun world name action ↦ action.Allowed world name)
      (⟨sampleDisk, fun _ ↦ none⟩ : World Bool) (sharedWorld.step false sampleWrite) :=
    .step (.step (.step .refl true _ (hopens _ _)) false _ (hopens _ _)) false _
      ⟨fitting_sampleWrite, hheaders⟩
  obtain ⟨stored, hstored⟩ := isSome_iff_exists.mp (by decide +kernel :
    ((sharedWorld.step false sampleWrite).handles true).isSome)
  exact ⟨stored, hstored,
    ((locked_handles_in_step (fun _ ↦ rfl) hreachable).1 true stored _ hstored).2⟩

/-! ### A header that is not read -/

/-- The other handle has not seen the sample row. It fails to read the header of its record, takes
that for a torn append and cuts it off, and writes a row of the same length in its place. -/
def misreadWrite : Action :=
  .operates { noLoadFaults with log := { LogFaults.none with header := fun _ ↦ true } }
    sampleCallFaults.operation (.upsert [{ sampleUpsert with id := [0x62] }])

def misreadWorld : World Bool :=
  @World.step sampleExternals Bool _
    (@World.step sampleExternals Bool _ sharedWorld false sampleWrite) true
    misreadWrite

/-- After a read of a header that fails, a committed record is lost. The handle that has written it
still shows its row after a read lock, which sees a log of the size that it knows. -/
theorem stale_after_misread_header :
    ∃ (start world : World Bool) (stored : CodeCollection), (∀ name, start.handles name = none) ∧
      @Reachable sampleExternals Bool _
        (fun world name action ↦ @Action.Fitting sampleExternals Bool world name action) start
          world ∧ world.handles false = some stored ∧
      ¬@InStep sampleExternals (@lockForRead sampleExternals noLoadFaults world.disk stored) := by
  let _ := sampleExternals
  have hopens (world : World Bool) (name : Bool) : (Action.opens noLoadFaults).Fitting world name :=
    ⟨⟨by simp [Action.infos], trivial⟩, fun _ _ ↦ trivial⟩
  have hmisread : Action.Fitting (sharedWorld.step false sampleWrite) true misreadWrite :=
    fitting_write rfl (by decide +kernel) (by decide +kernel)
      (by decide +kernel) (by decide +kernel)
  have hreachable : Reachable (fun world name action ↦ action.Fitting world name)
      (⟨sampleDisk, fun _ ↦ none⟩ : World Bool) misreadWorld :=
    .step (.step (.step (.step .refl true _ (hopens _ _)) false _ (hopens _ _)) false _
      fitting_sampleWrite) true _ hmisread
  obtain ⟨stored, hstored⟩ := isSome_iff_exists.mp (by decide +kernel :
    (misreadWorld.handles false).isSome)
  -- The rows that the handle shows, and those of a load.
  have hshown : (misreadWorld.handles false).map (fun stored ↦
      let result := lockForRead noLoadFaults misreadWorld.disk stored
      (result.failure, (view result.stored.memory).entries.map Entry.id,
        (loadCollection noLoadFaults result.disk).2.toOption.map fun fresh ↦
          (view fresh.memory).entries.map Entry.id)) =
      some (none, [[0x72], [0x61]], some [[0x72], [0x62]]) := by
    decide +kernel
  rw [hstored, map_some, Option.some.injEq, Prod.mk.injEq, Prod.mk.injEq] at hshown
  obtain ⟨hnone, hrows, hloaded⟩ := hshown
  refine ⟨_, misreadWorld, stored, fun _ ↦ rfl, hreachable, hstored, fun hinStep ↦ ?_⟩
  obtain ⟨_, fresh, hload, _, _, _, hview⟩ := hinStep hnone fun _ ↦ false
  rw [show loadCollection noLoadFaults _ = _ from hload] at hloaded
  have hids : (view fresh.memory).entries.map Entry.id = [[0x72], [0x62]] := some.inj hloaded
  rw [hview, hrows] at hids
  exact absurd hids (by decide)

end Clyde.CodeStore
