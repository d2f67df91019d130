import Clyde.CodeStore.Compact

/-!
# Handles that share a directory

`codestore/coherence.go`: a handle that has seen the header as it is now replays only the records
after its own log size; in every other case it loads the directory again.

`Tracks` is what a handle needs between its operations: if the header is still the one it recorded,
its rows are what a first part of the row log leaves.

Scope. A function here is one locked section. The lock's own errors, and errors of `os.Stat` other
than a missing file, are left out.
-/

set_option autoImplicit false

namespace Clyde.CodeStore

open Foundation ByteCodec

structure HandleResult where
  disk : Disk
  stored : CodeCollection
  failure : Option Failure

/-- Whether a path is missing or names another file than the opened one. -/
def pathReplaced (disk : Disk) (file : GenerationFile) (opened : FileId) : Bool :=
  disk.files.lookup file ≠ some opened

def filesReplaced (disk : Disk) (stored : CodeCollection) (recorded : FileInfo) :
    Except Failure Bool :=
  match disk.header with
  | none => .error .inspectHeader
  | some (_, info) =>
    if recorded.file ≠ info.file ∨ recorded.modTime ≠ info.modTime then .ok true
    else if pathReplaced disk ⟨.rows, stored.header.generation⟩ stored.rowsFile then .ok true
    else .ok (pathReplaced disk ⟨.data, stored.header.generation⟩ stored.dataFile)

/-- Whether the header file or the row log differs from the state in memory. -/
def diskChanged (disk : Disk) (stored : CodeCollection) : Except Failure Bool :=
  match stored.headerInfo with
  | none => .ok true
  | some recorded =>
    match filesReplaced disk stored recorded with
    | .error failure => .error failure
    | .ok true => .ok true
    | .ok false =>
      .ok ((disk.files.contents stored.rowsFile).length ≠ stored.logSize ||
        (disk.files.contents stored.dataFile).length < stored.dataSize)

variable [Externals]

section

variable (faults : LoadFaults) (disk : Disk) (stored : CodeCollection)

/-- Loads the directory again. The handle stays open or closed as it was. -/
def reload : HandleResult :=
  match loadCollection faults disk with
  | (next, .error failure) => { disk := next, stored := stored, failure := some failure }
  | (next, .ok fresh) =>
    { disk := next, stored := { fresh with closed := stored.closed }, failure := none }

def replayNew : HandleResult :=
  let replayed := replay faults.log (disk.files.contents stored.rowsFile) stored
  { disk := writeFile disk stored.rowsFile replayed.log, stored := replayed.stored
    failure := replayed.failure }

/-- Applies the changes of other handles. -/
def syncWithDisk : HandleResult :=
  match stored.headerInfo with
  | none => reload faults disk stored
  | some recorded =>
    match filesReplaced disk stored recorded with
    | .error failure => { disk := disk, stored := stored, failure := some failure }
    | .ok true => reload faults disk stored
    | .ok false =>
      if (disk.files.contents stored.rowsFile).length < stored.logSize ∨
          (disk.files.contents stored.dataFile).length < stored.dataSize then
        reload faults disk stored
      else
        let synced :=
          { stored with dataSize := (disk.files.contents stored.dataFile).length }
        if (disk.files.contents stored.rowsFile).length = stored.logSize then
          { disk := disk, stored := synced, failure := none }
        else replayNew faults disk synced

/-- The locked section before a write. -/
def lockForWrite : HandleResult :=
  if stored.closed then { disk := disk, stored := stored, failure := some .storeClosed }
  else syncWithDisk faults disk stored

/-- The locked section before a read. A reader that finds the files changed catches up as a writer
does. -/
def lockForRead : HandleResult :=
  if stored.closed then { disk := disk, stored := stored, failure := some .storeClosed }
  else
    match diskChanged disk stored with
    | .error failure => { disk := disk, stored := stored, failure := some failure }
    | .ok false => { disk := disk, stored := stored, failure := none }
    | .ok true => lockForWrite faults disk stored

end

/-- The handle recorded the header that the directory has now. -/
def KnowsHeader (disk : Disk) (stored : CodeCollection) : Prop :=
  ∃ header info, disk.header = some (header, info) ∧ stored.headerInfo = some info

/-- A handle that recorded the current header follows the directory. -/
def Tracks (disk : Disk) (stored : CodeCollection) : Prop :=
  KnowsHeader disk stored → Follows disk stored

variable {stored : CodeCollection} {disk : Disk}

/-- A handle that tracked the directory still tracks it after a change that keeps the header and the
chains. -/
theorem Tracks.keeps {next : Disk} (htracks : Tracks disk stored)
    (hkeeps : Keeps disk next) : Tracks next stored := by
  rintro ⟨header, info, hheader, hinfo⟩
  exact (htracks ⟨header, info, hkeeps.header_eq ▸ hheader, hinfo⟩).keeps hkeeps

omit [Externals] in
theorem filesReplaced_eq_false {recorded : FileInfo}
    (hsame : filesReplaced disk stored recorded = .ok false) :
    ∃ header, disk.header = some (header, recorded) := by
  unfold filesReplaced at hsame
  cases hheader : disk.header with
  | none => simp [hheader] at hsame
  | some found =>
    obtain ⟨header, info⟩ := found
    simp only [hheader] at hsame
    by_cases hinfo : recorded.file ≠ info.file ∨ recorded.modTime ≠ info.modTime
    · simp [hinfo] at hsame
    · rw [not_or, not_not, not_not] at hinfo
      exact ⟨header, by rw [FileInfo.ext_iff.mpr hinfo]⟩

/-- Catching up keeps what the handle tracks, and when every header of the row log is read also the
directory. When it succeeds, the handle is current. -/
structure CaughtUp (faults : LoadFaults) (disk : Disk) (result : HandleResult) : Prop where
  header_eq : result.disk.header = disk.header
  keeps : faults.log.ReadsHeaders → Keeps disk result.disk
  tracks : Tracks result.disk result.stored
  current : result.failure = none → Current result.disk result.stored ∧
    KnowsHeader result.disk result.stored

variable (faults : LoadFaults)

theorem caughtUp_of_failure (htracks : Tracks disk stored) (failure : Failure) :
    CaughtUp faults disk { disk := disk, stored := stored, failure := some failure } :=
  ⟨rfl, fun _ ↦ Keeps.refl disk, htracks, by simp⟩

theorem Current.closing {next : Disk} (hcurrent : Current next stored) (closed : Bool) :
    Current next { stored with closed := closed } :=
  ⟨⟨⟨hcurrent.header_eq, hcurrent.format, hcurrent.rows, hcurrent.data, hcurrent.dataSize_le,
    hcurrent.reflects⟩, hcurrent.logSize_eq⟩, hcurrent.dataSize_eq⟩

/-- A reload, which loads the collection anew, catches up with the directory. -/
theorem reload_spec (htracks : Tracks disk stored) :
    CaughtUp faults disk (reload faults disk stored) := by
  have hloads := loadCollection_spec faults disk
  unfold reload
  generalize loadCollection faults disk = loaded at hloads
  obtain ⟨next, result⟩ := loaded
  cases result with
  | error failure =>
    obtain rfl : next = disk := hloads.failed failure rfl
    exact caughtUp_of_failure faults htracks failure
  | ok fresh =>
    obtain ⟨hcurrent, hinfo, _⟩ := hloads.current fresh rfl
    have hclosed := hcurrent.closing stored.closed
    refine ⟨hloads.header_eq, hloads.keeps, fun _ ↦ hclosed.toFollows, fun _ ↦ ⟨hclosed, ?_⟩⟩
    obtain ⟨info, hheader⟩ := hcurrent.exists_header
    refine ⟨fresh.header, info, hheader, ?_⟩
    rw [hinfo, ← hloads.header_eq, hheader, Option.map_some]

/-- Replaying only the new part of the log makes a handle that follows the directory current, and a
failed replay leaves it following. -/
theorem replayNew_spec (hfollows : Follows disk stored)
    (hsize : stored.dataSize = (disk.files.contents stored.dataFile).length) :
    (faults.log.ReadsHeaders → Keeps disk (replayNew faults disk stored).disk) ∧
      Follows (replayNew faults disk stored).disk (replayNew faults disk stored).stored ∧
      (replayNew faults disk stored).stored.headerInfo = stored.headerInfo ∧
      ((replayNew faults disk stored).failure = none →
        Current (replayNew faults disk stored).disk (replayNew faults disk stored).stored) := by
  have hreflects := hfollows.reflects
  rw [← hsize] at hreflects
  have hreplays := replay_reflects faults.log hreflects
  obtain ⟨_, hheader⟩ := hfollows.exists_header
  unfold replayNew
  generalize replay faults.log _ stored = replayed at hreplays
  dsimp only
  obtain ⟨hstored, hafter, _, _, hkeeps, hend⟩ := hreplays
  rw [hsize] at hafter hkeeps
  have hnext : Follows (writeFile disk stored.rowsFile replayed.log) replayed.stored := by
    rw [hstored]
    refine ⟨hfollows.header_eq, hfollows.format, hfollows.rows, hfollows.data, ?_, ?_⟩
    · rw [hfollows.data_writeLog]
      exact hfollows.dataSize_le
    · rwa [hfollows.data_writeLog, contents_writeFile_self]
  refine ⟨fun hheaders ↦ keeps_writeLog hheader hfollows.rows hfollows.data (hkeeps hheaders),
    hnext, by rw [hstored], fun hnone ↦ ⟨⟨hnext, ?_⟩, ?_⟩⟩
  · rw [hend hnone, hstored]
    exact (congrArg List.length (contents_writeFile_self ..)).symm
  · rw [hstored]
    exact hsize.trans (congrArg List.length (hfollows.data_writeLog _)).symm

/-- A handle that tracks the directory catches up with it, by a replay of what is new or by a
reload. -/
theorem syncWithDisk_spec (htracks : Tracks disk stored) :
    CaughtUp faults disk (syncWithDisk faults disk stored) := by
  have hreload := reload_spec faults htracks
  unfold syncWithDisk
  cases hinfo : stored.headerInfo with
  | none => exact hreload
  | some recorded =>
    simp only
    cases hreplaced : filesReplaced disk stored recorded with
    | error failure => exact caughtUp_of_failure faults htracks failure
    | ok replaced =>
      cases replaced with
      | true => exact hreload
      | false =>
        obtain ⟨header, hheader⟩ := filesReplaced_eq_false hreplaced
        have hfollows := htracks ⟨header, recorded, hheader, hinfo⟩
        simp only
        split
        · exact hreload
        have hsynced : Follows disk { stored with
              dataSize := (disk.files.contents stored.dataFile).length
              headerInfo := some recorded } :=
          ⟨hfollows.header_eq, hfollows.format, hfollows.rows, hfollows.data,
            le_rfl, hfollows.reflects⟩
        by_cases hsize : (disk.files.contents stored.rowsFile).length = stored.logSize
        · rw [if_pos hsize]
          exact ⟨rfl, fun _ ↦ Keeps.refl disk, fun _ ↦ hsynced, fun _ ↦
            ⟨⟨⟨hsynced, hsize.symm⟩, rfl⟩, header, recorded, hheader, rfl⟩⟩
        rw [if_neg hsize]
        obtain ⟨hkeeps, hnext, hsame, hend⟩ := replayNew_spec faults hsynced rfl
        exact ⟨rfl, hkeeps, fun _ ↦ hnext, fun hnone ↦
          ⟨hend hnone, header, recorded, hheader, hsame⟩⟩

/-- A current handle stays current, whether the reads of a catch-up fail or not. -/
theorem current_syncWithDisk (hcurrent : Current disk stored) :
    Current (syncWithDisk faults disk stored).disk (syncWithDisk faults disk stored).stored := by
  have hreload : Current (reload faults disk stored).disk (reload faults disk stored).stored := by
    have hloads := loadCollection_spec faults disk
    unfold reload
    generalize loadCollection faults disk = loaded at hloads
    obtain ⟨next, result⟩ := loaded
    cases result with
    | error failure =>
      obtain rfl : next = disk := hloads.failed failure rfl
      exact hcurrent
    | ok fresh => exact (hloads.current fresh rfl).1.closing stored.closed
  unfold syncWithDisk
  split
  · exact hreload
  split
  · exact hcurrent
  · exact hreload
  rw [if_neg (by rw [← hcurrent.logSize_eq, ← hcurrent.dataSize_eq]; omega),
    if_pos hcurrent.logSize_eq.symm, ← hcurrent.dataSize_eq]
  exact hcurrent

omit [Externals] in
/-- Without a change the handle knows the header and has seen the whole row log. -/
theorem diskChanged_eq_false (hsame : diskChanged disk stored = .ok false) :
    KnowsHeader disk stored ∧ (disk.files.contents stored.rowsFile).length = stored.logSize := by
  unfold diskChanged at hsame
  cases hinfo : stored.headerInfo with
  | none => simp [hinfo] at hsame
  | some recorded =>
    simp only [hinfo] at hsame
    cases hreplaced : filesReplaced disk stored recorded with
    | error => simp [hreplaced] at hsame
    | ok replaced =>
      cases replaced with
      | true => simp [hreplaced] at hsame
      | false =>
        obtain ⟨header, hheader⟩ := filesReplaced_eq_false hreplaced
        simp only [hreplaced, Except.ok.injEq, Bool.or_eq_false_iff, decide_eq_false_iff_not,
          not_not] at hsame
        exact ⟨⟨header, recorded, hheader, hinfo⟩, hsame.1⟩

/-- A reader that finds nothing changed is up to date as it is; otherwise it catches up as a writer
does. -/
theorem lockForRead_spec (htracks : Tracks disk stored) :
    (faults.log.ReadsHeaders → Keeps disk (lockForRead faults disk stored).disk) ∧
      Tracks (lockForRead faults disk stored).disk (lockForRead faults disk stored).stored ∧
      ((lockForRead faults disk stored).failure = none →
        UpToDate (lockForRead faults disk stored).disk
          (lockForRead faults disk stored).stored) := by
  unfold lockForRead
  by_cases hclosed : stored.closed
  · rw [if_pos hclosed]
    exact ⟨fun _ ↦ Keeps.refl disk, htracks, by simp⟩
  rw [if_neg hclosed]
  cases hchanged : diskChanged disk stored with
  | error => exact ⟨fun _ ↦ Keeps.refl disk, htracks, by simp⟩
  | ok changed =>
    cases changed with
    | false =>
      obtain ⟨hknows, hsize⟩ := diskChanged_eq_false hchanged
      exact ⟨fun _ ↦ Keeps.refl disk, htracks, fun _ ↦ ⟨htracks hknows, hsize.symm⟩⟩
    | true =>
      obtain ⟨_, hkeeps, hnext, hcurrent⟩ := syncWithDisk_spec faults htracks
      simp only [lockForWrite, hclosed]
      exact ⟨hkeeps, hnext, fun hnone ↦ (hcurrent hnone).1.toUpToDate⟩

end Clyde.CodeStore
