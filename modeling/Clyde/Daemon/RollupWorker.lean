import Clyde.Daemon.MetricsRollup

/-!
# The rollup worker

`internal/daemon/metrics_rollup_worker.go`, `openSource` and `readTail`: a worker marks its
generation, takes the saved checkpoint and runs passes; the daemon restarts and the log is rotated
in between. The checkpoint has the position in the log and the start of the coverage. The requests
that have not finished are only in the memory of the worker.

`World.report` is the report of a window, made from the checkpoint and the store alone.

Scope. A pass finds the log at rest and whole lines in it, so it reads to the end of the active
file. File identities are not used twice. A pass that cannot read does nothing and is left out. One
whose append to the store fails before its first byte is `fail`; an append that fails inside a line
leaves a torn line, which swallows the next record, and is not an event.
-/

set_option autoImplicit false

namespace Clyde.Daemon

open Foundation ByteCodec Text KeyedFold List

structure LogFiles where
  rotated : List (List LogLine)
  active : List LogLine
  deriving DecidableEq

/-- A file, counted from the oldest, and the number of its lines before the position. -/
structure LogPosition where
  file : ℕ
  offset : ℕ
  deriving DecidableEq

namespace LogFiles

variable (files : LogFiles)

/-- All that was ever logged. -/
def lines : List LogLine := files.rotated.flatten ++ files.active

def tip : LogPosition := ⟨files.rotated.length, files.active.length⟩

def file (index : ℕ) : List LogLine := (files.rotated ++ [files.active]).getD index []

def count (position : LogPosition) : ℕ :=
  (files.rotated.take position.file).flatten.length + position.offset

/-- What a pass reads from a position on: the rest of its file, and the active file when that is
another. -/
def tail (position : LogPosition) : List LogLine :=
  if position.file = files.rotated.length then files.active.drop position.offset
  else (files.file position.file).drop position.offset ++ files.active

end LogFiles

namespace LogFiles

structure Valid (files : LogFiles) (position : LogPosition) : Prop where
  file_le : position.file ≤ files.rotated.length
  offset_le : position.offset ≤ (files.file position.file).length

variable (files : LogFiles)

theorem file_length : files.file files.rotated.length = files.active := by simp [file]

theorem valid_tip : files.Valid files.tip := ⟨le_rfl, by rw [tip, file_length]⟩

theorem count_tip : files.count files.tip = files.lines.length := by simp [count, tip, lines]

variable {position : LogPosition} {files : LogFiles}

theorem lines_of_lt (hfile : position.file < files.rotated.length) :
    files.lines = (files.rotated.take position.file).flatten ++ (files.file position.file ++
      ((files.rotated.drop (position.file + 1)).flatten ++ files.active)) := by
  have hget : files.file position.file = files.rotated[position.file] := by
    rw [file, getD_eq_getElem?_getD, getElem?_append_left hfile, getElem?_eq_getElem hfile]
    rfl
  have hsplit : files.rotated = files.rotated.take position.file ++
      files.rotated[position.file] :: files.rotated.drop (position.file + 1) := by
    rw [getElem_cons_drop, take_append_drop]
  rw [hget]
  conv_lhs => rw [lines, hsplit, flatten_append, flatten_cons]
  simp

section

variable (hvalid : files.Valid position)
include hvalid

theorem count_le : files.count position ≤ files.lines.length := by
  obtain ⟨hfile, hoffset⟩ := hvalid
  rcases hfile.lt_or_eq with hlt | heq
  · rw [lines_of_lt hlt, count, length_append, length_append]
    omega
  · rw [heq, file_length] at hoffset
    rw [count, heq, take_length, lines, length_append]
    omega

theorem tail_eq (hnext : (files.rotated.drop (position.file + 1)).flatten = []) :
    files.tail position = files.lines.drop (files.count position) := by
  obtain ⟨hfile, hoffset⟩ := hvalid
  unfold tail count
  rcases hfile.lt_or_eq with hlt | heq
  · rw [if_neg hlt.ne, lines_of_lt hlt, hnext, nil_append, drop_length_add_append,
      drop_append_of_le_length hoffset]
  · rw [if_pos heq, heq, take_length, lines, drop_length_add_append]

theorem Valid.append (line : LogLine) : Valid ⟨files.rotated, files.active ++ [line]⟩ position := by
  obtain ⟨hfile, hoffset⟩ := hvalid
  refine ⟨hfile, ?_⟩
  rcases hfile.lt_or_eq with hlt | heq
  · simpa [file, getElem?_append_left hlt] using hoffset
  rw [heq, file_length] at hoffset
  rw [heq]
  simp only [file, getD_eq_getElem?_getD, getElem?_concat_length, Option.getD_some, length_append]
  omega

theorem Valid.rotate : Valid ⟨files.rotated ++ [files.active], []⟩ position := by
  obtain ⟨_, hoffset⟩ := hvalid
  refine ⟨?_, ?_⟩
  · simp only [length_append, length_singleton]
    omega
  have hlt : position.file < (files.rotated ++ [files.active]).length := by
    simp only [length_append, length_singleton]
    omega
  rwa [file, getD_eq_getElem?_getD, getElem?_append_left hlt]

theorem Valid.count_rotate :
    count ⟨files.rotated ++ [files.active], []⟩ position = files.count position := by
  rw [count, count, take_append_of_le_length hvalid.file_le]

end

end LogFiles

/-- What is saved of a worker. -/
structure MetricsRollupCheckpoint where
  lastRecordAt : ℤ
  lastPassAt : ℤ
  source : Option LogPosition
  coverageSince : ℤ
  deriving DecidableEq

def emptyCheckpoint : MetricsRollupCheckpoint := ⟨0, 0, none, 0⟩

/-- A running worker. `held` says that the file of its position is open. -/
structure RollupWorker where
  state : MetricsRollupState
  checkpoint : MetricsRollupCheckpoint
  held : Bool

def newMetricsRollupWorker (saved : MetricsRollupCheckpoint) : RollupWorker :=
  ⟨⟨∅, saved.lastRecordAt, 0, false⟩, saved, false⟩

/-- The position at which a pass goes on: that of the open file, or a saved one in the active file.
-/
def resumedSource (files : LogFiles) (worker : RollupWorker) : Option LogPosition :=
  if worker.held then worker.checkpoint.source
  else worker.checkpoint.source.filter fun position ↦
    position.file = files.rotated.length && position.offset ≤ files.active.length

/-- The position from which a pass reads, and the start of the coverage. -/
def openSource (files : LogFiles) (now : ℤ) (worker : RollupWorker) : LogPosition × ℤ :=
  match resumedSource files worker with
  | some position => (position, worker.checkpoint.coverageSince)
  | none => (files.tip, now)

/-- The checkpoint differs from the saved one in more than the time of the last pass. -/
def checkpointChanged (saved checkpoint : MetricsRollupCheckpoint) : Bool :=
  { checkpoint with lastPassAt := saved.lastPassAt } ≠ saved

structure World where
  files : LogFiles
  store : List MetricsRollupRecord
  saved : MetricsRollupCheckpoint
  worker : Option RollupWorker
  clock : ℤ

/-- A pass has the times at which it starts and is done. A marker and a checkpoint may fail to be
written. -/
inductive WorkerEvent
  | append (line : LogLine)
  | rotate
  | restart (now : ℤ) (marks : Bool)
  | pass (now done : ℤ) (order : RequestOrder) (saves : Bool)
  | fail (now : ℤ)
  | cleanup (now : ℤ) (saves : Bool)

namespace World

def writeCheckpoint (world : World) (worker : RollupWorker) (now : ℤ) (saves : Bool) : World :=
  { world with
    saved := if saves then { worker.checkpoint with lastPassAt := now } else world.saved
    worker := some { worker with checkpoint := { worker.checkpoint with lastPassAt := now } }
    clock := now }

def runPass (world : World) (worker : RollupWorker) (now done : ℤ) (order : RequestOrder)
    (saves : Bool) : World :=
  let opened := openSource world.files now worker
  let distilled :=
    distillMetricsRollup order now (world.files.tail opened.1) worker.state world.store
  let next : RollupWorker :=
    { state := distilled.1
      checkpoint :=
        { worker.checkpoint with
          lastRecordAt := distilled.1.lastRecordAt
          source := some world.files.tip
          coverageSince := opened.2 }
      held := true }
  let passed := { world with store := distilled.2, worker := some next, clock := done }
  if checkpointChanged world.saved next.checkpoint then passed.writeCheckpoint next done saves
  else passed

/-- A pass that reads the log and writes no byte of its records: it keeps the requests for the next
one. -/
def failPass (world : World) (worker : RollupWorker) (now : ℤ) : World :=
  let opened := openSource world.files now worker
  let requests := readLines worker.state.requests (world.files.tail opened.1)
  { world with
    worker := some
      { state :=
          { worker.state with
            requests := restrict (fun request ↦ !request.ingressOnly) requests }
        checkpoint :=
          { worker.checkpoint with source := some world.files.tip, coverageSince := opened.2 }
        held := true }
    clock := now }

/-- The retention job has changed the log: the worker leaves its place. -/
def leaveSource (world : World) (worker : RollupWorker) (now : ℤ) (saves : Bool) : World :=
  world.writeCheckpoint { worker with
      checkpoint := { worker.checkpoint with source := none, coverageSince := now }
      held := false } now saves

/-- One event. Without a worker there are no passes. -/
def step (world : World) : WorkerEvent → World
  | .append line =>
    { world with files := ⟨world.files.rotated, world.files.active ++ [line]⟩ }
  | .rotate => { world with files := ⟨world.files.rotated ++ [world.files.active], []⟩ }
  | .restart now marks =>
    { world with
      store := world.store ++ if marks then [.generation now] else []
      worker := some (newMetricsRollupWorker world.saved)
      clock := now }
  | .pass now done order saves =>
    match world.worker with
    | none => world
    | some worker => world.runPass worker now done order saves
  | .fail now =>
    match world.worker with
    | none => world
    | some worker => world.failPass worker now
  | .cleanup now saves =>
    match world.worker with
    | none => world
    | some worker => world.leaveSource worker now saves

/-- Before the first worker: nothing is stored or saved. -/
structure Initial (world : World) : Prop where
  store : world.store = []
  saved : world.saved = emptyCheckpoint
  worker : world.worker = none

def report (world : World) (durationText : ℤ → String) (pricing : PricingTable) (now duration : ℤ) :
    MetricsHistoryReport :=
  rollupReport durationText pricing
    ⟨world.saved.lastPassAt, world.saved.coverageSince, world.saved.source = some world.files.tip⟩
    world.store ⟨now - duration, now⟩

end World

end Clyde.Daemon
