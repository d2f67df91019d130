import Clyde.Foundation.ByteCodec
import Clyde.Foundation.FileSystem
import Clyde.Foundation.LabelledRun
import Clyde.Foundation.LineFile

/-!
# The metrics rollup store under several processes

`internal/daemon/metrics_rollup.go`: the store is a file of JSON lines. A worker appends the marker
of its generation, and in each pass, under an advisory lock, appends what it has distilled and
prunes: it copies the lines it keeps to a temporary file and renames that over the store. A reader
reads the store to its end. During a reload two processes run on one store.

`Step` is one step of one process, between which another can act. `Preserved` says that no record is
lost. The generation marker is appended without the lock, and a failed append leaves the beginning
of a line; `OrderlyStep` excludes both.

Scope. `LineFormat` stands for the JSON of a record. Contents only grow until a rename, so a scan or
a load is one step. Retention is a choice of the step.
-/

set_option autoImplicit false

namespace Clyde.Daemon

open Foundation ByteCodec LineFile

/-- A line of this size or more is not read. -/
def maxMetricsRollupLineBytes : ℕ := 64 * 1024

def rollupBufferBytes : ℕ := 4096

/-- How records are written as lines, and the instant that orders them. -/
structure LineFormat (Record : Type) where
  encode : Record → Bytes
  decode : Bytes → Option Record
  stamp : Record → Option ℤ
  decode_encode : ∀ record, decode (encode record) = some record
  newline_notMem : ∀ record, 0x0A ∉ encode record
  encode_ne_nil : ∀ record, encode record ≠ []
  getLast?_ne : ∀ record, (encode record).getLast? ≠ some 0x0D

def dropCR (line : Bytes) : Bytes :=
  if line.getLast? = some 0x0D then line.dropLast else line

/-- The lines of a file that are not empty, or nothing when one is too long. -/
def scanLines (file : Bytes) : Option (List Bytes) :=
  let pieces := file.splitOn 0x0A
  if pieces.all fun piece ↦ piece.length < maxMetricsRollupLineBytes then
    some ((pieces.map dropCR).filter (· ≠ []))
  else none

section

variable {Record : Type} (format : LineFormat Record)

/-- A stored line is older than the cutoff. A line that cannot be parsed is not. -/
def rollupLineBefore (line : Bytes) (cutoff : ℤ) : Bool :=
  match (format.decode line).bind format.stamp with
  | none => false
  | some instant => instant < cutoff

def keptLines (cutoff : ℤ) (lines : List Bytes) : List Bytes :=
  lines.filter fun line ↦ !rollupLineBefore format line cutoff

def readRollupRecords (file : Bytes) : Option (List Record) :=
  (scanLines file).map fun lines ↦ lines.filterMap format.decode

def appendText (records : List Record) : Bytes := text 0x0A (records.map format.encode)

end

/-- The writes by which a buffered writer hands over its bytes; those that fit the buffer are one
write. -/
def Buffered (bytes : Bytes) (chunks : List Bytes) : Prop :=
  chunks.flatten = bytes ∧ (bytes.length ≤ rollupBufferBytes → chunks = [bytes])

inductive RollupName
  | store
  | temporary
  deriving DecidableEq

/-- Where a process stands. `generation` and `appending` hold an open file, `appending` with the
writes that are left. -/
inductive Stage (Record : Type)
  | idle
  | generation (file : ℕ) (record : Record)
  | locked
  | appending (file : ℕ) (records : List Record) (chunks : List Bytes)
  | appended
  | pruning (file : ℕ) (cutoff : ℤ)
  | scanned (cutoff : ℤ) (dropped : Bool)
  | finished
  | reading (file : Option ℕ)

/-- The stages between taking the lock and releasing it. -/
def Stage.holdsLock {Record : Type} : Stage Record → Bool
  | .idle | .generation .. | .reading _ => false
  | .locked | .appending .. | .appended | .pruning .. | .scanned .. | .finished => true

/-- Records whose append has succeeded, the lines before and after a prune, the beginning and the
result of a load, or a failure within an append. -/
inductive Event (Process Record : Type)
  | silent
  | returned (records : List Record)
  | replaced (cutoff : ℤ) (before after : List Bytes)
  | opened (reader : Process)
  | loaded (reader : Process) (result : Option (List Record))
  | torn

/-- The files, the holder of the lock and the stage of every process. -/
structure System (Process Record : Type) where
  files : FileSystem RollupName UInt8
  holder : Option Process
  stage : Process → Stage Record

namespace System

variable {Process Record : Type} [DecidableEq Process]

section

variable (system : System Process Record)

def move (process : Process) (stage : Stage Record) : System Process Record :=
  { system with stage := Function.update system.stage process stage }

def append (file : ℕ) (bytes : Bytes) : System Process Record :=
  { system with files := system.files.write file (system.files.contents file ++ bytes) }

def leave (process : Process) : System Process Record :=
  { system.move process .idle with
    holder := if system.holder = some process then none else system.holder }

end

variable (system : System Process Record)

@[simp] theorem move_stage_self (process : Process)
    (stage : Stage Record) : (system.move process stage).stage process = stage :=
  Function.update_self ..

theorem move_stage_ne {process other : Process} (hother : other ≠ process) (stage : Stage Record) :
    (system.move process stage).stage other = system.stage other :=
  Function.update_of_ne hother ..

omit [DecidableEq Process] in
@[simp] theorem append_contents_self (file : ℕ) (bytes : Bytes) :
    (system.append file bytes).files.contents file = system.files.contents file ++ bytes :=
  FileSystem.contents_write_self ..

def storeLines (system : System Process Record) : List Bytes :=
  ((system.files.lookup .store).bind fun file ↦ scanLines (system.files.contents file)).getD []

end System

variable {Process Record : Type} [DecidableEq Process] (format : LineFormat Record)

/-- What a load of an open file returns; a store that does not exist has no records. -/
def loadResult (system : System Process Record) : Option ℕ → Option (List Record)
  | none => some []
  | some file => readRollupRecords format (system.files.contents file)

def openTemporary (files : FileSystem RollupName UInt8) : FileSystem RollupName UInt8 :=
  (files.create .temporary).write (files.fileOf .temporary) []

inductive Step (system : System Process Record) :
    Event Process Record → System Process Record → Prop
  -- `recordGeneration`: the marker is shorter than the buffer, so it is one write.
  | generationOpen {process : Process} {record : Record}
      (hstage : system.stage process = .idle)
      (hshort : (appendText format [record]).length ≤ rollupBufferBytes) :
      Step system .silent (({ system with files := system.files.create .store }).move process
          (.generation (system.files.fileOf .store) record))
  | generationWrite {process : Process} {file : ℕ} {record : Record}
      (hstage : system.stage process = .generation file record) :
      Step system (.returned [record])
        ((system.append file (appendText format [record])).move process .idle)
  -- `acquireRollupWriteLock`
  | lock {process : Process} (hstage : system.stage process = .idle)
      (hfree : system.holder = none) :
      Step system .silent (({ system with holder := some process }).move process .locked)
  -- `appendMetricsRollupRecords`, which does nothing without records
  | appendNothing {process : Process}
      (hstage : system.stage process = .locked) :
      Step system .silent (system.move process .appended)
  | appendOpen {process : Process} {records : List Record}
      {chunks : List Bytes} (hstage : system.stage process = .locked) (hrecords : records ≠ [])
      (hchunks : Buffered (appendText format records) chunks) :
      Step system .silent (({ system with files := system.files.create .store }).move process
          (.appending (system.files.fileOf .store) records chunks))
  | appendWrite {process : Process} {file : ℕ}
      {records : List Record} {chunk : Bytes} {chunks : List Bytes}
      (hstage : system.stage process = .appending file records (chunk :: chunks)) :
      Step system .silent ((system.append file chunk).move process (.appending file records chunks))
  | appendReturn {process : Process} {file : ℕ}
      {records : List Record} (hstage : system.stage process = .appending file records []) :
      Step system (.returned records) (system.move process .appended)
  -- `pruneMetricsRollup`, or none because nothing has expired or there is no store
  | pruneNothing {process : Process}
      (hstage : system.stage process = .appended) :
      Step system .silent (system.move process .finished)
  | pruneOpen {process : Process} {file : ℕ} {cutoff : ℤ}
      (hstage : system.stage process = .appended)
        (hstore : system.files.lookup .store = some file) :
      Step system .silent
        (({ system with files := openTemporary system.files }).move process (.pruning file cutoff))
  | pruneScan {process : Process} {file temporary : ℕ} {cutoff : ℤ}
      {lines : List Bytes} (hstage : system.stage process = .pruning file cutoff)
      (htemporary : system.files.lookup .temporary = some temporary)
      (hlines : scanLines (system.files.contents file) = some lines) :
      Step system .silent
        ((system.append temporary (text 0x0A (keptLines format cutoff lines))).move process
          (.scanned cutoff (lines.any fun line ↦ rollupLineBefore format line cutoff)))
  | pruneUnreadable {process : Process} {file : ℕ} {cutoff : ℤ}
      (hstage : system.stage process = .pruning file cutoff)
      (hlines : scanLines (system.files.contents file) = none) :
      Step system .silent
        (({ system with files := system.files.retain fun name ↦ name ≠ RollupName.temporary }).move
          process .finished)
  | pruneDiscard {process : Process} {cutoff : ℤ}
      (hstage : system.stage process = .scanned cutoff false) :
      Step system .silent
        (({ system with files := system.files.retain fun name ↦ name ≠ RollupName.temporary }).move
          process .finished)
  | pruneRename {after : System Process Record} {process : Process} {cutoff : ℤ}
      (hstage : system.stage process = .scanned cutoff true)
      (hafter : after =
        ({ system with files := system.files.rename .temporary .store }).move process .finished) :
      Step system (.replaced cutoff system.storeLines after.storeLines) after
  | unlock {process : Process} (hstage : system.stage process = .finished) :
      Step system .silent (system.leave process)
  -- an error or the end of the process, outside a write
  | abandon {process : Process} (hstage : ∀ file records chunk chunks,
        system.stage process ≠ .appending file records (chunk :: chunks)) :
      Step system .silent (system.leave process)
  -- the same after some bytes of an append
  | generationTorn {process : Process} {file : ℕ} {record : Record}
      {part : Bytes} (hstage : system.stage process = .generation file record)
      (hpart : part <+: appendText format [record]) :
      Step system .torn ((system.append file part).leave process)
  | appendTorn {process : Process} {file : ℕ}
      {records : List Record} {chunk part : Bytes} {chunks : List Bytes}
      (hstage : system.stage process = .appending file records (chunk :: chunks))
      (hpart : part <+: chunk) :
      Step system .torn ((system.append file part).leave process)
  -- `loadMetricsRollup`
  | loadOpen {process : Process} (hstage : system.stage process = .idle) :
      Step system (.opened process) (system.move process (.reading (system.files.lookup .store)))
  | loadRead {process : Process} {file : Option ℕ}
      (hstage : system.stage process = .reading file) :
      Step system (.loaded process (loadResult format system file)) (system.move process .idle)

/-- A load that opens the store after an append has returned returns its records, except those that
a prune was to drop; and a prune keeps the records that are not older than its cutoff. -/
structure Preserved (events : List (Event Process Record)) : Prop where
  loaded : ∀ front records between reader during result back, events = front ++ .returned records ::
      (between ++ .opened reader :: (during ++ .loaded reader result :: back)) →
    ∀ record ∈ records, (∀ cutoff before after, .replaced cutoff before after ∈ events →
        rollupLineBefore format (format.encode record) cutoff = false) →
      ∃ loaded, result = some loaded ∧ record ∈ loaded
  replaced : ∀ cutoff before after, .replaced cutoff before after ∈ events →
    ∀ record, format.encode record ∈ before →
      rollupLineBefore format (format.encode record) cutoff = false → format.encode record ∈ after

/-- No process is between opening and writing the marker of a generation while the lock is held. -/
def Exclusive (system : System Process Record) : Prop :=
  ∀ process file record, system.stage process = .generation file record → system.holder = none

/-- A step after which no marker is being written beside a pass, and which does not fail within an
append. -/
def OrderlyStep (before : System Process Record) (event : Event Process Record)
    (after : System Process Record) : Prop :=
  Step format before event after ∧ Exclusive after ∧ event ≠ .torn

/-- No process has started, and the store, if there is one, holds whole lines. -/
structure Initial (system : System Process Record) : Prop where
  holder : system.holder = none
  stage : ∀ process, system.stage process = .idle
  store : ∀ file, system.files.lookup .store = some file →
    Tidy 0x0A maxMetricsRollupLineBytes (system.files.contents file)

end Clyde.Daemon
