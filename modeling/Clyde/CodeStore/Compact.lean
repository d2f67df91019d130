import Clyde.CodeStore.Rewrite

/-!
# Compaction

`codestore/compact.go`. Compaction writes the live rows and their data to the files of the next
generation, replaces the header, and removes the files of the previous generation. `compact` returns
the handle, its error, and the directory at each point where it can be interrupted; what fails is in
`CompactFaults`.

`compact_spec` is the inversion: until the header is replaced the directory keeps the current
generation, and from then on it holds the whole next one, so at every point one of the two handles
is current.

Scope. The header is replaced by an atomic rename. A row whose data length is larger than the data
file is a read error here; the source allocates the length first.
-/

set_option autoImplicit false

namespace Clyde.CodeStore

open Foundation ByteCodec KeyedRows List FileSystem

/-! ### The code -/

/-- Reads a range of the data file. A read of no bytes succeeds at every offset. -/
def readData (data : Bytes) (offset length : ℕ) : Option Bytes :=
  if length = 0 then some []
  else if offset + length ≤ data.length then some (readAt data offset length)
  else none

def liveRecords (memory : Memory) : List RowRecord :=
  List.zipWith (recordOfRow memory.dictionaries) memory.rows memory.codes

/-- What fails, the bytes in the new files while they are written, and the identity of the replaced
header. -/
structure CompactFaults where
  createRows : Bool
  createData : Bool
  read : ℕ → Bool
  write : Bool
  stat : Bool
  header : Bool
  identity : Bool
  directory : Bool
  keepRows : Bool
  keepData : Bool
  partialRows : Bytes
  partialData : Bytes
  info : FileInfo

structure Compacted where
  trace : List Disk
  disk : Disk
  stored : CodeCollection
  failure : Option Failure

structure CompactedFiles where
  offsets : List ℕ
  rows : Bytes
  data : Bytes

def createEmpty (disk : Disk) (file : GenerationFile) : Disk :=
  { disk with files := (disk.files.create file).write (disk.files.fileOf file) [] }

def writeFile (disk : Disk) (file : FileId) (bytes : Bytes) : Disk :=
  { disk with files := disk.files.write file bytes }

def removeFile (disk : Disk) (file : GenerationFile) (fails : Bool) : Disk :=
  { disk with files := disk.files.retain fun other ↦ fails || other ≠ file }

def readBlob (data : Bytes) (id : Bytes) (offset length : ℕ) : Except Failure (Bytes × Bytes) :=
  match readData data offset length with
  | none => .error (.readRow id)
  | some blob =>
    match decodeBlob blob with
    | .ok texts => .ok texts
    | .malformed => .error (.decodeRow id)
    | .panic => .error .panic

section

variable [Externals]

def writeCompacted (read : ℕ → Bool) (columns : List ScalarColumn) (data : Bytes) :
    List RowRecord → ℕ → ℕ → Except Failure CompactedFiles
  | [], _, _ => .ok { offsets := [], rows := [], data := [] }
  | record :: rest, position, dataOffset =>
    if read position then .error .readCompaction
    else
      match readData data record.dataOffset record.dataLength with
      | none => .error .readCompaction
      | some blob =>
        match frameRecords columns frameFormatLengthCRC
          [{ record with dataOffset := dataOffset }] [] with
        | .error failure => .error failure
        | .ok frame =>
          match writeCompacted read columns data rest (position + 1)
            (dataOffset + record.dataLength) with
          | .error failure => .error failure
          | .ok files =>
            .ok
              { offsets := dataOffset :: files.offsets, rows := frame ++ files.rows
                data := blob ++ files.data }

def CollectionHeader.compacted (header : CollectionHeader) : CollectionHeader :=
  { header with generation := header.generation + 1, frameFormat := frameFormatLengthCRC }

def moveRows (memory : Memory) (offsets : List ℕ) : Memory :=
  { memory with
    rows := List.zipWith (fun row offset ↦ { row with dataOffset := offset }) memory.rows offsets
    dead := 0 }

def abandon (faults : CompactFaults) (trace : List Disk) (disk : Disk) (stored : CodeCollection)
    (failure : Failure) : Compacted :=
  let rowsRemoved := removeFile disk ⟨.rows, stored.header.generation + 1⟩ faults.keepRows
  let removed := removeFile rowsRemoved ⟨.data, stored.header.generation + 1⟩ faults.keepData
  { trace := trace ++ [disk, rowsRemoved, removed], disk := removed, stored := stored
    failure := some failure }

def switchHandle (faults : CompactFaults) (stored : CodeCollection) (rowsOut dataOut : FileId)
    (files : CompactedFiles) : CodeCollection :=
  { stored with
    header := stored.header.compacted
    memory := moveRows stored.memory files.offsets
    rowsFile := rowsOut
    dataFile := dataOut
    dataSize := files.data.length
    logSize := files.rows.length
    headerInfo := if faults.identity then none else some faults.info }

def finishCompaction (faults : CompactFaults) (trace : List Disk) (replaced : Disk)
    (previous : Int64) (switched : CodeCollection) : Compacted :=
  if faults.directory then
    { trace := trace ++ [replaced], disk := replaced, stored := switched
      failure := some .syncDirectory }
  else
    let rowsRemoved := removeFile replaced ⟨.rows, previous⟩ faults.keepRows
    let removed := removeFile rowsRemoved ⟨.data, previous⟩ faults.keepData
    { trace := trace ++ [replaced, rowsRemoved, removed], disk := removed, stored := switched
      failure :=
        if faults.keepRows || faults.keepData then some .removePrevious
        else if faults.identity then some .inspectHeader
        else none }

/-- The files of the next generation are written and synced before the header selects them. -/
def compact (faults : CompactFaults) (disk : Disk) (stored : CodeCollection) : Compacted :=
  let next := stored.header.generation + 1
  if faults.createRows then
    { trace := [disk], disk := disk, stored := stored, failure := some (.createFile ⟨.rows, next⟩) }
  else
    let rowsOut := disk.files.fileOf ⟨.rows, next⟩
    let rowsCreated := createEmpty disk ⟨.rows, next⟩
    if faults.createData then
      let removed := removeFile rowsCreated ⟨.rows, next⟩ faults.keepRows
      { trace := [disk, rowsCreated, removed], disk := removed, stored := stored
        failure := some (.createFile ⟨.data, next⟩) }
    else
      let dataOut := rowsCreated.files.fileOf ⟨.data, next⟩
      let created := createEmpty rowsCreated ⟨.data, next⟩
      let writing :=
    writeFile (writeFile created rowsOut faults.partialRows) dataOut faults.partialData
      let trace := [disk, rowsCreated, created]
      match writeCompacted faults.read stored.header.columns
        (disk.files.contents stored.dataFile) (liveRecords stored.memory) 0 0 with
      | .error failure => abandon faults trace writing stored failure
      | .ok files =>
        if faults.write ∨ 2 ^ 63 ≤ files.data.length then
          abandon faults trace writing stored .writeCompacted
        else
          let written := writeFile (writeFile created rowsOut files.rows) dataOut files.data
          let trace := trace ++ [writing]
          if faults.stat then abandon faults trace written stored .inspectCompacted
          else if faults.header then abandon faults trace written stored .replaceHeader
          else
            finishCompaction faults (trace ++ [written])
              { written with header := some (stored.header.compacted, faults.info) }
              stored.header.generation (switchHandle faults stored rowsOut dataOut files)

/-! ### Changes outside a generation -/

omit [Externals] in
theorem generation_succ_ne (generation : Int64) : generation + 1 ≠ generation := by simp

structure Untouched (generation : Int64) (disk point : Disk) : Prop where
  header_eq : point.header = disk.header
  lookup_eq : ∀ kind, point.files.lookup ⟨kind, generation⟩ = disk.files.lookup ⟨kind, generation⟩
  contents_eq : ∀ kind file, disk.files.lookup ⟨kind, generation⟩ = some file →
    point.files.contents file = disk.files.contents file

omit [Externals] in
theorem Untouched.refl (generation : Int64) (disk : Disk) : Untouched generation disk disk :=
  ⟨rfl, fun _ ↦ rfl, fun _ _ _ ↦ rfl⟩

variable {generation : Int64}

omit [Externals] in
theorem Untouched.trans {first second third : Disk} (hfirst : Untouched generation first second)
    (hsecond : Untouched generation second third) :
    Untouched generation first third where
  header_eq := hsecond.header_eq.trans hfirst.header_eq
  lookup_eq kind := (hsecond.lookup_eq kind).trans (hfirst.lookup_eq kind)
  contents_eq kind file hfile :=
    (hsecond.contents_eq kind file ((hfirst.lookup_eq kind).trans hfile)).trans
      (hfirst.contents_eq kind file hfile)

omit [Externals] in
theorem lookup_createEmpty_self (disk : Disk) (name : GenerationFile) :
    (createEmpty disk name).files.lookup name = some (disk.files.fileOf name) :=
  lookup_create_self disk.files name

omit [Externals] in
theorem untouched_createEmpty (disk : Disk) (name : GenerationFile)
    (hname : name.generation ≠ generation) :
    Untouched generation disk (createEmpty disk name) := by
  have hlookup (kind : FileKind) : (disk.files.create name).lookup ⟨kind, generation⟩ =
      disk.files.lookup ⟨kind, generation⟩ :=
    lookup_create_ne fun hsame ↦ hname (congrArg GenerationFile.generation hsame).symm
  refine ⟨rfl, hlookup, fun kind file hfile ↦ ?_⟩
  have hother : file ≠ disk.files.fileOf name := by
    rintro rfl
    have hsame := lookup_injective ((hlookup kind).trans hfile) (lookup_create_self disk.files name)
    exact hname (congrArg GenerationFile.generation hsame).symm
  exact (contents_write_ne hother []).trans (contents_create hfile name)

omit [Externals] in
theorem untouched_writeFile {disk : Disk} {name : GenerationFile} {file : FileId}
    (hfile : disk.files.lookup name = some file) (hname : name.generation ≠ generation)
    (bytes : Bytes) :
    Untouched generation disk (writeFile disk file bytes) := by
  refine ⟨rfl, fun _ ↦ rfl, fun kind other hother ↦ contents_write_ne ?_ bytes⟩
  rintro rfl
  exact hname (congrArg GenerationFile.generation (lookup_injective hfile hother))

omit [Externals] in
@[simp]
theorem contents_writeFile_self (disk : Disk) (file : FileId) (bytes : Bytes) :
    (writeFile disk file bytes).files.contents file = bytes :=
  contents_write_self _ _ _

variable {disk : Disk} {stored : CodeCollection}

theorem Follows.data_writeLog (hfollows : Follows disk stored)
    (bytes : Bytes) : (writeFile disk stored.rowsFile bytes).files.contents stored.dataFile =
      disk.files.contents stored.dataFile :=
  contents_write_ne (rows_ne_data hfollows.rows hfollows.data) _

theorem Follows.log_writeData (hfollows : Follows disk stored)
    (bytes : Bytes) : (writeFile disk stored.dataFile bytes).files.contents stored.rowsFile =
      disk.files.contents stored.rowsFile :=
  contents_write_ne (rows_ne_data hfollows.rows hfollows.data).symm _

omit [Externals] in
theorem untouched_removeFile (disk : Disk) (name : GenerationFile)
    (hname : name.generation ≠ generation) (fails : Bool) :
    Untouched generation disk (removeFile disk name fails) := by
  refine ⟨rfl, fun kind ↦ ?_, fun _ _ _ ↦ rfl⟩
  have hother : (⟨kind, generation⟩ : GenerationFile) ≠ name := by
    rintro rfl
    exact hname rfl
  simp [removeFile, lookup_retain, hother]

variable {stored : CodeCollection} {disk point : Disk}

/-- A handle stays current while another generation's files change. -/
theorem Current.untouched (hcurrent : Current disk stored)
    (huntouched : Untouched stored.header.generation disk point) :
    Current point stored := by
  have hrows := huntouched.contents_eq _ _ hcurrent.rows
  have hdata := huntouched.contents_eq _ _ hcurrent.data
  refine ⟨⟨⟨?_, hcurrent.format, ?_, ?_, ?_, ?_⟩, ?_⟩, ?_⟩
  · rw [huntouched.header_eq, hcurrent.header_eq]
  · rw [huntouched.lookup_eq, hcurrent.rows]
  · rw [huntouched.lookup_eq, hcurrent.data]
  · rw [hdata]
    exact hcurrent.dataSize_le
  · rw [hdata, hrows]
    exact hcurrent.reflects
  · rw [hrows, hcurrent.logSize_eq]
  · rw [hdata, hcurrent.dataSize_eq]

/-! ### The rows at their new offsets -/

def moveEntries (entries : List Entry) (offsets : List ℕ) : List Entry :=
  List.zipWith (fun entry offset ↦ { entry with dataOffset := offset }) entries offsets

omit [Externals] in
/-- Rows at new offsets have the same contents, and no dead record is left. -/
theorem view_moveRows (memory : Memory) (offsets : List ℕ) :
    view (moveRows memory offsets) =
      { entries := moveEntries (view memory).entries offsets, dead := 0 } := by
  have hzip (rows : List Row) (codes : List Code) :
      List.zipWith (entryOf memory.dictionaries)
          (List.zipWith (fun row offset ↦ { row with dataOffset := offset }) rows offsets) codes =
        moveEntries (List.zipWith (entryOf memory.dictionaries) rows codes) offsets := by
    induction rows generalizing codes offsets with
    | nil => simp [moveEntries]
    | cons _ _ ih =>
      cases codes with
      | nil => simp [moveEntries]
      | cons =>
        cases offsets with
        | nil => simp [moveEntries]
        | cons =>
          simp only [moveEntries, zipWith_cons_cons] at ih ⊢
          rw [ih]
          rfl
  simp [view, moveRows, hzip]

omit [Externals] in
theorem liveRecords_eq (memory : Memory) :
    liveRecords memory = (view memory).entries.map recordOfEntry := by
  rw [liveRecords, view, map_zipWith]
  congr
  funext row code
  exact recordOfRow_eq _ row code

structure MovedTo (old new : Bytes) (record : RowRecord) (offset : ℕ) : Prop where
  inside : offset + record.dataLength ≤ new.length
  blob_eq : readData new offset record.dataLength = readData old record.dataOffset record.dataLength

omit [Externals] in
theorem length_readData {data blob : Bytes} {offset length : ℕ}
    (hread : readData data offset length = some blob) : blob.length = length := by
  unfold readData at hread
  split_ifs at hread with hzero hinside
  · rw [Option.some.injEq] at hread
    rw [← hread, hzero, length_nil]
  · rw [Option.some.injEq] at hread
    rw [← hread, readAt, length_take, length_drop]
    omega

omit [Externals] in
theorem readData_append (before blob after : Bytes) :
    readData (before ++ (blob ++ after)) before.length blob.length = some blob := by
  unfold readData
  split_ifs with hzero hinside
  · rw [length_eq_zero_iff.mp hzero]
  · rw [readAt, drop_left, take_left]
  · simp at hinside

variable {files : CompactedFiles} {read : ℕ → Bool} {data : Bytes} {columns : List ScalarColumn}
  {records : List RowRecord}

/-- The record of each row at its new offset, where the new data file has its data. The induction is
on the rows, and `before` is the data written so far. -/
theorem writeCompacted_spec {position : ℕ} (before : Bytes)
    (hfiles : writeCompacted read columns data records position before.length = .ok files) :
    List.Forall₂ (MovedTo data (before ++ files.data)) records files.offsets ∧ ∃ payloads,
        List.Forall₂ (Encodes columns)
          (List.zipWith (fun record offset ↦ { record with dataOffset := offset })
            records files.offsets) payloads ∧
        files.rows = framesOf frameFormatLengthCRC payloads := by
  induction records generalizing position before files with
  | nil =>
    simp only [writeCompacted, Except.ok.injEq] at hfiles
    subst hfiles
    exact ⟨.nil, [], .nil, rfl⟩
  | cons record records ih =>
    rw [writeCompacted] at hfiles
    by_cases hfails : read position
    · simp [hfails] at hfiles
    rw [if_neg hfails] at hfiles
    cases hblob : readData data record.dataOffset record.dataLength with
    | none => simp [hblob] at hfiles
    | some blob =>
      simp only [hblob] at hfiles
      cases hframe : frameRecords columns frameFormatLengthCRC
        [{ record with dataOffset := before.length }] [] with
      | error failure => simp [hframe] at hfiles
      | ok =>
        simp only [hframe] at hfiles
        have hlength := length_readData hblob
        have hnext : before.length + record.dataLength = (before ++ blob).length := by
          rw [length_append, hlength]
        rw [hnext] at hfiles
        cases hrest : writeCompacted read columns data records (position + 1)
          (before ++ blob).length with
        | error =>
          simp only [hrest] at hfiles
          simp at hfiles
        | ok =>
          simp only [hrest, Except.ok.injEq] at hfiles
          subst hfiles
          obtain ⟨hmoved, payloads, hencoded, hrows⟩ := ih _ hrest
          obtain ⟨first, hfirst, hframed⟩ := frameRecords_eq_ok_iff.mp hframe
          rw [append_assoc] at hmoved
          refine ⟨.cons ⟨?_, ?_⟩ hmoved, first ++ payloads, ?_, ?_⟩
          · simp [hlength]
          · rw [hblob, ← hlength, readData_append]
          · exact rel_append hfirst hencoded
          · simp [hrows, hframed, framesOf_append]

variable {offsets : List ℕ} {entries : List Entry} {old new : Bytes}

omit [Externals] in
theorem mem_moveEntries
    (hoffsets : List.Forall₂ (fun entry offset ↦ MovedTo old new (recordOfEntry entry) offset)
      entries offsets) {moved : Entry} (hmoved : moved ∈ moveEntries entries offsets) :
    ∃ entry ∈ entries, ∃ offset, offset + entry.dataLength ≤ new.length ∧
      moved = { entry with dataOffset := offset } := by
  induction hoffsets with
  | nil => simp [moveEntries] at hmoved
  | @cons entry offset _ _ hhead _ ih =>
    rw [moveEntries, zipWith_cons_cons, mem_cons] at hmoved
    rcases hmoved with rfl | hmoved
    · exact ⟨entry, by simp, offset, hhead.inside, rfl⟩
    · obtain ⟨other, hother, rest⟩ := ih hmoved
      exact ⟨other, by simp [hother], rest⟩

omit [Externals] in
theorem coherent_moveRows {width : ℕ} {memory : Memory} (hmemory : Coherent width memory)
    (hlength : offsets.length = memory.rows.length) :
    Coherent width (moveRows memory offsets) where
  codes_length := by simp [moveRows, hmemory.codes_length, hlength]
  dictionaries_length := hmemory.dictionaries_length
  indexes := by
    have hids : (moveRows memory offsets).rows.map Row.id = memory.rows.map Row.id := by
      refine ext_getElem? fun position ↦ ?_
      simp only [moveRows, map_zipWith, getElem?_zipWith, getElem?_map]
      cases hrow : memory.rows[position]? with
      | none => rfl
      | some row =>
        have hlt := (List.getElem?_eq_some_iff.mp hrow).1
        rw [getElem?_eq_getElem (hlength ▸ hlt)]
        rfl
    rw [hids]
    exact hmemory.indexes
  cells_fit row hrow := by
    obtain ⟨_, hposition⟩ := mem_iff_getElem?.mp hrow
    rw [moveRows, getElem?_zipWith_eq_some] at hposition
    obtain ⟨old, _, hold, _, rfl⟩ := hposition
    exact hmemory.cells_fit old (mem_of_getElem? hold)

/-- The rewritten log and data file stand for the rows in memory, at their new offsets. -/
theorem reflects_compacted {header : CollectionHeader} {dataSize : ℕ} {log : Bytes}
    {memory : Memory} {stop : ℕ} (hreflects : Reflects header dataSize log memory stop)
    (hfiles : writeCompacted read header.columns data (liveRecords memory) 0 0 = .ok files)
    (hsize : files.data.length < 2 ^ 63) :
    Reflects header.compacted files.data.length files.rows (moveRows memory files.offsets)
      files.rows.length := by
  have hcoherent := hreflects.coherent
  obtain ⟨hmoved, _, hencoded, hrows⟩ := writeCompacted_spec [] hfiles
  rw [nil_append, liveRecords_eq, forall₂_map_left_iff] at hmoved
  have hrecords : List.zipWith (fun record offset ↦ { record with dataOffset := offset })
      (liveRecords memory) files.offsets =
      (moveEntries (view memory).entries files.offsets).map recordOfEntry := by
    rw [liveRecords_eq, moveEntries, zipWith_map_left, map_zipWith]
    rfl
  have hentries : (view memory).entries.length = memory.rows.length := by
    simp [view, hcoherent.codes_length]
  have hview := view_moveRows memory files.offsets
  rw [hrows]
  refine @reflects_framesOf _ header.compacted _ _
    (coherent_moveRows hcoherent (hmoved.length_eq.symm.trans hentries)) ?_ ?_ hsize _ ?_
  · rw [hview]
  · rw [hview]
    intro _ hentry
    obtain ⟨old, hold, offset, hinside, rfl⟩ := mem_moveEntries hmoved hentry
    have hvalid := hreflects.entry_valid old hold
    have hoffset : offset < 2 ^ 63 := by omega
    exact ⟨⟨hvalid.id_length, hvalid.path_length, hoffset, hvalid.length_lt, hvalid.cells_length,
      hvalid.cells_match⟩, hinside⟩
  · rwa [hview, ← hrecords]

/-! ### Every outcome of a compaction -/

/-- The errors that compaction returns before it replaces the header. -/
def Failure.precedesHeader : Failure → Bool
  | .syncDirectory => false
  | .removePrevious => false
  | .inspectHeader => false
  | _ => true

/-- A failed rewrite of the rows stops the compaction before it replaces the header. -/
theorem precedesHeader_of_writeCompacted {position offset : ℕ} {failure : Failure}
    (hfailure : writeCompacted read columns data records position offset = .error failure) :
    failure.precedesHeader := by
  induction records generalizing position offset with
  | nil => simp [writeCompacted] at hfailure
  | cons record records ih =>
    rw [writeCompacted] at hfailure
    by_cases hfails : read position
    · rw [if_pos hfails, Except.error.injEq] at hfailure
      rw [← hfailure]
      rfl
    rw [if_neg hfails] at hfailure
    cases hblob : readData data record.dataOffset record.dataLength with
    | none =>
      simp only [hblob, Except.error.injEq] at hfailure
      rw [← hfailure]
      rfl
    | some =>
      simp only [hblob] at hfailure
      cases hframe : frameRecords columns frameFormatLengthCRC
        [{ record with dataOffset := offset }] [] with
      | error =>
        simp only [hframe, Except.error.injEq] at hfailure
        rcases frameRecords_eq_error hframe with rfl | rfl
        · rw [← hfailure]
          rfl
        · rw [← hfailure]
          rfl
      | ok =>
        simp only [hframe] at hfailure
        cases hrest : writeCompacted read columns data records (position + 1)
          (offset + record.dataLength) with
        | error =>
          simp only [hrest, Except.error.injEq] at hfailure
          rw [hfailure] at hrest
          exact ih hrest
        | ok => simp [hrest] at hfailure

/-- The header was not replaced, and at every point the directory keeps the generation. -/
structure Abandoned (disk : Disk) (stored : CodeCollection) (result : Compacted) : Prop where
  failure : ∃ failure, result.failure = some failure ∧ failure.precedesHeader
  stored_eq : result.stored = stored
  last : result.disk ∈ result.trace
  untouched : ∀ point ∈ result.trace, Untouched stored.header.generation disk point

/-- The header was replaced: the handle is the switched one, and is current from then on. -/
structure Switched (faults : CompactFaults) (disk : Disk) (stored : CodeCollection)
    (result : Compacted) : Prop where
  failure : ∀ failure, result.failure = some failure → ¬failure.precedesHeader
  stored_eq : ∃ rowsOut dataOut files,
    writeCompacted faults.read stored.header.columns (disk.files.contents stored.dataFile)
      (liveRecords stored.memory) 0 0 = .ok files ∧
    result.stored = switchHandle faults stored rowsOut dataOut files ∧
    ∀ point ∈ result.trace, Untouched stored.header.generation disk point ∨
      Current point result.stored ∧ point.header = some (stored.header.compacted, faults.info) ∧
        point.files.contents dataOut = files.data
  last : result.disk ∈ result.trace
  header_eq : result.disk.header = some (stored.header.compacted, faults.info)
  current : Current result.disk result.stored

variable (faults : CompactFaults) {trace : List Disk}

omit [Externals] in
/-- An abandoned compaction returns the handle as it was, and the generation is untouched at every
point. -/
theorem abandon_spec {last : Disk} {failure : Failure}
    (hfailure : failure.precedesHeader) (hlast : Untouched stored.header.generation disk last)
    (htrace : ∀ point ∈ trace, Untouched stored.header.generation disk point) :
    Abandoned disk stored (abandon faults trace last stored failure) := by
  have hnext := generation_succ_ne stored.header.generation
  have hrows := hlast.trans
    (untouched_removeFile last ⟨.rows, stored.header.generation + 1⟩ hnext faults.keepRows)
  have hdata := hrows.trans
    (untouched_removeFile _ ⟨.data, stored.header.generation + 1⟩ hnext faults.keepData)
  refine ⟨⟨failure, rfl, hfailure⟩, rfl, by simp [abandon], fun point hpoint ↦ ?_⟩
  simp only [abandon, mem_append, mem_cons, not_mem_nil, or_false] at hpoint
  rcases hpoint with hpoint | rfl | rfl | rfl
  · exact htrace point hpoint
  · exact hlast
  · exact hrows
  · exact hdata

variable {rowsOut dataOut : FileId}

/-- After the header is replaced the compaction can no longer be lost: what follows only removes old
files. -/
theorem finishCompaction_spec {replaced : Disk}
    (hfiles : writeCompacted faults.read stored.header.columns
      (disk.files.contents stored.dataFile) (liveRecords stored.memory) 0 0 = .ok files)
    (hheader : replaced.header = some (stored.header.compacted, faults.info))
    (hbytes : replaced.files.contents dataOut = files.data)
    (hcurrent : Current replaced (switchHandle faults stored rowsOut dataOut files))
    (htrace : ∀ point ∈ trace, Untouched stored.header.generation disk point) :
    Switched faults disk stored (finishCompaction faults trace replaced stored.header.generation
      (switchHandle faults stored rowsOut dataOut files)) := by
  have hprevious := (generation_succ_ne stored.header.generation).symm
  have hrows := @untouched_removeFile (stored.header.generation + 1) replaced
    ⟨.rows, stored.header.generation⟩ hprevious faults.keepRows
  have hdata := hrows.trans
    (untouched_removeFile _ ⟨.data, stored.header.generation⟩ hprevious faults.keepData)
  unfold finishCompaction
  split
  · refine ⟨by simp [Failure.precedesHeader], ⟨rowsOut, dataOut, files, hfiles, rfl, ?_⟩, by simp,
      hheader, hcurrent⟩
    intro point hpoint
    rw [mem_append, mem_singleton] at hpoint
    rcases hpoint with hpoint | rfl
    · exact .inl (htrace point hpoint)
    · exact .inr ⟨hcurrent, hheader, hbytes⟩
  refine ⟨?_, ⟨rowsOut, dataOut, files, hfiles, rfl, ?_⟩, by simp,
    hdata.header_eq.trans hheader, hcurrent.untouched hdata⟩
  · intro _ hfailure
    split_ifs at hfailure <;> simp [← Option.some.inj hfailure, Failure.precedesHeader]
  intro point hpoint
  simp only [mem_append, mem_cons, not_mem_nil, or_false] at hpoint
  rcases hpoint with hpoint | rfl | rfl | rfl
  · exact .inl (htrace point hpoint)
  · exact .inr ⟨hcurrent, hheader, hbytes⟩
  · exact .inr ⟨hcurrent.untouched hrows, hrows.header_eq.trans hheader, hbytes⟩
  · exact .inr ⟨hcurrent.untouched hdata, hdata.header_eq.trans hheader, hbytes⟩

omit [Externals] in
theorem lookup_created (disk : Disk) (generation : Int64) :
    (createEmpty (createEmpty disk ⟨.rows, generation⟩) ⟨.data, generation⟩).files.lookup
        ⟨.rows, generation⟩ = some (disk.files.fileOf ⟨.rows, generation⟩) ∧
      (createEmpty (createEmpty disk ⟨.rows, generation⟩) ⟨.data, generation⟩).files.lookup
        ⟨.data, generation⟩ =
          some ((createEmpty disk ⟨.rows, generation⟩).files.fileOf ⟨.data, generation⟩) := by
  refine ⟨?_, lookup_createEmpty_self _ _⟩
  exact (lookup_create_ne (by simp)).trans (lookup_createEmpty_self _ _)

/-- The handle on the new generation is current as soon as the header names that generation. -/
theorem current_switchHandle {written : Disk} (hcurrent : Current disk stored)
    (faults : CompactFaults)
    (hfiles : writeCompacted faults.read stored.header.columns
      (disk.files.contents stored.dataFile) (liveRecords stored.memory) 0 0 = .ok files)
    (hsize : files.data.length < 2 ^ 63)
    (hrows : written.files.lookup ⟨.rows, stored.header.generation + 1⟩ = some rowsOut)
    (hdata : written.files.lookup ⟨.data, stored.header.generation + 1⟩ = some dataOut)
    (hlog : written.files.contents rowsOut = files.rows)
    (hbytes : written.files.contents dataOut = files.data) :
    Current { written with header := some (stored.header.compacted, faults.info) }
      (switchHandle faults stored rowsOut dataOut files) := by
  refine ⟨⟨⟨rfl, .inr rfl, hrows, hdata, ?_, ?_⟩, ?_⟩, ?_⟩
  · exact le_of_eq (congrArg List.length hbytes).symm
  · show Reflects stored.header.compacted (written.files.contents dataOut).length
      (written.files.contents rowsOut) (moveRows stored.memory files.offsets) files.rows.length
    rw [hbytes, hlog]
    exact reflects_compacted hcurrent.reflects hfiles hsize
  · exact (congrArg List.length hlog).symm
  · exact (congrArg List.length hbytes).symm

/-- Every compaction of a current handle either fails before it replaces the header, or switches the
handle. -/
theorem compact_spec (hcurrent : Current disk stored) (faults : CompactFaults) :
    Abandoned disk stored (compact faults disk stored) ∨
      Switched faults disk stored (compact faults disk stored) := by
  have hnext := generation_succ_ne stored.header.generation
  have hstart := Untouched.refl stored.header.generation disk
  have hrowsCreated :=
    hstart.trans (untouched_createEmpty disk ⟨.rows, stored.header.generation + 1⟩ hnext)
  have hcreated := hrowsCreated.trans (untouched_createEmpty
    (createEmpty disk ⟨.rows, stored.header.generation + 1⟩)
    ⟨.data, stored.header.generation + 1⟩ hnext)
  obtain ⟨hrows, hdata⟩ := lookup_created disk (stored.header.generation + 1)
  unfold compact
  simp only
  generalize hdisk : createEmpty (createEmpty disk ⟨.rows, stored.header.generation + 1⟩)
    ⟨.data, stored.header.generation + 1⟩ = created at hrows hdata hcreated ⊢
  generalize (createEmpty disk ⟨.rows, stored.header.generation + 1⟩).files.fileOf
    ⟨.data, stored.header.generation + 1⟩ = dataOut at hdata ⊢
  generalize disk.files.fileOf ⟨.rows, stored.header.generation + 1⟩ = rowsOut at hrows ⊢
  have hwritten (rowsBytes dataBytes : Bytes) : Untouched stored.header.generation disk
      (writeFile (writeFile created rowsOut rowsBytes) dataOut dataBytes) :=
    (hcreated.trans (untouched_writeFile hrows hnext rowsBytes)).trans
      (@untouched_writeFile _ (writeFile created rowsOut rowsBytes) _ _ hdata hnext dataBytes)
  have hbefore : ∀ point ∈ [disk, createEmpty disk ⟨.rows, stored.header.generation + 1⟩, created],
      Untouched stored.header.generation disk point := by
    simp only [forall_mem_cons, not_mem_nil, false_implies, implies_true, and_true]
    exact ⟨hstart, hrowsCreated, hcreated⟩
  have hwriting : ∀ point ∈
      [disk, createEmpty disk ⟨.rows, stored.header.generation + 1⟩, created] ++
      [writeFile (writeFile created rowsOut faults.partialRows) dataOut faults.partialData],
      Untouched stored.header.generation disk point := by
    rw [forall_mem_append, forall_mem_singleton]
    exact ⟨hbefore, hwritten _ _⟩
  split
  · exact .inl ⟨⟨_, rfl, rfl⟩, rfl, by simp, by simpa using hstart⟩
  split
  · refine .inl ⟨⟨_, rfl, rfl⟩, rfl, by simp, ?_⟩
    simp only [forall_mem_cons, not_mem_nil, false_implies, implies_true, and_true]
    exact ⟨hstart, hrowsCreated, hrowsCreated.trans (untouched_removeFile _ _ hnext _)⟩
  cases hfiles : writeCompacted faults.read stored.header.columns
    (disk.files.contents stored.dataFile) (liveRecords stored.memory) 0 0 with
  | error =>
    exact .inl (abandon_spec faults (precedesHeader_of_writeCompacted hfiles)
      (hwritten _ _) hbefore)
  | ok files =>
    simp only
    by_cases hwrite : faults.write ∨ 2 ^ 63 ≤ files.data.length
    · rw [if_pos hwrite]
      exact .inl (abandon_spec faults rfl (hwritten _ _) hbefore)
    rw [if_neg hwrite]
    rw [not_or, not_le] at hwrite
    split
    · exact .inl (abandon_spec faults rfl (hwritten _ _) hwriting)
    split
    · exact .inl (abandon_spec faults rfl (hwritten _ _) hwriting)
    have hlog : (writeFile (writeFile created rowsOut files.rows) dataOut
        files.data).files.contents rowsOut = files.rows :=
      (contents_write_ne (rows_ne_data hrows hdata).symm _).trans (contents_writeFile_self _ _ _)
    have hbytes := contents_writeFile_self (writeFile created rowsOut files.rows) dataOut files.data
    refine .inr (finishCompaction_spec faults hfiles rfl ?_ ?_ ?_)
    · exact hbytes
    · exact current_switchHandle hcurrent faults hfiles hwrite.2 hrows hdata hlog hbytes
    · rw [forall_mem_append, forall_mem_singleton]
      exact ⟨hwriting, hwritten _ _⟩

/-! ### Reopening after a compaction -/

/-- What a live row shows: all its fields and cells, and the content and metadata that are read
back. -/
structure LiveRow where
  id : Bytes
  code : Code
  relativePath : Bytes
  splitPart : Int32
  splitRecorded : Bool
  cells : List (Option ScalarValue)
  texts : Except Failure (Bytes × Bytes)

def liveRow (data : Bytes) (entry : Entry) : LiveRow :=
  { id := entry.id, code := entry.code, relativePath := entry.relativePath,
    splitPart := entry.splitPart, splitRecorded := entry.splitRecorded, cells := entry.cells,
    texts := readBlob data entry.id entry.dataOffset entry.dataLength }

def liveRows (disk : Disk) (stored : CodeCollection) : List LiveRow :=
  (view stored.memory).entries.map (liveRow (disk.files.contents stored.dataFile))

omit [Externals] in
theorem map_liveRow_moveEntries
    (hoffsets : List.Forall₂ (fun entry offset ↦ MovedTo old new (recordOfEntry entry) offset)
      entries offsets) :
    (moveEntries entries offsets).map (liveRow new) = entries.map (liveRow old) := by
  induction hoffsets with
  | nil => rfl
  | @cons entry offset _ _ hhead _ ih =>
    have hblob : readData new offset entry.dataLength =
        readData old entry.dataOffset entry.dataLength := hhead.blob_eq
    rw [moveEntries, zipWith_cons_cons, map_cons, map_cons, ← moveEntries, ih]
    simp [liveRow, readBlob, hblob]

theorem liveRows_of_current (hcurrent : Current disk stored) (kept : GenerationFile → Bool) :
    ∃ next fresh, loadCollection ⟨.none, kept⟩ disk = (next, .ok fresh) ∧
      fresh.header.columns = stored.header.columns ∧
      liveRows next fresh = liveRows disk stored := by
  obtain ⟨next, fresh, hload, hcontents, hheader, _, hdata, hview⟩ :=
    load_of_upToDate hcurrent.toUpToDate kept
  exact ⟨next, fresh, hload, by rw [hheader], by rw [liveRows, hview, hcontents, hdata, liveRows]⟩

/-- The switched handle shows the live rows from before. Assumes: the new data file holds what
compaction wrote. -/
theorem liveRows_switchHandle (rowsOut : FileId)
    (hfiles : writeCompacted faults.read stored.header.columns
      (disk.files.contents stored.dataFile) (liveRecords stored.memory) 0 0 = .ok files)
    (hbytes : point.files.contents dataOut = files.data) :
    liveRows point (switchHandle faults stored rowsOut dataOut files) = liveRows disk stored := by
  obtain ⟨hmoved, _⟩ := writeCompacted_spec [] hfiles
  rw [nil_append, liveRecords_eq, forall₂_map_left_iff] at hmoved
  show (view (moveRows stored.memory files.offsets)).entries.map
    (liveRow (point.files.contents dataOut)) = _
  rw [view_moveRows, hbytes, map_liveRow_moveEntries hmoved, liveRows]

/-- At every point of a compaction, reopening the directory gives the columns and the live rows from
before, with their cells, content and metadata. An error before the header is replaced leaves the
handle, the header and the files of the current generation as they were. Assumes: the handle is
current, as `write` leaves it. -/
theorem reopen_after_compaction {disk : Disk} {stored : CodeCollection}
    (hcurrent : Current disk stored) (faults : CompactFaults) :
    (∀ point ∈ (compact faults disk stored).trace, ∀ kept,
        ∃ next fresh, loadCollection ⟨.none, kept⟩ point = (next, .ok fresh) ∧
          fresh.header.columns = stored.header.columns ∧
          liveRows next fresh = liveRows disk stored) ∧
      (compact faults disk stored).disk ∈ (compact faults disk stored).trace ∧
      ∀ failure, (compact faults disk stored).failure = some failure → failure.precedesHeader →
        (compact faults disk stored).stored = stored ∧
          Untouched stored.header.generation disk (compact faults disk stored).disk := by
  have huntouched {point : Disk} (hpoint : Untouched stored.header.generation disk point)
      (kept : GenerationFile → Bool) : ∃ next fresh,
      loadCollection ⟨.none, kept⟩ point = (next, .ok fresh) ∧
        fresh.header.columns = stored.header.columns ∧
        liveRows next fresh = liveRows disk stored := by
    obtain ⟨next, fresh, hload, hcolumns, hrows⟩ :=
      liveRows_of_current (hcurrent.untouched hpoint) kept
    have hsame := hpoint.contents_eq _ _ hcurrent.data
    exact ⟨next, fresh, hload, hcolumns, by rw [hrows, liveRows, hsame, liveRows]⟩
  rcases compact_spec hcurrent faults with habandoned | hswitched
  · refine ⟨fun point hpoint ↦ huntouched (habandoned.untouched point hpoint), habandoned.last,
      fun failure _ _ ↦ ⟨habandoned.stored_eq, habandoned.untouched _ habandoned.last⟩⟩
  obtain ⟨rowsOut, _, _, hfiles, hstored, hpoints⟩ := hswitched.stored_eq
  refine ⟨fun point hpoint ↦ ?_, hswitched.last, fun failure hfailure hprecedes ↦
    absurd hprecedes (hswitched.failure failure hfailure)⟩
  rcases hpoints point hpoint with hpoint | ⟨hpoint, _, hbytes⟩
  · exact huntouched hpoint
  intro kept
  obtain ⟨next, fresh, hload, hcolumns, hrows⟩ := liveRows_of_current hpoint kept
  refine ⟨next, fresh, hload, ?_, ?_⟩
  · rw [hcolumns, hstored]
    rfl
  · rw [hrows, hstored, liveRows_switchHandle faults rowsOut hfiles hbytes]

end

/-- A compaction whose last step fails: the header is replaced, the previous data file stays. -/
@[reducible] def sampleCompactFaults : CompactFaults :=
  { createRows := false, createData := false, read := fun _ ↦ false, write := false, stat := false
    header := false, identity := false, directory := false, keepRows := false, keepData := true
    partialRows := [1], partialData := [], info := ⟨8, 2⟩ }

theorem reopen_after_compaction_sample :
    (@compact sampleExternals sampleCompactFaults sampleDisk sampleStored).failure =
      some .removePrevious ∧
      ∀ point ∈ (@compact sampleExternals sampleCompactFaults sampleDisk sampleStored).trace,
        ∀ kept, ∃ next fresh, @loadCollection sampleExternals ⟨.none, kept⟩ point =
          (next, .ok fresh) ∧ fresh.header.columns = sampleStored.header.columns ∧
          liveRows next fresh = liveRows sampleDisk sampleStored :=
  ⟨by decide, (@reopen_after_compaction sampleExternals _ _ current_sampleStored
    sampleCompactFaults).1⟩

end Clyde.CodeStore
