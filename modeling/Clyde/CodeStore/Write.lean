import Clyde.CodeStore.Coherence

/-!
# Writing records

`codestore/collection.go`, `write`: the data of new rows is written and synced first, then the
records are appended to the row log, and then they are carried out in memory. A write can end in a
compaction.

`write_spec` says in which of three ways a write ends (`WriteEnd`).

Scope. What fails, and how many bytes a failed write leaves, is in `WriteFaults`. A write past the
largest file offset fails. The batch is the source's two parallel slices as one list.
-/

set_option autoImplicit false

namespace Clyde.CodeStore

open Foundation ByteCodec List

/-! ### The code -/

/-- One record of a write, with the row's new data. Without new data the record keeps its range. -/
structure BatchItem where
  record : RowRecord
  blob : Option Bytes

/-- What fails during a write. A failed write of a file leaves its first bytes. -/
structure WriteFaults where
  data : Option ℕ
  dataSync : Bool
  seek : Bool
  rows : Option ℕ
  rowsSync : Bool
  truncate : Bool
  compact : CompactFaults

def RowRecord.placeAt (record : RowRecord) (offset length : ℕ) : RowRecord :=
  { record with dataOffset := offset, dataLength := length }

def placeBlobs : ℕ → List BatchItem → List RowRecord × Bytes
  | _, [] => ([], [])
  | offset, item :: rest =>
    match item.record.kind, item.blob with
    | .upsert, some blob =>
      let (records, buffer) := placeBlobs (offset + blob.length) rest
      (item.record.placeAt offset blob.length :: records, blob ++ buffer)
    | _, _ =>
      let (records, buffer) := placeBlobs offset rest
      (item.record :: records, buffer)

/-- Writes bytes at an offset of a file. A gap before the offset is filled with zeros. -/
def writeAt (file : Bytes) (offset : ℕ) (bytes : Bytes) : Bytes :=
  file.take offset ++ List.replicate (offset - file.length) 0 ++ bytes ++
    file.drop (offset + bytes.length)

theorem writeAt_length (file bytes : Bytes) : writeAt file file.length bytes = file ++ bytes := by
  simp [writeAt]

def writeData (faults : WriteFaults) (disk : Disk) (stored : CodeCollection) (buffer : Bytes) :
    HandleResult :=
  if buffer = [] then { disk := disk, stored := stored, failure := none }
  else
    let data := disk.files.contents stored.dataFile
    match faults.data with
    | some count =>
      { disk := writeFile disk stored.dataFile (writeAt data stored.dataSize (buffer.take count))
        stored := stored, failure := some .writeData }
    | none =>
      if 2 ^ 63 ≤ stored.dataSize + buffer.length then
        { disk := disk, stored := stored, failure := some .writeData }
      else
        let written := writeFile disk stored.dataFile (writeAt data stored.dataSize buffer)
        if faults.dataSync then
          { disk := written, stored := stored, failure := some .syncData }
        else
          { disk := written
            stored := { stored with dataSize := stored.dataSize + buffer.length }
            failure := none }

variable [Externals]

/-- A row log append that failed after some bytes. The log is cut at its old end, unless that fails
too. -/
def appendFailed (faults : WriteFaults) (disk : Disk) (stored : CodeCollection) (torn : Bytes) :
    HandleResult :=
  let log := disk.files.contents stored.rowsFile
  { disk := writeFile disk stored.rowsFile (if faults.truncate then log ++ torn else log)
    stored := stored, failure := some .appendRowLog }

/-- The number of dead records that a log holds at least when it is compacted. -/
def compactMinimumDead : ℕ := 10000

/-- Compacts a log with more dead records than rows. The error of the compaction is dropped. -/
def compactIfDead (faults : CompactFaults) (disk : Disk) (stored : CodeCollection) : HandleResult :=
  if compactMinimumDead < stored.memory.dead ∧ stored.memory.rows.length < stored.memory.dead then
    let result := compact faults disk stored
    { disk := result.disk, stored := result.stored, failure := none }
  else { disk := disk, stored := stored, failure := none }

def appendRows (faults : WriteFaults) (disk : Disk) (stored : CodeCollection) (buffer : Bytes)
    (records : List RowRecord) : HandleResult :=
  let log := disk.files.contents stored.rowsFile
  if faults.seek then { disk := disk, stored := stored, failure := some .seekRowLog }
  else
    match faults.rows with
    | some count => appendFailed faults disk stored (buffer.take count)
    | none =>
      if faults.rowsSync then appendFailed faults disk stored buffer
      else
        let written := writeFile disk stored.rowsFile (log ++ buffer)
        match applyAll stored.width stored.memory records with
        | (memory, failure) =>
          let next :=
            { stored with memory := memory, logSize := log.length + buffer.length }
          match failure with
          | some failure => { disk := written, stored := next, failure := some failure }
          | none => compactIfDead faults.compact written next

def write (faults : WriteFaults) (disk : Disk) (stored : CodeCollection) (batch : List BatchItem) :
    HandleResult :=
  let placed := placeBlobs stored.dataSize batch
  match frameRecords stored.header.columns stored.header.frameFormat placed.1 [] with
  | .error failure => { disk := disk, stored := stored, failure := some failure }
  | .ok rowBuffer =>
    let result := writeData faults disk stored placed.2
    match result.failure with
    | some _ => result
    | none => appendRows faults result.disk result.stored rowBuffer placed.1

/-! ### Refused records -/

omit [Externals] in
/-- On declared columns interning fails only for a full column. -/
theorem internCells_eq_error {cells : List StoredCell} {dictionaries : List Dictionary}
    {ids : List ℕ} (hcolumns : ∀ cell ∈ cells, cell.column < dictionaries.length)
    {failure : Failure} (hfailure : (internCells cells dictionaries ids).2 = .error failure) :
    ∃ column, failure = .internColumn column := by
  induction cells generalizing dictionaries ids with
  | nil => simp [internCells] at hfailure
  | cons cell _ ih =>
    have hlt := hcolumns cell (by simp)
    have hdictionary := getElem?_eq_getElem hlt
    cases hintern : dictionaries[cell.column].intern cell.value with
    | none =>
      simp only [internCells, hdictionary, hintern, Except.error.injEq] at hfailure
      exact ⟨cell.column, hfailure.symm⟩
    | some =>
      simp only [internCells, hdictionary, hintern] at hfailure
      exact ih (by simpa using fun other hother ↦ hcolumns other (by simp [hother])) hfailure

omit [Externals] in
/-- On declared columns a record is refused only for a full column. -/
theorem applyAll_eq_some {width : ℕ} {memory : Memory} (hmemory : Coherent width memory)
    {records : List RowRecord}
    (hcolumns : ∀ record ∈ records, ∀ cell ∈ record.cells, cell.column < width)
    {failure : Failure} (hfailure : (applyAll width memory records).2 = some failure) :
    ∃ column, failure = .internColumn column := by
  induction records generalizing memory with
  | nil => simp [applyAll] at hfailure
  | cons record _ ih =>
    rw [applyAll] at hfailure
    have happly := apply_spec hmemory record
    cases hkind : record.kind with
    | delete =>
      obtain ⟨hnone, hnext⟩ := applied_delete hmemory hkind
      generalize apply width memory record = applied at hfailure hnone hnext
      obtain ⟨next, outcome⟩ := applied
      obtain rfl : outcome = none := hnone
      exact ih hnext.coherent (fun other hother ↦ hcolumns other (by simp [hother])) hfailure
    | upsert =>
      cases hintern : internCells record.cells memory.dictionaries (List.replicate width 0) with
      | mk _ outcome =>
        cases outcome with
        | error =>
          simp only [apply, hkind, hintern, Option.some.injEq] at hfailure
          refine hfailure ▸ internCells_eq_error ?_ (congrArg Prod.snd hintern)
          rw [hmemory.dictionaries_length]
          exact hcolumns record (by simp)
        | ok =>
          have hnone : (apply width memory record).2 = none := by simp [apply, hkind, hintern]
          obtain ⟨_, hnext⟩ | ⟨hsome, _⟩ := happly
          · generalize apply width memory record = applied at hfailure hnone hnext
            obtain ⟨_, outcome⟩ := applied
            obtain rfl : outcome = none := hnone
            exact ih hnext.coherent (fun other hother ↦ hcolumns other (by simp [hother])) hfailure
          · exact absurd hnone hsome

/-! ### What a batch writes -/

/-- A delete record holds only its id, an upsert has values that fit distinct declared columns, and
a record without new data keeps a range inside the data file. -/
structure BatchItem.Writable (item : BatchItem) (columns : List ScalarColumn) (dataSize : ℕ) :
    Prop where
  delete_eq : item.record.kind = .delete → item.record = emptyRecord .delete item.record.id
  cells_fit : ∀ cell ∈ item.record.cells, ∃ column, columns[cell.column]? = some column ∧
    cell.value.Fits column.type
  cells_nodup : (item.record.cells.map StoredCell.column).Nodup
  blob_ne : item.blob ≠ some []
  range : item.record.kind = .delete ∨ item.blob = none →
    item.record.dataOffset < 2 ^ 63 ∧ item.record.dataLength < 2 ^ 63 ∧
      (item.record.kind = .upsert → item.record.dataEnd ≤ dataSize)

omit [Externals] in
theorem placeBlobs_keep {item : BatchItem} (hkeep : item.record.kind = .delete ∨ item.blob = none)
    (offset : ℕ) (rest : List BatchItem) :
    placeBlobs offset (item :: rest) =
      (item.record :: (placeBlobs offset rest).1, (placeBlobs offset rest).2) := by
  rcases hkeep with hkind | hblob
  · simp [placeBlobs, hkind]
  · cases hkind : item.record.kind <;> simp [placeBlobs, hkind, hblob]

omit [Externals] in
theorem placeBlobs_blob {item : BatchItem} {blob : Bytes} (hkind : item.record.kind = .upsert)
    (hblob : item.blob = some blob) (offset : ℕ) (rest : List BatchItem) :
    placeBlobs offset (item :: rest) =
      (item.record.placeAt offset blob.length :: (placeBlobs (offset + blob.length) rest).1,
        blob ++ (placeBlobs (offset + blob.length) rest).2) := by
  simp [placeBlobs, hkind, hblob]

variable {batch : List BatchItem}

omit [Externals] in
/-- A placed record is an item's own, or has the place of its blob in the buffer. -/
theorem mem_placeBlobs {offset : ℕ} {record : RowRecord}
    (hrecord : record ∈ (placeBlobs offset batch).1) :
    ∃ item ∈ batch, ((item.record.kind = .delete ∨ item.blob = none) ∧ record = item.record) ∨
      ∃ blob start, item.record.kind = .upsert ∧ item.blob = some blob ∧
        record = item.record.placeAt start blob.length ∧ offset ≤ start ∧
        start + blob.length ≤ offset + (placeBlobs offset batch).2.length := by
  induction batch generalizing offset with
  | nil => simp [placeBlobs] at hrecord
  | cons item _ ih =>
    by_cases hkeep : item.record.kind = .delete ∨ item.blob = none
    · rw [placeBlobs_keep hkeep] at hrecord ⊢
      rcases mem_cons.mp hrecord with rfl | hrecord
      · exact ⟨item, by simp, .inl ⟨hkeep, rfl⟩⟩
      · obtain ⟨other, hother, hplaced⟩ := ih hrecord
        exact ⟨other, by simp [hother], hplaced⟩
    obtain ⟨hkind, hsome⟩ := not_or.mp hkeep
    obtain ⟨blob, hblob⟩ := Option.ne_none_iff_exists'.mp hsome
    replace hkind : item.record.kind = .upsert := by
      cases hfound : item.record.kind with
      | upsert => rfl
      | delete => exact absurd hfound hkind
    rw [placeBlobs_blob hkind hblob] at hrecord ⊢
    rw [length_append]
    rcases mem_cons.mp hrecord with rfl | hrecord
    · exact ⟨item, by simp, .inr ⟨blob, offset, hkind, hblob, rfl, le_rfl, by omega⟩⟩
    obtain ⟨other, hother, hplaced⟩ := ih hrecord
    refine ⟨other, by simp [hother], hplaced.imp id ?_⟩
    rintro ⟨found, start, hupsert, hfound, hsame, _⟩
    exact ⟨found, start, hupsert, hfound, hsame, by omega, by omega⟩

variable {payloads : List Bytes}

omit [Externals] in
/-- The placed records of a writable batch are well formed, with their data inside the grown file.
-/
theorem wellFormed_placeBlobs {columns : List ScalarColumn} {dataSize : ℕ}
    (hbatch : ∀ item ∈ batch, item.Writable columns dataSize)
    (hsize : (placeBlobs dataSize batch).2 = [] ∨
      dataSize + (placeBlobs dataSize batch).2.length < 2 ^ 63)
    (hencoded : List.Forall₂ (Encodes columns) (placeBlobs dataSize batch).1 payloads) :
    ∀ record ∈ (placeBlobs dataSize batch).1, record.WellFormed columns ∧ (record.kind = .upsert →
        record.dataEnd ≤ (dataSize + (placeBlobs dataSize batch).2.length : ℕ)) := by
  intro record hrecord
  obtain ⟨payload, hencode, _⟩ := encodes_of_mem hencoded record hrecord
  have hwell := @wellFormed_of_encodeRecord columns record payload hencode (by omega)
  obtain ⟨item, hitem, hplaced⟩ := mem_placeBlobs hrecord
  have hwritable := hbatch item hitem
  rcases hplaced with ⟨hkeep, rfl⟩ | ⟨blob, start, hkind, hblob, rfl, _, hinside⟩
  · obtain ⟨hoffset, hdata, hend⟩ := hwritable.range hkeep
    refine ⟨hwell hwritable.delete_eq hwritable.cells_fit hwritable.cells_nodup hoffset hdata,
      fun hupsert ↦ (hend hupsert).trans ?_⟩
    exact_mod_cast Nat.le_add_right _ _
  have hne : blob ≠ [] := fun hempty ↦ hwritable.blob_ne (hempty ▸ hblob)
  have hpos := length_pos_of_ne_nil hne
  have hlt : dataSize + (placeBlobs dataSize batch).2.length < 2 ^ 63 := by
    rcases hsize with hempty | hlt
    · rw [hempty, length_nil] at hinside
      omega
    · exact hlt
  refine ⟨hwell ?_ hwritable.cells_fit hwritable.cells_nodup ?_ ?_, fun _ ↦ ?_⟩
  · intro hdelete
    exact absurd (hdelete.symm.trans hkind) (by decide)
  · show start < 2 ^ 63
    omega
  · show blob.length < 2 ^ 63
    omega
  · exact dataEnd_of_le hinside hlt

/-! ### Every outcome of a write -/

variable {records : List RowRecord}

theorem Reflects.append_frames {header : CollectionHeader} {dataSize nextSize : ℕ} {log : Bytes}
    {memory next : Memory} (hreflects : Reflects header dataSize log memory log.length)
    (hsize : dataSize ≤ nextSize)
    (hholds : List.Forall₂ (Holds (header.reading nextSize)) payloads records)
    (happlied : Applied header.columns.length memory next records records) :
    Reflects header nextSize (log ++ framesOf header.frameFormat payloads) next
      (log.length + (framesOf header.frameFormat payloads).length) := by
  have hkept :=
    hreflects.keeps (keepsChains_append header hsize log (framesOf header.frameFormat payloads))
  have haccepted := accepted_framesOf hholds log []
  rw [append_nil] at haccepted
  exact hkept.applied haccepted happlied

variable {stored : CodeCollection} {disk : Disk}

/-- A failed write of the blobs keeps the directory, and a successful one appends them. -/
theorem writeData_spec (hcurrent : Current disk stored) (faults : WriteFaults) (buffer : Bytes) :
    (∃ next failure, writeData faults disk stored buffer =
        { disk := next, stored := stored, failure := some failure } ∧ Keeps disk next) ∨
      ∃ next, writeData faults disk stored buffer =
          { disk := next, stored := { stored with dataSize := stored.dataSize + buffer.length }
            failure := none } ∧
        Keeps disk next ∧ (buffer = [] ∨ stored.dataSize + buffer.length < 2 ^ 63) ∧
        Current next { stored with dataSize := stored.dataSize + buffer.length } ∧
        next.files.contents stored.dataFile = disk.files.contents stored.dataFile ++ buffer := by
  obtain ⟨_, hheader⟩ := hcurrent.exists_header
  have hkeeps (bytes : Bytes) : Keeps disk (writeFile disk stored.dataFile
      (writeAt (disk.files.contents stored.dataFile) stored.dataSize bytes)) := by
    rw [hcurrent.dataSize_eq, writeAt_length]
    exact keeps_writeData hheader hcurrent.rows hcurrent.data bytes
  unfold writeData
  by_cases hempty : buffer = []
  · subst hempty
    exact .inr ⟨disk, rfl, Keeps.refl disk, .inl rfl, hcurrent, by simp⟩
  rw [if_neg hempty]
  cases faults.data with
  | some => exact .inl ⟨_, _, rfl, hkeeps _⟩
  | none =>
    simp only
    by_cases hlarge : 2 ^ 63 ≤ stored.dataSize + buffer.length
    · rw [if_pos hlarge]
      exact .inl ⟨_, _, rfl, Keeps.refl disk⟩
    rw [if_neg hlarge]
    split
    · exact .inl ⟨_, _, rfl, hkeeps _⟩
    have hbytes : (writeFile disk stored.dataFile (writeAt (disk.files.contents stored.dataFile)
        stored.dataSize buffer)).files.contents stored.dataFile =
        disk.files.contents stored.dataFile ++ buffer := by
      rw [hcurrent.dataSize_eq, writeAt_length, contents_writeFile_self]
    have hfollows := hcurrent.toFollows.keeps (hkeeps buffer)
    refine .inr ⟨_, rfl, hkeeps buffer, .inr (not_le.mp hlarge), ⟨⟨⟨hfollows.header_eq,
      hfollows.format, hfollows.rows, hfollows.data, ?_, hfollows.reflects⟩, ?_⟩, ?_⟩, hbytes⟩
    · rw [hbytes, length_append, ← hcurrent.dataSize_eq]
    · rw [hcurrent.log_writeData]
      exact hcurrent.logSize_eq
    · rw [hbytes, length_append, ← hcurrent.dataSize_eq]

/-- The rows in memory are left, a column is full after the records are in the log, or the handle is
current before a compaction. -/
inductive WriteEnd (faults : WriteFaults) (disk : Disk) (stored : CodeCollection)
    (batch : List BatchItem) : HandleResult → Prop
  | failed {next : Disk} {dataSize : ℕ} {failure : Failure} (hkeeps : Keeps disk next)
    (hfollows : Follows next { stored with dataSize := dataSize }) :
    WriteEnd faults disk stored batch
      { disk := next, stored := { stored with dataSize := dataSize }, failure := some failure }
  | refused {next : Disk} {left : CodeCollection} {column : ℕ} (hkeeps : Keeps disk next) :
    WriteEnd faults disk stored batch
      { disk := next, stored := left, failure := some (.internColumn column) }
  | committed {written : Disk} {memory : Memory} {dataSize logSize : ℕ}
    (hkeeps : Keeps disk written)
    (hcurrent : Current written
      { stored with memory := memory, dataSize := dataSize, logSize := logSize })
    (happlied : Applied stored.width stored.memory memory (placeBlobs stored.dataSize batch).1
      (placeBlobs stored.dataSize batch).1)
    (hdata : written.files.contents stored.dataFile =
      disk.files.contents stored.dataFile ++ (placeBlobs stored.dataSize batch).2) :
    WriteEnd faults disk stored batch (compactIfDead faults.compact written
      { stored with memory := memory, dataSize := dataSize, logSize := logSize })

variable (hcurrent : Current disk stored)
include hcurrent

theorem keeps_appendLog (more : Bytes) : Keeps disk
      (writeFile disk stored.rowsFile (disk.files.contents stored.rowsFile ++ more)) := by
  obtain ⟨_, hheader⟩ := hcurrent.exists_header
  exact keeps_writeLog hheader hcurrent.rows hcurrent.data (keepsChains_append _ le_rfl _ more)

theorem keeps_appendFailed (faults : WriteFaults) (torn : Bytes) :
    Keeps disk (appendFailed faults disk stored torn).disk := by
  have hkeeps := keeps_appendLog hcurrent (if faults.truncate then torn else [])
  unfold appendFailed
  by_cases htruncate : faults.truncate
  · simpa [htruncate] using hkeeps
  · simpa [htruncate] using hkeeps

/-- A handle that applied the records it appended is current. -/
theorem current_appendRows
    (hencoded : List.Forall₂ (Encodes stored.header.columns) records payloads)
    (hrecords : ∀ record ∈ records, record.WellFormed stored.header.columns ∧
      (record.kind = .upsert → record.dataEnd ≤ stored.dataSize)) {memory : Memory}
    (happlied : Applied stored.width stored.memory memory records records) :
    Current (writeFile disk stored.rowsFile (disk.files.contents stored.rowsFile ++
        framesOf stored.header.frameFormat payloads))
      { stored with
        memory := memory
        logSize := (disk.files.contents stored.rowsFile).length +
          (framesOf stored.header.frameFormat payloads).length } := by
  have hkeeps := keeps_appendLog hcurrent (framesOf stored.header.frameFormat payloads)
  have hfollows := hcurrent.toFollows.keeps hkeeps
  have hholds : List.Forall₂ (Holds (stored.header.reading stored.dataSize)) payloads records :=
    holds_of_encodes stored.header.columns_length hencoded hrecords
  have hreflects := hcurrent.reflects
  rw [hcurrent.logSize_eq, ← hcurrent.dataSize_eq] at hreflects
  refine ⟨⟨⟨hfollows.header_eq, hfollows.format, hfollows.rows, hfollows.data,
    hfollows.dataSize_le, ?_⟩, ?_⟩, ?_⟩
  · rw [hcurrent.data_writeLog, contents_writeFile_self, ← hcurrent.dataSize_eq]
    exact hreflects.append_frames le_rfl hholds happlied
  · rw [contents_writeFile_self, length_append]
  · rw [hcurrent.data_writeLog]
    exact hcurrent.dataSize_eq

/-- Every write of a current handle ends in one of the ways of `WriteEnd`. Assumes: the items are
writable. -/
theorem write_spec (hbatch : ∀ item ∈ batch, item.Writable stored.header.columns stored.dataSize)
    (faults : WriteFaults) :
    WriteEnd faults disk stored batch (write faults disk stored batch) := by
  unfold write
  simp only
  cases hframed : frameRecords stored.header.columns stored.header.frameFormat
    (placeBlobs stored.dataSize batch).1 [] with
  | error failure =>
    exact @WriteEnd.failed _ faults disk stored batch disk _ failure (Keeps.refl disk)
      hcurrent.toFollows
  | ok =>
    obtain ⟨payloads, hencoded, rfl⟩ := frameRecords_eq_ok_iff.mp hframed
    rcases writeData_spec hcurrent faults (placeBlobs stored.dataSize batch).2 with
      ⟨next, failure, hwrite, hkeeps⟩ | ⟨next, hwrite, hkeeps, hsize, hmiddle, hbytes⟩
    · simp only [hwrite]
      exact @WriteEnd.failed _ faults disk stored batch next _ failure hkeeps
        (hcurrent.toFollows.keeps hkeeps)
    simp only [hwrite]
    have hrecords := wellFormed_placeBlobs hbatch hsize hencoded
    have htorn (torn : Bytes) : WriteEnd faults disk stored batch (appendFailed faults next
        { stored with dataSize := stored.dataSize + (placeBlobs _ batch).2.length }
        torn) :=
      .failed (hkeeps.trans (keeps_appendFailed hmiddle faults torn))
        (hmiddle.toFollows.keeps (keeps_appendFailed hmiddle faults torn))
    unfold appendRows
    split
    · exact .failed hkeeps hmiddle.toFollows
    cases faults.rows with
    | some => exact htorn _
    | none =>
      by_cases hsync : faults.rowsSync
      · simp only [if_pos hsync]
        exact htorn _
      simp only [if_neg hsync]
      have happended :=
        hkeeps.trans (keeps_appendLog hmiddle (framesOf stored.header.frameFormat payloads))
      obtain ⟨_, happlied, hcarried⟩ := applyAll_spec hcurrent.reflects.coherent
        (placeBlobs _ batch).1
      have hfull := @applyAll_eq_some _ _ hcurrent.reflects.coherent
        (placeBlobs _ batch).1 fun record hrecord cell hcell ↦ by
          obtain ⟨column, hcolumn, _⟩ := (hrecords record hrecord).1.cells_match cell hcell
          exact (List.getElem?_eq_some_iff.mp hcolumn).1
      simp only [CodeCollection.width]
      generalize applyAll _ _ _ = outcome at happlied hcarried hfull
      obtain ⟨_, failure⟩ := outcome
      cases failure with
      | some =>
        obtain ⟨_, rfl⟩ := hfull rfl
        exact .refused happended
      | none =>
        rw [hcarried.mp rfl] at happlied
        have hnext := current_appendRows hmiddle hencoded hrecords happlied
        refine .committed happended hnext happlied ?_
        exact (hmiddle.data_writeLog _).trans hbytes

end Clyde.CodeStore
