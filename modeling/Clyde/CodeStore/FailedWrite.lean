import Clyde.CodeStore.Write

/-!
# Writes that fail

`codestore/collection.go`, `write`: a record that cannot be encoded or framed, new data that cannot
be written or synced, and a row log that cannot be sought, written or synced, after any number of
bytes.

`WriteUndone` is what is left of a failed call: an error, the rows and the log size in memory, the
bytes of the row log, and the content of every row that could be read, in memory and after the
collection is loaded again. Only the data file may be longer.

Scope. A handle is current after `syncWithDisk`, which runs under the lock before every write.
-/

set_option autoImplicit false

namespace Clyde.CodeStore

open Foundation ByteCodec

/-- A blob that could be read is read the same from a longer file. -/
theorem readBlob_of_isPrefix {data grown : Bytes} (hgrown : data <+: grown)
    {id : Bytes} {offset length : ℕ}
    {texts : Bytes × Bytes} (hread : readBlob data id offset length = .ok texts) :
    readBlob grown id offset length = .ok texts := by
  have hsame : ∀ blob, readData data offset length = some blob →
      readData grown offset length = some blob := by
    intro blob hblob
    obtain ⟨_, rfl⟩ := hgrown
    unfold readData at hblob ⊢
    split_ifs at hblob with hzero hinside
    · rwa [if_pos hzero]
    · rw [if_neg hzero, if_pos (by rw [List.length_append]; omega), ← hblob, readAt, readAt,
        List.drop_append_of_le_length (by omega),
        List.take_append_of_le_length (by rw [List.length_drop]; omega)]
  unfold readBlob at hread ⊢
  cases hblob : readData data offset length with
  | none => simp [hblob] at hread
  | some blob =>
    rw [hblob] at hread
    rwa [hsame blob hblob]

section

variable [Externals]

def WriteFails (faults : WriteFaults) (stored : CodeCollection) (batch : List BatchItem) : Prop :=
  (∃ failure, frameRecords stored.header.columns stored.header.frameFormat
      (placeBlobs stored.dataSize batch).1 [] = .error failure) ∨
    ((placeBlobs stored.dataSize batch).2 ≠ [] ∧
      (faults.data ≠ none ∨ 2 ^ 63 ≤ stored.dataSize + (placeBlobs stored.dataSize batch).2.length ∨
        faults.dataSync = true)) ∨
    faults.seek = true ∨ faults.rows ≠ none ∨ faults.rowsSync = true

/-- The rows of one handle read the same texts as the rows of another, where these can be read. -/
def ReadsSame (disk : Disk) (stored : CodeCollection) (next : Disk) (after : CodeCollection) :
    Prop :=
  view after.memory = view stored.memory ∧ ∀ entry ∈ (view stored.memory).entries, ∀ texts,
      readBlob (disk.files.contents stored.dataFile) entry.id entry.dataOffset entry.dataLength =
        .ok texts →
      readBlob (next.files.contents after.dataFile) entry.id entry.dataOffset entry.dataLength =
        .ok texts

/-- The memory, the log and the content of the rows are as before, also for a handle that loads
again. -/
structure WriteUndone (disk : Disk) (stored : CodeCollection) (result : HandleResult) : Prop where
  failed : result.failure ≠ none
  memory_eq : result.stored.memory = stored.memory
  logSize_eq : result.stored.logSize = stored.logSize
  log_eq : result.disk.files.contents stored.rowsFile = disk.files.contents stored.rowsFile
  rows : ReadsSame disk stored result.disk result.stored
  reloaded : ∀ kept, ∃ next fresh, loadCollection ⟨.none, kept⟩ result.disk = (next, .ok fresh) ∧
    ReadsSame disk stored next fresh

variable {stored : CodeCollection}

/-- A failure undoes the write when the row log is as it was and the rest of the directory is kept.
-/
theorem undone_of_keeps {disk next : Disk} (hcurrent : Current disk stored)
    (hkeeps : Keeps disk next)
    (hlog : next.files.contents stored.rowsFile = disk.files.contents stored.rowsFile)
    {dataSize : ℕ} (hsize : dataSize ≤ (next.files.contents stored.dataFile).length)
    (failure : Failure) :
    WriteUndone disk stored
      { disk := next, stored := { stored with dataSize := dataSize },
        failure := some failure } := by
  obtain ⟨_, hheader⟩ := hcurrent.exists_header
  obtain ⟨_, _, hgrown, _⟩ := hkeeps.files hheader hcurrent.rows hcurrent.data
  have hfollows := hcurrent.toFollows.keeps hkeeps
  have hupToDate : UpToDate next { stored with dataSize := dataSize } :=
    ⟨⟨hfollows.header_eq, hfollows.format, hfollows.rows, hfollows.data, hsize, hfollows.reflects⟩,
      by rw [hlog]; exact hcurrent.logSize_eq⟩
  have hread : ∀ entry ∈ (view stored.memory).entries, ∀ texts,
      readBlob (disk.files.contents stored.dataFile) entry.id entry.dataOffset entry.dataLength =
        .ok texts →
      readBlob (next.files.contents stored.dataFile) entry.id entry.dataOffset entry.dataLength =
        .ok texts :=
    fun _ _ _ htexts ↦ readBlob_of_isPrefix hgrown htexts
  refine ⟨by simp, rfl, rfl, hlog, ⟨rfl, hread⟩, fun kept ↦ ?_⟩
  obtain ⟨loaded, fresh, hload, hcontents, _, _, hdata, hview⟩ := load_of_upToDate hupToDate kept
  refine ⟨loaded, fresh, hload, hview, ?_⟩
  rwa [hcontents, hdata]

/-- Writing blobs does not touch the row log. -/
theorem writeData_log {disk : Disk} (hcurrent : Current disk stored) (faults : WriteFaults)
    (buffer : Bytes) :
    (writeData faults disk stored buffer).disk.files.contents stored.rowsFile =
      disk.files.contents stored.rowsFile := by
  unfold writeData
  by_cases hempty : buffer = []
  · rw [if_pos hempty]
  rw [if_neg hempty]
  cases faults.data with
  | some => exact hcurrent.log_writeData _
  | none =>
    split_ifs
    · rfl
    · exact hcurrent.log_writeData _
    · exact hcurrent.log_writeData _

omit [Externals] in
/-- A fault of the data file, or an end past the largest offset, fails the write of the blobs. -/
theorem writeData_fails {disk : Disk} {stored : CodeCollection} {faults : WriteFaults}
    {buffer : Bytes} (hbuffer : buffer ≠ [])
    (hfails : faults.data ≠ none ∨ 2 ^ 63 ≤ stored.dataSize + buffer.length ∨
      faults.dataSync = true) :
    (writeData faults disk stored buffer).failure ≠ none := by
  unfold writeData
  rw [if_neg hbuffer]
  cases hdata : faults.data with
  | some => simp
  | none =>
    split_ifs with hlarge hsync
    · simp
    · simp
    rcases hfails with hwrite | hover | hfails
    · exact absurd hdata hwrite
    · exact absurd hover hlarge
    · exact absurd hfails hsync

/-- A fault of the row log fails the append, and the truncation that follows undoes it. -/
theorem appendRows_fails {faults : WriteFaults} (htruncate : faults.truncate = false)
    (hfails : faults.seek = true ∨ faults.rows ≠ none ∨ faults.rowsSync = true) (disk : Disk)
    (stored : CodeCollection) (buffer : Bytes) (records : List RowRecord) :
    ∃ failure, appendRows faults disk stored buffer records =
      { disk := disk, stored := stored, failure := some failure } := by
  have hcut : writeFile disk stored.rowsFile (disk.files.contents stored.rowsFile) = disk := by
    rw [writeFile, FileSystem.write, Function.update_eq_self]
  have htorn (torn : Bytes) : appendFailed faults disk stored torn =
      { disk := disk, stored := stored, failure := some .appendRowLog } := by
    simp [appendFailed, htruncate, hcut]
  unfold appendRows
  by_cases hseek : faults.seek = true
  · exact ⟨.seekRowLog, by rw [if_pos hseek]⟩
  rw [if_neg hseek]
  cases hrows : faults.rows with
  | some => exact ⟨.appendRowLog, htorn _⟩
  | none =>
    have hsync : faults.rowsSync = true := by simpa [hseek, hrows] using hfails
    rw [if_pos hsync]
    exact ⟨.appendRowLog, htorn _⟩

/-- A failed write is undone. Assumes: the handle is current, a step of the write fails, and the row
log can be cut at its old end. -/
theorem write_failed_undone {disk : Disk} {stored : CodeCollection} (hcurrent : Current disk stored)
    {faults : WriteFaults} (htruncate : faults.truncate = false) {batch : List BatchItem}
    (hfails : WriteFails faults stored batch) :
    WriteUndone disk stored (write faults disk stored batch) := by
  unfold write
  dsimp only
  cases hframed : frameRecords stored.header.columns stored.header.frameFormat
    (placeBlobs stored.dataSize batch).1 [] with
  | error failure =>
    exact undone_of_keeps hcurrent (Keeps.refl disk) rfl hcurrent.dataSize_le failure
  | ok rowBuffer =>
    have hlog := writeData_log hcurrent faults (placeBlobs stored.dataSize batch).2
    rcases writeData_spec hcurrent faults (placeBlobs stored.dataSize batch).2 with
      ⟨next, failure, hwrite, hkeeps⟩ | ⟨next, hwrite, hkeeps, _, hmiddle, _⟩
    · simp only [hwrite] at hlog ⊢
      have hfollows := hcurrent.toFollows.keeps hkeeps
      exact undone_of_keeps hcurrent hkeeps hlog hfollows.dataSize_le failure
    · -- the data is written, so the failing step is one of the row log
      have hrows : faults.seek = true ∨ faults.rows ≠ none ∨ faults.rowsSync = true := by
        rcases hfails with ⟨failure, hfailed⟩ | ⟨hbuffer, hdata⟩ | hrows
        · simp [hframed] at hfailed
        · exact absurd (by rw [hwrite]) (@writeData_fails disk _ _ _ hbuffer hdata)
        · exact hrows
      simp only [hwrite] at hlog ⊢
      obtain ⟨failure, happend⟩ := appendRows_fails htruncate hrows next
        { stored with dataSize := stored.dataSize + (placeBlobs _ batch).2.length }
        rowBuffer (placeBlobs _ batch).1
      rw [happend]
      exact undone_of_keeps hcurrent hkeeps hlog hmiddle.dataSize_le failure

end

def tornAppend : WriteFaults :=
  { data := none, dataSync := false, seek := false, rows := some 3, rowsSync := false
    truncate := false
    compact := sampleCompactFaults }

theorem write_failed_undone_sample :
    @WriteUndone sampleExternals sampleDisk sampleStored
      (@write sampleExternals tornAppend sampleDisk sampleStored
        [⟨sampleStoredRecord, some (encodeBlob [0x68] [])⟩]) :=
  @write_failed_undone sampleExternals _ _ current_sampleStored tornAppend rfl _
    (.inr (.inr (.inr (.inl (by decide)))))

end Clyde.CodeStore
