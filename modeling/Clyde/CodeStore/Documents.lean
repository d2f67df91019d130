import Clyde.CodeStore.FailedWrite
import Clyde.CodeStore.Handles

/-!
# A collection as a map of documents

What a collection stands for: its columns and, under each id, a row with its code, path, cells,
content and metadata. Positions, dictionary numbers, offsets and generations are not part of it.

`lookup_applyAll` shows that the rows in memory, with removal by moving the last row, are a map that
every record changes at its own id. `map_change_placeBlobs` is the data file: a batch places its
blobs one after the other, and each row then reads its own blob. `documents_write` puts them
together for a write that succeeds, and `documents_compact` shows that a compaction changes nothing.
-/

set_option autoImplicit false

namespace Clyde.CodeStore

open Foundation ByteCodec KeyedRows List

def RowRecord.change (width : ℕ) (record : RowRecord) : Bytes × Option Entry :=
  (record.id,
    match record.kind with
    | .delete => none
    | .upsert => some (entryOfRecord width record))

variable {table : Table} (hnodup : (table.entries.map Entry.id).Nodup) (width : ℕ)
include hnodup

/-- Applying a record changes only the row under its id. -/
theorem changes_apply (record : RowRecord) :
    Changes Entry.id table.entries (table.apply width record).entries record.id
      (record.change width).2 := by
  unfold Table.apply RowRecord.change
  cases record.kind with
  | delete =>
    simp only [Table.delete, Table.position]
    split
    · rename_i position hposition
      exact changes_swapRemove hnodup hposition
    · rename_i hposition
      rw [position_eq_none_iff] at hposition
      exact ⟨hnodup, (Function.update_eq_self_iff.mpr (lookup_eq_none_iff.mpr hposition).symm).symm⟩
  | upsert =>
    simp only [Table.put, Table.position]
    split
    · rename_i position hposition
      exact changes_set hnodup hposition
    · rename_i hposition
      exact changes_append hnodup hposition

theorem lookup_applyAll (records : List RowRecord) :
    KeyedRows.lookup Entry.id (table.applyAll width records).entries =
      updates (KeyedRows.lookup Entry.id table.entries) (records.map (RowRecord.change width)) := by
  induction records generalizing table with
  | nil => rfl
  | cons record records ih =>
    obtain ⟨hnext, hlookup⟩ := changes_apply hnodup width record
    rw [map_cons, updates_cons]
    exact (ih hnext).trans (congrArg (updates · _) hlookup)

omit hnodup

/-- A row's data is in the data file. An end that a record wraps around is beyond every file. -/
def Entry.Placed (entry : Entry) (dataSize : ℕ) : Prop :=
  entry.dataOffset + entry.dataLength ≤ dataSize ∨ 2 ^ 63 ≤ entry.dataOffset + entry.dataLength

/-- A row whose data is inside the file reads the same after the file grows. -/
theorem liveRow_append {data more : Bytes} {entry : Entry} (hplaced : entry.Placed data.length)
    (hsize : more = [] ∨ data.length + more.length < 2 ^ 63) :
    liveRow (data ++ more) entry = liveRow data entry := by
  have hread : readData (data ++ more) entry.dataOffset entry.dataLength =
      readData data entry.dataOffset entry.dataLength := by
    rcases hsize with rfl | hsize
    · rw [append_nil]
    unfold Entry.Placed at hplaced
    unfold readData
    rw [length_append]
    split_ifs with _ hgrown hinside
    · rfl
    · rw [readAt, readAt, drop_append_of_le_length (by omega),
        take_append_of_le_length (by rw [length_drop]; omega)]
    · omega
    · omega
    · rfl
  rw [liveRow, readBlob, hread, liveRow, readBlob]

section

variable [Externals]

theorem Accepted.inside {reading : Reading} {log : Bytes} {offset stop : ℕ}
    {records : List RowRecord} (haccepted : Accepted reading log offset records stop) :
    ∀ record ∈ records, record.kind = .upsert → record.dataEnd ≤ reading.dataSize := by
  induction haccepted with
  | nil => simp
  | cons haccept _ ih =>
    rw [forall_mem_cons]
    exact ⟨haccept.inside, ih⟩

/-- Every row of a handle that reflects its log has its data inside the data file. -/
theorem Reflects.placed {header : CollectionHeader} {dataSize stop : ℕ} {log : Bytes}
    {memory : Memory} (hreflects : Reflects header dataSize log memory stop) :
    ∀ entry ∈ (view memory).entries, entry.Placed dataSize := by
  intro entry hentry
  have hvalid := hreflects.entry_valid entry hentry
  obtain ⟨_, haccepted, hview, _⟩ := hreflects.chain
  rw [hview] at hentry
  rcases Table.mem_applyAll hentry with hempty | ⟨record, hrecord, hkind, rfl⟩
  · exact absurd hempty not_mem_nil
  have hend : record.dataEnd ≤ dataSize := haccepted.inside record hrecord hkind
  have hoffset : record.dataOffset < 2 ^ 63 := hvalid.offset_lt
  have hlength : record.dataLength < 2 ^ 63 := hvalid.length_lt
  unfold RowRecord.dataEnd at hend
  rw [Int.bmod_def] at hend
  show record.dataOffset + record.dataLength ≤ dataSize ∨
    2 ^ 63 ≤ record.dataOffset + record.dataLength
  omega

end

def BatchItem.change (item : BatchItem) : Bytes × Option LiveRow :=
  (item.record.id,
    match item.record.kind with
    | .delete => none
    | .upsert =>
      item.blob.map fun blob ↦ liveRow blob
        (entryOfRecord width (item.record.placeAt 0 blob.length)))

variable {batch : List BatchItem}

/-- Once the blobs are written behind the data file, the placed records change the rows as the batch
says. -/
theorem map_change_placeBlobs
    (hblobs : ∀ item ∈ batch, item.record.kind = .upsert → item.blob.isSome) (front : Bytes) :
    (placeBlobs front.length batch).1.map
      (fun record ↦ ((record.change width).1, (record.change width).2.map
        (liveRow (front ++ (placeBlobs front.length batch).2)))) =
          batch.map (BatchItem.change width) := by
  induction batch generalizing front with
  | nil => rfl
  | cons item batch ih =>
    rw [forall_mem_cons] at hblobs
    cases hkind : item.record.kind with
    | delete =>
      rw [placeBlobs_keep (.inl hkind), map_cons, map_cons, ih hblobs.2]
      simp [RowRecord.change, BatchItem.change, hkind]
    | upsert =>
      obtain ⟨blob, hblob⟩ := Option.isSome_iff_exists.mp (hblobs.1 hkind)
      have hrest := ih hblobs.2 (front ++ blob)
      have halone : readData blob 0 blob.length = some blob := by
        simpa using readData_append [] blob []
      rw [length_append, append_assoc] at hrest
      rw [placeBlobs_blob hkind hblob, map_cons, map_cons, hrest]
      simp [RowRecord.change, RowRecord.placeAt, BatchItem.change, hkind, hblob, liveRow,
        entryOfRecord, readBlob, readData_append, halone]

theorem blob_sublist_placeBlobs {item : BatchItem} (hitem : item ∈ batch)
    (hkind : item.record.kind = .upsert)
    {blob : Bytes} (hblob : item.blob = some blob) (offset : ℕ) :
    blob <+ (placeBlobs offset batch).2 := by
  induction batch generalizing offset with
  | nil => simp at hitem
  | cons first rest ih =>
    rw [placeBlobs]
    rcases mem_cons.mp hitem with rfl | hitem
    · simp [hkind, hblob]
    · split
      · exact (ih hitem _).trans (sublist_append_right _ _)
      · exact ih hitem offset

/-- What a collection stores: its columns, and the row under each id. -/
structure Documents where
  columns : List ScalarColumn
  rows : Bytes → Option LiveRow

def documents (disk : Disk) (stored : CodeCollection) : Documents :=
  { columns := stored.header.columns, rows := KeyedRows.lookup LiveRow.id (liveRows disk stored) }

theorem rows_documents (disk : Disk) (stored : CodeCollection) : (documents disk stored).rows =
    Option.map (liveRow (disk.files.contents stored.dataFile)) ∘
      KeyedRows.lookup Entry.id (view stored.memory).entries :=
  funext fun _ ↦ find?_map

variable [Externals] {disk : Disk} {stored : CodeCollection} (hcurrent : Current disk stored)
include hcurrent

/-- A compaction, also one that fails, changes no document. -/
theorem documents_compact (faults : CompactFaults) :
    documents (compact faults disk stored).disk (compact faults disk stored).stored =
      documents disk stored := by
  rcases compact_spec hcurrent faults with habandoned | hswitched
  · have huntouched := habandoned.untouched _ habandoned.last
    rw [habandoned.stored_eq, documents, liveRows, huntouched.contents_eq _ _ hcurrent.data]
    rfl
  obtain ⟨rowsOut, _, _, hfiles, hstored, hpoints⟩ := hswitched.stored_eq
  rcases hpoints _ hswitched.last with huntouched | ⟨_, _, hbytes⟩
  · -- The last point has the new header, so it is not an untouched one.
    have hheader := huntouched.header_eq.symm.trans hswitched.header_eq
    have hgeneration := hcurrent.header_eq
    rw [hheader, Option.map_some, Option.some.injEq] at hgeneration
    exact absurd (congrArg CollectionHeader.generation hgeneration) (generation_succ_ne _)
  · rw [hstored, documents, liveRows_switchHandle faults rowsOut hfiles hbytes]
    rfl

theorem documents_compactIfDead (faults : CompactFaults) :
    documents (compactIfDead faults disk stored).disk (compactIfDead faults disk stored).stored =
      documents disk stored := by
  unfold compactIfDead
  split_ifs
  · exact documents_compact hcurrent faults
  · rfl

omit hcurrent in
theorem size_of_write {faults : WriteFaults}
    (hok : (write faults disk stored batch).failure = none) :
    (placeBlobs stored.dataSize batch).2 = [] ∨
      stored.dataSize + (placeBlobs stored.dataSize batch).2.length < 2 ^ 63 := by
  by_contra hsize
  obtain ⟨hbuffer, hlarge⟩ := not_or.mp hsize
  have hfails := @writeData_fails disk stored faults _ hbuffer (.inr (.inl (not_lt.mp hlarge)))
  obtain ⟨_, hfailure⟩ := Option.ne_none_iff_exists'.mp hfails
  unfold write at hok
  simp only [hfailure] at hok
  split at hok
  · simp at hok
  · exact hfails hok

omit hcurrent in
theorem length_blob_lt {faults : WriteFaults}
    (hok : (write faults disk stored batch).failure = none) :
    ∀ item ∈ batch, item.record.kind = .upsert → ∀ blob ∈ item.blob, blob.length < 2 ^ 63 := by
  intro item hitem hkind blob hblob
  have hle := (blob_sublist_placeBlobs hitem hkind hblob stored.dataSize).length_le
  rcases size_of_write hok with hempty | hsize
  · rw [hempty, length_nil] at hle
    omega
  · omega

/-- A successful write of a batch updates the documents by the batch's changes. -/
theorem documents_write
    (hbatch : ∀ item ∈ batch, item.Writable stored.header.columns stored.dataSize)
    (hblobs : ∀ item ∈ batch, item.record.kind = .upsert → item.blob.isSome) {faults : WriteFaults}
    (hok : (write faults disk stored batch).failure = none) :
    documents (write faults disk stored batch).disk (write faults disk stored batch).stored =
      { columns := stored.header.columns
        rows := updates (documents disk stored).rows
          (batch.map (BatchItem.change stored.width)) } := by
  have hsize := size_of_write hok
  have hend := write_spec hcurrent hbatch faults
  generalize write faults disk stored batch = result at hok hend
  cases hend with
  | failed | refused => simp at hok
  | committed _ hnext happlied hdata =>
    rw [documents_compactIfDead hnext, documents, Documents.mk.injEq]
    refine ⟨rfl, (rows_documents _ _).trans ?_⟩
    rw [hcurrent.dataSize_eq] at happlied hdata hsize
    dsimp only
    rw [hdata, happlied.view_eq, lookup_applyAll (nodup_view hcurrent.reflects.coherent),
      map_comp_updates, List.map_map, rows_documents]
    refine congrArg₂ updates (funext fun id ↦ ?_) (map_change_placeBlobs _ hblobs _)
    cases hfound : KeyedRows.lookup Entry.id (view stored.memory).entries id with
    | none => simp [hfound]
    | some entry =>
      have hplaced := hcurrent.reflects.placed entry (mem_of_find?_eq_some hfound)
      simp [hfound, liveRow_append hplaced hsize]

theorem documents_of_load (kept : GenerationFile → Bool) :
    ∃ next fresh, loadCollection ⟨.none, kept⟩ disk = (next, .ok fresh) ∧
      documents next fresh = documents disk stored := by
  obtain ⟨next, fresh, hload, hcontents, hheader, _, hdata, hview⟩ :=
    load_of_upToDate hcurrent.toUpToDate kept
  exact ⟨next, fresh, hload, by rw [documents, documents, liveRows, liveRows, hview,
    hcontents, hdata, hheader]⟩

omit hcurrent

/-- A current handle on the directory has the documents. -/
def Disk.Shows (disk : Disk) (shown : Documents) : Prop :=
  ∃ stored, Current disk stored ∧ documents disk stored = shown

variable {shown : Documents}

/-- All current handles have the same documents, those of a load. -/
theorem Disk.Shows.documents_eq (hshows : disk.Shows shown) (hcurrent : Current disk stored) :
    documents disk stored = shown := by
  obtain ⟨other, hother, rfl⟩ := hshows
  obtain ⟨next, fresh, hload, hsame⟩ := documents_of_load hcurrent fun _ ↦ false
  obtain ⟨_, _, hagain, hothers⟩ := documents_of_load hother fun _ ↦ false
  rw [hload, Prod.mk.injEq, Except.ok.injEq] at hagain
  obtain ⟨rfl, rfl⟩ := hagain
  exact hsame.symm.trans hothers

/-- A load that reads every header changes no document, also when it fails: a current handle has
seen the whole log, so that there is nothing to cut. -/
theorem Disk.Shows.load (hshows : disk.Shows shown) {faults : LoadFaults}
    (hheaders : faults.log.ReadsHeaders) : (loadCollection faults disk).1.Shows shown := by
  obtain ⟨stored, hcurrent, rfl⟩ := hshows
  have hloads := loadCollection_spec faults disk
  have hkeeps := hloads.keeps hheaders
  have hfollows := hcurrent.toFollows.keeps hkeeps
  have hrows := (hloads.shorter stored.rowsFile).eq_of_length_le
    (hcurrent.logSize_eq ▸ hfollows.reflects.stop_le)
  obtain ⟨_, hheader⟩ := hcurrent.exists_header
  obtain ⟨-, -, hmore, -⟩ := hkeeps.files hheader hcurrent.rows hcurrent.data
  have hdata := (hloads.shorter stored.dataFile).eq_of_length_le hmore.length_le
  refine ⟨stored, ⟨⟨hfollows, ?_⟩, ?_⟩, ?_⟩
  · rw [hrows, hcurrent.logSize_eq]
  · rw [hdata, hcurrent.dataSize_eq]
  · rw [documents, documents, liveRows, liveRows, hdata]

/-- A current handle catches up by a load or not at all. -/
theorem Disk.Shows.lockForWrite (hshows : disk.Shows shown) (hcurrent : Current disk stored)
    {faults : LoadFaults} (hheaders : faults.log.ReadsHeaders) :
    (CodeStore.lockForWrite faults disk stored).disk.Shows shown := by
  have hreload : (reload faults disk stored).disk.Shows shown := by
    have hload := hshows.load hheaders
    unfold reload
    split
    · next hloaded => rwa [hloaded] at hload
    · next hloaded => rwa [hloaded] at hload
  unfold CodeStore.lockForWrite syncWithDisk
  split_ifs with _ hsmaller hsame
  · exact hshows
  · split
    · exact hreload
    · split
      · exact hshows
      · exact hreload
      · exact hreload
  · split
    · exact hreload
    · split
      · exact hshows
      · exact hreload
      · exact hshows
  · exact absurd hcurrent.logSize_eq.symm hsame

end Clyde.CodeStore
