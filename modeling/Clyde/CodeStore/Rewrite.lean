import Clyde.CodeStore.Disk

/-!
# Rows written again

Compaction and row updates write live rows again. `recordOfEntry` is the record for one entry of the
table, which `recordOf` of `codestore/collection.go` computes from the row's dictionary numbers
(`recordOfRow_eq`), and writing it gives the entry back. Every entry comes from an accepted record,
so its lengths, offsets and values fit the format (`Reflects.entry_valid`).
-/

set_option autoImplicit false

namespace Clyde.CodeStore

open Foundation ByteCodec KeyedRows List Table

def cellsOfValues (values : List (Option ScalarValue)) : List StoredCell :=
  values.zipIdx.filterMap fun entry ↦ entry.1.map fun value ↦ ⟨entry.2, value⟩

variable {values : List (Option ScalarValue)} {cell : StoredCell}

theorem mem_cellsOfValues :
    cell ∈ cellsOfValues values ↔ values[cell.column]? = some (some cell.value) := by
  simp only [cellsOfValues, mem_filterMap, Option.map_eq_some_iff, Prod.exists,
    mem_zipIdx_iff_getElem?]
  constructor
  · rintro ⟨_, _, hentry, _, rfl, rfl⟩
    exact hentry
  · intro hentry
    exact ⟨_, _, hentry, _, rfl, rfl⟩

theorem nodup_cellsOfValues (values : List (Option ScalarValue)) :
    ((cellsOfValues values).map StoredCell.column).Nodup := by
  have hsublist : ((cellsOfValues values).map StoredCell.column).Sublist
      (values.zipIdx.map Prod.snd) := by
    rw [cellsOfValues]
    induction values.zipIdx with
    | nil => exact Sublist.slnil
    | cons entry _ ih =>
      obtain ⟨value, _⟩ := entry
      cases value with
      | none => exact ih.cons _
      | some => exact ih.cons_cons _
  rw [zipIdx_map_snd] at hsublist
  exact hsublist.nodup (nodup_range' _)

variable {cells : List StoredCell} {column : ℕ}

theorem getElem?_setCells_of_ne
    (hother : ∀ cell ∈ cells, cell.column ≠ column) (values : List (Option ScalarValue)) :
    (setCells values cells)[column]? = values[column]? := by
  induction cells generalizing values with
  | nil => rfl
  | cons cell _ ih =>
    rw [setCells, foldl_cons, ← setCells, ih fun other hmem ↦ hother other (by simp [hmem]),
      getElem?_set_ne (hother cell (by simp))]

theorem getElem?_setCells (hnodup : (cells.map StoredCell.column).Nodup)
    (hcell : cell ∈ cells) (hlt : cell.column < values.length) :
    (setCells values cells)[cell.column]? = some (some cell.value) := by
  induction cells generalizing values with
  | nil => simp at hcell
  | cons _ _ ih =>
    rw [map_cons, nodup_cons] at hnodup
    rw [setCells, foldl_cons, ← setCells]
    rcases mem_cons.mp hcell with rfl | hcell
    · rw [getElem?_setCells_of_ne, getElem?_set_self hlt]
      intro _ hother hsame
      exact hnodup.1 (hsame ▸ mem_map_of_mem hother)
    · exact ih hnodup.2 hcell (by simpa using hlt)

variable {value : ScalarValue}

theorem mem_of_getElem?_setCells (hvalue : (setCells values cells)[column]? = some (some value)) :
    values[column]? = some (some value) ∨ ⟨column, value⟩ ∈ cells := by
  induction cells generalizing values with
  | nil => exact .inl hvalue
  | cons cell _ ih =>
    rcases ih hvalue with hold | hmem
    · rw [getElem?_set] at hold
      split_ifs at hold with hcolumn hlt
      · obtain rfl : cell.value = value := by simpa using hold
        exact .inr (by simp [← hcolumn])
      · exact .inl hold
    · exact .inr (by simp [hmem])

/-- Writing the cells of a row's values gives the values back. -/
theorem setCells_cellsOfValues (values : List (Option ScalarValue)) :
    setCells (List.replicate values.length none) (cellsOfValues values) = values := by
  refine ext_getElem? fun column ↦ ?_
  by_cases hlt : column < values.length
  · cases hvalue : values[column] with
    | some value =>
      have hfound : values[column]? = some (some value) := by rw [getElem?_eq_getElem hlt, hvalue]
      have hcell : (⟨column, value⟩ : StoredCell) ∈ cellsOfValues values :=
        mem_cellsOfValues.mpr hfound
      rw [hfound]
      exact getElem?_setCells (nodup_cellsOfValues values) hcell (by simpa using hlt)
    | none =>
      rw [getElem?_setCells_of_ne, getElem?_replicate, if_pos hlt, getElem?_eq_getElem hlt, hvalue]
      rintro _ hcell rfl
      rw [mem_cellsOfValues, getElem?_eq_getElem hlt, hvalue] at hcell
      simp at hcell
  · rw [getElem?_eq_none (by rw [length_setCells, length_replicate]; omega),
      getElem?_eq_none (by omega)]

def recordOfEntry (entry : Entry) : RowRecord :=
  { kind := .upsert, id := entry.id, code := entry.code, relativePath := entry.relativePath,
    splitPart := entry.splitPart, splitRecorded := entry.splitRecorded,
    dataOffset := entry.dataOffset, dataLength := entry.dataLength
    cells := cellsOfValues entry.cells }

theorem recordOfRow_eq (dictionaries : List Dictionary) (row : Row) (code : Code) :
    recordOfRow dictionaries row code = recordOfEntry (entryOf dictionaries row code) := by
  have hcells : (row.cells.zipIdx.filterMap fun cell ↦
      (cellValueOf dictionaries cell.2 cell.1).map fun value ↦ (⟨cell.2, value⟩ : StoredCell)) =
      cellsOfValues (cellValues dictionaries row.cells) := by
    have hnumbered : (cellValues dictionaries row.cells).zipIdx =
        row.cells.zipIdx.map fun cell ↦ (cellValueOf dictionaries cell.2 cell.1, cell.2) := by
      refine ext_getElem? fun column ↦ ?_
      simp [cellValues, getElem?_zipIdx, getElem?_mapIdx, Function.comp_def]
    rw [cellsOfValues, hnumbered, filterMap_map]
    rfl
  rw [recordOfRow, recordOfEntry, entryOf, hcells]

theorem entryOfRecord_recordOfEntry (entry : Entry) :
    entryOfRecord entry.cells.length (recordOfEntry entry) = entry := by
  rw [entryOfRecord, recordOfEntry, setCells_cellsOfValues]

/-- An entry that the format can hold under the declared columns. -/
structure Entry.Valid (entry : Entry) (columns : List ScalarColumn) : Prop where
  id_length : entry.id.length < 2 ^ 63
  path_length : entry.relativePath.length < 2 ^ 63
  offset_lt : entry.dataOffset < 2 ^ 63
  length_lt : entry.dataLength < 2 ^ 63
  cells_length : entry.cells.length = columns.length
  cells_match : ∀ (column : ℕ) (value : ScalarValue),
    entry.cells[column]? = some (some value) → ∃ declared, columns[column]? = some declared ∧
    value.Matches declared.type

variable {entry : Entry} {columns : List ScalarColumn}

theorem wellFormed_recordOfEntry
    (hentry : entry.Valid columns) : (recordOfEntry entry).WellFormed columns where
  id_length := hentry.id_length
  path_length := hentry.path_length
  offset_lt := hentry.offset_lt
  length_lt := hentry.length_lt
  delete_eq := by simp [recordOfEntry]
  cells_match cell hcell := hentry.cells_match cell.column cell.value (mem_cellsOfValues.mp hcell)
  cells_nodup := nodup_cellsOfValues entry.cells

variable {record : RowRecord}

theorem valid_entryOfRecord
    (hrecord : record.Valid columns) : (entryOfRecord columns.length record).Valid columns where
  id_length := hrecord.id_length
  path_length := hrecord.path_length
  offset_lt := hrecord.offset_lt
  length_lt := hrecord.length_lt
  cells_length := by rw [entryOfRecord, length_setCells, length_replicate]
  cells_match column value hvalue := by
    rcases mem_of_getElem?_setCells hvalue with hold | hcell
    · rw [getElem?_replicate] at hold
      simp at hold
    · exact hrecord.cells_match _ hcell

variable {table : Table} {width : ℕ}

/-- An entry after a record was there before or is the record's own. -/
theorem Table.mem_apply (hentry : entry ∈ (table.apply width record).entries) :
    entry ∈ table.entries ∨ record.kind = .upsert ∧ entry = entryOfRecord width record := by
  unfold apply at hentry
  cases hkind : record.kind with
  | delete =>
    rw [hkind] at hentry
    simp only [delete] at hentry
    split at hentry
    · rename_i position hposition
      have hlt : position < table.entries.length := by
        simpa using (List.getElem?_eq_some_iff.mp (position_eq_some hposition)).1
      exact .inl (mem_of_mem_eraseIdx ((swapRemove_perm_eraseIdx hlt).mem_iff.mp hentry))
    · exact .inl hentry
  | upsert =>
    rw [hkind] at hentry
    simp only [put] at hentry
    split at hentry
    · rcases mem_or_eq_of_mem_set hentry with hold | rfl
      · exact .inl hold
      · exact .inr ⟨rfl, rfl⟩
    · rcases mem_append.mp hentry with hold | hnew
      · exact .inl hold
      · exact .inr ⟨rfl, mem_singleton.mp hnew⟩

variable {records : List RowRecord}

theorem Table.mem_applyAll (hentry : entry ∈ (table.applyAll width records).entries) :
    entry ∈ table.entries ∨
      ∃ record ∈ records, record.kind = .upsert ∧ entry = entryOfRecord width record := by
  induction records generalizing table with
  | nil => exact .inl hentry
  | cons record records ih =>
    rcases ih hentry with hold | ⟨later, hlater, hfrom⟩
    · rcases mem_apply hold with hold | hnew
      · exact .inl hold
      · exact .inr ⟨record, by simp, hnew⟩
    · exact .inr ⟨later, by simp [hlater], hfrom⟩

/-- Upserts under distinct new ids append their entries in order. -/
theorem Table.applyAll_upserts (hkind : ∀ record ∈ records, record.kind = .upsert)
    (hnodup : (table.entries.map Entry.id ++ records.map RowRecord.id).Nodup) :
    table.applyAll width records =
      { table with entries := table.entries ++ records.map (entryOfRecord width) } := by
  induction records generalizing table with
  | nil => simp [applyAll]
  | cons record _ ih =>
    have hid : (entryOfRecord width record).id = record.id := rfl
    have hnew : table.position record.id = none := by
      rw [position, position_eq_none_iff]
      intro hmem
      exact (nodup_append.mp hnodup).2.2 _ hmem _ (by simp) rfl
    have hput : table.apply width record =
        { table with entries := table.entries ++ [entryOfRecord width record] } := by
      rw [apply, hkind record (by simp)]
      simp [put, hid, hnew]
    rw [applyAll, foldl_cons, ← applyAll, hput, ih fun other hother ↦
      hkind other (by simp [hother])]
    · simp
    · simpa [hid] using hnodup

section

variable [Externals]

theorem length_headerAt_lt (format : ℕ) (log : Bytes) (start : ℕ) :
    (headerAt format log start).length < 2 ^ 32 := by
  have hvalue :=
    littleEndianValue_lt ((readAt log start (frameHeaderSize format)).take frameFieldBytes)
  have hlength : ((readAt log start (frameHeaderSize format)).take frameFieldBytes).length ≤ 4 := by
    simp [frameFieldBytes]
  calc (headerAt format log start).length
      < 256 ^ ((readAt log start (frameHeaderSize format)).take frameFieldBytes).length := hvalue
    _ ≤ 256 ^ 4 := Nat.pow_le_pow_right (by decide) hlength

variable {log : Bytes} {reading : Reading} {offset stop : ℕ}

theorem AcceptAt.valid
    (haccept : AcceptAt reading log offset record stop) : record.Valid reading.columns := by
  refine valid_of_decodeRecord ?_ haccept.decoded
  have hheader := length_headerAt_lt reading.format log offset
  have hpayload : (payloadAt reading.format log offset).length ≤
      (headerAt reading.format log offset).length := length_take_le _ _
  omega

theorem Accepted.valid (haccepted : Accepted reading log offset records stop) :
    ∀ record ∈ records, record.Valid reading.columns := by
  induction haccepted with
  | nil => simp
  | cons haccept _ ih =>
    intro record hrecord
    rcases mem_cons.mp hrecord with rfl | hrecord
    · exact haccept.valid
    · exact ih record hrecord

theorem Reflects.entry_valid {header : CollectionHeader} {dataSize : ℕ}
    {memory : Memory} (hreflects : Reflects header dataSize log memory stop) :
    ∀ entry ∈ (view memory).entries, entry.Valid header.columns := by
  obtain ⟨_, haccepted, hview, _⟩ := hreflects.chain
  intro _ hentry
  rw [hview] at hentry
  rcases mem_applyAll hentry with hempty | ⟨record, hrecord, _, rfl⟩
  · exact absurd hempty not_mem_nil
  · exact valid_entryOfRecord (haccepted.valid record hrecord)

omit [Externals] in
theorem containsAt_of_cellValues {dictionaries : List Dictionary} {cells : List ℕ}
    (hvalue : (cellValues dictionaries cells)[column]? = some (some value)) :
    ContainsAt dictionaries column value := by
  rw [cellValues, getElem?_mapIdx, Option.map_eq_some_iff] at hvalue
  obtain ⟨id, _, hid⟩ := hvalue
  unfold cellValueOf at hid
  split_ifs at hid with hzero
  obtain ⟨dictionary, hdictionary, hfound⟩ := Option.bind_eq_some_iff.mp hid
  exact ⟨dictionary, hdictionary, Interner.contains_iff.mpr ⟨id, Nat.pos_of_ne_zero hzero, hfound⟩⟩

omit [Externals] in
theorem containsAt_of_mem_view {memory : Memory} (hentry : entry ∈ (view memory).entries)
    (hvalue : entry.cells[column]? = some (some value)) :
    ContainsAt memory.dictionaries column value := by
  obtain ⟨_, hposition⟩ := mem_iff_getElem?.mp hentry
  rw [view, getElem?_zipWith_eq_some] at hposition
  obtain ⟨_, _, _, _, rfl⟩ := hposition
  exact containsAt_of_cellValues hvalue

omit [Externals] in
theorem dataEnd_of_le {size : ℕ}
    (hinside : record.dataOffset + record.dataLength ≤ size) (hsize : size < 2 ^ 63) :
    record.dataEnd ≤ size := by
  have hsum : (0 : ℤ) ≤ (record.dataOffset : ℤ) + record.dataLength := by positivity
  have hbound : (record.dataOffset : ℤ) + record.dataLength < 2 ^ 63 := by
    exact_mod_cast lt_of_le_of_lt hinside hsize
  unfold RowRecord.dataEnd
  rw [Int.bmod_eq_of_le (le_trans (by decide) hsum) (lt_of_lt_of_le hbound (by decide))]
  exact_mod_cast hinside

/-- A log that holds one record per live row reflects these rows. -/
theorem reflects_framesOf {header : CollectionHeader} {dataSize : ℕ} {memory : Memory}
    (hcoherent : Coherent header.columns.length memory) (hdead : (view memory).dead = 0)
    (hentries : ∀ entry ∈ (view memory).entries, entry.Valid header.columns ∧
      entry.dataOffset + entry.dataLength ≤ dataSize) (hsize : dataSize < 2 ^ 63)
    {payloads : List Bytes} (hencoded : List.Forall₂ (Encodes header.columns)
      ((view memory).entries.map recordOfEntry) payloads) :
    Reflects header dataSize (framesOf header.frameFormat payloads) memory
      (framesOf header.frameFormat payloads).length := by
  have hholds : List.Forall₂ (Holds (header.reading dataSize)) payloads
      ((view memory).entries.map recordOfEntry) := by
    refine holds_of_encodes header.columns_length hencoded fun record hrecord ↦ ?_
    obtain ⟨entry, hentry, rfl⟩ := mem_map.mp hrecord
    obtain ⟨hvalid, hinside⟩ := hentries entry hentry
    exact ⟨wellFormed_recordOfEntry hvalid, fun _ ↦ dataEnd_of_le hinside hsize⟩
  refine ⟨hcoherent, (view memory).entries.map recordOfEntry, ?_, ?_, ?_⟩
  · have haccepted := accepted_framesOf hholds [] []
    rwa [append_nil, length_nil, Nat.zero_add] at haccepted
  · rw [applyAll_upserts]
    · have hsame : ((view memory).entries.map recordOfEntry).map
          (entryOfRecord header.columns.length) = (view memory).entries := by
        rw [map_map]
        refine (map_congr_left fun entry hentry ↦ ?_).trans (map_id _)
        rw [Function.comp_apply, ← (hentries entry hentry).1.cells_length,
          entryOfRecord_recordOfEntry, id_eq]
      rw [hsame, empty, nil_append, ← hdead]
    · simp [recordOfEntry]
    · have hnodup := nodup_view hcoherent
      simpa [empty, recordOfEntry, Function.comp_def] using hnodup
  · rintro _ hrecord _ _ ⟨_, hcell⟩
    obtain ⟨_, hentry, rfl⟩ := mem_map.mp hrecord
    exact containsAt_of_mem_view hentry (mem_cellsOfValues.mp hcell)

end

def sampleStoredRecord : RowRecord :=
  { sampleRecord with dataOffset := 0, dataLength := 5 }

/-- The rows in memory after that record. -/
@[reducible] def sampleMemory : Memory :=
  (applyAll 3 (@Memory.empty sampleExternals 3) [sampleStoredRecord]).1

/-- A directory with that record in its row log. -/
@[reducible] def sampleDisk : Disk :=
  { header := some ((sampleHandle frameFormatLengthCRC).header, ⟨7, 1⟩)
    files :=
      { entries := [(⟨.rows, 0⟩, 0), (⟨.data, 0⟩, 1)]
        next := 2
        contents := fun file ↦
          if file = 0 then
            @framesOf sampleExternals frameFormatLengthCRC
              [(encodeRecord sampleStoredRecord sampleColumns).getD []]
          else if file = 1 then encodeBlob [0x68, 0x69] [0x6d]
          else []
        names_nodup := by decide
        files_nodup := by decide
        files_lt := by decide } }

/-- A handle on that directory. -/
@[reducible] def sampleStored : CodeCollection :=
  { sampleHandle frameFormatLengthCRC with
    memory := sampleMemory, dataSize := 5, logSize := (sampleDisk.files.contents 0).length
    headerInfo := some ⟨7, 1⟩ }

theorem current_sampleStored : @Current sampleExternals sampleDisk sampleStored := by
  let _ := sampleExternals
  obtain ⟨_, happlied, hcarried⟩ := applyAll_spec (coherent_empty 3) [sampleStoredRecord]
  rw [hcarried.mp rfl] at happlied
  have hview : (view sampleMemory) = ⟨[entryOfRecord 3 sampleStoredRecord], 0⟩ := happlied.view_eq
  have hvalid : sampleStoredRecord.Valid sampleColumns :=
    { wellFormed_sampleRecord.toValid with
      offset_lt := by decide, length_lt := by decide, delete_eq := by decide }
  refine ⟨⟨⟨rfl, .inr rfl, rfl, rfl, by decide, ?_⟩, rfl⟩, by decide⟩
  refine @reflects_framesOf _ (sampleHandle frameFormatLengthCRC).header _ _ happlied.coherent ?_ ?_
    (by decide) _ ?_
  · rw [hview]
  · rw [hview]
    simp only [forall_mem_singleton]
    exact ⟨valid_entryOfRecord hvalid, by decide⟩
  · exact .cons ⟨by decide, by decide⟩ .nil

end Clyde.CodeStore
