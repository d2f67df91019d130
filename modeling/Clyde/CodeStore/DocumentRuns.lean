import Clyde.CodeStore.Documents
import Clyde.CodeStore.Selection

/-!
# Operations on the documents of a collection

`codestore/store.go`: `EnsureCollection`, `Upsert`, `Delete`, `DeleteItems` and `UpdateRows` as
changes of the map of documents, which `Documents.perform` states. `documents_perform` shows that
the operation of the code, which writes framed records to a log, blobs to a data file and dictionary
numbers to memory, does just that. `documents_of_run` is the result for whole runs, with compactions
and restarts of the store.

Scope. Calls that fail are left out, and so is the order of the rows.
-/

set_option autoImplicit false

namespace Clyde.CodeStore

open Foundation ByteCodec KeyedRows List

/-! ### What the operations are for -/

def shownCells (columns : List ScalarColumn) (scalars : List (Bytes × ScalarValue))
    (values : List (Option ScalarValue)) : List (Option ScalarValue) :=
  values.mapIdx fun position value ↦
    match scalars.find? fun entry ↦ columnIndexOf columns entry.1 = some position with
    | some entry => columns[position]?.map fun column ↦ storedValue column.type entry.2
    | none => value

/-- The document of a row to write. -/
def UpsertRow.shown (columns : List ScalarColumn) (row : UpsertRow) : LiveRow :=
  { id := row.id
    code := codeOf row.vector
    relativePath := row.relativePath
    splitPart := row.splitPart
    splitRecorded := row.splitPartRecorded
    cells := shownCells columns row.scalars.entries (List.replicate columns.length none)
    texts := .ok (row.content, row.metadata) }

/-- The value in a named column. -/
def valueIn (columns : List ScalarColumn) (cells : List (Option ScalarValue)) (name : Bytes) :
    Option ScalarValue :=
  (columnIndexOf columns name).bind fun index ↦ (cells[index]?).join

namespace LiveRow

/-- Whether the row has one of the ids in the item column, or a path with one of the prefixes. -/
def wanted (columns : List ScalarColumn) (itemColumn : Bytes) (ids prefixes : List Bytes)
    (row : LiveRow) : Bool :=
  (valueIn columns row.cells itemColumn).any
    (fun value ↦ ids.contains value.string && !value.null) ||
    prefixes.any fun start ↦ start ≠ [] && start.isPrefixOf row.relativePath

/-- What a callback sees in a column. -/
def cell (columns : List ScalarColumn) (row : LiveRow) (name : Bytes) : ScalarCell :=
  match valueIn columns row.cells name with
  | none => .absent
  | some value => if value.null then .null else .value value

def updated (columns : List ScalarColumn) (names : List Bytes) (update : RowUpdate)
    (row : LiveRow) : Option LiveRow :=
  match row.texts with
  | .error _ => none
  | .ok (content, metadata) =>
    match update row.id metadata fun name ↦ if name ∈ names then
      some (row.cell columns name) else none with
    | .ok (some (next, scalars)) =>
      some
        { row with
          cells := shownCells columns scalars.entries row.cells
          texts := .ok (content, next) }
    | _ => none

end LiveRow

namespace Documents

/-- The documents that fail a test. -/
def remove (shown : Documents) (test : LiveRow → Bool) : Documents :=
  { shown with rows := fun id ↦ (shown.rows id).filter fun row ↦ !test row }

/-- What an operation does. The calls of an update see the documents from before the operation. -/
def perform (shown : Documents) : Operation → Documents
  | .ensureCollection _ requested =>
    let added := requested.filter fun column ↦ (columnIndexOf shown.columns column.name).isNone
    { columns := shown.columns ++ added, rows := fun id ↦
      (shown.rows id).map (LiveRow.widen added.length) }
  | .upsert rows =>
    { shown with
      rows := updates shown.rows (rows.map fun row ↦ (row.id, some (row.shown shown.columns))) }
  | .delete filter => shown.remove fun row ↦ evalFilter shown.columns row.cells filter = .truthTrue
  | .deleteItems itemColumn ids prefixes =>
    shown.remove (LiveRow.wanted shown.columns itemColumn ids prefixes)
  | .updateRows names calls =>
    { shown with
      rows := updates shown.rows (calls.filterMap fun call ↦
        ((shown.rows call.1).bind (LiveRow.updated shown.columns names call.2)).map
          fun row ↦ (call.1, some row)) }

end Documents

/-! ### Cells -/

section

variable {columns : List ScalarColumn} {entries : List (Bytes × ScalarValue)}
  {values : List (Option ScalarValue)} {cells new : List StoredCell}

/-- The cells of a row, with the new cells in place of those in the same columns. -/
def Overwrites (values : List (Option ScalarValue)) (new cells : List StoredCell) : Prop :=
  (cells.map StoredCell.column).Nodup ∧ ∀ cell, cell ∈ cells ↔ cell ∈ new ∨
    values[cell.column]? = some (some cell.value) ∧ ∀ other ∈ new, other.column ≠ cell.column

/-- Setting the overwritten cells of a row shows the new scalars over the old values. -/
theorem setCells_eq_shownCells (hdeclared : List.Forall₂ (DeclaredCell columns) entries new)
    (hcells : Overwrites values new cells) :
    setCells (List.replicate values.length none) cells = shownCells columns entries values := by
  obtain ⟨hnodup, hmem⟩ := hcells
  refine ext_getElem? fun position ↦ ?_
  by_cases hlt : position < values.length
  · have hcell {cell : StoredCell} (hcell : cell ∈ cells) (hposition : cell.column = position) :
        (setCells (List.replicate values.length none) cells)[position]? =
          some (some cell.value) := by
      subst hposition
      exact getElem?_setCells hnodup hcell (by simpa using hlt)
    rw [shownCells, getElem?_mapIdx, getElem?_eq_getElem hlt, Option.map_some]
    cases hfind : entries.find? fun entry ↦ columnIndexOf columns entry.1 = some position with
    | some entry =>
      have hindex : columnIndexOf columns entry.1 = some position := by simpa using find?_some hfind
      obtain ⟨number, hnumber, rfl⟩ := getElem_of_mem (mem_of_find?_eq_some hfind)
      obtain ⟨hcolumn, column, hfound, hvalue⟩ :=
        hdeclared.get hnumber (hdeclared.length_eq ▸ hnumber)
      have hposition := Option.some.inj (hindex.symm.trans hcolumn)
      rw [← hposition] at hfound
      rw [hcell ((hmem _).mpr (.inl (get_mem _ _))) hposition.symm, hvalue]
      simp [hfound]
    | none =>
      have hother : ∀ other ∈ new, other.column ≠ position := by
        rintro other hnew rfl
        obtain ⟨entry, hentry, hindex, _⟩ := exists_declaredCell hdeclared hnew
        simpa [hindex] using find?_eq_none.mp hfind entry hentry
      cases hvalue : values[position] with
      | some value =>
        exact hcell ((hmem ⟨position, value⟩).mpr (.inr ⟨by simp [hlt, hvalue], hother⟩)) rfl
      | none =>
        rw [getElem?_setCells_of_ne, getElem?_replicate, if_pos hlt]
        rintro cell hwritten rfl
        rcases (hmem cell).mp hwritten with hnew | ⟨hold, _⟩
        · exact hother cell hnew rfl
        · rw [getElem?_eq_getElem hlt, hvalue] at hold
          simp at hold
  · rw [getElem?_eq_none (by rw [length_setCells, length_replicate]; omega),
      getElem?_eq_none (by rw [shownCells, length_mapIdx]; omega)]

/-- The replaced cells are the new ones and those of columns without a new one. -/
theorem mem_replaceCells_iff {cell : StoredCell} (hnew : (new.map StoredCell.column).Nodup) :
    cell ∈ replaceCells cells new ↔
      cell ∈ new ∨ cell ∈ cells ∧ ∀ other ∈ new, other.column ≠ cell.column := by
  induction new generalizing cells with
  | nil => simp [replaceCells]
  | cons first rest ih =>
    rw [map_cons, nodup_cons] at hnew
    rw [replaceCells, foldl_cons, ← replaceCells, ih hnew.2, mem_append, mem_filter,
      mem_singleton, mem_cons, forall_mem_cons]
    by_cases hfirst : cell = first
    · subst hfirst
      have hrest : ∀ other ∈ rest, other.column ≠ cell.column :=
        fun other hother hsame ↦ hnew.1 (hsame ▸ mem_map_of_mem hother)
      exact iff_of_true (.inr ⟨.inr rfl, hrest⟩) (.inl (.inl rfl))
    · simp only [hfirst, or_false, false_or, decide_eq_true_eq, and_assoc, @ne_comm _ cell.column]

theorem overwrites_replaceCells (hnew : (new.map StoredCell.column).Nodup) :
    Overwrites values new (sortCells (replaceCells (cellsOfValues values) new)) := by
  have hperm := sortCells_perm (replaceCells (cellsOfValues values) new)
  refine ⟨(hperm.map _).nodup_iff.mpr (nodup_replaceCells (nodup_cellsOfValues values)),
    fun cell ↦ ?_⟩
  rw [hperm.mem_iff, mem_replaceCells_iff hnew, mem_cellsOfValues]

theorem overwrites_absent (hnew : (new.map StoredCell.column).Nodup) (width : ℕ) :
    Overwrites (List.replicate width none) new (sortCells new) := by
  have hperm := sortCells_perm new
  refine ⟨(hperm.map _).nodup_iff.mpr hnew, fun cell ↦ ?_⟩
  simp [hperm.mem_iff, getElem?_replicate]

end

/-! ### Batches -/

section

variable {columns : List ScalarColumn} {batch : List BatchItem}

/-- What is read back from an encoded blob is its content and metadata. -/
theorem readBlob_encodeBlob {content metadata : Bytes}
    (hsize : (encodeBlob content metadata).length < 2 ^ 63) (id : Bytes) :
    readBlob (encodeBlob content metadata) id 0 (encodeBlob content metadata).length =
      .ok (content, metadata) := by
  have hread : readData (encodeBlob content metadata) 0 (encodeBlob content metadata).length =
      some (encodeBlob content metadata) := by
    simpa using readData_append [] (encodeBlob content metadata) []
  have hparts : (encodeBlob content metadata).length =
      (appendVarint content.length).length + (content.length +
        ((appendVarint metadata.length).length + metadata.length)) := by
    simp [encodeBlob, appendString]
  rw [readBlob, hread]
  simp only [decodeBlob_encodeBlob (show content.length < 2 ^ 63 by omega)
    (show metadata.length < 2 ^ 63 by omega)]

/-- The batch item of an upsert changes its document to the row that was given. -/
theorem change_upsertItem {row : UpsertRow} {item : BatchItem}
    (hitem : upsertItem columns row = .ok item)
    (hsize : item.record.kind = .upsert → ∀ blob ∈ item.blob, blob.length < 2 ^ 63) :
    item.blob.isSome ∧ item.change columns.length = (row.id, some (row.shown columns)) := by
  unfold upsertItem at hitem
  split_ifs at hitem with hblank hvector
  cases hcells : declaredCells columns .undeclaredColumn row.scalars.entries with
  | error => simp [hcells] at hitem
  | ok cells =>
    simp only [hcells, Except.ok.injEq] at hitem
    subst hitem
    have hdeclared := declaredCells_eq_ok hcells
    have hvalues := setCells_eq_shownCells hdeclared
      (overwrites_absent (nodup_declaredCells hdeclared row.scalars.names_nodup) columns.length)
    rw [length_replicate] at hvalues
    simp [BatchItem.change, liveRow, entryOfRecord, RowRecord.placeAt, UpsertRow.shown, hvalues,
      readBlob_encodeBlob (hsize rfl _ rfl)]

/-- The batch of an `Upsert` changes each document to the row that was given, in order. -/
theorem map_change_upsertBatch {rows : List UpsertRow}
    (hbatch : upsertBatch columns rows = .ok batch)
    (hsize : ∀ item ∈ batch, item.record.kind = .upsert →
      ∀ blob ∈ item.blob, blob.length < 2 ^ 63) :
    (∀ item ∈ batch, item.blob.isSome) ∧
      batch.map (BatchItem.change columns.length) = rows.map fun row ↦
        (row.id, some (row.shown columns)) := by
  induction rows generalizing batch with
  | nil =>
    simp only [upsertBatch, Except.ok.injEq] at hbatch
    simp [← hbatch]
  | cons row rows ih =>
    rw [upsertBatch] at hbatch
    cases hitem : upsertItem columns row with
    | error => simp [hitem] at hbatch
    | ok item =>
      cases hrest : upsertBatch columns rows with
      | error => simp [hitem, hrest] at hbatch
      | ok items =>
        simp only [hitem, hrest, Except.ok.injEq] at hbatch
        subst hbatch
        rw [forall_mem_cons] at hsize
        obtain ⟨hsome, hchange⟩ := change_upsertItem hitem hsize.1
        obtain ⟨hblobs, hchanges⟩ := ih hrest hsize.2
        rw [forall_mem_cons, map_cons, map_cons, hchange, hchanges]
        exact ⟨⟨hsome, hblobs⟩, rfl⟩

variable {memory : Memory} (hmemory : Coherent columns.length memory) {row : Row}
include hmemory

/-- A stored cell is zero for no value, and otherwise a number of the column's dictionary. -/
theorem value_of_column (hrow : row ∈ memory.rows) {index : ℕ}
    (hlt : index < memory.dictionaries.length) :
    ∃ id dictionary, row.cells[index]? = some id ∧ memory.dictionaries[index]? = some dictionary ∧
      (id = 0 ∧ (cellValues memory.dictionaries row.cells)[index]?.join = none ∨
        id ≠ 0 ∧ ∃ value, dictionary.values[id]? = some value ∧
          (cellValues memory.dictionaries row.cells)[index]?.join = some value) := by
  have hfit := hmemory.cells_fit row hrow
  obtain ⟨id, hid⟩ : ∃ id, row.cells[index]? = some id :=
    ⟨_, getElem?_eq_getElem (hfit.1.symm ▸ hlt)⟩
  have hdictionary := getElem?_eq_getElem hlt
  have hvalue := getElem?_eq_getElem (hfit.2 index _ _ hid hdictionary)
  refine ⟨id, _, hid, hdictionary, ?_⟩
  simp only [cellValues, getElem?_mapIdx, hid, Option.map_some, Option.join_some,
    cellValueOf, hdictionary]
  by_cases hzero : id = 0
  · exact .inl ⟨hzero, if_pos hzero⟩
  · exact .inr ⟨hzero, _, hvalue, (if_neg hzero).trans hvalue⟩

theorem exists_entry {position : ℕ} (hrow : memory.rows[position]? = some row) :
    ∃ code, memory.codes[position]? = some code ∧
      (view memory).entries[position]? = some (entryOf memory.dictionaries row code) := by
  obtain ⟨code, hcode⟩ : ∃ code, memory.codes[position]? = some code :=
    ⟨_, getElem?_eq_getElem (hmemory.codes_length ▸ (List.getElem?_eq_some_iff.mp hrow).1)⟩
  refine ⟨code, hcode, ?_⟩
  rw [view, getElem?_zipWith_eq_some]
  exact ⟨row, code, hrow, hcode, rfl⟩

/-- The selector of `DeleteItems` tests the item column of the live row. -/
theorem tests_itemSelector (itemColumn : Bytes) (ids prefixes : List Bytes) (data : Bytes) :
    Tests (itemSelector columns memory itemColumn ids prefixes)
      (fun entry ↦ LiveRow.wanted columns itemColumn ids prefixes (liveRow data entry)) 0
        (view memory).entries := by
  intro position entry hentry
  rw [view, getElem?_zipWith_eq_some] at hentry
  obtain ⟨row, _, hrow, _, rfl⟩ := hentry
  have hwanted : itemWanted memory row ids (columnIndexOf columns itemColumn) =
      some ((valueIn columns (cellValues memory.dictionaries row.cells) itemColumn).any
        fun value ↦ ids.contains value.string && !value.null) := by
    cases hindex : columnIndexOf columns itemColumn with
    | none => simp [itemWanted, valueIn, hindex]
    | some index =>
      obtain ⟨id, _, hid, hdictionary, ⟨rfl, hnone⟩ | ⟨hzero, _, hvalue, hsome⟩⟩ :=
        value_of_column hmemory (mem_of_getElem? hrow) (hmemory.lt_dictionaries hindex)
      · simp [itemWanted, valueIn, hindex, hid, hnone]
      · simp [itemWanted, valueIn, hindex, hid, hzero, hdictionary, hvalue, hsome]
  rw [Nat.zero_add]
  simp only [itemSelector, hrow, hwanted, Option.bind_eq_bind, Option.bind_some,
    LiveRow.wanted, liveRow, entryOf]
  cases (valueIn columns (cellValues memory.dictionaries row.cells) itemColumn).any _ <;> rfl

/-- The cells that an update function receives are those of the live row under the requested names.
-/
theorem cellsNamed_eq (hrow : row ∈ memory.rows) (code : Code) (data : Bytes) (names : List Bytes) :
    cellsNamed columns memory row names = some fun name ↦
      if name ∈ names then
        some ((liveRow data (entryOf memory.dictionaries row code)).cell columns name)
      else none := by
  have hcell (name : Bytes) : cellNamed columns memory row name =
      some ((liveRow data (entryOf memory.dictionaries row code)).cell columns name) := by
    simp only [LiveRow.cell, liveRow, entryOf, cellNamed]
    cases hindex : columnIndexOf columns name with
    | none => simp [valueIn, hindex]
    | some index =>
      obtain ⟨id, _, hid, hdictionary, ⟨rfl, hnone⟩ | ⟨hzero, _, hvalue, hsome⟩⟩ :=
        value_of_column hmemory hrow (hmemory.lt_dictionaries hindex)
      · simp [valueIn, hindex, hid, hnone]
      · simp [valueIn, hindex, hid, hzero, hdictionary, hvalue, hsome]
  induction names with
  | nil => simp [cellsNamed]
  | cons name names ih =>
    simp only [cellsNamed, hcell, ih, Option.bind_eq_bind, Option.bind_some]
    refine congrArg some (funext fun other ↦ ?_)
    by_cases hother : other = name <;> simp [hother]

variable {read : Bytes → Bool} {data : Bytes} {names : List Bytes} {position : ℕ}
  {update : RowUpdate} {code : Code}

/-- The batch item of an update changes the live row by the update function, or there is none. -/
theorem change_updateItem (hrow : memory.rows[position]? = some row)
    (hcode : memory.codes[position]? = some code) {outcome : Option BatchItem}
    (hitem : updateItem read data columns memory names position row.id update = .ok outcome)
    (hsize : ∀ item ∈ outcome, item.record.kind = .upsert →
      ∀ blob ∈ item.blob, blob.length < 2 ^ 63) :
    (∀ item ∈ outcome, item.blob.isSome) ∧ outcome.map (BatchItem.change columns.length) =
      ((liveRow data (entryOf memory.dictionaries row code)).updated columns names update).map
        fun shown ↦ (row.id, some shown) := by
  have hmem := mem_of_getElem? hrow
  unfold updateItem recordOf at hitem
  simp only [hrow, hcode, Option.bind_eq_bind, Option.bind_some, Option.pure_def] at hitem
  split_ifs at hitem with hread
  cases htexts : readBlob data row.id row.dataOffset row.dataLength with
  | error failure => simp [htexts] at hitem
  | ok texts =>
    obtain ⟨content, metadata⟩ := texts
    have hshown : (liveRow data (entryOf memory.dictionaries row code)).texts =
        .ok (content, metadata) := htexts
    have hid : (liveRow data (entryOf memory.dictionaries row code)).id = row.id := rfl
    simp only [htexts, cellsNamed_eq hmemory hmem code data names] at hitem
    simp only [LiveRow.updated, hshown, hid]
    cases hupdate : update row.id metadata _ with
    | error => simp [hupdate] at hitem
    | ok result =>
      cases result with
      | none =>
        simp only [hupdate, Except.ok.injEq] at hitem
        simp [← hitem]
      | some result =>
        obtain ⟨nextMetadata, scalars⟩ := result
        cases hnew : declaredCells columns .updateColumn scalars.entries with
        | error => simp [hupdate, hnew] at hitem
        | ok new =>
          simp only [hupdate, hnew, Except.ok.injEq, recordOfRow_eq] at hitem
          subst hitem
          have hdeclared := declaredCells_eq_ok hnew
          have hvalues :=
            @setCells_eq_shownCells columns _
              (cellValues memory.dictionaries row.cells) _ _ hdeclared
            (overwrites_replaceCells (nodup_declaredCells hdeclared scalars.names_nodup))
          have hlength : (cellValues memory.dictionaries row.cells).length = columns.length := by
            rw [cellValues, length_mapIdx, (hmemory.cells_fit row hmem).1,
              hmemory.dictionaries_length]
          rw [hlength] at hvalues
          simp [BatchItem.change, recordOfEntry, liveRow, entryOfRecord, RowRecord.placeAt, entryOf,
            hvalues, readBlob_encodeBlob (hsize _ rfl rfl _ rfl)]

end

section

variable {disk : Disk} {stored : CodeCollection} (hcoherent : Coherent stored.width stored.memory)
  {id : Bytes}
include hcoherent

theorem rows_eq_none (hposition : stored.memory.byID id = none) :
    (documents disk stored).rows id = none := by
  rw [hcoherent.indexes.eq_none_iff, ← map_id_view hcoherent] at hposition
  rw [rows_documents, Function.comp_apply, lookup_eq_none_iff.mpr hposition, Option.map_none]

theorem rows_eq_some {position : ℕ} (hposition : stored.memory.byID id = some position) :
    ∃ row code, stored.memory.rows[position]? = some row ∧
      stored.memory.codes[position]? = some code ∧ row.id = id ∧
      (documents disk stored).rows id = some (liveRow (disk.files.contents stored.dataFile)
        (entryOf stored.memory.dictionaries row code)) := by
  have hid := (hcoherent.indexes id position).mp hposition
  rw [getElem?_map, Option.map_eq_some_iff] at hid
  obtain ⟨row, hrow, hid⟩ := hid
  obtain ⟨code, hcode, hentry⟩ := exists_entry hcoherent hrow
  have hfound := (lookup_eq_some_iff (nodup_view hcoherent)).mpr ⟨mem_of_getElem? hentry, hid⟩
  exact ⟨row, code, hrow, hcode, hid,
    by rw [rows_documents, Function.comp_apply, hfound, Option.map_some]⟩

/-- The batch of an `UpdateRows` changes each live row by its update function; missing rows are left
out. -/
theorem map_change_updateBatch {read : Bytes → Bool} {names : List Bytes}
    {calls : List (Bytes × RowUpdate)} {batch : List BatchItem}
    (hbatch : updateBatch read (disk.files.contents stored.dataFile) stored.header.columns
      stored.memory names calls = .ok batch)
    (hsize : ∀ item ∈ batch, item.record.kind = .upsert →
      ∀ blob ∈ item.blob, blob.length < 2 ^ 63) :
    (∀ item ∈ batch, item.blob.isSome) ∧
      batch.map (BatchItem.change stored.width) = calls.filterMap fun call ↦
      (((documents disk stored).rows call.1).bind
        (LiveRow.updated stored.header.columns names call.2)).map
        fun row ↦ (call.1, some row) := by
  induction calls generalizing batch with
  | nil =>
    simp only [updateBatch, Except.ok.injEq] at hbatch
    simp [← hbatch]
  | cons call calls ih =>
    obtain ⟨id, update⟩ := call
    rw [updateBatch] at hbatch
    cases hposition : stored.memory.byID id with
    | none =>
      simp only [hposition] at hbatch
      rw [filterMap_cons, rows_eq_none hcoherent hposition]
      exact ih hbatch hsize
    | some position =>
      obtain ⟨row, code, hrow, hcode, rfl, hshown⟩ :=
        @rows_eq_some disk stored hcoherent id position hposition
      simp only [hposition] at hbatch
      cases hitem : updateItem read
        (disk.files.contents stored.dataFile) stored.header.columns stored.memory names
          position row.id update with
      | error => simp [hitem] at hbatch
      | ok outcome =>
        cases hrest : updateBatch read
          (disk.files.contents stored.dataFile) stored.header.columns stored.memory
            names calls with
        | error => simp [hitem, hrest] at hbatch
        | ok items =>
          simp only [hitem, hrest, Except.ok.injEq] at hbatch
          subst hbatch
          rw [forall_mem_append] at hsize
          obtain ⟨hsome, hchange⟩ := change_updateItem hcoherent hrow hcode hitem
            fun item hmem ↦ hsize.1 item (Option.mem_toList.mpr hmem)
          obtain ⟨hblobs, hchanges⟩ := ih hrest hsize.2
          refine ⟨forall_mem_append.mpr
            ⟨fun item hmem ↦ hsome item (Option.mem_toList.mp hmem), hblobs⟩, ?_⟩
          have hfirst : outcome.toList.map (BatchItem.change stored.width) = _ :=
            Option.toList_map.symm.trans (congrArg Option.toList hchange)
          rw [map_append, hchanges, hfirst, filterMap_cons, hshown, Option.bind_some]
          cases LiveRow.updated stored.header.columns names update _ <;> rfl

end

/-! ### Operations on a current handle -/

section

variable [Externals] {disk : Disk} {stored : CodeCollection} (hcurrent : Current disk stored)
  {faults : OperationFaults}
include hcurrent

/-- A successful `Upsert` performs the abstract one on the documents. -/
theorem documents_upsert {rows : List UpsertRow}
    (hfits : ∀ row ∈ rows, row.scalars.Fits stored.header.columns)
    (hok : (upsert faults disk stored rows).failure = none) :
    documents (upsert faults disk stored rows).disk (upsert faults disk stored rows).stored =
      (documents disk stored).perform (.upsert rows) := by
  unfold upsert at hok ⊢
  cases hbatch : upsertBatch stored.header.columns rows with
  | error => simp [hbatch] at hok
  | ok batch =>
    simp only [hbatch] at hok ⊢
    obtain ⟨hblobs, hchanges⟩ := map_change_upsertBatch hbatch (length_blob_lt hok)
    rw [documents_write hcurrent (writable_upsertBatch hfits hbatch stored.dataSize)
      (fun item hitem _ ↦ hblobs item hitem) hok, CodeCollection.width, hchanges]
    rfl

theorem documents_writeCounted {batch : List BatchItem}
    (hbatch : ∀ item ∈ batch, item.Writable stored.header.columns stored.dataSize)
    (hblobs : ∀ item ∈ batch, item.record.kind = .upsert → item.blob.isSome)
    (hok : (writeCounted faults disk stored (.ok batch)).result.failure = none) :
    documents (writeCounted faults disk stored (.ok batch)).result.disk
        (writeCounted faults disk stored (.ok batch)).result.stored =
      { columns := stored.header.columns
        rows := updates (documents disk stored).rows
          (batch.map (BatchItem.change stored.width)) } := by
  cases batch with
  | nil => rfl
  | cons item batch => exact documents_write hcurrent hbatch hblobs hok

/-- A successful deletion removes the documents that pass the test. -/
theorem documents_deleteWhere {selected : ℕ → Option Bool} {test : LiveRow → Bool}
    (htests : Tests selected (fun entry ↦
      test (liveRow (disk.files.contents stored.dataFile) entry)) 0
      (view stored.memory).entries)
    (hok : (deleteWhere faults disk stored selected).result.failure = none) :
    documents (deleteWhere faults disk stored selected).result.disk
        (deleteWhere faults disk stored selected).result.stored =
          (documents disk stored).remove test := by
  have hcoherent := hcurrent.reflects.coherent
  have hnodup := nodup_view hcoherent
  have hbatch := deleteBatch_ok (map_id_view hcoherent) htests
  rw [deleteWhere, hbatch] at hok ⊢
  rw [documents_writeCounted hcurrent (writable_deleteBatch hbatch _ _) ?_ hok, List.map_map]
  · refine congrArg (Documents.mk _) ((updates_none _ _).trans (funext fun id ↦ ?_))
    simp only [rows_documents, Function.comp_apply]
    cases hfound : KeyedRows.lookup Entry.id (view stored.memory).entries id with
    | none => simp
    | some entry =>
      obtain ⟨hentry, rfl⟩ := (lookup_eq_some_iff hnodup).mp hfound
      by_cases htest : test (liveRow (disk.files.contents stored.dataFile) entry) = true
      · rw [if_pos (mem_map_of_mem (mem_filter.mpr ⟨hentry, htest⟩))]
        simp [htest, Option.filter]
      · rw [if_neg ?_]
        · simp [htest, Option.filter]
        intro hmem
        obtain ⟨other, hother, hsame⟩ := mem_map.mp hmem
        rw [mem_filter] at hother
        exact htest (inj_on_of_nodup_map hnodup hother.1 hentry hsame ▸ hother.2)
  · intro item hitem hkind
    obtain ⟨_, _, rfl⟩ := mem_map.mp hitem
    exact absurd hkind (by simp [deleteItem, emptyRecord])

/-- Adding columns gives every document a cell without a value for each of them. -/
theorem documents_ensureColumns {faults : HeaderFaults} (dimension : ℕ)
    {requested : List ScalarColumn}
    (hok : (ensureColumns faults disk stored requested).failure = none) :
    documents (ensureColumns faults disk stored requested).disk
      (ensureColumns faults disk stored requested).stored =
      (documents disk stored).perform (.ensureCollection dimension requested) := by
  have hend := ensureColumns_spec hcurrent faults requested
  generalize ensureColumns faults disk stored requested = result at hok hend
  have hwiden {next : Disk} {after : CodeCollection} {added : List ScalarColumn}
      (hadded : added = requested.filter fun column ↦ (stored.columnIndex column.name).isNone)
      (hcolumns : after.header.columns = stored.header.columns ++ added)
      (hrows : liveRows next after = (liveRows disk stored).map (LiveRow.widen added.length)) :
      documents next after = (documents disk stored).perform
        (.ensureCollection dimension requested) := by
    rw [documents, hrows, hcolumns, hadded]
    exact congrArg (Documents.mk _) (funext fun id ↦ find?_map)
  cases hend with
  | unchanged hdeclared =>
    refine @hwiden disk stored [] (filter_eq_nil_iff.mpr ?_).symm (append_nil _).symm
      (map_widen_zero _).symm
    intro column hcolumn
    simpa using hdeclared hok column hcolumn
  | replaced => simp at hok
  | widened hadded hheader hview => exact hwiden hadded hheader (liveRows_widenHandle hview _)

/-- An operation that succeeds does to the documents what it is for. Assumes: the values given fit
the declared columns. -/
theorem documents_perform {operation : Operation} (hfits : operation.Fits stored.header.columns)
    (hok : (perform faults disk stored operation).failure = none) :
    documents (perform faults disk stored operation).disk
      (perform faults disk stored operation).stored =
      (documents disk stored).perform operation := by
  have hcoherent := hcurrent.reflects.coherent
  cases operation with
  | ensureCollection dimension => exact documents_ensureColumns hcurrent dimension hok
  | upsert => exact documents_upsert hcurrent hfits hok
  | deleteItems itemColumn ids prefixes =>
    have htests := tests_itemSelector hcoherent itemColumn ids prefixes
    exact documents_deleteWhere hcurrent (htests _) hok
  | delete filter =>
    simp only [perform, delete] at hok ⊢
    cases hcompile : compileFilter stored.header.columns stored.memory filter with
    | error => simp [hcompile] at hok
    | ok selects =>
      simp only [hcompile] at hok ⊢
      refine documents_deleteWhere hcurrent (fun position entry hentry ↦ ?_) hok
      dsimp only
      rw [Nat.zero_add, compileFilter_eq hcoherent hentry filter hcompile]
      rfl
  | updateRows names calls =>
    simp only [perform, updateRows] at hok ⊢
    cases hbatch : updateBatch faults.read
      (disk.files.contents stored.dataFile) stored.header.columns stored.memory
        names calls with
    | error => simp [hbatch, writeCounted] at hok
    | ok batch =>
      rw [hbatch] at hok
      have hsize : ∀ item ∈ batch, item.record.kind = .upsert → ∀ blob ∈ item.blob,
          blob.length < 2 ^ 63 := by
        cases batch with
        | nil => simp
        | cons => exact length_blob_lt hok
      obtain ⟨hblobs, hchanges⟩ := map_change_updateBatch hcoherent hbatch hsize
      rw [documents_writeCounted hcurrent
        (writable_updateBatch hcurrent.reflects.entry_valid hfits hbatch stored.dataSize)
        (fun item hitem _ ↦ hblobs item hitem) hok, hchanges]
      rfl

end

/-! ### Calls of a store -/

section

variable [Externals] {session : Session} {shown : Documents}

/-- Every header of the row log is read. -/
structure LockFaults.ReadsHeaders (faults : LockFaults) : Prop where
  load : faults.load.log.ReadsHeaders
  sync : faults.sync.log.ReadsHeaders

structure CallFaults.ReadsHeaders (faults : CallFaults) : Prop where
  lock : faults.lock.ReadsHeaders
  relock : faults.relock.ReadsHeaders

/-- Locking the collection does not change the documents. -/
theorem lockedCollection_shows (hready : session.Ready) (hshows : session.disk.Shows shown)
    {faults : LockFaults} (hheaders : faults.ReadsHeaders) :
    (lockedCollection faults session).1.disk.Shows shown := by
  have hopened : (openedCollection faults.load session).1.disk.Shows shown := by
    have hload := hshows.load hheaders.load
    unfold openedCollection
    split
    · exact hshows
    · split
      · next hloaded => rwa [hloaded] at hload
      · next hloaded => rwa [hloaded] at hload
  obtain ⟨_, _, hcurrent⟩ := openedCollection_spec hready faults.load
  unfold lockedCollection
  generalize openedCollection faults.load session = opening at hopened hcurrent
  obtain ⟨opened, outcome⟩ := opening
  cases outcome with
  | error => exact hopened
  | ok stored => exact hopened.lockForWrite (hcurrent stored rfl) hheaders.sync

theorem createCollection_of_shows {disk : Disk} (hshows : disk.Shows shown) (faults : CreateFaults)
    (columns : List ScalarColumn) : (createCollection faults disk columns).1 = disk := by
  obtain ⟨_, hcurrent, _⟩ := hshows
  obtain ⟨_, hheader⟩ := hcurrent.exists_header
  have hread := readHeader_eq_ok.mpr ⟨hheader, hcurrent.format⟩
  simp only [createCollection, hread]

variable {operation : Operation} {faults : CallFaults}

/-- Opening the handle for an operation does not change the documents. -/
theorem handleFor_shows (hready : session.Ready) (hshows : session.disk.Shows shown)
    (hheaders : faults.ReadsHeaders) {next : Session} {stored : CodeCollection}
    (hhandle : handleFor faults session operation = (next, .ok stored)) :
    next.disk.Shows shown := by
  have hlocked := lockedCollection_shows hready hshows hheaders.lock
  cases operation with
  | upsert | delete | deleteItems | updateRows =>
    rw [show lockedCollection faults.lock session = (next, .ok stored) from hhandle] at hlocked
    exact hlocked
  | ensureCollection dimension columns =>
    simp only [handleFor, ensuredCollection] at hhandle
    split_ifs at hhandle with hdimension
    · simp at hhandle
    obtain ⟨hopened, _⟩ := lockedCollection_spec hready faults.lock
    generalize lockedCollection faults.lock session = locking at hhandle hlocked hopened
    obtain ⟨opened, outcome⟩ := locking
    cases outcome with
    | ok =>
      simp only [Prod.mk.injEq] at hhandle
      exact hhandle.1 ▸ hlocked
    | error failure =>
      simp only at hhandle hlocked hopened
      split_ifs at hhandle with hmissing
      · simp at hhandle
      have hcreated := createCollection_of_shows hlocked faults.create columns
      generalize createCollection faults.create opened.disk columns = creating at hhandle hcreated
      obtain ⟨created, outcome⟩ := creating
      obtain rfl : created = opened.disk := hcreated
      cases outcome with
      | some => simp at hhandle
      | none =>
        have hrelocked := lockedCollection_shows hopened hlocked hheaders.relock
        simp only at hhandle
        rw [hhandle] at hrelocked
        exact hrelocked

/-- One call that succeeds performs its operation on the documents. -/
theorem call_shows (hready : session.Ready) (hshows : session.disk.Shows shown)
    (hheaders : faults.ReadsHeaders) (hfits : operation.Fits session.disk.columns)
    (hcall : (call faults session operation).2 = none) :
    (call faults session operation).1.disk.Shows (shown.perform operation) := by
  unfold call at hcall ⊢
  cases hhandle : handleFor faults session operation with
  | mk opened outcome =>
    cases outcome with
    | error => simp [hhandle] at hcall
    | ok stored =>
      simp only [hhandle] at hcall ⊢
      have hlocked : Current opened.disk stored ∧ operation.Fits stored.header.columns := by
        rcases handleFor_spec hready hhandle with hlocked | ⟨_, hcurrent, _, _, rfl⟩
        · exact ⟨hlocked.current, hlocked.columns_eq ▸ hfits⟩
        · exact ⟨hcurrent, trivial⟩
      have hnext := (perform_spec hlocked.1 faults.operation hlocked.2).current hlocked.1 hcall
      refine ⟨_, hnext, (documents_perform hlocked.1 hlocked.2 hcall).trans ?_⟩
      rw [(handleFor_shows hready hshows hheaders hhandle).documents_eq hlocked.1]

/-- Successful calls in order, in which every header of the row log is read; between any two of them
a compaction, or a new store that keeps no handle. -/
inductive Performs (start : Session) : List Operation → Session → Prop
  | refl : Performs start [] start
  | call {session : Session} {operations : List Operation}
    (hrun : Performs start operations session)
    (faults : CallFaults) (hheaders : faults.ReadsHeaders) (operation : Operation)
    (hfits : operation.Fits session.disk.columns)
    (hcall : (call faults session operation).2 = none) :
    Performs start (operations ++ [operation]) (call faults session operation).1
  | compact {session : Session} {operations : List Operation} {stored : CodeCollection}
    (hrun : Performs start operations session) (hcached : session.cached = some stored)
      (faults : CompactFaults) :
    Performs start operations
      { disk := (compact faults session.disk stored).disk
        cached := some (compact faults session.disk stored).stored }
  | restart {session : Session} {operations : List Operation}
    (hrun : Performs start operations session) :
    Performs start operations { session with cached := none }

/-- After any run of successful calls, opening the directory shows the documents that the operations
leave of those at the start, and so does the kept handle. Assumes: the kept handle is current at the
start. -/
theorem documents_of_run {start : Session} (hstart : start.Ready) (hshows : start.disk.Shows shown)
    {operations : List Operation} (hrun : Performs start operations session)
    (kept : GenerationFile → Bool) :
    (∃ next fresh, loadCollection ⟨.none, kept⟩ session.disk = (next, .ok fresh) ∧
      documents next fresh = operations.foldl Documents.perform shown) ∧
    ∀ stored, session.cached = some stored →
      documents session.disk stored = operations.foldl Documents.perform shown := by
  have hinvariant : session.Ready ∧
      session.disk.Shows (operations.foldl Documents.perform shown) := by
    induction hrun with
    | refl => exact ⟨hstart, hshows⟩
    | call _ faults hheaders _ hfits hcall ih =>
      rw [foldl_append]
      exact ⟨ready_call ih.1 hfits hcall, call_shows ih.1 ih.2 hheaders hfits hcall⟩
    | compact _ hcached faults ih =>
      have hcurrent := ih.1 _ hcached
      have hnext := current_compact hcurrent faults
      refine ⟨fun _ hkept ↦ Option.some.inj hkept ▸ hnext, _, hnext, ?_⟩
      rw [documents_compact hcurrent, ih.2.documents_eq hcurrent]
    | restart _ ih => exact ⟨by simp [Session.Ready], ih.2⟩
  obtain ⟨hready, hfinal⟩ := hinvariant
  refine ⟨?_, fun stored hcached ↦ hfinal.documents_eq (hready stored hcached)⟩
  obtain ⟨stored, hcurrent, hdocuments⟩ := hfinal
  obtain ⟨next, fresh, hload, hsame⟩ := documents_of_load hcurrent kept
  exact ⟨next, fresh, hload, hsame.trans hdocuments⟩

end

theorem documents_of_run_sample :
    ∃ next fresh, @loadCollection sampleExternals noLoadFaults
        (@call sampleExternals sampleCallFaults createdSession (.upsert [sampleUpsert])).1.disk =
          (next, .ok fresh) ∧
      (documents next fresh).rows sampleUpsert.id = some (sampleUpsert.shown sampleColumns) := by
  let _ := sampleExternals
  have hready : createdSession.Ready :=
    ready_call (by simp [Session.Ready, emptySession]) trivial (by decide +kernel)
  obtain ⟨stored, hstored⟩ :=
    Option.isSome_iff_exists.mp (by decide +kernel : createdSession.cached.isSome)
  have hcurrent := hready stored hstored
  have hcolumns : stored.header.columns = sampleColumns :=
    hcurrent.columns_eq.symm.trans (by decide +kernel)
  have hheaders : noLoadFaults.log.ReadsHeaders := fun _ ↦ rfl
  have hrun :=
    Performs.call .refl sampleCallFaults ⟨⟨hheaders, hheaders⟩, hheaders,
      hheaders⟩ _ fits_sampleUpsert
    (by decide +kernel)
  obtain ⟨⟨next, fresh, hload, hdocuments⟩, _⟩ :=
    documents_of_run hready ⟨stored, hcurrent, rfl⟩ hrun fun _ ↦ false
  refine ⟨next, fresh, hload, ?_⟩
  rw [hdocuments, ← hcolumns]
  simp [Documents.perform, updates, documents]

end Clyde.CodeStore
