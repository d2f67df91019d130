import Clyde.CodeStore.Coherence

/-!
# Creating a collection and adding columns

`codestore/store.go`, `EnsureCollection` and `createCollection`. Adding columns replaces the header,
gives each new column an empty dictionary and pads the rows in memory. The records of the log leave
the same rows under more columns, with the new cells absent (`Table.applyAll_widen`), so a handle
that added columns is current (`ensureColumns_spec`).

Scope. The replaced header reads back as it was written, as it does when the column names are UTF-8
text. The directory of the collection can be created.
-/

set_option autoImplicit false

namespace Clyde.CodeStore

open Foundation ByteCodec KeyedRows List Table

/-! ### The code -/

structure HeaderFaults where
  replace : Bool
  directory : Bool
  identity : Bool
  info : FileInfo

def writeHeader (faults : HeaderFaults) (disk : Disk) (header : CollectionHeader) :
    Disk × Option Failure :=
  if faults.replace then (disk, some .replaceHeader)
  else
    ({ disk with header := some (header, faults.info) },
      if faults.directory then some .syncDirectory else none)

def padRows (memory : Memory) (width : ℕ) : Memory :=
  { memory with
    rows := memory.rows.map fun row ↦
      { row with cells := row.cells ++ List.replicate (width - row.cells.length) 0 } }

structure CreateFaults where
  create : GenerationFile → Bool
  sync : GenerationFile → Bool
  header : HeaderFaults

/-- Creates generation files that are missing. The bytes of an existing file stay. -/
def initializeGenerationFiles (faults : CreateFaults) (generation : Int64) :
    List FileKind → Disk → Disk × Option Failure
  | [], disk => (disk, none)
  | kind :: rest, disk =>
    if faults.create ⟨kind, generation⟩ then (disk, some (.createFile ⟨kind, generation⟩))
    else
      let created := { disk with files := disk.files.create ⟨kind, generation⟩ }
      if faults.sync ⟨kind, generation⟩ then (created, some (.syncFile ⟨kind, generation⟩))
      else initializeGenerationFiles faults generation rest created

def createCollection (faults : CreateFaults) (disk : Disk) (columns : List ScalarColumn) :
    Disk × Option Failure :=
  match readHeader disk with
  | .ok _ => (disk, none)
  | .error failure =>
    if failure ≠ .collectionMissing then (disk, some failure)
    else if hcolumns : columns.length < 2 ^ 63 then
      match initializeGenerationFiles faults 0 [.rows, .data] disk with
      | (created, some failure) => (created, some failure)
      | (created, none) =>
        writeHeader faults.header created
          { columns := columns, columns_length := hcolumns, generation := 0
            frameFormat := frameFormatLengthCRC }
    else (disk, some .panic)

variable [Externals]

def widenHandle (faults : HeaderFaults) (stored : CodeCollection) (header : CollectionHeader) :
    CodeCollection :=
  { stored with
    header := header
    memory := padRows (addDictionaries stored.memory header.columns.length) header.columns.length
    headerInfo := if faults.identity then none else some faults.info }

/-- Adds the requested columns whose names are not declared. -/
def ensureColumns (faults : HeaderFaults) (disk : Disk) (stored : CodeCollection)
    (requested : List ScalarColumn) : HandleResult :=
  let added := requested.filter fun column ↦ (stored.columnIndex column.name).isNone
  if added = [] then { disk := disk, stored := stored, failure := none }
  else if hcolumns : (stored.header.columns ++ added).length < 2 ^ 63 then
    let header :=
      { stored.header with
        columns := stored.header.columns ++ added
        columns_length := hcolumns }
    match writeHeader faults disk header with
    | (written, some failure) => { disk := written, stored := stored, failure := some failure }
    | (written, none) =>
      { disk := written, stored := widenHandle faults stored header
        failure := if faults.identity then some .inspectHeader else none }
  else { disk := disk, stored := stored, failure := some .panic }

/-! ### Rows with more columns -/

def Entry.widen (extra : ℕ) (entry : Entry) : Entry :=
  { entry with cells := entry.cells ++ List.replicate extra none }

def Table.widen (extra : ℕ) (table : Table) : Table :=
  { table with entries := table.entries.map (Entry.widen extra) }

omit [Externals] in
theorem map_id_widen (extra : ℕ) (table : Table) :
    (table.widen extra).entries.map Entry.id = table.entries.map Entry.id := by
  rw [widen, map_map]
  rfl

omit [Externals] in
theorem position_widen (extra : ℕ) (table : Table) (id : Bytes) :
    (table.widen extra).position id = table.position id := by
  rw [Table.position, map_id_widen, Table.position]

omit [Externals] in
theorem setCells_append {cells : List StoredCell} {values : List (Option ScalarValue)}
    (hcolumns : ∀ cell ∈ cells, cell.column < values.length) (more : List (Option ScalarValue)) :
    setCells (values ++ more) cells = setCells values cells ++ more := by
  induction cells generalizing values with
  | nil => rfl
  | cons cell _ ih =>
    have hlt := hcolumns cell (by simp)
    rw [setCells, foldl_cons, ← setCells, set_append_left _ _ hlt,
      ih (by simpa using fun other hother ↦ hcolumns other (by simp [hother])), setCells, setCells,
      foldl_cons]

variable {width : ℕ} {record : RowRecord}

omit [Externals] in
theorem entryOfRecord_widen (hcolumns : ∀ cell ∈ record.cells, cell.column < width) (extra : ℕ) :
    entryOfRecord (width + extra) record = (entryOfRecord width record).widen extra := by
  have hcells := @setCells_append _ (List.replicate width none) (by simpa using hcolumns)
    (List.replicate extra none)
  rw [← replicate_add] at hcells
  rw [entryOfRecord, hcells, Entry.widen, entryOfRecord]

omit [Externals] in
/-- Applying a record commutes with adding columns at the end. -/
theorem Table.apply_widen (hcolumns : ∀ cell ∈ record.cells, cell.column < width)
    (extra : ℕ) (table : Table) :
    (table.widen extra).apply (width + extra) record = (table.apply width record).widen extra := by
  cases hkind : record.kind with
  | delete =>
    simp only [apply, hkind, delete, position_widen]
    cases table.position record.id with
    | none => rfl
    | some position => simp only [widen, map_swapRemove]
  | upsert =>
    have hid : ((entryOfRecord width record).widen extra).id = record.id := rfl
    have hsame : (entryOfRecord width record).id = record.id := rfl
    simp only [apply, hkind, put, entryOfRecord_widen hcolumns, position_widen, hid, hsame]
    cases table.position record.id with
    | none => simp [widen]
    | some => simp [widen, map_set]

omit [Externals] in
theorem Table.applyAll_widen {records : List RowRecord}
    (hcolumns : ∀ record ∈ records, ∀ cell ∈ record.cells, cell.column < width) (extra : ℕ)
    (table : Table) : (table.widen extra).applyAll (width + extra) records =
      (table.applyAll width records).widen extra := by
  induction records generalizing table with
  | nil => rfl
  | cons record _ ih =>
    rw [applyAll, foldl_cons, apply_widen (hcolumns record (by simp)),
      ← applyAll, ih fun other hother ↦ hcolumns other (by simp [hother]), applyAll,
      applyAll, foldl_cons]

/-! ### Padded memory -/

def widenMemory (memory : Memory) (extra : ℕ) : Memory :=
  { memory with
    dictionaries := memory.dictionaries ++ List.replicate extra newDictionary
    rows := memory.rows.map fun row ↦ { row with cells := row.cells ++ List.replicate extra 0 } }

variable {memory : Memory}

theorem padRows_addDictionaries (hmemory : Coherent width memory) (extra : ℕ) :
    padRows (addDictionaries memory (width + extra)) (width + extra) =
      widenMemory memory extra := by
  have hrows : memory.rows.map (fun row ↦ ({ row with
      cells := row.cells ++ List.replicate (width + extra - row.cells.length) 0 } : Row)) =
      memory.rows.map fun row ↦ { row with cells := row.cells ++ List.replicate extra 0 } := by
    refine map_congr_left fun row hrow ↦ ?_
    have hlength := (hmemory.cells_fit row hrow).1.trans hmemory.dictionaries_length
    rw [hlength, Nat.add_sub_cancel_left]
  simp [padRows, addDictionaries, widenMemory, hrows, hmemory.dictionaries_length]

variable {dictionaries : List Dictionary} {cells : List ℕ}

omit [Externals] in
theorem cellsFit_append (hfit : CellsFit dictionaries cells) (more : List Dictionary) :
    CellsFit (dictionaries ++ more) (cells ++ List.replicate more.length 0) := by
  refine ⟨by simp [hfit.1], fun column id dictionary hid hdictionary ↦ ?_⟩
  by_cases hlt : column < cells.length
  · rw [getElem?_append_left hlt] at hid
    rw [getElem?_append_left (hfit.1 ▸ hlt)] at hdictionary
    exact hfit.2 column id dictionary hid hdictionary
  · rw [getElem?_append_right (not_lt.mp hlt)] at hid
    rw [eq_of_mem_replicate (mem_of_getElem? hid)]
    exact length_pos_of_ne_nil dictionary.values_ne_nil

omit [Externals] in
theorem cellValues_append (hlength : cells.length = dictionaries.length)
    (more : List Dictionary) (extra : ℕ) :
    cellValues (dictionaries ++ more) (cells ++ List.replicate extra 0) =
      cellValues dictionaries cells ++ List.replicate extra none := by
  rw [cellValues, mapIdx_append, cellValues]
  congr 1
  · refine ext_getElem? fun column ↦ ?_
    rw [getElem?_mapIdx, getElem?_mapIdx]
    cases hid : cells[column]? with
    | none => rfl
    | some =>
      have hlt := (List.getElem?_eq_some_iff.mp hid).1
      simp only [Option.map_some, cellValueOf, getElem?_append_left (hlength ▸ hlt)]
  refine ext_getElem? fun column ↦ ?_
  rw [getElem?_mapIdx, getElem?_replicate, getElem?_replicate]
  split_ifs with hlt
  · rfl
  · rfl

theorem coherent_widenMemory (hmemory : Coherent width memory)
    (extra : ℕ) : Coherent (width + extra) (widenMemory memory extra) where
  codes_length := by simp [widenMemory, hmemory.codes_length]
  dictionaries_length := by simp [widenMemory, hmemory.dictionaries_length]
  indexes := by
    have hids : (widenMemory memory extra).rows.map Row.id = memory.rows.map Row.id := by
      simp [widenMemory, Function.comp_def]
    rw [hids]
    exact hmemory.indexes
  cells_fit row hrow := by
    obtain ⟨old, hold, rfl⟩ := mem_map.mp hrow
    have hfit := cellsFit_append (hmemory.cells_fit old hold) (List.replicate extra newDictionary)
    rwa [length_replicate] at hfit

/-- The rows with the added columns show the old cells and no value in the new ones. -/
theorem view_widenMemory (hmemory : Coherent width memory)
    (extra : ℕ) : view (widenMemory memory extra) = (view memory).widen extra := by
  have hentries : (view (widenMemory memory extra)).entries =
      ((view memory).widen extra).entries := by
    simp only [view, widenMemory, widen, zipWith_map_left, map_zipWith]
    refine ext_getElem? fun position ↦ ?_
    rw [getElem?_zipWith, getElem?_zipWith]
    cases hrow : memory.rows[position]? with
    | none => rfl
    | some row =>
      cases memory.codes[position]? with
      | none => rfl
      | some =>
        have hfit := hmemory.cells_fit row (mem_of_getElem? hrow)
        simp [entryOf, Entry.widen, cellValues_append hfit.1]
  exact congrArg (mk · memory.dead) hentries

omit [Externals] in
theorem containsAt_append {column : ℕ} {value : ScalarValue}
    (hvalue : ContainsAt dictionaries column value) (more : List Dictionary) :
    ContainsAt (dictionaries ++ more) column value := by
  obtain ⟨dictionary, hdictionary, hcontains⟩ := hvalue
  refine ⟨dictionary, ?_, hcontains⟩
  rw [List.getElem?_append_left (List.getElem?_eq_some_iff.mp hdictionary).1, hdictionary]

/-- The rows with the added columns are what the same log leaves under the wider header. -/
theorem Reflects.widen {header wider : CollectionHeader} {added : List ScalarColumn}
    (hcolumns : wider.columns = header.columns ++ added)
    (hformat : wider.frameFormat = header.frameFormat) {dataSize : ℕ} {log : Bytes}
    {stop : ℕ} (hreflects : Reflects header dataSize log memory stop) :
    Reflects wider dataSize log (widenMemory memory added.length) stop := by
  have hwidth : wider.columns.length = header.columns.length + added.length := by
    rw [hcolumns, length_append]
  obtain ⟨records, haccepted, hview, hvalues⟩ := hreflects.chain
  have hinside : ∀ record ∈ records, ∀ cell ∈ record.cells,
      cell.column < header.columns.length := by
    intro record hrecord cell hcell
    obtain ⟨column, hcolumn, _⟩ := (haccepted.valid record hrecord).cells_match cell hcell
    exact (List.getElem?_eq_some_iff.mp hcolumn).1
  refine ⟨hwidth ▸ coherent_widenMemory hreflects.coherent _, records, ?_, ?_, ?_⟩
  · exact haccepted.mono hformat ⟨added, hcolumns.symm⟩ le_rfl
  · rw [view_widenMemory hreflects.coherent, hview, hwidth, ← applyAll_widen hinside]
    rfl
  · intro record hrecord column value hcell
    exact containsAt_append (hvalues record hrecord column value hcell) _

/-! ### What the header changes leave -/

/-- Nothing changes, the header is replaced and the handle does not know it, or the handle is
current. -/
inductive SchemaEnd (faults : HeaderFaults) (disk : Disk) (stored : CodeCollection)
    (requested : List ScalarColumn) : HandleResult → Prop
  | unchanged {failure : Option Failure}
    (hdeclared : failure = none → ∀ column ∈ requested, stored.columnIndex column.name ≠ none) :
    SchemaEnd faults disk stored requested { disk := disk, stored := stored, failure := failure }
  | replaced {header : CollectionHeader} {extra : ℕ} {failure : Failure}
    (hview : view (widenHandle faults stored header).memory = (view stored.memory).widen extra)
    (hcurrent : Current { disk with header := some (header, faults.info) }
      (widenHandle faults stored header)) :
    SchemaEnd faults disk stored requested
      { disk := { disk with header := some (header, faults.info) }, stored := stored
        failure := some failure }
  | widened {header : CollectionHeader} {added : List ScalarColumn} {failure : Option Failure}
    (hadded : added = requested.filter fun column ↦ (stored.columnIndex column.name).isNone)
    (hheader : header.columns = stored.header.columns ++ added)
    (hview : view (widenHandle faults stored header).memory =
      (view stored.memory).widen added.length)
    (hcurrent : Current { disk with header := some (header, faults.info) }
      (widenHandle faults stored header))
    (hidentity : failure = none → faults.identity = false) :
    SchemaEnd faults disk stored requested
      { disk := { disk with header := some (header, faults.info) }
        stored := widenHandle faults stored header, failure := failure }

/-- The handle with the added columns is current under the wider header. -/
theorem current_widenHandle {disk : Disk} {stored : CodeCollection}
    (hcurrent : Current disk stored) (faults : HeaderFaults) {header : CollectionHeader}
    {added : List ScalarColumn} (hcolumns : header.columns = stored.header.columns ++ added)
    (hformat : header.frameFormat = stored.header.frameFormat)
    (hgeneration : header.generation = stored.header.generation) :
    Current { disk with header := some (header, faults.info) } (widenHandle faults stored header) ∧
      view (widenHandle faults stored header).memory = (view stored.memory).widen added.length := by
  have hcoherent := hcurrent.reflects.coherent
  have hwidth : header.columns.length = stored.header.columns.length + added.length := by
    rw [hcolumns, length_append]
  have hmemory : (widenHandle faults stored header).memory =
      widenMemory stored.memory added.length := by
    rw [widenHandle, hwidth]
    exact padRows_addDictionaries hcoherent _
  refine ⟨⟨⟨⟨rfl, ?_, ?_, ?_, hcurrent.dataSize_le, ?_⟩, hcurrent.logSize_eq⟩,
    hcurrent.dataSize_eq⟩, ?_⟩
  · exact hformat ▸ hcurrent.format
  · exact hgeneration ▸ hcurrent.rows
  · exact hgeneration ▸ hcurrent.data
  · rw [hmemory]
    exact hcurrent.reflects.widen hcolumns hformat
  · rw [hmemory]
    exact view_widenMemory hcoherent _

/-- Every request for columns on a current handle ends in one of the ways of `SchemaEnd`. -/
theorem ensureColumns_spec {disk : Disk} {stored : CodeCollection} (hcurrent : Current disk stored)
    (faults : HeaderFaults) (requested : List ScalarColumn) :
    SchemaEnd faults disk stored requested (ensureColumns faults disk stored requested) := by
  unfold ensureColumns
  by_cases hnone : (requested.filter fun column ↦ (stored.columnIndex column.name).isNone) = []
  · rw [if_pos hnone]
    refine .unchanged fun _ column hcolumn hundeclared ↦ ?_
    have hmem : column ∈ requested.filter fun column ↦ (stored.columnIndex column.name).isNone := by
      simp [hcolumn, hundeclared]
    rw [hnone] at hmem
    simp at hmem
  rw [if_neg hnone]
  by_cases hcolumns : (stored.header.columns ++
      requested.filter fun column ↦ (stored.columnIndex column.name).isNone).length < 2 ^ 63
  · rw [dif_pos hcolumns]
    obtain ⟨hnext, hview⟩ := @current_widenHandle _ disk stored hcurrent faults { stored.header with
        columns := stored.header.columns ++
          requested.filter fun column ↦ (stored.columnIndex column.name).isNone
        columns_length := hcolumns } _ rfl rfl rfl
    unfold writeHeader
    by_cases hreplace : faults.replace
    · simp only [hreplace, if_true]
      exact .unchanged (by simp)
    by_cases hdirectory : faults.directory
    · simp only [hreplace, hdirectory]
      exact .replaced hview hnext
    simp only [hreplace, hdirectory]
    exact .widened rfl rfl hview hnext (by simp)
  · rw [dif_neg hcolumns]
    exact .unchanged (by simp)

omit [Externals] in
theorem header_initializeGenerationFiles (faults : CreateFaults) (generation : Int64)
    (kinds : List FileKind) (disk : Disk) :
    (initializeGenerationFiles faults generation kinds disk).1.header = disk.header := by
  induction kinds generalizing disk with
  | nil => rfl
  | cons _ _ ih =>
    unfold initializeGenerationFiles
    split_ifs
    · rfl
    · rfl
    · exact ih _

omit [Externals] in
theorem header_of_collectionMissing {disk : Disk}
    (hread : readHeader disk = .error .collectionMissing) : disk.header = none := by
  unfold readHeader at hread
  cases hheader : disk.header with
  | none => rfl
  | some =>
    simp only [hheader] at hread
    split_ifs at hread
    simp at hread

/-- A creation keeps the directory, or there was no header and there is one now. -/
theorem createCollection_spec (faults : CreateFaults) (disk : Disk) (columns : List ScalarColumn) :
    Keeps disk (createCollection faults disk columns).1 ∨
      disk.header = none ∧ ∃ header, (createCollection faults disk columns).1.header =
        some (header, faults.header.info) := by
  have hmissing (hheader : disk.header = none) {next : Disk}
      (hnext : next.header = none) : Keeps disk next :=
    ⟨hnext.trans hheader.symm, fun hsome ↦ absurd (hheader.symm.trans hsome) (by simp)⟩
  unfold createCollection
  cases hread : readHeader disk with
  | ok => exact .inl (Keeps.refl disk)
  | error failure =>
    by_cases hcollection : failure = .collectionMissing
    · subst hcollection
      have hheader : disk.header = none := header_of_collectionMissing hread
      simp only [ne_eq, not_true_eq_false, if_false]
      split_ifs with hcolumns
      · have hcreated := header_initializeGenerationFiles faults 0 [.rows, .data] disk
        generalize initializeGenerationFiles faults 0 [.rows, .data] disk = created at hcreated
        obtain ⟨created, outcome⟩ := created
        cases outcome with
        | some => exact .inl (hmissing hheader (hcreated.trans hheader))
        | none =>
          simp only [writeHeader]
          split_ifs
          · exact .inl (hmissing hheader (hcreated.trans hheader))
          · exact .inr ⟨hheader, _, rfl⟩
          · exact .inr ⟨hheader, _, rfl⟩
      · exact .inl (Keeps.refl disk)
    · simp only [ne_eq, hcollection, not_false_eq_true, if_true]
      exact .inl (Keeps.refl disk)

end Clyde.CodeStore
