import Clyde.CodeStore.Filter
import Clyde.CodeStore.Schema
import Clyde.CodeStore.Write
import Clyde.Foundation.Text
import Mathlib.Data.List.Sort

/-!
# The operations of the store

`codestore/store.go` and `update.go`: each operation runs on a handle that has caught up with the
directory, checks its arguments, and ends in one write of records or in one change of the header.
`perform_spec` assumes that the values given are of the type of their column, with no other payload
set (`Operation.Fits`): the store sets a value's type and checks no payload.

Scope. The store reads the number of a vector's components and their signs. A map of scalar values
is the list of its entries in the order in which the loop meets them. The callback of a row update
can keep state, so each of its calls is a function of its own. The collection's name is left out of
the errors.
-/

set_option autoImplicit false

namespace Clyde.CodeStore

open Foundation ByteCodec KeyedRows Text List

/-! ### Rows given to the store -/

structure ScalarMap where
  entries : List (Bytes × ScalarValue)
  names_nodup : (entries.map Prod.fst).Nodup

/-- A row to write. The vector is whether each component is positive. -/
structure UpsertRow where
  id : Bytes
  content : Bytes
  metadata : Bytes
  relativePath : Bytes
  splitPart : Int32
  splitPartRecorded : Bool
  vector : List Bool
  scalars : ScalarMap

/-- The number of components of a vector. -/
def dimensions : ℕ := 256

/-- The sign bits of a vector, 64 to a word. -/
def codeOf (vector : List Bool) : Code := fun word ↦
  (List.range 64).foldl (fun bits bit ↦
      if vector[64 * word.val + bit]?.getD false then bits ||| (1 <<< UInt64.ofNat bit) else bits) 0

/-- The value that is stored: its type is the column's, and a null value has no payload. -/
def storedValue (type : ScalarType) (value : ScalarValue) : ScalarValue :=
  if value.null then nullScalar type else { value with type := type }

def declaredCells (columns : List ScalarColumn) (undeclared : Bytes → Failure) :
    List (Bytes × ScalarValue) → Except Failure (List StoredCell)
  | [] => .ok []
  | (name, value) :: rest =>
    match columnIndexOf columns name with
    | none => .error (undeclared name)
    | some column =>
      match columns[column]? with
      | none => .error .panic
      | some declared =>
        match declaredCells columns undeclared rest with
        | .error failure => .error failure
        | .ok cells => .ok (⟨column, storedValue declared.type value⟩ :: cells)

def sortCells (cells : List StoredCell) : List StoredCell :=
  cells.insertionSort fun left right ↦ left.column ≤ right.column

def upsertItem (columns : List ScalarColumn) (row : UpsertRow) : Except Failure BatchItem :=
  if isBlank row.id then .error .rowIDRequired
  else if row.vector.length ≠ dimensions then .error (.vectorLength row.id row.vector.length)
  else
    match declaredCells columns .undeclaredColumn row.scalars.entries with
    | .error failure => .error failure
    | .ok cells =>
      .ok
        { record :=
            { kind := .upsert, id := row.id, code := codeOf row.vector
              relativePath := row.relativePath, splitPart := row.splitPart
              splitRecorded := row.splitPartRecorded, dataOffset := 0, dataLength := 0
              cells := sortCells cells }
          blob := some (encodeBlob row.content row.metadata) }

def upsertBatch (columns : List ScalarColumn) : List UpsertRow → Except Failure (List BatchItem)
  | [] => .ok []
  | row :: rest =>
    match upsertItem columns row with
    | .error failure => .error failure
    | .ok item =>
      match upsertBatch columns rest with
      | .error failure => .error failure
      | .ok items => .ok (item :: items)

/-! ### Rows selected for deletion -/

def deleteItem (id : Bytes) : BatchItem :=
  { record := emptyRecord .delete id, blob := none }

/-- The delete records of the selected rows, in order. A selection that panics is an error. -/
def deleteBatch (selected : ℕ → Option Bool) : ℕ → List Row → Except Failure (List BatchItem)
  | _, [] => .ok []
  | position, row :: rest =>
    match selected position with
    | none => .error .panic
    | some false => deleteBatch selected (position + 1) rest
    | some true =>
      match deleteBatch selected (position + 1) rest with
      | .error failure => .error failure
      | .ok items => .ok (deleteItem row.id :: items)

def itemWanted (memory : Memory) (row : Row) (ids : List Bytes) : Option ℕ → Option Bool
  | none => some false
  | some column => do
    let id ← row.cells[column]?
    if id = 0 then return false
    let dictionary ← memory.dictionaries[column]?
    let value ← dictionary.values[id]?
    return ids.contains value.string && !value.null

/-- Selects rows by the item column or by a nonempty start of their path. -/
def itemSelector (columns : List ScalarColumn) (memory : Memory) (itemColumn : Bytes)
    (ids prefixes : List Bytes) (position : ℕ) : Option Bool := do
  let row ← memory.rows[position]?
  if ← itemWanted memory row ids (columnIndexOf columns itemColumn) then return true
  return prefixes.any fun start ↦ start ≠ [] && start.isPrefixOf row.relativePath

/-! ### Row updates -/

/-- What a row shows in a column. -/
inductive ScalarCell
  | absent
  | null
  | value (value : ScalarValue)

def cellNamed (columns : List ScalarColumn) (memory : Memory) (row : Row) (name : Bytes) :
    Option ScalarCell :=
  match columnIndexOf columns name with
  | none => some .absent
  | some column => do
    let id ← row.cells[column]?
    if id = 0 then return .absent
    let dictionary ← memory.dictionaries[column]?
    let value ← dictionary.values[id]?
    return if value.null then .null else .value value

def cellsNamed (columns : List ScalarColumn) (memory : Memory) (row : Row) :
    List Bytes → Option (Bytes → Option ScalarCell)
  | [] => some fun _ ↦ none
  | name :: rest => do
    let cell ← cellNamed columns memory row name
    let cells ← cellsNamed columns memory row rest
    return Function.update cells name (some cell)

/-- A callback: an error, nothing, or the new metadata and values. -/
abbrev RowUpdate :=
  Bytes → Bytes → (Bytes → Option ScalarCell) → Except Bytes (Option (Bytes × ScalarMap))

def replaceCells (cells new : List StoredCell) : List StoredCell :=
  new.foldl (fun cells cell ↦ (cells.filter fun old ↦ old.column ≠ cell.column) ++ [cell]) cells

/-- The record and the data of an updated row, or nothing when the callback leaves it. -/
def updateItem (read : Bytes → Bool) (data : Bytes) (columns : List ScalarColumn) (memory : Memory)
    (names : List Bytes) (position : ℕ) (id : Bytes) (update : RowUpdate) :
    Except Failure (Option BatchItem) :=
  match memory.rows[position]?, recordOf memory position with
  | some row, some record =>
    if read row.id then .error (.readRow row.id)
    else
      match readBlob data row.id row.dataOffset row.dataLength with
      | .error failure => .error failure
      | .ok (content, metadata) =>
        match cellsNamed columns memory row names with
        | none => .error .panic
        | some cells =>
          match update id metadata cells with
          | .error message => .error (.updateRow message)
          | .ok none => .ok none
          | .ok (some (nextMetadata, scalars)) =>
            match declaredCells columns .updateColumn scalars.entries with
            | .error failure => .error failure
            | .ok new =>
              .ok (some
                { record := { record with cells := sortCells (replaceCells record.cells new) }
                  blob := some (encodeBlob content nextMetadata) })
  | _, _ => .error .panic

/-- The items of the updated rows. An id that is not there is skipped. -/
def updateBatch (read : Bytes → Bool) (data : Bytes) (columns : List ScalarColumn) (memory : Memory)
    (names : List Bytes) : List (Bytes × RowUpdate) → Except Failure (List BatchItem)
  | [] => .ok []
  | (id, update) :: rest =>
    match memory.byID id with
    | none => updateBatch read data columns memory names rest
    | some position =>
      match updateItem read data columns memory names position id update with
      | .error failure => .error failure
      | .ok item =>
        match updateBatch read data columns memory names rest with
        | .error failure => .error failure
        | .ok items => .ok (item.toList ++ items)

/-! ### Operations on a locked handle -/

structure OperationFaults where
  read : Bytes → Bool
  write : WriteFaults
  header : HeaderFaults

structure Counted where
  result : HandleResult
  count : ℕ

section

variable [Externals] (faults : OperationFaults) (disk : Disk) (stored : CodeCollection)

def upsert (rows : List UpsertRow) : HandleResult :=
  match upsertBatch stored.header.columns rows with
  | .error failure => { disk := disk, stored := stored, failure := some failure }
  | .ok batch => write faults.write disk stored batch

/-- Writes a batch and reports its size. An empty batch is not written. -/
def writeCounted (batch : Except Failure (List BatchItem)) : Counted :=
  match batch with
  | .error failure =>
    { result := { disk := disk, stored := stored, failure := some failure }, count := 0 }
  | .ok [] => { result := { disk := disk, stored := stored, failure := none }, count := 0 }
  | .ok (item :: items) =>
    let result := write faults.write disk stored (item :: items)
    { result := result, count := if result.failure = none then (item :: items).length else 0 }

def deleteWhere (selected : ℕ → Option Bool) : Counted :=
  writeCounted faults disk stored (deleteBatch selected 0 stored.memory.rows)

def delete (filter : Filter) :
    Counted :=
  match compileFilter stored.header.columns stored.memory filter with
  | .error failure =>
    { result := { disk := disk, stored := stored, failure := some failure }, count := 0 }
  | .ok selects =>
    deleteWhere faults disk stored fun position ↦ (selects position).map
      fun truth ↦ truth = .truthTrue

def deleteItems (itemColumn : Bytes) (ids prefixes : List Bytes) : Counted :=
  deleteWhere faults disk stored
    (itemSelector stored.header.columns stored.memory itemColumn ids prefixes)

def updateRows (names : List Bytes) (calls : List (Bytes × RowUpdate)) : Counted :=
  writeCounted faults disk stored (updateBatch faults.read (disk.files.contents stored.dataFile)
    stored.header.columns stored.memory names calls)

end

inductive Operation
  | ensureCollection (dimension : ℕ) (columns : List ScalarColumn)
  | upsert (rows : List UpsertRow)
  | delete (filter : Filter)
  | deleteItems (itemColumn : Bytes) (ids prefixes : List Bytes)
  | updateRows (names : List Bytes) (calls : List (Bytes × RowUpdate))

/-- Carries out an operation on a locked handle. The dimension is checked before the lock is taken.
-/
def perform [Externals] (faults : OperationFaults) (disk : Disk) (stored : CodeCollection) :
    Operation → HandleResult
  | .ensureCollection _ columns => ensureColumns faults.header disk stored columns
  | .upsert rows => upsert faults disk stored rows
  | .delete filter => (delete faults disk stored filter).result
  | .deleteItems itemColumn ids prefixes =>
    (deleteItems faults disk stored itemColumn ids prefixes).result
  | .updateRows names calls => (updateRows faults disk stored names calls).result

/-! ### Values that fit their columns -/

/-- Each value of the map is null or has only the payload of its column's type. -/
def ScalarMap.Fits (scalars : ScalarMap) (columns : List ScalarColumn) : Prop :=
  ∀ entry ∈ scalars.entries, ∀ position column, columnIndexOf columns entry.1 = some position →
    columns[position]? = some column → entry.2.null ∨ entry.2.PayloadFits column.type

/-- The values that the operation writes have only the payload of their column's type. -/
def Operation.Fits (columns : List ScalarColumn) : Operation → Prop
  | .upsert rows => ∀ row ∈ rows, row.scalars.Fits columns
  | .updateRows _ calls => ∀ call ∈ calls, ∀ id metadata cells next scalars,
    call.2 id metadata cells = .ok (some (next, scalars)) → scalars.Fits columns
  | _ => True

variable {columns : List ScalarColumn} {position : ℕ}

theorem ScalarMap.fits_singleton {scalars : ScalarMap} {name : Bytes} {value : ScalarValue}
    (hentries : scalars.entries = [(name, value)])
    (hposition : columnIndexOf columns name = some position) {column : ScalarColumn}
    (hcolumn : columns[position]? = some column)
    (hvalue : value.null ∨ value.PayloadFits column.type) : scalars.Fits columns := by
  intro _ hentry _ _ hother hfound
  rw [hentries, mem_singleton] at hentry
  subst hentry
  rw [hposition, Option.some.injEq] at hother
  rw [← hother, hcolumn, Option.some.injEq] at hfound
  exact hfound ▸ hvalue

def DeclaredCell (columns : List ScalarColumn) (entry : Bytes × ScalarValue) (cell : StoredCell) :
    Prop :=
  columnIndexOf columns entry.1 = some cell.column ∧ ∃ column, columns[cell.column]? = some column ∧
    cell.value = storedValue column.type entry.2

variable {cells : List StoredCell} {entries : List (Bytes × ScalarValue)}

/-- Scalars that pass the column check become one cell each, in order. -/
theorem declaredCells_eq_ok {undeclared : Bytes → Failure}
    (hcells : declaredCells columns undeclared entries = .ok cells) :
    List.Forall₂ (DeclaredCell columns) entries cells := by
  induction entries generalizing cells with
  | nil =>
    simp only [declaredCells, Except.ok.injEq] at hcells
    exact hcells ▸ .nil
  | cons entry entries ih =>
    obtain ⟨name, _⟩ := entry
    rw [declaredCells] at hcells
    cases hindex : columnIndexOf columns name with
    | none => simp [hindex] at hcells
    | some column =>
      cases hdeclared : columns[column]? with
      | none => simp [hindex, hdeclared] at hcells
      | some declared =>
        simp only [hindex, hdeclared] at hcells
        cases hrest : declaredCells columns undeclared entries with
        | error => simp [hrest] at hcells
        | ok =>
          simp only [hrest, Except.ok.injEq] at hcells
          subst hcells
          exact .cons ⟨hindex, declared, hdeclared, rfl⟩ (ih hrest)

theorem exists_declaredCell (hcells : List.Forall₂ (DeclaredCell columns) entries cells)
    {cell : StoredCell} (hcell : cell ∈ cells) :
    ∃ entry ∈ entries, DeclaredCell columns entry cell := by
  induction hcells with
  | nil => simp at hcell
  | @cons entry _ _ _ hfirst _ ih =>
    rcases mem_cons.mp hcell with rfl | hcell
    · exact ⟨entry, by simp, hfirst⟩
    · obtain ⟨found, hfound, hdeclared⟩ := ih hcell
      exact ⟨found, by simp [hfound], hdeclared⟩

theorem nodup_declaredCells (hcells : List.Forall₂ (DeclaredCell columns) entries cells)
    (hnodup : (entries.map Prod.fst).Nodup) : (cells.map StoredCell.column).Nodup := by
  induction hcells with
  | nil => simp
  | @cons _ _ _ _ hcell hrest ih =>
    rw [map_cons, nodup_cons] at hnodup ⊢
    refine ⟨fun hmem ↦ ?_, ih hnodup.2⟩
    obtain ⟨_, hother, hsame⟩ := mem_map.mp hmem
    obtain ⟨_, hfound, hdeclared⟩ := exists_declaredCell hrest hother
    have hname := columnIndexOf_injective hcell.1 (hsame ▸ hdeclared.1)
    exact hnodup.1 (hname ▸ mem_map_of_mem hfound)

theorem fits_storedValue {type : ScalarType} {value : ScalarValue}
    (hvalue : value.null ∨ value.PayloadFits type) : (storedValue type value).Fits type := by
  unfold storedValue
  split_ifs with hnull
  · exact .inl rfl
  · refine .inr ⟨by simpa using hnull, rfl, ?_⟩
    have hpayload := hvalue.resolve_left hnull
    cases type <;> exact hpayload

theorem fits_declaredCells {scalars : ScalarMap} (hfits : scalars.Fits columns)
    (hcells : List.Forall₂ (DeclaredCell columns) scalars.entries cells) :
    ∀ cell ∈ cells, ∃ column, columns[cell.column]? = some column ∧
      cell.value.Fits column.type := by
  intro _ hcell
  obtain ⟨entry, hentry, hindex, column, hcolumn, hvalue⟩ := exists_declaredCell hcells hcell
  refine ⟨column, hcolumn, ?_⟩
  rw [hvalue]
  exact fits_storedValue (hfits entry hentry _ _ hindex hcolumn)

theorem sortCells_perm (cells : List StoredCell) : (sortCells cells).Perm cells :=
  perm_insertionSort _ _

variable {new : List StoredCell}

theorem nodup_replaceCells (hcells : (cells.map StoredCell.column).Nodup) :
    ((replaceCells cells new).map StoredCell.column).Nodup := by
  induction new generalizing cells with
  | nil => exact hcells
  | cons _ _ ih =>
    refine ih ?_
    rw [map_append, nodup_append]
    refine ⟨hcells.sublist (filter_sublist.map _), by simp, ?_⟩
    intro _ hcolumn _ hother
    obtain ⟨_, hold, rfl⟩ := mem_map.mp hcolumn
    rw [mem_singleton.mp hother]
    simpa using (mem_filter.mp hold).2

theorem mem_replaceCells {cell : StoredCell}
    (hcell : cell ∈ replaceCells cells new) : cell ∈ cells ∨ cell ∈ new := by
  induction new generalizing cells with
  | nil => exact .inl hcell
  | cons _ _ ih =>
    rcases ih hcell with hold | hnew
    · rcases mem_append.mp hold with hold | hfirst
      · exact .inl (mem_of_mem_filter hold)
      · exact .inr (by simp [mem_singleton.mp hfirst])
    · exact .inr (by simp [hnew])

theorem encodeBlob_ne_nil (content metadata : Bytes) : encodeBlob content metadata ≠ [] := by
  simp [encodeBlob, appendString, appendVarint_ne_nil]

/-! ### The batch of an operation -/

section

variable [Externals] {item : BatchItem}

omit [Externals] in
theorem writable_upsertItem {row : UpsertRow} (hfits : row.scalars.Fits columns)
    (hitem : upsertItem columns row = .ok item) (dataSize : ℕ) :
    item.Writable columns dataSize := by
  unfold upsertItem at hitem
  split_ifs at hitem with hblank hvector
  cases hcells : declaredCells columns .undeclaredColumn row.scalars.entries with
  | error => simp [hcells] at hitem
  | ok cells =>
    simp only [hcells, Except.ok.injEq] at hitem
    subst hitem
    have hdeclared := declaredCells_eq_ok hcells
    have hperm := sortCells_perm cells
    refine ⟨by simp, fun cell hcell ↦ ?_, ?_, ?_, by simp⟩
    · exact fits_declaredCells hfits hdeclared cell (hperm.mem_iff.mp hcell)
    · exact (hperm.map _).nodup_iff.mpr (nodup_declaredCells hdeclared row.scalars.names_nodup)
    · simpa using encodeBlob_ne_nil row.content _

variable {batch : List BatchItem}

omit [Externals] in
/-- The batch of an `Upsert` of fitting values can be written. -/
theorem writable_upsertBatch {rows : List UpsertRow}
    (hfits : ∀ row ∈ rows, row.scalars.Fits columns) (hbatch : upsertBatch columns rows = .ok batch)
    (dataSize : ℕ) :
    ∀ item ∈ batch, item.Writable columns dataSize := by
  induction rows generalizing batch with
  | nil =>
    simp only [upsertBatch, Except.ok.injEq] at hbatch
    simp [← hbatch]
  | cons row rows ih =>
    rw [upsertBatch] at hbatch
    cases hitem : upsertItem columns row with
    | error failure => simp [hitem] at hbatch
    | ok =>
      cases hrest : upsertBatch columns rows with
      | error => simp [hitem, hrest] at hbatch
      | ok =>
        simp only [hitem, hrest, Except.ok.injEq] at hbatch
        subst hbatch
        rw [forall_mem_cons]
        exact ⟨writable_upsertItem (hfits row (by simp)) hitem dataSize,
          ih (fun other hother ↦ hfits other (by simp [hother])) hrest⟩

omit [Externals] in
theorem writable_deleteItem (id : Bytes) (columns : List ScalarColumn) (dataSize : ℕ) :
    (deleteItem id).Writable columns dataSize :=
  ⟨fun _ ↦ rfl, by simp [deleteItem, emptyRecord], by simp [deleteItem, emptyRecord],
    by simp [deleteItem], fun _ ↦ by simp [deleteItem, emptyRecord]⟩

variable {selected : ℕ → Option Bool} {rows : List Row}

omit [Externals] in
/-- The deletion batch names the rows whose position is selected. -/
theorem deleteBatch_eq (hbatch : deleteBatch selected position rows = .ok batch) :
    batch = ((rows.zipIdx position).filter fun entry ↦ selected entry.2 = some true).map
      fun entry ↦ deleteItem entry.1.id := by
  induction rows generalizing position batch with
  | nil =>
    simp only [deleteBatch, Except.ok.injEq] at hbatch
    simp [← hbatch]
  | cons _ rows ih =>
    rw [deleteBatch] at hbatch
    cases hselected : selected position with
    | none => simp [hselected] at hbatch
    | some flag =>
      cases flag with
      | false =>
        simp only [hselected] at hbatch
        simp [ih hbatch, hselected]
      | true =>
        cases hrest : deleteBatch selected (position + 1) rows with
        | error => simp [hselected, hrest] at hbatch
        | ok =>
          simp only [hselected, hrest, Except.ok.injEq] at hbatch
          simp [← hbatch, ih hrest, hselected]

omit [Externals] in
theorem writable_deleteBatch (hbatch : deleteBatch selected position rows = .ok batch)
    (columns : List ScalarColumn) (dataSize : ℕ) :
    ∀ item ∈ batch, item.Writable columns dataSize := by
  intro _ hitem
  rw [deleteBatch_eq hbatch] at hitem
  obtain ⟨_, _, rfl⟩ := mem_map.mp hitem
  exact writable_deleteItem _ _ _

variable {read : Bytes → Bool} {names : List Bytes} {memory : Memory} {data : Bytes}
  {update : RowUpdate} {id : Bytes}

omit [Externals] in
/-- What an update that writes a row read, and the record it writes. -/
theorem updateItem_eq_some
    (hitem : updateItem read data columns memory names position id update = .ok (some item)) :
    ∃ row code content metadata cells nextMetadata scalars new,
      memory.rows[position]? = some row ∧ memory.codes[position]? = some code ∧
      update id metadata cells = .ok (some (nextMetadata, scalars)) ∧
      List.Forall₂ (DeclaredCell columns) scalars.entries new ∧
      item =
        { record :=
            { recordOfEntry (entryOf memory.dictionaries row code) with
              cells := sortCells (replaceCells
                (cellsOfValues (cellValues memory.dictionaries row.cells)) new) }
          blob := some (encodeBlob content nextMetadata) } := by
  unfold updateItem recordOf at hitem
  cases hrow : memory.rows[position]? with
  | none => simp [hrow] at hitem
  | some row =>
    cases hcode : memory.codes[position]? with
    | none => simp [hrow, hcode] at hitem
    | some code =>
      simp only [hrow, hcode, Option.bind_eq_bind, Option.bind_some, Option.pure_def] at hitem
      split_ifs at hitem with hread
      cases htexts : readBlob data row.id row.dataOffset row.dataLength with
      | error failure => simp [htexts] at hitem
      | ok texts =>
        obtain ⟨content, metadata⟩ := texts
        cases hcells : cellsNamed columns memory row names with
        | none => simp [htexts, hcells] at hitem
        | some cells =>
          simp only [htexts, hcells] at hitem
          cases hupdate : update id metadata cells with
          | error => simp [hupdate] at hitem
          | ok outcome =>
            cases outcome with
            | none => simp [hupdate] at hitem
            | some result =>
              obtain ⟨nextMetadata, scalars⟩ := result
              cases hnew : declaredCells columns .updateColumn scalars.entries with
              | error => simp [hupdate, hnew] at hitem
              | ok new =>
                simp only [hupdate, hnew, Except.ok.injEq, Option.some.injEq,
                  recordOfRow_eq] at hitem
                exact ⟨row, code, content, metadata, cells, nextMetadata, scalars, new, rfl, rfl,
                  hupdate, declaredCells_eq_ok hnew, hitem.symm⟩

omit [Externals] in
/-- The item of an update keeps the row's valid cells under those that the update sets. -/
theorem writable_updateItem (hvalid : ∀ entry ∈ (view memory).entries, entry.Valid columns)
    (hfits : ∀ id metadata cells next scalars,
      update id metadata cells = .ok (some (next, scalars)) → scalars.Fits columns)
    (hitem : updateItem read data columns memory names position id update = .ok (some item))
    (dataSize : ℕ) : item.Writable columns dataSize := by
  obtain ⟨row, code, content, _, cells, nextMetadata, _, new, hrow, hcode, hupdate,
    hdeclared, rfl⟩ := updateItem_eq_some hitem
  have hentry : entryOf memory.dictionaries row code ∈ (view memory).entries := by
    refine mem_of_getElem? (?_ : (view memory).entries[position]? = _)
    rw [view, getElem?_zipWith_eq_some]
    exact ⟨row, code, hrow, hcode, rfl⟩
  have hperm :=
    sortCells_perm (replaceCells (cellsOfValues (cellValues memory.dictionaries row.cells)) new)
  refine ⟨by simp [recordOfEntry], fun cell hcell ↦ ?_, ?_, ?_, by simp [recordOfEntry]⟩
  · rcases mem_replaceCells (hperm.mem_iff.mp hcell) with hold | hnew
    · obtain ⟨column, hcolumn, hmatches⟩ :=
        (hvalid _ hentry).cells_match _ _ (mem_cellsOfValues.mp hold)
      exact ⟨column, hcolumn, hmatches.fits⟩
    · exact fits_declaredCells (hfits _ _ _ _ _ hupdate) hdeclared cell hnew
  · exact (hperm.map _).nodup_iff.mpr (nodup_replaceCells (nodup_cellsOfValues _))
  · simpa using encodeBlob_ne_nil content nextMetadata

omit [Externals] in
/-- The batch of an `UpdateRows` of fitting values can be written. -/
theorem writable_updateBatch (hvalid : ∀ entry ∈ (view memory).entries, entry.Valid columns)
    {calls : List (Bytes × RowUpdate)}
    (hfits : ∀ call ∈ calls, ∀ id metadata cells next scalars,
      call.2 id metadata cells = .ok (some (next, scalars)) → scalars.Fits columns)
    (hbatch : updateBatch read data columns memory names calls = .ok batch) (dataSize : ℕ) :
    ∀ item ∈ batch, item.Writable columns dataSize := by
  induction calls generalizing batch with
  | nil =>
    simp only [updateBatch, Except.ok.injEq] at hbatch
    simp [← hbatch]
  | cons call calls ih =>
    obtain ⟨id, update⟩ := call
    have hlater := fun call hcall ↦ hfits call (mem_cons_of_mem _ hcall)
    rw [updateBatch] at hbatch
    cases hposition : memory.byID id with
    | none =>
      simp only [hposition] at hbatch
      exact ih hlater hbatch
    | some position =>
      cases hitem : updateItem read data columns memory names position id update with
      | error failure => simp [hposition, hitem] at hbatch
      | ok =>
        cases hrest : updateBatch read data columns memory names calls with
        | error => simp [hposition, hitem, hrest] at hbatch
        | ok =>
          simp only [hposition, hitem, hrest, Except.ok.injEq] at hbatch
          subst hbatch
          intro item hmem
          rcases mem_append.mp hmem with hmem | hmem
          · rw [Option.mem_toList] at hmem
            rw [hmem] at hitem
            exact writable_updateItem hvalid (hfits (id, update) (by simp)) hitem dataSize
          · exact ih hlater hrest item hmem

end

/-! ### Every outcome of an operation -/

/-- Nothing changes, the operation writes records that fit the format, or it adds columns. -/
inductive OperationEnd [Externals] (faults : OperationFaults) (disk : Disk)
    (stored : CodeCollection) :
    HandleResult → Prop
  | unchanged (failure : Option Failure) :
    OperationEnd faults disk stored { disk := disk, stored := stored, failure := failure }
  | wrote {batch : List BatchItem} {result : HandleResult}
    (hbatch : ∀ item ∈ batch, item.Writable stored.header.columns stored.dataSize)
    (hend : WriteEnd faults.write disk stored batch result) :
    OperationEnd faults disk stored result
  | schema {requested : List ScalarColumn} {result : HandleResult}
    (hend : SchemaEnd faults.header disk stored requested result) :
    OperationEnd faults disk stored result

variable [Externals] {stored : CodeCollection} {disk : Disk}

/-- A counted write ends as an operation does, also when its batch could not be built. -/
theorem writeCounted_spec (hcurrent : Current disk stored)
    (faults : OperationFaults) {batch : Except Failure (List BatchItem)}
    (hbatch : ∀ items, batch = .ok items →
      ∀ item ∈ items, item.Writable stored.header.columns stored.dataSize) :
    OperationEnd faults disk stored (writeCounted faults disk stored batch).result := by
  cases batch with
  | error => exact .unchanged _
  | ok items =>
    cases items with
    | nil => exact .unchanged _
    | cons item items =>
      have hitems := hbatch (item :: items) rfl
      exact .wrote hitems (write_spec hcurrent hitems _)

/-- Every operation on a current handle whose values fit ends in one of the ways of `OperationEnd`.
-/
theorem perform_spec (hcurrent : Current disk stored) (faults : OperationFaults)
    {operation : Operation} (hfits : operation.Fits stored.header.columns) :
    OperationEnd faults disk stored (perform faults disk stored operation) := by
  cases operation with
  | ensureCollection _ columns => exact .schema (ensureColumns_spec hcurrent _ columns)
  | upsert rows =>
    simp only [perform, upsert]
    cases hbatch : upsertBatch stored.header.columns rows with
    | error failure => exact .unchanged _
    | ok =>
      have hitems := writable_upsertBatch hfits hbatch stored.dataSize
      exact .wrote hitems (write_spec hcurrent hitems _)
  | delete filter =>
    simp only [perform, delete]
    cases compileFilter stored.header.columns stored.memory filter with
    | error => exact .unchanged _
    | ok =>
      exact writeCounted_spec hcurrent faults fun items hitems ↦ writable_deleteBatch hitems _ _
  | deleteItems =>
    exact writeCounted_spec hcurrent faults fun items hitems ↦ writable_deleteBatch hitems _ _
  | updateRows =>
    exact writeCounted_spec hcurrent faults fun items hitems ↦
      writable_updateBatch hcurrent.reflects.entry_valid hfits hitems _

end Clyde.CodeStore
