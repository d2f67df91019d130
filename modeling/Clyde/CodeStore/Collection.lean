import Clyde.Foundation.Interner
import Clyde.Foundation.KeyedRows
import Clyde.CodeStore.Frame

/-!
# The collection in memory

`codestore/collection.go`: `Memory` is the part of a handle that a record of the row log changes,
and `CodeCollection` is the handle. Each row holds one dictionary number per declared column, zero
for an absent value.

`Coherent` is the invariant in memory: the parallel lists have one length, the position map is
exact, and every cell's number is inside its dictionary.

Scope. Locks, paths, the header's dimension and model, and the declaration's parts other than its
scalar columns are left out. A file descriptor is the number of its file. The number of columns fits
an `int`.
-/

set_option autoImplicit false

namespace Clyde.CodeStore

open Foundation ByteCodec KeyedRows List

/-! ### State -/

/-- The number of values a column can have: cell numbers are 32 bits wide. -/
def dictionaryCapacity : ℕ := 2 ^ 32

/-- The distinct values of one column. Number zero stands for an absent value. -/
abbrev Dictionary := Interner ScalarValue dictionaryCapacity

def newDictionary [Externals] : Dictionary := Interner.empty Externals.emptyScalar (by decide)

structure CollectionHeader where
  columns : List ScalarColumn
  columns_length : columns.length < 2 ^ 63
  generation : Int64
  frameFormat : ℕ
  deriving DecidableEq

structure Row where
  id : Bytes
  relativePath : Bytes
  splitPart : Int32
  splitRecorded : Bool
  dataOffset : ℕ
  dataLength : ℕ
  cells : List ℕ
  deriving DecidableEq

/-- The identity of a file, as `os.SameFile` compares it. -/
abbrev FileId := ℕ

/-- What `os.Stat` says about the header file: its identity and modification time. -/
@[ext] structure FileInfo where
  file : FileId
  modTime : ℕ
  deriving DecidableEq

structure Memory where
  dictionaries : List Dictionary
  rows : List Row
  codes : List Code
  byID : Bytes → Option ℕ
  dead : ℕ

structure CodeCollection where
  header : CollectionHeader
  memory : Memory
  rowsFile : FileId
  dataFile : FileId
  dataSize : ℕ
  logSize : ℕ
  headerInfo : Option FileInfo
  closed : Bool

/-! ### Columns -/

/-- The map from column names to positions. Of two columns with one name, the later one counts. -/
def columnIndexOf (columns : List ScalarColumn) : Bytes → Option ℕ :=
  columns.zipIdx.foldl
    (fun index declared ↦ Function.update index declared.1.name (some declared.2)) fun _ ↦ none

def CodeCollection.width (stored : CodeCollection) : ℕ := stored.header.columns.length

def CodeCollection.columnIndex (stored : CodeCollection) : Bytes → Option ℕ :=
  columnIndexOf stored.header.columns

def addDictionaries [Externals] (memory : Memory) (width : ℕ) : Memory :=
  { memory with
    dictionaries := memory.dictionaries ++ List.replicate
      (width - memory.dictionaries.length) newDictionary }

def Memory.empty [Externals] (width : ℕ) : Memory :=
  addDictionaries
    { dictionaries := [], rows := [], codes := [], byID := fun _ ↦ none, dead := 0 } width

/-- A handle on an empty collection, before its log is replayed. -/
@[reducible] def sampleHandle (format : ℕ) : CodeCollection :=
  { header :=
      { columns := sampleColumns, columns_length := by decide, generation := 0
        frameFormat := format }
    memory := @Memory.empty sampleExternals sampleColumns.length
    rowsFile := 0, dataFile := 1, dataSize := 400, logSize := 0, headerInfo := none
    closed := false }

theorem columnIndexOf_concat (columns : List ScalarColumn) (column : ScalarColumn) :
    columnIndexOf (columns ++ [column]) =
      Function.update (columnIndexOf columns) column.name (some columns.length) := by
  simp [columnIndexOf, zipIdx_append, foldl_append]

variable {position : ℕ} {columns : List ScalarColumn}

theorem columnIndexOf_eq_some {name : Bytes} (hindex : columnIndexOf columns name = some position) :
    ∃ column, columns[position]? = some column ∧ column.name = name := by
  induction columns using List.reverseRecOn with
  | nil => simp [columnIndexOf] at hindex
  | append_singleton _ column ih =>
    rw [columnIndexOf_concat, Function.update_apply] at hindex
    split_ifs at hindex with hname
    · cases hindex
      exact ⟨column, getElem?_concat_length, hname.symm⟩
    obtain ⟨found, hfound, hfoundName⟩ := ih hindex
    refine ⟨found, ?_, hfoundName⟩
    rw [List.getElem?_append_left (List.getElem?_eq_some_iff.mp hfound).1, hfound]

theorem columnIndexOf_injective {first second : Bytes}
    (hfirst : columnIndexOf columns first = some position)
    (hsecond : columnIndexOf columns second = some position) : first = second := by
  obtain ⟨_, hcolumn, rfl⟩ := columnIndexOf_eq_some hfirst
  obtain ⟨_, hother, rfl⟩ := columnIndexOf_eq_some hsecond
  rw [hcolumn, Option.some.injEq] at hother
  rw [hother]

/-! ### Records in memory -/

/-- Interns the cells in order. The dictionaries that grew before a refusal stay grown. -/
def internCells :
    List StoredCell → List Dictionary → List ℕ → List Dictionary × Except Failure (List ℕ)
  | [], dictionaries, cells => (dictionaries, .ok cells)
  | cell :: rest, dictionaries, cells =>
    match dictionaries[cell.column]? with
    | none => (dictionaries, .error .panic)
    | some dictionary =>
      match dictionary.intern cell.value with
      | none => (dictionaries, .error (.internColumn cell.column))
      | some (id, grown) =>
        internCells rest (dictionaries.set cell.column grown) (cells.set cell.column id)

def remove (memory : Memory) (id : Bytes) : Memory :=
  match memory.byID id with
  | none => memory
  | some position =>
    let last := memory.rows.length - 1
    let moved :=
      match memory.rows[last]?, memory.codes[last]? with
      | some row, some code =>
        if position ≠ last then
          { memory with
            rows := memory.rows.set position row
            codes := memory.codes.set position code
            byID := Function.update memory.byID row.id (some position) }
        else memory
      | _, _ => memory
    { moved with
      rows := moved.rows.take last
      codes := moved.codes.take last
      byID := Function.update moved.byID id none }

def putRow (memory : Memory) (row : Row) (code : Code) : Memory :=
  match memory.byID row.id with
  | some position =>
    { memory with
      rows := memory.rows.set position row
      codes := memory.codes.set position code
      dead := memory.dead + 1 }
  | none =>
    { memory with
      byID := Function.update memory.byID row.id (some memory.rows.length)
      rows := memory.rows ++ [row]
      codes := memory.codes ++ [code] }

def rowOfRecord (record : RowRecord) (cells : List ℕ) : Row :=
  { id := record.id, relativePath := record.relativePath, splitPart := record.splitPart,
    splitRecorded := record.splitRecorded, dataOffset := record.dataOffset,
    dataLength := record.dataLength, cells := cells }

def apply (width : ℕ) (memory : Memory) (record : RowRecord) : Memory × Option Failure :=
  match record.kind with
  | .delete =>
    let removed := remove memory record.id
    ({ removed with dead := removed.dead + 1 }, none)
  | .upsert =>
    match internCells record.cells memory.dictionaries (List.replicate width 0) with
    | (dictionaries, .error failure) => ({ memory with dictionaries := dictionaries }, some failure)
    | (dictionaries, .ok cells) =>
      (putRow { memory with dictionaries := dictionaries } (rowOfRecord record cells) record.code,
        none)

def applyAll (width : ℕ) : Memory → List RowRecord → Memory × Option Failure
  | memory, [] => (memory, none)
  | memory, record :: rest =>
    match apply width memory record with
    | (next, some failure) => (next, some failure)
    | (next, none) => applyAll width next rest

section

variable (dictionaries : List Dictionary)

/-- The value of a cell: none for number zero. -/
def cellValueOf (column id : ℕ) : Option ScalarValue :=
  if id = 0 then none else dictionaries[column]?.bind fun dictionary ↦ dictionary.values[id]?

def cellValues (cells : List ℕ) : List (Option ScalarValue) :=
  cells.mapIdx (cellValueOf dictionaries)

def recordOfRow (row : Row) (code : Code) : RowRecord :=
  { kind := .upsert, id := row.id, code := code, relativePath := row.relativePath,
    splitPart := row.splitPart, splitRecorded := row.splitRecorded, dataOffset := row.dataOffset,
    dataLength := row.dataLength,
    cells := row.cells.zipIdx.filterMap fun cell ↦
      (cellValueOf dictionaries cell.2 cell.1).map fun value ↦ ⟨cell.2, value⟩ }

end

def recordOf (memory : Memory) (position : ℕ) : Option RowRecord := do
  let row ← memory.rows[position]?
  let code ← memory.codes[position]?
  return recordOfRow memory.dictionaries row code

/-! ### Dictionaries that grow -/

/-- Every dictionary keeps its values and may have more. -/
def Extends (old new : List Dictionary) : Prop :=
  new.length = old.length ∧ ∀ (column : ℕ) (before after : Dictionary),
    old[column]? = some before → new[column]? = some after → before.values <+: after.values

/-- A row's cells are one number per column, each inside the column's dictionary. -/
def CellsFit (dictionaries : List Dictionary) (cells : List ℕ) : Prop :=
  cells.length = dictionaries.length ∧ ∀ (column id : ℕ) (dictionary : Dictionary),
    cells[column]? = some id → dictionaries[column]? = some dictionary →
    id < dictionary.values.length

def ContainsAt (dictionaries : List Dictionary) (column : ℕ) (value : ScalarValue) : Prop :=
  ∃ dictionary, dictionaries[column]? = some dictionary ∧ dictionary.Contains value

variable (dictionaries : List Dictionary)

theorem Extends.refl : Extends dictionaries dictionaries := by
  refine ⟨rfl, fun column before after hbefore hafter ↦ ?_⟩
  rw [hbefore, Option.some.injEq] at hafter
  rw [hafter]

theorem Extends.trans {first second third : List Dictionary} (hfirst : Extends first second)
    (hsecond : Extends second third) : Extends first third := by
  refine ⟨hsecond.1.trans hfirst.1, fun column before after hbefore hafter ↦ ?_⟩
  have hlt : column < second.length := by
    rw [hfirst.1]
    exact (List.getElem?_eq_some_iff.mp hbefore).1
  have hmiddle := getElem?_eq_getElem hlt
  exact (hfirst.2 column before _ hbefore hmiddle).trans (hsecond.2 column _ after hmiddle hafter)

variable {dictionaries : List Dictionary} {dictionary grown : Dictionary} {column : ℕ}

theorem extends_set (hdictionary : dictionaries[column]? = some dictionary)
    (hgrown : dictionary.values <+: grown.values) :
    Extends dictionaries (dictionaries.set column grown) := by
  refine ⟨length_set, fun other before after hbefore hafter ↦ ?_⟩
  rw [getElem?_set] at hafter
  split_ifs at hafter with hother hlt
  · subst hother
    rw [hdictionary, Option.some.injEq] at hbefore
    rw [Option.some.injEq] at hafter
    rwa [← hbefore, ← hafter]
  · rw [hbefore, Option.some.injEq] at hafter
    rw [hafter]

variable {old new : List Dictionary} {cells : List ℕ}

theorem CellsFit.extends (hfit : CellsFit old cells) (hextends : Extends old new) :
    CellsFit new cells := by
  refine ⟨hfit.1.trans hextends.1.symm, fun column id after hid hafter ↦ ?_⟩
  have hlt : column < old.length := by
    rw [← hfit.1]
    exact (List.getElem?_eq_some_iff.mp hid).1
  have hbefore := getElem?_eq_getElem hlt
  exact lt_of_lt_of_le (hfit.2 column id _ hid hbefore)
    (hextends.2 column _ after hbefore hafter).length_le

variable {value : ScalarValue}

/-- Storing the number of a value in the cell of a column whose dictionary has grown keeps the cells
in range. -/
theorem CellsFit.set (hfit : CellsFit dictionaries cells) {id : ℕ}
    (hdictionary : dictionaries[column]? = some dictionary)
    (hgrown : dictionary.values <+: grown.values) (hid : grown.values[id]? = some value) :
    CellsFit (dictionaries.set column grown) (cells.set column id) := by
  refine ⟨by simpa using hfit.1, fun other given after hgiven hafter ↦ ?_⟩
  rw [getElem?_set] at hgiven
  split_ifs at hgiven with hcolumn hinside
  · subst hcolumn
    rw [List.getElem?_set_self (List.getElem?_eq_some_iff.mp hdictionary).1,
      Option.some.injEq] at hafter
    rw [Option.some.injEq] at hgiven
    subst hgiven hafter
    exact (List.getElem?_eq_some_iff.mp hid).1
  · exact (hfit.extends (extends_set hdictionary hgrown)).2 other given after hgiven hafter

theorem ContainsAt.extends (hcontains : ContainsAt old column value) (hextends : Extends old new) :
    ContainsAt new column value := by
  obtain ⟨before, hbefore, hvalue⟩ := hcontains
  have hlt : column < new.length := by
    rw [hextends.1]
    exact (List.getElem?_eq_some_iff.mp hbefore).1
  have hafter := getElem?_eq_getElem hlt
  obtain ⟨id, hpos, hid⟩ := Interner.contains_iff.mp hvalue
  obtain ⟨_, hrest⟩ := hextends.2 column before _ hbefore hafter
  refine ⟨_, hafter, Interner.contains_iff.mpr ⟨id, hpos, ?_⟩⟩
  rw [← hrest, List.getElem?_append_left (List.getElem?_eq_some_iff.mp hid).1, hid]

theorem cellsFit_zero {count : ℕ} (hcount : count = dictionaries.length) :
    CellsFit dictionaries (List.replicate count 0) := by
  refine ⟨by rw [length_replicate, hcount], fun column id dictionary hid hdictionary ↦ ?_⟩
  have hzero : id = 0 := eq_of_mem_replicate (mem_of_getElem? hid)
  rw [hzero]
  exact length_pos_of_ne_nil dictionary.values_ne_nil

/-- Growing dictionaries do not change what the stored cells mean. -/
theorem cellValues_extends (hfit : CellsFit old cells)
    (hextends : Extends old new) : cellValues new cells = cellValues old cells := by
  refine ext_getElem? fun column ↦ ?_
  rw [cellValues, cellValues, getElem?_mapIdx, getElem?_mapIdx]
  cases hid : cells[column]? with
  | none => rfl
  | some id =>
    have hlt : column < old.length := by
      rw [← hfit.1]
      exact (List.getElem?_eq_some_iff.mp hid).1
    have hbefore := getElem?_eq_getElem hlt
    have hafter := getElem?_eq_getElem (hextends.1.symm ▸ hlt)
    have hprefix := hextends.2 column _ _ hbefore hafter
    have hinside := hfit.2 column id _ hid hbefore
    simp only [Option.map_some, cellValueOf, hbefore, hafter, Option.bind_some]
    obtain ⟨_, hrest⟩ := hprefix
    rw [← hrest, getElem?_append_left hinside]

theorem cellValues_zero (count : ℕ) :
    cellValues dictionaries (List.replicate count 0) = List.replicate count none := by
  refine ext_getElem? fun column ↦ ?_
  rw [cellValues, getElem?_mapIdx, getElem?_replicate, getElem?_replicate]
  split_ifs with hlt
  · rfl
  · rfl

def setCells (values : List (Option ScalarValue)) (cells : List StoredCell) :
    List (Option ScalarValue) :=
  cells.foldl (fun values cell ↦ values.set cell.column (some cell.value)) values

theorem length_setCells (values : List (Option ScalarValue)) (cells : List StoredCell) :
    (setCells values cells).length = values.length := by
  induction cells generalizing values with
  | nil => rfl
  | cons _ _ ih => rw [setCells, foldl_cons, ← setCells, ih, length_set]

theorem containsAt_set (hdictionary : dictionaries[column]? = some dictionary)
    (hgrown : ∀ other, grown.Contains other ↔ dictionary.Contains other ∨ other = value) (other : ℕ)
    (candidate : ScalarValue) :
    ContainsAt (dictionaries.set column grown) other candidate ↔
      ContainsAt dictionaries other candidate ∨ other = column ∧ candidate = value := by
  have hlt := (List.getElem?_eq_some_iff.mp hdictionary).1
  unfold ContainsAt
  by_cases hother : other = column
  · subst hother
    simp only [getElem?_set_self hlt, hdictionary, Option.some.injEq,
      exists_eq_left', hgrown, true_and]
  · rw [getElem?_set_ne (Ne.symm hother)]
    simp [hother]

/-- The dictionaries only grow, by values of the record. When no value is refused, the record's
values are written over the row's old cells. The induction is on the cells, and the numbers given so
far fit the dictionaries. -/
theorem internCells_spec (cells : List StoredCell) (dictionaries : List Dictionary) (ids : List ℕ)
    (hfit : CellsFit dictionaries ids) :
    Extends dictionaries (internCells cells dictionaries ids).1 ∧
      (∀ column value, ContainsAt (internCells cells dictionaries ids).1 column value →
        ContainsAt dictionaries column value ∨ ∃ cell ∈ cells, cell.column = column ∧
        cell.value = value) ∧ ∀ given, (internCells cells dictionaries ids).2 = .ok given →
        CellsFit (internCells cells dictionaries ids).1 given ∧
        cellValues (internCells cells dictionaries ids).1 given =
          setCells (cellValues dictionaries ids) cells ∧
        ∀ cell ∈ cells, ContainsAt (internCells cells dictionaries ids).1
          cell.column cell.value := by
  induction cells generalizing dictionaries ids with
  | nil =>
    refine ⟨Extends.refl _, fun column value hvalue ↦ .inl hvalue, fun given hgiven ↦ ?_⟩
    simp only [internCells, Except.ok.injEq] at hgiven
    subst hgiven
    exact ⟨hfit, rfl, by simp⟩
  | cons cell _ ih =>
    cases hdictionary : dictionaries[cell.column]? with
    | none =>
      simp only [internCells, hdictionary]
      exact ⟨Extends.refl _, fun column value hvalue ↦ .inl hvalue, by simp⟩
    | some dictionary =>
      cases hintern : dictionary.intern cell.value with
      | none =>
        simp only [internCells, hdictionary, hintern]
        exact ⟨Extends.refl _, fun column value hvalue ↦ .inl hvalue, by simp⟩
      | some result =>
        obtain ⟨id, grown⟩ := result
        obtain ⟨_, hvalue, hprefix, hcontains⟩ := Interner.intern_eq_some hintern
        have hlt := (List.getElem?_eq_some_iff.mp hdictionary).1
        have hextends := extends_set hdictionary hprefix
        have hset := containsAt_set hdictionary hcontains
        have hfitSet := hfit.set hdictionary hprefix hvalue
        have hvaluesSet : cellValues (dictionaries.set cell.column grown) (ids.set cell.column id) =
            (cellValues dictionaries ids).set cell.column (some cell.value) := by
          have hnumber : cellValueOf (dictionaries.set cell.column grown) cell.column id =
              some cell.value := by
            rw [cellValueOf, if_neg (by omega), getElem?_set_self hlt, Option.bind_some, hvalue]
          rw [← cellValues_extends hfit hextends, cellValues, mapIdx_set, hnumber, cellValues]
        obtain ⟨hgrow, hnew, hok⟩ := ih _ _ hfitSet
        simp only [internCells, hdictionary, hintern]
        refine ⟨hextends.trans hgrow, fun column value hcolumn ↦ ?_, fun given hgiven ↦ ?_⟩
        · rcases hnew column value hcolumn with hold | ⟨other, hother, hsame⟩
          · rcases (hset _ _).mp hold with hold | ⟨rfl, rfl⟩
            · exact .inl hold
            · exact .inr ⟨cell, by simp, rfl, rfl⟩
          · exact .inr ⟨other, by simp [hother], hsame⟩
        obtain ⟨hfitGiven, hvalues, hcontainsGiven⟩ := hok given hgiven
        refine ⟨hfitGiven, ?_, fun other hother ↦ ?_⟩
        · rw [hvalues, hvaluesSet]
          rfl
        · rcases mem_cons.mp hother with rfl | hother
          · exact ContainsAt.extends ((hset _ _).mpr (.inr ⟨rfl, rfl⟩)) hgrow
          · exact hcontainsGiven other hother

/-- Interning succeeds when dictionaries of the allowed size already hold every value. -/
theorem internCells_ok_of_contained {cells : List StoredCell} {larger : List Dictionary}
    {ids : List ℕ} (hfit : CellsFit dictionaries ids)
    (hlength : larger.length = dictionaries.length)
    (hsubset : ∀ column value, ContainsAt dictionaries column value →
      ContainsAt larger column value)
    (hcells : ∀ cell ∈ cells, ContainsAt larger cell.column cell.value) :
    ∃ given, (internCells cells dictionaries ids).2 = .ok given := by
  induction cells generalizing dictionaries ids with
  | nil => exact ⟨ids, rfl⟩
  | cons cell _ ih =>
    obtain ⟨big, hbig, hvalue⟩ := hcells cell (by simp)
    have hlt : cell.column < dictionaries.length := by
      rw [← hlength]
      exact (List.getElem?_eq_some_iff.mp hbig).1
    have hdictionary := getElem?_eq_getElem hlt
    have hroom : dictionaries[cell.column].intern cell.value ≠ none := by
      refine Interner.intern_ne_none_of_subset (fun other hother ↦ ?_) hvalue
      obtain ⟨_, hfound, hcontains⟩ := hsubset cell.column other ⟨_, hdictionary, hother⟩
      rw [hbig, Option.some.injEq] at hfound
      rwa [hfound]
    obtain ⟨⟨_, _⟩, hintern⟩ := Option.ne_none_iff_exists'.mp hroom
    obtain ⟨_, hnumber, hgrown, hcontains⟩ := Interner.intern_eq_some hintern
    have hset := containsAt_set hdictionary hcontains
    simp only [internCells, hdictionary, hintern]
    refine ih ?_ (by simpa using hlength) (fun column value hcolumn ↦ ?_)
      fun other hother ↦ hcells other (by simp [hother])
    · exact hfit.set hdictionary hgrown hnumber
    · rcases (hset column value).mp hcolumn with hold | ⟨rfl, rfl⟩
      · exact hsubset column value hold
      · exact ⟨big, hbig, hvalue⟩

/-! ### The invariant in memory -/

/-- The invariant of the rows in memory, with one dictionary per declared column. -/
structure Coherent (width : ℕ) (memory : Memory) : Prop where
  codes_length : memory.codes.length = memory.rows.length
  dictionaries_length : memory.dictionaries.length = width
  indexes : Indexes memory.byID (memory.rows.map Row.id)
  cells_fit : ∀ row ∈ memory.rows, CellsFit memory.dictionaries row.cells

/-- Deletion moves the last row into the hole of the deleted one. -/
theorem remove_eq {width : ℕ} {memory : Memory} (hmemory : Coherent width memory) {id : Bytes}
    (hposition : memory.byID id = some position) :
    ∃ last, memory.rows[memory.rows.length - 1]? = some last ∧ remove memory id = { memory with
          rows := swapRemove memory.rows position
          codes := swapRemove memory.codes position
          byID := removeFromIndex memory.byID id last.id position } := by
  have hlt : position < memory.rows.length := by simpa using hmemory.indexes.lt_length hposition
  have hlength := hmemory.codes_length
  obtain ⟨row, hrow⟩ : ∃ row, memory.rows[memory.rows.length - 1]? = some row :=
    ⟨_, getElem?_eq_getElem (by omega)⟩
  obtain ⟨code, hcode⟩ : ∃ code, memory.codes[memory.rows.length - 1]? = some code :=
    ⟨_, getElem?_eq_getElem (by omega)⟩
  refine ⟨row, hrow, ?_⟩
  simp only [remove, hposition, hrow, hcode, removeFromIndex]
  by_cases hlast : position = memory.rows.length - 1
  · -- The removed row is the last one: nothing moves, and its own entry is deleted.
    have hid : row.id = id := by
      have hkey := (hmemory.indexes id position).mp hposition
      rw [getElem?_map, hlast, hrow] at hkey
      simpa using hkey
    have hcodes := swapRemove_last memory.codes
    rw [hlength] at hcodes
    rw [if_neg (not_not.mpr hlast), hid, Function.update_idem, hlast, swapRemove_last, hcodes]
  · have hcodes := swapRemove_eq_take (hlength.symm ▸ hcode) position
    rw [hlength] at hcodes
    rw [if_pos hlast, swapRemove_eq_take hrow, hcodes]

end Clyde.CodeStore
