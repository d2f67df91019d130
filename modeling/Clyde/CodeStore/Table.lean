import Clyde.CodeStore.Collection

/-!
# The table a collection stands for

The live state without dictionaries and position maps: the entries in order, and the count of dead
records. Two handles hold the same live state when their tables are equal; their dictionary numbers
may differ. `Table.apply` says what one record does, and `applyAll_spec` connects it to the code:
records carried out in memory keep the invariant and change the table as the abstract records do,
and a refused record changes no entry.
-/

set_option autoImplicit false

namespace Clyde.CodeStore

open Foundation ByteCodec KeyedRows List

/-- One live row. -/
structure Entry where
  id : Bytes
  code : Code
  relativePath : Bytes
  splitPart : Int32
  splitRecorded : Bool
  dataOffset : ℕ
  dataLength : ℕ
  cells : List (Option ScalarValue)
  deriving DecidableEq

structure Table where
  entries : List Entry
  dead : ℕ
  deriving DecidableEq

def Table.empty : Table :=
  { entries := [], dead := 0 }

def entryOfRecord (width : ℕ) (record : RowRecord) : Entry :=
  { id := record.id, code := record.code, relativePath := record.relativePath,
    splitPart := record.splitPart, splitRecorded := record.splitRecorded,
    dataOffset := record.dataOffset, dataLength := record.dataLength,
    cells := setCells (List.replicate width none) record.cells }

def Table.position (table : Table) (id : Bytes) : Option ℕ :=
  KeyedRows.position (table.entries.map Entry.id) id

/-- Puts an entry under its id. A replaced entry is dead. -/
def Table.put (table : Table) (entry : Entry) : Table :=
  match table.position entry.id with
  | some position => { entries := table.entries.set position entry, dead := table.dead + 1 }
  | none => { table with entries := table.entries ++ [entry] }

/-- Deletes an id. The delete record itself counts as dead, whether or not the id is there. -/
def Table.delete (table : Table) (id : Bytes) : Table :=
  match table.position id with
  | some position => { entries := swapRemove table.entries position, dead := table.dead + 1 }
  | none => { table with dead := table.dead + 1 }

def Table.apply (width : ℕ) (table : Table) (record : RowRecord) : Table :=
  match record.kind with
  | .delete => table.delete record.id
  | .upsert => table.put (entryOfRecord width record)

def Table.applyAll (width : ℕ) (table : Table) (records : List RowRecord) : Table :=
  records.foldl (Table.apply width) table

theorem Table.applyAll_append (width : ℕ) (table : Table) (first second : List RowRecord) :
    table.applyAll width (first ++ second) = (table.applyAll width first).applyAll width second :=
  foldl_append

def entryOf (dictionaries : List Dictionary) (row : Row) (code : Code) : Entry :=
  { id := row.id, code := code, relativePath := row.relativePath, splitPart := row.splitPart,
    splitRecorded := row.splitRecorded, dataOffset := row.dataOffset, dataLength := row.dataLength,
    cells := cellValues dictionaries row.cells }

def view (memory : Memory) : Table :=
  { entries := List.zipWith (entryOf memory.dictionaries) memory.rows memory.codes
    dead := memory.dead }

variable {memory : Memory} {width : ℕ}

section

variable (hmemory : Coherent width memory)
include hmemory

theorem map_id_view : (view memory).entries.map Entry.id = memory.rows.map Row.id := by
  have hzip (rows : List Row) (codes : List Code) (hlength : codes.length = rows.length) :
      (List.zipWith (entryOf memory.dictionaries) rows codes).map Entry.id = rows.map Row.id := by
    induction rows generalizing codes with
    | nil => rfl
    | cons _ _ ih =>
      cases codes with
      | nil => simp at hlength
      | cons _ codes => simp [ih codes (by simpa using hlength), entryOf]
  exact hzip _ _ hmemory.codes_length

theorem byID_eq_position (id : Bytes) : memory.byID id = (view memory).position id := by
  rw [Table.position, map_id_view hmemory]
  exact hmemory.indexes.eq_position id

theorem nodup_view : ((view memory).entries.map Entry.id).Nodup := by
  rw [map_id_view hmemory]
  exact hmemory.indexes.nodup

end

section

variable (hmemory : Coherent width memory) {dictionaries : List Dictionary}
  (hextends : Extends memory.dictionaries dictionaries)
include hmemory hextends

theorem view_extends : view { memory with dictionaries := dictionaries } = view memory := by
  have hzip (rows : List Row) (codes : List Code)
      (hfit : ∀ row ∈ rows, CellsFit memory.dictionaries row.cells) :
      List.zipWith (entryOf dictionaries) rows codes =
        List.zipWith (entryOf memory.dictionaries) rows codes := by
    induction rows generalizing codes with
    | nil => rfl
    | cons row rows ih =>
      cases codes with
      | nil => rfl
      | cons _ codes =>
        rw [zipWith_cons_cons, zipWith_cons_cons,
          ih codes fun other hother ↦ hfit other (by simp [hother]), entryOf, entryOf,
          cellValues_extends (hfit row (by simp)) hextends]
  simp [view, hzip memory.rows _ hmemory.cells_fit]

theorem Coherent.extends : Coherent width { memory with dictionaries := dictionaries } where
  codes_length := hmemory.codes_length
  dictionaries_length := hextends.1.trans hmemory.dictionaries_length
  indexes := hmemory.indexes
  cells_fit row hrow := (hmemory.cells_fit row hrow).extends hextends

end

/-- Deletion keeps the invariant and deletes the row from the view. -/
theorem coherent_remove (hmemory : Coherent width memory) (id : Bytes) :
    Coherent width (remove memory id) ∧ view { remove memory id with dead := memory.dead + 1 } =
      (view memory).delete id := by
  cases hposition : memory.byID id with
  | none =>
    have hremove : remove memory id = memory := by simp [remove, hposition]
    rw [hremove]
    refine ⟨hmemory, ?_⟩
    rw [byID_eq_position hmemory] at hposition
    rw [Table.delete, hposition]
    rfl
  | some position =>
    obtain ⟨_, hlast, hremove⟩ := remove_eq hmemory hposition
    have hlt : position < memory.rows.length := by simpa using hmemory.indexes.lt_length hposition
    rw [hremove]
    refine ⟨⟨?_, hmemory.dictionaries_length, ?_, ?_⟩, ?_⟩
    · simp only [length_swapRemove, hmemory.codes_length]
    · simp only [map_swapRemove]
      exact hmemory.indexes.swapRemove hposition
        (by rw [length_map, getElem?_map, hlast, Option.map_some])
    · intro row hrow
      have hperm := swapRemove_perm_eraseIdx hlt
      exact hmemory.cells_fit row (mem_of_mem_eraseIdx (hperm.mem_iff.mp hrow))
    · rw [byID_eq_position hmemory] at hposition
      rw [Table.delete, hposition]
      simp [view, zipWith_swapRemove _ hmemory.codes_length.symm]

/-- Storing a row keeps the invariant and puts the row into the view. -/
theorem coherent_putRow (hmemory : Coherent width memory) (row : Row)
    (hfit : CellsFit memory.dictionaries row.cells) (code : Code) :
    Coherent width (putRow memory row code) ∧
      view (putRow memory row code) = (view memory).put (entryOf memory.dictionaries row code) := by
  cases hposition : memory.byID row.id with
  | none =>
    have hput : putRow memory row code = { memory with
          byID := Function.update memory.byID row.id (some memory.rows.length)
          rows := memory.rows ++ [row]
          codes := memory.codes ++ [code] } := by
      simp [putRow, hposition]
    rw [hput]
    refine ⟨⟨?_, hmemory.dictionaries_length, ?_, ?_⟩, ?_⟩
    · simp [hmemory.codes_length]
    · simpa using hmemory.indexes.append hposition
    · intro other hother
      rcases mem_append.mp hother with hother | hother
      · exact hmemory.cells_fit other hother
      · rwa [mem_singleton.mp hother]
    rw [byID_eq_position hmemory] at hposition
    have hid : (entryOf memory.dictionaries row code).id = row.id := rfl
    rw [Table.put, hid, hposition]
    simp [view, zipWith_append hmemory.codes_length.symm]
  | some position =>
    have hput : putRow memory row code = { memory with
          rows := memory.rows.set position row
          codes := memory.codes.set position code
          dead := memory.dead + 1 } := by
      simp [putRow, hposition]
    have hkey := (hmemory.indexes row.id position).mp hposition
    rw [hput]
    refine ⟨⟨?_, hmemory.dictionaries_length, ?_, ?_⟩, ?_⟩
    · simp [hmemory.codes_length]
    · obtain ⟨_, hget⟩ := List.getElem?_eq_some_iff.mp hkey
      simp only [map_set]
      rw [← hget, set_getElem_self]
      exact hmemory.indexes
    · intro other hother
      rcases mem_or_eq_of_mem_set hother with hother | rfl
      · exact hmemory.cells_fit other hother
      · exact hfit
    rw [byID_eq_position hmemory] at hposition
    have hid : (entryOf memory.dictionaries row code).id = row.id := rfl
    rw [Table.put, hid, hposition]
    simp [view, zipWith_set]

def RowRecord.HasCell (record : RowRecord) (column : ℕ) (value : ScalarValue) : Prop :=
  record.kind = .upsert ∧ ⟨column, value⟩ ∈ record.cells

/-- The dictionaries gain only values of attempted records and hold those of the records that were
carried out. -/
structure Applied (width : ℕ) (memory next : Memory) (attempted carried : List RowRecord) :
    Prop where
  coherent : Coherent width next
  view_eq : view next = (view memory).applyAll width carried
  grown : Extends memory.dictionaries next.dictionaries
  values : ∀ column value, ContainsAt next.dictionaries column value →
    ContainsAt memory.dictionaries column value ∨ ∃ record ∈ attempted, record.HasCell column value
  contained : ∀ record ∈ carried, ∀ column value, record.HasCell column value →
    ContainsAt next.dictionaries column value

theorem Applied.refl (hmemory : Coherent width memory)
    (attempted : List RowRecord) : Applied width memory memory attempted [] where
  coherent := hmemory
  view_eq := rfl
  grown := Extends.refl _
  values _ _ hvalue := .inl hvalue
  contained := by simp

/-- Two runs of applied records compose. -/
theorem Applied.append {middle next : Memory}
    {firstAttempted firstCarried attempted carried : List RowRecord}
    (hfirst : Applied width memory middle firstAttempted firstCarried)
    (hsecond : Applied width middle next attempted carried) :
    Applied width memory next (firstAttempted ++ attempted) (firstCarried ++ carried) where
  coherent := hsecond.coherent
  view_eq := by rw [hsecond.view_eq, hfirst.view_eq, Table.applyAll_append]
  grown := hfirst.grown.trans hsecond.grown
  values column value hvalue := by
    rcases hsecond.values column value hvalue with hvalue | ⟨record, hrecord, hcell⟩
    · rcases hfirst.values column value hvalue with hvalue | ⟨record, hrecord, hcell⟩
      · exact .inl hvalue
      · exact .inr ⟨record, mem_append_left _ hrecord, hcell⟩
    · exact .inr ⟨record, mem_append_right _ hrecord, hcell⟩
  contained record hrecord column value hcell := by
    rcases mem_append.mp hrecord with hrecord | hrecord
    · exact (hfirst.contained record hrecord column value hcell).extends hsecond.grown
    · exact hsecond.contained record hrecord column value hcell

theorem dictionaries_remove (hmemory : Coherent width memory)
    (id : Bytes) : (remove memory id).dictionaries = memory.dictionaries ∧
      (remove memory id).dead = memory.dead := by
  cases hposition : memory.byID id with
  | none =>
    have hremove : remove memory id = memory := by simp [remove, hposition]
    rw [hremove]
    exact ⟨rfl, rfl⟩
  | some =>
    obtain ⟨_, _, hremove⟩ := remove_eq hmemory hposition
    rw [hremove]
    exact ⟨rfl, rfl⟩

theorem dictionaries_putRow (memory : Memory) (row : Row) (code : Code) :
    (putRow memory row code).dictionaries = memory.dictionaries := by
  unfold putRow
  split <;> rfl

variable (hmemory : Coherent width memory)
include hmemory

theorem applied_delete {record : RowRecord} (hkind : record.kind = .delete) :
    (apply width memory record).2 = none ∧
      Applied width memory (apply width memory record).1 [record] [record] := by
  obtain ⟨hcoherent, hview⟩ := coherent_remove hmemory record.id
  obtain ⟨hdictionaries, hdead⟩ := dictionaries_remove hmemory record.id
  simp only [apply, hkind]
  refine ⟨trivial, ⟨hcoherent.codes_length, hcoherent.dictionaries_length, hcoherent.indexes,
    hcoherent.cells_fit⟩, ?_, ?_, ?_, ?_⟩
  · rw [hdead, hview, Table.applyAll, foldl_cons, foldl_nil, Table.apply, hkind]
  · rw [hdictionaries]
    exact Extends.refl _
  · rw [hdictionaries]
    exact fun column value hvalue ↦ .inl hvalue
  · intro _ hother _ _ hcell
    rw [mem_singleton.mp hother, RowRecord.HasCell, hkind] at hcell
    exact absurd hcell.1 (by decide)

/-- A record is applied whole or its interning fails; in both cases the invariant stays. -/
theorem apply_spec (record : RowRecord) :
    ((apply width memory record).2 = none ∧
        Applied width memory (apply width memory record).1 [record] [record]) ∨
      ((apply width memory record).2 ≠ none ∧
        Applied width memory (apply width memory record).1 [record] []) := by
  cases hkind : record.kind with
  | delete => exact .inl (applied_delete hmemory hkind)
  | upsert =>
    have hzero := cellsFit_zero hmemory.dictionaries_length.symm
    obtain ⟨hgrown, hvalues, hok⟩ := internCells_spec _ _ _ hzero
    have hnew (column : ℕ) (value : ScalarValue)
        (hvalue : ContainsAt (internCells record.cells memory.dictionaries
          (List.replicate width 0)).1 column value) :
        ContainsAt memory.dictionaries column value ∨ ∃ other ∈ [record],
        other.HasCell column value := by
      rcases hvalues column value hvalue with hvalue | ⟨_, hcell, rfl, rfl⟩
      · exact .inl hvalue
      · exact .inr ⟨record, by simp, hkind, hcell⟩
    generalize hintern : internCells _ _ _ = interned at hgrown hnew hok
    obtain ⟨dictionaries, outcome⟩ := interned
    have hcoherent := hmemory.extends hgrown
    have hview := view_extends hmemory hgrown
    cases outcome with
    | error =>
      simp only [apply, hkind, hintern]
      exact .inr ⟨by simp, hcoherent, hview, hgrown, hnew, by simp⟩
    | ok cells =>
      obtain ⟨hfit, hcellValues, hcontained⟩ := hok cells rfl
      rw [cellValues_zero] at hcellValues
      obtain ⟨hput, hputView⟩ :=
        coherent_putRow hcoherent (rowOfRecord record cells) hfit record.code
      have hdictionaries := dictionaries_putRow { memory with dictionaries := dictionaries }
      simp only [apply, hkind, hintern]
      refine .inl ⟨trivial, hput, ?_, ?_, ?_, ?_⟩
      · have hentry : entryOf dictionaries (rowOfRecord record cells) record.code =
            entryOfRecord width record := by
          rw [entryOf, entryOfRecord, rowOfRecord, hcellValues]
        rw [hputView, hview, hentry, Table.applyAll, foldl_cons, foldl_nil, Table.apply, hkind]
      · rwa [hdictionaries]
      · rwa [hdictionaries]
      rw [hdictionaries]
      intro _ hother _ _ hcell
      rw [mem_singleton.mp hother] at hcell
      exact hcontained _ hcell.2

/-- Records are applied up to the first that fails, by induction on the list. -/
theorem applyAll_spec (records : List RowRecord) :
    ∃ carried, Applied width memory (applyAll width memory records).1 records carried ∧
      ((applyAll width memory records).2 = none ↔ carried = records) := by
  induction records generalizing memory with
  | nil => exact ⟨[], Applied.refl hmemory [], by simp [applyAll]⟩
  | cons record records ih =>
    obtain ⟨hnone, happlied⟩ | ⟨hsome, happlied⟩ := apply_spec hmemory record
    · generalize happly : apply width memory record = applied at hnone happlied
      obtain ⟨next, failure⟩ := applied
      obtain rfl : failure = none := hnone
      obtain ⟨carried, hrest, hall⟩ := ih happlied.coherent
      simp only [applyAll, happly]
      refine ⟨record :: carried, happlied.append hrest, hall.trans ?_⟩
      simp
    generalize happly : apply width memory record = applied at hsome happlied
    obtain ⟨_, failure⟩ := applied
    obtain ⟨_, rfl⟩ := Option.ne_none_iff_exists'.mp hsome
    simp only [applyAll, happly]
    exact ⟨[], happlied.append (Applied.refl happlied.coherent records), by simp⟩

/-- Records whose values larger dictionaries hold are all applied. -/
theorem applyAll_eq_none_of_contained {larger : List Dictionary} (hlength : larger.length = width)
    (hsubset : ∀ column value, ContainsAt memory.dictionaries column value →
      ContainsAt larger column value) {records : List RowRecord}
    (hrecords : ∀ record ∈ records, ∀ column value, record.HasCell column value →
      ContainsAt larger column value) :
    (applyAll width memory records).2 = none := by
  induction records generalizing memory with
  | nil => rfl
  | cons record _ ih =>
    have hok : (apply width memory record).2 = none := by
      cases hkind : record.kind with
      | delete => simp [apply, hkind]
      | upsert =>
        obtain ⟨_, hgiven⟩ :=
          internCells_ok_of_contained (cellsFit_zero hmemory.dictionaries_length.symm)
          (hlength.trans hmemory.dictionaries_length.symm) hsubset
          fun cell hcell ↦ hrecords record (by simp) _ _ ⟨hkind, hcell⟩
        simp only [apply, hkind]
        generalize internCells _ _ _ = interned at hgiven
        obtain ⟨_, _⟩ := interned
        simp only at hgiven
        rw [hgiven]
    obtain ⟨_, happlied⟩ | ⟨hrefused, _⟩ := apply_spec hmemory record
    · generalize happly : apply width memory record = applied at hok happlied
      obtain ⟨_, failure⟩ := applied
      obtain rfl : failure = none := hok
      simp only [applyAll, happly]
      refine ih happlied.coherent (fun column value hvalue ↦ ?_)
        fun other hother ↦ hrecords other (by simp [hother])
      rcases happlied.values column value hvalue with hold | ⟨other, hother, hcell⟩
      · exact hsubset column value hold
      · exact hrecords other (by simp [mem_singleton.mp hother]) column value hcell
    · exact absurd hok hrefused

end Clyde.CodeStore
