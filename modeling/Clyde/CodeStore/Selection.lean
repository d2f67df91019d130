import Clyde.CodeStore.Handles

/-!
# Rows that a filter selects

`codestore/store.go`: `Delete` writes a delete record for every row that a filter selects, and
`Query` reads the selected rows in the order of their ids, up to a limit.

A compiled filter looks up dictionary numbers that rows hold. `CodeCollection.InRange` says that
they are in range, and `Reachable.inRange` that every handle has it in every run, whatever fails.
`filter_selects` is the result.

Scope. The score of a hit and its line numbers are constants and left out. A lookup out of range
panics in the source and is `none` or `.panic` here.
-/

set_option autoImplicit false

namespace Clyde.CodeStore

open Foundation ByteCodec List Option

/-! ### The code -/

/-- A row that a query returns. -/
structure Hit where
  id : Bytes
  content : Bytes
  relativePath : Bytes
  metadata : Bytes
  splitPart : Int32
  splitPartRecorded : Bool
  scalars : Bytes → Option ScalarCell

/-- The selected positions in order. A selection that panics is `none`. -/
def selectPositions (selected : ℕ → Option Bool) : ℕ → List Row → Option (List ℕ)
  | _, [] => some []
  | position, _ :: rest =>
    match selected position with
    | none => none
    | some false => selectPositions selected (position + 1) rest
    | some true => (selectPositions selected (position + 1) rest).map (position :: ·)

def idAt (memory : Memory) (position : ℕ) : Bytes := (memory.rows[position]?.map Row.id).getD []

def selectSorted (memory : Memory) (selected : ℕ → Option Bool) : Option (List ℕ) :=
  (selectPositions selected 0 memory.rows).map fun positions ↦
    positions.insertionSort fun left right ↦ idAt memory left ≤ idAt memory right

def limited {α : Type} (limit : ℤ) (elements : List α) : List α :=
  if 0 < limit ∧ limit < elements.length then elements.take limit.toNat else elements

def hit (read : Bytes → Bool) (data : Bytes) (columns : List ScalarColumn) (memory : Memory)
    (names : List Bytes) (position : ℕ) : Except Failure Hit :=
  match memory.rows[position]? with
  | none => .error .panic
  | some row =>
    if read row.id then .error (.readRow row.id)
    else
      match readBlob data row.id row.dataOffset row.dataLength with
      | .error failure => .error failure
      | .ok (content, metadata) =>
        match cellsNamed columns memory row names with
        | none => .error .panic
        | some scalars =>
          .ok
            { id := row.id, content := content, relativePath := row.relativePath
              metadata := metadata, splitPart := row.splitPart
              splitPartRecorded := row.splitRecorded, scalars := scalars }

def readHits (read : Bytes → Bool) (data : Bytes) (columns : List ScalarColumn) (memory : Memory)
    (names : List Bytes) : List ℕ → Except Failure (List Hit)
  | [] => .ok []
  | position :: rest =>
    match hit read data columns memory names position with
    | .error failure => .error failure
    | .ok found =>
      match readHits read data columns memory names rest with
      | .error failure => .error failure
      | .ok hits => .ok (found :: hits)

section

variable [Externals]

/-- Compiles a filter that may be missing. A missing filter selects every row. -/
def compileOptional (columns : List ScalarColumn) (memory : Memory) :
    Option Filter → Except Failure Predicate
  | none => .ok fun _ ↦ some .truthTrue
  | some filter => compileFilter columns memory filter

def query (read : Bytes → Bool) (disk : Disk) (stored : CodeCollection) (filter : Option Filter)
    (limit : ℤ) (names : List Bytes) : Except Failure (List Hit) :=
  match compileOptional stored.header.columns stored.memory filter with
  | .error failure => .error failure
  | .ok selects =>
    match selectSorted stored.memory fun position ↦ (selects position).map fun truth ↦
      truth = .truthTrue with
    | none => .error .panic
    | some positions =>
      readHits read (disk.files.contents stored.dataFile) stored.header.columns stored.memory names
        (limited limit positions)

/-! ### Numbers in range -/

/-- Every stored cell is a number of its column's dictionary. -/
def CodeCollection.InRange (stored : CodeCollection) : Prop := Coherent stored.width stored.memory

variable {stored : CodeCollection}

omit [Externals] in
theorem inRange_truncateRows (hstored : stored.InRange) (faults : LogFaults) (log : Bytes)
    (offset : ℕ) :
    (truncateRows faults log stored offset).stored.InRange := by
  unfold truncateRows
  split_ifs
  · exact hstored
  · exact hstored

theorem inRange_rejectRecord (hstored : stored.InRange)
    (faults : LogFaults) (log : Bytes) (offset start : ℕ) (operation : RejectOperation) :
    (rejectRecord faults log stored offset start operation).stored.InRange := by
  unfold rejectRecord
  split
  · exact hstored
  split
  · exact hstored
  · exact inRange_truncateRows hstored faults log offset
  · exact hstored

/-- A check that ends the replay leaves the cells in range. -/
theorem inRange_checkRecord (hstored : stored.InRange)
    {faults : LogFaults} {log : Bytes} {offset stop : ℕ} {payload : Bytes} {checksum : ℕ}
    {result : Replayed}
    (hresult : checkRecord faults log stored offset stop payload checksum = .stop result) :
    result.stored.InRange := by
  unfold checkRecord at hresult
  split_ifs at hresult with hdamaged
  · rw [← Checked.stop.inj hresult]
    exact inRange_rejectRecord hstored faults log offset _ .checkPayload
  split at hresult
  · rwa [← Checked.stop.inj hresult]
  · rwa [← Checked.stop.inj hresult]
  · split_ifs at hresult
    rwa [← Checked.stop.inj hresult]

variable {memory : Memory}

omit [Externals] in
theorem coherent_apply {width : ℕ} (hmemory : Coherent width memory)
    (record : RowRecord) : Coherent width (apply width memory record).1 := by
  obtain ⟨_, happlied⟩ | ⟨_, happlied⟩ := apply_spec hmemory record
  · exact happlied.coherent
  · exact happlied.coherent

/-- The replay keeps the cells in range, by induction along its offsets. -/
theorem inRange_replayLoop (faults : LogFaults) (log : Bytes) (stored : CodeCollection)
    (offset : ℕ) (hstored : stored.InRange) :
    (replayLoop faults log stored offset).stored.InRange := by
  fun_induction replayLoop faults log stored offset with
  | case1 stored offset => exact inRange_truncateRows hstored faults log offset
  | case2 stored offset => exact hstored
  | case3 stored offset => exact inRange_truncateRows hstored faults log offset
  | case4 stored offset => exact inRange_rejectRecord hstored faults log offset _ .checkLength
  | case5 stored offset => exact inRange_rejectRecord hstored faults log offset _ .checkEnd
  | case6 stored offset => exact hstored
  | case7 stored offset _ _ _ _ _ _ _ _ _ _ _ hcheck => exact inRange_checkRecord hstored hcheck
  | case8 stored offset _ _ _ _ _ _ _ _ _ _ record _ memory _ happly =>
    have hmemory := coherent_apply hstored record
    rwa [happly] at hmemory
  | case9 _ _ _ _ _ _ _ _ _ _ _ _ record _ _ happly ih =>
    have hmemory := coherent_apply hstored record
    rw [happly] at hmemory
    exact ih hmemory

theorem inRange_replay (faults : LogFaults) (log : Bytes)
    (hstored : stored.InRange) : (replay faults log stored).stored.InRange := by
  unfold replay
  split_ifs
  · exact hstored
  · exact hstored
  · exact inRange_replayLoop faults log stored _ hstored

variable {stored : CodeCollection}

/-- A loaded handle has its cells in range. -/
theorem inRange_loadCollection {faults : LoadFaults} {disk next : Disk}
    (hload : loadCollection faults disk = (next, .ok stored)) : stored.InRange := by
  unfold loadCollection at hload
  cases hheader : readHeader disk with
  | error failure => simp [hheader] at hload
  | ok found =>
    obtain ⟨header, info⟩ := found
    cases hfiles : openFiles disk header.generation with
    | error failure => simp [hheader, hfiles] at hload
    | ok files =>
      simp only [hheader, hfiles] at hload
      have hopened : (openedHandle disk header info files).InRange := coherent_empty _
      have hreplayed := inRange_replay faults.log (disk.files.contents files.1) hopened
      cases hfailure : (replay faults.log (disk.files.contents files.1)
          (openedHandle disk header info files)).failure with
      | some => simp [hfailure] at hload
      | none =>
        simp only [hfailure, Prod.mk.injEq, Except.ok.injEq] at hload
        exact hload.2 ▸ hreplayed

section

variable (faults : LoadFaults) (disk : Disk) (hstored : stored.InRange)
include hstored

theorem inRange_reload : (reload faults disk stored).stored.InRange := by
  unfold reload
  split
  · exact hstored
  · next fresh hload =>
    have hfresh : fresh.InRange := inRange_loadCollection hload
    exact hfresh

theorem inRange_syncWithDisk : (syncWithDisk faults disk stored).stored.InRange := by
  have hreload := inRange_reload faults disk hstored
  unfold syncWithDisk
  split
  · exact hreload
  split
  · exact hstored
  · exact hreload
  split_ifs
  · exact hreload
  · exact hstored
  · exact inRange_replay faults.log _ hstored

theorem inRange_lockForWrite : (lockForWrite faults disk stored).stored.InRange := by
  unfold lockForWrite
  split_ifs
  · exact hstored
  · exact inRange_syncWithDisk faults disk hstored

theorem inRange_lockForRead : (lockForRead faults disk stored).stored.InRange := by
  unfold lockForRead
  split_ifs
  · exact hstored
  split
  · exact hstored
  · exact hstored
  · exact inRange_lockForWrite faults disk hstored

end

theorem length_offsets {read : ℕ → Bool} (hstored : stored.InRange) {data : Bytes}
    {files : CompactedFiles}
    (hfiles : writeCompacted read stored.header.columns data (liveRecords stored.memory) 0 0 =
      .ok files) : files.offsets.length = stored.memory.rows.length := by
  obtain ⟨hmoved, _⟩ := writeCompacted_spec [] hfiles
  rw [← hmoved.length_eq, liveRecords_eq, length_map, view, length_zipWith,
    hstored.codes_length, Nat.min_self]

variable (faults : CompactFaults)

omit [Externals] in
theorem inRange_finishCompaction (trace : List Disk) (replaced : Disk)
    (previous : Int64) {switched : CodeCollection} (hswitched : switched.InRange) :
    (finishCompaction faults trace replaced previous switched).stored.InRange := by
  unfold finishCompaction
  by_cases hdirectory : faults.directory
  · rwa [if_pos hdirectory]
  · rwa [if_neg hdirectory]

variable (disk : Disk)

/-- A compaction keeps the cells in range, also when it fails. -/
theorem inRange_compact (hstored : stored.InRange) :
    (compact faults disk stored).stored.InRange := by
  unfold compact
  split
  · exact hstored
  split
  · exact hstored
  cases hfiles : writeCompacted faults.read stored.header.columns
    (disk.files.contents stored.dataFile) (liveRecords stored.memory) 0 0 with
  | error => exact hstored
  | ok files =>
    dsimp only
    split_ifs
    · exact hstored
    · exact hstored
    · exact hstored
    · have hmoved : Coherent stored.width (moveRows stored.memory files.offsets) :=
        coherent_moveRows hstored (length_offsets hstored hfiles)
      exact inRange_finishCompaction faults _ _ _ hmoved

theorem inRange_compactIfDead
    (hstored : stored.InRange) : (compactIfDead faults disk stored).stored.InRange := by
  unfold compactIfDead
  split_ifs
  · exact inRange_compact faults disk hstored
  · exact hstored

section

variable (faults : WriteFaults) (disk : Disk) (hstored : stored.InRange)
include hstored

omit [Externals] in
theorem inRange_writeData (buffer : Bytes) :
    (writeData faults disk stored buffer).stored.InRange := by
  unfold writeData
  split
  · exact hstored
  cases faults.data with
  | some => exact hstored
  | none =>
    split_ifs
    · exact hstored
    · exact hstored
    · exact hstored

theorem inRange_appendRows (buffer : Bytes) (records : List RowRecord) :
    (appendRows faults disk stored buffer records).stored.InRange := by
  unfold appendRows
  dsimp only
  split
  · exact hstored
  cases faults.rows with
  | some => exact hstored
  | none =>
    by_cases hsync : faults.rowsSync
    · rwa [if_pos hsync]
    rw [if_neg hsync]
    obtain ⟨_, happlied, _⟩ := applyAll_spec hstored records
    have hmemory := happlied.coherent
    generalize applyAll _ _ records = applied at hmemory
    obtain ⟨_, failure⟩ := applied
    cases failure with
    | some => exact hmemory
    | none => exact inRange_compactIfDead _ _ hmemory

theorem inRange_write (batch : List BatchItem) :
    (write faults disk stored batch).stored.InRange := by
  unfold write
  dsimp only
  split
  · exact hstored
  have hwritten := inRange_writeData faults disk hstored (placeBlobs stored.dataSize batch).2
  split
  · exact hwritten
  · exact inRange_appendRows faults _ hwritten _ _

end

theorem inRange_writeCounted (faults : OperationFaults) (disk : Disk)
    (hstored : stored.InRange) (batch : Except Failure (List BatchItem)) :
    (writeCounted faults disk stored batch).result.stored.InRange := by
  unfold writeCounted
  split
  · exact hstored
  · exact hstored
  · exact inRange_write _ disk hstored _

theorem inRange_ensureColumns (faults : HeaderFaults) (disk : Disk)
    (hstored : stored.InRange) (requested : List ScalarColumn) :
    (ensureColumns faults disk stored requested).stored.InRange := by
  have hwide := coherent_widenMemory hstored
    (requested.filter fun column ↦ (stored.columnIndex column.name).isNone).length
  rw [← padRows_addDictionaries hstored, CodeCollection.width, ← length_append] at hwide
  unfold ensureColumns
  dsimp only
  split
  · exact hstored
  by_cases hcolumns : (stored.header.columns ++ requested.filter fun column ↦
      (stored.columnIndex column.name).isNone).length < 2 ^ 63
  · rw [dif_pos hcolumns]
    split
    · exact hstored
    · exact hwide
  · rwa [dif_neg hcolumns]

/-- Every operation keeps the cells in range, whatever faults it meets. -/
theorem inRange_perform (faults : OperationFaults) (disk : Disk)
    (hstored : stored.InRange) (operation : Operation) :
    (perform faults disk stored operation).stored.InRange := by
  cases operation with
  | ensureCollection _ columns => exact inRange_ensureColumns _ disk hstored columns
  | upsert rows =>
    change (upsert faults disk stored rows).stored.InRange
    unfold upsert
    split
    · exact hstored
    · exact inRange_write _ disk hstored _
  | delete filter =>
    change (delete faults disk stored filter).result.stored.InRange
    unfold delete
    split
    · exact hstored
    · exact inRange_writeCounted faults disk hstored _
  | deleteItems | updateRows => exact inRange_writeCounted faults disk hstored _

/-- Every locked section keeps the cells in range. -/
theorem inRange_runSection (hstored : stored.InRange)
    (action : Action) : (runSection disk stored action).stored.InRange := by
  cases action with
  | opens | creates | closes => exact hstored
  | operates kept faults operation =>
    have hlocked := inRange_lockForWrite kept disk hstored
    change (operate kept faults disk stored operation).stored.InRange
    unfold operate
    dsimp only
    split
    · exact hlocked
    · exact inRange_perform faults _ hlocked operation
  | locks kept => exact inRange_lockForWrite kept disk hstored
  | reads kept => exact inRange_lockForRead kept disk hstored

section

variable {ι : Type} [DecidableEq ι]

def World.InRange (world : World ι) : Prop :=
  ∀ name stored, world.handles name = some stored → stored.InRange

variable {world : World ι}

omit [Externals] in
theorem inRange_update (hworld : world.InRange) (name : ι) (disk : Disk)
    (hstored : stored.InRange) :
    World.InRange
      { disk := disk, handles := Function.update world.handles name (some stored) } := by
  intro other found hfound
  simp only [Function.update_apply] at hfound
  split_ifs at hfound
  · exact some.inj hfound ▸ hstored
  · exact hworld other found hfound

/-- One step of a process keeps the cells of every handle in range. -/
theorem inRange_step (hworld : world.InRange) (name : ι) (action : Action) :
    (world.step name action).InRange := by
  cases hhandle : world.handles name with
  | some stored =>
    rw [step_section hhandle]
    exact inRange_update hworld name _
      (inRange_runSection world.disk (hworld name stored hhandle) action)
  | none =>
    unfold World.step
    rw [hhandle]
    cases action with
    | opens =>
      dsimp only
      split
      · next hload => exact inRange_update hworld name _ (inRange_loadCollection hload)
      · exact hworld
    | creates | operates | locks | reads | closes => exact hworld

theorem Reachable.inRange {allowed : World ι → ι → Action → Prop} {start : World ι}
    (hstart : ∀ name, start.handles name = none) (hreachable : Reachable allowed start world) :
    world.InRange := by
  induction hreachable with
  | refl => exact fun name stored hstored ↦ absurd hstored (by simp [hstart])
  | step _ name action _ ih => exact inRange_step ih name action

/-- In every run of any handles' sections, succeeding or failing at any point, a handle's rows have
distinct ids, one code each and a cell in the dictionary of each declared column, and `byID` finds
exactly them. Assumes: no handle is open at the start. -/
theorem rows_indexed_by_id {start : World ι} (hstart : ∀ name, start.handles name = none)
    (hreachable : Reachable (fun _ _ _ ↦ True) start world) {name : ι} {stored : CodeCollection}
    (hstored : world.handles name = some stored) :
    stored.memory.codes.length = stored.memory.rows.length ∧ (stored.memory.rows.map Row.id).Nodup ∧
      (∀ id position, stored.memory.byID id = some position ↔
        (stored.memory.rows.map Row.id)[position]? = some id) ∧
      stored.memory.dictionaries.length = stored.header.columns.length ∧
      ∀ row ∈ stored.memory.rows, CellsFit stored.memory.dictionaries row.cells := by
  have hcoherent : Coherent stored.width stored.memory :=
    hreachable.inRange hstart name stored hstored
  exact ⟨hcoherent.codes_length, hcoherent.indexes.nodup, hcoherent.indexes,
    hcoherent.dictionaries_length, hcoherent.cells_fit⟩

end

omit [Externals] in
theorem rows_indexed_by_id_sample :
    ∃ stored, (@World.step sampleExternals Bool _ sharedWorld false sampleWrite).handles false =
      some stored ∧
      (stored.memory.rows.map Row.id).Nodup ∧ ∀ id position, stored.memory.byID id = some position ↔
        (stored.memory.rows.map Row.id)[position]? = some id := by
  let _ := sampleExternals
  obtain ⟨stored, hstored⟩ := isSome_iff_exists.mp (by decide +kernel :
    ((sharedWorld.step false sampleWrite).handles false).isSome)
  obtain ⟨_, hdistinct, hindex, _⟩ := rows_indexed_by_id (fun _ ↦ rfl)
    (.step (.step (.step .refl true _ trivial) false _ trivial) false _ trivial) hstored
  exact ⟨stored, hstored, hdistinct, hindex⟩

/-! ### Filters over declared columns -/

mutual

/-- The tree has only supported kinds, each leaf is on a declared column, and a `not` has one child.
-/
def Filter.Declared (columns : List ScalarColumn) : Filter → Prop
  | .mk kind children column _ _ _ =>
    match kind with
    | .all => FiltersDeclared columns children
    | .any => FiltersDeclared columns children
    | .not => children.length = 1 ∧ FiltersDeclared columns children
    | .other _ => False
    | _ => (columnIndexOf columns column).isSome

def FiltersDeclared (columns : List ScalarColumn) : List Filter → Prop
  | [] => True
  | child :: rest => child.Declared columns ∧ FiltersDeclared columns rest

end

variable {columns : List ScalarColumn}

theorem compileLeaf_ok (hmemory : Coherent columns.length memory) {kind : FilterKind}
    {column : Bytes} (hcolumn : (columnIndexOf columns column).isSome) {values : List ScalarValue}
    {lower upper : Option Int64} {decide : ScalarValue → Bool → Truth}
    (hdecide : leafDecision kind values lower upper = .ok decide) :
    ∃ predicate, compileLeaf columns memory kind column values lower upper = .ok predicate := by
  obtain ⟨_, hindex⟩ := isSome_iff_exists.mp hcolumn
  have hlt := hmemory.lt_dictionaries hindex
  simp only [compileLeaf, hindex, hdecide, getElem?_eq_getElem hlt]
  exact ⟨_, rfl⟩

mutual

/-- A filter over declared columns compiles. -/
theorem compileFilter_ok (hmemory : Coherent columns.length memory) :
    ∀ filter : Filter, filter.Declared columns →
      ∃ predicate, compileFilter columns memory filter = .ok predicate
  | .mk kind children column values lower upper, hdeclared => by
    have hchildren := compileFilters_ok hmemory children
    cases kind with
    | all =>
      obtain ⟨compiled, hcompiled⟩ := hchildren (by simpa only [Filter.Declared] using hdeclared)
      exact ⟨allOf compiled .truthTrue, by simp [compileFilter, hcompiled]⟩
    | any =>
      obtain ⟨compiled, hcompiled⟩ := hchildren (by simpa only [Filter.Declared] using hdeclared)
      exact ⟨anyOf compiled .truthFalse, by simp [compileFilter, hcompiled]⟩
    | not =>
      simp only [Filter.Declared] at hdeclared
      obtain ⟨compiled, hcompiled⟩ := hchildren hdeclared.2
      exact ⟨notOf (compiled.headD fun _ ↦ none), by simp [compileFilter, hcompiled, hdeclared.1]⟩
    | other => simp [Filter.Declared] at hdeclared
    | equals | isIn | range | isNull | isPresent =>
      simp only [Filter.Declared] at hdeclared
      simpa only [compileFilter] using compileLeaf_ok hmemory hdeclared rfl

theorem compileFilters_ok (hmemory : Coherent columns.length memory) :
    ∀ children : List Filter, FiltersDeclared columns children →
      ∃ compiled, compileFilters columns memory children = .ok compiled
  | [], _ => ⟨[], by rw [compileFilters]⟩
  | child :: rest, hdeclared => by
    rw [FiltersDeclared] at hdeclared
    obtain ⟨first, hfirst⟩ := compileFilter_ok hmemory child hdeclared.1
    obtain ⟨others, hothers⟩ := compileFilters_ok hmemory rest hdeclared.2
    exact ⟨first :: others, by simp [compileFilters, hfirst, hothers]⟩

end

/-! ### Selected rows -/

def Tests (selected : ℕ → Option Bool) (test : Entry → Bool) (position : ℕ) (entries : List Entry) :
    Prop :=
  ∀ index entry, entries[index]? = some entry → selected (position + index) = some (test entry)

variable {selected : ℕ → Option Bool} {position : ℕ} {entries : List Entry} {test : Entry → Bool}
  {entry : Entry}

omit [Externals] in
theorem Tests.tail (htests : Tests selected test position (entry :: entries)) :
    selected position = some (test entry) ∧ Tests selected test (position + 1) entries := by
  refine ⟨htests 0 entry rfl, fun index other hother ↦ ?_⟩
  rw [Nat.add_right_comm]
  exact htests (index + 1) other hother

omit [Externals] in
/-- The deletion batch names the ids of the entries that pass the test. -/
theorem deleteBatch_ok {rows : List Row} (hids : entries.map Entry.id = rows.map Row.id)
    (htests : Tests selected test position entries) :
    deleteBatch selected position rows =
      .ok (((entries.filter test).map Entry.id).map deleteItem) := by
  induction rows generalizing position entries with
  | nil =>
    rw [map_nil, map_eq_nil_iff] at hids
    subst hids
    rfl
  | cons _ _ ih =>
    cases entries with
    | nil => simp at hids
    | cons entry =>
      rw [map_cons, map_cons, List.cons.injEq] at hids
      obtain ⟨hfirst, hrest⟩ := htests.tail
      rw [deleteBatch, hfirst, ih hids.2 hrest]
      cases htest : test entry with
      | false => rw [filter_cons_of_neg (by simp [htest])]
      | true => rw [filter_cons_of_pos htest, map_cons, map_cons, hids.1]

omit [Externals] in
/-- The selected positions are those of the entries that pass the test, in order. -/
theorem selectPositions_ok {test : Entry → Bool} {named : ℕ → Bytes} {rows : List Row}
    {position : ℕ} {entries : List Entry} (hlength : entries.length = rows.length)
    (hnamed : ∀ index entry, entries[index]? = some entry → named (position + index) = entry.id)
    (htests : Tests selected test position entries) :
    ∃ positions, selectPositions selected position rows = some positions ∧
      positions.map named = (entries.filter test).map Entry.id := by
  induction rows generalizing position entries with
  | nil =>
    rw [length_nil, length_eq_zero_iff] at hlength
    subst hlength
    exact ⟨[], rfl, rfl⟩
  | cons _ _ ih =>
    cases entries with
    | nil => simp at hlength
    | cons entry entries =>
      obtain ⟨hfirst, hrest⟩ := htests.tail
      have hlater : ∀ index other, entries[index]? = some other →
          named (position + 1 + index) = other.id := by
        intro index other hother
        rw [Nat.add_right_comm]
        exact hnamed (index + 1) other hother
      obtain ⟨positions, hpositions, hids⟩ := ih (Nat.succ.inj hlength) hlater hrest
      rw [selectPositions, hfirst, hpositions]
      cases htest : test entry with
      | false =>
        refine ⟨positions, rfl, ?_⟩
        rw [filter_cons_of_neg (by simp [htest]), hids]
      | true =>
        refine ⟨position :: positions, rfl, ?_⟩
        rw [filter_cons_of_pos htest, map_cons, hids]
        exact congrArg (· :: _) (hnamed 0 entry rfl)

def selectedIds (columns : List ScalarColumn) (memory : Memory) (filter : Filter) : List Bytes :=
  ((view memory).entries.filter fun entry ↦ evalFilter columns entry.cells filter =
    .truthTrue).map Entry.id

omit [Externals] in
theorem map_limited {α β : Type} (limit : ℤ) (elements : List α) (f : α → β) :
    (limited limit elements).map f = limited limit (elements.map f) := by
  unfold limited
  rw [length_map]
  split_ifs
  · exact map_take
  · rfl

omit [Externals] in
theorem map_limited_insertionSort (memory : Memory) (limit : ℤ) (positions : List ℕ) :
    (limited limit (positions.insertionSort fun left right ↦
      idAt memory left ≤ idAt memory right)).map (idAt memory) =
      limited limit ((positions.map (idAt memory)).insertionSort (· ≤ ·)) := by
  rw [map_limited]
  congr 1
  exact map_insertionSort _ _ _ _ fun _ _ _ _ ↦ Iff.rfl

omit [Externals] in
/-- Reading a cell in range never panics. -/
theorem cellNamed_isSome (hmemory : Coherent columns.length memory) {row : Row}
    (hrow : row ∈ memory.rows) (name : Bytes) : (cellNamed columns memory row name).isSome := by
  unfold cellNamed
  cases hindex : columnIndexOf columns name with
  | none => rfl
  | some index =>
    have hlt := hmemory.lt_dictionaries hindex
    have hfit := hmemory.cells_fit row hrow
    have hid : index < row.cells.length := hfit.1.symm ▸ hlt
    have hinside := hfit.2 index _ _ (getElem?_eq_getElem hid) (getElem?_eq_getElem hlt)
    simp only [getElem?_eq_getElem hid, getElem?_eq_getElem hlt,
      List.getElem?_eq_getElem hinside, Option.bind_eq_bind, Option.bind_some, Option.pure_def]
    split_ifs
    · rfl
    · rfl
    · rfl

omit [Externals] in
theorem cellsNamed_isSome (hmemory : Coherent columns.length memory) {row : Row}
    (hrow : row ∈ memory.rows) (names : List Bytes) :
    (cellsNamed columns memory row names).isSome := by
  induction names with
  | nil => rfl
  | cons name _ ih =>
    obtain ⟨_, hcell⟩ := isSome_iff_exists.mp (cellNamed_isSome hmemory hrow name)
    obtain ⟨_, hcells⟩ := isSome_iff_exists.mp ih
    simp [cellsNamed, hcell, hcells]

/-- The compiled filter is its evaluation, and `Delete` and `Query` work on the rows it selects. -/
structure Selects (disk : Disk) (stored : CodeCollection) (filter : Filter) : Prop where
  evaluates : ∃ predicate,
    compileFilter stored.header.columns stored.memory filter = .ok predicate ∧
    ∀ position < stored.memory.rows.length,
      ∃ entry, (view stored.memory).entries[position]? = some entry ∧
        predicate position = some (evalFilter stored.header.columns entry.cells filter)
  cells : ∀ row ∈ stored.memory.rows, ∀ names,
    (cellsNamed stored.header.columns stored.memory row names).isSome
  deletes : ∀ faults, delete faults disk stored filter = writeCounted faults disk stored
      (.ok ((selectedIds stored.header.columns stored.memory filter).map deleteItem))
  queries : ∀ read limit names, ∃ positions, positions.map (idAt stored.memory) = limited limit
      ((selectedIds stored.header.columns stored.memory filter).insertionSort (· ≤ ·)) ∧
    query read disk stored (some filter) limit names =
      readHits read (disk.files.contents stored.dataFile) stored.header.columns
        stored.memory names positions

omit [Externals] in
theorem idAt_eq
    (hentry : (view memory).entries[position]? = some entry) : idAt memory position = entry.id := by
  rw [view, getElem?_zipWith_eq_some] at hentry
  obtain ⟨_, _, hrow, _, rfl⟩ := hentry
  rw [idAt, hrow]
  rfl

/-- On a handle in range a declared filter selects the rows it is true of. -/
theorem selects_of_inRange (hstored : stored.InRange)
    {filter : Filter} (hdeclared : filter.Declared stored.header.columns) :
    Selects disk stored filter := by
  obtain ⟨predicate, hcompile⟩ := compileFilter_ok hstored filter hdeclared
  have hevaluates (position : ℕ) (entry : Entry)
      (hentry : (view stored.memory).entries[position]? = some entry) :=
    compileFilter_eq hstored hentry filter hcompile
  have hids := map_id_view hstored
  have hlength : (view stored.memory).entries.length = stored.memory.rows.length := by
    simpa only [length_map] using congrArg List.length hids
  have htests : Tests (fun position ↦ (predicate position).map fun truth ↦
      decide (truth = .truthTrue))
      (fun entry ↦ evalFilter stored.header.columns entry.cells filter = .truthTrue) 0
      (view stored.memory).entries := by
    intro index entry hentry
    dsimp only
    rw [Nat.zero_add, hevaluates index entry hentry]
    rfl
  refine ⟨⟨predicate, hcompile, ?_⟩, fun row hrow ↦ cellsNamed_isSome hstored hrow, ?_, ?_⟩
  · intro position hposition
    have hentry := getElem?_eq_getElem (hlength ▸ hposition)
    exact ⟨_, hentry, hevaluates position _ hentry⟩
  · intro _
    rw [delete, hcompile]
    dsimp only
    rw [deleteWhere, deleteBatch_ok hids htests, selectedIds]
  intro _ limit _
  obtain ⟨positions, hpositions, hnamed⟩ := @selectPositions_ok _ _ _ _ 0 _
    hlength (fun index entry hentry ↦ by
      rw [Nat.zero_add]
      exact idAt_eq hentry) htests
  refine ⟨limited limit (positions.insertionSort fun left right ↦
    idAt stored.memory left ≤ idAt stored.memory right), ?_, ?_⟩
  · rw [map_limited_insertionSort, hnamed, selectedIds]
  rw [query, compileOptional, hcompile]
  dsimp only
  rw [selectSorted, hpositions]
  rfl

/-- In every run of any handles' sections, succeeding or failing at any point, a filter tree over
the declared columns of a handle selects exactly the rows whose three-valued evaluation is true.
Assumes: no handle is open at the start. -/
theorem filter_selects {ι : Type} [DecidableEq ι] {start world : World ι}
    (hstart : ∀ name, start.handles name = none)
    (hreachable : Reachable (fun _ _ _ ↦ True) start world) {name : ι} {stored : CodeCollection}
    (hstored : world.handles name = some stored) {filter : Filter}
    (hdeclared : filter.Declared stored.header.columns) : Selects world.disk stored filter :=
  selects_of_inRange world.disk (hreachable.inRange hstart name stored hstored) hdeclared

end

def sampleFilter : Filter := .mk .not [.mk .isPresent [] [0x61] [] none none] [] [] none none

theorem filter_selects_sample :
    ∃ stored, (@World.step sampleExternals Bool _ sharedWorld false sampleWrite).handles false =
      some stored ∧
      @Selects sampleExternals (@World.step sampleExternals Bool _ sharedWorld
        false sampleWrite).disk stored sampleFilter := by
  let _ := sampleExternals
  have hreachable : Reachable (fun _ _ _ ↦ True) (⟨sampleDisk, fun _ ↦ none⟩ : World Bool)
      (sharedWorld.step false sampleWrite) :=
    .step (.step (.step .refl true _ trivial) false _ trivial) false _ trivial
  obtain ⟨stored, hstored⟩ := isSome_iff_exists.mp (by decide +kernel :
    ((sharedWorld.step false sampleWrite).handles false).isSome)
  have hcolumns : (((sharedWorld.step false sampleWrite).handles false).map fun stored ↦
      stored.header.columns) = some sampleColumns := by decide +kernel
  rw [hstored, map_some, Option.some.injEq] at hcolumns
  refine ⟨stored, hstored, filter_selects (fun _ ↦ rfl) hreachable hstored ?_⟩
  rw [hcolumns]
  simp only [sampleFilter, Filter.Declared, FiltersDeclared]
  decide

end Clyde.CodeStore
