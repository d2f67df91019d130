import Clyde.Foundation.FileSystem
import Clyde.CodeStore.RowLog

/-!
# The collection directory

`codestore/collection.go`, from `readHeader` to `openGenerationFile`: the header names a generation,
and each generation has a row log and a data file.

`Reflects` connects rows in memory to a row log: they are what the records up to a size leave.
Replay keeps it (`replay_reflects`). `Follows` is the same for a handle and a directory, `UpToDate`
adds that the handle has seen the whole log, and `Current` that it has seen the whole data file.

Scope. The header file is its decoded content and what `os.Stat` says about it. Files that are not
those of a generation are left out.
-/

set_option autoImplicit false

namespace Clyde.CodeStore

open Foundation ByteCodec List FileSystem

/-! ### The directory -/

structure Disk where
  header : Option (CollectionHeader × FileInfo)
  files : FileSystem GenerationFile UInt8

section

variable (disk : Disk)

def Disk.columns : List ScalarColumn := (disk.header.map fun header ↦ header.1.columns).getD []

/-- Without a header, only empty files of generation 0 are accepted: creation writes them first. -/
def requireNoStoredGenerations : Except Failure Unit :=
  if disk.files.entries.all fun entry ↦
      entry.1.generation = 0 ∧ (disk.files.contents entry.2).length = 0 then .ok ()
  else .error .generationWithoutHeader

def readHeader : Except Failure (CollectionHeader × FileInfo) :=
  match disk.header with
  | none =>
    match requireNoStoredGenerations disk with
    | .error failure => .error failure
    | .ok () => .error .collectionMissing
  | some (header, info) =>
    if header.frameFormat ≠ frameFormatPayloadCRC ∧ header.frameFormat ≠ frameFormatLengthCRC then
      .error (.frameFormat header.frameFormat)
    else .ok (header, info)

def openGenerationFile (file : GenerationFile) : Except Failure FileId :=
  match disk.files.lookup file with
  | some opened => .ok opened
  | none => .error (.generationFileMissing file)

def openFiles (generation : Int64) : Except Failure (FileId × FileId) :=
  match openGenerationFile disk ⟨.rows, generation⟩ with
  | .error failure => .error failure
  | .ok rowsFile =>
    match openGenerationFile disk ⟨.data, generation⟩ with
    | .error failure => .error failure
    | .ok dataFile => .ok (rowsFile, dataFile)

/-- Removes the files of other generations. Files whose removal fails are kept. -/
def removeOtherGenerations (generation : Int64) (kept : GenerationFile → Bool) : Disk :=
  { disk with files := disk.files.retain fun file ↦ file.generation = generation || kept file }

end

variable [Externals]

def openedHandle (disk : Disk) (header : CollectionHeader) (info : FileInfo)
    (files : FileId × FileId) : CodeCollection :=
  { header := header, memory := Memory.empty header.columns.length, rowsFile := files.1
    dataFile := files.2, dataSize := (disk.files.contents files.2).length, logSize := 0
    headerInfo := some info, closed := false }

/-- What fails in a load: accesses of the row log, and the removal of files of other generations. -/
structure LoadFaults where
  log : LogFaults
  kept : GenerationFile → Bool

/-- Opens the collection and replays its row log. Files of other generations are removed. -/
def loadCollection (faults : LoadFaults) (disk : Disk) : Disk × Except Failure CodeCollection :=
  match readHeader disk with
  | .error failure => (disk, .error failure)
  | .ok (header, info) =>
    match openFiles disk header.generation with
    | .error failure => (disk, .error failure)
    | .ok files =>
      let replayed :=
        replay faults.log (disk.files.contents files.1) (openedHandle disk header info files)
      let written := { disk with files := disk.files.write files.1 replayed.log }
      match replayed.failure with
      | some failure => (written, .error failure)
      | none => (removeOtherGenerations written header.generation faults.kept, .ok replayed.stored)

/-! ### Rows in memory and the row log -/

def CollectionHeader.reading (header : CollectionHeader) (dataSize : ℕ) : Reading :=
  { format := header.frameFormat, columns := header.columns, dataSize := dataSize }

/-- The rows in memory are what the records of the log before a position leave, and the dictionaries
have all their values. -/
structure Reflects (header : CollectionHeader) (dataSize : ℕ) (log : Bytes) (memory : Memory)
    (stop : ℕ) : Prop where
  coherent : Coherent header.columns.length memory
  chain : ∃ records, Accepted (header.reading dataSize) log 0 records stop ∧
    view memory = Table.empty.applyAll header.columns.length records ∧
    ∀ record ∈ records, ∀ column value, record.HasCell column value →
      ContainsAt memory.dictionaries column value

/-- A changed log keeps every chain of accepted records from the start. -/
structure KeepsChains (header : CollectionHeader) (dataSize : ℕ) (log : Bytes) (nextSize : ℕ)
    (next : Bytes) : Prop where
  size_le : dataSize ≤ nextSize
  chains : ∀ records stop, Accepted (header.reading dataSize) log 0 records stop →
    Accepted (header.reading nextSize) next 0 records stop

theorem KeepsChains.refl (header : CollectionHeader) (dataSize : ℕ) (log : Bytes) :
    KeepsChains header dataSize log dataSize log :=
  ⟨le_rfl, fun _ _ haccepted ↦ haccepted⟩

variable {header : CollectionHeader}

theorem KeepsChains.trans {firstSize secondSize thirdSize : ℕ}
    {first second third : Bytes} (hfirst : KeepsChains header firstSize first secondSize second)
    (hsecond : KeepsChains header secondSize second thirdSize third) :
    KeepsChains header firstSize first thirdSize third :=
  ⟨hfirst.size_le.trans hsecond.size_le, fun records stop haccepted ↦
    hsecond.chains records stop (hfirst.chains records stop haccepted)⟩

variable {log : Bytes} {records : List RowRecord} {stop : ℕ}

theorem Accepted.stop_le {reading : Reading} {offset : ℕ}
    (haccepted : Accepted reading log offset records stop)
    (hoffset : offset ≤ log.length) : stop ≤ log.length := by
  induction haccepted with
  | nil => exact hoffset
  | cons haccept _ ih => exact ih haccept.lt.2

/-- An appended log keeps every chain of accepted records. -/
theorem keepsChains_append (header : CollectionHeader) {dataSize nextSize : ℕ}
    (hsize : dataSize ≤ nextSize) (log more : Bytes) :
    KeepsChains header dataSize log nextSize (log ++ more) := by
  refine ⟨hsize, fun records stop haccepted ↦ ?_⟩
  have hstop := haccepted.stop_le (Nat.zero_le _)
  exact (haccepted.append_log hstop more).mono rfl prefix_rfl hsize

variable {dataSize : ℕ}

/-- A log that is cut at its first rejected record keeps every chain of accepted records. -/
theorem keepsChains_take {cut : ℕ} (hreached : Accepted (header.reading dataSize) log 0 records cut)
    (hrejected : Rejected header.frameFormat log cut) :
    KeepsChains header dataSize log dataSize (log.take cut) := by
  refine ⟨le_rfl, fun others stop haccepted ↦ ?_⟩
  have hcut := hrejected.1
  by_cases hstop : stop ≤ cut
  · exact haccepted.take_log hstop hcut.le
  obtain ⟨_, _, hrest⟩ := hreached.agree haccepted (by omega)
  cases hrest with
  | nil => omega
  | cons haccept => exact absurd haccept.frame hrejected.2

theorem coherent_empty (width : ℕ) : Coherent width (Memory.empty width) where
  codes_length := rfl
  dictionaries_length := by simp [Memory.empty, addDictionaries]
  indexes := KeyedRows.indexes_nil
  cells_fit _ hrow := absurd hrow not_mem_nil

theorem not_containsAt_empty (width column : ℕ) (value : ScalarValue) :
    ¬ContainsAt (Memory.empty width).dictionaries column value := by
  rintro ⟨dictionary, hdictionary, hvalue⟩
  have hmem : dictionary ∈ List.replicate width newDictionary := by
    have := mem_of_getElem? hdictionary
    simpa [Memory.empty, addDictionaries] using this
  rw [eq_of_mem_replicate hmem] at hvalue
  exact Interner.not_contains_empty _ _ _ hvalue

theorem reflects_empty (header : CollectionHeader) (dataSize : ℕ) (log : Bytes) :
    Reflects header dataSize log (Memory.empty header.columns.length) 0 :=
  ⟨coherent_empty _, [], .nil 0, rfl, by simp⟩

variable {memory : Memory}

theorem Reflects.stop_le (hreflects : Reflects header dataSize log memory stop) :
    stop ≤ log.length := by
  obtain ⟨_, haccepted, _⟩ := hreflects.chain
  exact haccepted.stop_le (Nat.zero_le _)

/-- The rows in memory stay what the log leaves when the log keeps its chains. -/
theorem Reflects.keeps {dataSize nextSize : ℕ} {next : Bytes}
    (hreflects : Reflects header dataSize log memory stop)
    (hkeeps : KeepsChains header dataSize log nextSize next) :
    Reflects header nextSize next memory stop := by
  obtain ⟨records, haccepted, hrecords⟩ := hreflects.chain
  exact ⟨hreflects.coherent, records, hkeeps.chains records stop haccepted, hrecords⟩

theorem Reflects.applied {next : Memory} {after : ℕ}
    {attempted : List RowRecord} (hreflects : Reflects header dataSize log memory stop)
    (haccepted : Accepted (header.reading dataSize) log stop records after)
    (happlied : Applied header.columns.length memory next attempted records) :
    Reflects header dataSize log next after := by
  obtain ⟨before, hbefore, hview, hvalues⟩ := hreflects.chain
  refine ⟨happlied.coherent, before ++ records, hbefore.append haccepted, ?_, ?_⟩
  · rw [happlied.view_eq, hview, Table.applyAll_append]
  intro record hrecord column value hcell
  rcases mem_append.mp hrecord with hrecord | hrecord
  · exact (hvalues record hrecord column value hcell).extends happlied.grown
  · exact happlied.contained record hrecord column value hcell

theorem Reflects.take (hreflects : Reflects header dataSize log memory stop) :
    Reflects header dataSize (log.take stop) memory stop := by
  obtain ⟨records, haccepted, hrecords⟩ := hreflects.chain
  exact ⟨hreflects.coherent, records, haccepted.take_log le_rfl hreflects.stop_le, hrecords⟩

/-- What a replay leaves. The log can lose records only to a header whose read fails, and then the
replay succeeds. -/
structure Replays (faults : LogFaults) (log : Bytes) (stored : CodeCollection) (result : Replayed) :
    Prop where
  stored_eq : result.stored =
    { stored with memory := result.stored.memory, logSize := result.stored.logSize }
  reflects : Reflects stored.header stored.dataSize result.log
    result.stored.memory result.stored.logSize
  log_prefix : result.log <+: log
  failed : result.failure ≠ none → result.log = log
  keeps : faults.ReadsHeaders →
    KeepsChains stored.header stored.dataSize log stored.dataSize result.log
  whole : result.failure = none → result.stored.logSize = result.log.length

/-- Replay keeps what memory reflects. -/
theorem replay_reflects (faults : LogFaults) {stored : CodeCollection}
    (hreflects : Reflects stored.header stored.dataSize log stored.memory stored.logSize) :
    Replays faults log stored (replay faults log stored) := by
  have hkeeps := KeepsChains.refl stored.header stored.dataSize log
  have hsame (failure : Failure) :
      Replays faults log stored { stored := stored, log := log, failure := some failure } :=
    ⟨rfl, hreflects, prefix_rfl, fun _ ↦ rfl, fun _ ↦ hkeeps, by simp⟩
  unfold replay
  split_ifs
  · exact hsame _
  · exact hsame _
  obtain ⟨records, stop, haccepted, hall, hend⟩ := @replayLoop_cases _ log _ faults stored rfl
  obtain ⟨_, happlied, hcarried⟩ := applyAll_spec hreflects.coherent records
  rw [hcarried.mp hall] at happlied
  have hafter := hreflects.applied haccepted happlied
  obtain ⟨_, hbefore, _⟩ := hafter.chain
  have hcut : stop = (log.take stop).length := by simpa using hafter.stop_le
  generalize replayLoop faults log stored _ = result at hend
  cases hend with
  | finished hdone =>
    exact ⟨rfl, hafter, prefix_rfl,
      by simp, fun _ ↦ hkeeps, fun _ ↦ le_antisymm hafter.stop_le hdone⟩
  | truncated hrejected =>
    exact ⟨rfl, hafter.take, log.take_prefix stop, by simp,
      fun _ ↦ keepsChains_take hbefore hrejected, fun _ ↦ hcut⟩
  | misread hfault =>
    refine ⟨rfl, hafter.take, log.take_prefix stop, by simp, fun hheaders ↦ ?_, fun _ ↦ hcut⟩
    rw [hheaders] at hfault
    simp at hfault
  | failed => exact ⟨rfl, hafter, prefix_rfl, by simp, fun _ ↦ hkeeps, by simp⟩
  | refused record memory _ hrefused =>
    refine ⟨rfl, ?_, prefix_rfl, by simp, fun _ ↦ hkeeps, by simp⟩
    obtain ⟨hnone, _⟩ | ⟨_, hnext⟩ := apply_spec hafter.coherent record
    · exact absurd ((congrArg Prod.snd hrefused).symm.trans hnone) (by simp)
    have hmemory : (apply stored.header.columns.length
        (applyAll stored.width stored.memory records).1 record).1 = memory :=
      congrArg Prod.fst hrefused
    exact hafter.applied (.nil stop) (hmemory ▸ hnext)

/-- Assumes: `memory` reflects the whole log. A replay from empty memory gives the same table and
changes no byte. -/
theorem replay_of_reflects {stored : CodeCollection} {memory : Memory}
    (hreflects : Reflects stored.header stored.dataSize log memory log.length)
    (hempty : stored.memory = Memory.empty stored.width) (hsize : stored.logSize = 0) :
    ∃ fresh, replay .none log stored =
        { stored := { stored with memory := fresh, logSize := log.length }, log := log
          failure := none } ∧
      view fresh = view memory := by
  obtain ⟨records, haccepted, hview, hvalues⟩ := hreflects.chain
  have hall : (applyAll stored.width stored.memory records).2 = none := by
    rw [hempty]
    exact applyAll_eq_none_of_contained (coherent_empty _) hreflects.coherent.dictionaries_length
      (fun column value hvalue ↦ absurd hvalue (not_containsAt_empty _ _ _)) hvalues
  refine ⟨(applyAll stored.width stored.memory records).1, ?_, ?_⟩
  · have hloop : replay .none log stored = replayLoop .none log stored 0 := by simp [replay, hsize]
    rw [hloop, replayLoop_accepted haccepted hsize hall, replayLoop]
    simp
  obtain ⟨_, happlied, hcarried⟩ := applyAll_spec (coherent_empty _) records
  rw [hempty] at hall ⊢
  rw [happlied.view_eq, hcarried.mp hall, hview]
  rfl

/-! ### A handle and its directory -/

/-- The handle's rows are what a first part of the row log on disk leaves. -/
structure Follows (disk : Disk) (stored : CodeCollection) : Prop where
  header_eq : disk.header.map Prod.fst = some stored.header
  format : stored.header.frameFormat = frameFormatPayloadCRC ∨
    stored.header.frameFormat = frameFormatLengthCRC
  rows : disk.files.lookup ⟨.rows, stored.header.generation⟩ = some stored.rowsFile
  data : disk.files.lookup ⟨.data, stored.header.generation⟩ = some stored.dataFile
  dataSize_le : stored.dataSize ≤ (disk.files.contents stored.dataFile).length
  reflects : Reflects stored.header (disk.files.contents stored.dataFile).length
    (disk.files.contents stored.rowsFile) stored.memory stored.logSize

/-- The handle has seen the whole row log. -/
structure UpToDate (disk : Disk) (stored : CodeCollection) : Prop extends Follows disk stored where
  logSize_eq : stored.logSize = (disk.files.contents stored.rowsFile).length

/-- The handle has seen the whole row log and the whole data file. -/
structure Current (disk : Disk) (stored : CodeCollection) : Prop extends UpToDate disk stored where
  dataSize_eq : stored.dataSize = (disk.files.contents stored.dataFile).length

variable {disk : Disk} {stored : CodeCollection}

theorem Follows.exists_header (hfollows : Follows disk stored) :
    ∃ info, disk.header = some (stored.header, info) := by
  obtain ⟨⟨header, info⟩, hheader, hsame⟩ := Option.map_eq_some_iff.mp hfollows.header_eq
  obtain rfl : header = stored.header := hsame
  exact ⟨info, hheader⟩

theorem Follows.columns_eq (hfollows : Follows disk stored) :
    disk.columns = stored.header.columns := by
  obtain ⟨_, hheader⟩ := hfollows.exists_header
  rw [Disk.columns, hheader, Option.map_some, Option.getD_some]

variable {rowsFile dataFile : FileId}

omit [Externals] in
theorem rows_ne_data {generation : Int64}
    (hrows : disk.files.lookup ⟨.rows, generation⟩ = some rowsFile)
    (hdata : disk.files.lookup ⟨.data, generation⟩ = some dataFile) : dataFile ≠ rowsFile := by
  rintro rfl
  exact absurd (lookup_injective hrows hdata) (by simp)

/-- The header and its files stay, the data file only grows, and the row log keeps every chain. -/
structure Keeps (disk next : Disk) : Prop where
  header_eq : next.header = disk.header
  files : ∀ {header info rowsFile dataFile}, disk.header = some (header, info) →
    disk.files.lookup ⟨.rows, header.generation⟩ = some rowsFile →
    disk.files.lookup ⟨.data, header.generation⟩ = some dataFile →
    next.files.lookup ⟨.rows, header.generation⟩ = some rowsFile ∧
      next.files.lookup ⟨.data, header.generation⟩ = some dataFile ∧
      disk.files.contents dataFile <+: next.files.contents dataFile ∧
      KeepsChains header (disk.files.contents dataFile).length (disk.files.contents rowsFile)
        (next.files.contents dataFile).length (next.files.contents rowsFile)

theorem Keeps.refl (disk : Disk) : Keeps disk disk :=
  ⟨rfl, fun _ hrows hdata ↦ ⟨hrows, hdata, prefix_rfl, KeepsChains.refl _ _ _⟩⟩

theorem Keeps.trans {first second third : Disk} (hfirst : Keeps first second)
    (hsecond : Keeps second third) : Keeps first third := by
  refine ⟨hsecond.header_eq.trans hfirst.header_eq, fun hheader hrows hdata ↦ ?_⟩
  obtain ⟨hrows, hdata, hbytes, hchains⟩ := hfirst.files hheader hrows hdata
  obtain ⟨hrows, hdata, hmore, hlater⟩ := hsecond.files (hfirst.header_eq.trans hheader) hrows hdata
  exact ⟨hrows, hdata, hbytes.trans hmore, hchains.trans hlater⟩

/-- A handle still follows the directory after a change that keeps the header and the chains. -/
theorem Follows.keeps {next : Disk} (hfollows : Follows disk stored)
    (hkeeps : Keeps disk next) : Follows next stored := by
  obtain ⟨_, hheader⟩ := hfollows.exists_header
  obtain ⟨hrows, hdata, hbytes, hchains⟩ := hkeeps.files hheader hfollows.rows hfollows.data
  refine ⟨?_, hfollows.format, hrows, hdata, ?_, hfollows.reflects.keeps hchains⟩
  · rw [hkeeps.header_eq, hfollows.header_eq]
  · exact hfollows.dataSize_le.trans hbytes.length_le

variable {info : FileInfo}

/-- A change of the current generation's files keeps the directory when the names stay, the data
file grows and the log keeps its chains. -/
theorem keeps_of_files {next : Disk} (hheader : disk.header = some (header, info))
    (hrows : disk.files.lookup ⟨.rows, header.generation⟩ = some rowsFile)
    (hdata : disk.files.lookup ⟨.data, header.generation⟩ = some dataFile)
    (hsame : next.header = disk.header)
    (hnames : ∀ kind, next.files.lookup ⟨kind, header.generation⟩ =
      disk.files.lookup ⟨kind, header.generation⟩)
    (hbytes : disk.files.contents dataFile <+: next.files.contents dataFile)
    (hchains : KeepsChains header (disk.files.contents dataFile).length
      (disk.files.contents rowsFile) (next.files.contents dataFile).length
      (next.files.contents rowsFile)) : Keeps disk next := by
  refine ⟨hsame, fun hother hotherRows hotherData ↦ ?_⟩
  rw [hheader] at hother
  obtain ⟨rfl, rfl⟩ := hother
  rw [hrows, Option.some.injEq] at hotherRows
  rw [hdata, Option.some.injEq] at hotherData
  subst hotherRows hotherData
  exact ⟨(hnames _).trans hrows, (hnames _).trans hdata, hbytes, hchains⟩

section

variable {header : CollectionHeader} {rowsFile dataFile : FileId}
  (hheader : disk.header = some (header, info))
  (hrows : disk.files.lookup ⟨.rows, header.generation⟩ = some rowsFile)
  (hdata : disk.files.lookup ⟨.data, header.generation⟩ = some dataFile)
include hheader hrows hdata

theorem keeps_writeLog
    (hkeeps : KeepsChains header (disk.files.contents dataFile).length
      (disk.files.contents rowsFile) (disk.files.contents dataFile).length log) :
    Keeps disk { disk with files := disk.files.write rowsFile log } := by
  have hother := @FileSystem.contents_write_ne _ _ disk.files _ _ (rows_ne_data hrows hdata) log
  refine keeps_of_files hheader hrows hdata rfl (fun _ ↦ rfl) ?_ ?_
  · rw [hother]
  · rwa [hother, contents_write_self]

theorem keeps_writeData (more : Bytes) :
    Keeps disk
      { disk with files := disk.files.write dataFile (disk.files.contents dataFile ++ more) } := by
  have hgrown := prefix_append (disk.files.contents dataFile) more
  refine keeps_of_files hheader hrows hdata rfl (fun _ ↦ rfl) ?_ ?_
  · rwa [contents_write_self]
  rw [contents_write_self, contents_write_ne (rows_ne_data hrows hdata).symm]
  have hkeeps := keepsChains_append header hgrown.length_le (disk.files.contents rowsFile) []
  rwa [append_nil] at hkeeps

end

/-- Removing files keeps the directory when those of the current generation stay. -/
theorem keeps_retain {kept : GenerationFile → Bool}
    (hkept : ∀ header info kind, disk.header = some (header, info) →
      kept ⟨kind, header.generation⟩) :
    Keeps disk { disk with files := disk.files.retain kept } := by
  refine ⟨rfl, fun hheader hrows hdata ↦ ⟨?_, ?_, prefix_rfl, KeepsChains.refl _ _ _⟩⟩
  · rw [lookup_retain, if_pos (hkept _ _ _ hheader), hrows]
  · rw [lookup_retain, if_pos (hkept _ _ _ hheader), hdata]

omit [Externals] in
/-- A header is read when there is one and its frame format is one of the two known ones. -/
theorem readHeader_eq_ok :
    readHeader disk = .ok (header, info) ↔ disk.header = some (header, info) ∧
      (header.frameFormat = frameFormatPayloadCRC ∨ header.frameFormat = frameFormatLengthCRC) := by
  unfold readHeader
  cases hheader : disk.header with
  | none => cases requireNoStoredGenerations disk <;> simp
  | some found =>
    obtain ⟨found, _⟩ := found
    simp only [Option.some.injEq, Prod.mk.injEq]
    split_ifs with hformat
    · refine iff_of_false (by simp) ?_
      rintro ⟨⟨rfl, rfl⟩, _⟩
      tauto
    · simp only [Except.ok.injEq, Prod.mk.injEq, iff_self_and]
      rintro ⟨rfl, rfl⟩
      tauto

omit [Externals] in
theorem openFiles_eq_ok {generation : Int64} {files : FileId × FileId} :
    openFiles disk generation = .ok files ↔ disk.files.lookup ⟨.rows, generation⟩ = some files.1 ∧
        disk.files.lookup ⟨.data, generation⟩ = some files.2 := by
  unfold openFiles openGenerationFile
  cases disk.files.lookup ⟨.rows, generation⟩ with
  | none => simp
  | some =>
    cases disk.files.lookup ⟨.data, generation⟩ with
    | none => simp
    | some => simp [Prod.ext_iff]

theorem keeps_removeOtherGenerations {header : CollectionHeader}
    (hheader : disk.header = some (header, info)) (kept : GenerationFile → Bool) :
    Keeps disk (removeOtherGenerations disk header.generation kept) := by
  refine keeps_retain fun other stat kind hother ↦ ?_
  rw [hheader, Option.some.injEq, Prod.mk.injEq] at hother
  simp [hother.1]

theorem loadCollection_eq {files : FileId × FileId} (hheader : readHeader disk = .ok (header, info))
    (hfiles : openFiles disk header.generation = .ok files) (faults : LoadFaults)
    {replayed : Replayed}
    (hreplay : replay faults.log (disk.files.contents files.1)
      (openedHandle disk header info files) = replayed) :
    loadCollection faults disk =
      match replayed.failure with
      | some failure =>
        ({ disk with files := disk.files.write files.1 replayed.log }, .error failure)
      | none =>
        (removeOtherGenerations { disk with files := disk.files.write files.1 replayed.log }
          header.generation faults.kept, .ok replayed.stored) := by
  simp [loadCollection, hheader, hfiles, hreplay]

/-- What a load leaves: no change when it fails, and otherwise a current handle. It loses records
only to a header whose read fails. -/
structure Loads (faults : LoadFaults) (disk : Disk)
    (loaded : Disk × Except Failure CodeCollection) :
    Prop where
  header_eq : loaded.1.header = disk.header
  keeps : faults.log.ReadsHeaders → Keeps disk loaded.1
  shorter : ∀ file, loaded.1.files.contents file <+: disk.files.contents file
  failed : ∀ failure, loaded.2 = .error failure → loaded.1 = disk
  current : ∀ stored, loaded.2 = .ok stored → Current loaded.1 stored ∧
    stored.headerInfo = disk.header.map Prod.snd ∧ stored.closed = false

/-- Every outcome of a load: the open of the header and of the files, the replay of the log, and the
removal of other generations. -/
theorem loadCollection_spec (faults : LoadFaults) (disk : Disk) :
    Loads faults disk (loadCollection faults disk) := by
  have hsame (failure : Failure) : Loads faults disk (disk, .error failure) :=
    ⟨rfl, fun _ ↦ Keeps.refl disk, fun _ ↦ prefix_rfl, by simp, by simp⟩
  cases hread : readHeader disk with
  | error failure =>
    simp only [loadCollection, hread]
    exact hsame failure
  | ok found =>
    obtain ⟨header, info⟩ := found
    cases hopen : openFiles disk header.generation with
    | error failure =>
      simp only [loadCollection, hread, hopen]
      exact hsame failure
    | ok files =>
      obtain ⟨hheader, hformat⟩ := readHeader_eq_ok.mp hread
      obtain ⟨hrows, hdata⟩ := openFiles_eq_ok.mp hopen
      have hreplays :=
        @replay_reflects _ (disk.files.contents files.1) faults.log
          (openedHandle disk header info files)
        (reflects_empty header _ _)
      rw [loadCollection_eq hread hopen faults rfl]
      generalize replay faults.log _ _ = replayed at hreplays
      obtain ⟨stored, log, failure⟩ := replayed
      cases failure with
      | some failure =>
        have hlog : log = disk.files.contents files.1 := hreplays.failed (by simp)
        have hdisk : { disk with files := disk.files.write files.1 log } = disk := by
          rw [hlog, FileSystem.write_contents]
        simp only [hdisk]
        exact hsame failure
      | none =>
        have hwritten := fun hheaders ↦ keeps_writeLog hheader hrows hdata (hreplays.keeps hheaders)
        have hkept := @keeps_removeOtherGenerations _
          { disk with files := disk.files.write files.1 log } _ _ hheader faults.kept
        refine ⟨rfl, fun hheaders ↦ (hwritten hheaders).trans hkept, fun file ↦ ?_, by simp,
          fun stored hstored ↦ ?_⟩
        · show (disk.files.write files.1 log).contents file <+: disk.files.contents file
          by_cases hfile : file = files.1
          · rw [hfile, contents_write_self]
            exact hreplays.log_prefix
          · rw [contents_write_ne hfile]
        cases hstored
        obtain ⟨hrows', hdata', _, _⟩ := hkept.files hheader hrows hdata
        have hsame : (disk.files.write files.1 log).contents files.2 =
            disk.files.contents files.2 := contents_write_ne (rows_ne_data hrows hdata) _
        have hlog : (disk.files.write files.1 log).contents files.1 = log :=
          contents_write_self _ _ _
        obtain ⟨hstored, hreflects, _, _, _, hend⟩ := hreplays
        dsimp only at hstored hreflects hend
        rw [hstored]
        refine ⟨⟨⟨⟨?_, hformat, hrows', hdata', ?_, ?_⟩, ?_⟩, ?_⟩, ?_, rfl⟩
        · simp [removeOtherGenerations, hheader, openedHandle]
        · exact le_of_eq (congrArg List.length hsame).symm
        · show Reflects header ((disk.files.write files.1 log).contents files.2).length
            ((disk.files.write files.1 log).contents files.1) stored.memory stored.logSize
          rwa [hsame, hlog]
        · show stored.logSize = ((disk.files.write files.1 log).contents files.1).length
          rw [hlog]
          exact hend rfl
        · exact (congrArg List.length hsame).symm
        · simp [openedHandle, hheader]

/-- Next to an up-to-date handle a load in which no access fails succeeds and gives the same header,
files and live state. -/
theorem load_of_upToDate (hcurrent : UpToDate disk stored) (kept : GenerationFile → Bool) :
    ∃ next fresh, loadCollection ⟨.none, kept⟩ disk = (next, .ok fresh) ∧
      next.files.contents = disk.files.contents ∧ fresh.header = stored.header ∧
      fresh.rowsFile = stored.rowsFile ∧ fresh.dataFile = stored.dataFile ∧
      view fresh.memory = view stored.memory := by
  obtain ⟨info, hheader⟩ := hcurrent.exists_header
  have hread := readHeader_eq_ok.mpr ⟨hheader, hcurrent.format⟩
  have hopen := (@openFiles_eq_ok disk _
    (stored.rowsFile, stored.dataFile)).mpr ⟨hcurrent.rows, hcurrent.data⟩
  have hreflects := hcurrent.reflects
  rw [hcurrent.logSize_eq] at hreflects
  obtain ⟨_, hreplay, hview⟩ := @replay_of_reflects _ _
    (openedHandle disk _ info (stored.rowsFile, stored.dataFile)) _ hreflects rfl rfl
  refine ⟨_, _, loadCollection_eq hread hopen ⟨.none, kept⟩ hreplay, ?_, rfl, rfl, rfl, hview⟩
  exact Function.update_eq_self _ _

end Clyde.CodeStore
