import Mathlib.Data.List.Sort
import Mathlib.Data.String.Basic

/-!
# Conversations with deleted transcripts

`internal/conversation/index.go` and `retained.go`: the index keeps the records of the last scan and
the retained records of conversations whose transcripts are gone, in memory and in a file each.

An id that was ever installed is to stay in one of the two sets. `visible_of_kept` proves it for the
runs whose refreshes are `Kept`: a cache write fails only in a refresh that has found no retained
conversation again, and leaves the old file. `retained_conversation_lost` has a run for either
condition.

Scope. A scan is an arbitrary list of records with a flag for its stamps and scan states. A file
holds records as values. Refreshes exclude each other, and a restart in the middle of one is a
failed write followed by a restart.
-/

set_option autoImplicit false

namespace Clyde.Conversation

open List

/-! ### Records -/

/-- `Record`: what the index reads of it, and the rest. -/
structure Record (Data : Type) where
  id : String
  artifactPath : String
  selector : String
  updatedAt : ℤ
  data : Data
  deriving DecidableEq

variable {Data : Type}

def recordKey (path selector : String) : String :=
  if selector = "" then path else path ++ "\x00" ++ selector

def Record.key (record : Record Data) : String := recordKey record.artifactPath record.selector

/-- The order of `sortRecords`: the latest first, then by id. -/
def Record.before (left right : Record Data) : Bool :=
  if left.updatedAt = right.updatedAt then !decide (right.id < left.id)
  else decide (right.updatedAt < left.updatedAt)

section

variable (records : List (Record Data))

/-- `sortRecords`, which is stable. -/
def sortRecords : List (Record Data) :=
  records.insertionSort (fun left right ↦ left.before right = true)

theorem mem_sortRecords {records : List (Record Data)} {record : Record Data} :
    record ∈ sortRecords records ↔ record ∈ records :=
  mem_insertionSort _

def ids : List String := records.map Record.id

theorem mem_ids {records : List (Record Data)} {id : String} :
    id ∈ ids records ↔ ∃ record ∈ records, record.id = id := mem_map

theorem ids_subset {records others : List (Record Data)} (hsubset : records ⊆ others) :
    ids records ⊆ ids others := map_subset _ hsubset

/-- `recordsByPath`: a map by artifact path and selector, in which the last record counts. -/
def recordsByPath (key : String) : Option (Record Data) :=
  records.reverse.find? (fun record ↦ record.key = key)

end

def retainStep (current : List (Record Data)) (next : List (Record Data) × Bool)
    (record : Record Data) : List (Record Data) × Bool :=
  if record.id = "" ∨ record.id ∈ ids current ∨ record.id ∈ ids next.1 then next
  else (next.1 ++ [record], true)

/-- `retainDropped`, without the number of new records: the retained records, and whether they have
changed. -/
def retainDropped (previous current retained : List (Record Data)) : List (Record Data) × Bool :=
  let stillGone := retained.filter (fun record ↦ record.id ∉ ids current)
  let next := previous.foldl (retainStep current)
    (stillGone, retained.any (fun record ↦ record.id ∈ ids current))
  (sortRecords next.1, next.2)

/-! ### The index, its files, and their runs -/

structure ScanResult (Data : Type) where
  records : List (Record Data)
  /-- The stamps or the scan states of the artifacts have changed. -/
  artifactsChanged : Bool

/-- `maps.EqualFunc` of two maps by path. -/
def sameByPath [DecidableEq Data] (records others : List (Record Data)) : Bool :=
  (records ++ others).all (fun record ↦ recordsByPath records record.key =
    recordsByPath others record.key)

/-- The cache file. A failed write may leave it half written. -/
inductive CacheFile (Data : Type)
  | absent
  | valid (records : List (Record Data))
  | corrupt
  deriving DecidableEq

inductive CacheWrite (Data : Type)
  | succeeds
  | fails (left : CacheFile Data)

structure Index (Data : Type) where
  records : List (Record Data)
  retained : List (Record Data)
  /-- There are stamps of an earlier scan. -/
  stamped : Bool
  loaded : Bool
  cacheFile : CacheFile Data
  retainedFile : Option (List (Record Data))
  /-- Every id that a refresh has installed. -/
  installed : List String

namespace Index

/-- No index was ever kept. -/
def fresh : Index Data where
  records := []
  retained := []
  stamped := false
  loaded := true
  cacheFile := .absent
  retainedFile := none
  installed := []

/-- `loadOnce` of an index that is not loaded: `none` if the cache cannot be decoded. -/
def load (index : Index Data) : Option (Index Data) :=
  let retained := index.retainedFile.getD []
  match index.cacheFile with
  | .corrupt => none
  | .absent =>
    some { index with records := [], retained := retained, stamped := false, loaded := true }
  | .valid records =>
    some { index with
      records := sortRecords records, retained := retained, stamped := true, loaded := true }

/-- A new process. If the files cannot be loaded, its index is empty. -/
def restart (index : Index Data) : Index Data :=
  index.load.getD { index with records := [], retained := [], stamped := false, loaded := false }

variable [DecidableEq Data] (index : Index Data)

def scanChanged (scan : ScanResult Data) : Bool :=
  !index.stamped || !sameByPath index.records scan.records || scan.artifactsChanged

def installRefreshResult (records retained : List (Record Data)) : Index Data :=
  { index with
    records := records
    retained := retained
    stamped := true
    loaded := true
    installed := index.installed ++ ids records }

/-- The retained file after `writeRetained`, which is called when the set has changed. -/
def saveRetained (next : List (Record Data) × Bool) : Index Data :=
  if next.2 then { index with retainedFile := some next.1 } else index

/-- `refresh` after its scan, with the outcomes of the two writes, if they are made. -/
def refresh (scan : ScanResult Data) (retainedWritten : Bool) (cacheWrite : CacheWrite Data) :
    Index Data :=
  let records := sortRecords scan.records
  let next := retainDropped index.records records index.retained
  if next.2 = true ∧ retainedWritten = false then index
  else
    let saved := index.saveRetained next
    if index.scanChanged scan then
      match cacheWrite with
      | .fails left => { saved with cacheFile := left }
      | .succeeds =>
        { saved with cacheFile := .valid records }.installRefreshResult records next.1
    else saved.installRefreshResult records next.1

end Index

/-- An event of a run. A refresh that was asked for loads the index first; a periodic one does not.
-/
inductive IndexEvent (Data : Type)
  | refresh (periodic : Bool) (scan : ScanResult Data) (retainedWritten : Bool)
    (cacheWrite : CacheWrite Data)
  | restart

variable [DecidableEq Data]

def Index.step (index : Index Data) : IndexEvent Data → Index Data
  | .refresh periodic scan retainedWritten cacheWrite =>
    if index.loaded || periodic then index.refresh scan retainedWritten cacheWrite
    else
      match index.load with
      | some loaded => loaded.refresh scan retainedWritten cacheWrite
      | none => index
  | .restart => index.restart

def Index.run (index : Index Data) (events : List (IndexEvent Data)) : Index Data :=
  events.foldl Index.step index

/-! ### What is retained -/

section

variable {Data : Type} {previous current retained : List (Record Data)}

/-- Retaining keeps what is there and adds every record with an id that the scan lost. -/
theorem foldl_retainStep (start : List (Record Data) × Bool) :
    start.1 ⊆ (previous.foldl (retainStep current) start).1 ∧
    (∀ record ∈ previous, record.id ≠ "" → record.id ∉ ids current →
      record.id ∈ ids (previous.foldl (retainStep current) start).1) ∧
    ((previous.foldl (retainStep current) start).2 = false →
      previous.foldl (retainStep current) start = start) := by
  induction previous generalizing start with
  | nil => exact ⟨Subset.refl _, by simp, fun _ ↦ rfl⟩
  | cons first _ ih =>
    obtain ⟨hgrow, hfound, hsame⟩ := ih (retainStep current start first)
    rw [foldl_cons]
    by_cases hskip : first.id = "" ∨ first.id ∈ ids current ∨ first.id ∈ ids start.1
    · have hstep : retainStep current start first = start := if_pos hskip
      rw [hstep] at hgrow hfound hsame ⊢
      refine ⟨hgrow, ?_, hsame⟩
      intro record hmem hnonempty habsent
      rcases mem_cons.mp hmem with rfl | hmem
      · have hkept := (hskip.resolve_left hnonempty).resolve_left habsent
        exact ids_subset hgrow hkept
      · exact hfound record hmem hnonempty habsent
    have hstep : retainStep current start first = (start.1 ++ [first], true) := if_neg hskip
    rw [hstep] at hgrow hfound hsame ⊢
    refine ⟨fun _ hmem ↦ hgrow (mem_append_left _ hmem), ?_, ?_⟩
    · intro record hmem hnonempty habsent
      rcases mem_cons.mp hmem with rfl | hmem
      · exact mem_ids.mpr ⟨record, hgrow (by simp), rfl⟩
      · exact hfound record hmem hnonempty habsent
    intro hfalse
    have hstart := congrArg Prod.snd (hsame hfalse)
    rw [hfalse] at hstart
    simp at hstart

theorem retained_of_not_found {record : Record Data} (hmem : record ∈ retained)
    (habsent : record.id ∉ ids current) :
    record.id ∈ ids (retainDropped previous current retained).1 := by
  refine mem_ids.mpr ⟨record, mem_sortRecords.mpr ((foldl_retainStep _).1 ?_), rfl⟩
  exact mem_filter.mpr ⟨hmem, by simpa using habsent⟩

theorem retained_of_dropped {record : Record Data} (hmem : record ∈ previous) (hid : record.id ≠ "")
    (habsent : record.id ∉ ids current) :
    record.id ∈ ids (retainDropped previous current retained).1 := by
  obtain ⟨other, hother, heq⟩ := mem_ids.mp ((foldl_retainStep _).2.1 record hmem hid habsent)
  exact mem_ids.mpr ⟨other, mem_sortRecords.mpr hother, heq⟩

theorem retained_of_unchanged (hsame : (retainDropped previous current retained).2 = false) :
    (retainDropped previous current retained).1 ⊆ retained := by
  intro _ hmem
  have hstart := (foldl_retainStep _).2.2 hsame
  have hmem := mem_sortRecords.mp hmem
  rw [hstart] at hmem
  exact (mem_filter.mp hmem).1

end

/-! ### Every installed conversation stays visible -/

def CacheFile.records {Data : Type} : CacheFile Data → List (Record Data)
  | .valid records => records
  | _ => []

def Index.Visible {Data : Type} (index : Index Data) (id : String) : Prop :=
  id ∈ ids index.records ∨ id ∈ ids index.retained

/-- A scan has records with ids, one for each path and selector, and a cache write that fails leaves
the file, in a refresh that has found no retained conversation again. -/
def Kept {Data : Type} (index : Index Data) : IndexEvent Data → Prop
  | .refresh _ scan _ cacheWrite =>
    (∀ record ∈ scan.records, record.id ≠ "") ∧ (scan.records.map Record.key).Nodup ∧
      ∀ left, cacheWrite = .fails left →
        left = index.cacheFile ∧ ∀ record ∈ index.retained, record.id ∉ ids scan.records
  | .restart => True

def KeptAlong : Index Data → List (IndexEvent Data) → Prop
  | _, [] => True
  | index, event :: events => Kept index event ∧ KeptAlong (index.step event) events

/-- What the files and the memory have to do with each other. -/
structure Index.Safe {Data : Type} (index : Index Data) : Prop where
  loaded : index.loaded = true
  decodable : index.cacheFile ≠ .corrupt
  cached : index.records ⊆ index.cacheFile.records
  saved : ids index.retained ⊆ ids (index.retainedFile.getD [])
  named : ∀ record ∈ index.cacheFile.records, record.id ≠ ""
  visible : ∀ id ∈ index.installed, index.Visible id

theorem recordsByPath_of_nodup {Data : Type} {records : List (Record Data)}
    (hnodup : (records.map Record.key).Nodup) {record : Record Data} (hmem : record ∈ records) :
    recordsByPath records record.key = some record := by
  cases hfound : recordsByPath records record.key with
  | none =>
    have hnone := find?_eq_none.mp hfound record (mem_reverse.mpr hmem)
    simp at hnone
  | some other =>
    have hkey : other.key = record.key := by simpa using find?_some hfound
    have hother : other ∈ records := mem_reverse.mp (mem_of_find?_eq_some hfound)
    rw [inj_on_of_nodup_map hnodup hother hmem hkey]

theorem mem_of_recordsByPath {Data : Type} {records : List (Record Data)} {record : Record Data}
    {key : String} (hfound : recordsByPath records key = some record) : record ∈ records :=
  mem_reverse.mp (mem_of_find?_eq_some hfound)

theorem subset_of_sameByPath {records others : List (Record Data)}
    (hnodup : (others.map Record.key).Nodup) (hsame : sameByPath records others = true) :
    others ⊆ records := by
  intro record hmem
  have hkey := all_eq_true.mp hsame record (mem_append_right _ hmem)
  rw [recordsByPath_of_nodup hnodup hmem] at hkey
  exact mem_of_recordsByPath (of_decide_eq_true hkey)

namespace Index.Safe

section

variable {Data : Type} {index : Index Data}

theorem fresh : (Index.fresh : Index Data).Safe where
  loaded := rfl
  decodable := by simp [Index.fresh]
  cached := nil_subset _
  saved := nil_subset _
  named := by simp [Index.fresh, CacheFile.records]
  visible := by simp [Index.fresh]

theorem restart_eq (hdecodable : index.cacheFile ≠ .corrupt) :
    ∃ stamped, index.restart = { index with
      records := sortRecords index.cacheFile.records
      retained := index.retainedFile.getD []
      stamped := stamped
      loaded := true } := by
  cases hfile : index.cacheFile with
  | corrupt => exact absurd hfile hdecodable
  | absent =>
    exact ⟨false, by simp [Index.restart, Index.load, hfile, CacheFile.records, sortRecords]⟩
  | valid records => exact ⟨true, by simp [Index.restart, Index.load, hfile, CacheFile.records]⟩

theorem restart (hsafe : index.Safe) : index.restart.Safe := by
  obtain ⟨_, hrestart⟩ := restart_eq hsafe.decodable
  rw [hrestart]
  refine ⟨rfl, hsafe.decodable, fun _ hmem ↦ mem_sortRecords.mp hmem,
    Subset.refl _, hsafe.named, ?_⟩
  intro id hmem
  refine (hsafe.visible id hmem).imp (fun hcurrent ↦ ?_) (fun hgone ↦ hsafe.saved hgone)
  exact ids_subset (fun _ hrecord ↦ mem_sortRecords.mpr (hsafe.cached hrecord)) hcurrent

end

section

variable {Data : Type} {index : Index Data} {scan : ScanResult Data}

theorem visible_after (hsafe : index.Safe) {id : String}
    (hvisible : index.Visible id ∨ id ∈ ids scan.records) :
    id ∈ ids (sortRecords scan.records) ∨
      id ∈ ids (retainDropped index.records (sortRecords scan.records) index.retained).1 := by
  by_cases hfound : id ∈ ids (sortRecords scan.records)
  · exact .inl hfound
  right
  rcases hvisible with (hcurrent | hgone) | hscanned
  · obtain ⟨record, hmem, rfl⟩ := mem_ids.mp hcurrent
    exact retained_of_dropped hmem (hsafe.named record (hsafe.cached hmem)) hfound
  · obtain ⟨_, hmem, rfl⟩ := mem_ids.mp hgone
    exact retained_of_not_found hmem hfound
  · exact absurd (ids_subset (fun _ ↦ mem_sortRecords.mpr) hscanned) hfound

theorem install (hsafe : index.Safe) {saved : Index Data}
    (hinstalled : saved.installed = index.installed) (hdecodable : saved.cacheFile ≠ .corrupt)
    (hcached : sortRecords scan.records ⊆ saved.cacheFile.records)
    (hsaved : ids (retainDropped index.records (sortRecords scan.records) index.retained).1 ⊆
      ids (saved.retainedFile.getD []))
    (hnamed : ∀ record ∈ saved.cacheFile.records, record.id ≠ "") :
    (saved.installRefreshResult (sortRecords scan.records)
      (retainDropped index.records (sortRecords scan.records) index.retained).1).Safe := by
  refine ⟨rfl, hdecodable, hcached, hsaved, hnamed, ?_⟩
  intro id hmem
  simp only [Index.installRefreshResult, hinstalled, mem_append] at hmem
  refine hsafe.visible_after (hmem.imp (hsafe.visible id) fun hscanned ↦ ?_)
  exact ids_subset (fun _ ↦ mem_sortRecords.mp) hscanned

end

variable {index : Index Data} {scan : ScanResult Data}

/-- A refresh keeps the index safe: every id that was installed before stays visible. -/
theorem refresh (hsafe : index.Safe) {periodic retainedWritten : Bool}
    {cacheWrite : CacheWrite Data}
    (hkept : Kept index (.refresh periodic scan retainedWritten cacheWrite)) :
    (index.refresh scan retainedWritten cacheWrite).Safe := by
  obtain ⟨hnamed, hnodup, hfails⟩ := hkept
  set next := retainDropped index.records (sortRecords scan.records) index.retained with hnext
  -- The retained file has the new set, written now or before.
  have hsame : (index.saveRetained next).records = index.records ∧
      (index.saveRetained next).retained = index.retained ∧
      (index.saveRetained next).loaded = index.loaded ∧
      (index.saveRetained next).cacheFile = index.cacheFile ∧
      (index.saveRetained next).installed = index.installed := by
    unfold Index.saveRetained
    split_ifs <;> exact ⟨rfl, rfl, rfl, rfl, rfl⟩
  have hsaved : ids next.1 ⊆ ids ((index.saveRetained next).retainedFile.getD []) := by
    unfold Index.saveRetained
    split_ifs with hchanged
    · exact Subset.refl _
    · exact fun id hmem ↦ hsafe.saved
        (ids_subset (retained_of_unchanged (Bool.eq_false_iff.mpr hchanged)) hmem)
  obtain ⟨hrecords, hretained, hloaded, hcache, hinstalled⟩ := hsame
  unfold Index.refresh
  dsimp only
  rw [← hnext]
  split_ifs with hwritten hchanged
  · exact hsafe
  · cases cacheWrite with
    | succeeds =>
      exact hsafe.install hinstalled (by simp) (Subset.refl _) hsaved
        (fun record hmem ↦ hnamed record (mem_sortRecords.mp hmem))
    | fails left =>
      -- Nothing was found again, so the new set has all retained conversations.
      obtain ⟨hleft, hgone⟩ := hfails left rfl
      refine ⟨hloaded.trans hsafe.loaded, hleft ▸ hsafe.decodable, ?_, ?_, hleft ▸ hsafe.named, ?_⟩
      · simp only [hrecords, hleft]
        exact hsafe.cached
      · intro id hmem
        simp only [hretained] at hmem
        obtain ⟨record, hrecord, rfl⟩ := mem_ids.mp hmem
        refine hsaved (retained_of_not_found hrecord fun hfound ↦ hgone record hrecord ?_)
        exact ids_subset (fun _ ↦ mem_sortRecords.mp) hfound
      · intro id hmem
        simp only [hinstalled] at hmem
        simpa [Index.Visible, hrecords, hretained] using hsafe.visible id hmem
  · -- The scan is the installed one, and so is the cache file.
    have hsameByPath : sameByPath index.records scan.records = true := by
      simp only [Index.scanChanged, Bool.or_eq_true, Bool.not_eq_eq_eq_not,
        Bool.not_true, not_or] at hchanged
      simpa using hchanged.1.2
    refine hsafe.install hinstalled (hcache ▸ hsafe.decodable) ?_ hsaved (hcache ▸ hsafe.named)
    intro _ hmem
    rw [hcache]
    exact hsafe.cached (subset_of_sameByPath hnodup hsameByPath (mem_sortRecords.mp hmem))

/-- One event keeps the index safe. -/
theorem step (hsafe : index.Safe) {event : IndexEvent Data} (hkept : Kept index event) :
    (index.step event).Safe := by
  cases event with
  | restart => exact hsafe.restart
  | refresh =>
    simp only [Index.step, hsafe.loaded, Bool.true_or, if_true]
    exact hsafe.refresh hkept

/-- Every run keeps the index safe, by induction on the events. -/
theorem run (hsafe : index.Safe) {events : List (IndexEvent Data)}
    (hkept : KeptAlong index events) :
    (index.run events).Safe := by
  induction events generalizing index with
  | nil => exact hsafe
  | cons _ _ ih => exact ih (hsafe.step hkept.1) hkept.2

end Index.Safe

/-- In every run whose events meet the condition, every id that a refresh has ever installed is in
the current or in the retained records. -/
theorem visible_of_kept {events : List (IndexEvent Data)} (hkept : KeptAlong Index.fresh events)
    {id : String} (hinstalled : id ∈ (Index.fresh.run events).installed) :
    (Index.fresh.run events).Visible id :=
  (Index.Safe.fresh.run hkept).visible id hinstalled

def plainRecord (id : String) : Record Unit := ⟨id, id, "", 0, ()⟩

/-- A refresh of a scan with these ids, with the outcome of the cache write. -/
def refreshOf (scanned : List String) (cacheWrite : CacheWrite Unit) : IndexEvent Unit :=
  .refresh true ⟨scanned.map plainRecord, false⟩ true cacheWrite

/-- A conversation disappears, a cache write fails, the process restarts, and the conversation is
still there. -/
theorem visible_after_dropped_and_restart :
    ((Index.fresh : Index Unit).run [refreshOf ["a"] .succeeds,
      refreshOf [] (.fails (.valid [plainRecord "a"])), .restart, refreshOf [] .succeeds,
      .restart]).Visible "a" := by
  refine visible_of_kept ?_ (by decide)
  refine ⟨⟨by decide, by decide, nofun⟩, ⟨by decide, by decide, ?_⟩, trivial,
    ⟨by decide, by decide, nofun⟩, trivial, trivial⟩
  rintro _ ⟨⟩
  exact ⟨rfl, by decide⟩

/-- A retained conversation is found again, and the cache write fails before a restart; or the cache
write leaves half a file, and the next periodic refresh begins without the retained records. -/
theorem retained_conversation_lost :
    (∃ index : Index Unit, index = Index.fresh.run [refreshOf ["a"] .succeeds,
      refreshOf [] .succeeds, refreshOf ["a"] (.fails (.valid [])), .restart,
      refreshOf [] .succeeds] ∧
      "a" ∈ index.installed ∧ ¬ index.Visible "a") ∧
    (∃ index : Index Unit, index = Index.fresh.run [refreshOf ["a"] .succeeds,
      refreshOf [] .succeeds, refreshOf ["b"] (.fails .corrupt), .restart,
      refreshOf ["b"] .succeeds] ∧
      "a" ∈ index.installed ∧ ¬ index.Visible "a") := by
  refine ⟨⟨_, rfl, by decide, ?_⟩, ⟨_, rfl, by decide, ?_⟩⟩
  · unfold Index.Visible
    decide
  · unfold Index.Visible
    decide

end Clyde.Conversation
