import Clyde.Cursor.ResumeLinks
import Mathlib.Data.List.Nodup

/-!
# Scans that go on where the last one stopped

What `buildResumeLinkIndex` finds by going on with every transcript is to be what a new parser finds
in the whole lines of the same files. `Covers` says that an entry is right for a part of a
transcript; a scan from it is then right for the whole (`scanResumeLinks_covers`). `Sound` is the
invariant of runs.

An entry that is made from a record and a stamp covers the stamped part only under `Restorable`: the
part ends with a line, the title is the text itself, and the children of the conversation are what
it has resumed. `incremental_scan_agrees` is for the runs in which this holds (`KeptAlong`), and
`resumed_scan_differs` has a run for each of the three conditions.
-/

set_option autoImplicit false

namespace Clyde.Cursor

open Foundation ByteCodec Text LineFile List Option TranscriptHeader

/-! ### What an entry stands for -/

def headerOf (conversationID content : Bytes) : TranscriptHeader :=
  readLines (.empty conversationID) (wholeLines newline content)

def resumedBy (content : Bytes) : List Bytes := resumedIDs (messages (wholeLines newline content))

/-- The entry is what a scan of the text gives. -/
structure Covers (conversationID content : Bytes) (entry : Entry) : Prop where
  offset : entry.completeOffset = (wholeLines newline content).flatten.length
  header : entry.header.named conversationID = headerOf conversationID content
  resumed : ∀ id, id ∈ entry.resumedIDs ↔ id ∈ resumedBy content

theorem covers_empty (conversationID : Bytes) : Covers conversationID [] .empty where
  offset := rfl
  header := rfl
  resumed := fun _ ↦ Iff.rfl

theorem scanResumeLinks_conversationID (file : TranscriptFile) (entry : Entry) :
    (scanResumeLinks file entry).header.conversationID = file.conversationID := by
  rw [scanResumeLinks, scanAppend_eq]
  exact (readLines_conversationID _ _).trans file.location.conversationIDFromPath_eq

variable {file : TranscriptFile} {entry : Entry}

/-- Scanning what was appended makes an entry for the front an entry for the whole file. -/
theorem scanResumeLinks_covers {front : Bytes} (hfront : front <+: file.content)
    (hentry : Covers file.conversationID front entry) :
    Covers file.conversationID file.content (scanResumeLinks file entry) := by
  obtain ⟨back, hback⟩ := hfront
  have hdrop : file.content.drop entry.completeOffset = unfinished newline front ++ back := by
    rw [hentry.offset, ← hback, drop_append_of_le_length (length_flatten_wholeLines_le front),
      drop_wholeLines]
  have hlines : wholeLines newline file.content =
      wholeLines newline front ++ wholeLines newline (file.content.drop entry.completeOffset) := by
    rw [hdrop, ← hback, wholeLines_append]
  have hid : file.location.conversationIDFromPath = file.conversationID :=
    file.location.conversationIDFromPath_eq
  refine ⟨?_, ?_, fun id ↦ ?_⟩
  · rw [scanResumeLinks, scanAppend_eq, hlines, flatten_append, length_append, hentry.offset]
  · rw [named_eq (scanResumeLinks_conversationID file entry), scanResumeLinks, scanAppend_eq,
      hid, hentry.header, headerOf, headerOf, hlines, readLines_append]
  · rw [scanResumeLinks, scanAppend_eq, resumedBy, hlines, messages_append, resumedIDs_append,
      mem_append, mem_append, hentry.resumed id, resumedBy]

theorem scanResumeLinks_empty_covers (file : TranscriptFile) :
    Covers file.conversationID file.content (scanResumeLinks file .empty) :=
  scanResumeLinks_covers nil_prefix (covers_empty _)

/-! ### Entries from records -/

structure Titled (header : TranscriptHeader) (record : Record) : Prop where
  title : record.title = recordTitle header
  uncertain : record.titleUncertain = header.firstUserTextUncertain

/-- The part ends with a line, its first user text is a title, and the records have the resumed
conversations as children. -/
structure Restorable (prior : Prior) (file : TranscriptFile) (size : ℕ) : Prop where
  wholeLines : unfinished newline (file.content.take size) = []
  text : (headerOf file.conversationID (file.content.take size)).firstUserText ≠ []
  short :
    (Utf8.runes (headerOf file.conversationID (file.content.take size)).firstUserText).length ≤
    maxTitleRunes
  listed : ∀ id ∈ resumedBy (file.content.take size), id ∈ prior.childrenOf file.conversationID
  resumed : ∀ id ∈ prior.childrenOf file.conversationID, id ∈ resumedBy (file.content.take size)

instance (prior : Prior) (file : TranscriptFile) (size : ℕ) :
    Decidable (Restorable prior file size) :=
  decidable_of_iff (unfinished newline (file.content.take size) = [] ∧
      (headerOf file.conversationID (file.content.take size)).firstUserText ≠ [] ∧
      (Utf8.runes (headerOf file.conversationID (file.content.take size)).firstUserText).length ≤
        maxTitleRunes ∧
      (∀ id ∈ resumedBy (file.content.take size), id ∈ prior.childrenOf file.conversationID) ∧
      ∀ id ∈ prior.childrenOf file.conversationID, id ∈ resumedBy (file.content.take size))
    ⟨fun ⟨hwhole, htext, hshort, hlisted, hresumed⟩ ↦ ⟨hwhole, htext, hshort, hlisted, hresumed⟩,
      fun h ↦ ⟨h.wholeLines, h.text, h.short, h.listed, h.resumed⟩⟩

variable {header : TranscriptHeader}

theorem recordTitle_eq (htrimmed : trimSpace header.firstUserText = header.firstUserText)
    (htext : header.firstUserText ≠ [])
    (hshort : (Utf8.runes header.firstUserText).length ≤ maxTitleRunes) :
    recordTitle header = header.firstUserText := by
  have htruncated : truncateTitle header.firstUserText = header.firstUserText := by
    unfold truncateTitle
    rw [htrimmed, if_pos hshort]
  rw [recordTitle, htruncated, firstNonEmptyString, map_cons, htrimmed,
    find?_cons_of_pos (by simpa using htext), getD_some]

variable {prior : Prior} {stamp : FileStamp} {record : Record}

/-- The entry that is restored from an earlier record covers the part of the file that the record
was made from. -/
theorem resumeLinkEntryFromPrior_covers
    (hrestorable : Restorable prior file stamp.size) (hsize : stamp.size ≤ file.content.length)
    (hrecord : prior.record file.location = some record)
    (htitled : Titled (headerOf file.conversationID (file.content.take stamp.size)) record) :
    Covers file.conversationID (file.content.take stamp.size)
      (resumeLinkEntryFromPrior file stamp prior) ∧
      (resumeLinkEntryFromPrior file stamp prior).header.conversationID = file.conversationID := by
  obtain ⟨hwhole, htext, hshort, hlisted, hresumed⟩ := hrestorable
  set header := headerOf file.conversationID (file.content.take stamp.size) with hheader
  have htrimmed : trimSpace header.firstUserText = header.firstUserText := readLines_trimmed _ rfl
  have hmessages : header.hasMessages = true := readLines_hasMessages (fun h ↦ absurd rfl h) htext
  have hid : header.conversationID = file.conversationID := readLines_conversationID _ _
  have htitle : record.title = header.firstUserText :=
    htitled.title.trans (recordTitle_eq htrimmed htext hshort)
  have hmade : (resumeLinkEntryFromPrior file stamp prior).header = header := by
    rw [resumeLinkEntryFromPrior, hrecord]
    dsimp only
    rw [htitle, htitled.uncertain, decide_eq_true htext, ← hmessages]
    exact named_eq hid
  refine ⟨⟨?_, ?_, fun id ↦ ⟨hresumed id, hlisted id⟩⟩, ?_⟩
  · have hlength := congrArg List.length (flatten_wholeLines_append (file.content.take stamp.size) :
        (wholeLines newline _).flatten ++ unfinished newline _ = _)
    rw [hwhole, append_nil, length_take, Nat.min_eq_left hsize] at hlength
    exact hlength.symm
  · rw [hmade, named_eq hid]
  · rw [hmade, hid]

/-! ### The entries of a scan -/

structure Entry.Begins (entry : Entry) (file : TranscriptFile) (front : Bytes) : Prop where
  isPrefix : front <+: file.content
  covers : Covers file.conversationID front entry
  named : entry.header.conversationID = file.conversationID
  size : entry.info.size = front.length

def Entry.Current (entry : Entry) (file : TranscriptFile) : Prop := entry.Begins file file.content

theorem scanResumeLinks_current
    (hentry : Covers file.conversationID file.content (scanResumeLinks file entry)) :
    (scanResumeLinks file entry).Current file :=
  ⟨prefix_refl _, hentry, scanResumeLinks_conversationID file entry, rfl⟩

/-- The record of a stamped transcript has the title of the stamped part. -/
structure Stamped (prior : Prior) (file : TranscriptFile) (stamp : FileStamp) : Prop where
  size : stamp.size ≤ file.content.length
  found : ∃ record ∈ prior.records, record.artifactPath = file.location
  titled : file.IsOwn → ∀ record ∈ prior.records, record.artifactPath = file.location →
    Titled (headerOf file.conversationID (file.content.take stamp.size)) record

theorem Stamped.exists_record (hstamped : Stamped prior file stamp) (hown : file.IsOwn) :
    ∃ record, prior.record file.location = some record ∧
      Titled (headerOf file.conversationID (file.content.take stamp.size)) record := by
  obtain ⟨other, hother, hpath⟩ := hstamped.found
  cases hrecord : prior.record file.location with
  | none => exact absurd (decide_eq_true hpath) (find?_eq_none.mp hrecord other hother)
  | some record =>
    exact ⟨record, rfl, hstamped.titled hown record (mem_of_find?_eq_some hrecord)
      (Prior.artifactPath_of_record hrecord)⟩

/-- A scan can make an entry from the records of this transcript only if they say what a scan would
find. -/
def TranscriptFile.Kept (memory : Memory) (prior : Prior) (file : TranscriptFile) : Prop :=
  match memory file.location, prior.stamps file.location with
  | none, some stamp => file.IsOwn → Restorable prior file stamp.size
  | _, _ => True

instance (memory : Memory) (prior : Prior) (file : TranscriptFile) :
    Decidable (file.Kept memory prior) := by
  unfold TranscriptFile.Kept
  split <;> infer_instance

variable {memory : Memory}

/-- An entry that is taken from memory or restored is current after the new part is scanned. -/
theorem resumeLinksFromPrior_current (hown : file.IsOwn) (hkept : file.Kept memory prior)
    (hstamped : ∀ stamp, prior.stamps file.location = some stamp → Stamped prior file stamp)
    (hentry : resumeLinksFromPrior memory prior file = some entry) : entry.Current file := by
  unfold resumeLinksFromPrior at hentry
  unfold TranscriptFile.Kept at hkept
  split at hentry
  case h_2 => simp at hentry
  case h_1 stamp hmemory hstamp =>
    rw [hmemory, hstamp] at hkept
    have hfile := hstamped stamp hstamp
    obtain ⟨_, hrecord, htitled⟩ := hfile.exists_record hown
    obtain ⟨hcovers, hnamed⟩ :=
      resumeLinkEntryFromPrior_covers (hkept hown) hfile.size hrecord htitled
    rw [if_neg (Nat.not_lt.mpr hfile.size)] at hentry
    by_cases hsame : stamp.size = file.content.length
    · rw [if_pos hsame, Option.some.injEq] at hentry
      rw [hsame, take_length] at hcovers
      rw [← hentry]
      exact ⟨prefix_refl _, hcovers, hnamed, rfl⟩
    · rw [if_neg hsame, Option.some.injEq] at hentry
      rw [← hentry]
      have hread := take_prefix stamp.size file.content
      exact scanResumeLinks_current (scanResumeLinks_covers hread hcovers)

/-- The entry of a file is current, wherever it comes from. -/
theorem currentEntry_current (hown : file.IsOwn) (hkept : file.Kept memory prior)
    (hmemory : ∀ entry, memory file.location = some entry → ∃ front, entry.Begins file front)
    (hstamped : ∀ stamp, prior.stamps file.location = some stamp → Stamped prior file stamp) :
    (currentEntry memory prior file).Current file := by
  unfold currentEntry
  split
  case h_1 entry hentry => exact resumeLinksFromPrior_current hown hkept hstamped hentry
  case h_2 hnone =>
    split
    case h_1 => exact scanResumeLinks_current (scanResumeLinks_empty_covers file)
    case h_2 cached hcached =>
      obtain ⟨front, hfront⟩ := hmemory cached hcached
      by_cases hinfo : cached.info = file.stamp
      · rw [if_pos hinfo]
        have hlength : front.length = file.content.length := by rw [← hfront.size, hinfo]; rfl
        rwa [hfront.isPrefix.eq_of_length hlength] at hfront
      split_ifs
      · exact scanResumeLinks_current (scanResumeLinks_empty_covers file)
      · exact scanResumeLinks_current (scanResumeLinks_covers hfront.isPrefix hfront.covers)

theorem currentEntry_none_current (file : TranscriptFile) :
    (currentEntry (fun _ ↦ none) .none file).Current file :=
  scanResumeLinks_current (scanResumeLinks_empty_covers file)

theorem Entry.Current.header_eq {first second : Entry} (hfirst : first.Current file)
    (hsecond : second.Current file) : first.header = second.header := by
  rw [← named_eq hfirst.named, ← named_eq hsecond.named, hfirst.covers.header,
    hsecond.covers.header]

/-! ### The index of some entries -/

/-- A link that exists stays, and an id gets the parent that names it first. -/
theorem addResumeLinks_apply (links : Links) (parent : Bytes) (ids : List Bytes) (id : Bytes) :
    addResumeLinks links parent ids id =
      (links id).or (if id ∈ ids ∧ id ≠ [] ∧ id ≠ parent then some parent else none) := by
  induction ids generalizing links with
  | nil => simp [addResumeLinks]
  | cons resumed _ ih =>
    rw [addResumeLinks, foldl_cons, ← addResumeLinks, ih]
    unfold addResumeLink
    by_cases hskipped : resumed = [] ∨ resumed = parent
    · rw [if_pos hskipped]
      by_cases hsame : id = resumed
      · subst hsame
        have hnever : ∀ others : List Bytes, ¬ (id ∈ others ∧ id ≠ [] ∧ id ≠ parent) := by tauto
        rw [if_neg (hnever _), if_neg (hnever _)]
      · simp [hsame]
    push Not at hskipped
    by_cases hsame : id = resumed
    · subst hsame
      cases hlink : links id with
      | none => simp [hskipped]
      | some => simp [hlink]
    · split_ifs <;> simp_all

theorem addResumeLinks_congr (links : Links) (parent : Bytes) {first second : List Bytes}
    (hsame : ∀ id, id ∈ first ↔ id ∈ second) :
    addResumeLinks links parent first = addResumeLinks links parent second := by
  funext id
  rw [addResumeLinks_apply, addResumeLinks_apply]
  simp [hsame id]

/-- Two builds with current entries agree, whatever memory and records they started with. -/
theorem buildResumeLinkIndex_congr {other : Memory} {before : Prior} {files : List TranscriptFile}
    (hfirst : ∀ file ∈ files, file.IsOwn → (currentEntry memory prior file).Current file)
    (hsecond : ∀ file ∈ files, file.IsOwn → (currentEntry other before file).Current file) :
    (buildResumeLinkIndex memory prior files).links =
      (buildResumeLinkIndex other before files).links ∧
      ∀ location, ((buildResumeLinkIndex memory prior files).memory location).map Entry.header =
        ((buildResumeLinkIndex other before files).memory location).map Entry.header := by
  constructor
  · refine List.foldl_ext _ _ _ fun links file hfile ↦ ?_
    obtain ⟨hmem, hown⟩ := mem_filter.mp hfile
    have hown := of_decide_eq_true hown
    refine addResumeLinks_congr _ _ fun id ↦ ?_
    rw [(hfirst file hmem hown).covers.resumed, (hsecond file hmem hown).covers.resumed]
  intro _
  rw [buildResumeLinkIndex, buildResumeLinkIndex, Option.map_map, Option.map_map]
  refine map_congr fun file hfile ↦ ?_
  obtain ⟨hmem, hown⟩ := mem_filter.mp (mem_of_find?_eq_some hfile)
  have hown := of_decide_eq_true hown
  exact (hfirst file hmem hown).header_eq (hsecond file hmem hown)

/-! ### Runs -/

/-- What holds in every state of a run. -/
structure State.Sound (state : State) : Prop where
  distinct : (state.files.map TranscriptFile.location).Nodup
  remembered : ∀ file ∈ state.files, ∀ entry, state.memory file.location = some entry →
    ∃ front, entry.Begins file front
  known : ∀ location entry, state.memory location = some entry →
    location ∈ state.files.map TranscriptFile.location
  stamped : ∀ file ∈ state.files, ∀ stamp, state.prior.stamps file.location = some stamp →
    Stamped state.prior file stamp
  listed : ∀ location stamp, state.prior.stamps location = some stamp →
    location ∈ state.files.map TranscriptFile.location

/-- A scan in this state meets only transcripts that it can go on with. -/
def State.Kept (state : State) : Prop := ∀ file ∈ state.files, file.Kept state.memory state.prior

instance (state : State) : Decidable state.Kept :=
  inferInstanceAs (Decidable (∀ file ∈ state.files, file.Kept state.memory state.prior))

def KeptAlong (state : State) : List Event → Prop
  | [] => True
  | .scan others installed :: events =>
    state.Kept ∧ KeptAlong (state.step (.scan others installed)) events
  | event :: events => KeptAlong (state.step event) events

namespace State

variable {state : State}

theorem sound_initial : initial.Sound where
  distinct := nodup_nil
  remembered := fun _ hfile ↦ nomatch hfile
  known := fun _ _ hentry ↦ nomatch hentry
  stamped := fun _ hfile ↦ nomatch hfile
  listed := fun _ _ hstamp ↦ nomatch hstamp

theorem Sound.currentEntry (hsound : state.Sound) (hkept : state.Kept) :
    ∀ file ∈ state.files, file.IsOwn → (currentEntry state.memory state.prior file).Current file :=
  fun file hfile hown ↦ currentEntry_current hown (hkept file hfile) (hsound.remembered file hfile)
    (hsound.stamped file hfile)

theorem Sound.eq_of_location (hsound : state.Sound) {other : TranscriptFile}
    (hfile : file ∈ state.files) (hother : other ∈ state.files)
    (hlocation : file.location = other.location) : file = other :=
  inj_on_of_nodup_map hsound.distinct hfile hother hlocation

/-- A new file keeps the state sound. -/
theorem Sound.create (hsound : state.Sound) (location : Location) (position mtime : ℕ) :
    (state.step (.create location position mtime)).Sound := by
  rw [step]
  split_ifs with hexists
  · exact hsound
  have hfiles (place : Location) : place ∈ ((state.files.take position ++
      (⟨location, [], mtime⟩ : TranscriptFile) :: state.files.drop position).map
        TranscriptFile.location) ↔ place = location ∨
        place ∈ state.files.map TranscriptFile.location := by
    conv_rhs => rw [← take_append_drop position state.files]
    simp only [map_append, map_cons, mem_append, mem_cons]
    tauto
  have hcases {file : TranscriptFile} (hfile : file ∈ state.files.take position ++
      (⟨location, [], mtime⟩ : TranscriptFile) :: state.files.drop position) :
      file.location = location ∨ file ∈ state.files := by
    rcases mem_append.mp hfile with hfront | hback
    · exact .inr (mem_of_mem_take hfront)
    · rcases mem_cons.mp hback with rfl | hback
      · exact .inl rfl
      · exact .inr (mem_of_mem_drop hback)
  refine ⟨?_, fun file hfile entry hentry ↦ ?_, fun place entry hentry ↦ ?_,
    fun file hfile stamp hstamp ↦ ?_, fun place stamp hstamp ↦ ?_⟩
  · have hdistinct := hsound.distinct
    rw [← take_append_drop position state.files] at hdistinct hexists
    rw [map_append] at hdistinct hexists ⊢
    rw [map_cons, nodup_middle, nodup_cons]
    exact ⟨hexists, hdistinct⟩
  · rcases hcases hfile with hnew | hold
    · exact absurd (hnew ▸ hsound.known _ entry hentry) hexists
    · exact hsound.remembered file hold entry hentry
  · exact (hfiles place).mpr (.inr (hsound.known place entry hentry))
  · rcases hcases hfile with hnew | hold
    · exact absurd (hnew ▸ hsound.listed _ stamp hstamp) hexists
    · exact hsound.stamped file hold stamp hstamp
  · exact (hfiles place).mpr (.inr (hsound.listed place stamp hstamp))

@[simp] theorem grow_location (location : Location) (chunk : Bytes) (mtime : ℕ)
    (file : TranscriptFile) :
    (grow location chunk mtime file).location = file.location := by
  unfold grow
  split_ifs <;> rfl

theorem isPrefix_grow (location : Location) (chunk : Bytes) (mtime : ℕ) (file : TranscriptFile) :
    file.content <+: (grow location chunk mtime file).content := by
  unfold grow
  split_ifs
  · exact prefix_append _ _
  · exact prefix_refl _

/-- An append keeps the state sound, because entries cover a front of the file. -/
theorem Sound.append (hsound : state.Sound) (location : Location) (chunk : Bytes) (mtime : ℕ) :
    (state.step (.append location chunk mtime)).Sound := by
  have hfiles : (state.files.map (grow location chunk mtime)).map TranscriptFile.location =
      state.files.map TranscriptFile.location := by
    rw [List.map_map]
    exact map_congr_left fun file _ ↦ grow_location location chunk mtime file
  refine ⟨?_, fun file hfile entry hentry ↦ ?_, fun place entry hentry ↦ ?_,
    fun file hfile stamp hstamp ↦ ?_, fun place stamp hstamp ↦ ?_⟩
  · rw [step, hfiles]
    exact hsound.distinct
  · obtain ⟨before, hbefore, rfl⟩ := mem_map.mp hfile
    rw [grow_location] at hentry
    obtain ⟨front, hfront, _, _, hsize⟩ := hsound.remembered before hbefore entry hentry
    have hid : (grow location chunk mtime before).conversationID = before.conversationID :=
      congrArg Location.conversationID (grow_location location chunk mtime before)
    refine ⟨front, hfront.trans (isPrefix_grow location chunk mtime before), ?_, ?_, hsize⟩
    · rwa [hid]
    · rwa [hid]
  · rw [step, hfiles]
    exact hsound.known place entry hentry
  · obtain ⟨before, hbefore, rfl⟩ := mem_map.mp hfile
    rw [grow_location] at hstamp
    obtain ⟨hsize, _, htitled⟩ := hsound.stamped before hbefore stamp hstamp
    have hgrown := isPrefix_grow location chunk mtime before
    have htake : (grow location chunk mtime before).content.take stamp.size =
        before.content.take stamp.size := by
      obtain ⟨_, hrest⟩ := hgrown
      rw [← hrest, take_append_of_le_length hsize]
    have hlocation := grow_location location chunk mtime before
    refine ⟨hsize.trans hgrown.length_le, ?_, ?_⟩
    · rwa [hlocation]
    · unfold TranscriptFile.IsOwn TranscriptFile.conversationID
      rwa [htake, hlocation]
  · rw [step, hfiles]
    exact hsound.listed place stamp hstamp

/-! ### Scans -/

theorem mem_resumeScan_memory {location : Location}
    (hentry : state.resumeScan.memory location = some entry) :
    ∃ file ∈ state.files, file.IsOwn ∧ file.location = location ∧
      entry = Cursor.currentEntry state.memory state.prior file := by
  obtain ⟨file, hfile, hentry⟩ := map_eq_some_iff.mp hentry
  obtain ⟨hmem, hown⟩ := mem_filter.mp (mem_of_find?_eq_some hfile)
  exact ⟨file, hmem, of_decide_eq_true hown, by simpa using find?_some hfile, hentry.symm⟩

theorem Sound.resumeScan_memory (hsound : state.Sound) (hfile : file ∈ state.files)
    (hown : file.IsOwn) :
    state.resumeScan.memory file.location =
      some (Cursor.currentEntry state.memory state.prior file) := by
  cases hentry : state.resumeScan.memory file.location with
  | none =>
    have hnone := find?_eq_none.mp (map_eq_none_iff.mp hentry) file
      (mem_filter.mpr ⟨hfile, decide_eq_true hown⟩)
    exact absurd (decide_eq_true rfl) hnone
  | some =>
    obtain ⟨_, hother, -, hlocation, rfl⟩ := mem_resumeScan_memory hentry
    rw [hsound.eq_of_location hother hfile hlocation]

variable {artifact : Artifact}

theorem artifactPath_of_scanCandidate (hrecord : scanCandidate prior artifact file = some record) :
    record.artifactPath = file.location := by
  unfold scanCandidate at hrecord
  split_ifs at hrecord
  · exact Prior.artifactPath_of_record hrecord
  · rw [Option.some.injEq] at hrecord
    rw [← hrecord]
    rfl

/-- A scanned record has the title of the header it was made from. -/
theorem titled_of_scanCandidate (hheader : artifact.transcriptHeader = some header)
    (hrecord : scanCandidate prior artifact file = some record) : Titled header record := by
  unfold scanCandidate at hrecord
  split_ifs at hrecord with hreused
  · -- A record is used again only if its title is that of the header.
    have hsame := hreused.2
    unfold metadataChanged at hsame
    rw [hrecord, hheader] at hsame
    simp only [any_some, ne_eq, not_or, not_not, decide_eq_true_eq] at hsame
    exact ⟨hsame.2.2.1, hsame.2.2.2⟩
  rw [Option.some.injEq] at hrecord
  have hread : readTranscriptHeader artifact file = header := by
    rw [readTranscriptHeader, hheader]; rfl
  rw [← hrecord]
  exact ⟨congrArg recordTitle hread, congrArg firstUserTextUncertain hread⟩

section

variable (hsound : state.Sound)
include hsound

theorem Sound.exists_scanCandidate (hfile : file ∈ state.files)
    (artifact : Artifact) : ∃ record, scanCandidate state.prior artifact file = some record := by
  unfold scanCandidate
  split_ifs with hreused
  · obtain ⟨record, hmem, hpath⟩ := (hsound.stamped file hfile _ hreused.1).found
    exact isSome_iff_exists.mp (find?_isSome.mpr ⟨record, hmem, decide_eq_true hpath⟩)
  · exact ⟨_, rfl⟩

/-- After a scan every stamp belongs to the file's own content. -/
theorem Sound.stamped_scanned (hkept : state.Kept) {others : List OtherRecord}
    (hfile : file ∈ state.files)
    (hstamp : (state.scanned others).stamps file.location = some stamp) :
    Stamped (state.scanned others) file stamp := by
  obtain ⟨other, hother, rfl⟩ := map_eq_some_iff.mp hstamp
  obtain rfl : other = file := hsound.eq_of_location (mem_of_find?_eq_some hother) hfile
    (by simpa using find?_some hother)
  have htake : other.content.take other.stamp.size = other.content := take_length
  refine ⟨Nat.le_refl _, ?_, fun hown record hrecord hpath ↦ ?_⟩
  · obtain ⟨record, hrecord⟩ := hsound.exists_scanCandidate hfile _
    exact ⟨record, mem_filterMap.mpr ⟨other, hfile, hrecord⟩, artifactPath_of_scanCandidate hrecord⟩
  obtain ⟨source, hsource, hscanned⟩ := mem_filterMap.mp hrecord
  obtain rfl : source = other :=
    hsound.eq_of_location hsource hfile ((artifactPath_of_scanCandidate hscanned).symm.trans hpath)
  have hcurrent := hsound.currentEntry hkept source hfile hown
  have hheader : (discover state.resumeScan state.files source).transcriptHeader =
      some (Cursor.currentEntry state.memory state.prior source).header := by
    rw [discover, hsound.resumeScan_memory hfile hown]
    rfl
  rw [htake, ← hcurrent.covers.header, named_eq hcurrent.named]
  exact titled_of_scanCandidate hheader hscanned

theorem Sound.restart : (state.step .restart).Sound :=
  { hsound with
    remembered := fun _ _ _ hentry ↦ nomatch hentry
    known := fun _ _ hentry ↦ nomatch hentry }

/-- A scan keeps the state sound, whether or not its index is installed. -/
theorem Sound.scan (hkept : state.Kept) (others : List OtherRecord)
    (installed : Bool) : (state.step (.scan others installed)).Sound := by
  have hcurrent := hsound.currentEntry hkept
  have hprior : (∀ file ∈ state.files, ∀ stamp,
        (state.scanned others).stamps file.location = some stamp →
        Stamped (state.scanned others) file stamp) ∧
      ∀ location stamp, (state.scanned others).stamps location = some stamp →
        location ∈ state.files.map TranscriptFile.location := by
    constructor
    · intro file hfile stamp hstamp
      exact hsound.stamped_scanned hkept hfile hstamp
    · intro _ stamp hstamp
      obtain ⟨file, hfile, -⟩ := map_eq_some_iff.mp hstamp
      exact mem_map.mpr ⟨file, mem_of_find?_eq_some hfile, by simpa using find?_some hfile⟩
  refine ⟨hsound.distinct, fun file hfile entry hentry ↦ ?_, fun place entry hentry ↦ ?_,
    fun file hfile stamp hstamp ↦ ?_, fun place stamp hstamp ↦ ?_⟩
  · obtain ⟨_, hother, hown, hlocation, rfl⟩ := mem_resumeScan_memory hentry
    rw [hsound.eq_of_location hother hfile hlocation] at hown ⊢
    exact ⟨file.content, hcurrent file hfile hown⟩
  · obtain ⟨file, hfile, -, hlocation, -⟩ := mem_resumeScan_memory hentry
    exact mem_map.mpr ⟨file, hfile, hlocation⟩
  · cases installed with
    | true => exact hprior.1 file hfile stamp hstamp
    | false => exact hsound.stamped file hfile stamp hstamp
  · cases installed with
    | true => exact hprior.2 place stamp hstamp
    | false => exact hsound.listed place stamp hstamp

/-- Every run keeps the state sound, by induction on the events. -/
theorem Sound.run {events : List Event} (hkept : KeptAlong state events) :
    (state.run events).Sound := by
  induction events generalizing state with
  | nil => exact hsound
  | cons event _ ih =>
    cases event with
    | scan others installed => exact ih (hsound.scan hkept.1 others installed) hkept.2
    | create location position mtime => exact ih (hsound.create location position mtime) hkept
    | append location chunk mtime => exact ih (hsound.append location chunk mtime) hkept
    | restart => exact ih hsound.restart hkept

end

end State

/-- Assumes: whenever a scan of the run, or the last one, makes an entry from the records, these say
of the stamped part of the transcript what a scan would find. The last scan gives the links and the
headers that a new parser finds in the whole lines of the files. -/
theorem incremental_scan_agrees (events : List Event) (hkept : KeptAlong .initial events)
    (hlast : (State.initial.run events).Kept) :
    (State.initial.run events).resumeScan.links =
        (buildResumeLinkIndex (fun _ ↦ none) .none (State.initial.run events).files).links ∧
      ∀ location, ((State.initial.run events).resumeScan.memory location).map Entry.header =
        ((buildResumeLinkIndex (fun _ ↦ none) .none (State.initial.run events).files).memory
          location).map Entry.header :=
  buildResumeLinkIndex_congr ((State.sound_initial.run hkept).currentEntry hlast)
    fun file _ _ ↦ currentEntry_none_current file

def parentTranscript : Location :=
  ⟨[], bytesOf "project", bytesOf "p", none, by decide, by decide⟩

def childTranscript : Location :=
  ⟨[], bytesOf "project", bytesOf "p", some (bytesOf "s"), by decide, by decide⟩

def userLine : Bytes :=
  bytesOf ("\x7b\"role\":\"user\",\"message\":\x7b\"content\":[" ++
    "\x7b\"type\":\"text\",\"text\":\"go\"\x7d]\x7d\x7d\n")

/-- A line in which `s` is resumed. -/
def resumeLine : Bytes :=
  bytesOf "\x7b\"role\":\"assistant\",\"message\":\x7b\"content\":[\x7b\"type\":\"tool_use\"," ++
    bytesOf "\"name\":\"Task\",\"input\":\x7b\"resume\":\"s\"\x7d\x7d]\x7d\x7d\n"

/-- The process restarts after a scan of whole lines, and then the transcript grows. -/
def restartedRun : List Event :=
  [.create parentTranscript 0 0, .create childTranscript 1 0,
    .append parentTranscript (userLine ++ resumeLine) 1,
    .scan [] true, .restart, .append parentTranscript resumeLine 2]

theorem resumed_link_after_restart :
    (State.initial.run restartedRun).resumeScan.links (bytesOf "s") = some (bytesOf "p") := by
  have hkept : KeptAlong .initial restartedRun := ⟨by decide +kernel, trivial⟩
  have hlast : (State.initial.run restartedRun).Kept := by decide +kernel
  rw [(incremental_scan_agrees restartedRun hkept hlast).1]
  decide +kernel

/-- The line with the link is half written when the process restarts. -/
def halfWrittenRun : State :=
  State.initial.run [.create parentTranscript 0 0,
    .append parentTranscript (userLine ++ resumeLine.take 40) 1, .scan [] true, .restart,
    .append parentTranscript (resumeLine.drop 40) 2]

/-- The user has written nothing yet when the process restarts. -/
def untitledRun : State :=
  State.initial.run [.create parentTranscript 0 0, .create childTranscript 1 0,
    .append parentTranscript resumeLine 1, .scan [] true, .restart,
    .append parentTranscript userLine 2]

/-- The resumed conversation has no transcript. -/
def unrecordedRun : State :=
  State.initial.run [.create parentTranscript 0 0,
    .append parentTranscript (userLine ++ resumeLine) 1,
    .scan [] true, .restart]

def State.freshScan (state : State) : ResumeScan :=
  buildResumeLinkIndex (fun _ ↦ none) .none state.files

/-- A scan that goes on after a restart misses a link whose line was half written, has a stand-in
for the first text of the user, and forgets a link to a conversation without a record. -/
theorem resumed_scan_differs :
    (halfWrittenRun.resumeScan.links (bytesOf "s") = none ∧
        halfWrittenRun.freshScan.links (bytesOf "s") = some (bytesOf "p")) ∧
      ((untitledRun.resumeScan.memory parentTranscript).map fun entry ↦
        entry.header.firstUserText) = some untitledCursorConversationText ∧
        ((untitledRun.freshScan.memory parentTranscript).map fun entry ↦
          entry.header.firstUserText) = some (bytesOf "go") ∧
      unrecordedRun.resumeScan.links (bytesOf "s") = none ∧
        unrecordedRun.freshScan.links (bytesOf "s") = some (bytesOf "p") := by
  decide +kernel

end Clyde.Cursor
