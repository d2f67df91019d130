import Clyde.Cursor.Transcript

/-!
# Resume links

`internal/providers/cursor/parser/resume_links.go`: `buildResumeLinkIndex` gives for each resumed id
the first conversation whose transcript names it in a tool call, together with the headers. While
the process runs, a scan goes on from the entry of the last one (`scanResumeLinks`). After a restart
`resumeLinkEntryFromPrior` makes the entry from the title of the record, the records with this
conversation as their parent, and the stamped size.

`State.step` runs the parser with the part of `parser.go`, `cached_discovery.go` and
`internal/conversation/scan.go` that makes those records and stamps.

Scope. The list of transcripts is in the order of discovery. Files are neither removed nor replaced.
Scans are not interrupted, and their index may or may not be installed. Of other artifacts' records
only id and parent are kept.
-/

set_option autoImplicit false

namespace Clyde.Cursor

open Foundation ByteCodec Text Json LineFile

/-- The path of a transcript: `<root>/<projectKey>/agent-transcripts/<id>/<id>.jsonl`, or
`<root>/<projectKey>/agent-transcripts/<parent>/subagents/<id>.jsonl`. -/
structure Location where
  root : Bytes
  projectKey : Bytes
  conversationDir : Bytes
  /-- The name of the file under `subagents`. -/
  subagent : Option Bytes
  named : conversationDir ≠ []
  stemmed : subagent ≠ some []
  deriving DecidableEq

namespace Location

variable (location : Location)

def conversationID : Bytes := location.subagent.getD location.conversationDir

def parentConversationID : Bytes :=
  match location.subagent with
  | none => []
  | some _ => location.conversationDir

def conversationIDFromPath : Bytes :=
  let parentName :=
    if location.subagent.isSome then bytesOf "subagents" else location.conversationDir
  let filenameStem := location.subagent.getD location.conversationDir
  if parentName = filenameStem then parentName else filenameStem

theorem conversationIDFromPath_eq : location.conversationIDFromPath = location.conversationID := by
  exact ite_eq_right_iff.mpr id

end Location

/-- `FileStamp`, and what a scan reads of `os.FileInfo`. -/
structure FileStamp where
  size : ℕ
  mtime : ℕ
  deriving DecidableEq

structure TranscriptFile where
  location : Location
  content : Bytes
  mtime : ℕ

namespace TranscriptFile

def stamp (file : TranscriptFile) : FileStamp := ⟨file.content.length, file.mtime⟩

def conversationID (file : TranscriptFile) : Bytes := file.location.conversationID

def IsOwn (file : TranscriptFile) : Prop := file.location.parentConversationID = []

instance (file : TranscriptFile) : Decidable file.IsOwn := inferInstanceAs (Decidable (_ = _))

end TranscriptFile

/-- `Origin`, as far as transcripts have one. -/
inductive Origin
  | user
  | subagent
  deriving DecidableEq

/-- `conversation.Record` of a transcript. -/
structure Record where
  artifactPath : Location
  nativeID : Bytes
  /-- The parent of the lineage. -/
  lineage : Option Bytes
  origin : Origin
  title : Bytes
  titleUncertain : Bool
  deriving DecidableEq

structure OtherRecord where
  nativeID : Bytes
  lineage : Option Bytes
  deriving DecidableEq

/-- The records and the stamps of the last scan that was installed. -/
structure Prior where
  records : List Record
  others : List OtherRecord
  stamps : Location → Option FileStamp

namespace Prior

def none : Prior where
  records := []
  others := []
  stamps := fun _ ↦ .none

def record (prior : Prior) (location : Location) : Option Record :=
  prior.records.find? fun record ↦ record.artifactPath = location

theorem artifactPath_of_record {prior : Prior} {location : Location} {record : Record}
    (hrecord : prior.record location = some record) : record.artifactPath = location := by
  simpa using List.find?_some hrecord

def childrenOf (prior : Prior) (conversationID : Bytes) : List Bytes :=
  (prior.records.filter fun record ↦ record.lineage = some conversationID).map Record.nativeID ++
    (prior.others.filter fun record ↦ record.lineage = some conversationID).map OtherRecord.nativeID

end Prior

/-- `resumeLinkCacheEntry`. -/
structure Entry where
  info : FileStamp
  completeOffset : ℕ
  header : TranscriptHeader
  resumedIDs : List Bytes

def Entry.empty : Entry where
  info := ⟨0, 0⟩
  completeOffset := 0
  header := .empty []
  resumedIDs := []

def cursorSpawnToolNames : List Bytes :=
  [bytesOf "Task", bytesOf "Subagent"]

def cursorTranscriptToolInput : Store Bytes :=
  .record [(bytesOf "resume", .string)]

def resumedID : ContentPart → Option Bytes
  | .text _ => none
  | .toolUse toolName toolInput =>
    if toolName ∈ cursorSpawnToolNames then
      match cursorTranscriptToolInput.unmarshal [] toolInput with
      | none => none
      | some resume => if trimSpace resume = [] then none else some (trimSpace resume)
    else none

def resumedIDs (messages : List TranscriptMessage) : List Bytes :=
  messages.flatMap fun message ↦ message.parts.filterMap resumedID

theorem resumedIDs_append (front back : List TranscriptMessage) :
    resumedIDs (front ++ back) = resumedIDs front ++ resumedIDs back :=
  List.flatMap_append

def scanResumeLinks (file : TranscriptFile) (prior : Entry) : Entry :=
  let scan :=
    scanAppend file.location.conversationIDFromPath file.content prior.completeOffset prior.header
  { info := file.stamp
    completeOffset := scan.offset
    header := scan.header
    resumedIDs := prior.resumedIDs ++ resumedIDs scan.messages }

def resumeLinkEntryFromPrior (file : TranscriptFile) (stamp : FileStamp) (prior : Prior) :
    Entry where
  info := file.stamp
  completeOffset := stamp.size
  header :=
    match prior.record file.location with
    | none => .empty file.conversationID
    | some record =>
      { conversationID := file.conversationID
        firstUserText := record.title
        hasMessages := record.title ≠ []
        firstUserTextUncertain := record.titleUncertain }
  resumedIDs := prior.childrenOf file.conversationID

abbrev Memory : Type := Location → Option Entry

def resumeLinksFromPrior (memory : Memory) (prior : Prior) (file : TranscriptFile) : Option Entry :=
  match memory file.location, prior.stamps file.location with
  | none, some stamp =>
    if file.content.length < stamp.size then none
    else if stamp.size = file.content.length then some (resumeLinkEntryFromPrior file stamp prior)
    else some (scanResumeLinks file (resumeLinkEntryFromPrior file stamp prior))
  | _, _ => none

def currentEntry (memory : Memory) (prior : Prior) (file : TranscriptFile) : Entry :=
  match resumeLinksFromPrior memory prior file with
  | some entry => entry
  | none =>
    match memory file.location with
    | none => scanResumeLinks file .empty
    | some cached =>
      if cached.info = file.stamp then cached
      else scanResumeLinks file (if file.content.length ≤ cached.info.size then .empty else cached)

/-- `parentByResumedID`. -/
abbrev Links : Type := Bytes → Option Bytes

def addResumeLink (parentConversationID : Bytes) (links : Links) (resumedID : Bytes) : Links :=
  if resumedID = [] ∨ resumedID = parentConversationID then links
  else if (links resumedID).isSome then links
  else fun id ↦ if id = resumedID then some parentConversationID else links id

def addResumeLinks (links : Links) (parentConversationID : Bytes) (resumedIDs : List Bytes) :
    Links :=
  resumedIDs.foldl (addResumeLink parentConversationID) links

structure ResumeScan where
  links : Links
  memory : Memory

def buildResumeLinkIndex (memory : Memory) (prior : Prior) (files : List TranscriptFile) :
    ResumeScan where
  links := (files.filter fun file ↦ file.IsOwn).foldl (fun links file ↦
    addResumeLinks links file.conversationID (currentEntry memory prior file).resumedIDs) fun _ ↦
      none
  memory := fun location ↦
    ((files.filter fun file ↦ file.IsOwn).find? fun file ↦ file.location = location).map
      (currentEntry memory prior)

def parentOf (links : Links) (conversationID : Bytes) : Option Bytes :=
  (links (trimSpace conversationID)).filter fun parent ↦ parent ≠ []

def firstNonEmptyString (values : List Bytes) : Bytes :=
  ((values.map trimSpace).find? fun value ↦ value ≠ []).getD []

def maxTitleRunes : ℕ := 80

def truncateTitle (title : Bytes) : Bytes :=
  let trimmed := trimSpace title
  if (Utf8.runes trimmed).length ≤ maxTitleRunes then trimmed
  else Utf8.encodeRunes ((Utf8.runes trimmed).take maxTitleRunes)

def untitledCursorConversationText : Bytes :=
  bytesOf "Untitled Cursor Conversation"

def recordTitle (header : TranscriptHeader) : Bytes :=
  firstNonEmptyString [truncateTitle header.firstUserText, untitledCursorConversationText]

def twinSubagentParentID (files : List TranscriptFile) (file : TranscriptFile) : Bytes :=
  if file.IsOwn then
    ((files.find? fun other ↦ ¬ other.IsOwn ∧ other.location.projectKey = file.location.projectKey ∧
      other.conversationID = file.conversationID).map fun other ↦
        other.location.parentConversationID).getD []
  else []

structure Artifact where
  origin : Origin
  parentConversationID : Bytes
  transcriptHeader : Option TranscriptHeader

def discover (scan : ResumeScan) (files : List TranscriptFile) (file : TranscriptFile) : Artifact :=
  let parent :=
    firstNonEmptyString [file.location.parentConversationID, twinSubagentParentID files file]
  let origin := if parent = [] then Origin.user else .subagent
  { origin := origin
    parentConversationID :=
      if origin = .subagent then (parentOf scan.links file.conversationID).getD parent else parent
    transcriptHeader := (scan.memory file.location).map Entry.header }

def metadataChanged (prior : Prior) (artifact : Artifact) (location : Location) : Bool :=
  match prior.record location with
  | none => false
  | some previous =>
    previous.origin ≠ artifact.origin ∨ previous.lineage.getD [] ≠ artifact.parentConversationID ∨
      artifact.transcriptHeader.any fun header ↦
        previous.title ≠ recordTitle header ∨
          previous.titleUncertain ≠ header.firstUserTextUncertain

def cursorSpawnLineage (parentConversationID : Bytes) : Option Bytes :=
  if trimSpace parentConversationID = [] then none else some (trimSpace parentConversationID)

def readTranscriptHeader (artifact : Artifact) (file : TranscriptFile) : TranscriptHeader :=
  artifact.transcriptHeader.getD (scanHeader file.location.conversationIDFromPath file.content)

def scanRecord (artifact : Artifact) (file : TranscriptFile) : Record where
  artifactPath := file.location
  nativeID := file.conversationID
  lineage := cursorSpawnLineage artifact.parentConversationID
  origin := artifact.origin
  title := recordTitle (readTranscriptHeader artifact file)
  titleUncertain := (readTranscriptHeader artifact file).firstUserTextUncertain

def scanCandidate (prior : Prior) (artifact : Artifact) (file : TranscriptFile) : Option Record :=
  if prior.stamps file.location = some file.stamp ∧
    ¬ metadataChanged prior artifact file.location then
    prior.record file.location
  else some (scanRecord artifact file)

/-- The transcripts, what the process has in memory, and what is installed and kept over a restart.
-/
structure State where
  files : List TranscriptFile
  memory : Memory
  prior : Prior

inductive Event
  /-- A new and empty transcript, before the one at a place in the order of discovery. -/
  | create (location : Location) (position mtime : ℕ)
  | append (location : Location) (chunk : Bytes) (mtime : ℕ)
  /-- A scan, in which the other artifacts have these records. -/
  | scan (others : List OtherRecord) (installed : Bool)
  | restart

namespace State

def initial : State where
  files := []
  memory := fun _ ↦ none
  prior := .none

def resumeScan (state : State) : ResumeScan :=
  buildResumeLinkIndex state.memory state.prior state.files

def scanned (state : State) (others : List OtherRecord) : Prior where
  records := state.files.filterMap fun file ↦
    scanCandidate state.prior (discover state.resumeScan state.files file) file
  others := others
  stamps :=
    fun location ↦ (state.files.find? fun file ↦ file.location = location).map TranscriptFile.stamp

def grow (location : Location) (chunk : Bytes) (mtime : ℕ) (file : TranscriptFile) :
    TranscriptFile :=
  if file.location = location then
    { file with content := file.content ++ chunk, mtime := mtime }
  else file

def step (state : State) : Event → State
  | .create location position mtime =>
    if location ∈ state.files.map TranscriptFile.location then state
    else
      { state with
        files := state.files.take position ++ ⟨location, [], mtime⟩ :: state.files.drop position }
  | .append location chunk mtime =>
    { state with files := state.files.map (grow location chunk mtime) }
  | .scan others installed =>
    { state with
      memory := state.resumeScan.memory
      prior := if installed then state.scanned others else state.prior }
  | .restart => { state with memory := fun _ ↦ none }

def run (state : State) (events : List Event) : State := events.foldl step state

end State

end Clyde.Cursor
