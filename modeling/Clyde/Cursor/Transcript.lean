import Clyde.Foundation.Json.Decode
import Clyde.Foundation.LineFile
import Clyde.Foundation.Trim

/-!
# Cursor transcripts

`internal/providers/cursor/jsonl/transcript.go`, one JSON object on each line. `decodeLine` reads a
line, `ScanHeader` looks for the first text of the user in a whole file, and `ScanAppend` reads the
whole lines from an offset on, and returns the header, the offset behind the last line and the
messages.

`scanHeader_eq_scanAppend` compares the two scans.

Scope. Files can be read and no scan is cancelled. The status and the error of an event that ends a
turn are read, since a line in which they are no strings cannot be decoded, and not kept.
-/

set_option autoImplicit false

namespace Clyde.Cursor

open Foundation ByteCodec Text Json LineFile List

/-- The byte that ends a line. -/
def newline : UInt8 := 0x0A

structure RawLine where
  role : Bytes
  type : Bytes
  status : Bytes
  error : Bytes
  message : Bytes

def RawLine.store : Store RawLine :=
  .record [
    (bytesOf "role", .field RawLine.role (fun text line ↦ { line with role := text }) .string),
    (bytesOf "type", .field RawLine.type (fun text line ↦ { line with type := text }) .string),
    (bytesOf "status", .field RawLine.status
      (fun text line ↦ { line with status := text }) .string),
    (bytesOf "error", .field RawLine.error (fun text line ↦ { line with error := text }) .string),
    (bytesOf "message", .field RawLine.message
      (fun text line ↦ { line with message := text }) .raw)]

structure RawContentPart where
  type : Bytes
  text : Bytes
  name : Bytes
  input : Bytes

def RawContentPart.store : Store RawContentPart :=
  .record [
    (bytesOf "type", .field RawContentPart.type
      (fun text part ↦ { part with type := text }) .string),
    (bytesOf "text", .field RawContentPart.text
      (fun text part ↦ { part with text := text }) .string),
    (bytesOf "name", .field RawContentPart.name
      (fun text part ↦ { part with name := text }) .string),
    (bytesOf "input", .field RawContentPart.input
      (fun text part ↦ { part with input := text }) .raw)]

def rawMessage : Store (List RawContentPart) :=
  .record [(bytesOf "content", .list ⟨[], [], [], []⟩ RawContentPart.store)]

inductive Role
  | user
  | assistant
  deriving DecidableEq

inductive ContentPart
  | text (text : Bytes)
  | toolUse (toolName toolInput : Bytes)
  deriving DecidableEq

/-- `TranscriptMessage`, before turns are put together. -/
structure TranscriptMessage where
  role : Role
  parts : List ContentPart
  deriving DecidableEq

inductive TranscriptLine
  | blank
  | unmodeled
  /-- `LineTypeTurnEnded` or `LineTypeError`. -/
  | boundary
  | message (message : TranscriptMessage)
  deriving DecidableEq

def contentPart (part : RawContentPart) : Option ContentPart :=
  if part.type = bytesOf "text" then some (.text part.text)
  else if part.type = bytesOf "tool_use" then some (.toolUse part.name part.input)
  else none

def roleOf (role : Bytes) : Option Role :=
  if role = bytesOf "user" then some .user
  else if role = bytesOf "assistant" then some .assistant
  else none

/-- `decodeLine`: nothing if the line cannot be decoded. -/
def decodeLine (rawBytes : Bytes) : Option TranscriptLine :=
  let line := trimSpace rawBytes
  if line = [] then some .blank
  else
    match RawLine.store.unmarshal ⟨[], [], [], [], []⟩ line with
    | none => none
    | some envelope =>
      if envelope.type = bytesOf "turn_ended" ∨ envelope.type = bytesOf "error" then some .boundary
      else
        match roleOf envelope.role with
        | none => some .unmodeled
        | some role =>
          (rawMessage.unmarshal [] envelope.message).map fun content ↦
            .message ⟨role, content.filterMap contentPart⟩

def firstTextPart : List ContentPart → Bytes
  | [] => []
  | .text text :: parts => if trimSpace text ≠ [] then trimSpace text else firstTextPart parts
  | .toolUse _ _ :: parts => firstTextPart parts

structure TranscriptHeader where
  conversationID : Bytes
  firstUserText : Bytes
  hasMessages : Bool
  firstUserTextUncertain : Bool
  deriving DecidableEq

def TranscriptHeader.empty (conversationID : Bytes) : TranscriptHeader where
  conversationID := conversationID
  firstUserText := []
  hasMessages := false
  firstUserTextUncertain := false

def TranscriptHeader.named (header : TranscriptHeader) (conversationID : Bytes) :
    TranscriptHeader :=
  { header with conversationID := conversationID }

variable {header : TranscriptHeader}

theorem TranscriptHeader.named_eq {conversationID : Bytes}
    (hheader : header.conversationID = conversationID) : header.named conversationID = header := by
  rw [← hheader]
  rfl

/-- `ScanHeader` over the lines of a file, of which the last need not be finished. -/
def scanHeaderLines (header : TranscriptHeader) : List Bytes → TranscriptHeader
  | [] => header
  | line :: lines =>
    match decodeLine line with
    | none => scanHeaderLines { header with firstUserTextUncertain := true } lines
    | some (.message message) =>
      let header := { header with hasMessages := true }
      if message.role = .user ∧ firstTextPart message.parts ≠ [] then
        { header with firstUserText := firstTextPart message.parts }
      else scanHeaderLines header lines
    | some _ => scanHeaderLines header lines

def scanHeader (conversationID content : Bytes) : TranscriptHeader :=
  scanHeaderLines (.empty conversationID)
    (wholeLines newline content ++ [unfinished newline content])

/-- What `ScanAppend` does to the header at a line. -/
def TranscriptHeader.note (header : TranscriptHeader) : Option TranscriptLine → TranscriptHeader
  | none =>
    if header.firstUserText = [] then { header with firstUserTextUncertain := true } else header
  | some (.message message) =>
    if header.firstUserText = [] ∧ message.role = .user then
      { header with hasMessages := true, firstUserText := firstTextPart message.parts }
    else { header with hasMessages := true }
  | some _ => header

def visited : Option TranscriptLine → Option TranscriptMessage
  | some (.message message) => some message
  | _ => none

/-- What `ScanAppend` has returned and visited. -/
structure AppendScan where
  header : TranscriptHeader
  offset : ℕ
  messages : List TranscriptMessage

def AppendScan.line (scan : AppendScan) (line : Bytes) : AppendScan where
  header := scan.header.note (decodeLine line)
  offset := scan.offset + line.length
  messages := scan.messages ++ (visited (decodeLine line)).toList

def scanAppend (conversationID content : Bytes) (offset : ℕ) (header : TranscriptHeader) :
    AppendScan :=
  (wholeLines newline (content.drop offset)).foldl AppendScan.line
    ⟨header.named conversationID, offset, []⟩

def readLines (header : TranscriptHeader) (lines : List Bytes) : TranscriptHeader :=
  lines.foldl (fun header line ↦ header.note (decodeLine line)) header

def messages (lines : List Bytes) : List TranscriptMessage :=
  lines.filterMap fun line ↦ visited (decodeLine line)

theorem readLines_append (header : TranscriptHeader) (front back : List Bytes) :
    readLines header (front ++ back) = readLines (readLines header front) back :=
  foldl_append

theorem messages_append (front back : List Bytes) :
    messages (front ++ back) = messages front ++ messages back :=
  filterMap_append

/-- The append scan reads header and messages line by line and advances by the lines' bytes. -/
theorem foldl_line (scan : AppendScan) (lines : List Bytes) :
    lines.foldl AppendScan.line scan =
      ⟨readLines scan.header lines, scan.offset + lines.flatten.length,
        scan.messages ++ messages lines⟩ := by
  induction lines generalizing scan with
  | nil => simp [readLines, messages]
  | cons line lines ih =>
    have hmessages : messages (line :: lines) =
        (visited (decodeLine line)).toList ++ messages lines := by
      rw [messages, filterMap_cons]
      cases visited (decodeLine line) <;> rfl
    rw [foldl_cons, ih, hmessages]
    simp only [AppendScan.line, readLines, foldl_cons, flatten_cons, length_append,
      append_assoc, Nat.add_assoc]

theorem scanAppend_eq (conversationID content : Bytes) (offset : ℕ) (header : TranscriptHeader) :
    scanAppend conversationID content offset header =
      ⟨readLines (header.named conversationID) (wholeLines newline (content.drop offset)),
        offset + (wholeLines newline (content.drop offset)).flatten.length,
        messages (wholeLines newline (content.drop offset))⟩ := by
  rw [scanAppend, foldl_line, nil_append]

@[simp] theorem TranscriptHeader.note_conversationID (header : TranscriptHeader)
    (line : Option TranscriptLine) : (header.note line).conversationID = header.conversationID := by
  unfold note
  split
  · split_ifs <;> rfl
  · split_ifs <;> rfl
  · rfl

theorem readLines_conversationID (header : TranscriptHeader) (lines : List Bytes) :
    (readLines header lines).conversationID = header.conversationID := by
  induction lines generalizing header with
  | nil => rfl
  | cons _ _ ih => exact (ih _).trans (header.note_conversationID _)

section

variable (hheader : header.firstUserText ≠ [] → header.hasMessages = true)
include hheader

theorem TranscriptHeader.note_hasMessages {line : Option TranscriptLine}
    (hfound : (header.note line).firstUserText ≠ []) : (header.note line).hasMessages = true := by
  unfold note at hfound ⊢
  split at hfound
  · split_ifs at hfound ⊢ with hempty
    · exact absurd hempty hfound
    · exact hheader hfound
  · split_ifs <;> rfl
  · exact hheader hfound

theorem readLines_hasMessages {lines : List Bytes}
    (hfound : (readLines header lines).firstUserText ≠ []) :
    (readLines header lines).hasMessages = true := by
  induction lines generalizing header with
  | nil => exact hheader hfound
  | cons _ _ ih => exact ih (TranscriptHeader.note_hasMessages hheader) hfound

end

theorem trimSpace_firstTextPart (parts : List ContentPart) :
    trimSpace (firstTextPart parts) = firstTextPart parts := by
  induction parts with
  | nil => rfl
  | cons part _ ih =>
    cases part with
    | text text =>
      rw [firstTextPart]
      split_ifs
      · exact trimSpace_trimSpace
      · exact ih
    | toolUse => exact ih

theorem TranscriptHeader.note_trimmed (line : Option TranscriptLine)
    (hheader : trimSpace header.firstUserText = header.firstUserText) :
    trimSpace (header.note line).firstUserText = (header.note line).firstUserText := by
  unfold note
  split
  · split_ifs <;> exact hheader
  · split_ifs
    · exact trimSpace_firstTextPart _
    · exact hheader
  · exact hheader

theorem readLines_trimmed (lines : List Bytes)
    (hheader : trimSpace header.firstUserText = header.firstUserText) :
    trimSpace (readLines header lines).firstUserText = (readLines header lines).firstUserText := by
  induction lines generalizing header with
  | nil => exact hheader
  | cons _ _ ih => exact ih (header.note_trimmed _ hheader)

theorem readLines_of_found (hfound : header.firstUserText ≠ [])
    (hmessages : header.hasMessages = true) (lines : List Bytes) :
    readLines header lines = header := by
  induction lines with
  | nil => rfl
  | cons line lines ih =>
    have hnote : header.note (decodeLine line) = header := by
      unfold TranscriptHeader.note
      split <;> simp [hfound, ← hmessages]
    rw [readLines, foldl_cons, hnote]
    exact ih

/-- The header scan that stops early finds the header of all lines. -/
theorem scanHeaderLines_eq (hempty : header.firstUserText = []) (lines : List Bytes) :
    scanHeaderLines header lines = readLines header lines := by
  induction lines generalizing header with
  | nil => rfl
  | cons line lines ih =>
    rw [scanHeaderLines, readLines, foldl_cons, ← readLines]
    cases decodeLine line with
    | none =>
      simp only [TranscriptHeader.note, if_pos hempty]
      exact ih hempty
    | some decoded =>
      cases decoded with
      | blank | unmodeled | boundary => exact ih hempty
      | message message =>
        simp only [TranscriptHeader.note, hempty, true_and]
        split_ifs with hfound huser huser
        · exact (readLines_of_found hfound.2 rfl lines).symm
        · exact absurd hfound.1 huser
        · rw [not_not.mp fun htext ↦ hfound ⟨huser, htext⟩]
          exact ih rfl
        · exact ih rfl

/-- `ScanHeader`, which stops at the first text of the user, returns the header of `ScanAppend` from
the start of the file, after which the last line is read as well, although it is not finished. -/
theorem scanHeader_eq_scanAppend (conversationID content : Bytes) :
    scanHeader conversationID content =
      (scanAppend conversationID content 0 (.empty conversationID)).header.note
      (decodeLine (unfinished newline content)) := by
  rw [scanHeader, scanHeaderLines_eq rfl, readLines_append, scanAppend_eq, drop_zero]
  rfl

end Clyde.Cursor
