import Clyde.Foundation.Json.Decode
import Clyde.Foundation.LineFile
import Clyde.Foundation.Trim
import Clyde.ReorientTag.Segments

/-!
# The messages of a Codex rollout

`internal/providers/codex/store`: a rollout is a file of JSON lines, each an envelope with a time, a
type and a payload. `streamRolloutLines` yields the messages. From line to line it keeps the items
of the current compaction window with those that the last compaction replaced (`RolloutHistory`),
for the resolver of marked parts, and an agent message that is held back until the next one. A
compacted line of 4096 bytes or more is passed over without decoding (`skipLargeCompactedLine`);
`decodedMessages` decodes it.

Scope. System messages are excluded. The file is read without an error and the consumer takes every
message. The time of a line and the instructions in the metadata are functions of the text. Counts
of withheld records are left out. An absent resolver is one that never answers; an answer outside
the text panics in the code and is cut off here.
-/

set_option autoImplicit false

namespace Clyde.CodexStore

open Foundation ByteCodec Text Json ReorientTag

/-! ### Envelopes and payloads -/

structure HistoryLine where
  timestamp : Bytes
  type : Bytes
  payload : Bytes

def HistoryLine.store : Store HistoryLine :=
  .record [
    (bytesOf "timestamp", .field timestamp
      (fun text line ↦ { line with timestamp := text }) .string),
    (bytesOf "type", .field type (fun text line ↦ { line with type := text }) .string),
    (bytesOf "payload", .field payload (fun text line ↦ { line with payload := text }) .raw)]

structure ContentPart where
  type : Bytes
  text : Bytes

def ContentPart.store : Store ContentPart :=
  .record [
    (bytesOf "type", .field type (fun text part ↦ { part with type := text }) .string),
    (bytesOf "text", .field text (fun text part ↦ { part with text := text }) .string)]

structure ResponsePayload where
  type : Bytes
  role : Bytes
  content : List ContentPart
  phase : Bytes
  name : Bytes
  arguments : Bytes
  input : Bytes
  callID : Bytes
  output : Bytes

def ResponsePayload.store : Store ResponsePayload :=
  .record [
    (bytesOf "type", .field type (fun text payload ↦ { payload with type := text }) .string),
    (bytesOf "role", .field role (fun text payload ↦ { payload with role := text }) .string),
    (bytesOf "content", .field content (fun parts payload ↦ { payload with content := parts })
      (.list ⟨[], []⟩ ContentPart.store)),
    (bytesOf "phase", .field phase (fun text payload ↦ { payload with phase := text }) .string),
    (bytesOf "name", .field name (fun text payload ↦ { payload with name := text }) .string),
    (bytesOf "arguments", .field arguments
      (fun text payload ↦ { payload with arguments := text }) .string),
    (bytesOf "input", .field input (fun text payload ↦ { payload with input := text }) .string),
    (bytesOf "call_id", .field callID (fun text payload ↦ { payload with callID := text }) .string),
    (bytesOf "output", .field output (fun text payload ↦ { payload with output := text }) .raw)]

def responsePayload (raw : Bytes) : Option ResponsePayload :=
  ResponsePayload.store.unmarshal ⟨[], [], [], [], [], [], [], [], []⟩ raw

structure EventPayload where
  type : Bytes
  message : Bytes
  text : Bytes
  phase : Bytes

def EventPayload.store : Store EventPayload :=
  .record [
    (bytesOf "type", .field type (fun text payload ↦ { payload with type := text }) .string),
    (bytesOf "message", .field message
      (fun text payload ↦ { payload with message := text }) .string),
    (bytesOf "text", .field text (fun text payload ↦ { payload with text := text }) .string),
    (bytesOf "phase", .field phase (fun text payload ↦ { payload with phase := text }) .string)]

def eventPayload (raw : Bytes) : Option EventPayload :=
  EventPayload.store.unmarshal ⟨[], [], [], []⟩ raw

structure CompactedPayload where
  message : Bytes
  replacementHistory : Option (List Bytes)

def CompactedPayload.store : Store CompactedPayload :=
  .record [
    (bytesOf "message", .field message
      (fun text payload ↦ { payload with message := text }) .string),
    (bytesOf "replacement_history", .field replacementHistory
      (fun items payload ↦ { payload with replacementHistory := items })
        (.optional [] (.list [] .raw)))]

def contentItemKinds : Store (List (Option Bytes)) :=
  .record [(bytesOf "internal_chat_message_metadata_passthrough",
    .record [(bytesOf "content_item_kinds", .list none (.optional [] .string))])]

def injectedTranscriptContentKind : Bytes := bytesOf "clyde.pre_compaction_transcript.v2"

def injectedTranscriptIndexes (rawItem : Bytes) : List ℕ :=
  match contentItemKinds.unmarshal [] rawItem with
  | none => []
  | some kinds =>
    (kinds.zipIdx.filter fun kind ↦ kind.1 = some injectedTranscriptContentKind).map Prod.snd

/-! ### Messages -/

structure MessageTextPart where
  text : Bytes
  injectedTranscript : Bool
  transcriptSpans : List TranscriptSpan

structure ToolCall where
  id : Bytes
  name : Bytes
  raw : Bytes

structure HistoryMessage (Time : Type) where
  role : Bytes
  text : Bytes
  thinking : Bytes
  tools : List ToolCall
  toolOutputCallID : Bytes
  toolOutput : Bytes
  timestamp : Time
  phase : Bytes
  textParts : List MessageTextPart

structure UnmarkedTranscript where
  partIndex : ℤ
  start : ℤ
  spans : List TranscriptSpan

/-- A question to the resolver. The marked index is `none` for an item without a marked part. -/
structure TranscriptRequest (Time : Type) where
  rawItem : Bytes
  timestamp : Time
  priorItems : List Bytes
  markedIndex : Option ℕ

abbrev UnmarkedTranscriptResolver (Time : Type) : Type :=
  TranscriptRequest Time → Option UnmarkedTranscript

structure HistoryOptions (Time : Type) where
  includeSystemPrompts : Bool
  includeInjected : Bool
  resolveUnmarked : UnmarkedTranscriptResolver Time

/-- How the time of a line and the base instructions in the session metadata are read. -/
class Decoders (Time : Type) where
  parseCodexTime : Bytes → Time
  baseInstructions : Bytes → Option Bytes

def textHistoryMessage {Time : Type} (role text : Bytes) (timestamp : Time) (phase : Bytes) :
    HistoryMessage Time where
  role := role
  text := text
  thinking := []
  tools := []
  toolOutputCallID := []
  toolOutput := []
  timestamp := timestamp
  phase := phase
  textParts := []

def roleAssistant : Bytes := bytesOf "assistant"

def roleDeveloper : Bytes := bytesOf "developer"

def outputTextType : Bytes := bytesOf "output_text"

/-- The texts of the input and output parts, each on lines of its own. -/
def contentText (parts : List ContentPart) : Bytes :=
  List.intercalate (bytesOf "\n") ((parts.filter fun part ↦
    (part.type = bytesOf "input_text" ∨ part.type = outputTextType) ∧
      part.text ≠ []).map ContentPart.text)

def concatenatedOutputText (parts : List ContentPart) : Bytes :=
  (parts.filter fun part ↦ part.type = outputTextType).flatMap ContentPart.text

inductive CodexUserTextClass
  | conversation
  | systemPrompt
  | systemMessage
  | injected

def codexSystemMessageHeads : List Bytes :=
  ["<environment_context>", "<turn_aborted>", ">>> APPROVAL REQUEST START",
    ">>> APPROVAL REQUEST END",
    ">>> TRANSCRIPT DELTA START", ">>> TRANSCRIPT DELTA END",
    "The Codex agent has requested the following",
    "Assess the exact planned action below.", "Planned action JSON:",
    "The following is the Codex agent history"].map bytesOf

def codexInjectedHeads : List Bytes :=
  ["<codex_internal_context", "<heartbeat>", "<automation_id>", "<objective>"].map bytesOf

def classifyCodexUserText (text : Bytes) : CodexUserTextClass :=
  if (bytesOf "# AGENTS.md instructions for ").isPrefixOf text ∧
      (indexOf (bytesOf "<INSTRUCTIONS>") text).isSome then .systemPrompt
  else if codexSystemMessageHeads.any (·.isPrefixOf text) then .systemMessage
  else if codexInjectedHeads.any (·.isPrefixOf text) then .injected
  else .conversation

variable {Time : Type} (opts : HistoryOptions Time)

def userTextMessage (text : Bytes) (timestamp : Time) (phase : Bytes) :
    Option (HistoryMessage Time) :=
  match classifyCodexUserText text with
  | .systemPrompt =>
    if opts.includeSystemPrompts then
      some (textHistoryMessage roleDeveloper text timestamp phase) else none
  | .systemMessage => none
  | .injected =>
    if opts.includeInjected then
      some (textHistoryMessage (bytesOf "user") text timestamp phase) else none
  | .conversation => some (textHistoryMessage (bytesOf "user") text timestamp phase)

def toolCallHistoryMessage (callID name raw : Bytes) (timestamp : Time) :
    Option (HistoryMessage Time) :=
  if trimSpace name = [] ∧ trimSpace callID = [] then none
  else some { textHistoryMessage roleAssistant [] timestamp [] with tools := [⟨callID, name, raw⟩] }

def outputText (raw : Bytes) : Bytes := (Store.string.unmarshal [] raw).getD raw

def toolOutputHistoryMessage (callID output : Bytes) (timestamp : Time) :
    Option (HistoryMessage Time) :=
  if trimSpace callID = [] then none
  else some { textHistoryMessage roleAssistant [] timestamp [] with
    toolOutputCallID := callID, toolOutput := outputText output }

/-! ### Transcript parts -/

variable (resolve : UnmarkedTranscriptResolver Time)

/-- The spans of a marked part: framed in its text, or from the resolver. -/
def markedPartSpans (raw text : Bytes) (index : ℕ) (timestamp : Time) (window : List Bytes) :
    List TranscriptSpan :=
  if completeTranscriptSpans text ≠ [] then completeTranscriptSpans text
  else
    match resolve ⟨raw, timestamp, window, some index⟩ with
    | none => []
    | some resolved => if resolved.partIndex ≠ index then [] else resolved.spans

/-- An output part, with spans if it is marked. -/
def markedTextPart (raw : Bytes) (indexes : List ℕ) (timestamp : Time) (window : List Bytes)
    (part : ContentPart × ℕ) : Option MessageTextPart :=
  if part.1.type ≠ outputTextType then none
  else if part.2 ∈ indexes then
    some ⟨part.1.text, true, markedPartSpans resolve raw part.1.text part.2 timestamp window⟩
  else some ⟨part.1.text, false, []⟩

def markedTextParts (raw : Bytes) (content : List ContentPart) (indexes : List ℕ) (timestamp : Time)
    (window : List Bytes) : List MessageTextPart :=
  if content.zipIdx.any fun part ↦ part.1.type = outputTextType ∧ part.2 ∈ indexes then
    content.zipIdx.filterMap (markedTextPart resolve raw indexes timestamp window)
  else []

def shiftedSpans (spans : List TranscriptSpan) (offset : ℕ) : List TranscriptSpan :=
  spans.map fun span ↦ { span with start := span.start - offset, stop := span.stop - offset }

/-- The output parts, with the resolved part cut where the transcript starts. -/
def recoveredTextParts (content : List ContentPart) (resolved : UnmarkedTranscript) :
    List MessageTextPart :=
  content.zipIdx.flatMap fun (part, index) ↦
    if part.type ≠ outputTextType then []
    else if (index : ℤ) ≠ resolved.partIndex then [⟨part.text, false, []⟩]
    else (if resolved.start > 0 then [⟨part.text.take resolved.start.toNat, false, []⟩] else []) ++
      [⟨part.text.drop resolved.start.toNat, true,
        shiftedSpans resolved.spans resolved.start.toNat⟩]

def transcriptTextParts (raw : Bytes) (payload : ResponsePayload) (timestamp : Time)
    (window : List Bytes) : List MessageTextPart :=
  if payload.role ≠ roleAssistant then []
  else if injectedTranscriptIndexes raw ≠ [] then
    markedTextParts resolve raw payload.content (injectedTranscriptIndexes raw) timestamp window
  else if (indexOf preCompactionTranscriptOpen (concatenatedOutputText payload.content)).isNone then
    []
  else
    match resolve ⟨raw, timestamp, [], none⟩ with
    | none => []
    | some resolved =>
      if resolved.partIndex < 0 ∨ payload.content.length ≤ resolved.partIndex then []
      else recoveredTextParts payload.content resolved

/-! ### The message of an envelope -/

variable [Decoders Time]

def responseItemMessage (raw : Bytes) (timestamp : Time) (window : List Bytes) :
    Option (HistoryMessage Time) :=
  match responsePayload raw with
  | none => none
  | some payload =>
    if payload.type = bytesOf "message" then
      let text := trimSpace (contentText payload.content)
      if text = [] then none
      else if payload.role = roleDeveloper ∨ payload.role = bytesOf "system" then
        if opts.includeSystemPrompts then
          some (textHistoryMessage roleDeveloper text timestamp payload.phase)
        else none
      else if payload.role = bytesOf "user" then userTextMessage opts text timestamp payload.phase
      else some { textHistoryMessage payload.role text timestamp payload.phase with
        textParts := transcriptTextParts opts.resolveUnmarked raw payload timestamp window }
    else if payload.type = bytesOf "function_call" then
      toolCallHistoryMessage payload.callID payload.name payload.arguments timestamp
    else if payload.type = bytesOf "custom_tool_call" then
      toolCallHistoryMessage payload.callID payload.name payload.input timestamp
    else if payload.type = bytesOf "function_call_output" ∨
        payload.type = bytesOf "custom_tool_call_output" then
      toolOutputHistoryMessage payload.callID payload.output timestamp
    else none

def eventMessage (raw : Bytes) (timestamp : Time) : Option (HistoryMessage Time) :=
  match eventPayload raw with
  | none => none
  | some payload =>
    if payload.type = bytesOf "user_message" then
      let text := trimSpace payload.message
      if text = [] then none else userTextMessage opts text timestamp payload.phase
    else if payload.type = bytesOf "agent_message" then
      let text := trimSpace payload.message
      if text = [] then none else some
        (textHistoryMessage roleAssistant text timestamp payload.phase)
    else if payload.type = bytesOf "agent_reasoning" then
      let thinking := trimSpace payload.text
      if thinking = [] then none
      else some { textHistoryMessage roleAssistant [] timestamp [] with thinking := thinking }
    else none

def sessionPromptMessage (raw : Bytes) (timestamp : Time) : Option (HistoryMessage Time) :=
  match Decoders.baseInstructions Time raw with
  | none => none
  | some instructions =>
    let text := trimSpace instructions
    if text = [] then none else some (textHistoryMessage roleDeveloper text timestamp [])

inductive EnvelopeType
  | sessionMeta
  | responseItem
  | eventMsg
  | compacted
  | turnContext
  | unknown
  deriving DecidableEq

section

variable (envelope : HistoryLine)

def HistoryLine.envelopeType : EnvelopeType :=
  if envelope.type = bytesOf "session_meta" then .sessionMeta
  else if envelope.type = bytesOf "response_item" then .responseItem
  else if envelope.type = bytesOf "event_msg" then .eventMsg
  else if envelope.type = bytesOf "compacted" then .compacted
  else if envelope.type = bytesOf "turn_context" then .turnContext
  else .unknown

def streamMessageFromEnvelope (window : List Bytes) : Option (HistoryMessage Time) :=
  let lineTime := Decoders.parseCodexTime envelope.timestamp
  match envelope.envelopeType with
  | .responseItem => responseItemMessage opts envelope.payload lineTime window
  | .eventMsg => eventMessage opts envelope.payload lineTime
  | .sessionMeta =>
    if opts.includeSystemPrompts then sessionPromptMessage envelope.payload lineTime else none
  | .compacted | .turnContext | .unknown => none

def envelopeIsAgentMessage : Bool :=
  envelope.envelopeType = .eventMsg ∧
    (eventPayload envelope.payload).any fun payload ↦ payload.type = bytesOf "agent_message"

end

/-! ### The stream -/

/-- The items of the current compaction window, and those that the last compaction replaced. -/
structure RolloutHistory where
  window : List Bytes
  lastWindow : List Bytes

def RolloutHistory.record (history : RolloutHistory) (envelope : HistoryLine) : RolloutHistory :=
  match envelope.envelopeType with
  | .responseItem => { history with window := history.window ++ [envelope.payload] }
  | .compacted =>
    { lastWindow := history.window
      window := ((CompactedPayload.store.unmarshal ⟨[], none⟩ envelope.payload).bind
        CompactedPayload.replacementHistory).getD [] }
  | .sessionMeta | .eventMsg | .turnContext | .unknown => history

structure StreamState (Time : Type) where
  history : RolloutHistory
  held : Option (HistoryMessage Time)
  yielded : List (HistoryMessage Time)

def StreamState.initial : StreamState Time := ⟨⟨[], []⟩, none, []⟩

/-- The held message, with the transcript parts of a response item that has the same text. -/
def applyMarkedResponseItem (envelope : HistoryLine) (window : List Bytes)
    (message : HistoryMessage Time) :
    HistoryMessage Time :=
  if envelope.envelopeType ≠ .responseItem then message
  else
    match responsePayload envelope.payload with
    | none => message
    | some payload =>
      let parts := transcriptTextParts opts.resolveUnmarked envelope.payload payload
        (Decoders.parseCodexTime envelope.timestamp) window
      if payload.type ≠ bytesOf "message" ∨ parts = [] then message
      else if trimSpace message.text = trimSpace (concatenatedOutputText payload.content) then
        { message with textParts := parts }
      else message

section

variable (state : StreamState Time)

def streamEnvelope (envelope : HistoryLine) : StreamState Time :=
  let window := state.history.lastWindow
  let held := state.held.map (applyMarkedResponseItem opts envelope window)
  let history := state.history.record envelope
  match streamMessageFromEnvelope opts envelope window with
  | none => ⟨history, held, state.yielded⟩
  | some message =>
    if envelopeIsAgentMessage envelope then ⟨history, some message, state.yielded ++ held.toList⟩
    else ⟨history, none, state.yielded ++ held.toList ++ [message]⟩

def lineText (raw : Bytes) : Bytes := raw.rdropWhile fun byte ↦ byte = 0x0D || byte = 0x0A

def decodeLine (raw : Bytes) : Option HistoryLine :=
  if lineText raw = [] then none else HistoryLine.store.unmarshal ⟨[], [], []⟩ (lineText raw)

def emitStreamLine (raw : Bytes) : StreamState Time :=
  match decodeLine raw with
  | none => state
  | some envelope => streamEnvelope opts state envelope

def StreamState.finish : List (HistoryMessage Time) := state.yielded ++ state.held.toList

end

/-- `ReadBytes`: a line with its end, and what follows it. At the end of the file nothing follows.
-/
def readLine (rest : Bytes) : Bytes × Option Bytes :=
  match rest.span fun byte ↦ byte ≠ 0x0A with
  | (line, []) => (line, none)
  | (line, newline :: after) => (line ++ [newline], some after)

def drainLine (rest : Bytes) : Bytes := (readLine rest).2.getD []

/-- What follows the first `"type"`. -/
def afterTypeKey : Bytes → Option Bytes
  | [] => none
  | byte :: rest =>
    if (bytesOf "\"type\"").isPrefixOf (byte :: rest) then some (rest.drop 5) else afterTypeKey rest

/-- The text between the next two quotes, if only blanks and colons stand before it. -/
def quotedValue (rest : Bytes) : Option Bytes :=
  match rest.dropWhile fun byte ↦ byte = 0x20 || byte = 0x09 || byte = 0x3A with
  | [] => none
  | byte :: value =>
    if byte = 0x22 ∧ 0x22 ∈ value then some (value.takeWhile fun byte ↦ byte ≠ 0x22) else none

def peekedEnvelopeType (peeked : Bytes) : Option Bytes := (afterTypeKey peeked).bind quotedValue

def streamPeekPrefixBytes : ℕ := 4 * 1024

/-- The peeked part is full, has no line end in it, and belongs to a compacted envelope. -/
def isLargeCompacted (peeked : Bytes) : Bool :=
  streamPeekPrefixBytes ≤ peeked.length ∧ 0x0A ∉ peeked ∧
    peekedEnvelopeType peeked = some (bytesOf "compacted")

/-- What follows a compacted line that does not fit in the part that is peeked. -/
def skipLargeCompactedLine (rest : Bytes) : Option Bytes :=
  if isLargeCompacted (rest.take streamPeekPrefixBytes) then some (drainLine rest) else none

/-- Reading a line shortens what is left. -/
theorem length_after_readLine_lt {rest raw after : Bytes}
    (hread : readLine rest = (raw, some after)) :
    after.length < rest.length := by
  unfold readLine at hread
  cases hspan : rest.span fun byte ↦ byte ≠ 0x0A with
  | mk _ left =>
    rw [List.span_eq_takeWhile_dropWhile, Prod.mk.injEq] at hspan
    have hleft : left.length ≤ rest.length := hspan.2 ▸ (List.dropWhile_suffix _).length_le
    rw [List.span_eq_takeWhile_dropWhile, hspan.2] at hread
    cases left with
    | nil => simp at hread
    | cons =>
      obtain ⟨-, hafter⟩ := Prod.mk.inj hread
      rwa [← Option.some.inj hafter]

/-- Skipping a line shortens what is left, so the stream's loop terminates. -/
theorem length_skip_lt {rest after : Bytes} (hskip : skipLargeCompactedLine rest = some after) :
    after.length < rest.length := by
  unfold skipLargeCompactedLine at hskip
  split_ifs at hskip with hlarge
  have hfull : streamPeekPrefixBytes ≤ (rest.take streamPeekPrefixBytes).length :=
    (of_decide_eq_true hlarge).1
  rw [← Option.some.inj hskip, drainLine]
  cases hread : readLine rest with
  | mk _ left =>
    cases left with
    | none =>
      rw [List.length_take, streamPeekPrefixBytes] at hfull
      change 0 < rest.length
      omega
    | some => exact length_after_readLine_lt hread

def streamRolloutLines (state : StreamState Time) (rest : Bytes) : List (HistoryMessage Time) :=
  match _hskip : skipLargeCompactedLine rest with
  | some after => streamRolloutLines state after
  | none =>
    match _hread : readLine rest with
    | (raw, none) => (emitStreamLine opts state raw).finish
    | (raw, some after) => streamRolloutLines (emitStreamLine opts state raw) after
termination_by rest.length
decreasing_by
  · exact length_skip_lt _hskip
  · exact length_after_readLine_lt _hread

def streamMessages (file : Bytes) : List (HistoryMessage Time) :=
  streamRolloutLines opts .initial file

/-! ### Every line decoded -/

def rawLines (file : Bytes) : List Bytes :=
  LineFile.wholeLines 0x0A file ++ [LineFile.unfinished 0x0A file]

def emitLines (state : StreamState Time) (lines : List Bytes) : StreamState Time :=
  lines.foldl (emitStreamLine opts) state

def decodedMessages (file : Bytes) : List (HistoryMessage Time) :=
  (emitLines opts .initial (rawLines file)).finish

end Clyde.CodexStore
