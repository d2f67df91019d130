import Clyde.Codex.RawJson
import Clyde.Codex.SseFrame

/-!
# The events of a response stream

How the stream is rewritten to carry the transcript. `appendRawCompactionSSEFrame` decides whether a
frame holds an assistant item that can be extended, and `appendRawCompactionSSEStreamEvents` writes
the frames of the extended item: four new events, and the held frames with their sequence numbers
moved.

Scope. A sequence number is an `int` of 64 bits. The encoder is used without HTML escaping, as in
the source.
-/

set_option autoImplicit false

namespace Clyde.Codex

open Foundation ByteCodec Text Json BufferedReader

/-! ### The fields of a frame -/

def rawSSENormalizeLineEndings : Bytes → Bytes
  | [] => []
  | byte :: rest =>
    if byte = 0x0D then
      match rest with
      | [] => [0x0A]
      | next :: tail =>
        if next = 0x0A then 0x0A :: rawSSENormalizeLineEndings tail
        else 0x0A :: rawSSENormalizeLineEndings (next :: tail)
    else byte :: rawSSENormalizeLineEndings rest

def rawSSEFrameLines (frame : Bytes) : List Bytes := (rawSSENormalizeLineEndings frame).splitOn 0x0A

/-- The kind of an event, named by the last line that names one. -/
def rawSSEFrameEvent (frame : Bytes) : Bytes :=
  (rawSSEFrameLines frame).foldl (fun name line ↦
    if bytesOf "event:" <+: line then trimSpace (line.drop 6) else name) []

def rawSSEField (line : Bytes) : Bytes × Bytes :=
  if line.head?.all fun byte ↦ byte = 0x3A then ([], [])
  else
    match line.dropWhile fun byte ↦ byte ≠ 0x3A with
    | [] => (line, [])
    | _ :: value =>
      (line.takeWhile fun byte ↦ byte ≠ 0x3A, if value.head? = some 0x20 then value.tail else value)

structure FrameData where
  event : Bytes
  data : Bytes
  count : ℕ

def rawSSEFrameDataValue (frame : Bytes) : FrameData :=
  let fields := (rawSSEFrameLines frame).map rawSSEField
  let values := (fields.filter fun field ↦ field.1 = bytesOf "data").map Prod.snd
  ⟨fields.foldl (fun name field ↦ if field.1 = bytesOf "event" then field.2 else name) [],
    List.intercalate [0x0A] values, values.length⟩

def rawSSEFrameIsCommentOnly (frame : Bytes) : Bool :=
  let lines := ((rawSSEFrameLines frame).map trimSpace).filter (· ≠ [])
  lines ≠ [] ∧ lines.all fun line ↦ line.head? = some 0x3A

/-- The lines of a frame with their endings; `content` is the beginning of the current one. -/
def rawSSEFrameLineRanges (content : Bytes) : Bytes → List (Bytes × Bytes)
  | [] => if content = [] then [] else [(content, [])]
  | byte :: rest =>
    if byte = 0x0A then (content, [0x0A]) :: rawSSEFrameLineRanges [] rest
    else if byte = 0x0D then
      match rest with
      | [] => [(content, [0x0D])]
      | next :: tail =>
        if next = 0x0A then (content, [0x0D, 0x0A]) :: rawSSEFrameLineRanges [] tail
        else (content, [0x0D]) :: rawSSEFrameLineRanges [] (next :: tail)
    else rawSSEFrameLineRanges (content ++ [byte]) rest

/-- Writes data in the place of the first data line and drops the other ones. -/
def replaceDataLines (data : Bytes) : (replaced : Bool) → List (Bytes × Bytes) → Bytes
  | _, [] => []
  | replaced, (content, ending) :: lines =>
    if (rawSSEField content).1 ≠ bytesOf "data" then
      content ++ ending ++ replaceDataLines data replaced lines
    else if replaced then replaceDataLines data true lines
    else bytesOf "data: " ++ data ++ ending ++ replaceDataLines data true lines

def replaceRawSSEFrameData (frame data : Bytes) : Bytes :=
  replaceDataLines ((compactText data).getD data) false (rawSSEFrameLineRanges [] frame)

/-! ### The fields of the data -/

def rawCompactionSSEField {σ : Type} (store : Store σ) (zero : σ) (data : Bytes) (field : String) :
    Option σ :=
  (jsonObjectFieldValueRange data field).bind fun range ↦
    if trimSpace (range.text data) = bytesOf "null" then none
    else store.unmarshal zero (range.text data)

def rawCompactionSSEIntegerField (data : Bytes) (field : String) : Option ℤ :=
  rawCompactionSSEField .int 0 data field

def rawCompactionSSEStringField (data : Bytes) (field : String) : Option Bytes :=
  rawCompactionSSEField .string [] data field

def replaceRawCompactionSSEIntegerField (data : Bytes) (field : String) (value : ℤ) :
    Option Bytes :=
  (jsonObjectFieldValueRange data field).map fun range ↦ replaceByteRange data range (itoaInt value)

/-! ### Objects and arrays that get one more member -/

def closingAt (bracket : UInt8) (text : Bytes) : Option ℕ :=
  match text.reverse.dropWhile isSpace with
  | [] => none
  | last :: before => if last = bracket then some before.length else none

def rawCompactionMemberSeparator (members : Bytes) : Bytes :=
  if trimSpace members = [] then [] else [0x2C]

def appendMember (bracket : UInt8) (text member : Bytes) : Option Bytes :=
  (closingAt bracket text).map fun closing ↦
    text.take closing ++ rawCompactionMemberSeparator ((text.take closing).drop 1) ++ member ++
      text.drop closing

def appendRawCompactionObjectField (object : Bytes) (field : String) (value : Bytes) :
    Option Bytes :=
  appendMember 0x7D object (Quoted.quote (bytesOf field) ++ 0x3A :: value)

def appendRawCompactionContentArrayPart (item : Bytes) (content : Interval) (part : Bytes) :
    Option Bytes :=
  (appendMember 0x5D (content.text item) part).map (replaceByteRange item content)

/-! ### The kinds of the content parts -/

def injectedTranscriptContentKind : Bytes :=
  bytesOf "clyde.pre_compaction_transcript.v2"

def contentItemKinds : Store (List (Option Bytes)) :=
  .record [(bytesOf "internal_chat_message_metadata_passthrough",
    .record [(bytesOf "content_item_kinds", .list none (.optional [] .string))])]

def injectedTranscriptIndexes (item : Bytes) : List ℕ :=
  match contentItemKinds.unmarshal [] item with
  | none => []
  | some kinds =>
    (kinds.zipIdx.filter fun entry ↦ entry.1 = some injectedTranscriptContentKind).map Prod.snd

structure ContentPart where
  type : Bytes
  text : Bytes
  deriving DecidableEq

def ContentPart.zero : ContentPart := ⟨[], []⟩

def ContentPart.store : Store ContentPart :=
  .record [
    (bytesOf "type", .field ContentPart.type (fun text part ↦ { part with type := text }) .string),
    (bytesOf "text", .field ContentPart.text (fun text part ↦ { part with text := text }) .string)]

def rawCompactionAssistantHasTranscript (item content transcript : Bytes) : Bool :=
  match (Store.list .zero ContentPart.store).unmarshal [] content with
  | none => false
  | some parts =>
    (injectedTranscriptIndexes item).any fun index ↦ parts[index]?.any fun part ↦
      part.text = transcript

mutual

/-- No object in a value has two members of one key. -/
def uniqueKeys : Value → Bool
  | .array elements => uniqueElementKeys elements
  | .object members => uniqueMemberKeys [] members
  | _ => true

def uniqueElementKeys : Elements → Bool
  | .last _ value _ => uniqueKeys value
  | .more _ value _ rest => uniqueKeys value && uniqueElementKeys rest

def uniqueMemberKeys (seen : List Bytes) : Members → Bool
  | .last _ key _ _ value _ => !seen.contains key.decode && uniqueKeys value
  | .more _ key _ _ value _ rest =>
    !seen.contains key.decode && uniqueKeys value && uniqueMemberKeys (key.decode :: seen) rest

end

def rawCompactionJSONHasUniqueObjectKeys (raw : Bytes) : Bool := (parse raw).any uniqueKeys

def rawCompactionContentKinds (existing : List Bytes) (partIndex : ℕ) : Option Bytes :=
  if partIndex < existing.length then none
  else
    marshalRawArray (existing ++
      List.replicate (partIndex - existing.length) (Quoted.quote (bytesOf "unknown")) ++
      [Quoted.quote injectedTranscriptContentKind])

def rawCompactionMetadataWithKinds (metadata : Bytes) (partIndex : ℕ) : Option Bytes :=
  if metadata.head? ≠ some 0x7B then none
  else
    match jsonObjectFieldValueRange metadata "content_item_kinds" with
    | none =>
      (rawCompactionContentKinds [] partIndex).bind
        (appendRawCompactionObjectField metadata "content_item_kinds")
    | some range =>
      ((Store.list [] .raw).unmarshal [] (range.text metadata)).bind fun existing ↦
        (rawCompactionContentKinds existing partIndex).map (replaceByteRange metadata range)

def markRawCompactionTranscriptPart (item : Bytes) (partIndex : ℕ) : Option Bytes :=
  if rawCompactionJSONHasUniqueObjectKeys item then
    match jsonObjectFieldValueRange item "internal_chat_message_metadata_passthrough" with
    | none =>
      (rawCompactionMetadataWithKinds (bytesOf "\x7b\x7d") partIndex).bind
        (appendRawCompactionObjectField item "internal_chat_message_metadata_passthrough")
    | some range =>
      let existing :=
        if range.text item = bytesOf "null" then bytesOf "\x7b\x7d" else range.text item
      (rawCompactionMetadataWithKinds existing partIndex).map (replaceByteRange item range)
  else none

/-! ### Extending an item -/

/-- The item with the transcript as one more content part, if it can be extended. -/
def appendRawCompactionAssistantContentPart (item : Bytes) (content : Option Interval)
    (transcript : Bytes) : Option Bytes :=
  let part := bytesOf "\x7b\"type\":\"output_text\",\"annotations\":[],\"logprobs\":[],\"text\":" ++
    marshalRawCompactionString transcript ++ [0x7D]
  match content with
  | some range =>
    (jsonArrayValueRanges (range.text item)).bind fun ranges ↦
      (appendRawCompactionContentArrayPart item range part).bind fun appended ↦
        markRawCompactionTranscriptPart appended ranges.length
  | none =>
    (appendRawCompactionObjectField item "content" (0x5B :: (part ++ [0x5D]))).bind fun appended ↦
      markRawCompactionTranscriptPart appended 0

structure ItemKind where
  type : Bytes
  role : Bytes

def ItemKind.zero : ItemKind := ⟨[], []⟩

def ItemKind.store : Store ItemKind :=
  .record [
    (bytesOf "type", .field ItemKind.type (fun text kind ↦ { kind with type := text }) .string),
    (bytesOf "role", .field ItemKind.role (fun text kind ↦ { kind with role := text }) .string)]

def typeStore : Store Bytes :=
  .record [(bytesOf "type", .string)]

/-- A content part of which the item can be extended: text, if it says so. -/
def contentPartIsValid (part : Bytes) : Bool :=
  match typeStore.unmarshal [] part with
  | none => false
  | some type =>
    type ≠ bytesOf "output_text" ∨ (rawCompactionSSEStringField part "text").isSome

/-- Whether an item is an assistant message, and what it is with the transcript. Nothing if it
cannot be read or extended. -/
def appendRawCompactionAssistantItem (item transcript : Bytes) : Option (Bytes × Bool) :=
  match ItemKind.store.unmarshal .zero item with
  | none => none
  | some kind =>
    if kind.type ≠ bytesOf "message" ∨ kind.role ≠ bytesOf "assistant" then some (item, false)
    else
      match jsonObjectFieldValueRange item "content" with
      | none => (appendRawCompactionAssistantContentPart item none transcript).map (·, true)
      | some content =>
        match jsonArrayValueRanges (content.text item) with
        | none => none
        | some ranges =>
          if ranges.all fun range ↦ contentPartIsValid (range.text (content.text item)) then
            if rawCompactionAssistantHasTranscript item (content.text item) transcript then
              some (item, true)
            else (appendRawCompactionAssistantContentPart item (some content) transcript).map
              (·, true)
          else none

def appendRawCompactionSSEFrame (frame transcript : Bytes) : Option (Bytes × Bool) :=
  let ⟨event, data, count⟩ := rawSSEFrameDataValue frame
  if event ≠ bytesOf "response.output_item.done" then some (frame, false)
  else if count = 0 then none
  else
    match jsonObjectFieldValueRange data "item" with
    | none => none
    | some range =>
      match appendRawCompactionAssistantItem (range.text data) transcript with
      | none => none
      | some (_, false) => some (frame, false)
      | some (mutated, true) =>
        if mutated = range.text data then some (frame, true)
        else some (replaceRawSSEFrameData frame (replaceByteRange data range mutated), true)

/-! ### Rewriting the stream -/

/-- Why a reader fails. -/
inductive ReadError where
  | eof
  | failed (message : Bytes)
  | passthrough (cause : ReadError)
  deriving DecidableEq

def ReadError.root : ReadError → ReadError
  | .passthrough cause => cause.root
  | error => error

structure ItemIdentity where
  id : Bytes
  outputIndex : ℤ
  contentIndex : ℕ
  sequence : ℤ

def rawCompactionSSEContentCount (item : Bytes) : Option ℕ :=
  match jsonObjectFieldValueRange item "content" with
  | none => some 0
  | some range => (jsonArrayValueRanges (range.text item)).map List.length

def rawCompactionSSECandidateItem (frame : Bytes) : Option (Bytes × Bytes × ItemIdentity) :=
  let data := (rawSSEFrameDataValue frame).data
  (jsonObjectFieldValueRange data "item").bind fun range ↦
    (rawCompactionSSEIntegerField data "output_index").bind fun outputIndex ↦
      (rawCompactionSSEIntegerField data "sequence_number").bind fun sequence ↦
        if outputIndex < 0 ∨ sequence < 0 then none
        else
          let item := range.text data
          (rawCompactionSSEStringField item "id").bind fun id ↦
            (rawCompactionSSEContentCount item).bind fun contentIndex ↦
              if id = [] then none else some (data, item, ⟨id, outputIndex, contentIndex, sequence⟩)

/-- The data of the completed frame and where the same item stands in it. -/
def rawCompactionSSECompletedItem (frame : Bytes) (identity : ItemIdentity) :
    Option (Bytes × Bytes × Interval) :=
  let data := (rawSSEFrameDataValue frame).data
  (jsonObjectFieldValueRange data "response").bind fun responseRange ↦
    let response := responseRange.text data
    (jsonObjectFieldValueRange response "output").bind fun outputRange ↦
      (jsonArrayValueRanges (outputRange.text response)).bind fun ranges ↦
        ranges[identity.outputIndex.toNat]?.bind fun itemRange ↦
          let range := itemRange.shift (responseRange.start + outputRange.start)
          let item := range.text data
          if rawCompactionSSEStringField item "id" = some identity.id then some (data, item, range)
          else none

def rawCompactionSSEItemsHaveCoherentContent (first second : Bytes) : Bool :=
  match jsonObjectFieldValueRange first "content", jsonObjectFieldValueRange second "content" with
  | none, none => true
  | some firstRange, some secondRange =>
    match (Store.list .zero ContentPart.store).unmarshal [] (firstRange.text first),
        (Store.list .zero ContentPart.store).unmarshal [] (secondRange.text second) with
    | some firstParts, some secondParts => firstParts = secondParts
    | _, _ => false
  | _, _ => false

/-- A content part of which the held item can be extended. -/
def sseContentPartIsValid (part : Bytes) : Bool :=
  match rawCompactionSSEStringField part "type" with
  | none => false
  | some type =>
    type ≠ bytesOf "output_text" ∨ (rawCompactionSSEStringField part "text").isSome

/-- The item with the transcript, and whether it has been appended now. -/
def appendRawCompactionSSEContentPart (item transcript : Bytes) : Option (Bytes × Bool) :=
  match ItemKind.store.unmarshal .zero item with
  | none => none
  | some kind =>
    if kind.type ≠ bytesOf "message" ∨ kind.role ≠ bytesOf "assistant" then none
    else
      match jsonObjectFieldValueRange item "content" with
      | none => (appendRawCompactionAssistantContentPart item none transcript).map (·, true)
      | some content =>
        match jsonArrayValueRanges (content.text item) with
        | none => none
        | some ranges =>
          if ranges.all fun range ↦ sseContentPartIsValid (range.text (content.text item)) then
            if rawCompactionAssistantHasTranscript item (content.text item) transcript then
              some (item, false)
            else (appendRawCompactionAssistantContentPart item (some content) transcript).map
              (·, true)
          else none

def addRawCompactionSSESyntheticEventCount (sequence : ℤ) : Option ℤ :=
  if 2 ^ 63 - 1 - 4 < sequence then none else some (sequence + 4)

def maxRawCompactionSSEPendingBytes : ℕ := 8 * 1024 * 1024

def memberText (name : String) (value : Bytes) : Bytes :=
  Quoted.quote (bytesOf name) ++ 0x3A :: value

def objectText (members : List Bytes) : Bytes := 0x7B :: (List.intercalate [0x2C] members ++ [0x7D])

def syntheticPart (text : Bytes) : Bytes :=
  objectText [memberText "type" (Quoted.quote (bytesOf "output_text")),
    memberText "text" (marshalRawCompactionString text), memberText "annotations" (bytesOf "[]"),
    memberText "logprobs" (bytesOf "[]")]

def syntheticEvent (type : String) (identity : ItemIdentity) (members : List Bytes) (offset : ℤ) :
    Bytes :=
  bytesOf "event: " ++ bytesOf type ++ bytesOf "\ndata: " ++
    objectText ([memberText "type" (Quoted.quote (bytesOf type)),
      memberText "item_id" (marshalRawCompactionString identity.id),
      memberText "output_index" (itoaInt identity.outputIndex),
      memberText "content_index" (itoa identity.contentIndex)] ++ members ++
      [memberText "sequence_number" (itoaInt (identity.sequence + offset))]) ++ bytesOf "\n\n"

def textMember (name : String) (text : Bytes) : List Bytes :=
  if text = [] then [] else [memberText name (marshalRawCompactionString text)]

def rawCompactionSSESyntheticContentEvents (identity : ItemIdentity) (transcript : Bytes) : Bytes :=
  syntheticEvent "response.content_part.added" identity [memberText "part" (syntheticPart [])] 0 ++
    syntheticEvent "response.output_text.delta" identity
      (textMember "delta" transcript ++ [memberText "logprobs" (bytesOf "[]")]) 1 ++
    syntheticEvent "response.output_text.done" identity
      (textMember "text" transcript ++ [memberText "logprobs" (bytesOf "[]")]) 2 ++
    syntheticEvent "response.content_part.done" identity
      [memberText "part" (syntheticPart transcript)] 3

/-- The frames with their sequence numbers moved, and the last of the old ones. -/
def shiftFrames : (lastSequence : ℤ) → List (FrameRead ReadError) → Option (Bytes × ℤ)
  | lastSequence, [] => some ([], lastSequence)
  | lastSequence, read :: reads =>
    if read.oversized then none
    else if read.bytes = [] then
      if read.error.any fun error ↦ error.root = .eof then some ([], lastSequence) else none
    else
      let ⟨_, data, count⟩ := rawSSEFrameDataValue read.bytes
      let unchanged := (shiftFrames lastSequence reads).map fun (shifted, last) ↦
        (read.bytes ++ shifted, last)
      if count = 0 then if rawSSEFrameIsCommentOnly read.bytes then unchanged else none
      else
        match rawCompactionSSEIntegerField data "sequence_number" with
        | none => unchanged
        | some sequence =>
          if sequence ≤ lastSequence then none
          else
            (addRawCompactionSSESyntheticEventCount sequence).bind fun moved ↦
              let frame := replaceRawSSEFrameData read.bytes
                ((replaceRawCompactionSSEIntegerField data "sequence_number" moved).getD data)
              if read.error.isSome then
                if read.error.any fun error ↦ error.root = .eof then
                  some (frame, sequence) else none
              else
                (shiftFrames sequence reads).map fun (shifted, last) ↦ (frame ++ shifted, last)

def memory (text : Bytes) : Upstream ReadError :=
  ⟨match text with
    | [] => []
    | first :: rest => [⟨first, rest⟩], .eof, false⟩

def shiftRawCompactionSSEFrames (frames : Bytes) (previousSequence : ℤ) : Option (Bytes × ℤ) :=
  if frames = [] then some ([], previousSequence)
  else
    shiftFrames previousSequence
      (rawCompactionSSEFrames maxRawCompactionSSEPendingBytes (.new (memory frames)))

def replaceRawCompactionSSEItemAndSequence (data item : Bytes) (sequence : ℤ) : Bytes :=
  let mutated := replaceByteRange data ((jsonObjectFieldValueRange data "item").getD ⟨0, 0⟩) item
  (replaceRawCompactionSSEIntegerField mutated "sequence_number" sequence).getD mutated

/-- The held frames and the completed frame with the transcript in their item. -/
def appendRawCompactionSSEStreamEvents (candidate following completed transcript : Bytes) :
    Option Bytes :=
  (rawCompactionSSECandidateItem candidate).bind fun (candidateData, candidateItem, identity) ↦
    (rawCompactionSSECompletedItem completed identity).bind fun (completedData,
      completedItem, range) ↦
      if rawCompactionSSEItemsHaveCoherentContent candidateItem completedItem then
        (appendRawCompactionSSEContentPart candidateItem transcript).bind fun (mutated, appended) ↦
          (appendRawCompactionSSEContentPart completedItem transcript).bind
            fun (completedMutated, completedAppended) ↦
            if appended ≠ completedAppended then none
            else if appended = false then some (candidate ++ following ++ completed)
            else
              (addRawCompactionSSESyntheticEventCount identity.sequence).bind fun sequence ↦
                (shiftRawCompactionSSEFrames following identity.sequence).bind fun (shifted, last) ↦
                  (rawCompactionSSEIntegerField completedData "sequence_number").bind fun next ↦
                    if next ≤ last then none
                    else
                      (addRawCompactionSSESyntheticEventCount next).bind fun moved ↦
                        (replaceRawCompactionSSEIntegerField
                          (replaceByteRange completedData range completedMutated) "sequence_number"
                          moved).map fun mutatedData ↦
                          rawCompactionSSESyntheticContentEvents identity transcript ++
                            replaceRawSSEFrameData candidate
                              (replaceRawCompactionSSEItemAndSequence
                                candidateData mutated sequence) ++
                            shifted ++ replaceRawSSEFrameData completed mutatedData
      else none

/-! ### What a frame must be -/

def rawCompactionSSEJSONFrameIsValid (frame : Bytes) (event : Bytes) : Bool :=
  let ⟨found, data, count⟩ := rawSSEFrameDataValue frame
  found = event ∧ count ≠ 0 ∧ typeStore.unmarshal [] data = some event

def rawCompactionUnknownSSEFrameIsValid (frame : Bytes) : Bool :=
  let ⟨_, data, count⟩ := rawSSEFrameDataValue frame
  count = 0 ∨ valid data

def stringMember (members : List (Bytes × Value)) (name : String) : Option Bytes :=
  (members.lookup (bytesOf name)).bind fun value ↦ Store.string value []

def rawCompactionStrictFinalAnswerContent (content : Value) : Bool :=
  match content.elements with
  | some [part] =>
    match Store.map part [] with
    | none => false
    | some members =>
      (stringMember members "text").isSome ∧
        stringMember members "type" = some (bytesOf "output_text") ∧
        members.all fun member ↦
          ["type", "text"].all fun name ↦ !equalFold member.1 (bytesOf name) ||
            member.1 = bytesOf name
  | _ => false

/-- Every item is reasoning but one, which is the final answer. -/
def rawCompactionStrictFinalAnswerOutput : (found : Bool) → List Value → Bool
  | found, [] => found
  | found, item :: items =>
    match Store.map item [] with
    | none => false
    | some members =>
      match stringMember members "type" with
      | none => false
      | some type =>
        if type = bytesOf "reasoning" then rawCompactionStrictFinalAnswerOutput found items
        else
          type = bytesOf "message" ∧ stringMember members "role" = some (bytesOf "assistant") ∧
            stringMember members "phase" = some (bytesOf "final_answer") ∧
            ((members.lookup (bytesOf "content")).any rawCompactionStrictFinalAnswerContent) ∧
            found = false ∧ rawCompactionStrictFinalAnswerOutput true items

structure ResponseOutput where
  status : Bytes
  output : List Value

def ResponseOutput.store : Store ResponseOutput :=
  .record [
    (bytesOf "status",
      .field ResponseOutput.status (fun text response ↦ { response with status := text }) .string),
    (bytesOf "output",
      .field ResponseOutput.output (fun items response ↦ { response with output := items })
        (.list (.literal .null) fun value _ ↦ some value))]

def rawCompactionStrictFinalAnswerJSON (body : Bytes) : Bool :=
  rawCompactionJSONHasUniqueObjectKeys body &&
    (ResponseOutput.store.unmarshal ⟨[], []⟩ body).any fun response ↦
      response.status = bytesOf "completed" ∧
        rawCompactionStrictFinalAnswerOutput false response.output

def rawCompactionStrictFinalAnswerSSEFrame (frame : Bytes) : Bool :=
  let ⟨_, data, count⟩ := rawSSEFrameDataValue frame
  count ≠ 0 ∧ rawCompactionJSONHasUniqueObjectKeys data ∧
    ((Store.record [(bytesOf "response", .raw)]).unmarshal [] data).any fun response ↦
      response ≠ [] ∧ rawCompactionStrictFinalAnswerJSON response

end Clyde.Codex
