import Clyde.Foundation.Quoted

/-!
# Framed transcripts

`internal/reorienttag/segments.go`. A retained transcript is a list of segments between two tags.
Each is a frame: a header with the role, the kind and the byte count of its text, the text, and a
footer. The text may hold anything, because the reader takes it by its count.

`parseTranscriptSpans` looks for the opening of a transcript, reads frames up to the closing tag,
and goes on after it, or after the opening if the frames do not read.

Scope. Roles and kinds are enumerations: other names are refused. Positions are the remaining text.
A byte count above the range of an integer is longer than any text.
-/

set_option autoImplicit false

namespace Clyde.ReorientTag

open Foundation ByteCodec Text Quoted List Option

/-! ### Segments -/

inductive SegmentRole where
  | user
  | assistant
  | system
  | other
  deriving DecidableEq

inductive SegmentKind where
  | chat
  | thinking
  | toolCall
  | toolOutput
  | system
  | other
  deriving DecidableEq

/-- A retained content block. -/
structure Segment where
  role : SegmentRole
  kind : SegmentKind
  text : Bytes
  deriving DecidableEq

/-- A framed transcript in a text: where it starts, where it ends, and its segments. -/
structure TranscriptSpan where
  start : ℕ
  stop : ℕ
  segments : List Segment
  deriving DecidableEq

def SegmentRole.name : SegmentRole → Bytes
  | .user => bytesOf "user"
  | .assistant => bytesOf "assistant"
  | .system => bytesOf "system"
  | .other => bytesOf "other"

def SegmentKind.name : SegmentKind → Bytes
  | .chat => bytesOf "chat"
  | .thinking => bytesOf "thinking"
  | .toolCall => bytesOf "tool_call"
  | .toolOutput => bytesOf "tool_output"
  | .system => bytesOf "system"
  | .other => bytesOf "other"

def knownRole (name : Bytes) : Option SegmentRole :=
  [SegmentRole.user, .assistant, .system, .other].find? fun role ↦ role.name = name

def knownKind (name : Bytes) : Option SegmentKind :=
  [SegmentKind.chat, .thinking, .toolCall, .toolOutput, .system, .other].find?
    fun kind ↦ kind.name = name

@[simp] theorem knownRole_name (role : SegmentRole) : knownRole role.name = some role := by
  cases role <;> decide

@[simp] theorem knownKind_name (kind : SegmentKind) : knownKind kind.name = some kind := by
  cases kind <;> decide

theorem isPlain_roleName (role : SegmentRole) : role.name.all isPlain = true := by
  cases role <;> decide

theorem isPlain_kindName (kind : SegmentKind) : kind.name.all isPlain = true := by
  cases kind <;> decide

/-! ### Writing -/

def preCompactionTranscriptOpen : Bytes := bytesOf "<pre-compaction-transcript>"

def preCompactionTranscriptClose : Bytes := bytesOf "</pre-compaction-transcript>"

def transcriptFormatMarker : Bytes := bytesOf "<clyde-transcript-format version=\"2\"/>"

def segmentRolePrefix : Bytes := bytesOf "<segment role="

def segmentKindPrefix : Bytes := bytesOf " kind="

def segmentBytesPrefix : Bytes := bytesOf " bytes="

def segmentHeaderEnd : Bytes := bytesOf ">\n"

def segmentFooter : Bytes := bytesOf "\n</segment>"

def segmentSeparator : Bytes := bytesOf "\n\n"

def transcriptHeader : Bytes :=
  preCompactionTranscriptOpen ++ 0x0A :: transcriptFormatMarker ++ [0x0A]

def transcriptClosing : Bytes := 0x0A :: preCompactionTranscriptClose

def encodeSegment (segment : Segment) : Bytes :=
  segmentRolePrefix ++ quote segment.role.name ++ segmentKindPrefix ++ quote segment.kind.name ++
    segmentBytesPrefix ++ quote (itoa segment.text.length) ++ segmentHeaderEnd ++ segment.text ++
    segmentFooter

section

variable (segments : List Segment)

def encodeSegments : Bytes := segmentSeparator.intercalate (segments.map encodeSegment)

def encodeTranscript : Bytes :=
  if segments = [] then []
  else transcriptFormatMarker ++ 0x0A :: encodeSegments segments

def framedTranscript : Bytes :=
  if segments = [] then []
  else preCompactionTranscriptOpen ++ 0x0A :: encodeTranscript segments ++
    0x0A :: preCompactionTranscriptClose

end

variable {segments : List Segment}

theorem framedTranscript_eq (hsegments : segments ≠ []) :
    framedTranscript segments = transcriptHeader ++
      (encodeSegments segments ++ transcriptClosing) := by
  simp [framedTranscript, encodeTranscript, hsegments, transcriptHeader, transcriptClosing]

/-! ### Reading -/

def consumeLiteral (literal text : Bytes) : Option Bytes :=
  if literal <+: text then some (text.drop literal.length) else none

/-- A byte count and the text after it. A count is written as a number is, without a sign. -/
def consumeLength (text : Bytes) : Option (ℕ × Bytes) :=
  match consumeQuoted text with
  | none => none
  | some (value, rest) =>
    match atoi value with
    | none => none
    | some length => if itoa length = value then some (length, rest) else none

/-- The segment of the frame at the front of a text, and the text after the frame. -/
def parseSegment (text : Bytes) : Option (Segment × Bytes) := do
  let text ← consumeLiteral segmentRolePrefix text
  let (roleName, text) ← consumeQuoted text
  let role ← knownRole roleName
  let text ← consumeLiteral segmentKindPrefix text
  let (kindName, text) ← consumeQuoted text
  let kind ← knownKind kindName
  let text ← consumeLiteral segmentBytesPrefix text
  let (length, text) ← consumeLength text
  let text ← consumeLiteral segmentHeaderEnd text
  if text.length < length then none
  else
    let rest ← consumeLiteral segmentFooter (text.drop length)
    some (⟨role, kind, text.take length⟩, rest)

@[simp] theorem consumeLiteral_append (literal rest : Bytes) :
    consumeLiteral literal (literal ++ rest) = some rest := by
  rw [consumeLiteral, if_pos (prefix_append literal rest), drop_left]

theorem parseSegment_encodeSegment_append (segment : Segment) (rest : Bytes) :
    parseSegment (encodeSegment segment ++ rest) = some (segment, rest) := by
  have hlength : ∀ after, consumeLength (quote (itoa segment.text.length) ++ after) =
      some (segment.text.length, after) := by
    simp [consumeLength, consumeQuoted_quote_append (isPlain_itoa _)]
  simp only [parseSegment, encodeSegment, append_assoc, consumeLiteral_append,
    consumeQuoted_quote_append (isPlain_roleName _),
    consumeQuoted_quote_append (isPlain_kindName _),
    knownRole_name, knownKind_name, hlength, bind_eq_bind, bind_some,
    drop_left, take_left]
  rw [if_neg (by simp)]

theorem length_consumeLiteral {literal text rest : Bytes}
    (hrest : consumeLiteral literal text = some rest) :
    rest.length + literal.length = text.length := by
  unfold consumeLiteral at hrest
  split_ifs at hrest with hstarts
  cases hrest
  have := hstarts.length_le
  rw [length_drop]
  omega

variable {text rest : Bytes}

theorem length_consumeLength_le {length : ℕ}
    (hlength : consumeLength text = some (length, rest)) : rest.length ≤ text.length := by
  unfold consumeLength at hlength
  split at hlength
  · cases hlength
  · next hvalue =>
    split at hlength
    · cases hlength
    · split_ifs at hlength
      cases hlength
      exact length_consumeQuoted_le hvalue

theorem length_parseSegment_lt {segment : Segment}
    (hsegment : parseSegment text = some (segment, rest)) : rest.length < text.length := by
  simp only [parseSegment, bind_eq_bind, bind_eq_some_iff] at hsegment
  obtain ⟨_, hrole, ⟨_, _⟩, hroleName, _, -, _, hkind, ⟨_, _⟩, hkindName, _, -,
    _, hbytes, ⟨length, _⟩, hlength, body, hbody, hfooter⟩ := hsegment
  split_ifs at hfooter
  obtain ⟨_, hafter, hsame⟩ := bind_eq_some_iff.mp hfooter
  cases hsame
  have hpos : 0 < segmentRolePrefix.length := by decide
  have := length_consumeLiteral hrole
  have := length_consumeQuoted_le hroleName
  have := length_consumeLiteral hkind
  have := length_consumeQuoted_le hkindName
  have := length_consumeLiteral hbytes
  have := length_consumeLength_le hlength
  have := length_consumeLiteral hbody
  have := length_consumeLiteral hafter
  have : (body.drop length).length ≤ body.length := (drop_sublist _ _).length_le
  dsimp only at *
  omega

/-- The segments of the frames at the front of a text up to the closing tag, and the text after it.
-/
def parseFramedBody (text : Bytes) : Option (List Segment × Bytes) :=
  match _hsegment : parseSegment text with
  | none => none
  | some (segment, rest) =>
    if transcriptClosing <+: rest then some ([segment], rest.drop transcriptClosing.length)
    else if ¬segmentSeparator <+: rest then none
    else
      match parseFramedBody (rest.drop segmentSeparator.length) with
      | none => none
      | some (segments, after) => some (segment :: segments, after)
termination_by text.length
decreasing_by
  exact Nat.lt_of_le_of_lt (List.drop_sublist _ _).length_le (length_parseSegment_lt _hsegment)

/-- Encoded segments are parsed back, up to the closing tag and no further. -/
theorem parseFramedBody_encodeSegments_append (hsegments : segments ≠ []) (rest : Bytes) :
    parseFramedBody (encodeSegments segments ++ (transcriptClosing ++ rest)) =
      some (segments, rest) := by
  induction segments with
  | nil => exact absurd rfl hsegments
  | cons segment segments ih =>
    rw [parseFramedBody]
    cases segments with
    | nil =>
      have hread := parseSegment_encodeSegment_append segment (transcriptClosing ++ rest)
      rw [encodeSegments, map_singleton, intercalate_singleton]
      split
      · next hnone => rw [hread] at hnone; cases hnone
      · next hsome =>
        rw [hread] at hsome
        cases hsome
        rw [if_pos (prefix_append _ _), drop_left]
    | cons next segments =>
      have hread := parseSegment_encodeSegment_append segment
      have hsplit : encodeSegments (segment :: next :: segments) ++ (transcriptClosing ++ rest) =
          encodeSegment segment ++ (segmentSeparator ++
            (encodeSegments (next :: segments) ++ (transcriptClosing ++ rest))) := by
        simp [encodeSegments, intercalate_cons_cons]
      -- a separator is not a closing tag: they differ in their second byte
      have hopen : ¬transcriptClosing <+: segmentSeparator ++
          (encodeSegments (next :: segments) ++ (transcriptClosing ++ rest)) := by
        intro hclosing
        have hfront := take_prefix 2 transcriptClosing
        have hshort : transcriptClosing.take 2 <+: segmentSeparator :=
          prefix_of_prefix_length_le (hfront.trans hclosing) (prefix_append _ _) (by decide)
        exact absurd hshort (by decide)
      rw [hsplit]
      split
      · next hnone => rw [hread] at hnone; cases hnone
      · next hsome =>
        rw [hread] at hsome
        cases hsome
        rw [if_neg hopen, if_neg (not_not.mpr (prefix_append _ _)), drop_left, ih (cons_ne_nil _ _)]

theorem length_parseFramedBody_le
    (hsegments : parseFramedBody text = some (segments, rest)) : rest.length ≤ text.length := by
  fun_induction parseFramedBody text generalizing segments with
  | case1 => cases hsegments
  | case2 text segment after hsegment =>
    cases hsegments
    exact (drop_sublist _ _).length_le.trans (Nat.le_of_lt (length_parseSegment_lt hsegment))
  | case3 => cases hsegments
  | case4 => cases hsegments
  | case5 _ _ _ hsegment _ _ _ _ hlater ih =>
    cases hsegments
    exact (ih hlater).trans ((drop_sublist _ _).length_le.trans
      (Nat.le_of_lt (length_parseSegment_lt hsegment)))

/-! ### Spans -/

def spansFrom (offset : ℕ) (text : Bytes) : List TranscriptSpan :=
  match _hindex : indexOf transcriptHeader text with
  | none => []
  | some before =>
    let body := text.drop (before + transcriptHeader.length)
    match _hbody : parseFramedBody body with
    | none => spansFrom (offset + before + transcriptHeader.length) body
    | some (segments, rest) =>
      let stop := offset + before + transcriptHeader.length + (body.length - rest.length)
      ⟨offset + before, stop, segments⟩ :: spansFrom stop rest
termination_by text.length
decreasing_by
  all_goals
    have hpos : 0 < transcriptHeader.length := by decide
    have hfound := (indexOf_eq_some _hindex).1.length_le
    rw [List.length_drop] at hfound
  · rw [List.length_drop]
    omega
  · have hrest := length_parseFramedBody_le _hbody
    rw [List.length_drop] at hrest
    omega

theorem spansFrom_of_absent (habsent : ¬transcriptHeader <:+: text) (offset : ℕ) :
    spansFrom offset text = [] := by
  rw [spansFrom]
  split
  · rfl
  · next hindex =>
    rw [indexOf_eq_none_iff.mpr habsent] at hindex
    cases hindex

theorem spansFrom_of_framed {body rest : Bytes} {before : ℕ}
    (hindex : indexOf transcriptHeader text = some before)
    (hdrop : text.drop (before + transcriptHeader.length) = body)
    (hbody : parseFramedBody body = some (segments, rest)) (offset : ℕ) :
    let stop := offset + before + transcriptHeader.length + (body.length - rest.length)
    spansFrom offset text = ⟨offset + before, stop, segments⟩ :: spansFrom stop rest := by
  subst hdrop
  rw [spansFrom]
  split
  · next hnone => rw [hindex] at hnone; cases hnone
  · next found hfound =>
    rw [hindex] at hfound
    cases hfound
    dsimp only
    split
    · next hnone => rw [hbody] at hnone; cases hnone
    · next hsome =>
      rw [hbody] at hsome
      cases hsome
      rfl

def parseTranscriptSpans (text : Bytes) : List TranscriptSpan := spansFrom 0 text

/-- The text outside spans, from the end of the span before. -/
def outsideFrom (text : Bytes) (previousEnd : ℕ) : List TranscriptSpan → Bytes
  | [] => text.drop previousEnd
  | span :: rest => (text.take span.start).drop previousEnd ++ outsideFrom text span.stop rest

def textOutsideSpans (text : Bytes) (spans : List TranscriptSpan) : Bytes :=
  outsideFrom text 0 spans

/-- Whether a transcript starts in a text: framed, or with the heading of a role. -/
def containsTranscriptWrapper (text : Bytes) : Bool :=
  (indexOf (preCompactionTranscriptOpen ++ bytesOf "\n" ++ transcriptFormatMarker ++
    bytesOf "\n") text).isSome ||
    ["User", "Assistant", "System", "Other"].any fun heading ↦
      (indexOf (preCompactionTranscriptOpen ++ bytesOf "\n### " ++ bytesOf heading ++
        bytesOf "\n\n") text).isSome

/-- The framed transcripts of a text, if no transcript starts outside them. -/
def completeTranscriptSpans (text : Bytes) : List TranscriptSpan :=
  let spans := parseTranscriptSpans text
  if containsTranscriptWrapper (textOutsideSpans text spans) then [] else spans

/-- The text without its framed transcripts, and whether there were any. -/
def removeTranscriptSpans (text : Bytes) : Bytes × Bool :=
  let spans := parseTranscriptSpans text
  if spans = [] then (text, false) else (textOutsideSpans text spans, true)

/-! ### Transcripts with plain text around them -/

/-- Plain texts, each followed by the framed transcript of its segments, and a last plain text. -/
def joined (pieces : List (Bytes × List Segment)) (last : Bytes) : Bytes :=
  match pieces with
  | [] => last
  | (plain, segments) :: rest => plain ++ framedTranscript segments ++ joined rest last

/-- The framed parts of such a text that starts at an offset. -/
def spansOf (offset : ℕ) : List (Bytes × List Segment) → List TranscriptSpan
  | [] => []
  | (plain, segments) :: rest =>
    let start := offset + plain.length
    let stop := start + (framedTranscript segments).length
    ⟨start, stop, segments⟩ :: spansOf stop rest

theorem borderless_transcriptHeader : Borderless transcriptHeader := by decide +kernel

/-- In a text with frames between plain pieces the spans are those of the frames. -/
theorem spansFrom_joined {pieces : List (Bytes × List Segment)} {last : Bytes} (offset : ℕ)
    (hplain : ∀ piece ∈ pieces, ¬transcriptHeader <:+: piece.1)
    (hlast : ¬transcriptHeader <:+: last) (hsegments : ∀ piece ∈ pieces, piece.2 ≠ []) :
    spansFrom offset (joined pieces last) = spansOf offset pieces := by
  induction pieces generalizing offset with
  | nil => exact spansFrom_of_absent hlast offset
  | cons piece rest ih =>
    obtain ⟨plain, segments⟩ := piece
    have hnonempty : segments ≠ [] := hsegments _ mem_cons_self
    have hfree : ¬transcriptHeader <:+: plain := hplain _ mem_cons_self
    let body := encodeSegments segments ++ (transcriptClosing ++ joined rest last)
    have htext : joined ((plain, segments) :: rest) last = plain ++ transcriptHeader ++ body := by
      simp [joined, framedTranscript_eq hnonempty, body]
    have hindex := indexOf_append_of_borderless borderless_transcriptHeader hfree body
    have hdrop : (plain ++ transcriptHeader ++ body).drop (plain.length + transcriptHeader.length) =
        body := drop_left' (by simp)
    have hbody : parseFramedBody body = some (segments, joined rest last) :=
      parseFramedBody_encodeSegments_append hnonempty _
    have hstop : offset + plain.length + transcriptHeader.length +
      (body.length - (joined rest last).length) =
        offset + plain.length + (framedTranscript segments).length := by
      simp only [framedTranscript_eq hnonempty, body, length_append]
      omega
    rw [htext, spansFrom_of_framed hindex hdrop hbody, spansOf, hstop,
      ih _ (fun other hother ↦ hplain other (mem_cons_of_mem _ hother))
        fun other hother ↦ hsegments other (mem_cons_of_mem _ hother)]

/-- What is outside the spans are the plain pieces. -/
theorem outsideFrom_joined (front : Bytes) (pieces : List (Bytes × List Segment)) (last : Bytes) :
    outsideFrom (front ++ joined pieces last) front.length (spansOf front.length pieces) =
      (pieces.map Prod.fst).flatten ++ last := by
  induction pieces generalizing front with
  | nil => simp [spansOf, outsideFrom, joined]
  | cons piece rest ih =>
    obtain ⟨plain, segments⟩ := piece
    have hrest := ih (front ++ plain ++ framedTranscript segments)
    have htake : (front ++ joined ((plain, segments) :: rest) last).take
        (front.length + plain.length) = front ++ plain := by
      rw [joined, ← append_assoc, ← append_assoc, append_assoc _]
      exact take_left' length_append
    have htext : front ++ joined ((plain, segments) :: rest) last =
        front ++ plain ++ framedTranscript segments ++ joined rest last := by
      simp [joined]
    rw [spansOf, outsideFrom, htake, drop_left, htext]
    simp only [length_append] at hrest
    rw [hrest, map_cons, flatten_cons, append_assoc]

/-- For any plain texts without the opening of a transcript and any nonempty lists of segments, the
reader finds in their concatenation exactly the segments, over exactly the framed parts, and the
plain texts are what is left. -/
theorem parseTranscriptSpans_joined (pieces : List (Bytes × List Segment)) (last : Bytes)
    (hplain : ∀ piece ∈ pieces, ¬transcriptHeader <:+: piece.1)
    (hlast : ¬transcriptHeader <:+: last) (hsegments : ∀ piece ∈ pieces, piece.2 ≠ []) :
    parseTranscriptSpans (joined pieces last) = spansOf 0 pieces ∧
      (removeTranscriptSpans (joined pieces last)).1 = (pieces.map Prod.fst).flatten ++ last := by
  have hspans : parseTranscriptSpans (joined pieces last) = spansOf 0 pieces :=
    spansFrom_joined 0 hplain hlast hsegments
  refine ⟨hspans, ?_⟩
  rw [removeTranscriptSpans, hspans]
  cases pieces with
  | nil => rfl
  | cons piece rest => exact outsideFrom_joined [] (piece :: rest) last

/-- A transcript whose text is itself an empty frame and a closing tag, between two plain texts. -/
theorem parseTranscriptSpans_joined_sample :
    let segment : Segment := ⟨.user, .chat, encodeSegment ⟨.user, .chat, []⟩ ++ transcriptClosing⟩
    let pieces := [(bytesOf "before", [segment, segment])]
    parseTranscriptSpans (joined pieces (bytesOf "after")) = spansOf 0 pieces ∧
      (removeTranscriptSpans (joined pieces (bytesOf "after"))).1 = bytesOf "beforeafter" :=
  parseTranscriptSpans_joined _ _ (by decide) (by decide) (by decide)

end Clyde.ReorientTag
