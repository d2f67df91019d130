import Clyde.ReorientInject.Plan
import Mathlib.Data.List.DropRight

/-!
# Reading a transcript without frames

`internal/reorientinject/unframed.go`, and its call in `reconstructWrapper` of
`internal/providers/codex/parser/capture_recovery.go`. An old transcript is the tail of one segment
under the heading of its message, and the segments after it. It is read back by trying each segment
as the one that was cut, and accepted only if the attempts that succeed agree.

A `Reading` is a cut that renders to the text up to white space at the end. White space is trimmed
from the text and not from the segment that is cut, so the code misses the readings that cut the
last segment when it ends in white space (`Reading.OpenEnd`). `returnsReadings_iff` says when that
makes a difference.

Scope. The place to retain from is an index of the messages.
-/

set_option autoImplicit false

namespace Clyde.ReorientInject

open Foundation.ByteCodec Foundation.Text ReorientTag List

/-- The characters that are trimmed around the inner text of a wrapper. -/
def captureWrapperBoundaries : Bytes := bytesOf " \t\r\n"

def trimEnd (text : Bytes) : Bytes := text.rdropWhile fun byte ↦ byte ∈ captureWrapperBoundaries

def trimBoundaries (text : Bytes) : Bytes :=
  trimEnd (text.dropWhile fun byte ↦ byte ∈ captureWrapperBoundaries)

def unframedHeadingPrefix : Bytes := bytesOf "### "

def unframedSeparator : Bytes := bytesOf "\n\n"

def unframedHeading : Role → Bytes
  | .user => bytesOf "User"
  | .assistant => bytesOf "Assistant"
  | .system => bytesOf "System"
  | .other => bytesOf "Other"

/-- The segments between the place to retain from and the compaction prompt. -/
def retainedWindow (request : ParsedRequest) : List Counted :=
  segmentsBetween request.messages request.retainStart.toNat request.instructionStart.toNat

/-- The segments that are not blank, each message under its heading, which has been written for the
message at `current`. -/
def renderSegments : ℕ → List Counted → Bytes
  | _, [] => []
  | current, counted :: after =>
    if isBlank counted.segment.text then renderSegments current after
    else
      (if counted.messageIndex = current then []
        else unframedSeparator ++ unframedHeadingPrefix ++ unframedHeading counted.role) ++
      unframedSeparator ++ counted.segment.text ++ renderSegments counted.messageIndex after

def headingLine (counted : Counted) : Bytes :=
  unframedHeadingPrefix ++ unframedHeading counted.role ++ unframedSeparator

def renderUnframed (counted : Counted) (after : List Counted) : Bytes :=
  trimEnd (renderSegments counted.messageIndex after)

/-- A tail of a segment that can have been retained: an atomic segment is retained whole. -/
def Retainable (counted : Counted) (tail : Bytes) : Prop :=
  isBlank tail = false ∧ tail <:+ counted.segment.text ∧
    (counted.segment.atomic = true → trimSpace tail = trimSpace counted.segment.text)
  deriving Decidable

def unframedTail (text : Bytes) (counted : Counted) (after : List Counted) : Option Bytes :=
  (text.dropPrefix? (headingLine counted)).bind fun body ↦
    (body.dropSuffix? (renderUnframed counted after)).filter fun tail ↦ Retainable counted tail

/-- The frame of a segment, unless it is blank. -/
def framed (counted : Counted) : Option Segment :=
  if isBlank counted.segment.text then none
  else some (frameSegment counted.role counted.segment counted.segment.text)

def unframedSegments (counted : Counted) (after : List Counted) (tail : Bytes) : List Segment :=
  ({ counted with segment.text := tail } :: after).filterMap framed

/-- The typed segments of each place from which a text can have been written. -/
def candidates (request : ParsedRequest) (text : Bytes) : List (List Segment) :=
  (retainedWindow request).tails.filterMap fun
    | [] => none
    | counted :: after => (unframedTail text counted after).map (unframedSegments counted after)

/-- Counts a candidate that differs from the last one counted. -/
def addMatch (state : List Segment × ℕ) (segments : List Segment) : List Segment × ℕ :=
  if 0 < state.2 ∧ state.1 = segments then state else (segments, state.2 + 1)

def reconstructUnframedTranscript (request : ParsedRequest) (text : Bytes) :
    Option (List Segment) :=
  let state := (candidates request text).foldl addMatch ([], 0)
  if state.2 = 1 then some state.1 else none

variable {request : ParsedRequest} {text tail : Bytes} {counted : Counted} {after : List Counted}

/-- A segment and a tail of it that can have been retained, with the segments after it. -/
structure UnframedCut (request : ParsedRequest) where
  counted : Counted
  after : List Counted
  tail : Bytes
  suffix : counted :: after <:+ retainedWindow request
  retainable : Retainable counted tail

def UnframedCut.segments (cut : UnframedCut request) : List Segment :=
  unframedSegments cut.counted cut.after cut.tail

/-- A cut that renders to a text, up to white space at the end. -/
structure Reading (request : ParsedRequest) (text : Bytes) extends UnframedCut request where
  renders : trimEnd (headingLine counted ++ tail ++ renderSegments counted.messageIndex after) =
    trimEnd text

/-- The segments with the text of the last one trimmed at its end. -/
def trimLast (segments : List Segment) : List Segment :=
  segments.dropLast ++ (segments.getLast?.map fun last ↦
    { last with text := trimEnd last.text }).toList

namespace Reading

/-- The typed segments are the same, up to white space at the end of the last one. -/
def Agrees (first second : Reading request text) : Prop :=
  trimLast first.segments = trimLast second.segments

/-- The cut segment is the last that is not blank, and ends in white space. -/
def OpenEnd (reading : Reading request text) : Prop :=
  (∀ other ∈ reading.after, isBlank other.segment.text = true) ∧ trimEnd reading.tail ≠ reading.tail

end Reading

/-- Segments are returned exactly if there is a reading and all readings agree, and then every
reading gives them. -/
structure ReturnsReadings (request : ParsedRequest) (text : Bytes) : Prop where
  isSome_iff : (reconstructUnframedTranscript request text).isSome ↔
    Nonempty (Reading request text) ∧ ∀ first second : Reading request text, first.Agrees second
  given : ∀ segments ∈ reconstructUnframedTranscript request text,
    ∀ reading : Reading request text, trimLast reading.segments = trimLast segments

theorem trimEnd_append (front back : Bytes) :
    trimEnd (front ++ back) = if trimEnd back = [] then
      trimEnd front else front ++ trimEnd back := by
  simp only [trimEnd, rdropWhile, reverse_append, dropWhile_append,
    List.isEmpty_iff, reverse_eq_nil_iff]
  split_ifs
  · rfl
  · rw [reverse_append, reverse_reverse]

theorem isBlank_of_boundaries (htext : ∀ byte ∈ text, byte ∈ captureWrapperBoundaries) :
    isBlank text = true := by
  rw [isBlank, decide_eq_true_eq]
  induction text with
  | nil => rfl
  | cons byte text ih =>
    rw [forall_mem_cons] at htext
    have hspace : ∀ byte ∈ captureWrapperBoundaries,
        (whiteSpace.find? fun space ↦ space.isPrefixOf (byte :: text)) = some [byte] := by
      have hboundaries : captureWrapperBoundaries = [0x20, 0x09, 0x0D, 0x0A] := by decide
      simp [hboundaries, whiteSpace, isPrefixOf]
    rw [length_cons, trimSpaceLeft, hspace byte htext.1]
    exact ih htext.2

theorem mem_renderSegments {current : ℕ} {other : Counted} (hother : other ∈ after)
    (hblank : ¬isBlank other.segment.text = true) {byte : UInt8}
    (hbyte : byte ∈ other.segment.text) :
    byte ∈ renderSegments current after := by
  induction after generalizing current with
  | nil => cases hother
  | cons first after ih =>
    rw [renderSegments]
    rcases mem_cons.mp hother with rfl | hother
    · rw [if_neg hblank]
      simp [hbyte]
    · split_ifs <;> simp [ih hother]

/-- Nothing is rendered exactly if every segment is blank. -/
theorem renderUnframed_eq_nil_iff :
    renderUnframed counted after = [] ↔ ∀ other ∈ after, isBlank other.segment.text = true := by
  constructor
  · intro hnothing other hother
    by_contra hblank
    refine hblank (isBlank_of_boundaries fun byte hbyte ↦ ?_)
    simpa using rdropWhile_eq_nil_iff.mp hnothing byte (mem_renderSegments hother hblank hbyte)
  · intro hblank
    have hnone : renderSegments counted.messageIndex after = [] := by
      induction after with
      | nil => rfl
      | cons first after ih =>
        rw [forall_mem_cons] at hblank
        rw [renderSegments, if_pos hblank.1, ih hblank.2]
    rw [renderUnframed, hnone]
    rfl

/-- The white space at the end of a heading and a tail is that of the tail. -/
theorem trimEnd_heading_append (hblank : isBlank tail = false) :
    trimEnd (headingLine counted ++ tail) = headingLine counted ++ trimEnd tail := by
  rw [trimEnd_append, if_neg]
  intro hnil
  have hspace := isBlank_of_boundaries fun byte hbyte ↦ by
    simpa using rdropWhile_eq_nil_iff.mp hnil byte hbyte
  rw [hspace] at hblank
  cases hblank

/-- A cut whose end is not open renders, trimmed, to the text that the code compares. -/
theorem trimEnd_rendering (cut : UnframedCut request)
    (hclosed : (∀ other ∈ cut.after, isBlank other.segment.text = true) →
      trimEnd cut.tail = cut.tail) :
    trimEnd (headingLine cut.counted ++ cut.tail ++
      renderSegments cut.counted.messageIndex cut.after) =
      headingLine cut.counted ++ cut.tail ++ renderUnframed cut.counted cut.after := by
  rw [trimEnd_append, ← renderUnframed]
  split_ifs with hnothing
  · rw [trimEnd_heading_append cut.retainable.1, hclosed (renderUnframed_eq_nil_iff.mp hnothing),
      hnothing, append_nil]
  · rfl

theorem unframedTail_eq_some_iff : unframedTail text counted after = some tail ↔
    text = headingLine counted ++ tail ++ renderUnframed counted after ∧
    Retainable counted tail := by
  simp only [unframedTail, Option.bind_eq_some_iff, Option.filter_eq_some_iff,
    dropPrefix?_eq_some_iff, dropSuffix?_eq_some_iff, beq_iff_eq, decide_eq_true_eq]
  constructor
  · rintro ⟨body, ⟨_, rfl, rfl⟩, ⟨_, rfl, rfl⟩, htail⟩
    exact ⟨(append_assoc ..).symm, htail⟩
  · rintro ⟨rfl, htail⟩
    exact ⟨_, ⟨_, append_assoc .., rfl⟩, ⟨_, rfl, rfl⟩, htail⟩

variable {segments : List Segment}

/-- The code finds the readings whose end is not open. -/
theorem mem_candidates_iff (htext : trimEnd text = text) :
    segments ∈ candidates request text ↔
      ∃ reading : Reading request text, ¬reading.OpenEnd ∧ reading.segments = segments := by
  rw [candidates, mem_filterMap]
  constructor
  · rintro ⟨_ | ⟨counted, after⟩, hplace, hsegments⟩
    · cases hsegments
    obtain ⟨tail, htail, rfl⟩ := Option.map_eq_some_iff.mp hsegments
    obtain ⟨hrenders, hretainable⟩ := unframedTail_eq_some_iff.mp htail
    let cut : UnframedCut request := ⟨counted, after, tail, (mem_tails ..).mp hplace, hretainable⟩
    have hclosed (hblank : ∀ other ∈ after, isBlank other.segment.text = true) :
        trimEnd tail = tail := by
      rw [renderUnframed_eq_nil_iff.mpr hblank, append_nil] at hrenders
      rw [hrenders, trimEnd_heading_append hretainable.1] at htext
      exact append_cancel_left htext
    refine ⟨⟨cut, ?_⟩, fun hopen ↦ hopen.2 (hclosed hopen.1), rfl⟩
    rw [trimEnd_rendering cut hclosed, htext, hrenders]
  · rintro ⟨⟨cut, hrenders⟩, hclosed, rfl⟩
    refine ⟨_, (mem_tails ..).mpr cut.suffix, Option.map_eq_some_iff.mpr ⟨cut.tail, ?_, rfl⟩⟩
    rw [trimEnd_rendering cut fun hblank ↦ by_contra fun hopen ↦
      hclosed ⟨hblank, hopen⟩, htext] at hrenders
    exact unframedTail_eq_some_iff.mpr ⟨hrenders.symm, cut.retainable⟩

theorem UnframedCut.segments_eq (cut : UnframedCut request) :
    cut.segments = frameSegment cut.counted.role cut.counted.segment cut.tail ::
      cut.after.filterMap framed := by
  simp [UnframedCut.segments, unframedSegments, framed, cut.retainable.1, frameSegment]

theorem length_trimLast (segments : List Segment) :
    (trimLast segments).length = segments.length := by
  cases segments using reverseRecOn <;> simp [trimLast]

theorem eq_of_trimLast_eq {others : List Segment} (hlast : segments.getLast? = others.getLast?)
    (htrim : trimLast segments = trimLast others) : segments = others := by
  cases segments using reverseRecOn <;> cases others using reverseRecOn <;> simp_all [trimLast]

namespace Reading

variable {first second : Reading request text}

/-- A reading whose end is not open either cuts a segment that is not followed by others and does
not end in white space, or ends as all the segments do. -/
theorem closed_cases (hclosed : ¬first.OpenEnd) :
    first.after.filterMap framed = [] ∧ trimLast first.segments = first.segments ∨
      first.after.filterMap framed ≠ [] ∧
        first.segments.getLast? = ((retainedWindow request).filterMap framed).getLast? := by
  rw [first.segments_eq]
  by_cases hnone : first.after.filterMap framed = []
  · refine .inl ⟨hnone, ?_⟩
    have htail : trimEnd first.tail = first.tail := by
      by_contra hopen
      refine hclosed ⟨fun other hother ↦ ?_, hopen⟩
      simpa [framed] using filterMap_eq_nil_iff.mp hnone other hother
    simp [hnone, trimLast, frameSegment, htail]
  · refine .inr ⟨hnone, ?_⟩
    obtain ⟨front, hfront⟩ := ((suffix_cons _ _).trans first.suffix).filterMap framed
    rw [← hfront, getLast?_append_of_ne_nil _ hnone, getLast?_cons_of_ne_nil hnone]

/-- Two readings whose ends are not open and that agree give the same segments. -/
theorem segments_eq_of_agrees (hfirst : ¬first.OpenEnd) (hsecond : ¬second.OpenEnd)
    (hagrees : first.Agrees second) : first.segments = second.segments := by
  have hlength := congrArg length hagrees
  rw [length_trimLast, length_trimLast, first.segments_eq, second.segments_eq,
    length_cons, length_cons, Nat.add_right_cancel_iff] at hlength
  rcases closed_cases hfirst with ⟨hnone, htrim⟩ | ⟨hsome, hlast⟩ <;>
    rcases closed_cases hsecond with ⟨hnone', htrim'⟩ | ⟨hsome', hlast'⟩
  · rw [← htrim, hagrees, htrim']
  · exact absurd (length_eq_zero_iff.mp (by rw [← hlength, hnone, length_nil])) hsome'
  · exact absurd (length_eq_zero_iff.mp (by rw [hlength, hnone', length_nil])) hsome
  · exact eq_of_trimLast_eq (hlast.trans hlast'.symm) hagrees

end Reading

theorem foldl_addMatch_eq_iff {others : List (List Segment)} {found : List Segment} {count : ℕ}
    (hcount : 0 < count) :
    others.foldl addMatch (found, count) = (segments, 1) ↔
      count = 1 ∧ found = segments ∧ ∀ other ∈ others, other = segments := by
  induction others generalizing found count with
  | nil => simp [and_comm]
  | cons other others ih =>
    rw [foldl_cons, addMatch]
    split_ifs with hsame
    · rw [ih hcount, forall_mem_cons, ← hsame.2, and_self_left]
    · rw [ih (Nat.succ_pos count), forall_mem_cons]
      constructor
      · omega
      · rintro ⟨-, rfl, rfl, -⟩
        exact absurd ⟨hcount, rfl⟩ hsame

theorem reconstructUnframedTranscript_eq_some_iff :
    reconstructUnframedTranscript request text = some segments ↔
      candidates request text ≠ [] ∧ ∀ other ∈ candidates request text, other = segments := by
  rw [reconstructUnframedTranscript]
  cases candidates request text with
  | nil => simp
  | cons first others =>
    have hfirst : addMatch ([], 0) first = (first, 1) := by simp [addMatch]
    have hloop := @foldl_addMatch_eq_iff segments others first 1 Nat.one_pos
    rw [Prod.ext_iff] at hloop
    simp only [foldl_cons, hfirst, forall_mem_cons, Option.ite_none_right_eq_some,
      Option.some.injEq, ne_eq, reduceCtorEq, not_false_eq_true, true_and] at hloop ⊢
    rw [and_comm, hloop]

/-- Segments are returned exactly if a reading whose end is not open exists and all of these agree.
-/
theorem exists_segments_iff (htext : trimEnd text = text) :
    (∃ segments, reconstructUnframedTranscript request text = some segments) ↔
      (∃ reading : Reading request text, ¬reading.OpenEnd) ∧ ∀ first second : Reading request text,
        ¬first.OpenEnd → ¬second.OpenEnd → first.Agrees second := by
  simp only [reconstructUnframedTranscript_eq_some_iff, mem_candidates_iff htext]
  constructor
  · rintro ⟨segments, hnonempty, hsame⟩
    obtain ⟨candidate, hcandidate⟩ := exists_mem_of_ne_nil _ hnonempty
    obtain ⟨reading, hclosed, -⟩ := (mem_candidates_iff htext).mp hcandidate
    refine ⟨⟨reading, hclosed⟩, fun first second hfirst hsecond ↦ congrArg trimLast ?_⟩
    rw [hsame _ ⟨first, hfirst, rfl⟩, hsame _ ⟨second, hsecond, rfl⟩]
  · rintro ⟨⟨reading, hclosed⟩, hagree⟩
    refine ⟨reading.segments, ne_nil_of_mem
      ((mem_candidates_iff htext).mpr ⟨reading, hclosed, rfl⟩), ?_⟩
    rintro _ ⟨other, hother, rfl⟩
    exact other.segments_eq_of_agrees hother hclosed (hagree other reading hother hclosed)

/-- The segments returned are those of every reading whose end is not open. -/
theorem segments_of_closed (htext : trimEnd text = text)
    (hsegments : reconstructUnframedTranscript request text = some segments)
    {reading : Reading request text} (hclosed : ¬reading.OpenEnd) : reading.segments = segments :=
  (reconstructUnframedTranscript_eq_some_iff.mp hsegments).2 _
    ((mem_candidates_iff htext).mpr ⟨reading, hclosed, rfl⟩)

/-- From the inner text of a wrapper the readings are returned as they should be exactly if every
reading with an open end agrees with one whose end is not open, or two readings disagree, which both
have ends that are not open unless all readings have open ends. -/
theorem returnsReadings_iff (request : ParsedRequest) (inner : Bytes) :
    ReturnsReadings request (trimBoundaries inner) ↔
      ∀ reading : Reading request (trimBoundaries inner), reading.OpenEnd →
        (∃ other : Reading request (trimBoundaries inner), ¬other.OpenEnd ∧ reading.Agrees other) ∨
          ∃ first second : Reading request (trimBoundaries inner), ¬first.Agrees second ∧
            (¬first.OpenEnd ∧ ¬second.OpenEnd ∨
              ∀ other : Reading request (trimBoundaries inner), other.OpenEnd) := by
  have htext : trimEnd (trimBoundaries inner) = trimBoundaries inner := rdropWhile_idempotent _ _
  generalize trimBoundaries inner = text at htext
  have hiff := @exists_segments_iff request text htext
  rw [← Option.isSome_iff_exists] at hiff
  constructor
  · rintro ⟨hreturns, -⟩ reading hopen
    by_cases hsome : (reconstructUnframedTranscript request text).isSome
    · obtain ⟨⟨other, hclosed⟩, -⟩ := hiff.mp hsome
      exact .inl ⟨other, hclosed, (hreturns.mp hsome).2 reading other⟩
    refine .inr ?_
    by_cases hall : ∀ other : Reading request text, other.OpenEnd
    · -- Nothing is found, so the readings do not agree.
      by_contra hagree
      exact hsome (hreturns.mpr ⟨⟨reading⟩, fun first second ↦ by_contra fun hdiffer ↦
        hagree ⟨first, second, hdiffer, .inr hall⟩⟩)
    · rw [hiff, not_and] at hsome
      have hdiffer := hsome (not_forall.mp hall)
      simp only [not_forall, exists_prop] at hdiffer
      obtain ⟨first, second, hfirst, hsecond, hdiffer⟩ := hdiffer
      exact ⟨first, second, hdiffer, .inl ⟨hfirst, hsecond⟩⟩
  · intro hopen
    have hclosed (hsome : (reconstructUnframedTranscript request text).isSome)
      (reading : Reading request text) :
        ∃ other : Reading request text, ¬other.OpenEnd ∧ reading.Agrees other := by
      obtain ⟨⟨found, hfound⟩, hagree⟩ := hiff.mp hsome
      by_cases hreading : reading.OpenEnd
      · rcases hopen reading hreading with hother | ⟨first, second, hdiffer,
          ⟨hfirst, hsecond⟩ | hall⟩
        · exact hother
        · exact absurd (hagree first second hfirst hsecond) hdiffer
        · exact absurd (hall found) hfound
      · exact ⟨reading, hreading, rfl⟩
    refine ⟨⟨fun hsome ↦ ?_, fun ⟨⟨reading⟩, hagree⟩ ↦ ?_⟩, fun segments hsegments reading ↦ ?_⟩
    · obtain ⟨⟨found, -⟩, hagree⟩ := hiff.mp hsome
      refine ⟨⟨found⟩, fun first second ↦ ?_⟩
      obtain ⟨_, hfirst, hsame⟩ := hclosed hsome first
      obtain ⟨_, hsecond, hsame'⟩ := hclosed hsome second
      exact hsame.trans ((hagree _ _ hfirst hsecond).trans hsame'.symm)
    · refine hiff.mpr ⟨?_, fun first second _ _ ↦ hagree first second⟩
      by_contra hall
      simp only [not_exists, not_not] at hall
      rcases hopen reading (hall reading) with ⟨other, hother, -⟩ | ⟨first, second, hdiffer, -⟩
      · exact hother (hall other)
      · exact hdiffer (hagree first second)
    · obtain ⟨_, hother, hagrees⟩ := hclosed (Option.isSome_of_mem hsegments) reading
      rw [← segments_of_closed htext hsegments hother]
      exact hagrees

def onlySegment (text : Bytes) : Counted := ⟨0, 0, .user, ⟨.text, text, false⟩⟩

theorem eq_onlySegment (hsuffix : counted :: after <:+ retainedWindow (textRequest text)) :
    counted = onlySegment text ∧ after = [] := by
  simpa [retainedWindow, segmentsBetween, textRequest, onlySegment, suffix_cons_iff] using hsuffix

def sampleInner : Bytes := bytesOf "\n### User\n\nok\n"

/-- The only segment ends in a line end, which is trimmed from the inner text and not from the
segment. The text has one reading, but nothing is returned. -/
theorem reconstructUnframedTranscript_ends_in_newline :
    let request := textRequest (bytesOf "ok\n")
    let text := trimBoundaries sampleInner
    Nonempty (Reading request text) ∧
      (∀ first second : Reading request text, trimLast first.segments = trimLast second.segments) ∧
      reconstructUnframedTranscript request text = none := by
  intro request text
  let cut : UnframedCut request :=
    ⟨onlySegment (bytesOf "ok\n"), [], bytesOf "ok\n", suffix_rfl, by decide +kernel⟩
  refine ⟨⟨cut, ?_⟩, ?_, ?_⟩
  · decide +kernel
  · have htails : ∀ tail ∈ (bytesOf "ok\n").tails,
        trimEnd (headingLine (onlySegment (bytesOf "ok\n")) ++ tail) =
          trimEnd (trimBoundaries sampleInner) → tail = bytesOf "ok\n" := by
      decide +kernel
    have hsegments : ∀ reading : Reading request text,
        reading.segments = unframedSegments (onlySegment (bytesOf "ok\n")) [] (bytesOf "ok\n") := by
      rintro ⟨⟨counted, after, tail, hsuffix, hretainable⟩, hrenders⟩
      obtain ⟨rfl, rfl⟩ := eq_onlySegment hsuffix
      rw [renderSegments, append_nil] at hrenders
      obtain rfl := htails tail ((mem_tails ..).mpr hretainable.2.1) hrenders
      rfl
    intro first second
    rw [hsegments first, hsegments second]
  · decide +kernel

end Clyde.ReorientInject
