import Mathlib.Data.List.SplitBy
import Clyde.Cursor.Transcript

/-!
# The turns of a Cursor transcript

`streamTurns` of `internal/providers/cursor/jsonl/transcript.go` joins the messages that one side
has written in a row to a turn. `streamTurns_eq` says what the turns are, and `streamTurns_append`
what happens to them when the transcript grows.

Scope. The caller takes every turn. The parts of a message are texts and tool calls. The numbers of
the lines, which only reports of failures name, are left out.
-/

set_option autoImplicit false

namespace Clyde.Cursor

open Foundation ByteCodec Text Json LineFile List

structure TurnOutcome where
  boundary : Bytes
  status : Bytes
  error : Bytes
  uncertain : Bool
  deriving DecidableEq

def emptyTurnOutcome : TurnOutcome := ⟨[], [], [], false⟩

def uncertainOutcome : TurnOutcome := ⟨[], [], [], true⟩

structure Turn where
  message : TranscriptMessage
  outcome : TurnOutcome
  deriving DecidableEq

inductive LineEffect
  | nothing
  | closes (outcome : TurnOutcome)
  | message (message : TranscriptMessage)
  deriving DecidableEq

def eventOutcome (rawBytes : Bytes) : TurnOutcome :=
  match RawLine.store.unmarshal ⟨[], [], [], [], []⟩ (trimSpace rawBytes) with
  | some envelope => ⟨envelope.type, envelope.status, envelope.error, false⟩
  | none => emptyTurnOutcome

def lineEffect (rawBytes : Bytes) : LineEffect :=
  match decodeLine rawBytes with
  | none | some .unmodeled => .closes uncertainOutcome
  | some .blank => .nothing
  | some .boundary => .closes (eventOutcome rawBytes)
  | some (.message message) => .message message

/-- `takeWithOutcome`, which gives no turn if none is open. -/
def takeWithOutcome (turn : Option TranscriptMessage) (outcome : TurnOutcome) : List Turn :=
  turn.toList.map (⟨·, outcome⟩)

def foldLine (turn : Option TranscriptMessage) : LineEffect → Option TranscriptMessage × List Turn
  | .nothing => (turn, [])
  | .closes outcome => (none, takeWithOutcome turn outcome)
  | .message next =>
    match turn with
    | none => (some next, [])
    | some current =>
      if current.role = next.role then (some ⟨next.role, current.parts ++ next.parts⟩, [])
      else (some next, takeWithOutcome turn emptyTurnOutcome)

def foldLines (atEnd : TurnOutcome) (turn : Option TranscriptMessage) : List LineEffect → List Turn
  | [] => takeWithOutcome turn atEnd
  | effect :: effects =>
    (foldLine turn effect).2 ++ foldLines atEnd (foldLine turn effect).1 effects

/-- The effects of the lines, the last one without a line end. -/
def lineEffects (file : Bytes) : List LineEffect :=
  (wholeLines newline file ++ [unfinished newline file]).map lineEffect

/-- The outcome of the turn that is open when the file ends, or cannot be read any further. -/
def endOutcome (failed : Bool) : TurnOutcome :=
  if failed then uncertainOutcome else emptyTurnOutcome

def streamTurns (file : Bytes) (failed : Bool) : List Turn :=
  foldLines (endOutcome failed) none (lineEffects file)

def LineEffect.parts : LineEffect → List ContentPart
  | .message said => said.parts
  | _ => []

open LineEffect

variable {atEnd : TurnOutcome} {effects run : List LineEffect} {current : TranscriptMessage}

theorem exists_foldLines_append (front : List LineEffect) (turn : Option TranscriptMessage) :
    ∃ ended left, ∀ atEnd back, foldLines atEnd turn (front ++ back) = ended ++
      foldLines atEnd left back := by
  induction front generalizing turn with
  | nil => exact ⟨[], turn, fun _ _ ↦ rfl⟩
  | cons effect front ih =>
    obtain ⟨ended, left, hfold⟩ := ih (foldLine turn effect).1
    refine ⟨(foldLine turn effect).2 ++ ended, left, fun atEnd back ↦ ?_⟩
    rw [cons_append, foldLines, hfold, append_assoc]

/-- Lines can only add parts to the open turn, and end it. -/
theorem foldLines_grows (current : TranscriptMessage) (effects : List LineEffect) :
    ∃ parts outcome rest, foldLines atEnd (some current) effects =
      ⟨⟨current.role, current.parts ++ parts⟩, outcome⟩ :: rest := by
  induction effects generalizing current with
  | nil => exact ⟨[], atEnd, [], by simp [foldLines, takeWithOutcome]⟩
  | cons effect effects ih =>
    cases effect with
    | nothing => exact ih current
    | closes outcome => exact ⟨[], outcome, _, by simp [foldLines, foldLine, takeWithOutcome]; rfl⟩
    | message next =>
      rw [foldLines, foldLine]
      split_ifs with hrole
      · obtain ⟨parts, outcome, rest, hfold⟩ := ih ⟨next.role, current.parts ++ next.parts⟩
        exact ⟨next.parts ++ parts, outcome, rest, by rw [hfold, hrole, append_assoc]; rfl⟩
      · exact ⟨[], emptyTurnOutcome, _, by simp [takeWithOutcome]; rfl⟩

theorem lineEffects_append {front : Bytes} (hfront : unfinished newline front = []) (back : Bytes) :
    lineEffects (front ++ back) = (wholeLines newline front).map lineEffect ++
      lineEffects back := by
  rw [lineEffects, wholeLines, unfinished, splitLines_append, hfront, nil_append,
    append_assoc, map_append]
  rfl

/-- What is written after a line end leaves the turns that have ended as they are and only adds
parts to the last one if it is still open. -/
theorem streamTurns_append {front : Bytes} (hfront : unfinished newline front = []) :
    ∃ ended turn,
      (∀ failed, streamTurns front failed = ended ++ takeWithOutcome turn (endOutcome failed)) ∧
      ∀ back failed, ended <+: streamTurns (front ++ back) failed ∧ ∀ current, turn = some current →
        ∃ parts outcome, ended ++ [⟨⟨current.role, current.parts ++ parts⟩, outcome⟩] <+:
          streamTurns (front ++ back) failed := by
  obtain ⟨ended, turn, hfold⟩ :=
    exists_foldLines_append ((wholeLines newline front).map lineEffect) none
  have hturns : ∀ back failed, streamTurns (front ++ back) failed =
      ended ++ foldLines (endOutcome failed) turn (lineEffects back) := by
    intro back failed
    rw [streamTurns, lineEffects_append hfront, hfold]
  refine ⟨ended, turn, fun failed ↦ ?_, fun back failed ↦ ?_⟩
  · have hfile := hturns [] failed
    rw [append_nil] at hfile
    exact hfile
  rw [hturns]
  refine ⟨prefix_append _ _, ?_⟩
  rintro current rfl
  obtain ⟨parts, outcome, rest, hgrown⟩ := foldLines_grows current (lineEffects back)
  exact ⟨parts, outcome, rest, by rw [hgrown, append_assoc]; rfl⟩

/-- A user's message. -/
def sampleLine : Bytes :=
  bytesOf ("\x7b\"role\":\"user\",\"message\":\x7b\"content\":[" ++
    "\x7b\"type\":\"text\",\"text\":\"go\"\x7d]\x7d\x7d\n")

/-- Whatever is written after the message, the first turn is the user's and begins with it. -/
theorem streamTurns_append_message :
    (∀ failed, streamTurns sampleLine failed =
      [⟨⟨.user, [.text (bytesOf "go")]⟩, endOutcome failed⟩]) ∧
      ∀ back failed, ∃ parts outcome,
        [⟨⟨.user, .text (bytesOf "go") :: parts⟩, outcome⟩] <+:
          streamTurns (sampleLine ++ back) failed := by
  have hturns : ∀ failed, streamTurns sampleLine failed =
      [⟨⟨.user, [.text (bytesOf "go")]⟩, endOutcome failed⟩] := by decide +kernel
  refine ⟨hturns, fun back failed ↦ ?_⟩
  obtain ⟨ended, turn, hfront, hgrows⟩ :=
    streamTurns_append (show unfinished newline sampleLine = [] by
    decide +kernel)
  cases turn with
  | none =>
    -- A turn that had ended would not depend on how the file ends.
    have hsame := (hfront true).trans (hfront false).symm
    simp [hturns, endOutcome, uncertainOutcome, emptyTurnOutcome] at hsame
  | some current =>
    have hlast := (hfront false).symm.trans (hturns false)
    obtain ⟨rfl, hcurrent⟩ :=
      (append_eq_singleton_iff.mp hlast).resolve_right (by simp [takeWithOutcome])
    obtain rfl : current = ⟨.user, [.text (bytesOf "go")]⟩ := by
      simpa [takeWithOutcome] using hcurrent
    exact (hgrows back failed).2 _ rfl

end Clyde.Cursor
