import Clyde.ReorientTag.Segments
import Mathlib.Data.Rat.Floor

/-!
# Where a compaction divides the conversation

`internal/reorientinject/plan.go`. The planner counts the segments of a request from the newest on
and retains those that fit a token budget. The first that does not fit is the boundary: its tail is
retained and its head is left to the model. `planOnce` is one pass, and `planCut` repeats it with a
lower planning budget while the retained text measures too much.

Scope. A counter is any function from texts to integers, and the set of counted kinds is arbitrary.
Counts do not overflow. The floating-point share that a byte cap leaves is the parameter
`byteShare`.
-/

set_option autoImplicit false

namespace Clyde.ReorientInject

open Foundation.ByteCodec Foundation.Text Foundation.Utf8 ReorientTag List

/-! ### Requests -/

inductive BlockKind where
  | text
  | thinking
  | toolUse
  | toolResult
  | image
  | other
  deriving DecidableEq

/-- A content block. The provider cannot truncate inside an atomic one. -/
structure Block where
  kind : BlockKind
  text : Bytes
  atomic : Bool
  deriving DecidableEq

/-- Who produced a message. -/
inductive Role where
  | user
  | assistant
  | system
  | other
  deriving DecidableEq

structure Message where
  role : Role
  segments : List Block
  deriving DecidableEq

/-- An intercepted compaction request. The compaction prompt is one of its messages or follows them.
-/
structure ParsedRequest where
  messages : List Message
  retainStart : ℤ
  instructionStart : ℤ
  instructionStart_le : instructionStart ≤ messages.length

/-- Where the split divides the boundary message. -/
structure Cut where
  messageIndex : ℕ
  segmentIndex : ℕ
  headRunes : ℕ
  deriving DecidableEq

/-- A plan: the cut, the text that is retained and its measure. -/
structure Plan where
  cut : Cut
  retained : Bytes
  retainedTokens : ℤ
  deriving DecidableEq

structure Counted where
  messageIndex : ℕ
  segmentIndex : ℕ
  role : Role
  segment : Block
  deriving DecidableEq

/-! ### Frames -/

def frameRole : Role → SegmentRole
  | .user => .user
  | .assistant => .assistant
  | .system => .system
  | .other => .other

def textFrameKind : Role → SegmentKind
  | .user | .assistant => .chat
  | .system => .system
  | .other => .other

def frameKind (role : Role) : BlockKind → SegmentKind
  | .text => textFrameKind role
  | .thinking => .thinking
  | .toolUse => .toolCall
  | .toolResult => .toolOutput
  | .image | .other => .other

def frameSegment (role : Role) (segment : Block) (text : Bytes) : Segment :=
  ⟨frameRole role, frameKind role segment.kind, text⟩

/-! ### The retained text -/

/-- The segments of the messages from one index up to another, with their places. -/
def segmentsBetween (messages : List Message) (first last : ℕ) : List Counted :=
  ((messages.zipIdx.take last).drop first).flatMap fun entry ↦
    entry.1.segments.zipIdx.map fun place ↦ ⟨entry.2, place.2, entry.1.role, place.1⟩

section

variable (counter : Bytes → ℤ) (included : BlockKind → Bool)

section

variable (request : ParsedRequest)

end

/-! ### One pass -/

def frameCount (counted : Counted) : ℤ :=
  counter (encodeSegment (frameSegment counted.role counted.segment counted.segment.text))

variable (byteShare : ℤ → ℤ → ℕ → ℤ)

def accepts (budget maxBytes : ℤ) (plan : Plan) : Bool :=
  counter plan.retained < budget && (maxBytes ≤ 0 || (plan.retained.length : ℤ) ≤ maxBytes)

variable {counted : Counted}

variable {request : ParsedRequest}

/-- Each of the segments, newest first, fits when it is taken. -/
def Fits (budget : ℤ) : ℤ → List Counted → Prop
  | _, [] => True
  | used, counted :: older =>
    used + frameCount counter counted < budget ∧
      Fits budget (used + frameCount counter counted) older

variable {newestFirst : List Counted} {budget used : ℤ}

variable {plan : Plan}

variable {characters : List Char} {low bound tail : ℕ}

end

/-! ### The heuristic counter -/

def textRequest (text : Bytes) : ParsedRequest where
  messages := [⟨.user, [⟨.text, text, false⟩]⟩, ⟨.user, [⟨.text, bytesOf "summarize", false⟩]⟩]
  retainStart := 0
  instructionStart := 1
  instructionStart_le := by simp

end Clyde.ReorientInject
