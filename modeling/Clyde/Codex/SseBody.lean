import Clyde.Codex.SseEvents

/-!
# The body of a response stream

`SSEBody` reads the upstream frame by frame. It holds back the last assistant item and the frames
after it until the response is completed, and then delivers them with the transcript in the item;
whenever it cannot do that, it delivers what it holds as it is and passes the rest on unread.

Scope. `mutated` is set where the source calls back that the transcript was appended. Closing the
body and the log are left out.
-/

set_option autoImplicit false

namespace Clyde.Codex

open Foundation ByteCodec Text Json BufferedReader

def rawCompactionSSEPassthroughChunkBytes : ℕ := 32 * 1024

/-- The state of the body. -/
structure SSEBody where
  reader : Reader ReadError
  transcript : Bytes
  pending : Bytes
  pendingErr : Option ReadError
  candidate : Bytes
  following : Bytes
  disabled : Bool
  mutated : Bool
  strictFinalAnswer : Bool

namespace SSEBody

def new (upstream : Upstream ReadError) (transcript : Bytes) (strictFinalAnswer : Bool) : SSEBody :=
  ⟨.new upstream, transcript, [], none, [], [], false, false, strictFinalAnswer⟩

section

variable (frame : Bytes) (readErr : Option ReadError) (body : SSEBody)

def queueSSEBytes : SSEBody :=
  { body with pending := frame, pendingErr := readErr }

def failOpenSSE : SSEBody :=
  { body with
    pending := body.candidate ++ body.following ++ frame
    pendingErr := readErr
    candidate := []
    following := []
    disabled := true }

/-- The error to return at once, or the body that holds what is left. -/
def flushCandidateAtEOF : Option ReadError × SSEBody :=
  if body.candidate = [] then (readErr, body)
  else
    (none, { body with
        pending := body.candidate ++ body.following
        pendingErr := readErr
        candidate := []
        following := []
        disabled := true })

def rawCompactionSSEPendingFits (candidate following frame : Bytes) : Bool :=
  candidate.length + following.length ≤ maxRawCompactionSSEPendingBytes ∧
    frame.length ≤ maxRawCompactionSSEPendingBytes - (candidate.length + following.length)

def isComment : Bool := (rawSSEFrameDataValue frame).count = 0 ∧ rawSSEFrameIsCommentOnly frame

def handleSSEOtherFrame : SSEBody :=
  if body.candidate = [] then body.queueSSEBytes frame readErr
  else if readErr.isSome ∨ rawCompactionUnknownSSEFrameIsValid frame = false then
    body.failOpenSSE frame readErr
  else if isComment frame then body.queueSSEBytes frame readErr
  else if rawCompactionSSEPendingFits body.candidate body.following frame then
    { body with following := body.following ++ frame }
  else body.failOpenSSE frame readErr

def handleSSECandidateFrame :
    SSEBody :=
  if rawCompactionSSEJSONFrameIsValid frame (bytesOf "response.output_item.done") = false then
    body.failOpenSSE frame readErr
  else
    match appendRawCompactionSSEFrame frame body.transcript with
    | none => body.failOpenSSE frame readErr
    | some (_, false) =>
      if body.candidate = [] then body.queueSSEBytes frame readErr
      else body.failOpenSSE frame readErr
    | some (_, true) =>
      if readErr.isSome ∨ maxRawCompactionSSEPendingBytes < frame.length then
        body.failOpenSSE frame readErr
      else
        { body with
          pending := if body.candidate = [] then body.pending else body.candidate ++ body.following
          candidate := frame
          following := [] }

def handleSSECompletedFrame :
    SSEBody :=
  if readErr.isSome ∨
      rawCompactionSSEJSONFrameIsValid frame (bytesOf "response.completed") = false then
    body.failOpenSSE frame readErr
  else if body.candidate = [] then body.queueSSEBytes frame readErr
  else if body.strictFinalAnswer ∧ rawCompactionStrictFinalAnswerSSEFrame frame = false then
    body.failOpenSSE frame readErr
  else
    match appendRawCompactionSSEStreamEvents body.candidate body.following
      frame body.transcript with
    | none => body.failOpenSSE frame readErr
    | some frames =>
      { body with
        pending := frames
        pendingErr := readErr
        candidate := []
        following := []
        mutated := body.mutated || frames ≠ body.candidate ++ body.following ++ frame }

end

/-- An error is wrapped, unless it is the end. -/
def passthroughError (error : ReadError) : ReadError :=
  if error.root = .eof then error else .passthrough error

theorem root_passthroughError (error : ReadError) : (passthroughError error).root = error.root := by
  unfold passthroughError
  split <;> simp [ReadError.root]

def loadPassthroughBytes (body : SSEBody) : Option ReadError × SSEBody :=
  let (chunk, readErr, left) := body.reader.readLarge rawCompactionSSEPassthroughChunkBytes
  let readErr := readErr.map passthroughError
  if chunk = [] then (readErr, { body with reader := left })
  else (none, { body with reader := left, pending := chunk, pendingErr := readErr })

def handleSSEFrame (read : FrameRead ReadError) (body : SSEBody) : SSEBody :=
  if read.oversized then body.failOpenSSE read.bytes read.error
  else
    let event := rawSSEFrameEvent read.bytes
    if event = bytesOf "response.output_item.done" then
      body.handleSSECandidateFrame read.bytes read.error
    else if event = bytesOf "response.completed" then
      body.handleSSECompletedFrame read.bytes read.error
    else if event ∈ [bytesOf "response.failed", bytesOf "response.incomplete", bytesOf "error"] then
      body.failOpenSSE read.bytes read.error
    else body.handleSSEOtherFrame read.bytes read.error

def loadNextFrame (body : SSEBody) : Option ReadError × SSEBody :=
  if body.disabled then body.loadPassthroughBytes
  else
    let (read, left) := readRawCompactionSSEFrame body.reader maxRawCompactionSSEPendingBytes
    let body := { body with reader := left }
    if read.bytes = [] then body.flushCandidateAtEOF read.error
    else (none, body.handleSSEFrame read)

section

variable {frame : Bytes} {readErr : Option ReadError} {body : SSEBody}

/-- What can be done with a frame. -/
inductive Handles (frame : Bytes) (readErr : Option ReadError) (body : SSEBody) : SSEBody → Prop
  /-- It is delivered: nothing is held back, or it consists of comments. -/
  | queue (hplain : body.candidate = [] ∨ readErr = none ∧ isComment frame = true) :
    Handles frame readErr body (body.queueSSEBytes frame readErr)
  /-- It is delivered after what was held back. -/
  | failOpen : Handles frame readErr body (body.failOpenSSE frame readErr)
  /-- It is held back too. -/
  | hold (hheld : body.candidate ≠ []) (hnone : readErr = none)
    (hcomment : isComment frame = false) :
    Handles frame readErr body { body with following := body.following ++ frame }
  /-- It is held back, and what was held back before is delivered. -/
  | start (hnone : readErr = none)
      (hitem : rawSSEFrameEvent frame = bytesOf "response.output_item.done") :
    Handles frame readErr body { body with
        pending := if body.candidate = [] then body.pending else body.candidate ++ body.following
        candidate := frame
        following := [] }
  /-- It completes the response. -/
  | complete (frames : Bytes) (hheld : body.candidate ≠ []) (hnone : readErr = none) :
    Handles frame readErr body { body with
        pending := frames
        pendingErr := readErr
        candidate := []
        following := []
        mutated := body.mutated || frames ≠ body.candidate ++ body.following ++ frame }

/-- A frame of another event is delivered, or held back behind a held item. -/
theorem handles_other : Handles frame readErr body (body.handleSSEOtherFrame frame readErr) := by
  unfold handleSSEOtherFrame
  split
  · rename_i hempty
    exact .queue (.inl hempty)
  · rename_i hheld
    split
    · exact .failOpen
    · rename_i hread
      have hnone : readErr = none := by simpa using (not_or.mp hread).1
      split
      · rename_i hcomment
        exact .queue (.inr ⟨hnone, hcomment⟩)
      · rename_i hcomment
        split
        · exact .hold hheld hnone (by simpa using hcomment)
        · exact .failOpen

/-- An output item is held back if a transcript goes into it, and what was held is delivered. -/
theorem handles_candidate (hitem : rawSSEFrameEvent frame = bytesOf "response.output_item.done") :
    Handles frame readErr body (body.handleSSECandidateFrame frame readErr) := by
  unfold handleSSECandidateFrame
  split
  · exact .failOpen
  split
  · exact .failOpen
  · split
    · rename_i hempty
      exact .queue (.inl hempty)
    · exact .failOpen
  split
  · exact .failOpen
  · rename_i hread
    exact .start (by simpa using (not_or.mp hread).1) hitem

/-- A completion is rewritten together with what is held, or all of it is delivered as it is. -/
theorem handles_completed :
    Handles frame readErr body (body.handleSSECompletedFrame frame readErr) := by
  unfold handleSSECompletedFrame
  split
  · exact .failOpen
  · rename_i hread
    have hnone : readErr = none := by simpa using (not_or.mp hread).1
    split
    · rename_i hempty
      exact .queue (.inl hempty)
    · rename_i hheld
      split
      · exact .failOpen
      · split
        · exact .failOpen
        · exact .complete _ hheld hnone

/-- Every frame that is read is handled in one of these ways. -/
theorem handles_frame (read : FrameRead ReadError) (body : SSEBody) :
    Handles read.bytes read.error body (body.handleSSEFrame read) := by
  unfold handleSSEFrame
  split
  · exact .failOpen
  dsimp only
  split
  · rename_i hitem
    exact handles_candidate hitem
  split
  · exact handles_completed
  · split
    · exact .failOpen
    · exact handles_other

theorem Handles.candidate {left : SSEBody} (hhandles : Handles frame readErr body left) :
    left.reader = body.reader ∧
      (left.candidate = body.candidate ∨ left.candidate = [] ∨ left.candidate = frame) := by
  cases hhandles <;> simp [queueSSEBytes, failOpenSSE]

theorem Handles.mutated {left : SSEBody} (hhandles : Handles frame readErr body left)
    (hunmutated : left.mutated = false) : body.mutated = false := by
  cases hhandles <;> simp_all [queueSSEBytes, failOpenSSE]

end

/-- One load passes bytes through, flushes at the end of the input, or handles the frame it read. -/
theorem loadNextFrame_cases (body : SSEBody) :
    (body.disabled = true ∧ body.loadNextFrame = body.loadPassthroughBytes) ∨
    ∃ read left, body.disabled = false ∧
      readRawCompactionSSEFrame body.reader maxRawCompactionSSEPendingBytes = (read, left) ∧
      ((read.bytes = [] ∧ body.loadNextFrame =
        { body with reader := left }.flushCandidateAtEOF read.error) ∨
        (read.bytes ≠ [] ∧ ∃ next, body.loadNextFrame = (none, next) ∧
          Handles read.bytes read.error { body with reader := left } next)) := by
  by_cases hdisabled : body.disabled = true
  · exact .inl ⟨hdisabled, by simp [loadNextFrame, hdisabled]⟩
  rcases hread : readRawCompactionSSEFrame body.reader maxRawCompactionSSEPendingBytes with
    ⟨read, left⟩
  refine .inr ⟨read, left, by simpa using hdisabled, rfl, ?_⟩
  unfold loadNextFrame
  rw [if_neg hdisabled, hread]
  dsimp only
  split
  · rename_i hempty
    exact .inl ⟨hempty, rfl⟩
  · rename_i hne
    exact .inr ⟨hne, _, rfl, handles_frame _ _⟩

/-- A passthrough load reports the reader's failure, or delivers bytes and keeps the rest. -/
theorem loadPassthroughBytes_cases (body : SSEBody) :
    (∃ left, body.loadPassthroughBytes =
        (some (passthroughError body.reader.failure), { body with reader := left }) ∧
      body.reader.bytes = [] ∧ left.bytes = [] ∧ left.failure = body.reader.failure) ∨
    ∃ chunk error left, body.loadPassthroughBytes =
        (none, { body with reader := left, pending := chunk, pendingErr := error }) ∧
      chunk ≠ [] ∧ chunk ++ left.bytes = body.reader.bytes ∧ left.failure = body.reader.failure ∧
      ∀ reported, error = some reported →
        reported = passthroughError body.reader.failure ∧ left.bytes = [] := by
  unfold loadPassthroughBytes
  by_cases hbytes : body.reader.bytes = []
  · obtain ⟨left, hread, hleft, hfailure⟩ := Reader.readLarge_of_nil hbytes
    rw [hread]
    exact .inl ⟨left, rfl, hbytes, hleft, hfailure⟩
  obtain ⟨chunk, _, left, hread, hne, hchunk, hfailure, herror⟩ :=
    Reader.readLarge_of_ne_nil (by decide : 0 < rawCompactionSSEPassthroughChunkBytes) hbytes
  rw [hread]
  refine .inr ⟨chunk, _, left, if_neg hne, hne, hchunk, hfailure, fun reported hreported ↦ ?_⟩
  obtain ⟨cause, hcause, rfl⟩ := Option.map_eq_some_iff.mp hreported
  obtain ⟨rfl, hend⟩ := herror cause hcause
  exact ⟨rfl, hend⟩

/-- How much there is to do before the client gets a byte or an error. -/
def work (body : SSEBody) : ℕ := 2 * body.reader.bytes.length + body.candidate.length

/-- Every load that does not end the stream leaves less work, so a read terminates. -/
theorem work_lt_of_loadNextFrame {body left : SSEBody} (hload : body.loadNextFrame = (none, left)) :
    left.work < body.work := by
  rcases loadNextFrame_cases body with ⟨-, hpass⟩ | ⟨_, reader, -, hread, hcases⟩
  · rw [hpass] at hload
    rcases loadPassthroughBytes_cases body with
      ⟨reader, hstuck, -⟩ | ⟨chunk, error, reader, hmore, hne, hchunk, -⟩
    · simp [hstuck] at hload
    obtain rfl := (Prod.mk.inj (hmore.symm.trans hload)).2
    have hpos := List.length_pos_iff.mpr hne
    simp only [work, ← hchunk, List.length_append]
    omega
  obtain ⟨hbytes, -, hfilled, -⟩ := readFrame_conserves hread
  have hlength := congrArg List.length hbytes
  rw [List.length_append] at hlength
  rcases hcases with ⟨hempty, hflush⟩ | ⟨hne, _, hnext, hhandles⟩
  · rw [hflush, flushCandidateAtEOF] at hload
    split at hload
    · exact absurd hempty (hfilled (Prod.mk.inj hload).1)
    · rename_i hheld
      obtain rfl := (Prod.mk.inj hload).2
      have hpos := List.length_pos_iff.mpr hheld
      simp only [work, List.length_nil]
      dsimp only at hpos
      omega
  obtain rfl := (Prod.mk.inj (hnext.symm.trans hload)).2
  obtain ⟨hreader, hcandidate⟩ := hhandles.candidate
  have hpos := List.length_pos_iff.mpr hne
  unfold work
  rw [hreader]
  rcases hcandidate with hsame | hnone | hframe
  · rw [hsame]
    dsimp only
    omega
  · rw [hnone]
    simp only [List.length_nil]
    omega
  · rw [hframe]
    dsimp only
    omega

def fill (body : SSEBody) : Option ReadError × SSEBody :=
  if body.pending ≠ [] then (none, body)
  else
    match body.pendingErr with
    | some error => (some error, { body with pendingErr := none })
    | none =>
      match _hload : body.loadNextFrame with
      | (some error, left) => (some error, left)
      | (none, left) => left.fill
  termination_by body.work
  decreasing_by exact work_lt_of_loadNextFrame _hload

def read (size : ℕ) (body : SSEBody) : (Bytes × Option ReadError) × SSEBody :=
  if size = 0 then (([], none), body)
  else
    match body.fill with
    | (some error, left) => (([], some error), left)
    | (none, left) =>
      ((left.pending.take size, none), { left with pending := left.pending.drop size })

def reads : List ℕ → SSEBody → List (Bytes × Option ReadError) × SSEBody
  | [], body => ([], body)
  | size :: sizes, body =>
    let (result, left) := body.read size
    let (results, last) := reads sizes left
    (result :: results, last)

end SSEBody

end Clyde.Codex
