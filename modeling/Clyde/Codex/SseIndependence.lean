import Clyde.Codex.SseBody
import Clyde.Codex.SseChunking

/-!
# The delivered stream and the division into reads

`stream` is everything that a body delivers, and the error it ends with. `delivers_iff` says that
this is what a client gets, whatever the sizes of its calls. `stream_withReader` compares two bodies
that differ only in how the rest of the upstream arrives: they deliver the same unless the division
shows in the frames. `stream_independent_iff` is the exact condition for a text.
-/

set_option autoImplicit false

namespace Clyde.Codex

open Foundation ByteCodec Text BufferedReader SSEBody

namespace SSEBody

/-- Nothing is pending. -/
def emptied (body : SSEBody) : SSEBody :=
  { body with pending := [] }

def stream (body : SSEBody) : Bytes × ReadError :=
  match body.pendingErr with
  | some error => (body.pending, error)
  | none =>
    match _hload : body.emptied.loadNextFrame with
    | (some error, _) => (body.pending, error)
    | (none, left) => (body.pending ++ left.stream.1, left.stream.2)
  termination_by body.work
  decreasing_by exact @work_lt_of_loadNextFrame body.emptied left _hload

/-- What a client gets: bytes, until a call returns an error. -/
inductive Delivers : SSEBody → Bytes → ReadError → Prop
  | ends {body left : SSEBody} {error : ReadError} (size : ℕ) (hsize : 0 < size)
    (hread : body.read size = (([], some error), left)) : Delivers body [] error
  | more {body left : SSEBody} {chunk text : Bytes} {error : ReadError}
    (size : ℕ) (hsize : 0 < size)
    (hread : body.read size = ((chunk, none), left)) (hrest : Delivers left text error) :
    Delivers body (chunk ++ text) error

section

variable {body left : SSEBody}

theorem stream_of_pendingErr {error : ReadError} (hpendingErr : body.pendingErr = some error) :
    body.stream = (body.pending, error) := by
  unfold stream
  rw [hpendingErr]

theorem stream_of_error {error : ReadError} (hpendingErr : body.pendingErr = none)
    (hload : body.emptied.loadNextFrame = (some error, left)) :
    body.stream = (body.pending, error) := by
  unfold stream
  rw [hpendingErr]
  dsimp only
  split <;> simp_all

theorem stream_of_load (hpendingErr : body.pendingErr = none)
    (hload : body.emptied.loadNextFrame = (none, left)) :
    body.stream = (body.pending ++ left.stream.1, left.stream.2) := by
  conv_lhs => unfold stream
  rw [hpendingErr]
  dsimp only
  split <;> simp_all

theorem stream_eq (body : SSEBody) :
    body.stream = (body.pending ++ body.emptied.stream.1, body.emptied.stream.2) := by
  cases hpendingErr : body.pendingErr with
  | some error =>
    rw [stream_of_pendingErr hpendingErr, @stream_of_pendingErr body.emptied _ hpendingErr]
    simp [emptied]
  | none =>
    rcases hload : body.emptied.loadNextFrame with ⟨_ | _, _⟩
    · rw [stream_of_load hpendingErr hload, @stream_of_load body.emptied _ hpendingErr hload]
      simp [emptied]
    · rw [stream_of_error hpendingErr hload, @stream_of_error body.emptied _ _ hpendingErr hload]
      simp [emptied]

/-- A fill does not change what the body will deliver. -/
theorem stream_fill (body : SSEBody) :
    (∀ error, body.fill.1 = some error → body.stream = ([], error)) ∧
      (body.fill.1 = none → body.stream = body.fill.2.stream ∧ body.fill.2.pending ≠ []) := by
  fun_induction fill body with
  | case1 body hpending => exact ⟨by simp, fun _ ↦ ⟨rfl, hpending⟩⟩
  | case2 body hpending error hpendingErr =>
    have hnil : body.pending = [] := by simpa using hpending
    refine ⟨?_, by simp⟩
    rintro reported ⟨⟩
    rw [stream_of_pendingErr hpendingErr, hnil]
  | case3 body hpending hpendingErr _ left hload =>
    have hnil : body.pending = [] := by simpa using hpending
    have hemptied : body.emptied = body := by rw [emptied, ← hnil]
    refine ⟨?_, by simp⟩
    rintro _ ⟨⟩
    rw [stream_of_error hpendingErr (hemptied.symm ▸ hload), hnil]
  | case4 body hpending hpendingErr _ hload ih =>
    have hnil : body.pending = [] := by simpa using hpending
    have hemptied : body.emptied = body := by rw [emptied, ← hnil]
    rw [stream_of_load hpendingErr (hemptied.symm ▸ hload), hnil]
    exact ih

/-- A read delivers the front of the stream, or its error when nothing is left. -/
theorem stream_read {size : ℕ} (hsize : 0 < size) :
    (∃ error left, body.read size = (([], some error), left) ∧ body.stream = ([], error)) ∨
      ∃ chunk left, body.read size = ((chunk, none), left) ∧ chunk ≠ [] ∧
        body.stream = (chunk ++ left.stream.1, left.stream.2) := by
  obtain ⟨herror, hnone⟩ := stream_fill body
  unfold SSEBody.read
  rw [if_neg hsize.ne']
  rcases hfill : body.fill with ⟨_ | error, left⟩
  · rw [hfill] at hnone
    obtain ⟨hstream, hpending⟩ := hnone rfl
    refine .inr ⟨_, _, rfl, by simp [hsize.ne', hpending], ?_⟩
    rw [hstream, stream_eq left, stream_eq { left with pending := _ }]
    simp [emptied, ← List.append_assoc]
  · rw [hfill] at herror
    exact .inl ⟨error, left, rfl, herror error rfl⟩

/-- Every sequence of reads delivers the body's one stream. -/
theorem delivers_iff {text : Bytes} {error : ReadError} :
    Delivers body text error ↔ body.stream = (text, error) := by
  constructor
  · intro hdelivers
    induction hdelivers with
    | ends size hsize hread =>
      rcases stream_read hsize with ⟨error', left', hread', hstream⟩ | ⟨chunk, left', hread', -⟩
      · obtain ⟨hresult, -⟩ := Prod.mk.inj (hread'.symm.trans hread)
        rw [hstream, Option.some.inj (Prod.mk.inj hresult).2]
      · cases hread'.symm.trans hread
    | more _ hsize hread _ ih =>
      rcases stream_read hsize with ⟨error', _, hread', hstream⟩ | ⟨chunk, _, hread', -, hstream⟩
      · cases hread'.symm.trans hread
      · obtain ⟨hresult, rfl⟩ := Prod.mk.inj (hread'.symm.trans hread)
        rw [hstream, ih, (Prod.mk.inj hresult).1]
  intro hstream
  induction hlength : text.length using Nat.strong_induction_on generalizing body text with
  | _ _ ih =>
    subst hlength
    rcases @stream_read body 1 one_pos with
      ⟨error', left, hread, hend⟩ | ⟨chunk, left, hread, hne, hmore⟩
    · obtain ⟨rfl, rfl⟩ := Prod.mk.inj (hstream.symm.trans hend)
      exact .ends 1 one_pos hread
    · obtain ⟨rfl, rfl⟩ := Prod.mk.inj (hstream.symm.trans hmore)
      have hpos := List.length_pos_iff.mpr hne
      exact .more 1 one_pos hread (ih _ (by rw [List.length_append]; omega) rfl rfl)

end

def withReader (reader : Reader ReadError) (body : SSEBody) : SSEBody :=
  { body with reader := reader }

section

variable {frame : Bytes} {readErr : Option ReadError} {body : SSEBody} {reader : Reader ReadError}

theorem handleSSEOtherFrame_withReader :
    (body.withReader reader).handleSSEOtherFrame frame readErr =
      (body.handleSSEOtherFrame frame readErr).withReader reader := by
  unfold handleSSEOtherFrame
  simp only [apply_ite (withReader reader)]
  rfl

theorem handleSSECandidateFrame_withReader :
    (body.withReader reader).handleSSECandidateFrame frame readErr =
      (body.handleSSECandidateFrame frame readErr).withReader reader := by
  have htranscript : (body.withReader reader).transcript = body.transcript := rfl
  unfold handleSSECandidateFrame
  rw [htranscript]
  rcases appendRawCompactionSSEFrame frame _ with _ | ⟨_, _ | _⟩ <;>
  · simp only [apply_ite (withReader reader)]
    rfl

theorem handleSSECompletedFrame_withReader :
    (body.withReader reader).handleSSECompletedFrame frame readErr =
      (body.handleSSECompletedFrame frame readErr).withReader reader := by
  have hevents : appendRawCompactionSSEStreamEvents (body.withReader reader).candidate
      (body.withReader reader).following frame (body.withReader reader).transcript =
      appendRawCompactionSSEStreamEvents body.candidate body.following frame body.transcript := rfl
  unfold handleSSECompletedFrame
  rw [hevents]
  cases appendRawCompactionSSEStreamEvents body.candidate body.following frame body.transcript <;>
  · simp only [apply_ite (withReader reader)]
    rfl

theorem handleSSEFrame_withReader (read : FrameRead ReadError) :
    (body.withReader reader).handleSSEFrame read =
      (body.handleSSEFrame read).withReader reader := by
  unfold handleSSEFrame
  simp only [apply_ite (withReader reader), handleSSEOtherFrame_withReader,
    handleSSECandidateFrame_withReader, handleSSECompletedFrame_withReader]
  rfl

theorem flushCandidateAtEOF_withReader :
    (body.withReader reader).flushCandidateAtEOF readErr =
      ((body.flushCandidateAtEOF readErr).1,
        (body.flushCandidateAtEOF readErr).2.withReader reader) := by
  have hcandidate : (body.withReader reader).candidate = body.candidate := rfl
  unfold flushCandidateAtEOF
  rw [hcandidate]
  split <;> rfl

def handleRead (read : FrameRead ReadError) (body : SSEBody) : Option ReadError × SSEBody :=
  if read.bytes = [] then body.flushCandidateAtEOF read.error else (none, body.handleSSEFrame read)

theorem handleRead_withReader (read : FrameRead ReadError) :
    (body.withReader reader).handleRead read =
      ((body.handleRead read).1, (body.handleRead read).2.withReader reader) := by
  unfold handleRead
  split
  · exact flushCandidateAtEOF_withReader
  · rw [handleSSEFrame_withReader]

theorem loadNextFrame_of_read (hdisabled : body.disabled = false) {read : FrameRead ReadError}
    (hread : readRawCompactionSSEFrame body.reader maxRawCompactionSSEPendingBytes =
      (read, reader)) :
    body.loadNextFrame = ((body.handleRead read).1,
      (body.handleRead read).2.withReader reader) := by
  have hload : body.loadNextFrame = (body.withReader reader).handleRead read := by
    rw [loadNextFrame, if_neg (by simp [hdisabled]), hread]
    rfl
  rw [hload, handleRead_withReader]

/-- A disabled body delivers what is pending and then the input as it is. -/
theorem stream_of_disabled (hdisabled : body.disabled = true)
    (hpendingErr : body.pendingErr = none) :
    body.stream = (body.pending ++ body.reader.bytes, passthroughError body.reader.failure) := by
  induction hlength : body.reader.bytes.length using Nat.strong_induction_on generalizing body with
  | _ length ih =>
    have hload : body.emptied.loadNextFrame = body.emptied.loadPassthroughBytes := by
      rw [loadNextFrame, if_pos (by exact hdisabled)]
    rcases loadPassthroughBytes_cases body.emptied with
      ⟨left, hstuck, hbytes, -, -⟩ | ⟨chunk, error, left, hmore, hne, hchunk, hfailure, herror⟩
    · have hnil : body.reader.bytes = [] := hbytes
      rw [stream_of_error hpendingErr (hload.trans hstuck), hnil, List.append_nil]
      rfl
    have hbytes : chunk ++ left.bytes = body.reader.bytes := hchunk
    rw [stream_of_load hpendingErr (hload.trans hmore), ← hbytes]
    have hsame : left.failure = body.reader.failure := hfailure
    cases error with
    | some reported =>
      obtain ⟨rfl, hend⟩ := herror reported rfl
      rw [stream_of_pendingErr rfl, hend, List.append_nil]
      rfl
    | none =>
      have hpos := List.length_pos_iff.mpr hne
      have hlength := congrArg List.length hbytes
      rw [List.length_append] at hlength
      rw [@ih left.bytes.length (by omega)
        { body.emptied with reader := left, pending := chunk, pendingErr := none }
        hdisabled rfl rfl,
        ← hsame]

/-- Two bodies that differ in how the bytes come deliver the same, unless the division shows in
frames. -/
theorem stream_withReader (hbytes : reader.bytes = body.reader.bytes)
    (hfailure : reader.failure = body.reader.failure)
    (hnot : body.disabled = false →
      sensitive maxRawCompactionSSEPendingBytes 0 true body.reader.bytes = false) :
    (body.withReader reader).stream = body.stream := by
  induction hwork : body.work using Nat.strong_induction_on generalizing body reader with
  | _ _ ih =>
    subst hwork
    cases hpendingErr : body.pendingErr with
    | some error =>
      rw [stream_of_pendingErr hpendingErr,
        @stream_of_pendingErr (body.withReader reader) _ hpendingErr]
      rfl
    | none =>
      cases hdisabled : body.disabled with
      | true =>
        rw [stream_of_disabled hdisabled hpendingErr,
          @stream_of_disabled (body.withReader reader) hdisabled hpendingErr]
        simp [withReader, hbytes, hfailure]
      | false =>
        obtain ⟨read, first, second, hfirst, hsecond, hleft, hleftFailure, hleftNot⟩ :=
          readFrame_of_bytes hbytes hfailure (hnot hdisabled)
        have hone := @loadNextFrame_of_read body.emptied first hdisabled read hfirst
        have htwo :=
          @loadNextFrame_of_read (body.withReader reader).emptied second hdisabled read hsecond
        have hhandled : (body.withReader reader).emptied.handleRead read =
            ((body.emptied.handleRead read).1,
              (body.emptied.handleRead read).2.withReader reader) :=
          @handleRead_withReader body.emptied reader read
        rw [hhandled] at htwo
        rcases hresult : body.emptied.handleRead read with ⟨_ | _, left⟩
        · rw [hresult] at hone htwo
          have hstep := @ih _ (@work_lt_of_loadNextFrame body.emptied _ hone) _
            second hleft hleftFailure (fun _ ↦ hleftNot) rfl
          rw [stream_of_load hpendingErr hone,
            @stream_of_load (body.withReader reader) _ hpendingErr htwo, ← hstep]
          rfl
        rw [hresult] at hone htwo
        rw [stream_of_error hpendingErr hone,
          @stream_of_error (body.withReader reader) _ _ hpendingErr htwo]
        rfl

end

end SSEBody

theorem ofFrame_injective {ε : Type} (failure : ε) :
    Function.Injective (FrameRead.ofFrame failure) := by
  rintro ⟨_, ending⟩ ⟨_, ending'⟩ _
  cases ending <;> cases ending' <;> simp_all [FrameRead.ofFrame, FrameRead.ofScanned]

/-- A text, whatever the error after it, gives the same frames and delivers the same stream for all
ways of dividing it into reads exactly if it has no carriage return with a line feed, but for one
that the limit of a frame would separate anyway. -/
theorem stream_independent_iff (text : Bytes) (failure : ReadError) :
    (∀ first second : Upstream ReadError, first.bytes = text → second.bytes = text →
      first.failure = failure → second.failure = failure →
      rawCompactionSSEFrames maxRawCompactionSSEPendingBytes (.new first) =
          rawCompactionSSEFrames maxRawCompactionSSEPendingBytes (.new second) ∧
        ∀ transcript strict firstText firstError secondText secondError,
          Delivers (.new first transcript strict) firstText firstError →
          Delivers (.new second transcript strict) secondText secondError →
          firstText = secondText ∧ firstError = secondError) ↔
      sensitive maxRawCompactionSSEPendingBytes 0 true text = false := by
  constructor
  · intro hsame
    by_contra hshows
    have hframes := (hsame ⟨pairedPieces text, failure, false⟩ ⟨singlePieces text, failure, false⟩
      (by rw [← Upstream.map_fst_arrivals, Upstream.arrivals, arrivals_pairedPieces,
        map_fst_paired])
      (by rw [← Upstream.map_fst_arrivals, Upstream.arrivals, arrivals_singlePieces,
        map_fst_singles]) rfl rfl).1
    rw [rawCompactionSSEFrames_eq, rawCompactionSSEFrames_eq] at hframes
    refine scanFramesFrom_ne (by simpa using hshows)
      (List.map_injective_iff.mpr (ofFrame_injective failure) ?_)
    rwa [← arrivals_pairedPieces, ← arrivals_singlePieces]
  intro hnot first second hfirst hsecond hfirstFailure hsecondFailure
  have hbytes : (Reader.new second).bytes = (Reader.new first).bytes := hsecond.trans hfirst.symm
  have hfailure : (Reader.new second).failure = (Reader.new first).failure :=
    hsecondFailure.trans hfirstFailure.symm
  constructor
  · rw [rawCompactionSSEFrames_eq, rawCompactionSSEFrames_eq, hfailure]
    congr 1
    refine scanFramesFrom_of_bytes ?_ ?_
    · rw [Reader.map_fst_arrivals, Reader.map_fst_arrivals, hbytes]
    · rw [Reader.map_fst_arrivals, Reader.bytes_new, hfirst, hnot]
  intro transcript strict _ _ _ _ hone htwo
  rw [delivers_iff] at hone htwo
  have hstream := @stream_withReader (.new first transcript strict) _ hbytes hfailure
    fun _ ↦ (congrArg _ hfirst).trans hnot
  exact Prod.mk.inj (hone.symm.trans (hstream.symm.trans htwo))

def itemFrame : Bytes :=
  bytesOf "event: response.output_item.done\n" ++
    bytesOf "data: \x7b\"type\":\"response.output_item.done\",\"output_index\":0," ++
    bytesOf "\"sequence_number\":1,\"item\":" ++
    bytesOf "\x7b\"id\":\"m\",\"type\":\"message\",\"role\":\"assistant\"\x7d\x7d\n\n"

/-- The first line of the frame that completes the response, up to its carriage return. -/
def completedEvent : Bytes :=
  bytesOf "event: response.completed\r"

def completedRest : Bytes :=
  bytesOf "\ndata: \x7b\"type\":\"response.completed\",\"sequence_number\":2," ++
    bytesOf "\"response\":\x7b\"output\":[" ++
    bytesOf "\x7b\"id\":\"m\",\"type\":\"message\",\"role\":\"assistant\"\x7d]\x7d\x7d\r\n\r\n"

def twoPieces (first second : Bytes) : Upstream ReadError :=
  ⟨(memory first).pieces ++ (memory second).pieces, .eof, false⟩

/-- The same stream in one read, and in two of which the first ends between a carriage return and
its line feed. In two reads no transcript is added. -/
theorem crlf_split_loses_transcript :
    (memory (itemFrame ++ completedEvent ++ completedRest)).bytes =
        (twoPieces (itemFrame ++ completedEvent) completedRest).bytes ∧
      rawCompactionSSEFrames maxRawCompactionSSEPendingBytes
          (.new (memory (itemFrame ++ completedEvent ++ completedRest))) ≠
        rawCompactionSSEFrames maxRawCompactionSSEPendingBytes
          (.new (twoPieces (itemFrame ++ completedEvent) completedRest)) ∧
      ((SSEBody.new (twoPieces (itemFrame ++ completedEvent) completedRest) (bytesOf "t")
        false).reads [5000, 5000, 5000]).1 =
          [(itemFrame ++ completedEvent ++ [0x0A], none), (completedRest.tail, none),
            ([], some .eof)] ∧
      ((SSEBody.new (memory (itemFrame ++ completedEvent ++ completedRest)) (bytesOf "t")
        false).reads [5000, 5000]).1.map Prod.snd = [none, some .eof] ∧
      ((SSEBody.new (memory (itemFrame ++ completedEvent ++ completedRest)) (bytesOf "t")
        false).reads [5000, 5000]).1.flatMap Prod.fst ≠ itemFrame ++
          completedEvent ++ completedRest := by
  decide +kernel

end Clyde.Codex
