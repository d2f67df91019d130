import Clyde.Codex.SseBody

/-!
# What an unchanged stream delivers

As long as the transcript is not appended, the body delivers what it receives. The only frames that
change their place are those of comments, which go ahead of the item that is held back when they
come. A `Block` is a part of the stream in the order it is received and in the order it is
delivered; a text with a held item in it is one block.

`Tracks` is the invariant: what has been received is a list of blocks, the frames held back, and
what the reader has yet to read; what has been delivered or is pending is what these blocks deliver
and the comments among the frames held back. `unmutated_reads_deliver` is the result for any
sequence of calls.
-/

set_option autoImplicit false

namespace Clyde.Codex

open Foundation ByteCodec Text BufferedReader SSEBody List

/-! ### Blocks -/

/-- What the body's reader can return as one frame. -/
def IsFrame (frame : Bytes) : Prop :=
  ∃ (reader left : Reader ReadError) (oversized : Bool),
    readRawCompactionSSEFrame reader maxRawCompactionSSEPendingBytes =
      (⟨frame, none, oversized⟩, left)

/-- An item that is held back, with the frames that come while it is. -/
structure HeldItem where
  candidate : Bytes
  frames : List Bytes
  is_item : rawSSEFrameEvent candidate = bytesOf "response.output_item.done"
  are_frames : ∀ frame ∈ candidate :: frames, IsFrame frame

/-- A part of the stream. -/
inductive Block where
  | plain (bytes : Bytes)
  | held (item : HeldItem)

def comments (frames : List Bytes) : Bytes := (frames.filter isComment).flatten

def contents (frames : List Bytes) : Bytes := (frames.filter fun frame ↦ !isComment frame).flatten

def Block.received : Block → Bytes
  | .plain bytes => bytes
  | .held item => item.candidate ++ item.frames.flatten

/-- A part as it is delivered: the comments go ahead. -/
def Block.delivered : Block → Bytes
  | .plain bytes => bytes
  | .held item => comments item.frames ++ item.candidate ++ contents item.frames

def received (blocks : List Block) : Bytes := blocks.flatMap Block.received

def delivered (blocks : List Block) : Bytes := blocks.flatMap Block.delivered

variable (first second : List Block)

@[simp] theorem received_append :
    received (first ++ second) = received first ++ received second := by
  simp [received]

@[simp] theorem delivered_append :
    delivered (first ++ second) = delivered first ++ delivered second := by
  simp [delivered]

@[simp] theorem received_plain (bytes : Bytes) : received [.plain bytes] = bytes := by
  simp [received, Block.received]

@[simp] theorem delivered_plain (bytes : Bytes) : delivered [.plain bytes] = bytes := by
  simp [delivered, Block.delivered]

variable (frames : List Bytes)

@[simp] theorem comments_append (frame : Bytes) :
    comments (frames ++ [frame]) = comments frames ++ if isComment frame then frame else [] := by
  unfold comments
  split <;> simp_all

@[simp] theorem contents_append (frame : Bytes) :
    contents (frames ++ [frame]) = contents frames ++ if isComment frame then [] else frame := by
  unfold contents
  split <;> simp_all

theorem length_comments_add :
    (comments frames).length + (contents frames).length = frames.flatten.length := by
  induction frames with
  | nil => rfl
  | cons frame _ ih =>
    simp only [comments, contents, flatten_cons, length_append] at ih ⊢
    cases hcomment : isComment frame <;>
      simp only [filter_cons, hcomment, Bool.not_true, Bool.not_false, if_true, if_false,
        Bool.false_eq_true, flatten_cons, length_append] <;> omega

theorem length_delivered (blocks : List Block) :
    (delivered blocks).length = (received blocks).length := by
  induction blocks with
  | nil => rfl
  | cons block _ ih =>
    have hblock : block.delivered.length = block.received.length := by
      cases block with
      | plain => rfl
      | held item =>
        have hlength := length_comments_add item.frames
        simp only [Block.delivered, Block.received, length_append]
        omega
    simp only [delivered, received, flatMap_cons, length_append] at ih ⊢
    omega

/-! ### The invariant -/

/-- A text is what some blocks receive, what the body holds back, and the rest; what they deliver
has been sent. -/
structure Splits (text sent rest : Bytes) (body : SSEBody) : Prop where
  is_item : body.candidate ≠ [] →
    rawSSEFrameEvent body.candidate = bytesOf "response.output_item.done" ∧ IsFrame body.candidate
  split : ∃ blocks frames, text = received blocks ++ body.candidate ++ frames.flatten ++ rest ∧
    sent = delivered blocks ++ comments frames ∧
    body.following = contents frames ∧ (body.candidate = [] → frames = []) ∧
    ∀ frame ∈ frames, IsFrame frame

/-- What has been sent or is pending is what the bytes read so far deliver. -/
structure Tracks (text : Bytes) (failure : ReadError) (sent : Bytes) (body : SSEBody) : Prop where
  failure_eq : body.reader.failure = failure
  /-- An error waits only at the end. -/
  ended : ∀ error, body.pendingErr = some error →
    error.root = failure.root ∧ body.reader.bytes = [] ∧ body.candidate = []
  passing : body.disabled = true → body.candidate = []
  splits : Splits text (sent ++ body.pending) body.reader.bytes body

theorem tracks_new (upstream : Upstream ReadError) (transcript : Bytes) (strict : Bool) :
    Tracks upstream.bytes upstream.failure [] (.new upstream transcript strict) where
  failure_eq := rfl
  ended := by simp [SSEBody.new]
  passing := by simp [SSEBody.new]
  splits :=
    ⟨by simp [SSEBody.new], [], [], by simp [received, SSEBody.new], rfl, rfl, fun _ ↦ rfl, by simp⟩

section

variable {text sent rest : Bytes} {failure : ReadError} {body : SSEBody}

theorem Splits.flushed (hsplits : Splits text sent rest body) :
    ∃ blocks, text = received blocks ++ rest ∧
      sent ++ (body.candidate ++ body.following) = delivered blocks := by
  obtain ⟨hitem, blocks, frames, rfl, rfl, hfollowing, hempty, hframes⟩ := hsplits
  by_cases hheld : body.candidate = []
  · obtain rfl := hempty hheld
    exact ⟨blocks, by simp [hheld], by simp [hheld, hfollowing, contents, comments]⟩
  · obtain ⟨hevent, hcandidate⟩ := hitem hheld
    exact ⟨blocks ++ [.held ⟨body.candidate, frames, hevent,
      forall_mem_cons.mpr ⟨hcandidate, hframes⟩⟩],
      by simp [received, Block.received], by simp [delivered, Block.delivered, hfollowing]⟩

theorem Splits.of_blocks (blocks : List Block) (hcandidate : body.candidate = [])
    (hfollowing : body.following = []) (htext : text = received blocks ++ rest)
    (hsent : sent = delivered blocks) : Splits text sent rest body :=
  ⟨fun hne ↦ absurd hcandidate hne, blocks, [],
    by simp [htext, hcandidate], by simp [hsent, comments],
    by simp [hfollowing, contents], fun _ ↦ rfl, by simp⟩

variable {left : SSEBody}

/-- Handling a frame without a rewrite keeps what was sent and what is held in step with the input.
-/
theorem tracks_handles {frame : Bytes} {readErr : Option ReadError}
    (hhandles : Handles frame readErr body left) (hunmutated : left.mutated = false)
    (hfailure : body.reader.failure = failure) (hpending : body.pending = [])
    (hpendingErr : body.pendingErr = none) (hdisabled : body.disabled = false)
    (hended : ∀ error, readErr = some error → error = failure ∧ body.reader.bytes = [])
    (hframe : readErr = none → IsFrame frame)
    (hsplits : Splits text sent (frame ++ body.reader.bytes) body) :
    Tracks text failure sent left := by
  have hroot (error : ReadError) (herror : readErr = some error) :
      error.root = failure.root ∧ body.reader.bytes = [] ∧ [] = ([] : Bytes) :=
    ⟨congrArg ReadError.root (hended error herror).1, (hended error herror).2, rfl⟩
  obtain ⟨blocks, htext, hsent⟩ := hsplits.flushed
  obtain ⟨hitem, held, frames, hheldText, hheldSent, hfollowing, hempty, hframes⟩ := hsplits
  have hlonger (hnone : readErr = none) : ∀ other ∈ frames ++ [frame], IsFrame other :=
    forall_mem_append.mpr ⟨hframes, forall_mem_singleton.mpr (hframe hnone)⟩
  have hnothing : body.candidate = [] → body.following = [] := fun hcandidate ↦ by
    rw [hfollowing, hempty hcandidate]
    rfl
  cases hhandles with
  | queue hplain =>
    by_cases hcandidate : body.candidate = []
    · refine ⟨hfailure, fun error herror ↦
        ⟨(hroot error herror).1, (hroot error herror).2.1, hcandidate⟩,
        fun _ ↦ hcandidate, Splits.of_blocks (blocks ++ [.plain frame]) hcandidate
          (hnothing hcandidate) (by simp [htext, queueSSEBytes]) ?_⟩
      rw [delivered_append, ← hsent, hcandidate, hnothing hcandidate]
      simp [queueSSEBytes]
    · -- Comments go ahead of what is held back.
      obtain ⟨rfl, hcomment⟩ := hplain.resolve_left hcandidate
      exact ⟨hfailure, by simp [queueSSEBytes], by simp [queueSSEBytes, hdisabled], hitem, held,
        frames ++ [frame], by simp [hheldText, queueSSEBytes],
        by simp [hheldSent, queueSSEBytes, hcomment], by simp [hfollowing, queueSSEBytes, hcomment],
        fun hnil ↦ absurd hnil hcandidate, hlonger rfl⟩
  | failOpen =>
    refine ⟨hfailure, hroot, fun _ ↦ rfl, Splits.of_blocks (blocks ++ [.plain frame]) rfl rfl
      (by simp [htext, failOpenSSE]) ?_⟩
    rw [delivered_append, ← hsent]
    simp [failOpenSSE]
  | hold hheld hnone hcomment =>
    exact ⟨hfailure, by simp [hpendingErr], by simp [hdisabled], hitem, held, frames ++ [frame],
      by simp [hheldText], by simp [hpending, hheldSent, hcomment], by simp [hfollowing, hcomment],
      fun hnil ↦ absurd hnil hheld, hlonger hnone⟩
  | start hnone hevent =>
    refine ⟨hfailure, by simp [hpendingErr], by simp [hdisabled], fun _ ↦ ⟨hevent,
      hframe hnone⟩, blocks,
      [], by simp [htext], ?_, rfl, fun _ ↦ rfl, by simp⟩
    rw [← hsent]
    split
    · rename_i hcandidate
      simp [hcandidate, hnothing hcandidate, hpending, comments]
    · simp [comments]
  | complete replacement _ hnone =>
    have hreplacement : replacement = body.candidate ++ body.following ++ frame := by
      simpa using (Bool.or_eq_false_iff.mp hunmutated).2
    refine ⟨hfailure, by simp [hnone], fun _ ↦ rfl,
      Splits.of_blocks (blocks ++ [.plain frame]) rfl rfl (by simp [htext]) ?_⟩
    rw [delivered_append, ← hsent]
    simp [hreplacement]

/-- Nothing is left to read or to deliver. -/
structure Finished (body : SSEBody) : Prop where
  bytes : body.reader.bytes = []
  candidate : body.candidate = []
  pending : body.pending = []

variable {result : Option ReadError}

/-- Loading keeps the invariant. Assumes: nothing is pending. An error that it returns is the
upstream's, and then nothing is left. -/
theorem tracks_loadNextFrame (htracks : Tracks text failure sent body)
    (hpending : body.pending = []) (hpendingErr : body.pendingErr = none)
    (hload : body.loadNextFrame = (result, left)) (hunmutated : left.mutated = false) :
    Tracks text failure sent left ∧
      ∀ error, result = some error → error.root = failure.root ∧ Finished left := by
  have hsplits := htracks.splits
  rw [hpending, append_nil] at hsplits
  rcases loadNextFrame_cases body with ⟨hdisabled, hpass⟩ | ⟨read, reader, hdisabled, hread, hcases⟩
  · have hcandidate := htracks.passing hdisabled
    obtain ⟨blocks, htext, hsent⟩ := hsplits.flushed
    obtain ⟨-, -, _, -, -, hfollowing, hempty, -⟩ := hsplits
    have hnothing : body.following = [] := by
      rw [hfollowing, hempty hcandidate]
      rfl
    rw [hcandidate, hnothing, append_nil, append_nil] at hsent
    rw [hpass] at hload
    rcases loadPassthroughBytes_cases body with
      ⟨reader, hstuck, hbytes, hleft, hfailure⟩ | ⟨chunk, error, reader, hmore, -,
        hchunk, hfailure, herror⟩
    · obtain ⟨rfl, rfl⟩ := Prod.mk.inj (hload.symm.trans hstuck)
      refine ⟨⟨hfailure.trans htracks.failure_eq, by simp [hpendingErr], fun _ ↦ hcandidate,
        Splits.of_blocks blocks hcandidate hnothing (by simp [htext, hleft, hbytes])
          (by simp [hpending, hsent])⟩, ?_⟩
      rintro reported ⟨⟩
      exact ⟨by rw [root_passthroughError, htracks.failure_eq], hleft, hcandidate, hpending⟩
    obtain ⟨rfl, rfl⟩ := Prod.mk.inj (hload.symm.trans hmore)
    refine ⟨⟨hfailure.trans htracks.failure_eq, fun reported hreported ↦ ?_, fun _ ↦ hcandidate,
      Splits.of_blocks (blocks ++ [.plain chunk]) hcandidate hnothing
        (by simp [htext, ← hchunk]) (by simp [hsent])⟩, by simp⟩
    obtain ⟨rfl, hend⟩ := herror reported hreported
    exact ⟨by rw [root_passthroughError, htracks.failure_eq], hend, hcandidate⟩
  obtain ⟨hbytes, hfailure, _, herror⟩ := readFrame_conserves hread
  rw [← hbytes] at hsplits
  have hended (error : ReadError) (hreported : read.error = some error) :
      error = failure ∧ reader.bytes = [] :=
    ⟨(herror error hreported).1.trans htracks.failure_eq, (herror error hreported).2⟩
  rcases hcases with ⟨hnil, hflush⟩ | ⟨-, _, hnext, hhandles⟩
  · rw [hnil, nil_append] at hsplits
    rw [hflush, flushCandidateAtEOF] at hload
    split at hload
    · rename_i hcandidate
      cases hload
      refine ⟨⟨hfailure.trans htracks.failure_eq, by simp [hpendingErr], fun _ ↦ hcandidate,
        ⟨hsplits.is_item, by simpa [hpending] using hsplits.split⟩⟩, fun error hreported ↦ ?_⟩
      exact ⟨congrArg ReadError.root (hended error hreported).1, (hended error hreported).2,
        hcandidate, hpending⟩
    cases hload
    obtain ⟨blocks, htext, hsent⟩ := hsplits.flushed
    refine ⟨⟨hfailure.trans htracks.failure_eq, fun error hreported ↦ ?_, fun _ ↦ rfl,
      Splits.of_blocks blocks rfl rfl htext hsent⟩, by simp⟩
    exact ⟨congrArg ReadError.root (hended error hreported).1, (hended error hreported).2, rfl⟩
  · obtain ⟨rfl, rfl⟩ := Prod.mk.inj (hload.symm.trans hnext)
    exact ⟨tracks_handles hhandles hunmutated (hfailure.trans htracks.failure_eq) hpending
      hpendingErr hdisabled hended
        (fun hnone ↦ ⟨body.reader, reader, read.oversized, by rw [hread, ← hnone]⟩)
      ⟨hsplits.is_item, hsplits.split⟩, by simp⟩

theorem mutated_of_loadNextFrame
    (hload : body.loadNextFrame = (result, left)) (hunmutated : left.mutated = false) :
    body.mutated = false := by
  rcases loadNextFrame_cases body with ⟨-, hpass⟩ | ⟨_, _, -, -,
    ⟨-, hflush⟩ | ⟨-, _, hnext, hhandles⟩⟩
  · rw [hpass, loadPassthroughBytes] at hload
    dsimp only at hload
    split at hload <;> (obtain ⟨-, rfl⟩ := Prod.mk.inj hload; exact hunmutated)
  · rw [hflush, flushCandidateAtEOF] at hload
    split at hload <;> (obtain ⟨-, rfl⟩ := Prod.mk.inj hload; exact hunmutated)
  · obtain ⟨-, rfl⟩ := Prod.mk.inj (hload.symm.trans hnext)
    exact hhandles.mutated hunmutated

theorem mutated_of_fill (hunmutated : body.fill.2.mutated = false) : body.mutated = false := by
  fun_induction fill body with
  | case1 => exact hunmutated
  | case2 => exact hunmutated
  | case3 body _ _ _ left hload => exact mutated_of_loadNextFrame hload hunmutated
  | case4 _ _ _ _ hload ih => exact mutated_of_loadNextFrame hload (ih hunmutated)

section

variable (htracks : Tracks text failure sent body)
include htracks

/-- Filling keeps the invariant. It ends with something to deliver, or with the upstream's error
once nothing is left. -/
theorem tracks_fill (hunmutated : body.fill.2.mutated = false) :
    Tracks text failure sent body.fill.2 ∧ (body.fill.1 = none → body.fill.2.pending ≠ []) ∧
      ∀ error, body.fill.1 = some error → error.root = failure.root ∧ Finished body.fill.2 := by
  fun_induction fill body with
  | case1 body hpending => exact ⟨htracks, fun _ ↦ hpending, by simp⟩
  | case2 body hpending error hpendingErr =>
    obtain ⟨hroot, hbytes, hcandidate⟩ := htracks.ended error hpendingErr
    refine ⟨⟨htracks.failure_eq, by simp, htracks.passing, htracks.splits.is_item,
      htracks.splits.split⟩, by simp, ?_⟩
    rintro _ ⟨⟩
    exact ⟨hroot, hbytes, hcandidate, by simpa using hpending⟩
  | case3 body hpending hpendingErr _ left hload =>
    obtain ⟨hleft, herror⟩ :=
      tracks_loadNextFrame htracks (by simpa using hpending) hpendingErr hload
      hunmutated
    exact ⟨hleft, by simp, herror⟩
  | case4 _ hpending hpendingErr _ hload ih =>
    have hleft := (tracks_loadNextFrame htracks (by simpa using hpending) hpendingErr hload
      (mutated_of_fill hunmutated)).1
    exact ih hleft hunmutated

theorem Tracks.length_eq :
    sent.length + (body.pending.length + (body.candidate.length + body.following.length) +
      body.reader.bytes.length) = text.length := by
  obtain ⟨_, htext, hsent⟩ := htracks.splits.flushed
  have hlength := congrArg List.length hsent
  rw [length_delivered] at hlength
  have htotal := congrArg List.length htext
  simp only [length_append] at hlength htotal
  omega

theorem Tracks.length_of_finished (hfinished : Finished body) : sent.length = text.length := by
  obtain ⟨-, -, _, -, -, hfollowing, hempty, -⟩ := htracks.splits
  have hlength := htracks.length_eq
  rw [hfollowing, hempty hfinished.candidate, hfinished.bytes, hfinished.candidate,
    hfinished.pending] at hlength
  simpa [contents] using hlength

theorem Tracks.whole :
    ∃ blocks, received blocks = text ∧ sent <+: delivered blocks ∧
      (text.length ≤ sent.length → sent = delivered blocks) := by
  obtain ⟨blocks, htext, hsent⟩ := htracks.splits.flushed
  have hreceived : received (blocks ++ [.plain body.reader.bytes]) = text := by
    rw [received_append, received_plain, htext]
  have hfront : sent <+: delivered (blocks ++ [.plain body.reader.bytes]) := by
    rw [delivered_append, ← hsent, append_assoc, append_assoc]
    exact prefix_append _ _
  refine ⟨_, hreceived, hfront, fun hall ↦ hfront.eq_of_length_le ?_⟩
  rwa [length_delivered, hreceived]

end

/-- A call keeps the invariant. It returns a byte if it is asked for one and there is one, and
otherwise the upstream's error. -/
theorem tracks_read {size : ℕ} (htracks : Tracks text failure sent body)
    (hunmutated : (body.read size).2.mutated = false) :
    Tracks text failure (sent ++ (body.read size).1.1) (body.read size).2 ∧
      (0 < size → (body.read size).1.2 = none → (body.read size).1.1 ≠ []) ∧
      ∀ error, (body.read size).1.2 = some error →
        error.root = failure.root ∧ (sent ++ (body.read size).1.1).length = text.length := by
  unfold SSEBody.read at hunmutated ⊢
  by_cases hsize : size = 0
  · rw [if_pos hsize]
    exact ⟨by simpa using htracks, fun hpos ↦ absurd hsize hpos.ne', by simp⟩
  rw [if_neg hsize] at hunmutated ⊢
  have hfill := @tracks_fill text sent failure body htracks
  rcases hfilled : body.fill with ⟨result, _⟩
  rw [hfilled] at hfill hunmutated
  cases result with
  | some error =>
    obtain ⟨hleft, -, herror⟩ := hfill hunmutated
    refine ⟨by simpa using hleft, by simp, ?_⟩
    rintro _ ⟨⟩
    obtain ⟨hroot, hfinished⟩ := herror error rfl
    exact ⟨hroot, by simpa using hleft.length_of_finished hfinished⟩
  | none =>
    obtain ⟨hleft, hpending, -⟩ := hfill hunmutated
    refine ⟨⟨hleft.failure_eq, hleft.ended, hleft.passing, hleft.splits.is_item, ?_⟩,
      fun _ _ ↦ ?_, by simp⟩
    · simpa [append_assoc] using hleft.splits.split
    · simp [hsize, hpending rfl]

end

/-! ### Sequences of calls -/

/-- What a sequence of calls delivers. -/
def deliveredBy (results : List (Bytes × Option ReadError)) : Bytes := results.flatMap Prod.fst

variable {body : SSEBody}

theorem mutated_of_read {size : ℕ} (hunmutated : (body.read size).2.mutated = false) :
    body.mutated = false := by
  unfold SSEBody.read at hunmutated
  split at hunmutated
  · exact hunmutated
  · refine mutated_of_fill ?_
    split at hunmutated <;> rename_i hfill <;> rw [hfill] <;> exact hunmutated

theorem mutated_of_reads {sizes : List ℕ}
    (hunmutated : (body.reads sizes).2.mutated = false) : body.mutated = false := by
  induction sizes generalizing body with
  | nil => exact hunmutated
  | cons _ _ ih => exact mutated_of_read (ih hunmutated)

/-- An error among the results is the upstream's, and then everything has been delivered; without
one, every call that asks for a byte has delivered one. -/
theorem tracks_reads {text sent : Bytes} {failure : ReadError} {sizes : List ℕ}
    (htracks : Tracks text failure sent body) (hunmutated : (body.reads sizes).2.mutated = false) :
    Tracks text failure (sent ++ deliveredBy (body.reads sizes).1) (body.reads sizes).2 ∧
      (∀ result ∈ (body.reads sizes).1, ∀ error, result.2 = some error → error.root = failure.root ∧
          text.length ≤ (sent ++ deliveredBy (body.reads sizes).1).length) ∧
      ((∀ result ∈ (body.reads sizes).1, result.2 = none) →
        (sizes.filter (0 < ·)).length ≤ (deliveredBy (body.reads sizes).1).length) := by
  induction sizes generalizing body sent with
  | nil => exact ⟨by simpa [reads, deliveredBy] using htracks, by simp [reads], by simp⟩
  | cons size sizes ih =>
    obtain ⟨hleft, hprogress, herror⟩ := tracks_read htracks (mutated_of_reads hunmutated)
    obtain ⟨hlast, herrors, hcount⟩ := ih hleft hunmutated
    have hdelivered : deliveredBy (body.reads (size :: sizes)).1 =
        (body.read size).1.1 ++ deliveredBy ((body.read size).2.reads sizes).1 := rfl
    rw [hdelivered, ← append_assoc]
    refine ⟨hlast, ?_, ?_⟩
    · intro result hresult error hreported
      rcases mem_cons.mp hresult with rfl | hmem
      · obtain ⟨hroot, _⟩ := herror error hreported
        refine ⟨hroot, ?_⟩
        rw [length_append]
        omega
      · exact herrors result hmem error hreported
    intro hnone
    have hhead := hnone _ mem_cons_self
    have hrest := hcount fun result hmem ↦ hnone result (mem_cons_of_mem _ hmem)
    rw [length_append]
    by_cases hpos : 0 < size
    · have hchunk := length_pos_iff.mpr (hprogress hpos hhead)
      rw [filter_cons_of_pos (by simpa using hpos), length_cons]
      omega
    · rw [filter_cons_of_neg (by simpa using hpos)]
      omega

/-- Assumes: the transcript has not been appended. What any calls have delivered is the front of
what some blocks of the stream deliver: its bytes in order, but for comments that go ahead of a held
item. An error that a call returns is the upstream's, and then everything has been delivered; it
comes when the calls have asked for more bytes than there are. -/
theorem unmutated_reads_deliver (upstream : Upstream ReadError) (transcript : Bytes) (strict : Bool)
    (sizes : List ℕ)
    (hunmutated : ((SSEBody.new upstream transcript strict).reads sizes).2.mutated = false) :
    ∃ blocks, received blocks = upstream.bytes ∧
      deliveredBy ((SSEBody.new upstream transcript strict).reads sizes).1 <+: delivered blocks ∧
      (∀ result ∈ ((SSEBody.new upstream transcript strict).reads sizes).1,
        ∀ error, result.2 = some error → error.root = upstream.failure.root ∧
          deliveredBy ((SSEBody.new upstream transcript strict).reads sizes).1 = delivered blocks) ∧
      (upstream.bytes.length < (sizes.filter (0 < ·)).length →
        ∃ result ∈ ((SSEBody.new upstream transcript strict).reads sizes).1, result.2.isSome) := by
  obtain ⟨hlast, herrors, hcount⟩ := tracks_reads (tracks_new upstream transcript strict) hunmutated
  rw [nil_append] at hlast herrors
  obtain ⟨blocks, hreceived, hfront, hall⟩ := hlast.whole
  refine ⟨blocks, hreceived, hfront, fun result hresult error hreported ↦ ?_, fun hmany ↦ ?_⟩
  · obtain ⟨hroot, hlength⟩ := herrors result hresult error hreported
    exact ⟨hroot, hall hlength⟩
  by_contra hnone
  push Not at hnone
  have hfew := hcount fun result hmem ↦ by simpa using hnone result hmem
  have hle := hlast.length_eq
  omega

/-- The frame of an item. -/
def bareItemFrame : Bytes :=
  bytesOf ("event: response.output_item.done\ndata: \x7b\"type\":\"response.output_item.done\"," ++
    "\"item\":\x7b\"type\":\"message\",\"role\":\"assistant\"\x7d\x7d\n\n")

/-- An item, a comment and the end of the stream, which all arrive together. -/
def commentAfterItem : Upstream ReadError := memory (bareItemFrame ++ bytesOf ": wait\n\n")

theorem unmutated_reads_deliver_sample :
    deliveredBy ((SSEBody.new commentAfterItem (bytesOf "t") false).reads [9, 200, 200]).1 =
        bytesOf ": wait\n\n" ++ bareItemFrame ∧
      ∃ blocks, received blocks = commentAfterItem.bytes ∧
        deliveredBy ((SSEBody.new commentAfterItem (bytesOf "t") false).reads [9, 200, 200]).1 <+:
          delivered blocks :=
  ⟨by decide +kernel,
    (unmutated_reads_deliver commentAfterItem (bytesOf "t") false [9, 200, 200]
      (by decide +kernel)).imp fun _ hblocks ↦ ⟨hblocks.1, hblocks.2.1⟩⟩

end Clyde.Codex
