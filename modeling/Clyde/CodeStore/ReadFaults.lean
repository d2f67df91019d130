import Clyde.CodeStore.Replay

/-!
# Reads of the row log that fail

`codestore/collection.go`, `replay`: the reads can fail for another reason than the end of the file.
`replayReads` lists them in order, and `LogRead.error` is the error that reports one. A read that
fails ends the replay with its error and the log keeps its bytes (`rejectReads_failed`), except for
a header: it is taken for a torn append, the log is cut there and the replay succeeds.
-/

set_option autoImplicit false

namespace Clyde.CodeStore

open Foundation ByteCodec List

/-- A read of the row log, by the position where it starts. The read of a payload has the offset of
its record. -/
inductive LogRead
  | header (offset : ℕ)
  | payload (offset start : ℕ)
  | tail (start : ℕ)
  | window (start : ℕ)
  | copy (start : ℕ)

def LogFaults.fails (faults : LogFaults) : LogRead → Bool
  | .header offset => faults.header offset
  | .payload _ start => faults.payload start
  | .tail start => faults.tail start
  | .window start => faults.window start
  | .copy start => faults.copy start

def LogRead.error : LogRead → Failure
  | .header offset => .readRowLog offset
  | .payload offset _ => .readRowLog offset
  | .tail start => .readTail start
  | .window start => .readTail start
  | .copy start => .readPayload start

def contentEndReads (faults : LogFaults) (log : Bytes) (offset chunkEnd : ℕ) : List LogRead :=
  if _hmore : offset < chunkEnd ∧ chunkEnd ≤ log.length then
    let chunkStart := max offset (chunkEnd - min bufferBytes (log.length - offset))
    .tail chunkStart ::
      if faults.tail chunkStart then []
      else
        match lastNonzero (readAt log chunkStart (chunkEnd - chunkStart))
          (chunkEnd - chunkStart) with
        | some _ => []
        | none => contentEndReads faults log offset chunkStart
  else []
termination_by chunkEnd - offset
decreasing_by
  have hpos := bufferBytes_pos
  omega

variable {faults : LogFaults} {read : LogRead} {log : Bytes} {offset : ℕ}

/-- A failing read of the search from the back fails the search with that read's error. -/
theorem contentEndLoop_failed {chunkEnd : ℕ} (hend : chunkEnd ≤ log.length)
    (hread : read ∈ contentEndReads faults log offset chunkEnd)
    (hfails : faults.fails read = true) :
    contentEndLoop faults log offset chunkEnd hend = .error read.error ∧
      ∀ start, read ≠ .header start := by
  induction hsize : chunkEnd - offset using Nat.strong_induction_on generalizing chunkEnd with
  | _ _ ih =>
    have hpos := bufferBytes_pos
    rw [contentEndReads] at hread
    split_ifs at hread with hmore
    · rw [contentEndLoop, dif_pos hmore.1]
      rcases mem_cons.mp hread with rfl | hread
      · simp only [LogFaults.fails] at hfails
        simp [hfails, LogRead.error]
      split_ifs at hread with htail
      · cases hread
      simp only [if_neg htail]
      generalize lastNonzero _ _ = last at hread ⊢
      cases last with
      | some => simp at hread
      | none => exact ih _ (by omega) _ hread rfl
    · cases hread

section

variable [Externals]

open Externals (checksumIEEE)

def scanWindowReads (faults : LogFaults) (format : ℕ) (log window : Bytes)
    (windowStart lastStart frameStart : ℕ) : List LogRead :=
  if frameStart < lastStart then
    let payloadStart := frameStart + frameHeaderSize format
    if log.length < payloadStart then []
    else
      let header := parseFrameHeader format
        ((window.drop (frameStart - windowStart)).take (payloadStart - frameStart))
      if ¬header.lengthValid ∨ header.length = 0 ∨ log.length < payloadStart + header.length then
        scanWindowReads faults format log window windowStart lastStart (frameStart + 1)
      else
        .copy payloadStart ::
          if faults.copy payloadStart then []
          else if payloadMatches log payloadStart header.length header.payloadChecksum then []
          else scanWindowReads faults format log window windowStart lastStart (frameStart + 1)
  else []
termination_by lastStart - frameStart

/-- A failing read of the window search fails the search with that read's error. -/
theorem scanWindow_failed {format : ℕ} {window : Bytes} {windowStart lastStart frameStart : ℕ}
    (hread : read ∈ scanWindowReads faults format log window windowStart lastStart frameStart)
    (hfails : faults.fails read = true) :
    scanWindow faults format log window windowStart lastStart frameStart = .failed read.error ∧
      ∀ start, read ≠ .header start := by
  induction hsize : lastStart - frameStart generalizing frameStart with
  | zero =>
    rw [scanWindowReads, if_neg (by omega)] at hread
    cases hread
  | succ _ ih =>
    rw [scanWindowReads, if_pos (by omega)] at hread
    rw [scanWindow, if_pos (by omega)]
    simp only at hread ⊢
    split_ifs at hread ⊢ with hshort hskip hcopy hfound
    · cases hread
    · exact ih hread (by omega)
    · obtain rfl : read = .copy _ := by simpa using hread
      exact ⟨rfl, by simp⟩
    · obtain rfl : read = .copy _ := by simpa using hread
      exact absurd hfails hcopy
    · rcases mem_cons.mp hread with rfl | hread
      · exact absurd hfails hcopy
      · exact ih hread (by omega)

def validFrameReads (faults : LogFaults) (format : ℕ) (log : Bytes) (starts : ℕ)
    (hstarts : 0 < starts) (contentEnd windowStart : ℕ) : List LogRead :=
  if windowStart < contentEnd then
    let windowEnd := min (windowStart + (starts + frameHeaderSize format)) log.length
    .window windowStart ::
      if faults.window windowStart then []
      else
        let window := readAt log windowStart (windowEnd - windowStart)
        let lastStart := min (windowStart + starts) contentEnd
        scanWindowReads faults format log window windowStart lastStart windowStart ++
          match scanWindow faults format log window windowStart lastStart windowStart with
          | .exhausted =>
            validFrameReads faults format log starts hstarts contentEnd (windowStart + starts)
          | _ => []
  else []
termination_by contentEnd - windowStart

/-- A failing read of any window fails the whole search with that read's error. -/
theorem validFrameLoop_failed {format : ℕ} {starts : ℕ} {hstarts : 0 < starts}
    {contentEnd windowStart : ℕ}
    (hread : read ∈ validFrameReads faults format log starts hstarts contentEnd windowStart)
    (hfails : faults.fails read = true) :
    validFrameLoop faults format log starts hstarts contentEnd windowStart = .error read.error ∧
      ∀ start, read ≠ .header start := by
  induction hsize : contentEnd -
    windowStart using Nat.strong_induction_on generalizing windowStart with
  | _ _ ih =>
    rw [validFrameReads] at hread
    by_cases hmore : windowStart < contentEnd
    swap
    · rw [if_neg hmore] at hread
      cases hread
    rw [if_pos hmore] at hread
    rw [validFrameLoop, if_pos hmore]
    rcases mem_cons.mp hread with rfl | hread
    · simp only [LogFaults.fails] at hfails
      simp [hfails, LogRead.error]
    split_ifs at hread with hwindow
    · cases hread
    simp only [if_neg hwindow]
    rcases mem_append.mp hread with hread | hread
    · obtain ⟨hscan, hheader⟩ := scanWindow_failed hread hfails
      simp only [hscan]
      exact ⟨trivial, hheader⟩
    split at hread
    · next hscan =>
      simp only [hscan]
      exact ih _ (by omega) hread rfl
    · cases hread

def rejectReads (faults : LogFaults) (log : Bytes) (stored : CodeCollection)
    (offset searchStart : ℕ) :
    List LogRead :=
  contentEndReads faults log offset log.length ++
    match contentEnd faults log offset with
    | .error _ => []
    | .ok stop =>
      validFrameReads faults stored.header.frameFormat log bufferBytes
        bufferBytes_pos stop searchStart

variable {stored : CodeCollection}

/-- A failing read while a record is rejected ends the replay and leaves log and handle as they
were. -/
theorem rejectReads_failed {searchStart : ℕ}
    (hread : read ∈ rejectReads faults log stored offset searchStart)
    (hfails : faults.fails read = true) (operation : RejectOperation) :
    rejectRecord faults log stored offset searchStart operation =
        { stored := stored, log := log, failure := some read.error } ∧
          ∀ start, read ≠ .header start := by
  rw [rejectRecord]
  rcases mem_append.mp hread with hread | hread
  · obtain ⟨hend, hheader⟩ := contentEndLoop_failed le_rfl hread hfails
    rw [contentEnd, hend]
    exact ⟨rfl, hheader⟩
  cases hstop : contentEnd faults log offset with
  | error => simp [hstop] at hread
  | ok =>
    rw [hstop] at hread
    obtain ⟨hframe, hheader⟩ := validFrameLoop_failed hread hfails
    simp only [validFrameBetween, hframe]
    exact ⟨trivial, hheader⟩

/-- The reads after the check of a payload: none, unless its checksum does not match. -/
def checkReads (faults : LogFaults) (log : Bytes) (stored : CodeCollection) (offset stop : ℕ)
    (payload : Bytes) (payloadChecksum : ℕ) : List LogRead :=
  if payload.length = 0 ∨ (checksumIEEE payload).toNat ≠ payloadChecksum then
    rejectReads faults log stored offset (searchStart stored offset stop)
  else []

def loopReads (faults : LogFaults) (log : Bytes) (stored : CodeCollection) (offset : ℕ) :
    List LogRead :=
  let format := stored.header.frameFormat
  .header offset ::
    if faults.header offset then []
    else if _hmore : log.length ≤ offset then []
    else if log.length < offset + frameHeaderSize format then []
    else
      let header := headerAt format log offset
      if ¬header.lengthValid then rejectReads faults log stored offset (offset + 1)
      else
        let stop := offset + frameHeaderSize format + header.length
        if log.length < stop then rejectReads faults log stored offset
          (searchStart stored offset stop)
        else
          .payload offset (offset + frameHeaderSize format) ::
            if faults.payload (offset + frameHeaderSize format) then []
            else
              let payload := readAt log (offset + frameHeaderSize format) header.length
              checkReads faults log stored offset stop payload header.payloadChecksum ++
                match checkRecord faults log stored offset stop payload header.payloadChecksum with
                | .stop _ => []
                | .accept record =>
                  match apply stored.width stored.memory record with
                  | (_, some _) => []
                  | (memory, none) =>
                    loopReads faults log { stored with memory := memory, logSize := stop } stop
termination_by log.length - offset
decreasing_by
  have hpos := frameHeaderSize_pos stored.header.frameFormat
  omega

def replayReads (faults : LogFaults) (log : Bytes) (stored : CodeCollection) : List LogRead :=
  if faults.stat then [] else if faults.seek then [] else loopReads faults log stored stored.logSize

/-- At a read that fails, a header counts as a torn append, and every other read ends the replay
with its error. -/
def ReadOutcome (faults : LogFaults) (log : Bytes) (result : Replayed) : LogRead → Prop
  | .header offset => ∃ stored, result = truncateRows faults log stored offset
  | read => result.log = log ∧ result.failure = some read.error

omit [Externals] in
theorem readOutcome_of_error (hheader : ∀ start, read ≠ .header start) :
    ReadOutcome faults log { stored := stored, log := log, failure := some read.error } read := by
  cases read with
  | header offset => exact absurd rfl (hheader offset)
  | payload | tail | window | copy => exact ⟨rfl, rfl⟩

theorem readOutcome_reject {start : ℕ} (hread : read ∈ rejectReads faults log stored offset start)
    (hfails : faults.fails read = true) (operation : RejectOperation) :
    ReadOutcome faults log (rejectRecord faults log stored offset start operation) read := by
  obtain ⟨hresult, hheader⟩ := rejectReads_failed hread hfails operation
  rw [hresult]
  exact readOutcome_of_error hheader

/-- The loop at a read that fails. The induction is on what is left of the log. -/
theorem readOutcome_loop (hread : read ∈ loopReads faults log stored offset)
    (hfails : faults.fails read = true) :
    ReadOutcome faults log (replayLoop faults log stored offset) read := by
  induction hsize : log.length -
    offset using Nat.strong_induction_on generalizing stored offset with
  | _ _ ih =>
    have hpos := frameHeaderSize_pos stored.header.frameFormat
    rw [loopReads] at hread
    rw [replayLoop]
    rcases mem_cons.mp hread with rfl | hread
    · have hheader : faults.header offset = true := hfails
      simp only [hheader, if_true]
      exact ⟨stored, rfl⟩
    simp only at hread ⊢
    by_cases hheader : faults.header offset = true
    · simp [hheader] at hread
    by_cases hmore : log.length ≤ offset
    · simp [hheader, hmore] at hread
    by_cases hshort : log.length < offset + frameHeaderSize stored.header.frameFormat
    · simp [hheader, hmore, hshort] at hread
    rw [if_neg hheader, dif_neg hmore, if_neg hshort] at hread ⊢
    by_cases hvalid : (headerAt stored.header.frameFormat log offset).lengthValid = true
    swap
    · rw [if_pos hvalid] at hread ⊢
      exact readOutcome_reject hread hfails _
    rw [if_neg (not_not.mpr hvalid)] at hread ⊢
    by_cases hend : log.length < offset + frameHeaderSize stored.header.frameFormat +
        (headerAt stored.header.frameFormat log offset).length
    · rw [if_pos hend] at hread ⊢
      exact readOutcome_reject hread hfails _
    rw [if_neg hend] at hread ⊢
    rcases mem_cons.mp hread with rfl | hread
    · have hpayload : faults.payload (offset + frameHeaderSize stored.header.frameFormat) = true :=
        hfails
      rw [if_pos hpayload]
      exact ⟨rfl, rfl⟩
    by_cases hpayload : faults.payload (offset + frameHeaderSize stored.header.frameFormat) = true
    · simp [hpayload] at hread
    rw [if_neg hpayload] at hread ⊢
    rcases mem_append.mp hread with hread | hread
    · rw [checkReads] at hread
      split_ifs at hread with hbad
      · simp only [checkRecord, if_pos hbad]
        exact readOutcome_reject hread hfails _
      · cases hread
    generalize checkRecord faults log stored offset _ _ _ = checked at hread ⊢
    cases checked with
    | stop => simp at hread
    | accept record =>
      dsimp only at hread ⊢
      generalize apply stored.width _ record = applied at hread ⊢
      obtain ⟨_, failure⟩ := applied
      cases failure with
      | some => simp at hread
      | none => exact ih _ (by omega) hread rfl

/-- Every read of a replay that fails is reported, and the row log then keeps every byte, exactly if
no read of a header that the replay carries out fails. -/
theorem failed_reads_reported_iff (faults : LogFaults) (log : Bytes) (stored : CodeCollection) :
    (∀ read ∈ replayReads faults log stored, faults.fails read = true →
      (replay faults log stored).log = log ∧ (replay faults log stored).failure = some read.error) ↔
      ∀ offset, .header offset ∈ replayReads faults log stored → faults.header offset = false := by
  have houtcome : ∀ read ∈ replayReads faults log stored, faults.fails read = true →
      ReadOutcome faults log (replay faults log stored) read := by
    intro read hread hfails
    unfold replayReads at hread
    unfold replay
    split_ifs at hread ⊢
    · cases hread
    · cases hread
    · exact readOutcome_loop hread hfails
  constructor
  · intro hreported offset hread
    by_contra hfails
    have hfails : faults.header offset = true := by simpa using hfails
    obtain ⟨_, hfailure⟩ := hreported _ hread hfails
    obtain ⟨_, hcut⟩ := houtcome _ hread hfails
    rw [hcut, truncateRows] at hfailure
    split_ifs at hfailure
    simp [LogRead.error] at hfailure
  intro hheaders read hread hfails
  have hread' := houtcome read hread hfails
  cases read with
  | header offset =>
    rw [LogFaults.fails, hheaders offset hread] at hfails
    cases hfails
  | payload | tail | window | copy => exact hread'

end

def firstHeaderFails : LogFaults :=
  { LogFaults.none with header := fun offset ↦ offset = 0 }

/-- A log with one complete record: a replay accepts it, and if the read of its header fails, the
replay removes it and reports nothing. -/
theorem header_read_cuts_log :
    (@replay sampleExternals .none [3, 0, 0, 0, 3, 0, 0, 0, 103, 0, 0, 0, 2, 2, 99]
      (sampleHandle frameFormatLengthCRC)).failure = none ∧
    (@replay sampleExternals .none [3, 0, 0, 0, 3, 0, 0, 0, 103, 0, 0, 0, 2, 2, 99]
      (sampleHandle frameFormatLengthCRC)).log = [3, 0, 0, 0, 3, 0, 0, 0, 103, 0, 0, 0, 2, 2, 99] ∧
    (@replay sampleExternals firstHeaderFails [3, 0, 0, 0, 3, 0, 0, 0, 103, 0, 0, 0, 2, 2, 99]
      (sampleHandle frameFormatLengthCRC)).failure = none ∧
    (@replay sampleExternals firstHeaderFails [3, 0, 0, 0, 3, 0, 0, 0, 103, 0, 0, 0, 2, 2, 99]
      (sampleHandle frameFormatLengthCRC)).log = [] := by
  decide +kernel

end Clyde.CodeStore
