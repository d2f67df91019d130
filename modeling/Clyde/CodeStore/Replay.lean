import Clyde.CodeStore.Table

/-!
# Replay of the row log

`codestore/collection.go`, from `replay` to `truncateRows`. Replay reads the row log from the size
that memory already includes, carries out each record, and stops at the end, at a torn record, which
it cuts off, or with an error.

`Accepted` is the chain of records that replay takes from one offset to another. It does not depend
on the rows in memory, so every handle on one log meets the same chain. `replayLoop_cases` is the
inversion: every replay follows a chain and then ends in one of the ways of `ReplayEnd`.
-/

set_option autoImplicit false

namespace Clyde.CodeStore

open Foundation ByteCodec

section

variable [Externals]

open Externals (checksumIEEE)

/-! ### The code -/

structure Replayed where
  stored : CodeCollection
  log : Bytes
  failure : Option Failure

def truncateRows (faults : LogFaults) (log : Bytes) (stored : CodeCollection) (offset : ℕ) :
    Replayed :=
  if faults.truncate then { stored := stored, log := log, failure := some .truncateRowLog }
  else { stored := { stored with logSize := offset }, log := log.take offset, failure := none }

/-- The declared end counts only when the length has a checksum of its own. -/
def searchStart (stored : CodeCollection) (offset stop : ℕ) : ℕ :=
  if stored.header.frameFormat = frameFormatLengthCRC then stop else offset + 1

/-- A torn append is cut off, damage before a later complete frame is an error. -/
def rejectRecord (faults : LogFaults) (log : Bytes) (stored : CodeCollection)
    (offset searchStart : ℕ) (operation : RejectOperation) : Replayed :=
  match contentEnd faults log offset with
  | .error failure => { stored := stored, log := log, failure := some failure }
  | .ok stop =>
    match validFrameBetween faults stored.header.frameFormat log searchStart stop with
    | .error failure => { stored := stored, log := log, failure := some failure }
    | .ok false => truncateRows faults log stored offset
    | .ok true =>
      { stored := stored, log := log, failure := some (.reject operation offset) }

/-- The end of a record's data. The sum is an `int64` and wraps. -/
def RowRecord.dataEnd (record : RowRecord) : ℤ :=
  Int.bmod (record.dataOffset + record.dataLength) (2 ^ 64)

inductive Checked
  | accept (record : RowRecord)
  | stop (result : Replayed)

/-- Checks one payload: its checksum, that it decodes, and that its data is in the data file. -/
def checkRecord (faults : LogFaults) (log : Bytes) (stored : CodeCollection) (offset stop : ℕ)
    (payload : Bytes) (payloadChecksum : ℕ) : Checked :=
  if payload.length = 0 ∨ (checksumIEEE payload).toNat ≠ payloadChecksum then
    .stop (rejectRecord faults log stored offset (searchStart stored offset stop) .checkPayload)
  else
    match decodeRecord payload stored.header.columns with
    | .panic => .stop { stored := stored, log := log, failure := some .panic }
    | .malformed => .stop { stored := stored, log := log, failure := some (.decodeRowLog offset) }
    | .ok record =>
      if record.kind = .upsert ∧ stored.dataSize < record.dataEnd then
        .stop { stored := stored, log := log, failure := some (.dataFileTooShort offset) }
      else .accept record

/-- The loop of `replay`. A read that fails in the header is treated as a short header. -/
def replayLoop (faults : LogFaults) (log : Bytes) (stored : CodeCollection) (offset : ℕ) :
    Replayed :=
  let format := stored.header.frameFormat
  if faults.header offset then truncateRows faults log stored offset
  else if _hmore : log.length ≤ offset then { stored := stored, log := log, failure := none }
  else if log.length < offset + frameHeaderSize format then truncateRows faults log stored offset
  else
    let header := headerAt format log offset
    if ¬header.lengthValid then rejectRecord faults log stored offset (offset + 1) .checkLength
    else
      let stop := offset + frameHeaderSize format + header.length
      if log.length < stop then
        rejectRecord faults log stored offset (searchStart stored offset stop) .checkEnd
      else if faults.payload (offset + frameHeaderSize format) then
        { stored := stored, log := log, failure := some (.readRowLog offset) }
      else
        let payload := readAt log (offset + frameHeaderSize format) header.length
        match checkRecord faults log stored offset stop payload header.payloadChecksum with
        | .stop result => result
        | .accept record =>
          match apply stored.width stored.memory record with
          | (memory, some failure) =>
            { stored := { stored with memory := memory }, log := log, failure := some failure }
          | (memory, none) =>
            replayLoop faults log { stored with memory := memory, logSize := stop } stop
termination_by log.length - offset
decreasing_by
  have hpos := frameHeaderSize_pos stored.header.frameFormat
  omega

def replay (faults : LogFaults) (log : Bytes) (stored : CodeCollection) : Replayed :=
  if faults.stat then { stored := stored, log := log, failure := some .inspectRowLog }
  else if faults.seek then { stored := stored, log := log, failure := some .seekRowLog }
  else replayLoop faults log stored stored.logSize

/-! ### Rejected records -/

/-- A short header, a length that fails its checksum, an end past the log, or a payload that is
empty or fails its checksum. -/
def Rejected (format : ℕ) (log : Bytes) (offset : ℕ) : Prop :=
  offset < log.length ∧ ¬FrameAt format log offset

/-- The declared end when a length checksum passed, else the next byte. -/
def rejectStart (format : ℕ) (log : Bytes) (offset : ℕ) : ℕ :=
  if format = frameFormatLengthCRC ∧ offset + frameHeaderSize format ≤ log.length ∧
      (headerAt format log offset).lengthValid then
    offset + frameHeaderSize format + (headerAt format log offset).length
  else offset + 1

variable {log : Bytes} {offset : ℕ}

/-- An error when a complete frame starts at or after the search start, and otherwise a log that is
cut. An access that fails is an error as well. -/
inductive RejectEnd (faults : LogFaults) (log : Bytes) (stored : CodeCollection)
    (offset searchStart : ℕ) : Replayed → Prop
  | error (operation : RejectOperation)
    (hlater : ∃ start, searchStart ≤ start ∧ FrameAt stored.header.frameFormat log start) :
    RejectEnd faults log stored offset searchStart
      { stored := stored, log := log, failure := some (.reject operation offset) }
  | cut (hlast : ¬∃ start, searchStart ≤ start ∧ FrameAt stored.header.frameFormat log start) :
    RejectEnd faults log stored offset searchStart
      { stored := { stored with logSize := offset }, log := log.take offset, failure := none }
  | failed (failure : Failure) (hfaults : faults ≠ .none) :
    RejectEnd faults log stored offset searchStart
      { stored := stored, log := log, failure := some failure }

variable (faults : LogFaults)

theorem truncateRows_end (stored : CodeCollection) {searchStart : ℕ}
    (hlast : ¬∃ start, searchStart ≤ start ∧ FrameAt stored.header.frameFormat log start) :
    RejectEnd faults log stored offset searchStart (truncateRows faults log stored offset) := by
  unfold truncateRows
  split_ifs with htruncate
  · exact .failed _ (by rintro rfl; simp at htruncate)
  · exact .cut hlast

/-- Each rejection ends in one of three ways: an error because a complete frame follows, a cut log,
or a failed access. -/
theorem rejectRecord_spec (hoffset : offset ≤ log.length) (stored : CodeCollection)
    (searchStart : ℕ) (operation : RejectOperation) : RejectEnd faults log stored offset searchStart
      (rejectRecord faults log stored offset searchStart operation) := by
  obtain ⟨_, _, hend, hframe, hiff⟩ :=
    @frameFound_iff _ _ stored.header.frameFormat _ searchStart hoffset
  unfold rejectRecord
  cases hstop : contentEnd faults log offset with
  | error => exact .failed _ (by rintro rfl; simp [hend] at hstop)
  | ok stop =>
    obtain rfl := Except.ok.inj ((contentEndLoop_none hstop).symm.trans hend)
    simp only
    cases hfound : validFrameBetween faults stored.header.frameFormat log searchStart stop with
    | error => exact .failed _ (by rintro rfl; simp [hframe] at hfound)
    | ok found =>
      obtain rfl := Except.ok.inj ((validFrameLoop_none hfound).symm.trans hframe)
      cases found with
      | true => exact .error operation (hiff.mp rfl)
      | false => exact truncateRows_end faults stored (by simpa using hiff)

theorem not_frameAt_of_short {format : ℕ} {start : ℕ}
    (hshort : log.length < offset + frameHeaderSize format) (hstart : offset ≤ start) :
    ¬FrameAt format log start := by
  intro hframe
  have hinside := hframe.1
  omega

/-- The loop at a rejected record whose header is read. -/
theorem replayLoop_rejected (stored : CodeCollection) (hheader : faults.header offset = false)
    (hrejected : Rejected stored.header.frameFormat log offset) :
    RejectEnd faults log stored offset (rejectStart stored.header.frameFormat log offset)
      (replayLoop faults log stored offset) := by
  obtain ⟨hlt, hnot⟩ := hrejected
  have hreject := rejectRecord_spec faults (Nat.le_of_lt hlt) stored
  rw [replayLoop, if_neg (by simp [hheader]), dif_neg (by omega)]
  generalize hformat : stored.header.frameFormat = format at hnot ⊢
  by_cases hshort : log.length < offset + frameHeaderSize format
  · rw [if_pos hshort, rejectStart, if_neg (by omega)]
    refine truncateRows_end faults stored ?_
    rintro ⟨_, hstart, hframe⟩
    exact absurd hframe (not_frameAt_of_short (hformat ▸ hshort) (by omega))
  rw [if_neg hshort]
  by_cases hvalid : (headerAt format log offset).lengthValid
  · have hstart : rejectStart format log offset = searchStart stored offset
        (offset + frameHeaderSize format + (headerAt format log offset).length) := by
      rw [rejectStart, searchStart, hformat]
      by_cases hcrc : format = frameFormatLengthCRC
      · rw [if_pos hcrc, if_pos ⟨hcrc, by omega, hvalid⟩]
      · rw [if_neg hcrc, if_neg (by tauto)]
    rw [if_neg (not_not.mpr hvalid), hstart]
    by_cases hend : log.length < offset + frameHeaderSize format +
      (headerAt format log offset).length
    · rw [if_pos hend]
      exact hreject _ _
    have hpayload : (readAt log (offset + frameHeaderSize format)
          (headerAt format log offset).length).length = 0 ∨
        (checksumIEEE (readAt log (offset + frameHeaderSize format)
          (headerAt format log offset).length)).toNat ≠
          (headerAt format log offset).payloadChecksum := by
      by_contra hok
      rw [not_or] at hok
      refine hnot ⟨by omega, hvalid, ?_, by omega, by simpa [payloadMatches] using hok.2⟩
      intro hzero
      rw [hzero] at hok
      exact hok.1 (by simp [readAt])
    rw [if_neg hend]
    split_ifs with hread
    · exact .failed _ (by rintro rfl; simp at hread)
    simp only [checkRecord, if_pos hpayload]
    exact hreject _ _
  have hstart : rejectStart format log offset = offset + 1 := by rw [rejectStart, if_neg (by tauto)]
  rw [if_pos hvalid, hstart]
  exact hreject _ _

/-! ### Chains of accepted records -/

/-- What replay reads a record with. -/
structure Reading where
  format : ℕ
  columns : List ScalarColumn
  dataSize : ℕ

/-- What a handle reads records with. -/
def CodeCollection.reading (stored : CodeCollection) : Reading :=
  { format := stored.header.frameFormat, columns := stored.header.columns
    dataSize := stored.dataSize }

def payloadAt (format : ℕ) (log : Bytes) (offset : ℕ) : Bytes :=
  readAt log (offset + frameHeaderSize format) (headerAt format log offset).length

def frameEnd (format : ℕ) (log : Bytes) (offset : ℕ) : ℕ :=
  offset + frameHeaderSize format + (headerAt format log offset).length

variable {stored : CodeCollection}

variable {faults} in
/-- The loop at a complete frame whose header and payload are read. -/
theorem replayLoop_frameAt (hheader : faults.header offset = false)
    (hpayload : faults.payload (offset + frameHeaderSize stored.header.frameFormat) = false)
    (hframe : FrameAt stored.header.frameFormat log offset) :
    replayLoop faults log stored offset =
      match decodeRecord (payloadAt stored.header.frameFormat log offset) stored.header.columns with
      | .panic => { stored := stored, log := log, failure := some .panic }
      | .malformed => { stored := stored, log := log, failure := some (.decodeRowLog offset) }
      | .ok record =>
        if record.kind = .upsert ∧ stored.dataSize < record.dataEnd then
          { stored := stored, log := log, failure := some (.dataFileTooShort offset) }
        else
          match apply stored.width stored.memory record with
          | (memory, some failure) =>
            { stored := { stored with memory := memory }, log := log, failure := some failure }
          | (memory, none) =>
            replayLoop faults log { stored with
                memory := memory
                logSize := frameEnd stored.header.frameFormat log offset }
              (frameEnd stored.header.frameFormat log offset) := by
  obtain ⟨_, hvalid, _, _, hmatches⟩ := hframe
  rw [replayLoop]
  simp only [hheader, Bool.false_eq_true, if_false, hpayload]
  rw [dif_neg (by omega), if_neg (by omega), if_neg (not_not.mpr hvalid), if_neg (by omega)]
  have hchecksum : ¬((payloadAt stored.header.frameFormat log offset).length = 0 ∨
      (checksumIEEE (payloadAt stored.header.frameFormat log offset)).toNat ≠
        (headerAt stored.header.frameFormat log offset).payloadChecksum) := by
    rw [not_or, payloadAt]
    refine ⟨?_, by simpa [payloadMatches] using hmatches⟩
    simp only [readAt, List.length_take, List.length_drop]
    omega
  rw [← payloadAt]
  simp only [checkRecord, if_neg hchecksum, frameEnd]
  cases decodeRecord (payloadAt stored.header.frameFormat log offset) stored.header.columns with
  | panic | malformed => rfl
  | ok =>
    simp only
    split_ifs <;> rfl

/-- The record at an offset is accepted and ends at a position. -/
structure AcceptAt (reading : Reading) (log : Bytes) (offset : ℕ) (record : RowRecord) (stop : ℕ) :
    Prop where
  frame : FrameAt reading.format log offset
  stop_eq : stop = frameEnd reading.format log offset
  decoded : decodeRecord (payloadAt reading.format log offset) reading.columns = .ok record
  inside : record.kind = .upsert → record.dataEnd ≤ reading.dataSize

inductive Accepted (reading : Reading) (log : Bytes) : ℕ → List RowRecord → ℕ → Prop
  | nil (offset : ℕ) : Accepted reading log offset [] offset
  | cons {offset middle stop : ℕ} {record : RowRecord} {records : List RowRecord} :
    AcceptAt reading log offset record middle → Accepted reading log middle records stop →
      Accepted reading log offset (record :: records) stop

/-- One step of the replay applies the accepted record and goes on behind it. -/
theorem replayLoop_acceptAt {stop : ℕ} {record : RowRecord}
    (haccept : AcceptAt stored.reading log offset record stop) :
    replayLoop .none log stored offset =
      match apply stored.width stored.memory record with
      | (memory, some failure) =>
        { stored := { stored with memory := memory }, log := log, failure := some failure }
      | (memory, none) =>
        replayLoop .none log { stored with memory := memory, logSize := stop } stop := by
  obtain ⟨hframe, hstop, hdecoded, hinside⟩ := haccept
  simp only [CodeCollection.reading] at hframe hstop hdecoded hinside
  rw [replayLoop_frameAt rfl rfl hframe, hdecoded, hstop]
  simp only
  rw [if_neg]
  rintro ⟨hkind, hshort⟩
  exact absurd (hinside hkind) (not_le.mpr hshort)

/-- The replay applies a chain of accepted records one after the other, by induction on the chain.
-/
theorem replayLoop_accepted {stop : ℕ} {records : List RowRecord}
    (haccepted : Accepted stored.reading log offset records stop) (hsize : stored.logSize = offset)
    (happly : (applyAll stored.width stored.memory records).2 = none) :
    replayLoop .none log stored offset = replayLoop .none log { stored with
          memory := (applyAll stored.width stored.memory records).1
          logSize := stop } stop := by
  generalize hreading : stored.reading = reading at haccepted
  induction haccepted generalizing stored with
  | nil offset =>
    subst hsize
    rfl
  | @cons _ middle _ record _ haccept _ ih =>
    subst hreading
    rw [replayLoop_acceptAt haccept]
    rw [applyAll] at happly ⊢
    generalize apply stored.width _ record = applied at happly ⊢
    obtain ⟨memory, failure⟩ := applied
    cases failure with
    | some => simp at happly
    | none => exact @ih { stored with memory := memory, logSize := middle } rfl happly rfl

/-- Replay cuts the log at a rejected record exactly when no complete frame starts at or after the
search start. Otherwise it returns an error and the log keeps every byte. Assumes: replay carried
out the records before the offset, and every access of the log succeeds. -/
theorem replay_rejected_iff {log : Bytes} {stored : CodeCollection} {records : List RowRecord}
    {offset : ℕ} (haccepted : Accepted stored.reading log stored.logSize records offset)
    (happly : (applyAll stored.width stored.memory records).2 = none)
    (hrejected : Rejected stored.header.frameFormat log offset) :
    ((replay .none log stored).failure = none ∧ (replay .none log stored).log = log.take offset ↔
        ¬∃ start, rejectStart stored.header.frameFormat log offset ≤ start ∧
          FrameAt stored.header.frameFormat log start) ∧
      (¬((replay .none log stored).failure = none ∧
        (replay .none log stored).log = log.take offset) →
        (replay .none log stored).failure ≠ none ∧ (replay .none log stored).log = log) ∧
      ∃ stop found, contentEnd .none log offset = .ok stop ∧
        validFrameBetween .none stored.header.frameFormat log
          (rejectStart stored.header.frameFormat log offset) stop = .ok found ∧
        (found = true ↔ ∃ start, rejectStart stored.header.frameFormat log offset ≤ start ∧
          FrameAt stored.header.frameFormat log start) := by
  have hloop : replay .none log stored = replayLoop .none log { stored with
        memory := (applyAll stored.width stored.memory records).1
        logSize := offset } offset := by
    exact replayLoop_accepted haccepted rfl happly
  have hend := replayLoop_rejected .none { stored with
      memory := (applyAll stored.width stored.memory records).1
      logSize := offset } rfl hrejected
  have hfound := @frameFound_iff _ _ stored.header.frameFormat _
    (rejectStart stored.header.frameFormat log offset) (Nat.le_of_lt hrejected.1)
  rw [← hloop] at hend
  generalize replay .none log stored = result at hend ⊢
  cases hend with
  | error _ hlater => exact ⟨by simpa using hlater, by simp, hfound⟩
  | cut hlast => exact ⟨by simpa using hlast, by simp, hfound⟩
  | failed _ hfaults => exact absurd rfl hfaults

/-! ### How a replay ends -/

/-- At the end of the log, at a torn record that is cut off, or with an error. A header whose read
fails is taken for a torn one. A refused record may leave values in the dictionaries. -/
inductive ReplayEnd (log : Bytes) (stored : CodeCollection) : Replayed → Prop
  | finished (hend : log.length ≤ stored.logSize) :
    ReplayEnd log stored { stored := stored, log := log, failure := none }
  | truncated (hrejected : Rejected stored.header.frameFormat log stored.logSize)
    (hlast : ¬∃ start, rejectStart stored.header.frameFormat log stored.logSize ≤ start ∧
      FrameAt stored.header.frameFormat log start) :
    ReplayEnd log stored { stored := stored, log := log.take stored.logSize, failure := none }
  | misread (hfault : faults.header stored.logSize = true) :
    ReplayEnd log stored { stored := stored, log := log.take stored.logSize, failure := none }
  | failed (failure : Failure) :
    ReplayEnd log stored { stored := stored, log := log, failure := some failure }
  | refused (record : RowRecord) (memory : Memory) (failure : Failure)
    (hrefused : apply stored.width stored.memory record = (memory, some failure)) :
    ReplayEnd log stored
      { stored := { stored with memory := memory }, log := log, failure := some failure }

/-- A result of a replay that follows a chain of accepted records and then ends. -/
def EndsAfter (log : Bytes) (stored : CodeCollection) (offset : ℕ) (result : Replayed) : Prop :=
  ∃ records stop, Accepted stored.reading log offset records stop ∧
    (applyAll stored.width stored.memory records).2 = none ∧
    ReplayEnd faults log { stored with
        memory := (applyAll stored.width stored.memory records).1
        logSize := stop }
      result

/-- Every replay ends after a chain of accepted records. The induction is on the bytes that are
left. -/
theorem replayLoop_cases (stored : CodeCollection) (hsize : stored.logSize = offset) :
    EndsAfter faults log stored offset (replayLoop faults log stored offset) := by
  induction hleft : log.length -
    offset using Nat.strong_induction_on generalizing stored offset with
  | _ left ih =>
    subst hsize
    have hhere {result : Replayed} (hend : ReplayEnd faults log stored result)
        (hresult : replayLoop faults log stored stored.logSize = result) :
        EndsAfter faults log stored stored.logSize (replayLoop faults log stored stored.logSize) :=
      ⟨[], stored.logSize, .nil _, rfl, hresult ▸ hend⟩
    by_cases hheader : faults.header stored.logSize = true
    · by_cases htruncate : faults.truncate = true
      · refine hhere (.failed .truncateRowLog) ?_
        rw [replayLoop, if_pos hheader, truncateRows, if_pos htruncate]
      · refine hhere (.misread hheader) ?_
        rw [replayLoop, if_pos hheader, truncateRows, if_neg htruncate]
    have hread := Bool.eq_false_of_not_eq_true hheader
    by_cases hmore : log.length ≤ stored.logSize
    · refine hhere (.finished hmore) ?_
      rw [replayLoop, if_neg hheader, dif_pos hmore]
    by_cases hframe : FrameAt stored.header.frameFormat log stored.logSize
    · by_cases hpayload :
          faults.payload (stored.logSize + frameHeaderSize stored.header.frameFormat) = true
      · refine hhere (.failed (.readRowLog stored.logSize)) ?_
        obtain ⟨_, hvalid, _⟩ := hframe
        rw [replayLoop, if_neg hheader, dif_neg hmore, if_neg (by omega)]
        simp only [hvalid, not_true_eq_false, if_false]
        rw [if_neg (by omega), if_pos hpayload]
      have heq := replayLoop_frameAt hread (Bool.eq_false_of_not_eq_true hpayload) hframe
      cases hdecoded : decodeRecord (payloadAt stored.header.frameFormat log stored.logSize)
        stored.header.columns with
      | panic =>
        rw [hdecoded] at heq
        exact hhere (.failed .panic) heq
      | malformed =>
        rw [hdecoded] at heq
        exact hhere (.failed _) heq
      | ok record =>
        rw [hdecoded] at heq
        simp only at heq
        by_cases hdata : record.kind = .upsert ∧ (stored.dataSize : ℤ) < record.dataEnd
        · rw [if_pos hdata] at heq
          exact hhere (.failed _) heq
        rw [if_neg hdata] at heq
        cases happly : apply stored.width stored.memory record with
        | mk memory failure =>
          rw [happly] at heq
          cases failure with
          | some failure => exact hhere (.refused record memory failure happly) heq
          | none =>
            have hpos := frameHeaderSize_pos stored.header.frameFormat
            have hbelow : log.length - frameEnd stored.header.frameFormat log stored.logSize <
                left := by
              rw [frameEnd]
              omega
            obtain ⟨records, stop, haccepted, hall, hend⟩ := ih _ hbelow { stored with
                memory := memory
                logSize := frameEnd stored.header.frameFormat log stored.logSize } rfl rfl
            have hrecord : AcceptAt stored.reading log stored.logSize record
                (frameEnd stored.header.frameFormat log stored.logSize) :=
              ⟨hframe, rfl, hdecoded, fun hkind ↦ not_lt.mp fun hshort ↦ hdata ⟨hkind, hshort⟩⟩
            refine ⟨record :: records, stop, .cons hrecord haccepted, ?_, ?_⟩
            · rwa [applyAll, happly]
            · rwa [heq, applyAll, happly]
    have hrejected : Rejected stored.header.frameFormat log stored.logSize := ⟨by omega, hframe⟩
    have hend := replayLoop_rejected faults stored hread hrejected
    generalize hresult : replayLoop faults log stored _ = result at hend
    cases hend with
    | error => exact hresult ▸ hhere (.failed _) hresult
    | cut hlast => exact hresult ▸ hhere (.truncated hrejected hlast) hresult
    | failed => exact hresult ▸ hhere (.failed _) hresult

end

/-- With frame format 0, a length that points past the log is cut off at the end of the log, and is
an error before a complete frame. -/
theorem replay_rejected_iff_sample :
    ((@replay sampleExternals .none [9, 0, 0, 0, 0, 0, 0, 0, 1] (sampleHandle 0)).failure = none ∧
        (@replay sampleExternals .none [9, 0, 0, 0, 0, 0, 0, 0, 1] (sampleHandle 0)).log = []) ∧
      (@replay sampleExternals .none [9, 0, 0, 0, 0, 0, 0, 0, 1, 0, 0, 0, 1, 0, 0, 0, 1]
        (sampleHandle 0)).failure ≠ none := by
  let _ := sampleExternals
  constructor
  · refine (@replay_rejected_iff _ _ _ _ _ (.nil _) rfl ⟨by decide, by decide⟩).1.mpr ?_
    rintro ⟨start, _, hframe⟩
    have hstart : rejectStart (sampleHandle 0).header.frameFormat [9, 0, 0, 0, 0, 0, 0, 0, 1]
        (sampleHandle 0).logSize = 1 := by decide
    have hinside : start + 8 ≤ 9 := hframe.1
    obtain rfl : start = 1 := by omega
    exact absurd hframe (by decide)
  obtain ⟨hiff, herror, _⟩ := @replay_rejected_iff _
    [9, 0, 0, 0, 0, 0, 0, 0, 1, 0, 0, 0, 1, 0, 0, 0, 1] (sampleHandle 0) _ _ (.nil _) rfl
    ⟨by decide, by decide⟩
  refine (herror fun hcut ↦ hiff.mp hcut ⟨8, by decide, by decide⟩).1

end Clyde.CodeStore
