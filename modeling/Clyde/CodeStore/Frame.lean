import Clyde.CodeStore.Record

/-!
# Frames of the row log

`codestore/record.go` and the tail search of `collection.go`. In format 0 a frame's header is the
payload length and the payload checksum; format 1 puts the checksum of the length bytes between
them.

When replay cannot accept a record, it must tell a torn append from damage in the middle of the log.
`contentEnd` finds the end of the last nonzero byte, backwards in chunks, and `validFrameBetween`
looks for a complete valid frame before that end, in windows that overlap by a header.
`frameFound_iff` is the comparison with the plain search: they find a frame exactly when some
`FrameAt` starts at or after the search start.

The checksum and the placeholder for dictionary position zero are parameters (`Externals`). The
specifications are for accesses that succeed.
-/

set_option autoImplicit false

namespace Clyde.CodeStore

open Foundation.ByteCodec List

/-- The CRC-32 checksum of the standard library and the empty scalar of the collection package. -/
class Externals where
  checksumIEEE : Bytes → UInt32
  emptyScalar : ScalarValue

open Externals (checksumIEEE)

/-- The frame format that checks the length. Every other format is read as format 0. -/
def frameFormatLengthCRC : ℕ := 1

def frameFormatPayloadCRC : ℕ := 0

def frameFieldBytes : ℕ := 4

def frameHeaderSize (format : ℕ) : ℕ :=
  if format = frameFormatLengthCRC then 12 else 8

def bufferBytes : ℕ := 1 <<< 20

theorem bufferBytes_pos : 0 < bufferBytes := by decide

theorem frameHeaderSize_pos (format : ℕ) : 0 < frameHeaderSize format := by
  unfold frameHeaderSize
  split_ifs <;> decide

inductive RejectOperation
  | checkLength
  | checkEnd
  | checkPayload
  deriving DecidableEq

inductive FileKind
  | rows
  | data
  deriving DecidableEq

structure GenerationFile where
  kind : FileKind
  generation : Int64
  deriving DecidableEq

/-- The errors of the store, by the operation that fails. `panic` is a run-time panic. -/
inductive Failure
  | panic
  | internColumn (column : ℕ)
  | inspectRowLog
  | seekRowLog
  | readRowLog (offset : ℕ)
  | readTail (offset : ℕ)
  | readPayload (offset : ℕ)
  | reject (operation : RejectOperation) (offset : ℕ)
  | decodeRowLog (offset : ℕ)
  | dataFileTooShort (offset : ℕ)
  | truncateRowLog
  | encodeRecord
  | frameRecord
  | collectionMissing
  | generationWithoutHeader
  | frameFormat (format : ℕ)
  | generationFileMissing (file : GenerationFile)
  | inspectHeader
  | storeClosed
  | writeData
  | syncData
  | appendRowLog
  | createFile (file : GenerationFile)
  | syncFile (file : GenerationFile)
  | readCompaction
  | writeCompacted
  | inspectCompacted
  | replaceHeader
  | syncDirectory
  | removePrevious
  | dimension (given : ℕ)
  | rowIDRequired
  | vectorLength (id : Bytes) (given : ℕ)
  | undeclaredColumn (name : Bytes)
  | readRow (id : Bytes)
  | decodeRow (id : Bytes)
  | updateRow (message : Bytes)
  | updateColumn (name : Bytes)
  | notChildren (count : ℕ)
  | filterColumn (name : Bytes)
  | filterKind (name : Bytes)
  | filterLeaf
  deriving DecidableEq

/-- The inspection, the seek, the reads by their position, and the truncation that fail. -/
structure LogFaults where
  stat : Bool
  seek : Bool
  header : ℕ → Bool
  payload : ℕ → Bool
  tail : ℕ → Bool
  window : ℕ → Bool
  copy : ℕ → Bool
  truncate : Bool

/-- Every access succeeds. -/
@[simps] def LogFaults.none : LogFaults where
  stat := false
  seek := false
  header := fun _ ↦ false
  payload := fun _ ↦ false
  tail := fun _ ↦ false
  window := fun _ ↦ false
  copy := fun _ ↦ false
  truncate := false

/-- Every header is read. -/
def LogFaults.ReadsHeaders (faults : LogFaults) : Prop := ∀ offset, faults.header offset = false

section

variable [Externals]

/-- The payload's length, in format 1 the checksum of the length bytes, and the payload's checksum.
-/
def frameHeaderBytes (payload : Bytes) (format : ℕ) : Bytes :=
  littleEndian frameFieldBytes payload.length ++ (if format = frameFormatLengthCRC then
      littleEndian frameFieldBytes
        (checksumIEEE (littleEndian frameFieldBytes payload.length)).toNat
    else []) ++
    littleEndian frameFieldBytes (checksumIEEE payload).toNat

def frameBytes (payload : Bytes) (format : ℕ) : Bytes := frameHeaderBytes payload format ++ payload

/-- Appends one frame to a buffer. A payload longer than a length field can say is refused. -/
def appendFrame (buffer payload : Bytes) (format : ℕ) : Option Bytes :=
  if 2 ^ 32 - 1 < payload.length then none else some (buffer ++ frameBytes payload format)

structure FrameHeader where
  length : ℕ
  payloadChecksum : ℕ
  lengthValid : Bool
  deriving DecidableEq

/-- Parses a frame header. Only format 1 checks the length. -/
def parseFrameHeader (format : ℕ) (header : Bytes) : FrameHeader :=
  let lengthBytes := header.take frameFieldBytes
  { length := littleEndianValue lengthBytes
    payloadChecksum := littleEndianValue (header.drop (header.length - frameFieldBytes))
    lengthValid := format ≠ frameFormatLengthCRC ∨ (checksumIEEE lengthBytes).toNat =
      littleEndianValue ((header.drop frameFieldBytes).take frameFieldBytes) }

def readAt (log : Bytes) (start count : ℕ) : Bytes := (log.drop start).take count

def headerAt (format : ℕ) (log : Bytes) (start : ℕ) : FrameHeader :=
  parseFrameHeader format (readAt log start (frameHeaderSize format))

def payloadMatches (log : Bytes) (payloadStart length payloadChecksum : ℕ) : Bool :=
  (checksumIEEE (readAt log payloadStart length)).toNat = payloadChecksum

/-- Header and payload lie inside the log, the length is not zero, and the checksums match. -/
def FrameAt (format : ℕ) (log : Bytes) (start : ℕ) : Prop :=
  start + frameHeaderSize format ≤ log.length ∧ (headerAt format log start).lengthValid ∧
    (headerAt format log start).length ≠ 0 ∧
    start + frameHeaderSize format + (headerAt format log start).length ≤ log.length ∧
    payloadMatches log (start + frameHeaderSize format) (headerAt format log start).length
      (headerAt format log start).payloadChecksum

instance (format : ℕ) (log : Bytes) (start : ℕ) : Decidable (FrameAt format log start) :=
  inferInstanceAs (Decidable (_ ∧ _ ∧ _ ∧ _ ∧ _))

/-! ### The end of the content -/

def lastNonzero (chunk : Bytes) : ℕ → Option ℕ
  | 0 => none
  | position + 1 =>
    if chunk.getD position 0 ≠ 0 then some position else lastNonzero chunk position

def contentEndLoop (faults : LogFaults) (log : Bytes) (offset chunkEnd : ℕ)
    (hend : chunkEnd ≤ log.length) : Except Failure ℕ :=
  if _hmore : offset < chunkEnd then
    let chunkStart := max offset (chunkEnd - min bufferBytes (log.length - offset))
    let count := chunkEnd - chunkStart
    if faults.tail chunkStart then .error (.readTail chunkStart)
    else
      match lastNonzero (readAt log chunkStart count) count with
      | some position => .ok (chunkStart + position + 1)
      | none => contentEndLoop faults log offset chunkStart (by omega)
  else .ok offset
termination_by chunkEnd - offset
decreasing_by
  have hpos := bufferBytes_pos
  omega

def contentEnd (faults : LogFaults) (log : Bytes) (offset : ℕ) : Except Failure ℕ :=
  contentEndLoop faults log offset log.length le_rfl

variable {count position : ℕ} {chunk : Bytes}

omit [Externals] in
/-- Behind the position that was found the chunk is zero. -/
theorem lastNonzero_eq_some (hlast : lastNonzero chunk count = some position) :
    position < count ∧ ∀ later, position < later → later < count → chunk.getD later 0 = 0 := by
  induction count with
  | zero => simp [lastNonzero] at hlast
  | succ count ih =>
    rw [lastNonzero] at hlast
    split_ifs at hlast with hzero
    · simp only [Option.some.injEq] at hlast
      exact ⟨by omega, fun later hlow hhigh ↦ by omega⟩
    obtain ⟨_, hlater⟩ := ih hlast
    refine ⟨by omega, fun later hlow hhigh ↦ ?_⟩
    by_cases hcount : later = count
    · rw [hcount]
      exact not_not.mp hzero
    · exact hlater later hlow (by omega)

omit [Externals] in
theorem lastNonzero_eq_none (hlast : lastNonzero chunk count = none) :
    ∀ position, position < count → chunk.getD position 0 = 0 := by
  induction count with
  | zero => intro position hposition; omega
  | succ count ih =>
    rw [lastNonzero] at hlast
    split_ifs at hlast with hzero
    intro position _
    by_cases hcount : position = count
    · rw [hcount]
      exact not_not.mp hzero
    · exact ih hlast position (by omega)

omit [Externals] in
theorem getD_readAt (log : Bytes) (start : ℕ) (hposition : position < count) :
    (readAt log start count).getD position 0 = log.getD (start + position) 0 := by
  simp [readAt, getD_eq_getElem?_getD, hposition]

omit [Externals] in
/-- Without faults the search from the back finds a position behind which the log is zero. -/
theorem exists_contentEndLoop (log : Bytes) (offset chunkEnd : ℕ) (hend : chunkEnd ≤ log.length)
    (hoffset : offset ≤ chunkEnd)
    (hzero : ∀ position, chunkEnd ≤ position → log.getD position 0 = 0) :
    ∃ stop, contentEndLoop .none log offset chunkEnd hend = .ok stop ∧
      ∀ position, stop ≤ position → log.getD position 0 = 0 := by
  induction hsize : chunkEnd - offset using Nat.strong_induction_on generalizing chunkEnd with
  | _ _ ih =>
    rw [contentEndLoop]
    split_ifs with hmore
    · have hpos := bufferBytes_pos
      obtain ⟨chunkStart, hstart⟩ :
          ∃ start, start = max offset (chunkEnd - min bufferBytes (log.length - offset)) := ⟨_, rfl⟩
      simp only [LogFaults.none_tail, Bool.false_eq_true, if_false, ← hstart]
      have hstartLow : offset ≤ chunkStart := by omega
      cases hlast : lastNonzero (readAt log chunkStart (chunkEnd - chunkStart))
        (chunkEnd - chunkStart) with
      | some position =>
        obtain ⟨hposition, hlater⟩ := lastNonzero_eq_some hlast
        refine ⟨chunkStart + position + 1, rfl, fun other hother ↦ ?_⟩
        by_cases hinside : other < chunkEnd
        · have hchunk := hlater (other - chunkStart) (by omega) (by omega)
          rw [getD_readAt log _ (by omega)] at hchunk
          rwa [show chunkStart + (other - chunkStart) = other by omega] at hchunk
        · exact hzero other (by omega)
      | none =>
        have hchunkZero := lastNonzero_eq_none hlast
        refine ih _ (by omega) chunkStart (by omega) hstartLow (fun other hother ↦ ?_) rfl
        by_cases hinside : other < chunkEnd
        · have hchunk := hchunkZero (other - chunkStart) (by omega)
          rw [getD_readAt log _ (by omega)] at hchunk
          rwa [show chunkStart + (other - chunkStart) = other by omega] at hchunk
        · exact hzero other (by omega)
    · exact ⟨offset, rfl, fun position hposition ↦ hzero position (by omega)⟩

variable {log : Bytes}

omit [Externals] in
theorem exists_contentEnd {offset : ℕ} (hoffset : offset ≤ log.length) :
    ∃ stop, contentEnd .none log offset = .ok stop ∧ ∀ position, stop ≤ position →
      log.getD position 0 = 0 :=
  exists_contentEndLoop log offset log.length le_rfl hoffset fun position hposition ↦ by
    simp [getD_eq_getElem?_getD, getElem?_eq_none hposition]

/-! ### The search for a later frame -/

/-- How the search of one window ends. -/
inductive WindowScan
  | found
  | ended
  | failed (failure : Failure)
  | exhausted
  deriving DecidableEq

def scanWindow (faults : LogFaults) (format : ℕ) (log window : Bytes)
    (windowStart lastStart frameStart : ℕ) : WindowScan :=
  if frameStart < lastStart then
    let payloadStart := frameStart + frameHeaderSize format
    if log.length < payloadStart then .ended
    else
      let header := parseFrameHeader format
        ((window.drop (frameStart - windowStart)).take (payloadStart - frameStart))
      if ¬header.lengthValid ∨ header.length = 0 ∨ log.length < payloadStart + header.length then
        scanWindow faults format log window windowStart lastStart (frameStart + 1)
      else if faults.copy payloadStart then .failed (.readPayload payloadStart)
      else if payloadMatches log payloadStart header.length header.payloadChecksum then .found
      else scanWindow faults format log window windowStart lastStart (frameStart + 1)
  else .exhausted
termination_by lastStart - frameStart

def validFrameLoop (faults : LogFaults) (format : ℕ) (log : Bytes) (starts : ℕ)
    (hstarts : 0 < starts) (contentEnd windowStart : ℕ) : Except Failure Bool :=
  if windowStart < contentEnd then
    let windowEnd := min (windowStart + (starts + frameHeaderSize format)) log.length
    if faults.window windowStart then .error (.readTail windowStart)
    else
      let window := readAt log windowStart (windowEnd - windowStart)
      match scanWindow faults format log window windowStart
        (min (windowStart + starts) contentEnd) windowStart with
      | .found => .ok true
      | .ended => .ok false
      | .failed failure => .error failure
      | .exhausted =>
        validFrameLoop faults format log starts hstarts contentEnd (windowStart + starts)
  else .ok false
termination_by contentEnd - windowStart

def validFrameBetween (faults : LogFaults) (format : ℕ) (log : Bytes)
    (searchStart contentEnd : ℕ) : Except Failure Bool :=
  validFrameLoop faults format log bufferBytes bufferBytes_pos contentEnd searchStart

variable {windowStart start : ℕ}

omit [Externals] in
theorem readAt_window {windowLength : ℕ} (hstart : windowStart ≤ start)
    (hend : start + count ≤ windowStart + windowLength) :
    ((readAt log windowStart windowLength).drop (start - windowStart)).take count =
      readAt log start count := by
  rw [readAt, readAt, drop_take, drop_drop, take_take,
    show windowStart + (start - windowStart) = start by omega, min_eq_left (by omega)]

variable {format starts lastStart frameStart : ℕ}

/-- A step of the window search: the frame at this start is found, or the search goes on at the next
start. -/
theorem scanWindow_eq (hlast : lastStart ≤ windowStart + starts)
    (hstart : windowStart ≤ frameStart) :
    let window := readAt log windowStart
      (min (windowStart + (starts + frameHeaderSize format)) log.length - windowStart)
    scanWindow .none format log window windowStart lastStart frameStart =
      if frameStart < lastStart then
        if log.length < frameStart + frameHeaderSize format then .ended
        else if FrameAt format log frameStart then .found
        else scanWindow .none format log window windowStart lastStart (frameStart + 1)
      else .exhausted := by
  intro window
  rw [scanWindow]
  by_cases hmore : frameStart < lastStart
  · by_cases hshort : log.length < frameStart + frameHeaderSize format
    · simp [if_pos hshort]
    have hheader : parseFrameHeader format ((window.drop (frameStart - windowStart)).take
        (frameStart + frameHeaderSize format - frameStart)) = headerAt format log frameStart := by
      rw [Nat.add_sub_cancel_left, readAt_window hstart (by omega), headerAt]
    simp only [if_neg hshort, hheader, LogFaults.none_copy, Bool.false_eq_true, if_false]
    have hiff : FrameAt format log frameStart ↔ ¬(¬(headerAt format log frameStart).lengthValid ∨
          (headerAt format log frameStart).length = 0 ∨
          log.length < frameStart + frameHeaderSize format +
            (headerAt format log frameStart).length) ∧
        payloadMatches log (frameStart + frameHeaderSize format)
          (headerAt format log frameStart).length
          (headerAt format log frameStart).payloadChecksum := by
      simp only [FrameAt, not_or, not_not, not_lt, and_assoc]
      exact ⟨fun hframe ↦ hframe.2, fun hframe ↦ ⟨by omega, hframe⟩⟩
    split_ifs with hskip hframe hmatch hframe hframe
    · exact absurd hskip (hiff.mp hframe).1
    · rfl
    · rfl
    · exact absurd (hiff.mpr ⟨hskip, hmatch⟩) hframe
    · exact absurd (hiff.mp hframe).2 hmatch
    · rfl
  · rw [if_neg hmore, if_neg hmore]

/-- What the end of a window search says about the frames from a start on. -/
def WindowScan.Sound (format : ℕ) (log : Bytes) (frameStart lastStart : ℕ) : WindowScan → Prop
  | .found => ∃ start, frameStart ≤ start ∧ start < lastStart ∧ FrameAt format log start
  | .ended => ∀ start, frameStart ≤ start → ¬FrameAt format log start
  | .failed _ => False
  | .exhausted => ∀ start, frameStart ≤ start → start < lastStart → ¬FrameAt format log start

theorem WindowScan.Sound.pred {scan : WindowScan} (hnone : ¬FrameAt format log frameStart)
    (hscan : scan.Sound format log (frameStart + 1) lastStart) :
    scan.Sound format log frameStart lastStart := by
  have hskip {start : ℕ} (hlow : frameStart ≤ start) (hframe : FrameAt format log start) :
      frameStart + 1 ≤ start := by
    rcases Nat.lt_or_eq_of_le hlow with hlt | rfl
    · exact hlt
    · exact absurd hframe hnone
  cases scan with
  | found =>
    obtain ⟨start, hlow, hhigh, hframe⟩ := hscan
    exact ⟨start, by omega, hhigh, hframe⟩
  | ended => exact fun start hlow hframe ↦ hscan start (hskip hlow hframe) hframe
  | failed => exact hscan
  | exhausted => exact fun start hlow hhigh hframe ↦ hscan start (hskip hlow hframe) hhigh hframe

/-- The search ends early only where no later frame fits into the log. The induction is on the
starts that are left. -/
theorem scanWindow_sound (format : ℕ) (log : Bytes)
    (hlast : lastStart ≤ windowStart + starts) (frameStart : ℕ)
    (hstart : windowStart ≤ frameStart) :
    (scanWindow .none format log (readAt log windowStart
      (min (windowStart + (starts + frameHeaderSize format)) log.length - windowStart))
        windowStart lastStart frameStart).Sound format log frameStart lastStart := by
  induction hsize : lastStart - frameStart generalizing frameStart with
  | zero =>
    rw [scanWindow_eq hlast hstart, if_neg (by omega)]
    intro start hlow _
    omega
  | succ _ ih =>
    rw [scanWindow_eq hlast hstart, if_pos (by omega)]
    split_ifs with hshort hframe
    · intro _ _ hlater
      exact absurd hlater.1 (by omega)
    · exact ⟨frameStart, le_rfl, by omega, hframe⟩
    · exact (ih _ (by omega) (by omega)).pred hframe

/-- Without faults the search over windows finds a complete frame exactly when one starts in the
range. -/
theorem exists_validFrameLoop (format : ℕ) (log : Bytes) (hstarts : 0 < starts)
    (searchStart contentEnd : ℕ) :
    ∃ found, validFrameLoop .none format log starts hstarts contentEnd searchStart = .ok found ∧
      (found = true ↔ ∃ start, searchStart ≤ start ∧ start < contentEnd ∧
        FrameAt format log start) := by
  induction hsize : contentEnd -
    searchStart using Nat.strong_induction_on generalizing searchStart with
  | _ _ ih =>
    rw [validFrameLoop]
    by_cases hmore : searchStart < contentEnd
    · have hsound := scanWindow_sound format log
        (min_le_left (searchStart + starts) contentEnd) searchStart le_rfl
      simp only [if_pos hmore, LogFaults.none_window, Bool.false_eq_true, if_false]
      generalize scanWindow .none format log _ _ _ _ = scanned at hsound ⊢
      cases scanned with
      | found =>
        obtain ⟨start, hlow, hhigh, hframe⟩ := hsound
        exact ⟨true, rfl, iff_of_true rfl
          ⟨start, hlow, lt_of_lt_of_le hhigh (min_le_right _ _), hframe⟩⟩
      | ended =>
        refine ⟨false, rfl, iff_of_false (by simp) ?_⟩
        rintro ⟨start, hlow, _, hframe⟩
        exact hsound start hlow hframe
      | failed => exact hsound.elim
      | exhausted =>
        obtain ⟨found, hfound, hiff⟩ := ih _ (by omega) (searchStart + starts) rfl
        refine ⟨found, hfound, hiff.trans ⟨?_, ?_⟩⟩
        · rintro ⟨start, hlow, hhigh, hframe⟩
          exact ⟨start, by omega, hhigh, hframe⟩
        rintro ⟨start, hlow, hhigh, hframe⟩
        refine ⟨start, ?_, hhigh, hframe⟩
        by_contra hwindow
        exact hsound start hlow (lt_min (by omega) hhigh) hframe
    · refine ⟨false, by rw [if_neg hmore], iff_of_false (by simp) ?_⟩
      omega

section

variable (hzero : ∀ position, start ≤ position → log.getD position 0 = 0)
include hzero

omit [Externals] in
theorem eq_zero_of_mem_readAt : ∀ byte ∈ readAt log start count, byte = 0 := by
  intro _ hbyte
  obtain ⟨position, hposition, rfl⟩ := mem_iff_getElem.mp hbyte
  have hlength : position < count := by
    simp only [readAt, length_take] at hposition
    omega
  have hread := getD_readAt log start hlength
  rwa [hzero _ (by omega), getD_eq_getElem?_getD, getElem?_eq_getElem hposition] at hread

theorem not_frameAt_of_zero : ¬FrameAt format log start := by
  rintro ⟨_, _, hnonzero, _⟩
  refine hnonzero (littleEndianValue_eq_zero fun byte hbyte ↦ ?_)
  exact eq_zero_of_mem_readAt hzero byte (mem_of_mem_take hbyte)

end

/-- The search finds a frame exactly when one starts anywhere at or after the search start. -/
theorem frameFound_iff {format : ℕ} {offset : ℕ} (searchStart : ℕ) (hoffset : offset ≤ log.length) :
    ∃ stop found, contentEnd .none log offset = .ok stop ∧
      validFrameBetween .none format log searchStart stop = .ok found ∧
      (found = true ↔ ∃ start, searchStart ≤ start ∧ FrameAt format log start) := by
  obtain ⟨stop, hstop, hzero⟩ := exists_contentEnd hoffset
  obtain ⟨found, hfound, hiff⟩ := exists_validFrameLoop format log bufferBytes_pos searchStart stop
  refine ⟨stop, found, hstop, hfound, hiff.trans ⟨?_, ?_⟩⟩
  · rintro ⟨start, hlow, _, hframe⟩
    exact ⟨start, hlow, hframe⟩
  rintro ⟨start, hlow, hframe⟩
  refine ⟨start, hlow, ?_, hframe⟩
  by_contra hlate
  exact not_frameAt_of_zero (fun position hposition ↦ hzero position (by omega)) hframe

/-! ### Reads that fail -/

section

variable {faults : LogFaults}

omit [Externals] in
/-- A search for the end of the content in which no read failed is that without faults. -/
theorem contentEndLoop_none {offset chunkEnd stop : ℕ} {hend : chunkEnd ≤ log.length}
    (hstop : contentEndLoop faults log offset chunkEnd hend = .ok stop) :
    contentEndLoop .none log offset chunkEnd hend = .ok stop := by
  fun_induction contentEndLoop faults log offset chunkEnd hend with
  | case1 => simp at hstop
  | case2 chunkEnd hend hmore chunkStart count htail position hposition =>
    rw [contentEndLoop, dif_pos hmore]
    simpa [chunkStart, count, hposition] using hstop
  | case3 chunkEnd hend hmore chunkStart count htail hnone ih =>
    rw [contentEndLoop, dif_pos hmore]
    simpa [chunkStart, count, hnone] using ih hstop
  | case4 chunkEnd hend hmore =>
    rw [contentEndLoop, dif_neg hmore]
    exact hstop

/-- A window search that meets no fault ends as it does without faults. -/
theorem scanWindow_none {format : ℕ} {window : Bytes} {windowStart lastStart frameStart : ℕ}
    {result : WindowScan} (hok : ∀ failure, result ≠ .failed failure)
    (hscan : scanWindow faults format log window windowStart lastStart frameStart = result) :
    scanWindow .none format log window windowStart lastStart frameStart = result := by
  fun_induction scanWindow faults format log window windowStart lastStart frameStart with
  | case1 _ hmore payloadStart hshort =>
    rw [scanWindow, if_pos hmore]
    simp only [payloadStart, if_pos hshort]
    exact hscan
  | case2 _ hmore payloadStart hlong header hskip ih =>
    rw [scanWindow, if_pos hmore]
    simp only [if_neg hlong, payloadStart, if_pos hskip, header]
    exact ih hscan
  | case3 => exact absurd hscan.symm (hok _)
  | case4 _ hmore payloadStart hlong header hskip hcopy hfound =>
    rw [scanWindow, if_pos hmore]
    simp only [if_neg hlong, payloadStart, if_neg hskip, header, LogFaults.none_copy,
      Bool.false_eq_true, if_false, if_pos hfound]
    exact hscan
  | case5 _ hmore payloadStart hlong header hskip hcopy hother ih =>
    rw [scanWindow, if_pos hmore]
    simp only [if_neg hlong, payloadStart, if_neg hskip, header, LogFaults.none_copy,
      Bool.false_eq_true, if_false, if_neg hother]
    exact ih hscan
  | case6 _ hmore =>
    rw [scanWindow, if_neg hmore]
    exact hscan

/-- A search over windows that meets no fault ends as it does without faults. -/
theorem validFrameLoop_none {format starts : ℕ} {hstarts : 0 < starts} {contentEnd windowStart : ℕ}
    {found : Bool}
    (hfound : validFrameLoop faults format log starts hstarts contentEnd windowStart = .ok found) :
    validFrameLoop .none format log starts hstarts contentEnd windowStart = .ok found := by
  fun_induction validFrameLoop faults format log starts hstarts contentEnd windowStart with
  | case1 | case4 => simp at hfound
  | case2 _ hmore windowEnd _ window hscan | case3 _ hmore windowEnd _ window hscan =>
    rw [validFrameLoop, if_pos hmore]
    simpa [scanWindow_none (by simp) hscan, windowEnd, window] using hfound
  | case5 _ hmore windowEnd _ window hscan ih =>
    rw [validFrameLoop, if_pos hmore]
    simpa [scanWindow_none (by simp) hscan, windowEnd, window] using ih hfound
  | case6 _ hmore =>
    rw [validFrameLoop, if_neg hmore]
    exact hfound

end

/-! ### Frames that were written -/

variable (payload : Bytes)

@[simp] theorem length_frameHeaderBytes (format : ℕ) :
    (frameHeaderBytes payload format).length = frameHeaderSize format := by
  unfold frameHeaderBytes frameHeaderSize frameFieldBytes
  split_ifs <;> simp

@[simp] theorem length_frameBytes (format : ℕ) :
    (frameBytes payload format).length = frameHeaderSize format + payload.length := by
  simp [frameBytes]

omit [Externals] in
theorem readAt_append (before bytes after : Bytes) :
    readAt (before ++ (bytes ++ after)) before.length bytes.length = bytes := by
  rw [readAt, drop_left, take_left]

/-- A written frame header is parsed back to the payload's length and checksum. -/
theorem parseFrameHeader_frameHeaderBytes {payload : Bytes} (hpayload : payload.length < 2 ^ 32)
    (format : ℕ) :
    parseFrameHeader format (frameHeaderBytes payload format) =
      { length := payload.length, payloadChecksum := (checksumIEEE payload).toNat,
        lengthValid := true } := by
  have hlength : littleEndianValue (littleEndian frameFieldBytes payload.length) = payload.length :=
    littleEndianValue_littleEndian_of_lt (by simpa [frameFieldBytes] using hpayload)
  have hword (word : UInt32) :
      littleEndianValue (littleEndian frameFieldBytes word.toNat) = word.toNat :=
    littleEndianValue_littleEndian_of_lt (by simpa [frameFieldBytes] using word.toNat_lt)
  have hfirst : (frameHeaderBytes payload format).take frameFieldBytes =
      littleEndian frameFieldBytes payload.length := by
    simp [frameHeaderBytes]
  have hlast : (frameHeaderBytes payload format).drop
      ((frameHeaderBytes payload format).length - frameFieldBytes) =
      littleEndian frameFieldBytes (checksumIEEE payload).toNat := by
    unfold frameHeaderBytes
    rw [length_append, length_littleEndian, Nat.add_sub_cancel, drop_left]
  have hvalid : format = frameFormatLengthCRC →
      ((frameHeaderBytes payload format).drop frameFieldBytes).take frameFieldBytes =
        littleEndian frameFieldBytes
          (checksumIEEE (littleEndian frameFieldBytes payload.length)).toNat := by
    intro hformat
    simp [frameHeaderBytes, hformat]
  rw [parseFrameHeader]
  simp only [hfirst, hlast, hlength, hword, FrameHeader.mk.injEq, true_and, decide_eq_true_eq]
  by_cases hformat : format = frameFormatLengthCRC
  · exact .inr (by rw [hvalid hformat, hword])
  · exact .inl hformat

theorem headerAt_frameBytes {payload : Bytes} (hpayload : payload.length < 2 ^ 32) (format : ℕ)
    (before after : Bytes) :
    headerAt format (before ++ (frameBytes payload format ++ after)) before.length =
      { length := payload.length, payloadChecksum := (checksumIEEE payload).toNat,
        lengthValid := true } := by
  have hread := readAt_append before (frameHeaderBytes payload format) (payload ++ after)
  rw [length_frameHeaderBytes, ← append_assoc (frameHeaderBytes payload format)] at hread
  rw [headerAt, frameBytes, hread, parseFrameHeader_frameHeaderBytes hpayload]

theorem readAt_frameBytes (format : ℕ) (before after : Bytes) :
    readAt (before ++ (frameBytes payload format ++ after))
      (before.length + frameHeaderSize format) payload.length = payload := by
  have hread := readAt_append (before ++ frameHeaderBytes payload format) payload after
  simpa [frameBytes, append_assoc] using hread

end

/-- An additive checksum. -/
@[reducible] def sampleExternals : Externals where
  checksumIEEE bytes := UInt32.ofNat (bytes.map UInt8.toNat).sum
  emptyScalar := nullScalar .string

end Clyde.CodeStore
