import Clyde.Foundation.BufferedReader

/-!
# Reading frames of an event stream

`readRawCompactionSSEFrame` reads up to an empty line or a limit, without waiting for a byte that
has not arrived: after a carriage return it takes a line feed only if one is in the buffer. The
bytes it copies in runs are taken one by one in `scanFrame`, and `readFrame_spec` says that both
agree. `rawCompactionSSEFrames_eq` lists the frames up to the end of the stream.
-/

set_option autoImplicit false

namespace Clyde.Codex

open Foundation ByteCodec BufferedReader List Reader

variable {ε : Type}

/-! ### The frame reader -/

def isLineEnd (byte : UInt8) : Bool := byte = 0x0A || byte = 0x0D

/-- The front of a text up to and including the first line ending, within a limit. -/
def lineRun : (limit : ℕ) → Bytes → Bytes
  | 0, _ => []
  | _, [] => []
  | limit + 1, byte :: rest => if isLineEnd byte then [byte] else byte :: lineRun limit rest

/-- Takes what is in the buffer through the next line ending, up to a limit. -/
def appendRawCompactionSSERun (limit : ℕ) (reader : Reader ε) : Bytes × Reader ε :=
  (lineRun limit reader.buffer, reader.discard (lineRun limit reader.buffer).length)

/-- Takes the line feed after a carriage return if it is in the buffer. -/
def consumeRawCompactionSSECarriageReturn (value : UInt8) (reader : Reader ε) : Bytes × Reader ε :=
  if value = 0x0D ∧ reader.buffer.head? = some 0x0A then
    ([0x0A], reader.discard 1) else ([], reader)

def rawCompactionSSEBlankLine (line : Bytes) : Bool :=
  line = [0x0A] || line = [0x0D, 0x0A] || line = [0x0D]

structure FrameRead (ε : Type) where
  bytes : Bytes
  error : Option ε
  oversized : Bool
  deriving DecidableEq

/-- What one turn of the loop does: it returns, or it goes on with the frame and the line so far. -/
inductive Turn (ε : Type) where
  | done (read : FrameRead ε) (reader : Reader ε)
  | next (frame line : Bytes) (reader : Reader ε)

/-- The end of a turn, after the bytes up to `value` have been taken. -/
def endTurn (maxBytes : ℕ) (frame line : Bytes) (value : UInt8) (reader : Reader ε) : Turn ε :=
  if maxBytes < frame.length then .done ⟨frame, none, true⟩ reader
  else if isLineEnd value = false then .next frame line reader
  else
    let (lineFeed, reader) := consumeRawCompactionSSECarriageReturn value reader
    if maxBytes < (frame ++ lineFeed).length then .done ⟨frame ++ lineFeed, none, true⟩ reader
    else if rawCompactionSSEBlankLine (line ++ lineFeed) then
      .done ⟨frame ++ lineFeed, none, false⟩ reader
    else .next (frame ++ lineFeed) [] reader

def frameTurn (maxBytes : ℕ) (frame line : Bytes) (reader : Reader ε) : Turn ε :=
  match reader.readByte with
  | (.error error, reader) => .done ⟨frame, some error, false⟩ reader
  | (.ok value, reader) =>
    if isLineEnd value = false ∧ (frame ++ [value]).length ≤ maxBytes then
      let (run, reader) :=
      appendRawCompactionSSERun (maxBytes + 1 - (frame ++ [value]).length) reader
      endTurn maxBytes (frame ++ [value] ++ run) (line ++ [value] ++ run)
        (run.getLast?.getD value) reader
    else endTurn maxBytes (frame ++ [value]) (line ++ [value]) value reader

/-! ### The same byte by byte -/

/-- Why a frame ends. -/
inductive Ending where
  | complete
  | oversized
  | exhausted
  deriving DecidableEq, Repr

structure Scanned where
  bytes : Bytes
  ending : Ending
  rest : List (UInt8 × Bool)
  deriving DecidableEq, Repr

def Scanned.prepend (bytes : Bytes) (scanned : Scanned) : Scanned :=
  { scanned with bytes := bytes ++ scanned.bytes }

/-- After a line ending: an empty line completes the frame. -/
def endLine (blank : Bool) (bytes : Bytes) (rest : List (UInt8 × Bool)) (more : Scanned) :
    Scanned :=
  if blank then ⟨bytes, .complete, rest⟩ else more.prepend bytes

/-- A frame read byte by byte, after `length` bytes; `blank` says that the line is empty so far. -/
def scanFrame (maxBytes : ℕ) : (length : ℕ) → (blank : Bool) → List (UInt8 × Bool) → Scanned
  | _, _, [] => ⟨[], .exhausted, []⟩
  | length, blank, (byte, more) :: rest =>
    if maxBytes < length + 1 then ⟨[byte], .oversized, rest⟩
    else if isLineEnd byte = false then
      (scanFrame maxBytes (length + 1) false rest).prepend [byte]
    else
      match rest with
      | [] => endLine blank [byte] [] ⟨[], .exhausted, []⟩
      | (next, flag) :: tail =>
        if byte = 0x0D ∧ more = true ∧ next = 0x0A then
          if maxBytes < length + 2 then ⟨[byte, next], .oversized, tail⟩
          else endLine blank [byte, next] tail (scanFrame maxBytes (length + 2) true tail)
        else
          endLine blank [byte] ((next, flag) :: tail)
            (scanFrame maxBytes (length + 1) true ((next, flag) :: tail))

section

variable {maxBytes length : ℕ} {blank more : Bool} {byte : UInt8} {rest : List (UInt8 × Bool)}

@[simp] theorem scanFrame_nil (maxBytes length : ℕ) (blank : Bool) :
    scanFrame maxBytes length blank [] = ⟨[], .exhausted, []⟩ := rfl

theorem scanFrame_oversized (hlong : maxBytes < length + 1) :
    scanFrame maxBytes length blank ((byte, more) :: rest) = ⟨[byte], .oversized, rest⟩ := by
  cases rest <;> simp [scanFrame, hlong]

theorem scanFrame_plain (hfits : length + 1 ≤ maxBytes) (hbyte : isLineEnd byte = false) :
    scanFrame maxBytes length blank ((byte, more) :: rest) =
      (scanFrame maxBytes (length + 1) false rest).prepend [byte] := by
  cases rest <;> simp [scanFrame, Nat.not_lt.mpr hfits, hbyte]

theorem scanFrame_joined {flag : Bool} (hfits : length + 1 ≤ maxBytes) :
    scanFrame maxBytes length blank ((0x0D, true) :: (0x0A, flag) :: rest) =
      if maxBytes < length + 2 then ⟨[0x0D, 0x0A], .oversized, rest⟩
      else endLine blank [0x0D, 0x0A] rest (scanFrame maxBytes (length + 2) true rest) := by
  simp [scanFrame, Nat.not_lt.mpr hfits, isLineEnd]

theorem scanFrame_alone (hfits : length + 1 ≤ maxBytes) (hbyte : isLineEnd byte = true)
    (halone : ¬(byte = 0x0D ∧ more = true ∧ rest.head?.map Prod.fst = some 0x0A)) :
    scanFrame maxBytes length blank ((byte, more) :: rest) =
      endLine blank [byte] rest (scanFrame maxBytes (length + 1) true rest) := by
  cases rest with
  | nil => simp [scanFrame, Nat.not_lt.mpr hfits, hbyte]
  | cons next =>
    have hnot : ¬(byte = 0x0D ∧ more = true ∧ next.1 = 0x0A) := by simpa using halone
    simp only [scanFrame, Nat.not_lt.mpr hfits, hbyte, if_false, Bool.true_eq_false, hnot]

/-- The four cases of a scan step: past the limit, no line end, a CRLF that is seen whole, another
line end. -/
theorem scanFrame_cases (maxBytes length : ℕ) (byte : UInt8) (more : Bool)
    (rest : List (UInt8 × Bool)) :
    maxBytes < length + 1 ∨
    length + 1 ≤ maxBytes ∧ (isLineEnd byte = false ∨
      (byte = 0x0D ∧ more = true ∧ ∃ flag tail, rest = (0x0A, flag) :: tail) ∨
      isLineEnd byte = true ∧ ¬(byte = 0x0D ∧ more = true ∧
        rest.head?.map Prod.fst = some 0x0A)) := by
  rcases Nat.lt_or_ge maxBytes (length + 1) with hlong | hfits
  · exact .inl hlong
  refine .inr ⟨hfits, ?_⟩
  cases hbyte : isLineEnd byte with
  | false => exact .inl rfl
  | true =>
    by_cases hjoined : byte = 0x0D ∧ more = true ∧ rest.head?.map Prod.fst = some 0x0A
    · obtain ⟨hcr, hmore, hhead⟩ := hjoined
      cases rest with
      | nil => simp at hhead
      | cons next tail =>
        have hnext : next.1 = 0x0A := by simpa using hhead
        exact .inr (.inl ⟨hcr, hmore, next.2, tail, by rw [← hnext]⟩)
    · exact .inr (.inr ⟨rfl, hjoined⟩)

variable (bytes : Bytes) (scanned : Scanned)

@[simp] theorem bytes_prepend :
    (scanned.prepend bytes).bytes = bytes ++ scanned.bytes := rfl

@[simp] theorem ending_prepend :
    (scanned.prepend bytes).ending = scanned.ending := rfl

@[simp] theorem rest_prepend :
    (scanned.prepend bytes).rest = scanned.rest := rfl

theorem prepend_prepend (first second : Bytes) (scanned : Scanned) :
    (scanned.prepend second).prepend first = scanned.prepend (first ++ second) := by
  simp [Scanned.prepend]

/-- One step of the scan consumes bytes and ends the frame or scans on. -/
theorem scanFrame_step {arrivals : List (UInt8 × Bool)} (hne : arrivals ≠ []) :
    ∃ bytes rest, bytes ≠ [] ∧ arrivals.map Prod.fst = bytes ++ rest.map Prod.fst ∧
      rest.length < arrivals.length ∧
      ((∃ ending ≠ .exhausted, scanFrame maxBytes length blank arrivals = ⟨bytes, ending, rest⟩) ∨
        ∃ length' blank', scanFrame maxBytes length blank arrivals =
          (scanFrame maxBytes length' blank' rest).prepend bytes) := by
  obtain ⟨⟨byte, more⟩, rest, rfl⟩ := exists_cons_of_ne_nil hne
  rcases scanFrame_cases maxBytes length byte more rest with
    hlong | ⟨hfits, hplain | ⟨rfl, rfl, flag, tail, rfl⟩ | ⟨hend, halone⟩⟩
  · exact ⟨[byte], rest, by simp, rfl, by simp, .inl ⟨.oversized,
      by simp, scanFrame_oversized hlong⟩⟩
  · exact ⟨[byte], rest, by simp, rfl, by simp, .inr ⟨_, _, scanFrame_plain hfits hplain⟩⟩
  · refine ⟨[0x0D, 0x0A], tail, by simp, rfl, by simp only [length_cons]; omega, ?_⟩
    rw [scanFrame_joined hfits]
    unfold endLine
    split
    · exact .inl ⟨.oversized, by simp, rfl⟩
    · split
      · exact .inl ⟨.complete, by simp, rfl⟩
      · exact .inr ⟨_, _, rfl⟩
  refine ⟨[byte], rest, by simp, rfl, by simp, ?_⟩
  rw [scanFrame_alone hfits hend halone]
  unfold endLine
  split
  · exact .inl ⟨.complete, by simp, rfl⟩
  · exact .inr ⟨_, _, rfl⟩

theorem scanFrame_ne_nil {arrivals : List (UInt8 × Bool)} (hne : arrivals ≠ []) :
    (scanFrame maxBytes length blank arrivals).bytes ≠ [] := by
  obtain ⟨_, _, hbytes, -, -, ⟨_, -, hscan⟩ | ⟨_, _, hscan⟩⟩ := scanFrame_step hne
  · rwa [hscan]
  · simp [hscan, hbytes]

end

/-- The scan loses no byte: a frame and what is left are what arrived. -/
theorem scanFrame_bytes (maxBytes length : ℕ) (blank : Bool) (arrivals : List (UInt8 × Bool)) :
    (scanFrame maxBytes length blank arrivals).bytes ++
        (scanFrame maxBytes length blank arrivals).rest.map Prod.fst = arrivals.map Prod.fst ∧
      ((scanFrame maxBytes length blank arrivals).ending = .exhausted →
        (scanFrame maxBytes length blank arrivals).rest = []) := by
  induction hlength :
    arrivals.length using Nat.strong_induction_on generalizing length blank arrivals with
  | _ _ ih =>
    subst hlength
    by_cases hne : arrivals = []
    · subst hne
      exact ⟨rfl, fun _ ↦ rfl⟩
    obtain ⟨_, rest, -, hsplit, hshorter, ⟨_, hending, hscan⟩ | ⟨length', blank', hscan⟩⟩ :=
      @scanFrame_step maxBytes length blank arrivals hne
    · rw [hscan, hsplit]
      exact ⟨rfl, fun hexhausted ↦ absurd hexhausted hending⟩
    · obtain ⟨hbytes, hrest⟩ := ih _ hshorter length' blank' rest rfl
      rw [hscan, hsplit, ← hbytes]
      exact ⟨by simp, hrest⟩

/-! ### Both agree -/

def FrameRead.ofScanned (frame : Bytes) (failure : ε) (scanned : Scanned) : FrameRead ε :=
  ⟨frame ++ scanned.bytes, if scanned.ending = .exhausted then some failure else none,
    scanned.ending = .oversized⟩

/-- A turn does what scanning does: it returns what is scanned, or leaves the rest of the scan. -/
def Turn.Agrees (maxBytes : ℕ) (frame : Bytes) (failure : ε) (scanned : Scanned) : Turn ε → Prop
  | .done read left =>
    read = .ofScanned frame failure scanned ∧ left.arrivals = scanned.rest ∧ left.failure = failure
  | .next frame' line left =>
    (∀ byte ∈ line, isLineEnd byte = false) ∧ left.failure = failure ∧
      ∃ taken, frame' = frame ++ taken ∧
        scanned = (scanFrame maxBytes frame'.length line.isEmpty left.arrivals).prepend taken

variable {maxBytes : ℕ} {scanned : Scanned}

theorem Turn.Agrees.prepend {frame bytes : Bytes} {failure : ε}
    {turn : Turn ε} (hagrees : turn.Agrees maxBytes (frame ++ bytes) failure scanned) :
    turn.Agrees maxBytes frame failure (scanned.prepend bytes) := by
  cases turn with
  | done _ left =>
    obtain ⟨hread, hleft⟩ := hagrees
    refine ⟨?_, hleft⟩
    rw [hread, FrameRead.ofScanned, append_assoc]
    rfl
  | next =>
    obtain ⟨hline, hfailure, taken, hframe, hscanned⟩ := hagrees
    exact ⟨hline, hfailure, bytes ++ taken, by simp [hframe], by rw [hscanned, prepend_prepend]⟩

theorem blankLine_append {line ending : Bytes} (hline : ∀ byte ∈ line, isLineEnd byte = false)
    (hending : rawCompactionSSEBlankLine ending = true) :
    rawCompactionSSEBlankLine (line ++ ending) = line.isEmpty := by
  cases line with
  | nil => simpa using hending
  | cons byte rest =>
    have hbyte := hline byte mem_cons_self
    have hfeed : byte ≠ 0x0A := by rintro rfl; cases hbyte
    have hreturn : byte ≠ 0x0D := by rintro rfl; cases hbyte
    simp [rawCompactionSSEBlankLine, hfeed, hreturn]

section

variable {maxBytes : ℕ} {frame line : Bytes} {value : UInt8} {reader : Reader ε}

/-- The end of a turn agrees with the scan when the turn's byte is a line end. -/
theorem endTurn_of_lineEnd (hvalue : isLineEnd value = true)
    (hline : ∀ byte ∈ line, isLineEnd byte = false) :
    (endTurn maxBytes (frame ++ [value]) (line ++ [value]) value reader).Agrees
      maxBytes frame reader.failure
      (scanFrame maxBytes frame.length line.isEmpty ((value, !reader.buffer.isEmpty) ::
        reader.arrivals)) := by
  have hlength : (frame ++ [value]).length = frame.length + 1 := by simp
  unfold endTurn
  rcases Nat.lt_or_ge maxBytes (frame.length + 1) with hlong | hfits
  · rw [if_pos (by rwa [hlength]), scanFrame_oversized hlong]
    exact ⟨rfl, rfl, rfl⟩
  rw [if_neg (by rw [hlength]; omega), if_neg (by simp [hvalue])]
  by_cases hfeed : value = 0x0D ∧ reader.buffer.head? = some 0x0A
  · obtain ⟨rfl, hhead⟩ := hfeed
    obtain ⟨rest, hbuffer⟩ : ∃ rest, reader.buffer = 0x0A :: rest := by
      cases hbuffer : reader.buffer with
      | nil => simp [hbuffer] at hhead
      | cons first rest => exact ⟨rest, by simpa [hbuffer] using hhead⟩
    have hempty : (!reader.buffer.isEmpty) = true := by simp [hbuffer]
    have hconsume : consumeRawCompactionSSECarriageReturn 0x0D reader =
        ([0x0A], reader.discard 1) := by
      simp [consumeRawCompactionSSECarriageReturn, hbuffer]
    rw [hconsume, hempty, arrivals_of_cons hbuffer, scanFrame_joined hfits]
    have hblank : rawCompactionSSEBlankLine (line ++ [0x0D] ++ [0x0A]) = line.isEmpty := by
      rw [append_assoc]
      exact blankLine_append hline (by decide)
    have htwo : (frame ++ [0x0D] ++ [0x0A]).length = frame.length + 2 := by simp
    simp only [hblank, htwo, endLine]
    split
    · exact ⟨by simp [FrameRead.ofScanned], rfl, rfl⟩
    · split
      · exact ⟨by simp [FrameRead.ofScanned], rfl, rfl⟩
      · exact ⟨by simp, rfl, [0x0D, 0x0A], by simp, by simp⟩
  have hconsume : consumeRawCompactionSSECarriageReturn value reader = ([], reader) := by
    simp [consumeRawCompactionSSECarriageReturn, hfeed]
  have halone : ¬(value = 0x0D ∧ (!reader.buffer.isEmpty) = true ∧
      reader.arrivals.head?.map Prod.fst = some 0x0A) := by
    rintro ⟨hreturn, hempty, hhead⟩
    cases hbuffer : reader.buffer with
    | nil => simp [hbuffer] at hempty
    | cons =>
      rw [arrivals_of_cons hbuffer] at hhead
      exact hfeed ⟨hreturn, by simpa [hbuffer] using hhead⟩
  rw [hconsume, scanFrame_alone hfits hvalue halone]
  have hblank : rawCompactionSSEBlankLine (line ++ [value]) = line.isEmpty := by
    refine blankLine_append hline ?_
    simpa [rawCompactionSSEBlankLine, isLineEnd] using hvalue
  simp only [append_nil, hblank, hlength, endLine, Nat.not_lt.mpr hfits, if_false]
  split
  · exact ⟨by simp [FrameRead.ofScanned], rfl, rfl⟩
  · exact ⟨by simp, rfl, [value], by simp, by simp⟩

/-- The end of a turn agrees with the scan when the turn read a run without a line end. -/
theorem endTurn_of_run (hfits : frame.length ≤ maxBytes)
    (hline : ∀ byte ∈ line, isLineEnd byte = false) (hne : line ≠ [])
    (hvalue : isLineEnd value = false) {run : Bytes}
    (hrun : run = lineRun (maxBytes + 1 - frame.length) reader.buffer) :
    (endTurn maxBytes (frame ++ run) (line ++ run) (run.getLast?.getD value)
      (reader.discard run.length)).Agrees maxBytes frame reader.failure
      (scanFrame maxBytes frame.length false reader.arrivals) := by
  have hempty : line.isEmpty = false := by simpa using hne
  induction hbuffer : reader.buffer generalizing frame line value reader run with
  | nil =>
    obtain rfl : run = [] := by rw [hrun, hbuffer]; cases maxBytes + 1 - frame.length <;> rfl
    simp only [endTurn, append_nil, Nat.not_lt.mpr hfits, if_false, getLast?_nil,
      Option.getD_none, hvalue, if_true]
    exact ⟨hline, rfl, [], by simp, by simp [Scanned.prepend, hempty]⟩
  | cons byte rest ih =>
    have hleft : (reader.discard 1).buffer = rest := by simp [Reader.discard, hbuffer]
    obtain ⟨limit, hlimit⟩ : ∃ limit, maxBytes + 1 - frame.length = limit + 1 :=
      ⟨maxBytes - frame.length, by omega⟩
    rw [hlimit, hbuffer] at hrun
    rw [arrivals_of_cons hbuffer, ← hleft]
    cases hbyte : isLineEnd byte with
    | true =>
      obtain rfl : run = [byte] := by simpa [lineRun, hbyte] using hrun
      have hagrees := @endTurn_of_lineEnd ε maxBytes frame line byte (reader.discard 1) hbyte hline
      rw [hempty] at hagrees
      simpa using hagrees
    | false =>
      obtain rfl : run = byte :: lineRun limit rest := by simpa [lineRun, hbyte] using hrun
      rcases Nat.lt_or_ge maxBytes (frame.length + 1) with hlong | hmore
      · obtain rfl : limit = 0 := by omega
        have hone : maxBytes < (frame ++ byte :: lineRun 0 rest).length := by
          simpa [lineRun] using hlong
        rw [scanFrame_oversized hlong, endTurn, if_pos hone]
        exact ⟨by simp [lineRun, FrameRead.ofScanned], by simp [lineRun], rfl⟩
      rw [scanFrame_plain hmore hbyte]
      refine Turn.Agrees.prepend ?_
      have hagrees := @ih (frame ++ [byte]) (line ++ [byte]) byte _
        (by simpa using hmore) (by simpa [or_imp, forall_and, hbyte] using hline) (by simp)
        hbyte (lineRun limit rest) (by rw [hleft]; congr 1; simp; omega) (by simp) hleft
      rw [discard_discard, Nat.add_comm 1] at hagrees
      simpa [getLast?_cons] using hagrees

/-- One turn of the reader's loop agrees with the scan of what is left. -/
theorem frameTurn_spec (hline : ∀ byte ∈ line, isLineEnd byte = false) :
    (frameTurn maxBytes frame line reader).Agrees maxBytes frame reader.failure
      (scanFrame maxBytes frame.length line.isEmpty reader.arrivals) := by
  unfold frameTurn
  cases harrivals : reader.arrivals with
  | nil =>
    obtain ⟨left, hread, hleft, hfailure⟩ := readByte_of_nil harrivals
    rw [hread]
    exact ⟨by simp [FrameRead.ofScanned], hleft, hfailure⟩
  | cons arrival =>
    obtain ⟨byte, more⟩ := arrival
    obtain ⟨left, hread, hleft, hfailure, hbuffer⟩ := readByte_of_cons harrivals
    have hmore : more = !left.buffer.isEmpty := by simp [hbuffer]
    rw [hread, ← hfailure, ← hleft, hmore]
    dsimp only
    split
    · rename_i hrun
      have hfits : frame.length + 1 ≤ maxBytes := by simpa using hrun.2
      rw [scanFrame_plain hfits hrun.1]
      refine Turn.Agrees.prepend ?_
      have hagrees := @endTurn_of_run ε maxBytes _ (line ++ [byte]) byte left
        hrun.2 (by simpa [or_imp, forall_and, hrun.1] using hline) (by simp) hrun.1 _ rfl
      simpa [appendRawCompactionSSERun] using hagrees
    · rename_i hrun
      cases hbyte : isLineEnd byte with
      | true => exact endTurn_of_lineEnd hbyte hline
      | false =>
        have hlong : maxBytes < frame.length + 1 := by simpa [hbyte] using hrun
        rw [scanFrame_oversized hlong, endTurn, if_pos (by simpa using hlong)]
        exact ⟨rfl, rfl, rfl⟩

end

/-! ### Whole frames -/

section

variable {maxBytes : ℕ} {frame line frame' line' : Bytes} {value : UInt8} {reader left : Reader ε}

/-- A turn's end does not put bytes back. -/
theorem length_le_of_endTurn
    (hturn : endTurn maxBytes frame line value reader = .next frame' line' left) :
    left.bytes.length ≤ reader.bytes.length := by
  have hconsumed : (consumeRawCompactionSSECarriageReturn value reader).2.bytes.length ≤
      reader.bytes.length := by
    unfold consumeRawCompactionSSECarriageReturn
    split <;> simp [Reader.bytes, Reader.discard]
  unfold endTurn at hturn
  split at hturn
  · cases hturn
  split at hturn
  · cases hturn
    exact le_rfl
  dsimp only at hturn
  split at hturn
  · cases hturn
  split at hturn
  · cases hturn
  · cases hturn
    exact hconsumed

/-- Every turn consumes a byte, so the loop terminates. -/
theorem length_lt_of_frameTurn
    (hturn : frameTurn maxBytes frame line reader = .next frame' line' left) :
    left.bytes.length < reader.bytes.length := by
  unfold frameTurn at hturn
  cases harrivals : reader.arrivals with
  | nil =>
    obtain ⟨_, hread, -⟩ := readByte_of_nil harrivals
    simp [hread] at hturn
  | cons =>
    obtain ⟨taken, hread, htaken, -⟩ := readByte_of_cons harrivals
    have hbytes : taken.bytes.length < reader.bytes.length := by
      rw [← map_fst_arrivals, ← map_fst_arrivals reader, harrivals, htaken]
      simp
    rw [hread] at hturn
    dsimp only at hturn
    split at hturn
    · refine (length_le_of_endTurn hturn).trans_lt (lt_of_le_of_lt ?_ hbytes)
      simp [Reader.bytes, Reader.discard, appendRawCompactionSSERun]
    · exact (length_le_of_endTurn hturn).trans_lt hbytes

end

def readFrameFrom (maxBytes : ℕ) (frame line : Bytes) (reader : Reader ε) :
    FrameRead ε × Reader ε :=
  match _hturn : frameTurn maxBytes frame line reader with
  | .done read left => (read, left)
  | .next frame line left => readFrameFrom maxBytes frame line left
  termination_by reader.bytes.length
  decreasing_by exact length_lt_of_frameTurn _hturn

def readRawCompactionSSEFrame (reader : Reader ε) (maxBytes : ℕ) : FrameRead ε × Reader ε :=
  readFrameFrom maxBytes [] [] reader

/-- The reader's loop returns the scanned frame, by induction on the bytes left. -/
theorem readFrameFrom_spec {frame line : Bytes} {reader : Reader ε}
    (hline : ∀ byte ∈ line, isLineEnd byte = false)
    (hscanned : scanFrame maxBytes frame.length line.isEmpty reader.arrivals = scanned) :
    ∃ left, readFrameFrom maxBytes frame line reader =
      (.ofScanned frame reader.failure scanned, left) ∧
      left.arrivals = scanned.rest ∧ left.failure = reader.failure := by
  fun_induction readFrameFrom maxBytes frame line reader generalizing scanned with
  | case1 frame line reader _ left hturn =>
    have hagrees := @frameTurn_spec ε maxBytes frame line reader hline
    rw [hturn, hscanned] at hagrees
    obtain ⟨rfl, hleft, hfailure⟩ := hagrees
    exact ⟨left, rfl, hleft, hfailure⟩
  | case2 frame line reader _ _ _ hturn ih =>
    have hagrees := @frameTurn_spec ε maxBytes frame line reader hline
    rw [hturn, hscanned] at hagrees
    obtain ⟨hline', hfailure, _, rfl, rfl⟩ := hagrees
    obtain ⟨last, hread, hlast, hlastFailure⟩ := ih hline' rfl
    refine ⟨last, ?_, hlast, hlastFailure.trans hfailure⟩
    rw [hread, hfailure, FrameRead.ofScanned, append_assoc]
    rfl

/-- Reading a frame is one scan of the arrivals. -/
theorem readFrame_spec (maxBytes : ℕ) (reader : Reader ε) :
    ∃ left, readRawCompactionSSEFrame reader maxBytes =
        (.ofScanned [] reader.failure (scanFrame maxBytes 0 true reader.arrivals), left) ∧
      left.arrivals = (scanFrame maxBytes 0 true reader.arrivals).rest ∧
      left.failure = reader.failure :=
  readFrameFrom_spec (by simp) rfl

/-- Reading a frame takes its bytes from the front; an error comes at the end, and without one the
frame is not empty. -/
theorem readFrame_conserves {reader left : Reader ε} {read : FrameRead ε}
    (hread : readRawCompactionSSEFrame reader maxBytes = (read, left)) :
    read.bytes ++ left.bytes = reader.bytes ∧ left.failure = reader.failure ∧
      (read.error = none → read.bytes ≠ []) ∧
      ∀ error, read.error = some error → error = reader.failure ∧ left.bytes = [] := by
  obtain ⟨_, hspec, harrivals, hfailure⟩ := readFrame_spec maxBytes reader
  obtain ⟨rfl, rfl⟩ := Prod.mk.inj (hread.symm.trans hspec)
  obtain ⟨hbytes, hrest⟩ := scanFrame_bytes maxBytes 0 true _
  rw [← harrivals, map_fst_arrivals, map_fst_arrivals] at hbytes
  refine ⟨hbytes, hfailure, fun hnone ↦ ?_, fun error herror ↦ ?_⟩
  · have hne : reader.arrivals ≠ [] := by
      intro hnil
      simp [FrameRead.ofScanned, hnil] at hnone
    exact scanFrame_ne_nil hne
  simp only [FrameRead.ofScanned, Option.ite_none_right_eq_some, Option.some.injEq] at herror
  have hend := hrest herror.1
  rw [← map_fst_arrivals, harrivals, hend]
  exact ⟨herror.2.symm, rfl⟩

def rawCompactionSSEFrames (maxBytes : ℕ) (reader : Reader ε) : List (FrameRead ε) :=
  match _hread : readRawCompactionSSEFrame reader maxBytes with
  | (read, left) =>
    if _hend : read.error.isSome then [read] else read :: rawCompactionSSEFrames maxBytes left
  termination_by reader.bytes.length
  decreasing_by
    obtain ⟨hbytes, -, hne, -⟩ := readFrame_conserves _hread
    have hlength := congrArg List.length hbytes
    have hpos := List.length_pos_iff.mpr (hne (by simpa using _hend))
    rw [List.length_append] at hlength
    omega

def scanFramesFrom (maxBytes length : ℕ) (blank : Bool) (arrivals : List (UInt8 × Bool)) :
    List (Bytes × Ending) :=
  match _hscan : scanFrame maxBytes length blank arrivals with
  | ⟨bytes, ending, rest⟩ =>
    (bytes, ending) ::
      if _hend : ending = .exhausted then [] else scanFramesFrom maxBytes 0 true rest
  termination_by arrivals.length
  decreasing_by
    have hne : arrivals ≠ [] := by
      rintro rfl
      cases _hscan
      exact _hend rfl
    have hbytes := congrArg List.length (scanFrame_bytes maxBytes length blank arrivals).1
    have hpos := List.length_pos_iff.mpr (@scanFrame_ne_nil maxBytes length blank _ hne)
    rw [_hscan] at hbytes hpos
    simp only [List.length_append, List.length_map] at hbytes
    dsimp only at hpos
    omega

def FrameRead.ofFrame (failure : ε) (frame : Bytes × Ending) : FrameRead ε :=
  .ofScanned [] failure ⟨frame.1, frame.2, []⟩

/-- Reading frame after frame is the scan of all arrivals. -/
theorem rawCompactionSSEFrames_eq (maxBytes : ℕ) (reader : Reader ε) :
    rawCompactionSSEFrames maxBytes reader =
      (scanFramesFrom maxBytes 0 true reader.arrivals).map (.ofFrame reader.failure) := by
  fun_induction rawCompactionSSEFrames maxBytes reader with
  | case1 reader read left hread hend =>
    obtain ⟨found, hspec, -, -⟩ := readFrame_spec maxBytes reader
    obtain ⟨rfl, rfl⟩ := Prod.mk.inj (hread.symm.trans hspec)
    have hexhausted : (scanFrame maxBytes 0 true reader.arrivals).ending = .exhausted := by
      by_contra hending
      simp [FrameRead.ofScanned, hending] at hend
    unfold scanFramesFrom
    simp [hexhausted, FrameRead.ofFrame, FrameRead.ofScanned]
  | case2 reader _ _ hread hend ih =>
    obtain ⟨_, hspec, harrivals, hfailure⟩ := readFrame_spec maxBytes reader
    obtain ⟨rfl, rfl⟩ := Prod.mk.inj (hread.symm.trans hspec)
    have hending : (scanFrame maxBytes 0 true reader.arrivals).ending ≠ .exhausted := by
      intro hexhausted
      simp [FrameRead.ofScanned, hexhausted] at hend
    rw [ih, harrivals, hfailure]
    conv_rhs => unfold scanFramesFrom
    simp [hending, FrameRead.ofFrame, FrameRead.ofScanned]

end Clyde.Codex
