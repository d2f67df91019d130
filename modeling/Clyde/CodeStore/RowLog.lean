import Clyde.CodeStore.Replay

/-!
# Row logs

What chains of accepted records do when the log around them changes, and what the frames of a write
are. A chain keeps its records when bytes are appended, when the log is cut at or after its end,
when columns are declared and when the data file grows. Two chains from one offset agree as far as
both go, so a handle that has carried out more of the log than another has carried out the same
records first (`Accepted.agree`).

`frameRecords` is the row buffer of `write`. `replay_tornTail` is the recovery of a torn append.
-/

set_option autoImplicit false

namespace Clyde.CodeStore

open Foundation ByteCodec List

section

variable [Externals]

open Externals (checksumIEEE)

/-! ### Logs that agree on their first bytes -/

variable {first second : Bytes} {limit : ℕ}

omit [Externals] in
theorem readAt_congr (hagree : first.take limit = second.take limit) {start count : ℕ}
    (hend : start + count ≤ limit) :
    readAt first start count = readAt second start count := by
  have hread (log : Bytes) : readAt log start count = readAt (log.take limit) start count := by
    rw [readAt, readAt, drop_take, take_take, min_eq_left (by omega)]
  rw [hread first, hread second, hagree]

theorem headerAt_congr (hagree : first.take limit = second.take limit) {format start : ℕ}
    (hend : start + frameHeaderSize format ≤ limit) :
    headerAt format first start = headerAt format second start := by
  rw [headerAt, headerAt, readAt_congr hagree hend]

variable {reading : Reading} {log : Bytes} {record : RowRecord} {offset stop : ℕ}

theorem AcceptAt.lt
    (haccept : AcceptAt reading log offset record stop) : offset < stop ∧ stop ≤ log.length := by
  obtain ⟨⟨_, _, _, _, _⟩, hstop, _⟩ := haccept
  rw [hstop, frameEnd]
  omega

variable {records : List RowRecord}

theorem Accepted.le (haccepted : Accepted reading log offset records stop) : offset ≤ stop := by
  induction haccepted with
  | nil => exact le_rfl
  | cons haccept _ ih => exact haccept.lt.1.le.trans ih

/-- A record is accepted in any log that agrees up to its end. -/
theorem AcceptAt.congr (haccept : AcceptAt reading first offset record stop)
    (hagree : first.take limit = second.take limit) (hstop : stop ≤ limit)
    (hlimit : limit ≤ second.length) : AcceptAt reading second offset record stop := by
  obtain ⟨⟨_, _, _, _, hmatches⟩, hstopEq, hdecoded, hinside⟩ := haccept
  rw [frameEnd] at hstopEq
  have hheaderEq : headerAt reading.format first offset = headerAt reading.format second offset :=
    headerAt_congr hagree (by omega)
  have hpayload : readAt first (offset + frameHeaderSize reading.format)
      (headerAt reading.format first offset).length = readAt second
        (offset + frameHeaderSize reading.format)
          (headerAt reading.format first offset).length :=
    readAt_congr hagree (by omega)
  refine ⟨⟨by omega, ?_, ?_, ?_, ?_⟩, ?_, ?_, hinside⟩
  · rwa [← hheaderEq]
  · rwa [← hheaderEq]
  · rw [← hheaderEq]
    omega
  · rwa [payloadMatches, ← hheaderEq, ← hpayload]
  · rw [frameEnd, ← hheaderEq, hstopEq]
  · rwa [payloadAt, ← hheaderEq, ← hpayload]

theorem Accepted.congr (haccepted : Accepted reading first offset records stop)
    (hagree : first.take limit = second.take limit) (hstop : stop ≤ limit)
    (hlimit : limit ≤ second.length) : Accepted reading second offset records stop := by
  induction haccepted with
  | nil offset => exact .nil offset
  | cons haccept htail ih =>
    exact .cons (haccept.congr hagree (htail.le.trans hstop) hlimit) (ih hstop)

theorem Accepted.append_log (haccepted : Accepted reading log offset records stop)
    (hstop : stop ≤ log.length) (more : Bytes) :
    Accepted reading (log ++ more) offset records stop :=
  haccepted.congr (by rw [take_left, take_length]) hstop (by simp)

theorem Accepted.take_log {cut : ℕ} (haccepted : Accepted reading log offset records stop)
    (hstop : stop ≤ cut) (hcut : cut ≤ log.length) :
    Accepted reading (log.take cut) offset records stop := by
  have hagree : log.take cut = (log.take cut).take cut := by rw [take_take, min_self]
  exact haccepted.congr hagree hstop (by simpa using hcut)

/-! ### Chains -/

theorem Accepted.append {middle : ℕ} {first second : List RowRecord}
    (hfirst : Accepted reading log offset first middle)
    (hsecond : Accepted reading log middle second stop) :
    Accepted reading log offset (first ++ second) stop := by
  induction hfirst with
  | nil => exact hsecond
  | cons haccept _ ih => exact .cons haccept (ih hsecond)

/-- Of two chains from one offset the shorter is the start of the longer. -/
theorem Accepted.agree {middle : ℕ} {first : List RowRecord}
    (hfirst : Accepted reading log offset first middle)
    (hrecords : Accepted reading log offset records stop) (hle : middle ≤ stop) :
    ∃ rest, records = first ++ rest ∧ Accepted reading log middle rest stop := by
  induction hfirst generalizing records with
  | nil offset => exact ⟨records, rfl, hrecords⟩
  | @cons offset next _ record _ haccept htail ih =>
    cases hrecords with
    | nil =>
      have hlt := haccept.lt.1
      have hmiddle := htail.le
      omega
    | @cons _ other _ candidate _ hcandidate hothers =>
      have hnext : other = next := hcandidate.stop_eq.trans haccept.stop_eq.symm
      have hrecord : candidate = record := by
        have hdecoded := hcandidate.decoded
        rw [haccept.decoded] at hdecoded
        exact (Decoded.ok.inj hdecoded).symm
      subst hnext hrecord
      obtain ⟨rest, rfl, hrest⟩ := ih hothers hle
      exact ⟨rest, rfl, hrest⟩

/-- A chain stays accepted under more columns and a longer data file. -/
theorem Accepted.mono {larger : Reading} (haccepted : Accepted reading log offset records stop)
    (hformat : larger.format = reading.format) (hcolumns : reading.columns <+: larger.columns)
    (hdata : reading.dataSize ≤ larger.dataSize) :
    Accepted larger log offset records stop := by
  induction haccepted with
  | nil offset => exact .nil offset
  | cons haccept _ ih =>
    refine .cons ⟨?_, ?_, ?_, fun hkind ↦ ?_⟩ ih
    · rw [hformat]
      exact haccept.frame
    · rw [hformat]
      exact haccept.stop_eq
    · obtain ⟨extra, hextra⟩ := hcolumns
      rw [hformat, ← hextra]
      exact decodeRecord_append haccept.decoded extra
    · have hinside := haccept.inside hkind
      omega

/-! ### Frames of a write -/

def framesOf (format : ℕ) (payloads : List Bytes) : Bytes :=
  payloads.flatMap fun payload ↦ frameBytes payload format

def frameRecords (columns : List ScalarColumn) (format : ℕ) :
    List RowRecord → Bytes → Except Failure Bytes
  | [], buffer => .ok buffer
  | record :: rest, buffer =>
    match encodeRecord record columns with
    | none => .error .encodeRecord
    | some payload =>
      match appendFrame buffer payload format with
      | none => .error .frameRecord
      | some buffer => frameRecords columns format rest buffer

theorem framesOf_append (format : ℕ) (first second : List Bytes) :
    framesOf format (first ++ second) = framesOf format first ++ framesOf format second :=
  flatMap_append

structure Holds (reading : Reading) (payload : Bytes) (record : RowRecord) : Prop where
  nonempty : payload ≠ []
  length_lt : payload.length < 2 ^ 32
  decoded : decodeRecord payload reading.columns = .ok record
  inside : record.kind = .upsert → record.dataEnd ≤ reading.dataSize

variable {payload : Bytes}

/-- A framed record is accepted wherever it stands in a log. -/
theorem acceptAt_frameBytes (hholds : Holds reading payload record) (before after : Bytes) :
    AcceptAt reading (before ++ (frameBytes payload reading.format ++ after)) before.length record
      (before.length + (frameBytes payload reading.format).length) := by
  have hheader := headerAt_frameBytes hholds.length_lt reading.format before after
  have hpayload := readAt_frameBytes payload reading.format before after
  have hlength : payload.length ≠ 0 := fun hzero ↦ hholds.nonempty (length_eq_zero_iff.mp hzero)
  refine ⟨⟨?_, ?_, ?_, ?_, ?_⟩, ?_, ?_, hholds.inside⟩
  · simp only [length_append, length_frameBytes]
    omega
  · rw [hheader]
  · rwa [hheader]
  · rw [hheader]
    simp only [length_append, length_frameBytes]
    omega
  · rw [hheader, payloadMatches, hpayload]
    simp
  · rw [frameEnd, hheader, length_frameBytes, Nat.add_assoc]
  · rw [payloadAt, hheader, hpayload]
    exact hholds.decoded

variable {payloads : List Bytes}

theorem accepted_framesOf (hholds : List.Forall₂ (Holds reading) payloads records)
    (before after : Bytes) :
    Accepted reading (before ++ (framesOf reading.format payloads ++ after)) before.length records
      (before.length + (framesOf reading.format payloads).length) := by
  induction hholds generalizing before with
  | nil => exact .nil _
  | @cons payload _ payloads _ hhead _ ih =>
    have hfirst := acceptAt_frameBytes hhead before (framesOf reading.format payloads ++ after)
    have hrest := ih (before ++ frameBytes payload reading.format)
    simp only [framesOf, flatMap_cons, append_assoc, length_append] at hfirst hrest ⊢
    rw [Nat.add_assoc] at hrest
    exact .cons hfirst hrest

def Encodes (columns : List ScalarColumn) (record : RowRecord) (payload : Bytes) : Prop :=
  encodeRecord record columns = some payload ∧ payload.length < 2 ^ 32

omit [Externals] in
theorem encodes_unique (columns : List ScalarColumn) : Relator.RightUnique (Encodes columns) := by
  intro _ _ _ hfirst hsecond
  exact Option.some.inj (hfirst.1.symm.trans hsecond.1)

variable {columns : List ScalarColumn} {format : ℕ}

/-- Framing succeeds exactly when every record can be encoded, and then appends the frames. -/
theorem frameRecords_eq_ok_iff {buffer framed : Bytes} :
    frameRecords columns format records buffer = .ok framed ↔
      ∃ payloads, List.Forall₂ (Encodes columns) records payloads ∧
        framed = buffer ++ framesOf format payloads := by
  induction records generalizing buffer with
  | nil => simp [frameRecords, framesOf, eq_comm]
  | cons record _ ih =>
    cases hencode : encodeRecord record columns with
    | none => simp [frameRecords, hencode, forall₂_cons_left_iff, Encodes]
    | some payload =>
      simp only [frameRecords, hencode, appendFrame, forall₂_cons_left_iff,
        Encodes, Option.some.injEq]
      split_ifs with hlong
      · simp only [false_iff]
        rintro ⟨_, ⟨_, _, ⟨rfl, _⟩, _, _⟩, _⟩
        omega
      simp only [ih]
      constructor
      · rintro ⟨payloads, hpayloads, rfl⟩
        exact ⟨payload :: payloads, ⟨payload, payloads, ⟨rfl, by omega⟩, hpayloads,
          rfl⟩, by simp [framesOf]⟩
      · rintro ⟨_, ⟨_, payloads, ⟨rfl, _⟩, hpayloads, rfl⟩, rfl⟩
        exact ⟨payloads, hpayloads, by simp [framesOf]⟩

theorem frameRecords_eq_error {buffer : Bytes} {failure : Failure}
    (hfailure : frameRecords columns format records buffer = .error failure) :
    failure = .encodeRecord ∨ failure = .frameRecord := by
  induction records generalizing buffer with
  | nil => simp [frameRecords] at hfailure
  | cons record _ ih =>
    rw [frameRecords] at hfailure
    cases hencode : encodeRecord record columns with
    | none =>
      simp only [hencode, Except.error.injEq] at hfailure
      exact .inl hfailure.symm
    | some payload =>
      simp only [hencode] at hfailure
      cases hframe : appendFrame buffer payload format with
      | none =>
        simp only [hframe, Except.error.injEq] at hfailure
        exact .inr hfailure.symm
      | some =>
        simp only [hframe] at hfailure
        exact ih hfailure

omit [Externals] in
theorem encodeRecord_ne_nil (hencode : encodeRecord record columns = some payload) :
    payload ≠ [] := by
  unfold encodeRecord at hencode
  cases hkind : record.kind with
  | delete =>
    simp only [hkind, Option.some.injEq] at hencode
    simp [← hencode]
  | upsert =>
    simp only [hkind, Option.map_eq_some_iff] at hencode
    obtain ⟨_, _, hencode⟩ := hencode
    simp [← hencode]

omit [Externals] in
theorem holds_of_encodeRecord (hcolumns : reading.columns = columns)
    (hlength : columns.length < 2 ^ 63) (hrecord : record.WellFormed columns)
    (hinside : record.kind = .upsert → record.dataEnd ≤ reading.dataSize)
    (hencode : encodeRecord record columns = some payload) (hpayload : payload.length < 2 ^ 32) :
    Holds reading payload record := by
  refine ⟨encodeRecord_ne_nil hencode, hpayload, ?_, hinside⟩
  obtain ⟨_, hwritten, _⟩ := decodeRecord_encodeRecord hrecord [] (by simpa using hlength)
  rw [hencode, Option.some.injEq] at hwritten
  rwa [hcolumns, hwritten, ← append_nil columns]

omit [Externals] in
theorem encodes_of_mem (hencodes : List.Forall₂ (Encodes columns) records payloads) :
    ∀ record ∈ records, ∃ payload, Encodes columns record payload := by
  induction hencodes with
  | nil => simp
  | cons hhead _ ih => exact forall_mem_cons.mpr ⟨⟨_, hhead⟩, ih⟩

omit [Externals] in
theorem length_lt_of_encodes (hencodes : List.Forall₂ (Encodes columns) records payloads) :
    ∀ payload ∈ payloads, payload.length < 2 ^ 32 := by
  induction hencodes with
  | nil => simp
  | cons hhead _ ih =>
    intro payload hpayload
    rcases mem_cons.mp hpayload with rfl | hpayload
    · exact hhead.2
    · exact ih payload hpayload

omit [Externals] in
theorem holds_of_encodes (hlength : reading.columns.length < 2 ^ 63)
    (hencodes : List.Forall₂ (Encodes reading.columns) records payloads)
    (hrecords : ∀ record ∈ records, record.WellFormed reading.columns ∧
      (record.kind = .upsert → record.dataEnd ≤ reading.dataSize)) :
    List.Forall₂ (Holds reading) payloads records := by
  induction hencodes with
  | nil => exact .nil
  | @cons record _ _ _ hhead _ ih =>
    obtain ⟨hrecord, hinside⟩ := hrecords record (by simp)
    exact .cons (holds_of_encodeRecord rfl hlength hrecord hinside hhead.1 hhead.2)
      (ih fun other hother ↦ hrecords other (by simp [hother]))

/-! ### Torn appends -/

/-- A part of the written frames is some complete ones and a part of the next. -/
theorem exists_completeFrames {tail : Bytes} (htail : tail <+: framesOf format payloads) :
    ∃ complete rest part, payloads = complete ++ rest ∧ tail = framesOf format complete ++ part ∧
      (part = [] ∨ ∃ next others, rest = next :: others ∧ part <+: frameBytes next format ∧
        part.length < (frameBytes next format).length) ∧
      ∀ next others, rest = next :: others → part.length < (frameBytes next format).length := by
  induction payloads generalizing tail with
  | nil => exact ⟨[], [], [], rfl, by simpa [framesOf] using htail, .inl rfl, by simp⟩
  | cons payload payloads ih =>
    by_cases hlong : (frameBytes payload format).length ≤ tail.length
    · obtain ⟨_, rfl⟩ := prefix_of_prefix_length_le (prefix_append _ _) htail hlong
      obtain ⟨complete, rest, part, rfl, rfl, hpart, hshort⟩ :=
        ih ((prefix_append_right_inj _).mp htail)
      exact ⟨payload :: complete, rest, part, rfl, by simp [framesOf], hpart, hshort⟩
    have hpart : tail <+: frameBytes payload format :=
      prefix_of_prefix_length_le htail (prefix_append _ _) (by omega)
    refine ⟨[], payload :: payloads, tail, rfl, by simp [framesOf],
      .inr ⟨payload, payloads, rfl, hpart, by omega⟩, ?_⟩
    intro _ _ hrest
    obtain ⟨rfl, _⟩ := List.cons.inj hrest
    omega

/-- No complete frame starts at or after the search start: either the header is torn, or its length
points past the log. -/
theorem rejected_torn (before : Bytes) {part next : Bytes} (hnext : next.length < 2 ^ 32)
    (hpart : part <+: frameBytes next frameFormatLengthCRC) (hne : part ≠ [])
    (hshort : part.length < (frameBytes next frameFormatLengthCRC).length) :
    Rejected frameFormatLengthCRC (before ++ part) before.length ∧
      ¬∃ start, rejectStart frameFormatLengthCRC (before ++ part) before.length ≤ start ∧
        FrameAt frameFormatLengthCRC (before ++ part) start := by
  have hpos : 0 < part.length := length_pos_of_ne_nil hne
  rw [length_frameBytes] at hshort
  by_cases hheader : frameHeaderSize frameFormatLengthCRC ≤ part.length
  · -- The header is whole, so it reads as in the log where the frame is complete.
    obtain ⟨_, hmissing⟩ := hpart
    have hagree : (before ++ part).take (before.length + part.length) =
        (before ++ (frameBytes next frameFormatLengthCRC ++ [])).take
          (before.length + part.length) := by
      rw [append_nil, ← hmissing, ← append_assoc, ← length_append, take_length, take_left]
    have hread : headerAt frameFormatLengthCRC (before ++ part) before.length = _ :=
      (headerAt_congr hagree (by omega)).trans
        (headerAt_frameBytes hnext frameFormatLengthCRC before [])
    have hstart : rejectStart frameFormatLengthCRC (before ++ part) before.length =
        before.length + frameHeaderSize frameFormatLengthCRC + next.length := by
      rw [rejectStart, hread, if_pos ⟨rfl, by rw [length_append]; omega, rfl⟩]
    refine ⟨⟨by rw [length_append]; omega, fun hframe ↦ ?_⟩, ?_⟩
    · have hend := hframe.2.2.2.1
      rw [hread, length_append] at hend
      simp only at hend
      omega
    rintro ⟨start, hlow, hframe⟩
    have hinside := hframe.1
    rw [length_append] at hinside
    omega
  have hlength : (before ++ part).length < before.length +
      frameHeaderSize frameFormatLengthCRC := by
    rw [length_append]
    omega
  refine ⟨⟨by rw [length_append]; omega, not_frameAt_of_short hlength le_rfl⟩, ?_⟩
  rintro ⟨_, hlow, hframe⟩
  rw [rejectStart, if_neg (by omega)] at hlow
  exact not_frameAt_of_short hlength (by omega) hframe

/-- No more records lie inside the torn bytes than the complete frames hold. -/
theorem length_le_completed {batch : List RowRecord}
    {completed rest : List Bytes} {part : Bytes}
    (hencoded : List.Forall₂ (Encodes columns) batch (completed ++ rest))
    (hshort : ∀ next others, rest = next :: others → part.length < (frameBytes next format).length)
    {longer : List RowRecord} {more : Bytes} (hlonger : longer <+: batch)
    (hmore : frameRecords columns format longer [] = .ok more)
    (hinside : more <+: framesOf format completed ++ part) :
    longer.length ≤ completed.length := by
  obtain ⟨payloads, hpayloads, rfl⟩ := frameRecords_eq_ok_iff.mp hmore
  have hsame : payloads = (completed ++ rest).take longer.length := by
    have htake := forall₂_take longer.length hencoded
    rw [← prefix_iff_eq_take.mp hlonger] at htake
    exact (encodes_unique columns).forall₂ hpayloads htake
  by_contra hmany
  cases rest with
  | nil =>
    have hlengths := hencoded.length_eq
    have hle := hlonger.length_le
    rw [append_nil] at hlengths
    omega
  | cons next others =>
    have hcount : longer.length = completed.length + (longer.length - completed.length - 1 + 1) :=
      by omega
    rw [hcount, take_length_add_append, take_succ_cons] at hsame
    have hlength := hinside.length_le
    rw [hsame, framesOf_append] at hlength
    have hnext := hshort next others rfl
    simp only [framesOf, flatMap_cons, length_append] at hlength
    omega

variable {stored : CodeCollection}

theorem replay_at_end (hend : log.length ≤ stored.logSize) :
    replay .none log stored = { stored := stored, log := log, failure := none } := by
  rw [replay, replayLoop]
  simp [hend]

/-- The replay of appended frames applies their records and cuts the part of a frame behind them. -/
theorem replay_framesOf (hformat : stored.header.frameFormat = frameFormatLengthCRC)
    {before : Bytes} (hsize : stored.logSize = before.length)
    (hholds : List.Forall₂ (Holds stored.reading) payloads records)
    (happly : (applyAll stored.width stored.memory records).2 = none) {part : Bytes}
    (hpart : part = [] ∨ ∃ next : Bytes, next.length < 2 ^ 32 ∧
      part <+: frameBytes next frameFormatLengthCRC ∧
      part.length < (frameBytes next frameFormatLengthCRC).length) :
    replay .none (before ++ (framesOf frameFormatLengthCRC payloads ++ part)) stored =
      { stored :=
          { stored with
            memory := (applyAll stored.width stored.memory records).1
            logSize := before.length + (framesOf frameFormatLengthCRC payloads).length }
        log := before ++ framesOf frameFormatLengthCRC payloads
        failure := none } := by
  have hchain := accepted_framesOf hholds before part
  rw [show stored.reading.format = frameFormatLengthCRC from hformat] at hchain
  rw [replay]
  simp only [LogFaults.none_stat, LogFaults.none_seek, Bool.false_eq_true, if_false]
  rw [hsize, replayLoop_accepted hchain hsize happly, ← append_assoc, ← length_append]
  generalize hnow : before ++ framesOf frameFormatLengthCRC payloads = now
  generalize hnext : ({ stored with
    memory := (applyAll stored.width stored.memory records).1
    logSize := now.length } : CodeCollection) = next
  have hnextFormat : next.header.frameFormat = frameFormatLengthCRC := by rw [← hnext, ← hformat]
  have hnextSize : next.logSize = now.length := by rw [← hnext]
  rcases eq_or_ne part [] with rfl | hne
  · rw [replayLoop]
    simp
  obtain ⟨_, htorn, hbytes, hshort⟩ := hpart.resolve_left hne
  obtain ⟨hrejected, hlast⟩ := rejected_torn now htorn hbytes hne hshort
  rw [← hnextFormat] at hrejected hlast
  have hend := replayLoop_rejected .none next rfl hrejected
  generalize replayLoop .none _ next now.length = result at hend ⊢
  cases hend with
  | error _ hlater => exact absurd hlater hlast
  | cut => rw [take_left, ← hnextSize]
  | failed _ hfaults => exact absurd rfl hfaults

/-- With frame format 1, for every checksum: replay of complete frames followed by any part of the
frames of one further write succeeds, carries out exactly the records whose frames are complete, and
cuts off the rest; replaying again changes nothing. Assumes: the write's records are well formed
with data in the data file, and no dictionary is full. -/
theorem replay_tornTail {stored : CodeCollection}
    (hformat : stored.header.frameFormat = frameFormatLengthCRC) {before : Bytes}
    (hsize : stored.logSize = before.length) {payloads : List Bytes} {records : List RowRecord}
    (hholds : List.Forall₂ (Holds stored.reading) payloads records) {batch : List RowRecord}
    (hbatch : ∀ record ∈ batch, record.WellFormed stored.header.columns ∧
      (record.kind = .upsert → record.dataEnd ≤ stored.dataSize))
    {written tail : Bytes}
    (hwritten : frameRecords stored.header.columns frameFormatLengthCRC batch [] = .ok written)
    (htail : tail <+: written)
    (happly : ∀ complete kept, complete <+: batch →
      frameRecords stored.header.columns frameFormatLengthCRC complete [] = .ok kept →
      kept <+: tail → (applyAll stored.width stored.memory (records ++ complete)).2 = none) :
    ∃ complete kept, complete <+: batch ∧
      frameRecords stored.header.columns frameFormatLengthCRC complete [] = .ok kept ∧
      kept <+: tail ∧
      (∀ longer more, longer <+: batch →
        frameRecords stored.header.columns frameFormatLengthCRC longer [] = .ok more →
        more <+: tail → longer <+: complete) ∧
      ∃ next : CodeCollection, next =
          { stored with
            memory := (applyAll stored.width stored.memory (records ++ complete)).1
            logSize := (before ++ (framesOf frameFormatLengthCRC payloads ++ kept)).length } ∧
        replay .none (before ++ (framesOf frameFormatLengthCRC payloads ++ tail)) stored =
          { stored := next, log := before ++ (framesOf frameFormatLengthCRC payloads ++ kept)
            failure := none } ∧
        ∀ start, start = stored ∨ start = next →
          replay .none (before ++ (framesOf frameFormatLengthCRC payloads ++ kept)) start =
            { stored := next, log := before ++ (framesOf frameFormatLengthCRC payloads ++ kept)
              failure := none } := by
  obtain ⟨_, hencoded, hbuffer⟩ := frameRecords_eq_ok_iff.mp hwritten
  subst hbuffer
  obtain ⟨completed, _, part, rfl, rfl, hpart, hshort⟩ := exists_completeFrames htail
  have hcompleted : List.Forall₂ (Encodes stored.header.columns) (batch.take completed.length)
      completed := forall₂_take_append _ _ _ hencoded
  have hkept : frameRecords stored.header.columns frameFormatLengthCRC
      (batch.take completed.length) [] = .ok (framesOf frameFormatLengthCRC completed) :=
    frameRecords_eq_ok_iff.mpr ⟨completed, hcompleted, rfl⟩
  have hfront := take_prefix completed.length batch
  have hall := happly _ _ hfront hkept (prefix_append _ _)
  have hholdsAll : List.Forall₂ (Holds stored.reading) (payloads ++ completed)
      (records ++ batch.take completed.length) :=
    rel_append hholds (holds_of_encodes stored.header.columns_length hcompleted
      fun record hrecord ↦ hbatch record (mem_of_mem_take hrecord))
  have htorn : part = [] ∨ ∃ next : Bytes, next.length < 2 ^ 32 ∧
      part <+: frameBytes next frameFormatLengthCRC ∧
      part.length < (frameBytes next frameFormatLengthCRC).length := by
    refine hpart.imp id ?_
    rintro ⟨next, _, rfl, hbytes, hlength⟩
    exact ⟨next, length_lt_of_encodes hencoded next (by simp), hbytes, hlength⟩
  have hreplay := replay_framesOf hformat hsize hholdsAll hall htorn
  have hagain := replay_framesOf hformat hsize hholdsAll hall (.inl rfl)
  simp only [framesOf_append, append_assoc, append_nil] at hreplay hagain
  refine ⟨batch.take _, framesOf frameFormatLengthCRC completed,
    hfront, hkept, prefix_append _ _, ?_, _, rfl, ?_, ?_⟩
  · intro _ _ hlonger hmore hinside
    refine prefix_of_prefix_length_le hlonger hfront ?_
    rw [hcompleted.length_eq]
    exact length_le_completed hencoded hshort hlonger hmore hinside
  · rw [hreplay]
    simp
  rintro _ (rfl | rfl)
  · rw [hagain]
    simp
  · exact replay_at_end le_rfl

end

/-- One complete frame, and a write of two deletions of which one frame and three bytes of the next
arrived. -/
theorem replay_tornTail_sample :
    ∃ next, @replay sampleExternals .none ([3, 0, 0, 0, 3, 0, 0, 0, 103, 0, 0, 0, 2, 2, 99] ++
        ([3, 0, 0, 0, 3, 0, 0, 0, 101, 0, 0, 0, 2, 2, 97] ++ [3, 0, 0]))
      (sampleHandle frameFormatLengthCRC) =
        { stored := next
          log := [3, 0, 0, 0, 3, 0, 0, 0, 103, 0, 0, 0, 2, 2, 99] ++
            [3, 0, 0, 0, 3, 0, 0, 0, 101, 0, 0, 0, 2, 2, 97]
          failure := none } := by
  let _ := sampleExternals
  obtain ⟨complete, kept, hcomplete, hkept, hinside, hlongest, next, _, hreplay, _⟩ :=
    @replay_tornTail _ (sampleHandle frameFormatLengthCRC) rfl [] rfl [[2, 2, 99]]
      [emptyRecord .delete [99]]
      (.cons ⟨by decide, by decide, by decide, by decide⟩ .nil)
      [emptyRecord .delete [97], emptyRecord .delete [98]]
      (by
        intro _ hrecord
        simp only [mem_cons, not_mem_nil, or_false] at hrecord
        rcases hrecord with rfl | rfl
        · exact ⟨wellFormed_delete (by decide) _, by decide⟩
        · exact ⟨wellFormed_delete (by decide) _, by decide⟩)
      _ ([3, 0, 0, 0, 3, 0, 0, 0, 101, 0, 0, 0, 2, 2, 97] ++ [3, 0, 0]) rfl (by decide)
      (by
        intro _ kept hcomplete _ _
        simp only [prefix_cons_iff, prefix_nil] at hcomplete
        rcases hcomplete with rfl | ⟨_, rfl, rfl | ⟨_, rfl, rfl⟩⟩ <;> rfl)
  have hfirst := hlongest [emptyRecord .delete [97]] _ (by decide) rfl (by decide)
  simp only [prefix_cons_iff, prefix_nil] at hcomplete
  rcases hcomplete with rfl | ⟨_, rfl, rfl | ⟨_, rfl, rfl⟩⟩
  · simp at hfirst
  · have hframe : framesOf frameFormatLengthCRC [[2, 2, 99]] =
        [3, 0, 0, 0, 3, 0, 0, 0, 103, 0, 0, 0, 2, 2, 99] := by decide
    have hkeptEq : kept = [3, 0, 0, 0, 3, 0, 0, 0, 101, 0, 0, 0, 2, 2, 97] := by
      cases hkept
      decide
    rw [hframe, hkeptEq] at hreplay
    exact ⟨next, hreplay⟩
  · cases hkept
    exact absurd hinside (by decide)

end Clyde.CodeStore
