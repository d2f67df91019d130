import Clyde.Daemon.MetricsRollup

/-!
# The lifecycles in the daemon log

The start, stream and end of an execution decide whether it is valid and when it ended:
`lifecycleOf` in a log, and `lifeAfter` what they make of a request. `OrderedLifecycle` begins with
a start and has nothing after its end. `Known` says that the entry of an execution is that of its
lifecycle up to a place in the log, or that there is nothing to wait for.
-/

set_option autoImplicit false

namespace Clyde.Daemon

open Foundation ByteCodec Text KeyedFold List

def MetricsMessage.ends : MetricsMessage → Bool
  | .completed | .failed | .cancelled => true
  | .leg | .io | .started | .streamed => false

def MetricsMessage.lifecycle : MetricsMessage → Bool
  | .leg | .io => false
  | .started | .streamed | .completed | .failed | .cancelled => true

abbrev DatedRecord := ℤ × MetricsLogRecord

/-- The record of a line, if it is part of the lifecycle of this execution. -/
def lifecycleRecord (key : Bytes) (line : LogLine) : Option DatedRecord :=
  (lineRecord 0 line).filter fun entry ↦ executionKey entry.2 = key && entry.2.message.lifecycle

def lifecycleOf (key : Bytes) (lines : List LogLine) : List DatedRecord :=
  lines.filterMap (lifecycleRecord key)

def MetricsRequest.life (request : MetricsRequest) : MetricsRequest :=
  { MetricsRequest.zero with
    lifecycleStarted := request.lifecycleStarted
    lifecycleTerminal := request.lifecycleTerminal
    invalidLifecycle := request.invalidLifecycle
    startedAt := request.startedAt
    streamedAt := request.streamedAt
    terminalAt := request.terminalAt }

def lifeOf (entry : Option MetricsRequest) : MetricsRequest := (entry.getD .zero).life

def lifeStep (life : MetricsRequest) (entry : DatedRecord) : MetricsRequest :=
  (applyMetricsCanonicalRecord entry.2 entry.1 life).request.life

def lifeAfter (entries : List DatedRecord) : MetricsRequest := entries.foldl lifeStep .zero

theorem lifecycleOf_append (key : Bytes) (front back : List LogLine) :
    lifecycleOf key (front ++ back) = lifecycleOf key front ++ lifecycleOf key back :=
  filterMap_append ..

theorem lifeAfter_append (front back : List DatedRecord) :
    lifeAfter (front ++ back) = back.foldl lifeStep (lifeAfter front) :=
  foldl_append ..

theorem request_invalidateIf (condition : Bool) (warning : String) (checked : Checked) :
    (checked.invalidateIf condition warning).request = { checked.request with
        invalidLifecycle := checked.request.invalidLifecycle || condition } := by
  cases condition
  · simp [Checked.invalidateIf]
  · simp [Checked.invalidateIf]

variable {record : MetricsLogRecord}

/-- On the fields of the lifecycle the source's record update is `lifeStep`. -/
theorem life_applyMetricsCanonicalRecord
    (hlifecycle : record.message.lifecycle = true) (recordedAt : ℤ) (request : MetricsRequest) :
    (applyMetricsCanonicalRecord record recordedAt request).request.life =
      lifeStep request.life (recordedAt, record) := by
  unfold lifeStep applyMetricsCanonicalRecord
  cases hmessage : record.message with
  | leg | io => rw [hmessage] at hlifecycle; cases hlifecycle
  | started =>
    dsimp only
    rw [show request.life.lifecycleStarted = request.lifecycleStarted from rfl]
    split
    · rw [request_invalidateIf, request_invalidateIf]; rfl
    · simp [validateMetricsStartedTimestamp, request_invalidateIf]; rfl
  | streamed => simp [validateMetricsStreamedTimestamp, request_invalidateIf]; rfl
  | completed | failed | cancelled =>
    dsimp [applyTerminal]
    rw [show request.life.lifecycleTerminal = request.lifecycleTerminal from rfl]
    split
    · rw [request_invalidateIf, request_invalidateIf]; rfl
    · simp [validateMetricsTerminalTimestamp, request_invalidateIf]; rfl

theorem lineUpdate_of_record {line : LogLine} {recordedAt : ℤ}
    (hrecord : lineRecord 0 line = some (recordedAt, record)) (known : Option MetricsRequest) :
    lineUpdate 0 line known = (addMetricsHistoryRecord record recordedAt known).request := by
  rw [lineUpdate, hrecord]

theorem life_applyLeg (record : MetricsLogRecord) (request : MetricsRequest) :
    (applyLeg record request).life = request.life := by
  unfold applyLeg
  split <;> rfl

/-- A line moves its key's lifecycle by the line's lifecycle record, if it has one. -/
theorem lifeOf_lineUpdate {key : Bytes} {line : LogLine} (hkey : lineKey 0 line = some key)
    (known : Option MetricsRequest) :
    lifeOf (some (lineUpdate 0 line known)) =
      (lifecycleRecord key line).toList.foldl lifeStep (lifeOf known) := by
  obtain ⟨⟨recordedAt, record⟩, hrecord, hexecution⟩ := Option.map_eq_some_iff.mp hkey
  have hmember : lifecycleRecord key line =
      if record.message.lifecycle then some (recordedAt, record) else none := by
    rw [lifecycleRecord, hrecord, Option.filter_some]
    simp [hexecution]
  rw [lineUpdate_of_record hrecord, hmember]
  change (addMetricsHistoryRecord record recordedAt known).request.life = _
  cases hlifecycle : record.message.lifecycle with
  | true =>
    have hleg : record.message ≠ .leg := fun hleg ↦ by rw [hleg] at hlifecycle; cases hlifecycle
    rw [addMetricsHistoryRecord, if_neg hleg, life_applyMetricsCanonicalRecord hlifecycle]
    rfl
  | false =>
    unfold addMetricsHistoryRecord applyMetricsCanonicalRecord
    cases hmessage : record.message with
    | leg => exact life_applyLeg record _
    | io =>
      simp only [reduceCtorEq, if_false]
      split <;> rfl
    | started | streamed | completed | failed | cancelled =>
      rw [hmessage] at hlifecycle; cases hlifecycle

/-- After some lines an entry's lifecycle is the fold over the key's lifecycle records. -/
theorem lifeOf_entryAfter (key : Bytes) (lines : List LogLine) (entry : Option MetricsRequest) :
    lifeOf (entryAfter key lines entry) =
      (lifecycleOf key lines).foldl lifeStep (lifeOf entry) := by
  induction lines generalizing entry with
  | nil => rfl
  | cons line lines ih =>
    rw [show line :: lines = [line] ++ lines from rfl, entryAfter_append, ih, lifecycleOf_append,
      foldl_append]
    congr 1
    by_cases hkey : lineKey 0 line = some key
    · have hentry : entryAfter key [line] entry = some (lineUpdate 0 line entry) := by
        simp [entryAfter, ofKey, hkey]
      rw [hentry, lifeOf_lineUpdate hkey, lifecycleOf, filterMap_cons]
      cases lifecycleRecord key line <;> rfl
    have hentry : entryAfter key [line] entry = entry := by simp [entryAfter, ofKey, hkey]
    have hnone : lifecycleRecord key line = none := by
      rw [lifecycleRecord, Option.filter_eq_none_iff]
      intro _ hrecord hmember
      rw [Bool.and_eq_true, decide_eq_true_eq] at hmember
      exact hkey (by rw [lineKey, hrecord, Option.map_some, hmember.1])
    rw [hentry, lifecycleOf, filterMap_cons, hnone]
    rfl

open MetricsMessage

theorem lifeStep_fields (life : MetricsRequest) (entry : DatedRecord) :
    (lifeStep life entry).lifecycleStarted =
      (life.lifecycleStarted || decide (entry.2.message = .started)) ∧
      (lifeStep life entry).lifecycleTerminal = (life.lifecycleTerminal || entry.2.message.ends) ∧
      (lifeStep life entry).terminalAt =
        if entry.2.message.ends && !life.lifecycleTerminal then entry.1 else life.terminalAt := by
  obtain ⟨_, record⟩ := entry
  unfold lifeStep applyMetricsCanonicalRecord
  cases hmessage : record.message with
  | leg => simp [MetricsRequest.life, ends]
  | io =>
    dsimp only
    split <;> simp [MetricsRequest.life, ends]
  | started =>
    dsimp only
    split
    next hstarted => simp [request_invalidateIf, MetricsRequest.life, ends, hstarted]
    next => simp [validateMetricsStartedTimestamp, request_invalidateIf, MetricsRequest.life, ends]
  | streamed =>
    simp [validateMetricsStreamedTimestamp, request_invalidateIf, MetricsRequest.life, ends]
  | completed | failed | cancelled =>
    dsimp [applyTerminal]
    split
    next hterminal => simp [request_invalidateIf, MetricsRequest.life, ends, hterminal]
    next hterminal =>
      simp [validateMetricsTerminalTimestamp, request_invalidateIf,
        MetricsRequest.life, ends, hterminal]

/-- A lifecycle that begins with a start, has nothing after its end, and is dated. -/
structure OrderedLifecycle (entries : List DatedRecord) : Prop where
  started : ∀ entry ∈ entries.head?, entry.2.message = .started
  ended : ∀ entry ∈ entries.dropLast, entry.2.message.ends = false
  dated : ∀ entry ∈ entries, 0 < entry.1

theorem lifecycleStarted_foldl {life : MetricsRequest} (hlife : life.lifecycleStarted = true)
    (entries : List DatedRecord) : (entries.foldl lifeStep life).lifecycleStarted = true := by
  induction entries generalizing life with
  | nil => exact hlife
  | cons entry _ ih => exact ih (by rw [(lifeStep_fields life entry).1, hlife, Bool.true_or])

theorem lifecycleTerminal_lifeAfter (entries : List DatedRecord) :
    (lifeAfter entries).lifecycleTerminal = entries.any fun entry ↦ entry.2.message.ends := by
  induction entries using List.reverseRecOn with
  | nil => rfl
  | append_singleton _ entry ih =>
    rw [lifeAfter_append, foldl_cons, foldl_nil, (lifeStep_fields _ entry).2.1, ih]
    simp

variable {entries : List DatedRecord}

theorem terminalAt_lifeAfter
    (hopen : (lifeAfter entries).lifecycleTerminal = false) :
    (lifeAfter entries).terminalAt = 0 := by
  induction entries using List.reverseRecOn with
  | nil => rfl
  | append_singleton entries entry ih =>
    rw [lifeAfter_append, foldl_cons, foldl_nil] at hopen ⊢
    obtain ⟨-, hterminal, hat⟩ := lifeStep_fields _ entry
    rw [hterminal, Bool.or_eq_false_iff] at hopen
    rw [hat, hopen.2]
    exact ih hopen.1

namespace OrderedLifecycle

variable {front back : List DatedRecord}

theorem lifecycleStarted_front (hordered : OrderedLifecycle (front ++ back)) (hfront : front ≠ []) :
    (lifeAfter front).lifecycleStarted = true := by
  obtain ⟨first, rest, rfl⟩ := exists_cons_of_ne_nil hfront
  refine lifecycleStarted_foldl ?_ rest
  rw [(lifeStep_fields _ first).1, hordered.started first rfl]
  rfl

theorem back_eq_nil (hordered : OrderedLifecycle (front ++ back))
    (hended : (lifeAfter front).terminalAt ≠ 0) : back = [] := by
  by_contra hback
  have hterminal : (lifeAfter front).lifecycleTerminal = true := by
    by_contra hopen
    exact hended (terminalAt_lifeAfter (Bool.eq_false_iff.mpr hopen))
  rw [lifecycleTerminal_lifeAfter, any_eq_true] at hterminal
  obtain ⟨entry, hentry, hends⟩ := hterminal
  have hmem : entry ∈ (front ++ back).dropLast := by
    rw [dropLast_append_of_ne_nil hback]
    exact mem_append_left _ hentry
  rw [hordered.ended entry hmem] at hends
  cases hends

/-- An ordered lifecycle that has ended has its end as last record. -/
theorem getLast_of_ended (hordered : OrderedLifecycle entries)
    (hended : (lifeAfter entries).lifecycleTerminal = true) :
    ∃ front last, entries = front ++ [last] ∧ (lifeAfter entries).terminalAt = last.1 := by
  rcases entries.eq_nil_or_concat with rfl | ⟨front, last, rfl⟩
  · cases hended
  rw [concat_eq_append] at hordered hended ⊢
  refine ⟨front, last, rfl, ?_⟩
  have hfront : (lifeAfter front).lifecycleTerminal = false := by
    rw [lifecycleTerminal_lifeAfter, any_eq_false]
    intro entry hentry hends
    rw [hordered.ended entry (by rw [dropLast_concat]; exact hentry)] at hends
    cases hends
  rw [lifeAfter_append, foldl_cons, foldl_nil] at hended ⊢
  obtain ⟨-, hterminal, hat⟩ := lifeStep_fields _ last
  rw [hterminal, hfront, Bool.false_or] at hended
  rw [hat, hended, hfront]
  rfl

theorem terminalAt_pos (hordered : OrderedLifecycle entries)
    (hended : (lifeAfter entries).lifecycleTerminal = true) :
    0 < (lifeAfter entries).terminalAt := by
  obtain ⟨_, last, rfl, hat⟩ := hordered.getLast_of_ended hended
  rw [hat]
  exact hordered.dated last (by simp)

end OrderedLifecycle

/-- The execution has ended at this time, with a valid lifecycle. -/
structure Ended (log : List LogLine) (key : Bytes) (endedAt : ℤ) : Prop where
  terminal : (lifeAfter (lifecycleOf key log)).lifecycleTerminal = true
  valid : (lifeAfter (lifecycleOf key log)).invalidLifecycle = false
  at_eq : (lifeAfter (lifecycleOf key log)).terminalAt = endedAt

/-- After so many lines the entry of an execution is that of its lifecycle in them, or there is
nothing to wait for. -/
def Known (log : List LogLine) (read : ℕ) (key : Bytes) (entry : Option MetricsRequest) : Prop :=
  lifeOf entry = lifeAfter (lifecycleOf key (log.take read)) ∨
    lifecycleOf key (log.drop read) = [] ∧ (lifeOf entry).terminalAt = 0

/-- No execution has records of its lifecycle on both sides of a place in the log. -/
def Separated (log : List LogLine) (place : ℕ) : Prop :=
  ∀ key, lifecycleOf key (log.take place) = [] ∨ lifecycleOf key (log.drop place) = []

def LifecyclesOrdered (log : List LogLine) : Prop := ∀ key, OrderedLifecycle (lifecycleOf key log)

variable {log : List LogLine} {key : Bytes} {entry : Option MetricsRequest} {read place : ℕ}

theorem lifecycleOf_split (key : Bytes) (log : List LogLine) (place : ℕ) :
    lifecycleOf key (log.take place) ++ lifecycleOf key (log.drop place) = lifecycleOf key log := by
  rw [← lifecycleOf_append, take_append_drop]

section

variable (hordered : LifecyclesOrdered log)
include hordered

theorem LifecyclesOrdered.split (key : Bytes) (place : ℕ) :
    OrderedLifecycle (lifecycleOf key (log.take place) ++ lifecycleOf key (log.drop place)) := by
  rw [lifecycleOf_split]
  exact hordered key

theorem Known.ended (hknown : Known log read key entry) (hended : (lifeOf entry).terminalAt ≠ 0) :
    lifecycleOf key (log.drop read) = [] ∧ lifeOf entry = lifeAfter (lifecycleOf key log) := by
  rcases hknown with hlife | ⟨-, hopen⟩
  · rw [hlife] at hended
    have hnone := (hordered.split key read).back_eq_nil hended
    refine ⟨hnone, ?_⟩
    rw [hlife, ← lifecycleOf_split key log read, hnone, append_nil]
  · exact absurd hopen hended

/-- Where no execution is under way, the worker may go on without the lines in between. -/
theorem Known.of_separated (hknown : Known log read key entry)
    (hle : read ≤ place) (hseparated : Separated log place) : Known log place key entry := by
  have hfront : log.take read = (log.take place).take read := by rw [take_take, min_eq_left hle]
  rcases hseparated key with hnone | hnone
  · rcases hknown with hlife | ⟨hrest, hopen⟩
    · refine .inl ?_
      have hread : lifecycleOf key (log.take read) = [] := by
        have hsplit := lifecycleOf_split key (log.take place) read
        rw [hnone] at hsplit
        rw [hfront]
        exact (append_eq_nil_iff.mp hsplit).1
      rw [hlife, hread, hnone]
    have hall : lifecycleOf key (log.drop place) = [] := by
      have hsplit := lifecycleOf_split key (log.drop read) (place - read)
      rw [hrest, drop_drop, Nat.add_sub_cancel' hle] at hsplit
      exact (append_eq_nil_iff.mp hsplit).2
    exact .inr ⟨hall, hopen⟩
  by_cases hended : (lifeOf entry).terminalAt = 0
  · exact .inr ⟨hnone, hended⟩
  · refine .inl ?_
    rw [(hknown.ended hordered hended).2, ← lifecycleOf_split key log place, hnone, append_nil]

end

theorem Known.readOn {lines : List LogLine} (hlines : lines <+: log) (hle : place ≤ lines.length)
    (hknown : Known log place key entry) :
    Known log lines.length key (entryAfter key (lines.drop place) entry) := by
  obtain ⟨_, rfl⟩ := hlines
  rw [Known, take_left, drop_left, lifeOf_entryAfter]
  rw [Known, take_append_of_le_length hle, drop_append_of_le_length hle,
    lifecycleOf_append] at hknown
  rcases hknown with hlife | ⟨hnone, hopen⟩
  · refine .inl ?_
    rw [hlife, ← lifeAfter_append, lifecycleOf_split]
  obtain ⟨hread, hrest⟩ := append_eq_nil_iff.mp hnone
  refine .inr ⟨hrest, ?_⟩
  rwa [hread]

/-- A request that was seen at the ingress and never started may be forgotten. -/
theorem Known.of_ingressOnly {request : MetricsRequest} (hordered : LifecyclesOrdered log)
    (hknown : Known log read key (some request)) (hingress : request.ingressOnly = true) :
    Known log read key none := by
  rw [MetricsRequest.ingressOnly, Bool.and_eq_true, Bool.not_eq_true'] at hingress
  rcases hknown with hlife | ⟨hnone, -⟩
  · refine .inl ?_
    have hread : lifecycleOf key (log.take read) = [] := by
      by_contra hread
      have hstarted := (hordered.split key read).lifecycleStarted_front hread
      rw [← hlife] at hstarted
      exact Bool.false_ne_true (hingress.2.symm.trans hstarted)
    rw [hread]
    rfl
  · exact .inr ⟨hnone, rfl⟩

theorem Known.of_ended (hordered : LifecyclesOrdered log) (hknown : Known log read key entry)
    (hended : (lifeOf entry).terminalAt ≠ 0) : Known log read key none :=
  .inr ⟨(hknown.ended hordered hended).1, rfl⟩

end Clyde.Daemon
