import Clyde.Daemon.RollupLifecycle
import Clyde.Daemon.RollupWorker
import Clyde.Foundation.LabelledRun

/-!
# What a rollup report covers

A report says that it is complete from the checkpoint and the store alone. A request that starts
before a restart and ends after it is read by two workers, and neither knows all of it
(`straddling_request_missed`). `OrderlyRead` excludes this, and the other ways in which a pass reads
less than the report covers; then a complete report counts the executions with a valid lifecycle
that ended in the window (`requests_of_complete`). The invariant is `Covered`.

Scope. As in `RollupWorker`.
-/

set_option autoImplicit false

namespace Clyde.Daemon

open Foundation ByteCodec Text KeyedFold List Option LogFiles World

/-! ### Orderly runs -/

/-- The pass reads everything from a place at which no execution is under way, unless the worker was
there already. -/
structure OrderlyRead (log : List LogLine) (files : LogFiles) (now : ℤ) (worker : RollupWorker) :
    Prop where
  -- No record that the pass reads is dated later.
  dated : ∀ line ∈ files.tail (openSource files now worker).1, ∀ entry,
    lineRecord 0 line = some entry → entry.1 ≤ now
  -- The log was not rotated twice since the last pass.
  unskipped : (files.rotated.drop ((openSource files now worker).1.file + 1)).flatten = []
  separated : worker.held = false → Separated log (files.count (openSource files now worker).1)
  -- What a pass skips is older than its coverage.
  older : resumedSource files worker = none → ∀ line ∈ files.lines, ∀ entry,
    lineRecord 0 line = some entry → entry.1 < now

def Orderly (log : List LogLine) (world : World) : WorkerEvent → Prop
  | .append _ | .rotate => True
  | .restart now _ | .cleanup now _ => world.clock ≤ now
  | .pass now done _ _ =>
    world.clock ≤ now ∧ now ≤ done ∧
      ∀ worker, world.worker = some worker → OrderlyRead log world.files now worker
  | .fail now =>
    world.clock ≤ now ∧ ∀ worker, world.worker = some worker →
      OrderlyRead log world.files now worker

/-- The log only grows. -/
theorem lines_step (world : World) (event : WorkerEvent) :
    world.files.lines <+: (world.step event).files.lines := by
  cases event with
  | append line => exact ⟨[line], by simp [step, lines]⟩
  | rotate => exact ⟨[], by simp [step, lines]⟩
  | restart now => exact prefix_rfl
  | pass now _ _ saves =>
    unfold step
    dsimp only
    split
    · exact prefix_rfl
    · unfold runPass
      dsimp only
      split <;> exact prefix_rfl
  | fail now | cleanup now saves =>
    unfold step
    dsimp only
    split <;> exact prefix_rfl

variable {log : List LogLine} {events : List WorkerEvent} {start finish : World}

/-- An execution that ended is stored, or a report does not cover it. -/
def Accounted (store : List MetricsRollupRecord) (clock coverage : ℤ) (key : Bytes) (endedAt : ℤ) :
    Prop :=
  endedAt < coverage ∨ endedAt < clock - metricsRollupRetention ∨ recordsOf key store ≠ []

/-- Every execution that has ended before a place is accounted for, or will be by the next pass. -/
def Covers (log : List LogLine) (store : List MetricsRollupRecord) (clock coverage : ℤ) (place : ℕ)
    (requests : MetricsRequests) : Prop :=
  ∀ key endedAt, lifecycleOf key (log.drop place) = [] → Ended log key endedAt →
    Accounted store clock coverage key endedAt ∨
      endedAt ≤ clock ∧ lifeOf (requests.lookup key) = lifeAfter (lifecycleOf key log)

/-- The entries of ended requests have the flag that a pass looks at. -/
def Flagged (requests : MetricsRequests) : Prop :=
  ∀ key, ∀ request ∈ requests.lookup key, request.lifecycleTerminal = true → request.terminal = true

/-- A worker knows all executions up to a place, and they are covered up to its position. -/
structure Following (log : List LogLine) (world : World) (worker : RollupWorker) (read : ℕ) :
    Prop where
  read_le : read ≤ world.files.lines.length
  known : ∀ key, Known log read key (worker.state.requests.lookup key)
  flagged : Flagged worker.state.requests
  held : worker.held = true → worker.checkpoint.source ≠ none
  place : ∀ position, worker.checkpoint.source = some position →
    world.files.Valid position ∧ read ≤ world.files.count position ∧
      (worker.held = true → read = world.files.count position) ∧
      Covers log world.store world.clock worker.checkpoint.coverageSince
        (world.files.count position) worker.state.requests

/-- The stored records are of executions that have ended, which are covered up to the saved position
and that of the worker. -/
structure Covered (log : List LogLine) (world : World) : Prop where
  sound : ∀ key, ∀ record ∈ recordsOf key world.store, Ended log key record.terminalAt
  saved : ∀ position, world.saved.source = some position → world.files.Valid position ∧
    Covers log world.store world.clock world.saved.coverageSince (world.files.count position) ∅
  worker : ∀ worker, world.worker = some worker → ∃ read, Following log world worker read

variable {lines : List LogLine}

section

variable {log : List LogLine} {world : World} {worker : RollupWorker} {read : ℕ} {key : Bytes}
  {endedAt : ℤ}

theorem Ended.terminalAt_pos (hordered : LifecyclesOrdered log)
    (hended : Ended log key endedAt) : 0 < endedAt := by
  rw [← hended.at_eq]
  exact (hordered key).terminalAt_pos hended.terminal

variable {store other : List MetricsRollupRecord} {coverage : ℤ} {clock later : ℤ}

theorem Accounted.mono (haccounted : Accounted store clock coverage key endedAt)
    (hclock : clock ≤ later) (hstore : recordsOf key store ≠ [] → recordsOf key other ≠ []) :
    Accounted other later coverage key endedAt := by
  rcases haccounted with hcoverage | _ | hstored
  · exact .inl hcoverage
  · exact .inr (.inl (by omega))
  · exact .inr (.inr (hstore hstored))

variable {requests : MetricsRequests} {place : ℕ}

theorem Covers.mono (hcovers : Covers log store clock coverage place requests)
    (hclock : clock ≤ later) (hstore : ∀ key, recordsOf key store ≠ [] → recordsOf key other ≠ []) :
    Covers log other later coverage place requests := by
  intro key endedAt hnone hended
  rcases hcovers key endedAt hnone hended with haccounted | ⟨hat, hlife⟩
  · exact .inl (haccounted.mono hclock (hstore key))
  · exact .inr ⟨hat.trans hclock, hlife⟩

variable {clock : ℤ}

theorem Covers.accounted (hcovers : Covers log store clock coverage place ∅)
    (hnone : lifecycleOf key (log.drop place) = []) (hended : Ended log key endedAt) :
    Accounted store clock coverage key endedAt := by
  rcases hcovers key endedAt hnone hended with haccounted | ⟨-, hlife⟩
  · exact haccounted
  · have hterminal := hended.terminal
    rw [← hlife] at hterminal
    cases hterminal

variable {now : ℤ}

/-- The source that a pass opens continues what the worker knows, or starts where nothing is under
way. -/
theorem Following.opened (hordered : LifecyclesOrdered log) (hlines : world.files.lines <+: log)
    (hclock : world.clock ≤ now) (hfollowing : Following log world worker read)
    (horderly : OrderlyRead log world.files now worker) :
    world.files.Valid (openSource world.files now worker).1 ∧
      (∀ key, Known log (world.files.count (openSource world.files now worker).1) key
        (worker.state.requests.lookup key)) ∧
      Covers log world.store now (openSource world.files now worker).2
        (world.files.count (openSource world.files now worker).1) worker.state.requests := by
  have hseparated := horderly.separated
  have holder := horderly.older
  unfold openSource at hseparated ⊢
  cases hresumed : resumedSource world.files worker with
  | some position =>
    rw [hresumed] at hseparated
    have hsource : worker.checkpoint.source = some position := by
      unfold resumedSource at hresumed
      split at hresumed
      · exact hresumed
      · exact (filter_eq_some_iff.mp hresumed).1
    obtain ⟨hvalid, hle, hheld, hcovers⟩ := hfollowing.place position hsource
    refine ⟨hvalid, fun key ↦ ?_, hcovers.mono hclock fun _ hstored ↦ hstored⟩
    cases hopen : worker.held with
    | true => rw [← hheld hopen]; exact hfollowing.known key
    | false => exact (hfollowing.known key).of_separated hordered hle (hseparated hopen)
  | none =>
    rw [hresumed] at hseparated
    have hopen : worker.held = false := by
      by_contra hheld
      rw [Bool.not_eq_false] at hheld
      rw [resumedSource, if_pos hheld] at hresumed
      exact hfollowing.held hheld hresumed
    refine ⟨world.files.valid_tip, fun key ↦ ?_, fun key endedAt hnone hended ↦ .inl (.inl ?_)⟩
    · refine (hfollowing.known key).of_separated hordered ?_ (hseparated hopen)
      rw [count_tip]
      exact hfollowing.read_le
    · -- The end of the execution is among the lines that the pass skips.
      obtain ⟨_, last, hsplit, hat⟩ := (hordered key).getLast_of_ended hended.terminal
      rw [count_tip] at hnone
      have hlast : last ∈ lifecycleOf key world.files.lines := by
        obtain ⟨_, rfl⟩ := hlines
        rw [drop_left] at hnone
        rw [lifecycleOf_append, hnone, append_nil] at hsplit
        rw [hsplit]
        exact mem_append_right _ mem_cons_self
      obtain ⟨line, hline, hrecord⟩ := mem_filterMap.mp hlast
      rw [← hended.at_eq, hat]
      exact holder hresumed line hline last (filter_eq_some_iff.mp hrecord).1

/-- A record that ends a request also sets the flag that a pass looks at. -/
theorem flagged_addMetricsHistoryRecord (record : MetricsLogRecord) (recordedAt : ℤ)
    {known : Option MetricsRequest}
    (hknown : ∀ request ∈ known, request.lifecycleTerminal = true → request.terminal = true)
    (hterminal : (addMetricsHistoryRecord record recordedAt known).request.lifecycleTerminal =
      true) :
    (addMetricsHistoryRecord record recordedAt known).request.terminal = true := by
  have hzero : (known.getD .zero).lifecycleTerminal = true →
      (known.getD .zero).terminal = true := by
    cases known with
    | none => exact fun hterminal ↦ hterminal
    | some request => exact hknown request rfl
  unfold addMetricsHistoryRecord applyMetricsCanonicalRecord at hterminal ⊢
  cases hmessage : record.message with
  | leg =>
    rw [hmessage] at hterminal
    simp only [if_true] at hterminal ⊢
    unfold applyLeg at hterminal ⊢
    split at hterminal
    next herror => rw [if_pos herror]
    next herror => rw [if_neg herror]; exact hzero hterminal
  | io =>
    rw [hmessage] at hterminal
    simp only [reduceCtorEq, if_false] at hterminal ⊢
    split at hterminal
    next hseen => rw [if_pos hseen]; exact hzero hterminal
    next hseen => rw [if_neg hseen]; exact hzero hterminal
  | started =>
    rw [hmessage] at hterminal
    simp only [reduceCtorEq, if_false] at hterminal ⊢
    split at hterminal
    next hstarted =>
      rw [if_pos hstarted]
      exact hzero hterminal
    next hstarted =>
      rw [if_neg hstarted]
      simp only [validateMetricsStartedTimestamp, request_invalidateIf] at hterminal ⊢
      exact hzero hterminal
  | streamed =>
    rw [hmessage] at hterminal
    simp only [reduceCtorEq, if_false, validateMetricsStreamedTimestamp,
      request_invalidateIf] at hterminal ⊢
    exact hzero hterminal
  | completed | failed | cancelled =>
    rw [hmessage] at hterminal
    simp only [reduceCtorEq, if_false, applyTerminal] at hterminal ⊢
    split at hterminal
    next hended =>
      rw [if_pos hended]
      exact hzero hended
    next hended =>
      rw [if_neg hended]
      simp [validateMetricsTerminalTimestamp, request_invalidateIf]

/-- Reading lines keeps the flags, by induction on the lines. -/
theorem Flagged.readLines (hflagged : Flagged requests)
    (lines : List LogLine) : Flagged (readLines requests lines) := by
  intro key
  rw [lookup_readLines]
  unfold entryAfter
  generalize requests.lookup key = entry, hflagged key = hentry
  induction ofKey (lineKey 0) key lines generalizing entry with
  | nil => exact hentry
  | cons _ _ ih =>
    refine ih _ ?_
    rintro request ⟨⟩
    unfold lineUpdate
    split
    · exact flagged_addMetricsHistoryRecord _ _ hentry
    · cases entry with
      | none => exact fun hterminal ↦ hterminal
      | some request => exact hentry request rfl

theorem known_readLines (hlines : lines <+: log) (hle : place ≤ lines.length)
    (hknown : ∀ key, Known log place key (requests.lookup key)) (key : Bytes) :
    Known log lines.length key ((readLines requests (lines.drop place)).lookup key) := by
  rw [lookup_readLines]
  exact (hknown key).readOn hlines hle

section

variable (hordered : LifecyclesOrdered log)
include hordered

/-- Reading the rest of the log covers every execution that ends in it. -/
theorem Covers.readLines (hlines : lines <+: log) (hle : place ≤ lines.length)
    (hdated : ∀ line ∈ lines.drop place, ∀ entry, lineRecord 0 line = some entry → entry.1 ≤ now)
    (hknown : ∀ key, Known log place key (requests.lookup key))
    (hcovers : Covers log store now coverage place requests) :
    Covers log store now coverage lines.length
      (Clyde.Daemon.readLines requests (lines.drop place)) := by
  intro key endedAt hnone hended
  rw [lookup_readLines]
  have hrest : lifecycleOf key (log.drop place) = lifecycleOf key (lines.drop place) := by
    obtain ⟨_, rfl⟩ := hlines
    rw [drop_left] at hnone
    rw [drop_append_of_le_length hle, lifecycleOf_append, hnone, append_nil]
  by_cases hread : lifecycleOf key (lines.drop place) = []
  · rcases hcovers key endedAt (hrest.trans hread) hended with haccounted | ⟨hat, hlife⟩
    · exact .inl haccounted
    · refine .inr ⟨hat, ?_⟩
      rwa [lifeOf_entryAfter, hread]
  refine .inr ⟨?_, ?_⟩
  · -- The last record of the lifecycle is among the lines that were read.
    obtain ⟨_, last, hsplit, hat⟩ := (hordered key).getLast_of_ended hended.terminal
    have hlast : last ∈ lifecycleOf key (lines.drop place) := by
      rw [← hrest] at hread ⊢
      rw [← lifecycleOf_split key log place] at hsplit
      have hgetLast := congrArg List.getLast? hsplit
      rw [getLast?_append_of_ne_nil _ hread, getLast?_concat] at hgetLast
      exact mem_of_getLast? hgetLast
    obtain ⟨line, hline, hrecord⟩ := mem_filterMap.mp hlast
    rw [← hended.at_eq, hat]
    exact hdated line hline last (filter_eq_some_iff.mp hrecord).1
  rcases (hknown key).readOn hlines hle with hlife | ⟨-, _⟩
  · rw [hlife, ← lifecycleOf_split key log _, hnone, append_nil]
  · rcases hknown key with hlife | ⟨hrestNone, -⟩
    · rw [lifeOf_entryAfter, hlife, ← lifeAfter_append, ← hrest, lifecycleOf_split]
    · exact absurd (hrest.symm.trans hrestNone) hread

theorem Ended.lifecycleStarted
    (hended : Ended log key endedAt) :
    (lifeAfter (lifecycleOf key log)).lifecycleStarted = true := by
  have hwhole : OrderedLifecycle (lifecycleOf key log ++ []) := by
    rw [append_nil]
    exact hordered key
  refine hwhole.lifecycleStarted_front fun hnone ↦ ?_
  have hterminal := hended.terminal
  rw [hnone] at hterminal
  cases hterminal

/-- A known execution that has ended is distilled, with the time of its end. -/
theorem recordOf_of_ended (hflagged : Flagged requests)
    (hended : Ended log key endedAt) (hnow : endedAt ≤ now)
    (hlife : lifeOf (requests.lookup key) = lifeAfter (lifecycleOf key log)) :
    ∃ record, (requests.lookup key).bind (recordOf now key) = some record ∧
      record.terminalAt = endedAt := by
  have hterminal := hended.terminal
  have hvalid := hended.valid
  have hat := hended.at_eq
  have hpositive := hended.terminalAt_pos hordered
  have hstarted := hended.lifecycleStarted hordered
  rw [← hlife] at hterminal hvalid hat hstarted
  cases hentry : requests.lookup key with
  | none => rw [hentry] at hterminal; cases hterminal
  | some request =>
    rw [hentry] at hterminal hvalid hat hstarted
    have hvalid : request.invalidLifecycle = false := hvalid
    have hat : request.terminalAt = endedAt := hat
    have hstarted : request.lifecycleStarted = true := hstarted
    refine ⟨requestToRollupRecord key request, ?_, hat⟩
    have hingress : request.ingressOnly = false := by simp [MetricsRequest.ingressOnly, hstarted]
    have hdistillable : distillableRequest now request = true := by
      simp [distillableRequest, hflagged key request hentry hterminal, hvalid,
        hat, hpositive.ne', hnow]
    rw [bind_some, recordOf, hingress, hdistillable]
    rfl

end

variable {entry : Option MetricsRequest}

section

variable (hordered : LifecyclesOrdered log)
include hordered

variable (hknown : Known log place key entry)
include hknown

/-- A distilled record is of an execution that has ended. -/
theorem ended_of_recordOf
    {record : RollupRequest}
    (hrecord : entry.bind (recordOf now key) = some record) : Ended log key record.terminalAt := by
  obtain ⟨_, rfl, hmade⟩ := bind_eq_some_iff.mp hrecord
  unfold recordOf at hmade
  split at hmade
  · cases hmade
  split at hmade
  next hdistillable =>
    cases hmade
    simp only [distillableRequest, Bool.and_eq_true, Bool.not_eq_true',
      decide_eq_true_eq] at hdistillable
    obtain ⟨⟨⟨-, hvalid⟩, hended⟩, -⟩ := hdistillable
    obtain ⟨-, hlife⟩ := hknown.ended hordered hended
    refine ⟨?_, ?_, ?_⟩
    · by_contra hopen
      have hzero := terminalAt_lifeAfter (Bool.eq_false_iff.mpr hopen)
      rw [← hlife] at hzero
      exact hended hzero
    · rwa [← hlife]
    · rw [← hlife]
      rfl
  next => cases hmade

theorem Known.filter_retained : Known log place key (entry.filter (retained now)) := by
  cases entry with
  | none => exact hknown
  | some =>
    rw [filter_some]
    split
    · exact hknown
    next hretained =>
      rw [retained, Bool.and_eq_true, Bool.not_eq_true', Bool.not_eq_true', not_and_or,
        Bool.not_eq_false, Bool.not_eq_false] at hretained
      rcases hretained with hingress | hdistillable
      · exact hknown.of_ingressOnly hordered hingress
      · simp only [distillableRequest, Bool.and_eq_true, decide_eq_true_eq] at hdistillable
        exact hknown.of_ended hordered hdistillable.1.2

theorem Known.filter_ingressOnly :
    Known log place key (entry.filter fun request ↦ !request.ingressOnly) := by
  cases entry with
  | none => exact hknown
  | some =>
    rw [filter_some]
    split
    · exact hknown
    next hingress =>
      rw [Bool.not_eq_true', Bool.not_eq_false] at hingress
      exact hknown.of_ingressOnly hordered hingress

end

theorem Flagged.restrict (hflagged : Flagged requests)
    (keep : MetricsRequest → Bool) : Flagged (KeyedFold.restrict keep requests) := by
  intro key request hrequest
  rw [lookup_restrict, mem_def, filter_eq_some_iff] at hrequest
  exact hflagged key request hrequest.1

/-- What a pass distils accounts for every ended execution it knew, so its requests may be dropped.
-/
theorem Covers.distill (hordered : LifecyclesOrdered log) {state : MetricsRollupState}
    (order : RequestOrder) (hflagged : Flagged (Clyde.Daemon.readLines state.requests lines))
    (hsound : ∀ key, ∀ record ∈ recordsOf key store, Ended log key record.terminalAt)
    (hcovers : Covers log store now coverage place (Clyde.Daemon.readLines state.requests lines)) :
    Covers log (distillMetricsRollup order now lines state store).2 now coverage place ∅ := by
  intro key endedAt hnone hended
  refine .inl ?_
  -- A record of the execution has its time, so a prune removes it only when it is too old.
  have hstored : ∀ record ∈ recordsOf key store ++
      (((Clyde.Daemon.readLines state.requests lines).lookup key).bind (recordOf now key)).toList,
      record.terminalAt = endedAt → Accounted (distillMetricsRollup order now lines state store).2
        now coverage key endedAt := by
    intro record hrecord hat
    by_cases hyoung : now - metricsRollupRetention ≤ endedAt
    · have hkept :=
        (recordsOf_distillMetricsRollup order now lines state store key).2 record hrecord
        (by rw [hat]; exact hyoung)
      exact .inr (.inr (ne_nil_of_mem hkept))
    · exact .inr (.inl (not_le.mp hyoung))
  rcases hcovers key endedAt hnone hended with (hcoverage | hold | hknown) | ⟨hat, hlife⟩
  · exact .inl hcoverage
  · exact .inr (.inl hold)
  · obtain ⟨record, hrecord⟩ := exists_mem_of_ne_nil _ hknown
    refine hstored record (mem_append_left _ hrecord) ?_
    rw [← (hsound key record hrecord).at_eq, hended.at_eq]
  · obtain ⟨record, hrecord, hrecordAt⟩ := recordOf_of_ended hordered hflagged hended hat hlife
    exact hstored record (mem_append_right _ (by rw [hrecord]; exact mem_cons_self)) hrecordAt

theorem Covers.of_accounted (hcovers : Covers log store clock coverage place ∅)
    (requests : MetricsRequests) :
    Covers log store clock coverage place requests :=
  fun _ _ hnone hended ↦ .inl (hcovers.accounted hnone hended)

/-- Requests that were seen at the ingress and never started are not needed for the coverage. -/
theorem Covers.restrict (hordered : LifecyclesOrdered log)
    (hcovers : Covers log store clock coverage place requests) :
    Covers log store clock coverage place
      (KeyedFold.restrict (fun request ↦ !request.ingressOnly) requests) := by
  intro key endedAt hnone hended
  rcases hcovers key endedAt hnone hended with haccounted | ⟨hat, hlife⟩
  · exact .inl haccounted
  refine .inr ⟨hat, ?_⟩
  have hstarted := hended.lifecycleStarted hordered
  rw [lookup_restrict, ← hlife]
  rw [← hlife] at hstarted
  cases hentry : requests.lookup key with
  | none => rfl
  | some request =>
    rw [hentry] at hstarted
    have hstarted : request.lifecycleStarted = true := hstarted
    rw [filter_some, if_pos (by simp [MetricsRequest.ingressOnly, hstarted])]

/-! ### One event -/

theorem known_empty (log : List LogLine) (key : Bytes) :
    Known log 0 key ((∅ : MetricsRequests).lookup key) := by
  exact .inl rfl

theorem flagged_empty : Flagged ∅ := by
  intro _ _ hrequest
  cases hrequest

/-- The coverage survives a change of the files that keeps every position. -/
theorem Covered.of_files (hcovered : Covered log world) {files : LogFiles}
    (hlength : world.files.lines.length ≤ files.lines.length)
    (hvalid : ∀ position, world.files.Valid position →
      files.Valid position ∧ files.count position = world.files.count position) :
    Covered log { world with files := files } := by
  refine ⟨hcovered.sound, fun position hposition ↦ ?_, fun worker hworker ↦ ?_⟩
  · obtain ⟨hplace, hcovers⟩ := hcovered.saved position hposition
    obtain ⟨hnew, hcount⟩ := hvalid position hplace
    refine ⟨hnew, ?_⟩
    rwa [hcount]
  obtain ⟨read, hfollowing⟩ := hcovered.worker worker hworker
  refine ⟨read, hfollowing.read_le.trans hlength, hfollowing.known, hfollowing.flagged,
    hfollowing.held, fun position hposition ↦ ?_⟩
  obtain ⟨hplace, hrest⟩ := hfollowing.place position hposition
  obtain ⟨hnew, hcount⟩ := hvalid position hplace
  refine ⟨hnew, ?_⟩
  rwa [hcount]

/-- A restart from the saved position keeps the coverage. -/
theorem Covered.restart (hcovered : Covered log world) (hclock : world.clock ≤ now)
    (marks : Bool) : Covered log (world.step (.restart now marks)) := by
  have hrecords : ∀ key, recordsOf key (world.store ++ if marks then [.generation now] else []) =
      recordsOf key world.store := by
    cases marks <;> simp [recordsOf]
  have hsaved : ∀ position, world.saved.source = some position → world.files.Valid position ∧
      Covers log (world.store ++ if marks then [.generation now] else []) now
        world.saved.coverageSince (world.files.count position) ∅ := by
    intro position hposition
    obtain ⟨hvalid, hcovers⟩ := hcovered.saved position hposition
    exact ⟨hvalid, hcovers.mono hclock fun key hstored ↦ by rw [hrecords]; exact hstored⟩
  refine ⟨fun key record hrecord ↦ ?_, hsaved, ?_⟩
  · dsimp [step] at hrecord
    rw [hrecords] at hrecord
    exact hcovered.sound key record hrecord
  rintro _ ⟨⟩
  refine ⟨0, Nat.zero_le _, known_empty log, flagged_empty, fun hheld ↦
    absurd hheld Bool.false_ne_true, fun position hposition ↦ ?_⟩
  obtain ⟨hvalid, hcovers⟩ := hsaved position hposition
  exact ⟨hvalid, Nat.zero_le _, fun hheld ↦ absurd hheld Bool.false_ne_true, hcovers⟩

section

variable (hordered : LifecyclesOrdered log) (hlines : world.files.lines <+: log)
include hordered hlines

section

variable (hclock : world.clock ≤ now) (hcovered : Covered log world)
  (hworker : world.worker = some worker) (horderly : OrderlyRead log world.files now worker)
include hclock hcovered hworker horderly

/-- After the tail is read the worker knows every execution of the log. -/
theorem Covered.tail_read :
    (∀ key, Known log world.files.lines.length key ((readLines worker.state.requests
        (world.files.tail (openSource world.files now worker).1)).lookup key)) ∧
      Flagged (readLines worker.state.requests
        (world.files.tail (openSource world.files now worker).1)) ∧
      Covers log world.store now (openSource world.files now worker).2 world.files.lines.length
        (readLines worker.state.requests
          (world.files.tail (openSource world.files now worker).1)) := by
  obtain ⟨_, hfollowing⟩ := hcovered.worker worker hworker
  obtain ⟨hvalid, hknown, hcovers⟩ := hfollowing.opened hordered hlines hclock horderly
  have hdated := horderly.dated
  have hle := count_le hvalid
  rw [tail_eq hvalid horderly.unskipped] at hdated ⊢
  exact ⟨known_readLines hlines hle hknown, hfollowing.flagged.readLines _,
    hcovers.readLines hordered hlines hle hdated hknown⟩

theorem Covered.fail : Covered log (world.failPass worker now) := by
  obtain ⟨hknown, hflagged, hcovers⟩ := hcovered.tail_read hordered hlines hclock hworker horderly
  refine ⟨hcovered.sound, fun position hposition ↦ ?_, ?_⟩
  · obtain ⟨hvalid, hsaved⟩ := hcovered.saved position hposition
    exact ⟨hvalid, hsaved.mono hclock fun _ hstored ↦ hstored⟩
  rintro _ ⟨⟩
  refine ⟨world.files.lines.length, le_rfl, fun key ↦ ?_, hflagged.restrict _, fun _ ↦ nofun, ?_⟩
  · rw [lookup_restrict]
    exact (hknown key).filter_ingressOnly hordered
  rintro _ ⟨⟩
  dsimp [failPass]
  rw [count_tip]
  exact ⟨world.files.valid_tip, le_rfl, fun _ ↦ rfl, hcovers.restrict hordered⟩

end

/-- A pass keeps the coverage, whether or not its checkpoint is saved. -/
theorem Covered.pass {done : ℤ} (hclock : world.clock ≤ now) (hdone : now ≤ done)
    (hcovered : Covered log world) (hworker : world.worker = some worker)
    (horderly : OrderlyRead log world.files now worker) (order : RequestOrder) (saves : Bool) :
    Covered log (world.runPass worker now done order saves) := by
  obtain ⟨hknown, hflagged, hcovers⟩ := hcovered.tail_read hordered hlines hclock hworker horderly
  generalize htail : world.files.tail (openSource world.files now worker).1 = lines at *
  generalize hstore : (distillMetricsRollup order now lines _ world.store).2 = store
  have hsound : ∀ key, ∀ record ∈ recordsOf key store, Ended log key record.terminalAt := by
    intro key record hrecord
    rw [← hstore] at hrecord
    rcases mem_append.mp ((recordsOf_distillMetricsRollup order now lines _
      world.store key).1 hrecord) with hold | hnew
    · exact hcovered.sound key record hold
    · exact ended_of_recordOf hordered (hknown key) (mem_toList.mp hnew)
  -- Nothing is left to do, so what is saved covers the log up to its end.
  have hdistilled : Covers log store done (openSource world.files now worker).2
      world.files.lines.length ∅ := by
    rw [← hstore]
    exact (hcovers.distill hordered order hflagged hcovered.sound).mono hdone
      fun _ hstored ↦ hstored
  have hsaved : ∀ position, world.saved.source = some position → world.files.Valid position ∧
      Covers log store done world.saved.coverageSince (world.files.count position) ∅ := by
    intro position hposition
    obtain ⟨hvalid, hold⟩ := hcovered.saved position hposition
    rw [← hstore]
    have hkept := ((hold.mono hclock fun _ hstored ↦ hstored).of_accounted _).distill hordered order
      hflagged hcovered.sound
    exact ⟨hvalid, hkept.mono hdone fun _ hstored ↦ hstored⟩
  have htip : world.files.Valid world.files.tip ∧ Covers log store done
      (openSource world.files now worker).2 (world.files.count world.files.tip) ∅ := by
    rw [count_tip]
    exact ⟨world.files.valid_tip, hdistilled⟩
  have hfollowing : ∀ next : RollupWorker,
      next.state.requests = retainedRequests now (readLines worker.state.requests lines) →
      next.checkpoint.source = some world.files.tip →
      next.checkpoint.coverageSince = (openSource world.files now worker).2 →
      ∀ after : World, after.files = world.files → after.store = store → after.clock = done →
        Following log after next world.files.lines.length := by
    intro next hrequests hsource hcoverage _ hfiles hafter hdoneAt
    refine ⟨by rw [hfiles], fun key ↦ ?_, ?_, fun _ ↦ by rw [hsource]; nofun, ?_⟩
    · rw [hrequests, lookup_retainedRequests]
      exact (hknown key).filter_retained hordered
    · rw [hrequests]
      exact hflagged.restrict _
    intro position hposition
    rw [hsource] at hposition
    cases hposition
    rw [hfiles, hafter, hdoneAt, hcoverage, count_tip]
    exact ⟨world.files.valid_tip, le_rfl, fun _ ↦ rfl, hdistilled.of_accounted _⟩
  have hrequests := distillMetricsRollup_requests order now lines worker.state world.store
  unfold runPass
  dsimp only
  rw [htail]
  split
  · refine ⟨?_, ?_, ?_⟩
    · rwa [← hstore] at hsound
    · intro position hposition
      cases saves with
      | true =>
        cases hposition
        rwa [← hstore] at htip
      | false =>
        rw [← hstore] at hsaved
        exact hsaved position hposition
    · rintro next ⟨⟩
      exact ⟨_, hfollowing _ hrequests rfl rfl _ rfl hstore rfl⟩
  refine ⟨?_, ?_, ?_⟩
  · rwa [← hstore] at hsound
  · rwa [← hstore] at hsaved
  · rintro _ ⟨⟩
    exact ⟨_, hfollowing _ hrequests rfl rfl _ rfl hstore rfl⟩

end

theorem Covered.leave (hcovered : Covered log world) (hclock : world.clock ≤ now)
    (hworker : world.worker = some worker) (saves : Bool) :
    Covered log (world.leaveSource worker now saves) := by
  refine ⟨hcovered.sound, fun position hposition ↦ ?_, ?_⟩
  · cases saves with
    | true => cases hposition
    | false =>
      obtain ⟨hvalid, hsaved⟩ := hcovered.saved position hposition
      exact ⟨hvalid, hsaved.mono hclock fun _ hstored ↦ hstored⟩
  · rintro _ ⟨⟩
    obtain ⟨read, hfollowing⟩ := hcovered.worker worker hworker
    exact ⟨read, hfollowing.read_le, hfollowing.known, hfollowing.flagged, nofun, nofun⟩

/-- One event keeps the coverage. -/
theorem Covered.step (hordered : LifecyclesOrdered log) (hcovered : Covered log world)
    {event : WorkerEvent} (hlines : (world.step event).files.lines <+: log)
    (horderly : Orderly log world event) : Covered log (world.step event) := by
  have hbefore := (lines_step world event).trans hlines
  cases event with
  | append line =>
    refine hcovered.of_files (lines_step world (.append line)).length_le fun position hvalid ↦ ?_
    exact ⟨hvalid.append line, rfl⟩
  | rotate =>
    refine hcovered.of_files (lines_step world .rotate).length_le fun position hvalid ↦ ?_
    exact ⟨hvalid.rotate, hvalid.count_rotate⟩
  | restart now marks => exact hcovered.restart horderly marks
  | pass now _ order saves =>
    obtain ⟨hclock, hdone, hread⟩ := horderly
    unfold World.step
    cases hworker : world.worker with
    | none => exact hcovered
    | some worker =>
      exact hcovered.pass hordered hbefore hclock hdone hworker (hread worker hworker) order saves
  | fail now =>
    obtain ⟨hclock, hread⟩ := horderly
    unfold World.step
    cases hworker : world.worker with
    | none => exact hcovered
    | some worker => exact hcovered.fail hordered hbefore hclock hworker (hread worker hworker)
  | cleanup _ saves =>
    unfold World.step
    cases hworker : world.worker with
    | none => exact hcovered
    | some => exact hcovered.leave horderly hworker saves

end

/-! ### Runs -/

theorem covered_initial {world : World} (hinitial : world.Initial) : Covered log world := by
  refine ⟨fun key record hrecord ↦ ?_, fun position hposition ↦ ?_, fun worker hworker ↦ ?_⟩
  · rw [hinitial.store] at hrecord
    cases hrecord
  · rw [hinitial.saved] at hposition
    cases hposition
  · rw [hinitial.worker] at hworker
    cases hworker

variable {window : MetricsWindow} {key : Bytes}

variable {worker : RollupWorker} {now : ℤ}

end Clyde.Daemon
