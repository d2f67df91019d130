import Clyde.Daemon.MetricsHistory

/-!
# The rollup of the daemon log

`internal/daemon/metrics_rollup.go`, `metrics_rollup_distill.go` and `metrics_rollup_report.go`: a
worker reads the log in passes, writes one record per finished request and forgets the request; a
report adds up the records of its window with the aggregation of the replay.

Scope. The reads and writes of a pass succeed. A stored time is the instant it was formatted from. A
loop over the requests meets them in any order, a `RequestOrder`. How a duration is printed is a
parameter.
-/

set_option autoImplicit false

namespace Clyde.Daemon

open Foundation ByteCodec Text KeyedFold List

/-- How long records are kept: eight days. -/
def metricsRollupRetention : ℤ := 8 * 24 * 60 * 60 * 1000000000

/-- The time between two passes: five minutes. -/
def metricsRollupInterval : ℤ := 5 * 60 * 1000000000

/-! ### Records -/

structure RollupRequest where
  requestID : Bytes
  startedAt : ℤ
  streamedAt : ℤ
  terminalAt : ℤ
  status : MetricsRequestStatus
  model : Bytes
  bytesIn : Int64
  bytesOut : Int64
  promptTokens : Int64
  outputTokens : Int64
  cacheReadTokens : Int64
  cacheCreationTokens : Int64
  deriving DecidableEq

inductive MetricsRollupRecord
  | generation (startedAt : ℤ)
  | request (request : RollupRequest)
  deriving DecidableEq

def rollupRecordStamp : MetricsRollupRecord → ℤ
  | .generation startedAt => startedAt
  | .request request => request.terminalAt

def requestToRollupRecord (requestID : Bytes) (request : MetricsRequest) : RollupRequest where
  requestID := requestID
  startedAt := request.startedAt
  streamedAt := request.streamedAt
  terminalAt := request.terminalAt
  status := request.status
  model := request.model
  bytesIn := request.bytesIn
  bytesOut := request.bytesOut
  promptTokens := request.promptTokens
  outputTokens := request.outputTokens
  cacheReadTokens := request.cacheReadTokens
  cacheCreationTokens := request.cacheCreationTokens

def rollupRecordToRequest (record : RollupRequest) : MetricsRequest where
  started := record.startedAt ≠ 0
  terminal := true
  lifecycleStarted := record.startedAt ≠ 0
  lifecycleTerminal := true
  invalidLifecycle := false
  status := record.status
  totalMS := 0
  bytesIn := record.bytesIn
  bytesOut := record.bytesOut
  promptTokens := record.promptTokens
  outputTokens := record.outputTokens
  cacheTokens := record.cacheReadTokens + record.cacheCreationTokens
  cacheReadTokens := record.cacheReadTokens
  cacheCreationTokens := record.cacheCreationTokens
  model := record.model
  ioSeen := record.bytesIn ≠ 0 ∨ record.bytesOut ≠ 0
  startedAt := record.startedAt
  streamedAt := record.streamedAt
  terminalAt := record.terminalAt

/-! ### Loading -/

structure MetricsRollupWindow where
  requests : MetricsRequests
  restarts : ℕ
  earliestSeen : ℤ
  found : Bool

def markRollupEarliest (instant earliest : ℤ) : ℤ :=
  if earliest = 0 ∨ instant < earliest then instant else earliest

section

variable (window : MetricsWindow)

def RollupRequest.within (record : RollupRequest) : Bool :=
  record.terminalAt ≠ 0 && window.since ≤ record.terminalAt && record.terminalAt ≤ window.until

/-- The record of a request that a window includes, by its identifier. -/
def windowKey : MetricsRollupRecord → Option Bytes
  | .generation _ => none
  | .request record => if record.within window then some record.requestID else none

def windowEntry : MetricsRollupRecord → Option MetricsRequest → MetricsRequest
  | .generation _, known => known.getD .zero
  | .request record, _ => rollupRecordToRequest record

def applyRollupRecord (loaded : MetricsRollupWindow)
    (record : MetricsRollupRecord) : MetricsRollupWindow where
  requests := absorb (windowKey window) windowEntry loaded.requests record
  restarts :=
    match record with
    | .generation startedAt =>
      if startedAt ≠ 0 ∧ window.since ≤ startedAt ∧
        startedAt ≤ window.until then loaded.restarts + 1
      else loaded.restarts
    | .request _ => loaded.restarts
  earliestSeen :=
    if rollupRecordStamp record = 0 then loaded.earliestSeen
    else markRollupEarliest (rollupRecordStamp record) loaded.earliestSeen
  found := loaded.found || (windowKey window record).isSome

end

def loadMetricsRollup (store : List MetricsRollupRecord) (window : MetricsWindow) :
    MetricsRollupWindow :=
  store.foldl (applyRollupRecord window) ⟨∅, 0, 0, false⟩

/-! ### A pass -/

structure RequestOrder where
  order : List (Sigma fun _ : Bytes ↦ MetricsRequest) → List (Sigma fun _ : Bytes ↦ MetricsRequest)
  perm : ∀ entries, (order entries).Perm entries

/-- The requests that have not finished, and when the oldest record of the store expires. -/
structure MetricsRollupState where
  requests : MetricsRequests
  lastRecordAt : ℤ
  nextExpiry : ℤ
  retentionLoaded : Bool

def distillableRequest (now : ℤ) (request : MetricsRequest) : Bool :=
  request.terminal && !request.invalidLifecycle && request.terminalAt ≠ 0 &&
    request.terminalAt ≤ now

/-- Only the end of the connection of this execution was seen. -/
def MetricsRequest.ingressOnly (request : MetricsRequest) : Bool :=
  request.ioSeen && !request.lifecycleStarted

def recordOf (now : ℤ) (requestID : Bytes) (request : MetricsRequest) : Option RollupRequest :=
  if request.ingressOnly then none
  else if distillableRequest now request then some (requestToRollupRecord requestID request)
  else none

def retained (now : ℤ) (request : MetricsRequest) : Bool :=
  !request.ingressOnly && !distillableRequest now request

def sortedRollupRecords (records : List RollupRequest) : List RollupRequest :=
  records.mergeSort fun first second ↦ first.terminalAt ≤ second.terminalAt

def distilledRecords (order : RequestOrder) (now : ℤ) (requests : MetricsRequests) :
    List RollupRequest :=
  sortedRollupRecords ((order.order requests.entries).filterMap fun cell ↦
    recordOf now cell.1 cell.2)

def retainedRequests (now : ℤ) (requests : MetricsRequests) : MetricsRequests where
  entries := requests.entries.filter fun cell ↦ retained now cell.2
  nodupKeys := requests.nodupKeys.sublist List.filter_sublist

def rememberExpiry (instant nextExpiry : ℤ) : ℤ :=
  if nextExpiry = 0 ∨ instant + metricsRollupRetention < nextExpiry then
    instant + metricsRollupRetention
  else nextExpiry

def storeExpiry (store : List MetricsRollupRecord) : ℤ :=
  let earliest := (loadMetricsRollup store ⟨0, 0⟩).earliestSeen
  if earliest = 0 then 0 else rememberExpiry earliest 0

/-- When the oldest record expires, from the store at the first pass and after a prune. -/
def loadRetention (state : MetricsRollupState) (store : List MetricsRollupRecord) : ℤ :=
  if state.retentionLoaded then state.nextExpiry else storeExpiry store

def pruneMetricsRollup (cutoff : ℤ) (store : List MetricsRollupRecord) : List MetricsRollupRecord :=
  store.filter fun record ↦ rollupRecordStamp record = 0 ∨ cutoff ≤ rollupRecordStamp record

/-- The requests after the lines of a pass. Lines dated after the pass are read as well. -/
def readLines (requests : MetricsRequests) (lines : List LogLine) : MetricsRequests :=
  lines.foldl (absorb (lineKey 0) (lineUpdate 0)) requests

/-- One pass over the lines that are new: the state of the worker and the store after it. -/
def distillMetricsRollup (order : RequestOrder) (now : ℤ) (lines : List LogLine)
    (state : MetricsRollupState) (store : List MetricsRollupRecord) :
    MetricsRollupState × List MetricsRollupRecord :=
  let requests := readLines state.requests lines
  let records := distilledRecords order now requests
  let appended := store ++ records.map .request
  let nextExpiry := records.foldl (fun expiry record ↦ rememberExpiry record.terminalAt expiry)
    (loadRetention state store)
  let lastRecordAt :=
    records.foldl (fun last record ↦ max last record.terminalAt) state.lastRecordAt
  if nextExpiry ≠ 0 ∧ nextExpiry < now then
    let pruned := pruneMetricsRollup (now - metricsRollupRetention) appended
    (⟨retainedRequests now requests, lastRecordAt, storeExpiry pruned, true⟩, pruned)
  else (⟨retainedRequests now requests, lastRecordAt, nextExpiry, true⟩, appended)

/-! ### The report -/

/-- The time of the last pass, the start of the coverage, and whether the log has grown since. -/
structure RollupProgress where
  lastPassAt : ℤ
  coverageSince : ℤ
  caughtUp : Bool

def loadedReport (loaded : MetricsRollupWindow) (lastPassAt : ℤ) (report : MetricsHistoryReport) :
    MetricsHistoryReport :=
  { report with
    restarts := loaded.restarts
    sawCanonicalRecord := loaded.found || loaded.earliestSeen ≠ 0
    historyCoversStart := loaded.earliestSeen ≠ 0 ∧ loaded.earliestSeen ≤ report.window.since
    liveCoversEnd := lastPassAt ≠ 0 ∧ report.window.until - lastPassAt ≤ metricsRollupInterval }

section

variable (durationText : ℤ → String)

def warnRollup (lastPassAt : ℤ) (report : MetricsHistoryReport) :
    MetricsHistoryReport :=
  let report :=
    if !report.sawCanonicalRecord then addMetricsWarning "no distilled daemon history yet" report
    else if !report.historyCoversStart then
      addMetricsWarning "distilled history starts after the requested window" report
    else report
  let report :=
    if report.liveCoversEnd then report
    else if lastPassAt = 0 then addMetricsWarning "distiller has not completed a pass yet" report
    else addMetricsWarning ("distilled history may be up to " ++
      durationText (report.window.until - lastPassAt) ++
      " behind; the next distill pass has not run yet") report
  if 0 < report.restarts then
    addMetricsWarning ("window spans " ++ toString report.restarts ++
      " daemon restart(s); totals are summed across them") report
  else report

def applyRollupWindow (pricing : PricingTable) (loaded : MetricsRollupWindow)
    (lastPassAt : ℤ) (report : MetricsHistoryReport) : MetricsHistoryReport :=
  let report := aggregateMetricsRequests pricing loaded.requests
    (warnRollup durationText lastPassAt (loadedReport loaded lastPassAt report))
  { report with
    complete := report.historyCoversStart && report.liveCoversEnd && !report.invalidHistory }

def rollupReport (pricing : PricingTable) (progress : RollupProgress)
    (store : List MetricsRollupRecord) (window : MetricsWindow) : MetricsHistoryReport :=
  let lastPassAt :=
    if progress.lastPassAt ≠ 0 ∧ progress.caughtUp then window.until else progress.lastPassAt
  let report := applyRollupWindow durationText pricing (loadMetricsRollup store window) lastPassAt
    (newReport window)
  if progress.coverageSince = 0 ∨ window.since < progress.coverageSince then
    addMetricsWarning
      "historical summary coverage is unavailable before the current log continuation"
      { report with complete := false }
  else report

end

/-! ### One execution in a pass -/

def entryAfter (key : Bytes) (lines : List LogLine) (entry : Option MetricsRequest) :
    Option MetricsRequest :=
  (ofKey (lineKey 0) key lines).foldl (fun entry line ↦ some (lineUpdate 0 line entry)) entry

def recordsOf (key : Bytes) (store : List MetricsRollupRecord) : List RollupRequest :=
  store.filterMap fun record ↦
    match record with
    | .generation _ => none
    | .request request => if request.requestID = key then some request else none

theorem recordsOf_append (key : Bytes) (front back : List MetricsRollupRecord) :
    recordsOf key (front ++ back) = recordsOf key front ++ recordsOf key back :=
  filterMap_append ..

theorem lookup_readLines (requests : MetricsRequests) (lines : List LogLine) (key : Bytes) :
    (readLines requests lines).lookup key = entryAfter key lines (requests.lookup key) :=
  lookup_foldl_absorb lines requests key

theorem entryAfter_append (key : Bytes) (front back : List LogLine)
    (entry : Option MetricsRequest) :
    entryAfter key (front ++ back) entry = entryAfter key back (entryAfter key front entry) := by
  rw [entryAfter, ofKey_append, foldl_append]
  rfl

theorem lookup_retainedRequests (now : ℤ) (requests : MetricsRequests) (key : Bytes) :
    (retainedRequests now requests).lookup key = (requests.lookup key).filter (retained now) :=
  lookup_restrict (retained now) requests key

variable (order : RequestOrder)

/-- A pass distils at most one record for a key, from the key's own request. -/
theorem recordsOf_distilledRecords (now : ℤ) (requests : MetricsRequests) (key : Bytes) :
    recordsOf key ((distilledRecords order now requests).map .request) =
      ((requests.lookup key).bind (recordOf now key)).toList := by
  have hcell : ∀ cell : Sigma fun _ : Bytes ↦ MetricsRequest,
    ((recordOf now cell.1 cell.2).bind fun record ↦
        if record.requestID = key then some record else none) =
        if cell.1 = key then recordOf now key cell.2 else none := by
    rintro ⟨_, request⟩
    unfold recordOf
    split_ifs <;> simp_all [requestToRollupRecord]
  have hperm : (recordsOf key ((distilledRecords order now requests).map .request)).Perm
      ((requests.lookup key).bind (recordOf now key)).toList := by
    rw [← filterMap_entries_of_key requests key _, recordsOf, filterMap_map]
    refine ((mergeSort_perm ..).filterMap _).trans ?_
    rw [filterMap_filterMap]
    refine ((order.perm _).filterMap _).trans (Perm.of_eq ?_)
    exact filterMap_congr fun cell _ ↦ hcell cell
  cases hrecord : (requests.lookup key).bind (recordOf now key) with
  | none => rw [hrecord] at hperm; exact hperm.eq_nil
  | some => rw [hrecord] at hperm; exact perm_singleton.mp hperm

theorem distillMetricsRollup_requests (now : ℤ) (lines : List LogLine)
    (state : MetricsRollupState) (store : List MetricsRollupRecord) :
    (distillMetricsRollup order now lines state store).1.requests =
      retainedRequests now (readLines state.requests lines) := by
  unfold distillMetricsRollup
  dsimp only
  split <;> rfl

theorem distillMetricsRollup_store (now : ℤ) (lines : List LogLine)
    (state : MetricsRollupState) (store : List MetricsRollupRecord) :
    (distillMetricsRollup order now lines state store).2 =
        store ++ (distilledRecords order now (readLines state.requests lines)).map .request ∨
      (distillMetricsRollup order now lines state store).2 = pruneMetricsRollup
        (now - metricsRollupRetention)
          (store ++ (distilledRecords order now
            (readLines state.requests lines)).map .request) := by
  unfold distillMetricsRollup
  dsimp only
  split
  · exact .inr rfl
  · exact .inl rfl

variable {store : List MetricsRollupRecord}

theorem mem_recordsOf {key : Bytes} {record : RollupRequest} :
    record ∈ recordsOf key store ↔ .request record ∈ store ∧ record.requestID = key := by
  rw [recordsOf, mem_filterMap]
  constructor
  · rintro ⟨found, hfound, hsome⟩
    cases found with
    | generation => cases hsome
    | request =>
      obtain ⟨hkey, hsame⟩ := Option.ite_none_right_eq_some.mp hsome
      cases hsame
      exact ⟨hfound, hkey⟩
  · rintro ⟨hfound, hkey⟩
    exact ⟨_, hfound, if_pos hkey⟩

/-- After a pass a key has only records from the store or its request, and all of them that are
retained. -/
theorem recordsOf_distillMetricsRollup (now : ℤ) (lines : List LogLine)
    (state : MetricsRollupState) (store : List MetricsRollupRecord) (key : Bytes) :
    recordsOf key (distillMetricsRollup order now lines state store).2 ⊆ recordsOf key store ++
          (((readLines state.requests lines).lookup key).bind (recordOf now key)).toList ∧
      ∀ record ∈ recordsOf key store ++
          (((readLines state.requests lines).lookup key).bind (recordOf now key)).toList,
        now - metricsRollupRetention ≤ record.terminalAt →
        record ∈ recordsOf key (distillMetricsRollup order now lines state store).2 := by
  rw [← recordsOf_distilledRecords order now, ← recordsOf_append]
  rcases distillMetricsRollup_store order now lines state store with hstore | hstore
  · rw [hstore]
    exact ⟨Subset.refl _, fun record hrecord _ ↦ hrecord⟩
  rw [hstore]
  constructor
  · intro record hrecord
    rw [mem_recordsOf] at hrecord ⊢
    exact ⟨mem_of_mem_filter hrecord.1, hrecord.2⟩
  · intro _ hrecord hyoung
    rw [mem_recordsOf] at hrecord ⊢
    exact ⟨mem_filter.mpr ⟨hrecord.1, decide_eq_true (.inr hyoung)⟩, hrecord.2⟩

/-! ### One execution in a load -/

variable (durationText : ℤ → String)

variable {window : MetricsWindow}

end Clyde.Daemon
