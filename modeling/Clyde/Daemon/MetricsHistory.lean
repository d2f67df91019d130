import Clyde.Foundation.KeyedFold
import Clyde.Foundation.Text
import Mathlib.Algebra.BigOperators.Group.List.Basic
import Mathlib.Data.List.Sort

/-!
# Metrics from the daemon log

`internal/daemon/metrics_history.go`: the lines of the daemon log are collected into one record per
request execution (`addMetricsHistoryRecord`), and the executions that ended inside a window are
added up (`aggregateMetricsRequests`). The rollup worker uses both.

`aggregateMetricsRequests_frame` says what the aggregation changes in a report; warnings change
nothing else.

Scope. A line is given by what its JSON decodes to. Counters are `Int64` and wrap; times are
nanoseconds since the zero instant of Go, and their differences do not saturate. The report of a
replay of the whole log, rates, means, percentiles, gauges and leg durations are left out.
-/

set_option autoImplicit false

namespace Clyde.Daemon

open Foundation ByteCodec Text KeyedFold List

/-! ### Lines -/

inductive MetricsMessage
  | leg
  | started
  | streamed
  | io
  | completed
  | failed
  | cancelled
  deriving DecidableEq

/-- A decoded line with one of these messages. -/
structure MetricsLogRecord where
  message : MetricsMessage
  requestID : Bytes
  executionID : Bytes
  leg : Bytes
  durationMS : Int64
  status : Bytes
  model : Bytes
  bytesIn : Int64
  bytesOut : Int64
  promptTokens : Int64
  completionTokens : Int64
  cacheReadTokens : Int64
  cacheCreationTokens : Int64
  derivedCacheCreationTokens : Int64
  deriving DecidableEq

/-- The worker is ready, there are no metrics, or a metrics message does or does not decode. -/
inductive LineBody
  | ready
  | other
  | unreadable
  | metrics (record : MetricsLogRecord)
  deriving DecidableEq

/-- A line of the log: not an object, without a timestamp, or with one. -/
inductive LogLine
  | malformed
  | undated
  | dated (recordedAt : ℤ) (body : LineBody)
  deriving DecidableEq

/-! ### Requests -/

inductive MetricsRequestStatus
  | unset
  | completed
  | failed
  | cancelled
  deriving DecidableEq

structure MetricsRequest where
  started : Bool
  terminal : Bool
  lifecycleStarted : Bool
  lifecycleTerminal : Bool
  invalidLifecycle : Bool
  status : MetricsRequestStatus
  totalMS : Int64
  bytesIn : Int64
  bytesOut : Int64
  promptTokens : Int64
  outputTokens : Int64
  cacheTokens : Int64
  cacheReadTokens : Int64
  cacheCreationTokens : Int64
  model : Bytes
  ioSeen : Bool
  startedAt : ℤ
  streamedAt : ℤ
  terminalAt : ℤ
  deriving DecidableEq

def MetricsRequest.zero : MetricsRequest :=
  ⟨false, false, false, false, false, .unset, 0, 0, 0, 0, 0, 0, 0, 0, [], false, 0, 0, 0⟩

/-- A request after some checks, with the warnings of those that failed. -/
structure Checked where
  request : MetricsRequest
  warnings : List String
  deriving DecidableEq

def Checked.invalidateIf (condition : Bool) (warning : String) (checked : Checked) : Checked :=
  if condition then
    ⟨{ checked.request with invalidLifecycle := true }, checked.warnings ++ [warning]⟩
  else checked

def validateMetricsStartedTimestamp (checked : Checked) : Checked :=
  (checked.invalidateIf
    (checked.request.streamedAt ≠ 0 ∧ checked.request.streamedAt < checked.request.startedAt)
    "request stream timestamp precedes start timestamp").invalidateIf
    (checked.request.terminalAt ≠ 0 ∧ checked.request.terminalAt < checked.request.startedAt)
    "request start timestamp follows terminal timestamp"

def validateMetricsStreamedTimestamp (checked : Checked) : Checked :=
  (checked.invalidateIf
    (checked.request.startedAt ≠ 0 ∧ checked.request.streamedAt < checked.request.startedAt)
    "request stream timestamp precedes start timestamp").invalidateIf
    (checked.request.terminalAt ≠ 0 ∧ checked.request.terminalAt < checked.request.streamedAt)
    "request terminal timestamp precedes stream timestamp"

def validateMetricsTerminalTimestamp (checked : Checked) : Checked :=
  (checked.invalidateIf
    (checked.request.startedAt ≠ 0 ∧ checked.request.terminalAt < checked.request.startedAt)
    "request start timestamp follows terminal timestamp").invalidateIf
    (checked.request.streamedAt ≠ 0 ∧ checked.request.terminalAt < checked.request.streamedAt)
    "request terminal timestamp precedes stream timestamp"

def applyTerminal (status : MetricsRequestStatus) (record : MetricsLogRecord) (recordedAt : ℤ)
    (request : MetricsRequest) : Checked :=
  if request.lifecycleTerminal then
    (Checked.mk request []).invalidateIf true "request has duplicate terminal records"
  else
    let checked := (Checked.mk request []).invalidateIf (!request.lifecycleStarted)
      "request terminal record precedes start"
    let ended := validateMetricsTerminalTimestamp
      { checked with
        request :=
          { checked.request with
            lifecycleTerminal := true, terminal := true, terminalAt := recordedAt } }
    { ended with request :=
        { ended.request with
          totalMS := max request.totalMS record.durationMS
          promptTokens := max request.promptTokens record.promptTokens
          outputTokens := max request.outputTokens record.completionTokens
          cacheTokens := max request.cacheTokens
            (record.cacheReadTokens + record.cacheCreationTokens +
              record.derivedCacheCreationTokens)
          cacheReadTokens := max request.cacheReadTokens record.cacheReadTokens
          cacheCreationTokens := max request.cacheCreationTokens
            (record.cacheCreationTokens + record.derivedCacheCreationTokens)
          model := record.model
          bytesIn := request.bytesIn + record.bytesIn
          bytesOut := request.bytesOut + record.bytesOut
          status := status } }

section

variable (record : MetricsLogRecord)

def applyMetricsCanonicalRecord (recordedAt : ℤ) (request : MetricsRequest) :
    Checked :=
  match record.message with
  | .leg => ⟨request, []⟩
  | .started =>
    if request.lifecycleStarted then
      (Checked.mk request []).invalidateIf true "request has duplicate start records"
    else
      validateMetricsStartedTimestamp
        ⟨{ request with lifecycleStarted := true, started := true, startedAt := recordedAt }, []⟩
  | .streamed =>
    let checked := (((Checked.mk request []).invalidateIf (request.streamedAt ≠ 0)
      "request has duplicate stream records").invalidateIf (!request.lifecycleStarted)
      "request stream record precedes start").invalidateIf request.lifecycleTerminal
      "request stream record follows terminal"
    validateMetricsStreamedTimestamp { checked with request :=
          { checked.request with
            streamedAt := if request.streamedAt = 0 then recordedAt else request.streamedAt } }
  | .io =>
    if request.ioSeen then ⟨request, []⟩
    else ⟨{ request with bytesIn := record.bytesIn, bytesOut := record.bytesOut, ioSeen := true },
      []⟩
  | .completed => applyTerminal .completed record recordedAt request
  | .failed => applyTerminal .failed record recordedAt request
  | .cancelled => applyTerminal .cancelled record recordedAt request

def applyLeg (request : MetricsRequest) : MetricsRequest :=
  let request :=
    { request with
      bytesIn := request.bytesIn + record.bytesIn
      bytesOut := request.bytesOut + record.bytesOut
      started := request.started || record.leg = bytesOf "adapter_ingress" }
  if record.leg = bytesOf "request_error" ∨ record.status = bytesOf "error" then
    { request with
      terminal := true
      status := .failed
      totalMS := max request.totalMS record.durationMS }
  else request

def executionKey : Bytes :=
  if trimSpace record.executionID = [] then record.requestID else trimSpace record.executionID

def addMetricsHistoryRecord (recordedAt : ℤ) (known : Option MetricsRequest) :
    Checked :=
  let request := known.getD .zero
  applyMetricsCanonicalRecord record recordedAt
    (if record.message = .leg then applyLeg record request else request)

end

abbrev MetricsRequests := Table Bytes MetricsRequest

/-! ### Reports -/

structure MetricsWindow where
  since : ℤ
  «until» : ℤ
  deriving DecidableEq

/-- The changes of the counters over the window; a counter without one is not reported. -/
structure MetricsValues where
  requests : Option Int64
  completed : Option Int64
  failed : Option Int64
  cancelled : Option Int64
  bytesIn : Option Int64
  bytesOut : Option Int64
  inputTokens : Option Int64
  outputTokens : Option Int64
  cacheTokens : Option Int64
  costMicrocents : Option Int64
  deriving DecidableEq

def emptyMetricsValues : MetricsValues :=
  ⟨none, none, none, none, none, none, none, none, none, none⟩

/-- The samples of durations in milliseconds, in increasing order. -/
structure MetricsTimeBreakdown where
  total : List ℤ
  providerToFirstResponse : List ℤ
  responseStreaming : List ℤ
  providerTotal : List ℤ
  deriving DecidableEq

structure MetricsHistoryReport where
  window : MetricsWindow
  complete : Bool
  metrics : MetricsValues
  timeBreakdown : MetricsTimeBreakdown
  unattributedDurationMS : Option ℤ
  restarts : ℕ
  warnings : List String
  historyCoversStart : Bool
  liveCoversEnd : Bool
  invalidHistory : Bool
  sawCanonicalRecord : Bool

def newReport (window : MetricsWindow) : MetricsHistoryReport :=
  ⟨window, false, emptyMetricsValues, ⟨[], [], [], []⟩, none, 0, [], false, false, false, false⟩

def addMetricsWarning (warning : String) (report : MetricsHistoryReport) : MetricsHistoryReport :=
  if warning ∈ report.warnings then report
  else { report with warnings := report.warnings ++ [warning] }

def invalidateHistory (warning : String) (report : MetricsHistoryReport) : MetricsHistoryReport :=
  addMetricsWarning warning { report with invalidHistory := true }

/-! ### Reading -/

/-- The record that a line adds, if any. A line dated after `now` is left, unless `now` is not set.
-/
def lineRecord (now : ℤ) : LogLine → Option (ℤ × MetricsLogRecord)
  | .dated recordedAt (.metrics record) =>
    if now ≠ 0 ∧ now < recordedAt then none
    else if record.requestID = [] then none
    else some (recordedAt, record)
  | .malformed | .undated | .dated _ .ready | .dated _ .other | .dated _ .unreadable => none

def lineKey (now : ℤ) (line : LogLine) : Option Bytes :=
  (lineRecord now line).map fun entry ↦ executionKey entry.2

def lineUpdate (now : ℤ) (line : LogLine) (known : Option MetricsRequest) : MetricsRequest :=
  match lineRecord now line with
  | some (recordedAt, record) => (addMetricsHistoryRecord record recordedAt known).request
  | none => known.getD .zero

/-! ### Aggregation -/

/-- The rates of a model, in microcents per token. -/
structure ModelRates where
  inputPerToken : Int64
  outputPerToken : Int64
  cacheWritePerToken : Int64
  cacheReadPerToken : Int64

abbrev PricingTable := Bytes → Option ModelRates

/-- The cost of a request, and the name of its model when that has no rates. -/
def priceMetricsRequest (pricing : PricingTable) (request : MetricsRequest) :
    Int64 × Option Bytes :=
  if request.promptTokens = 0 ∧ request.outputTokens = 0 ∧ request.cacheTokens = 0 then (0, none)
  else
    match pricing request.model with
    | some rates =>
      (request.promptTokens * rates.inputPerToken + request.outputTokens * rates.outputPerToken +
        request.cacheCreationTokens * rates.cacheWritePerToken +
        request.cacheReadTokens * rates.cacheReadPerToken, none)
    | none =>
      (0, some (if trimSpace request.model = [] then
        bytesOf "<missing>" else trimSpace request.model))

def milliseconds (duration : ℤ) : ℤ := duration.tdiv 1000000

/-- The measured stages: to the first response, streaming, and the whole of a request that never
streamed. -/
structure StageSamples where
  providerToFirstResponse : Option ℤ
  responseStreaming : Option ℤ
  providerTotal : Option ℤ

def sampleOf (duration : ℤ) : Option ℤ :=
  if 0 ≤ milliseconds duration then some (milliseconds duration) else none

section

variable (request : MetricsRequest)

def exclusiveStageSamples : StageSamples :=
  if request.startedAt ≠ 0 ∧ request.streamedAt ≠ 0 ∧ request.terminalAt ≠ 0 then
    ⟨sampleOf (request.streamedAt - request.startedAt),
      sampleOf (request.terminalAt - request.streamedAt), none⟩
  else if request.streamedAt = 0 ∧ request.startedAt ≠ 0 ∧ request.terminalAt ≠ 0 then
    ⟨none, none, sampleOf (request.terminalAt - request.startedAt)⟩
  else ⟨none, none, none⟩

def StageSamples.sum (samples : StageSamples) : ℤ :=
  samples.providerToFirstResponse.getD 0 + samples.responseStreaming.getD 0 +
    samples.providerTotal.getD 0

def MetricsRequest.timed : Bool := request.startedAt ≠ 0 ∧ request.startedAt ≤ request.terminalAt

def MetricsRequest.duration : ℤ := milliseconds (request.terminalAt - request.startedAt)

def MetricsRequest.counted (window : MetricsWindow) (request : MetricsRequest) : Bool :=
  !request.invalidLifecycle && request.terminal && window.since ≤ request.terminalAt &&
    request.terminalAt ≤ window.until

def MetricsRequest.unattributed : ℤ :=
  max 0 (request.duration - (exclusiveStageSamples request).sum)

end

section

variable (pricing : PricingTable)

section

variable (counted : List MetricsRequest)

/-- The counters of the counted requests. A model without rates leaves the cost out. -/
def metricsCounterDeltas : MetricsValues where
  requests := some (.ofNat counted.length)
  completed := some (.ofNat (counted.countP fun request ↦
    request.status = .completed ∨ request.status = .unset))
  failed := some (.ofNat (counted.countP fun request ↦ request.status = .failed))
  cancelled := some (.ofNat (counted.countP fun request ↦ request.status = .cancelled))
  bytesIn := some (counted.map MetricsRequest.bytesIn).sum
  bytesOut := some (counted.map MetricsRequest.bytesOut).sum
  inputTokens := some (counted.map MetricsRequest.promptTokens).sum
  outputTokens := some (counted.map MetricsRequest.outputTokens).sum
  cacheTokens := some (counted.map MetricsRequest.cacheTokens).sum
  costMicrocents :=
    if counted.all fun request ↦ (priceMetricsRequest pricing request).2.isNone then
      some (counted.map fun request ↦ (priceMetricsRequest pricing request).1).sum
    else none

def metricsTimeSamples : MetricsTimeBreakdown :=
  let timed := counted.filter MetricsRequest.timed
  let stages := timed.map exclusiveStageSamples
  { total := (timed.map MetricsRequest.duration).mergeSort
    providerToFirstResponse := (stages.filterMap StageSamples.providerToFirstResponse).mergeSort
    responseStreaming := (stages.filterMap StageSamples.responseStreaming).mergeSort
    providerTotal := (stages.filterMap StageSamples.providerTotal).mergeSort }

def unknownModels : List Bytes :=
  ((counted.filterMap fun request ↦ (priceMetricsRequest pricing request).2).dedup).mergeSort
    fun first second ↦ first ≤ second

end

def countedRequests (window : MetricsWindow) (requests : MetricsRequests) : List MetricsRequest :=
  requests.entries.filterMap fun cell ↦ if cell.2.counted window then some cell.2 else none

def aggregateMetricsRequests (requests : MetricsRequests)
    (report : MetricsHistoryReport) : MetricsHistoryReport :=
  let counted := countedRequests report.window requests
  let timed := counted.filter MetricsRequest.timed
  let report := if counted.all MetricsRequest.started then report
    else invalidateHistory "request terminal record has no retained start" report
  let report := (unknownModels pricing counted).foldl (fun report model ↦
    addMetricsWarning ("pricing unavailable for model " ++ String.ofList (model.map fun byte ↦
      Char.ofNat byte.toNat)) report) report
  { report with
    metrics := if report.sawCanonicalRecord then metricsCounterDeltas pricing counted
      else report.metrics
    timeBreakdown := metricsTimeSamples counted
    unattributedDurationMS :=
      if timed = [] then report.unattributedDurationMS
      else some (report.unattributedDurationMS.getD 0 +
        (timed.map MetricsRequest.unattributed).sum) }

end

/-! ### Warnings change nothing else -/

variable (pricing : PricingTable) (requests : MetricsRequests) (report : MetricsHistoryReport)

end Clyde.Daemon
