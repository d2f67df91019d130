import Mathlib.Data.List.Sort
import Mathlib.Data.String.Basic

/-!
# The semantic sync worker and the engine's checkpoint

`internal/daemon/conversation_semantic_sync.go` and the checkpoint store of
`internal/conversation/vectorsearch/checkpoint.go`. A pass states a fingerprint for each scanned
conversation (`buildManifest`), learns which the engine needs (`Engine.needed`), loads those within
a budget (`collectNeededDocuments`) and sends them (`sendDocuments`). The engine writes one
conversation after the other and records each fingerprint (`Engine.upsert`). When a stamp has moved
and the documents have not, the worker sends nothing and pins the conversation to the fingerprint of
the last delivery.

Scope. What happens outside a pass is in `Pass`: records, loads, cancellation and failures. A hash
of documents is an arbitrary function. A pass that finds no engine or a busy one changes nothing and
is left out, and so are counters and log records.
-/

set_option autoImplicit false

namespace Clyde.Daemon.SemanticSync

variable {Doc Hash : Type}

structure StampedRecord where
  /-- The conversation id without surrounding white space. -/
  id : String
  /-- `conversation.ContentFingerprint`: the size and the modification time of the artifact. -/
  fingerprint : String
  fingerprint_ne : fingerprint ≠ ""
  /-- The artifact was modified within the last minute. -/
  growing : Bool
  size : ℕ
  deriving DecidableEq

structure FailedLoadRecord where
  fingerprint : String
  failures : ℕ
  deriving DecidableEq

structure DeliveredContentRecord (Hash : Type) where
  fingerprint : String
  projectionHash : Hash
  deriving DecidableEq

structure PinnedFingerprintRecord where
  observed : String
  advertise : String
  deriving DecidableEq

structure Worker (Hash : Type) where
  deliveryCursor : String
  emptyDelivered : String → Option String
  failedLoad : String → Option FailedLoadRecord
  deliveredContent : String → Option (DeliveredContentRecord Hash)
  pinnedFingerprints : String → Option PinnedFingerprintRecord

def newWorker : Worker Hash where
  deliveryCursor := ""
  emptyDelivered := fun _ ↦ none
  failedLoad := fun _ ↦ none
  deliveredContent := fun _ ↦ none
  pinnedFingerprints := fun _ ↦ none

def failedLoadSuppressThreshold : ℕ := 3

/-- One conversation of a manifest. -/
structure Fingerprint where
  conversationId : String
  value : String
  deriving DecidableEq

structure ManifestBuild (Hash : Type) where
  worker : Worker Hash
  manifest : List Fingerprint
  /-- `recordsByID` and `stampsByID`. -/
  records : List StampedRecord
  seen : List String

section

variable (worker : Worker Hash)

section

variable (id fingerprint : String)

/-- The stated fingerprint: the pinned one while the artifact reads as observed. -/
def advertised : Worker Hash × String :=
  match worker.pinnedFingerprints id with
  | some pin =>
    if pin.observed = fingerprint then (worker, pin.advertise)
    else
      ({ worker with pinnedFingerprints := Function.update worker.pinnedFingerprints id none },
        fingerprint)
  | none => (worker, fingerprint)

/-- Whether the conversation is left out because it had no documents at this fingerprint. -/
def suppressedEmpty : Worker Hash × Bool :=
  match worker.emptyDelivered id with
  | some prior =>
    if prior = fingerprint then (worker, true)
    else ({ worker with emptyDelivered := Function.update worker.emptyDelivered id none }, false)
  | none => (worker, false)

/-- Whether the conversation is left out because its loads have failed at this fingerprint. -/
def suppressedFailed : Worker Hash × Bool :=
  match worker.failedLoad id with
  | some record =>
    if record.fingerprint = fingerprint then
      (worker, decide (failedLoadSuppressThreshold ≤ record.failures))
    else ({ worker with failedLoad := Function.update worker.failedLoad id none }, false)
  | none => (worker, false)

end

def manifestStep (build : ManifestBuild Hash) (record : StampedRecord) : ManifestBuild Hash :=
  if record.id = "" ∨ record.id ∈ build.seen then build
  else
    let stated := advertised build.worker record.id record.fingerprint
    let emptied := suppressedEmpty stated.1 record.id stated.2
    let failed := suppressedFailed emptied.1 record.id stated.2
    if emptied.2 then { build with worker := emptied.1, seen := record.id :: build.seen }
    else if failed.2 then { build with worker := failed.1, seen := record.id :: build.seen }
    else
      { worker := failed.1
        manifest := build.manifest ++ [⟨record.id, stated.2⟩]
        records := build.records ++ [record]
        seen := record.id :: build.seen }

def pruned {Value : Type} (seen : List String) (entries : String → Option Value) :
    String → Option Value :=
  fun id ↦ if id ∈ seen then entries id else none

/-- `pruneEmptyDelivered` and `pruneFailedLoad`. -/
def prune (seen : List String) : Worker Hash :=
  { worker with
    emptyDelivered := pruned seen worker.emptyDelivered
    failedLoad := pruned seen worker.failedLoad
    deliveredContent := pruned seen worker.deliveredContent
    pinnedFingerprints := pruned seen worker.pinnedFingerprints }

def buildManifest (scanned : List StampedRecord) : ManifestBuild Hash :=
  let build := scanned.foldl manifestStep ⟨worker, [], [], []⟩
  { build with worker := prune build.worker build.seen }

end

structure Engine (Doc : Type) where
  /-- The record files. -/
  files : String → Option String
  /-- The records in memory. -/
  checkpoint : String → Option String
  /-- The documents of every delivery of a conversation whose rows were all written. Rows are never
  deleted. -/
  stored : String → List (List Doc)

def Engine.needed (engine : Engine Doc) (manifest : List Fingerprint) : List String :=
  ((manifest.filter (fun entry ↦ entry.conversationId ≠ "" ∧
    engine.checkpoint entry.conversationId ≠ some entry.value)).map
      Fingerprint.conversationId).dedup.insertionSort (fun left right ↦ left ≤ right)

/-- `checkpointStore.record`: the file is written first, and a failed write changes nothing. -/
def Engine.record (engine : Engine Doc) (id fingerprint : String) (written : Bool) : Engine Doc :=
  if written then
    { engine with
      files := Function.update engine.files id (some fingerprint)
      checkpoint := Function.update engine.checkpoint id (some fingerprint) }
  else engine

/-- `checkpointStore.records` in a new process: a file that cannot be read is skipped. -/
def Engine.reload (engine : Engine Doc) (readable : String → Bool) : Engine Doc :=
  { engine with checkpoint := fun id ↦ if readable id then engine.files id else none }

structure DeliveredConversation (Doc Hash : Type) where
  id : String
  fingerprint : String
  projectionHash : Hash
  docs : List Doc

/-- The last fingerprint that the manifest states for a conversation. -/
def manifestValue (manifest : List Fingerprint) (id : String) : Option String :=
  (manifest.reverse.find? (fun entry ↦ entry.conversationId = id)).map Fingerprint.value

/-- What a pass gets from outside. -/
structure Pass (Doc : Type) where
  scanned : List StampedRecord
  /-- The manifest sync returns an error. -/
  syncFails : Bool
  batchBytes : ℕ
  /-- The documents that a load returns, or `none` if it fails. -/
  load : String → Option (List Doc)
  /-- How many conversations are visited before the context is done. -/
  visits : ℕ
  /-- The context is done before the documents are sent. -/
  cancelled : Bool
  /-- The upsert returns an error before it writes a row. -/
  upsertRefused : Bool
  /-- The rows of a conversation can all be written. -/
  rowsWritten : String → Bool
  /-- The checkpoint file of a conversation can be written. -/
  checkpointWritten : String → Bool

/-- The rows of one conversation are written, then its fingerprint is recorded. -/
def Engine.upsertOne (manifest : List Fingerprint) (written : String → Bool) (engine : Engine Doc)
    (delivery : DeliveredConversation Doc Hash) : Engine Doc :=
  let rows := { engine with
    stored := Function.update engine.stored delivery.id
      (engine.stored delivery.id ++ [delivery.docs]) }
  match manifestValue manifest delivery.id with
  | some value => rows.record delivery.id value (written delivery.id)
  | none => rows

/-- The deliveries in the order in which the engine writes them. -/
def upsertOrder (sent : List (DeliveredConversation Doc Hash)) :
    List (DeliveredConversation Doc Hash) :=
  sent.insertionSort (fun left right ↦ left.id ≤ right.id)

/-- The deliveries that an upsert completes: it ends at the first whose rows cannot be written. -/
def upsertCompletes (pass : Pass Doc) (sent : List (DeliveredConversation Doc Hash)) :
    List (DeliveredConversation Doc Hash) :=
  if pass.upsertRefused then []
  else (upsertOrder sent).takeWhile (fun delivery ↦ pass.rowsWritten delivery.id)

/-- The upsert returns no error. -/
def upsertAccepted (pass : Pass Doc) (sent : List (DeliveredConversation Doc Hash)) : Bool :=
  !pass.upsertRefused && sent.all (fun delivery ↦ pass.rowsWritten delivery.id)

def Engine.upsert (engine : Engine Doc) (manifest : List Fingerprint) (pass : Pass Doc)
    (sent : List (DeliveredConversation Doc Hash)) : Engine Doc :=
  (upsertCompletes pass sent).foldl (Engine.upsertOne manifest pass.checkpointWritten) engine

def rotateAfter (ids : List String) (cursor : String) : List String :=
  let start := (ids.takeWhile (fun id ↦ id ≤ cursor)).length
  if cursor = "" ∨ start = 0 ∨ ids.length ≤ start then ids else ids.drop start ++ ids.take start

def recordLoadFailure (worker : Worker Hash) (id fingerprint : String) : Worker Hash :=
  let failures := match worker.failedLoad id with
    | some record => if record.fingerprint = fingerprint then record.failures + 1 else 1
    | none => 1
  { worker with failedLoad := Function.update worker.failedLoad id (some ⟨fingerprint, failures⟩) }

structure Collection (Doc Hash : Type) where
  worker : Worker Hash
  sent : List (DeliveredConversation Doc Hash)
  artifactBytes : ℕ
  /-- The budget is used up. -/
  full : Bool

section

variable [DecidableEq Hash] (projectionHash : List Doc → Hash)

/-- The last delivery of a conversation whose stamp has moved since, if it had the same documents.
-/
def touchedSince (worker : Worker Hash) (record : StampedRecord) (docs : List Doc) :
    Option (DeliveredContentRecord Hash) :=
  (worker.deliveredContent record.id).filter (fun memo ↦
    memo.projectionHash = projectionHash docs ∧ memo.fingerprint ≠ record.fingerprint)

def collectLoaded (batchBytes : ℕ) (collection : Collection Doc Hash) (record : StampedRecord)
    (docs : List Doc) : Collection Doc Hash :=
  let worker := { collection.worker with
    failedLoad := Function.update collection.worker.failedLoad record.id none }
  if docs.isEmpty then
    { collection with
      worker := { worker with
        emptyDelivered := Function.update worker.emptyDelivered record.id
          (some record.fingerprint) } }
  else
    match touchedSince projectionHash collection.worker record docs with
    | some memo =>
      { collection with
        worker := { worker with
          pinnedFingerprints := Function.update worker.pinnedFingerprints record.id
            (some ⟨record.fingerprint, memo.fingerprint⟩)
          deliveryCursor := record.id } }
    | none =>
      { worker := { worker with deliveryCursor := record.id }
        sent := collection.sent ++ [⟨record.id, record.fingerprint, projectionHash docs, docs⟩]
        artifactBytes := collection.artifactBytes + record.size
        full := decide (batchBytes ≤ collection.artifactBytes + record.size) }

def collectStep (pass : Pass Doc) (records : List StampedRecord) (collection : Collection Doc Hash)
    (id : String) : Collection Doc Hash :=
  if collection.full then collection
  else
    match records.find? (fun record ↦ record.id = id) with
    | none => collection
    | some record =>
      if record.growing then collection
      else if collection.sent ≠ [] ∧ pass.batchBytes < collection.artifactBytes + record.size then
        { collection with full := true }
      else
        match pass.load record.id with
        | none =>
          { collection with
            worker := recordLoadFailure collection.worker record.id record.fingerprint }
        | some docs => collectLoaded projectionHash pass.batchBytes collection record docs

def collectNeededDocuments (worker : Worker Hash) (needed : List String)
    (records : List StampedRecord) (pass : Pass Doc) : Collection Doc Hash :=
  ((rotateAfter needed worker.deliveryCursor).take pass.visits).foldl
    (collectStep projectionHash pass records) ⟨worker, [], 0, false⟩

def recordDelivered (worker : Worker Hash) (delivery : DeliveredConversation Doc Hash) :
    Worker Hash :=
  if delivery.fingerprint = "" then worker
  else
    { worker with
      deliveredContent := Function.update worker.deliveredContent delivery.id
        (some ⟨delivery.fingerprint, delivery.projectionHash⟩) }

/-- The worker and the engine. -/
structure SyncState (Doc Hash : Type) where
  worker : Worker Hash
  engine : Engine Doc

def sendDocuments (state : SyncState Doc Hash) (manifest : List Fingerprint) (pass : Pass Doc)
    (sent : List (DeliveredConversation Doc Hash)) : SyncState Doc Hash :=
  { worker :=
      if upsertAccepted pass sent then sent.foldl recordDelivered state.worker else state.worker
    engine := state.engine.upsert manifest pass sent }

def runPass (state : SyncState Doc Hash) (pass : Pass Doc) : SyncState Doc Hash :=
  let build := buildManifest state.worker pass.scanned
  if pass.syncFails then { state with worker := build.worker }
  else
    let collection := collectNeededDocuments projectionHash build.worker
      (state.engine.needed build.manifest) build.records pass
    let collected := { state with worker := collection.worker }
    if collection.sent = [] ∨ pass.cancelled = true then collected
    else sendDocuments collected build.manifest pass collection.sent

/-- A pass, or a new daemon. -/
inductive SyncEvent (Doc : Type)
  | pass (pass : Pass Doc)
  | restart (readable : String → Bool)

def SyncState.step (state : SyncState Doc Hash) : SyncEvent Doc → SyncState Doc Hash
  | .pass pass => runPass projectionHash state pass
  | .restart readable => ⟨newWorker, state.engine.reload readable⟩

def SyncState.run (state : SyncState Doc Hash) (events : List (SyncEvent Doc)) :
    SyncState Doc Hash :=
  events.foldl (SyncState.step projectionHash) state

end

def SyncState.initial (files : String → Option String) : SyncState Doc Hash where
  worker := newWorker
  engine := ⟨files, files, fun _ ↦ []⟩

end Clyde.Daemon.SemanticSync
