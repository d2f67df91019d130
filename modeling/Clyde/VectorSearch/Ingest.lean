import Clyde.VectorSearch.Rows

/-!
# Writing the documents of a conversation

`UpsertConversationDocuments` of `internal/conversation/vectorsearch/ingest.go`, for one
conversation, with the comparison of `state.go` and the embedding loop of `embed.go`.
`planConversation` keeps the chunks that have to be written. `embedRounds` gives the rows that are
added to the writer: a chunk that the embedder refuses for its length is cut in half and tried
again. `flushGroups` are the batches in which the writer stores them.

Scope. A batch is stored as a whole or not at all. A call may stop at any request or write: it is
given (`Call`) by the refusals of the embedder and the number of batches that are stored before it
stops. Timestamps are left out, but for the failure of the step that fills them in.
-/

set_option autoImplicit false

namespace Clyde.VectorSearch

open Foundation ByteCodec Text

structure StoredRow (Id : Type) where
  id : Id
  chunk : StoredChunk
  deriving DecidableEq

/-- `embedByteBudget`: nine tenths of the token limit, at two and a half bytes for each token. -/
def embedByteBudget (tokenLimit : ℕ) : ℕ := max (tokenLimit * 9 / 10) 1 * 5 / 2

structure Client (Id : Type) where
  conversationID : Bytes
  parse : ShellParser
  /-- The truncated SHA-256 of `chunkID`. -/
  digest : Bytes → Id
  byteBudget : ℕ
  /-- `activeTokenLimit` of the embedding model. -/
  tokenLimit : ℕ
  /-- The length of the vectors. -/
  dimension : ℕ
  /-- The length of the metadata of a row. -/
  metadataBytes : StoredChunk → ℕ

variable {Id : Type} [DecidableEq Id]

def Client.chunkID (client : Client Id) (chunk : StoredChunk) : Id :=
  client.digest (chunk.hashInput client.conversationID)

def Client.chunkRow (client : Client Id) (chunk : StoredChunk) : StoredRow Id :=
  ⟨client.chunkID chunk, chunk⟩

/-- The rows that are compared. A row with blank content does not count. -/
def stateRows (store : List (StoredRow Id)) (family : FamilyKey) : List (StoredRow Id) :=
  store.filter fun row ↦ row.chunk.path.family = family ∧ isBlank row.chunk.content = false

def Client.hasCurrentKey (client : Client Id) (row : StoredRow Id) : Bool :=
  row.id = client.chunkID row.chunk

inductive ContentComparison
  | contentMatches
  | contentUnknown
  | contentDiffers
  deriving DecidableEq

/-- `compareStoredContent` for the part of a content after an offset, with at most `count` rows in a
chain. -/
def compareStoredContent (rows : List StoredChunk) : ℕ → ℕ → Bytes → ContentComparison
  | 0, _, _ => .contentUnknown
  | count + 1, offset, content =>
    if content = [] then .contentMatches
    else
      let candidates :=
      rows.filter fun row ↦ (offset = 0 ∧ row.splitPart = 0) ∨ row.splitPart = offset + 1
      let results := candidates.filterMap fun row ↦
        if offset = 0 ∧ row.splitPart = 0 then
          if row.content = content then some ContentComparison.contentMatches else none
        else if row.content = [] ∨ ¬row.content <+: content then none
        else
          some (compareStoredContent rows count (offset + row.content.length)
            (content.drop row.content.length))
      if ContentComparison.contentMatches ∈ results then .contentMatches
      else if ContentComparison.contentUnknown ∈ results ∨ candidates.isEmpty ∧ 0 < offset then
        .contentUnknown
      else .contentDiffers

section

variable (client : Client Id)

def Client.differs (rows : List (StoredRow Id)) (generated : List StoredChunk) : Bool :=
  rows.all client.hasCurrentKey && generated.any fun chunk ↦
    let pathRows := (rows.map StoredRow.chunk).filter fun row ↦ row.path = chunk.path
    pathRows.isEmpty ||
      compareStoredContent pathRows (chunk.content.length + 1) 0 chunk.content = .contentDiffers

def groupFamilies (chunks : List StoredChunk) : List (FamilyKey × List StoredChunk) :=
  (chunks.map fun chunk ↦ chunk.path.family).eraseDups.map fun family ↦
    (family, chunks.filter fun chunk ↦ chunk.path.family = family)

/-- One chunk of a family that has to be written: unless its row is there or is planned already. -/
def Client.planChunk (rows : List (StoredRow Id)) (planned : List StoredChunk)
    (chunk : StoredChunk) : List StoredChunk :=
  if client.chunkID chunk ∈ planned.map client.chunkID ∨
    client.chunkID chunk ∈ rows.map StoredRow.id then
    planned
  else planned ++ [chunk]

def Client.planFamily (store : List (StoredRow Id)) (planned : List StoredChunk)
    (family : FamilyKey × List StoredChunk) : List StoredChunk :=
  let rows := stateRows store family.1
  if rows ≠ [] ∧ client.differs rows family.2 = false then planned
  else (expandOverBudget family.2 client.byteBudget).foldl (client.planChunk rows) planned

def Client.planConversation (documents : Documents) (store : List (StoredRow Id)) :
    List StoredChunk :=
  (groupFamilies (generatedChunks client.parse documents)).foldl (client.planFamily store) []

end

inductive RefusalReason
  | contextLengthExceeded
  | emptyContent
  | other
  deriving DecidableEq

/-- `rejection`, without its chunk. -/
structure Refusal where
  reason : RefusalReason
  maxTokens : ℤ
  maxReported : Bool
  deriving DecidableEq

def Client.splitByteFloor (client : Client Id) (refusal : Refusal) : Option ℕ :=
  let modelMaxTokens :=
    if refusal.maxReported ∧ 0 ≤ refusal.maxTokens then
      refusal.maxTokens.toNat else client.tokenLimit
  if modelMaxTokens ≤ 2 then none else some (modelMaxTokens - 2)

def Client.shouldSplit (client : Client Id) (chunk : StoredChunk) (refusal : Refusal) : Bool :=
  match client.splitByteFloor refusal with
  | none => false
  | some byteFloor =>
    refusal.reason = .contextLengthExceeded ∧ 1 < (Utf8.runes chunk.content).length ∧
      byteFloor < chunk.content.length

structure Call where
  /-- The refusal of an input in a round. -/
  refusal : ℕ → StoredChunk → Option Refusal
  /-- How many batches are stored before the call stops with an error. -/
  stopsAfter : Option ℕ
  /-- The step after the rows fails. -/
  fillFails : Bool

/-- The inputs that a refused input leaves for the next round. -/
def Client.retry (client : Client Id) (call : Call) (round : ℕ) (chunk : StoredChunk) :
    List StoredChunk :=
  match call.refusal round chunk with
  | none => []
  | some refusal => if client.shouldSplit chunk refusal then splitChunkInHalf chunk else []

/-- The chunks that `embedAndWrite` writes, in order, with at most `count` rounds. -/
def Client.embedRounds (client : Client Id) (call : Call) :
    ℕ → ℕ → List StoredChunk → List StoredChunk
  | 0, _, _ => []
  | count + 1, round, queue =>
    if queue = [] then []
    else
      queue.filter (fun chunk ↦ call.refusal round chunk = none) ++
        client.embedRounds call count (round + 1) (queue.flatMap (client.retry call round))

/-- The chunks that `embedAndWrite` writes. Every round cuts its inputs to shorter ones. -/
def Client.embedded (client : Client Id) (call : Call) (planned : List StoredChunk) :
    List StoredChunk :=
  client.embedRounds call ((planned.map fun chunk ↦ chunk.content.length).sum + 1) 0 planned

def rowFlushBytes : ℕ := 32 * 2 ^ 20

def Client.rowBytes (client : Client Id) (chunk : StoredChunk) : ℕ :=
  chunk.content.length + (chunk.path.render client.conversationID).length +
    client.metadataBytes chunk + client.dimension * 4 + 512

/-- The batches of `rowWriter`: `pending` is the current one, of `bytes` bytes. -/
def Client.flushGroups (client : Client Id) :
    List StoredChunk → ℕ → List StoredChunk → List (List StoredChunk)
  | pending, _, [] => if pending = [] then [] else [pending]
  | pending, bytes, chunk :: chunks =>
    if bytes + client.rowBytes chunk < rowFlushBytes then
      client.flushGroups (pending ++ [chunk]) (bytes + client.rowBytes chunk) chunks
    else (pending ++ [chunk]) :: client.flushGroups [] 0 chunks

/-- A row is stored in place of the one with its key. -/
def upsertRow (store : List (StoredRow Id)) (row : StoredRow Id) : List (StoredRow Id) :=
  store.filter (fun other ↦ other.id ≠ row.id) ++ [row]

def Client.stored (client : Client Id) (call : Call) (documents : Documents)
    (store : List (StoredRow Id)) : List StoredChunk :=
  let groups :=
    client.flushGroups [] 0 (client.embedded call (client.planConversation documents store))
  match call.stopsAfter with
  | some count => (groups.take count).flatten
  | none => groups.flatten

def Client.upsert (client : Client Id) (call : Call) (documents : Documents)
    (store : List (StoredRow Id)) : List (StoredRow Id) :=
  ((client.stored call documents store).map client.chunkRow).foldl upsertRow store

/-- The call returns no error. -/
def Call.succeeds (call : Call) : Bool := call.stopsAfter.isNone && !call.fillFails

end Clyde.VectorSearch
