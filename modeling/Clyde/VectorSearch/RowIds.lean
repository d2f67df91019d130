import Clyde.VectorSearch.Completeness

/-!
# Row ids

`chunkID` hashes the path of a row, the split position if it is positive, and the content.
`planConversation` takes a row for stored, or for planned already, if its id is. So two rows of a
conversation are to have the same id only if they are the same, for a hash that is injective on what
it is given.

`chunkID_injOn_iff` has when they do: no row without a split position has a content that begins with
the split position of another row of its path, a colon, and the content of that row (`Reads`).
-/

set_option autoImplicit false

namespace Clyde.VectorSearch

open Foundation ByteCodec Text List Client

/-- A row without a split position whose content is that of a piece of its path, after the split
position. -/
def StoredChunk.Reads (whole piece : StoredChunk) : Prop :=
  whole.path = piece.path ∧ whole.splitPart = 0 ∧ 0 < piece.splitPart ∧
    whole.content = itoa piece.splitPart ++ bytesOf ":" ++ piece.content

section

variable {conversationID : Bytes} {first second : StoredChunk}

theorem StoredChunk.Reads.hashInput (hreads : first.Reads second) :
    first.hashInput conversationID = second.hashInput conversationID := by
  obtain ⟨hpath, hwhole, hpiece, hcontent⟩ := hreads
  rw [StoredChunk.hashInput, StoredChunk.hashInput, hpath, StoredChunk.label, StoredChunk.label,
    if_neg (by omega), if_pos hpiece, hcontent]

/-- Two rows of one hash input are the same, or the content of a whole one reads as the number and
content of a piece. -/
theorem eq_or_reads_of_hashInput
    (hsame : first.hashInput conversationID = second.hashInput conversationID) :
    first = second ∨ first.Reads second ∨ second.Reads first := by
  obtain ⟨hpath, hlabel⟩ := hashInput_inj hsame
  rcases Nat.eq_zero_or_pos first.splitPart with hfirst | hfirst <;>
    rcases Nat.eq_zero_or_pos second.splitPart with hsecond | hsecond
  · rw [StoredChunk.label, StoredChunk.label, if_neg (by omega), if_neg (by omega)] at hlabel
    exact .inl (StoredChunk.ext hpath hlabel (hfirst.trans hsecond.symm))
  · rw [StoredChunk.label, StoredChunk.label, if_neg (by omega), if_pos hsecond] at hlabel
    exact .inr (.inl ⟨hpath, hfirst, hsecond, hlabel⟩)
  · rw [StoredChunk.label, StoredChunk.label, if_pos hfirst, if_neg (by omega)] at hlabel
    exact .inr (.inr ⟨hpath.symm, hsecond, hfirst, hlabel.symm⟩)
  · obtain ⟨hpart, hcontent⟩ := label_inj_of_pos hfirst hsecond hlabel
    exact .inl (StoredChunk.ext hpath hcontent hpart)

end

variable {Id : Type} [DecidableEq Id]

def Client.inputs (client : Client Id) (documents : Documents) : List StoredChunk :=
  expandOverBudget (generatedChunks client.parse documents) client.byteBudget

/-- `unchanged` of `planConversation`: the family has rows, and no chunk of it differs from them. -/
def Client.Unchanged (client : Client Id) (documents : Documents) (store : List (StoredRow Id))
    (family : FamilyKey) : Prop :=
  stateRows store family ≠ [] ∧ client.differs (stateRows store family)
    ((generatedChunks client.parse documents).filter fun chunk ↦ chunk.path.family = family) = false

variable {client : Client Id} {rows : Set StoredChunk} {documents : Documents}
  {store : List (StoredRow Id)} {input : StoredChunk}

theorem mem_planConversation_or_stored (hids : Set.InjOn client.chunkID rows)
    (hinputs : ∀ input ∈ client.inputs documents, input ∈ rows)
    (hstored : ∀ row ∈ store, row.chunk ∈ rows)
    (hinput : input ∈ client.inputs documents)
    (hchanged : ¬client.Unchanged documents store input.path.family) :
    input ∈ client.planConversation documents store ∨ input ∈ store.map StoredRow.chunk := by
  obtain ⟨chunk, hchunk, hexpand⟩ := mem_flatMap.mp hinput
  rw [(mem_expandChunk hexpand).1] at hchanged
  by_cases hknown : client.chunkID input ∈ (stateRows store chunk.path.family).map StoredRow.id
  · obtain ⟨row, hrow, hid⟩ := mem_map.mp hknown
    have hmem := (mem_filter.mp hrow).1
    -- The rows of a family are compared only if each has the key of its own chunk.
    have hcurrent : row.id = client.chunkID row.chunk := by
      have hdiffers : client.differs (stateRows store chunk.path.family)
          ((generatedChunks client.parse documents).filter fun other ↦
            other.path.family = chunk.path.family) = true := by
        rw [← Bool.not_eq_false]
        exact fun hsame ↦ hchanged ⟨ne_nil_of_mem hrow, hsame⟩
      rw [Client.differs, Bool.and_eq_true] at hdiffers
      exact of_decide_eq_true (all_eq_true.mp hdiffers.1 row hrow)
    have hsame := hids (hstored row hmem) (hinputs input hinput) (hcurrent.symm.trans hid)
    exact .inr (mem_map.mpr ⟨row, hmem, hsame⟩)
  · obtain ⟨other, hother, hid⟩ := planConversation_covers hchunk hexpand hknown (by
      rw [Client.Unchanged, not_and, Bool.not_eq_false] at hchanged
      exact or_iff_not_imp_left.mpr hchanged)
    obtain ⟨source, hsource, hpiece, _⟩ := mem_planConversation hother
    have hsame :=
      hids (hinputs other (mem_flatMap.mpr ⟨source, hsource, hpiece⟩)) (hinputs input hinput) hid
    exact .inl (hsame ▸ hother)

/-- For a hash that is injective on its inputs, the ids of rows tell them apart if and only if no
row reads as another one; and then no input of a family that has changed is taken for stored, or for
a duplicate, unless it is. -/
theorem chunkID_injOn_iff (client : Client Id) (rows : Set StoredChunk)
    (hdigest : Set.InjOn client.digest ((StoredChunk.hashInput client.conversationID) '' rows)) :
    (Set.InjOn client.chunkID rows ↔ ∀ whole ∈ rows, ∀ piece ∈ rows, ¬whole.Reads piece) ∧
    ((∀ whole ∈ rows, ∀ piece ∈ rows, ¬whole.Reads piece) →
      ∀ (documents : Documents) (store : List (StoredRow Id)),
        (∀ input ∈ client.inputs documents, input ∈ rows) →
        (∀ row ∈ store, row.chunk ∈ rows) →
        ∀ input ∈ client.inputs documents, ¬client.Unchanged documents store input.path.family →
          input ∈ client.planConversation documents store ∨ input ∈ store.map StoredRow.chunk) := by
  have hiff : Set.InjOn client.chunkID rows ↔ ∀ whole ∈ rows, ∀ piece ∈ rows,
      ¬whole.Reads piece := by
    constructor
    · intro hids whole hwhole piece hpiece hreads
      have hsame := hids hwhole hpiece (congrArg client.digest hreads.hashInput)
      obtain ⟨_, hzero, hpos, _⟩ := hreads
      rw [hsame] at hzero
      omega
    · intro hnone first hfirst second hsecond hid
      have hsame := hdigest ⟨first, hfirst, rfl⟩ ⟨second, hsecond, rfl⟩ hid
      rcases eq_or_reads_of_hashInput hsame with heq | hreads | hreads
      · exact heq
      · exact absurd hreads (hnone first hfirst second hsecond)
      · exact absurd hreads (hnone second hsecond first hfirst)
  refine ⟨hiff, fun hnone _ _ hinputs hstored _ hinput hchanged ↦ ?_⟩
  exact mem_planConversation_or_stored (hiff.mpr hnone) hinputs hstored hinput hchanged

/-- The messages of `mixedDocuments`, before the second one became long. -/
def shortDocuments : Documents where
  docs := [⟨0, bytesOf "first", [], []⟩, ⟨1, bytesOf "second", [], []⟩]
  distinct := by decide

/-- The rows of both versions are told apart, and the two pieces of the long message are planned. -/
theorem chunkID_injOn_replacedMessage :
    let store := exampleClient.upsert (plainCall none) shortDocuments []
    let rows := exampleClient.inputs mixedDocuments ++ store.map StoredRow.chunk
    store.length = 2 ∧ Set.InjOn exampleClient.chunkID {row | row ∈ rows} ∧
      ((exampleClient.inputs mixedDocuments).filter fun input ↦ 0 < input.splitPart).length = 2 ∧
      ∀ input ∈ exampleClient.inputs mixedDocuments, 0 < input.splitPart →
        input ∈ exampleClient.planConversation mixedDocuments store := by
  intro store rows
  have hnone : ∀ whole ∈ rows, ∀ piece ∈ rows, ¬whole.Reads piece := by
    unfold StoredChunk.Reads
    decide +kernel
  obtain ⟨hiff, hplanned⟩ :=
    chunkID_injOn_iff exampleClient {row | row ∈ rows} Function.injective_id.injOn
  refine ⟨by decide +kernel, hiff.mpr hnone, by decide +kernel, fun input hinput hpiece ↦ ?_⟩
  have hchanged : ∀ input ∈ exampleClient.inputs mixedDocuments, 0 < input.splitPart →
      exampleClient.differs (stateRows store input.path.family)
        ((generatedChunks exampleClient.parse
        mixedDocuments).filter fun chunk ↦ chunk.path.family = input.path.family) = true := by
    decide +kernel
  have hwhole : ∀ chunk ∈ store.map StoredRow.chunk, chunk.splitPart = 0 := by decide +kernel
  rcases hplanned hnone mixedDocuments store (fun _ ↦ mem_append_left _)
    (fun _ hrow ↦ mem_append_right _ (mem_map_of_mem hrow)) input hinput
    (fun hunchanged ↦ nomatch (hchanged input hinput hpiece).symm.trans
      hunchanged.2) with hmem | hmem
  · exact hmem
  · simp [hwhole input hmem] at hpiece

/-- An earlier text of the message in `longDocuments`. -/
def earlierDocuments : Documents where
  docs := [⟨0, bytesOf "1151:a", [], []⟩]
  distinct := by decide

/-- The second piece of the message has the id of the row of its earlier text, and the call after
the change leaves it out of the store. -/
theorem piece_taken_for_stored :
    let store := exampleClient.upsert (plainCall none) earlierDocuments []
    let whole : StoredChunk := ⟨⟨⟨0, .text⟩, none⟩, bytesOf "1151:a", 0⟩
    let piece : StoredChunk := ⟨⟨⟨0, .text⟩, none⟩, bytesOf "a", 1151⟩
    whole ∈ generatedChunks exampleClient.parse earlierDocuments ∧
      piece ∈ exampleClient.inputs longDocuments ∧
      exampleClient.chunkID whole = exampleClient.chunkID piece ∧
      piece ∉ store.map StoredRow.chunk ∧
      piece ∉ exampleClient.planConversation longDocuments store ∧
      (plainCall none).succeeds = true ∧
      piece ∉ (exampleClient.upsert (plainCall none) longDocuments store).map StoredRow.chunk := by
  decide +kernel

end Clyde.VectorSearch
