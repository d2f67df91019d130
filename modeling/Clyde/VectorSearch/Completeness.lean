import Mathlib.Algebra.Order.BigOperators.Group.List
import Clyde.VectorSearch.Ingest

/-!
# What a finished call has stored

A recorded fingerprint is to mean that all text of the conversation is in the store: for each chunk
the whole chunk, or pieces at consecutive offsets that concatenate to it (`Complete`). Calls before
may have stopped after any batch.

`complete_of_kept` proves it for the histories whose calls are `Kept`: for every chunk without
stored rows, a call stores nothing, or it does not stop and the embedder refuses no input of the
chunk for good, or the chunk is one row. Otherwise the next call takes the missing pieces for pieces
that were dropped (`pieces_lost_after_stopped_call`). The invariant is `Sound`.
-/

set_option autoImplicit false

namespace Clyde.VectorSearch

open Foundation ByteCodec Text List Client

/-! ### Pieces of a text -/

/-- The rows have pieces of a path at consecutive offsets that concatenate to a text. -/
inductive Tiled (rows : List StoredChunk) (path : ChunkPath) : ℕ → Bytes → Prop
  | done (offset : ℕ) : Tiled rows path offset []
  | piece {offset : ℕ} {content rest : Bytes} (hrow : ⟨path, content, offset + 1⟩ ∈ rows)
      (hrest : Tiled rows path (offset + content.length) rest) :
        Tiled rows path offset (content ++ rest)

def Complete (rows : List StoredChunk) (chunk : StoredChunk) : Prop :=
  chunk ∈ rows ∨ Tiled rows chunk.path (chunk.splitPart - 1) chunk.content

variable {chunk : StoredChunk} {text : Bytes}

section

variable {rows others : List StoredChunk} {path : ChunkPath} {offset : ℕ}

theorem Tiled.mono (htiled : Tiled rows path offset text)
    (hsub : ∀ row ∈ rows, row.path = path → 0 < row.splitPart → row ∈ others) :
    Tiled others path offset text := by
  induction htiled with
  | done offset => exact .done offset
  | piece hrow _ ih => exact .piece (hsub _ hrow rfl (Nat.succ_pos _)) ih

theorem Tiled.append {first second : Bytes} (hfirst : Tiled rows path offset first)
    (hsecond : Tiled rows path (offset + first.length) second) :
    Tiled rows path offset (first ++ second) := by
  induction hfirst with
  | done => exact hsecond
  | piece hrow _ ih =>
    rw [append_assoc]
    refine .piece hrow (ih ?_)
    rwa [length_append, ← Nat.add_assoc] at hsecond

theorem Tiled.first (htiled : Tiled rows path offset text)
    (htext : text ≠ []) :
    ∃ content rest, text = content ++ rest ∧ ⟨path, content, offset + 1⟩ ∈ rows ∧
      Tiled rows path (offset + content.length) rest := by
  cases htiled with
  | done => exact absurd rfl htext
  | piece hrow hrest => exact ⟨_, _, rfl, hrow, hrest⟩

theorem Complete.tiled (hcomplete : Complete rows chunk)
    (hpart : 0 < chunk.splitPart) : Tiled rows chunk.path (chunk.splitPart - 1) chunk.content := by
  rcases hcomplete with _ | htiled
  · rw [← append_nil chunk.content]
    refine .piece ?_ (.done _)
    rwa [Nat.sub_add_cancel hpart]
  · exact htiled

theorem tiled_of_children {pieces : List Bytes}
    (hchildren : ∀ child ∈ childrenFrom path offset pieces, Complete rows child) :
    Tiled rows path offset pieces.flatten := by
  induction pieces generalizing offset with
  | nil => exact .done offset
  | cons _ _ ih =>
    obtain ⟨hfirst, hrest⟩ := forall_mem_cons.mp hchildren
    exact (hfirst.tiled (Nat.succ_pos _)).append (ih hrest)

theorem complete_of_split {budget : ℕ}
    (hchildren : ∀ child ∈ splitChunkAtBudget chunk budget, Complete rows child) :
    Complete rows chunk := by
  have htiled := tiled_of_children hchildren
  rw [flatten_splitTextByBytes] at htiled
  exact .inr htiled

theorem complete_of_expand {byteBudget : ℕ}
    (hinputs : ∀ input ∈ expandChunk byteBudget chunk, Complete rows input) :
    Complete rows chunk := by
  unfold expandChunk at hinputs
  split_ifs at hinputs
  · exact hinputs chunk (mem_singleton_self _)
  · exact complete_of_split hinputs

theorem Complete.mono (hcomplete : Complete rows chunk)
    (hsub : ∀ row ∈ rows, row.path = chunk.path → row ∈ others) : Complete others chunk :=
  hcomplete.imp (fun hrow ↦ hsub chunk hrow rfl) fun htiled ↦
    htiled.mono fun row hrow hpath _ ↦ hsub row hrow hpath

end

/-! ### The store -/

section

variable {Id : Type} [DecidableEq Id] {store : List (StoredRow Id)} {row : StoredRow Id}

theorem mem_upsertRow {new : StoredRow Id} :
    row ∈ upsertRow store new ↔ row ∈ store ∧ row.id ≠ new.id ∨ row = new := by
  simp [upsertRow]

variable {rows : List (StoredRow Id)}

theorem mem_of_mem_upsertAll (hrow : row ∈ rows.foldl upsertRow store) :
    row ∈ store ∨ row ∈ rows := by
  induction rows generalizing store with
  | nil => exact .inl hrow
  | cons _ _ ih =>
    rcases ih hrow with hold | hnew
    · rcases mem_upsertRow.mp hold with ⟨hold, _⟩ | rfl
      · exact .inl hold
      · exact .inr mem_cons_self
    · exact .inr (mem_cons_of_mem _ hnew)

theorem mem_upsertAll_of_mem (hrow : row ∈ store)
    (hsame : ∀ new ∈ rows, new.id = row.id → new = row) : row ∈ rows.foldl upsertRow store := by
  induction rows generalizing store with
  | nil => exact hrow
  | cons new _ ih =>
    obtain ⟨hnew, hrest⟩ := forall_mem_cons.mp hsame
    refine ih ?_ hrest
    by_cases hid : new.id = row.id
    · exact mem_upsertRow.mpr (.inr (hnew hid).symm)
    · exact mem_upsertRow.mpr (.inl ⟨hrow, fun heq ↦ hid heq.symm⟩)

theorem mem_upsertAll_of_new (hrow : row ∈ rows)
    (hsame : ∀ new ∈ rows, new.id = row.id → new = row) : row ∈ rows.foldl upsertRow store := by
  obtain ⟨_, _, rfl⟩ := append_of_mem hrow
  rw [foldl_append, foldl_cons]
  refine mem_upsertAll_of_mem (mem_upsertRow.mpr (.inr rfl)) ?_
  intro new hnew hid
  exact hsame new (mem_append_right _ (mem_cons_of_mem _ hnew)) hid

end

variable {Id : Type} {client : Client Id}

/-! ### Keys -/

section

variable {first second : StoredChunk}

theorem chunkID_inj (hdigest : Function.Injective client.digest)
    (hsame : client.chunkID first = client.chunkID second) :
    first.path = second.path ∧ first.label = second.label :=
  hashInput_inj (hdigest hsame)

theorem eq_of_chunkID_of_pos (hdigest : Function.Injective client.digest)
    (hsame : client.chunkID first = client.chunkID second) (hfirst : 0 < first.splitPart)
    (hsecond : 0 < second.splitPart) : first = second := by
  obtain ⟨_, hlabel⟩ := chunkID_inj hdigest hsame
  obtain ⟨_, _⟩ := label_inj_of_pos hfirst hsecond hlabel
  obtain ⟨_, _⟩ := first
  simp_all

theorem isBlank_cons_of_isDigit {digit : UInt8} (hdigit : isDigit digit = true) (rest : Bytes) :
    isBlank (digit :: rest) = false := by
  have hheads : ∀ space ∈ whiteSpace, space ≠ [] ∧ ∀ head ∈ space.head?, isDigit head = false := by
    decide +kernel
  have hnone : whiteSpace.find? (fun space ↦ space.isPrefixOf (digit :: rest)) = none := by
    refine find?_eq_none.mpr fun space hspace hfront ↦ ?_
    obtain ⟨hnil, hhead⟩ := hheads space hspace
    obtain ⟨head, _, rfl⟩ := exists_cons_of_ne_nil hnil
    simp only [isPrefixOf_cons_cons, Bool.and_eq_true, beq_iff_eq] at hfront
    have hnot := hhead head rfl
    rw [hfront.1, hdigit] at hnot
    simp at hnot
  simp [isBlank, trimSpaceLeft, hnone]

theorem not_isBlank_of_chunkID (hdigest : Function.Injective client.digest)
    (hsame : client.chunkID first = client.chunkID second) (hfirst : first.splitPart = 0)
    (hsecond : 0 < second.splitPart) : isBlank first.content = false := by
  obtain ⟨_, hlabel⟩ := chunkID_inj hdigest hsame
  rw [StoredChunk.label, if_neg (by omega), StoredChunk.label, if_pos hsecond] at hlabel
  obtain ⟨digit, _, hdigits⟩ := exists_cons_of_ne_nil (itoa_ne_nil second.splitPart)
  have hdigit : isDigit digit = true :=
    isDigit_of_mem_itoa (hdigits ▸ mem_cons_self : digit ∈ itoa second.splitPart)
  rw [hlabel, hdigits]
  exact isBlank_cons_of_isDigit hdigit _

end

/-! ### Embedding -/

variable {input : StoredChunk}

section

variable {call : Call} {chunk child : StoredChunk} {round : ℕ}

theorem mem_retry (hchild : child ∈ client.retry call round chunk) :
    call.refusal round chunk ≠ none ∧ child.path = chunk.path ∧ 0 < child.splitPart := by
  unfold retry at hchild
  split at hchild
  · simp at hchild
  · next refusal hrefusal =>
    split_ifs at hchild
    · obtain ⟨hpath, _, hpart⟩ := mem_childrenFrom hchild
      exact ⟨by simp [hrefusal], hpath, Nat.zero_lt_of_lt hpart⟩
    · simp at hchild

variable {queue : List StoredChunk} {count : ℕ}

/-- An embedded chunk is an input, or a piece of one that was refused. -/
theorem mem_embedRounds (hchunk : chunk ∈ client.embedRounds call count round queue) :
    ∃ input ∈ queue, chunk.path = input.path ∧ (chunk = input ∧ call.refusal round input = none ∨
        0 < chunk.splitPart ∧ (0 < input.splitPart ∨ call.refusal round input ≠ none)) := by
  induction count generalizing round queue with
  | zero => exact absurd hchunk not_mem_nil
  | succ _ ih =>
    rw [embedRounds] at hchunk
    split_ifs at hchunk
    · simp at hchunk
    rcases mem_append.mp hchunk with haccepted | hlater
    · obtain ⟨hmem, hrefusal⟩ := mem_filter.mp haccepted
      exact ⟨chunk, hmem, rfl, .inl ⟨rfl, of_decide_eq_true hrefusal⟩⟩
    obtain ⟨_, hchild, hpath, hcases⟩ := ih hlater
    obtain ⟨input, hinput, hretry⟩ := mem_flatMap.mp hchild
    obtain ⟨hrefused, hchildPath, hchildPart⟩ := mem_retry hretry
    refine ⟨input, hinput, hpath.trans hchildPath, .inr ⟨?_, .inr hrefused⟩⟩
    rcases hcases with ⟨rfl, _⟩ | ⟨hpart, _⟩
    · exact hchildPart
    · exact hpart

theorem shouldSplit_iff {refusal : Refusal}
    (hsplit : client.shouldSplit chunk refusal = true) : 1 < (Utf8.runes chunk.content).length := by
  unfold shouldSplit at hsplit
  split at hsplit
  · simp at hsplit
  · exact (of_decide_eq_true hsplit).2.1

theorem one_lt_length_of_runes (hrunes : 1 < (Utf8.runes text).length) : 1 < text.length := by
  have hsize := runeSize_lt hrunes
  have hpos := runeSize_pos text
  omega

theorem length_lt_of_mem_splitChunkInHalf
    (hrunes : 1 < (Utf8.runes chunk.content).length) (hchild : child ∈ splitChunkInHalf chunk) :
    child.content.length < chunk.content.length := by
  have hlength := one_lt_length_of_runes hrunes
  obtain ⟨_, hcontent, _⟩ := mem_childrenFrom hchild
  refine length_lt_of_mem_splitTextByBytes ?_ ?_ hrunes hcontent
  · omega
  · omega

/-- If every refused piece is split again, the embedded pieces of an input are complete. -/
theorem complete_embedRounds {path : ChunkPath}
    (hsplit : ∀ round input refusal, input.path = path → call.refusal round input = some refusal →
      client.shouldSplit input refusal = true)
    (hlength : ∀ input ∈ queue, input.path = path → input.content.length < count)
    (hinput : input ∈ queue) (hpath : input.path = path) :
    Complete (client.embedRounds call count round queue) input := by
  induction count generalizing round queue input with
  | zero => exact absurd (hlength input hinput hpath) (Nat.not_lt_zero _)
  | succ _ ih =>
    rw [embedRounds, if_neg (ne_nil_of_mem hinput)]
    cases hrefusal : call.refusal round input with
    | none =>
      refine .inl (mem_append_left _ (mem_filter.mpr ⟨hinput, ?_⟩))
      exact decide_eq_true hrefusal
    | some refusal =>
      have hmay := hsplit round input refusal hpath hrefusal
      refine complete_of_split fun child (hchild : child ∈ splitChunkInHalf input) ↦ ?_
      have hretry : child ∈ queue.flatMap (client.retry call round) := by
        refine mem_flatMap.mpr ⟨input, hinput, ?_⟩
        rw [retry, hrefusal]
        dsimp only
        rwa [if_pos hmay]
      have hchildPath : child.path = path := (mem_childrenFrom hchild).1.trans hpath
      refine (ih ?_ hretry hchildPath).mono fun row hrow _ ↦ mem_append_right _ hrow
      -- Every input of the next round is shorter than the one that it was cut from.
      intro other hother hotherPath
      obtain ⟨parent, hparent, hpiece⟩ := mem_flatMap.mp hother
      have hparentPath := (mem_retry hpiece).2.1.symm.trans hotherPath
      have hparentLength := hlength parent hparent hparentPath
      have hshorter : other.content.length < parent.content.length := by
        unfold retry at hpiece
        split at hpiece
        · simp at hpiece
        · split_ifs at hpiece with hmay
          · exact length_lt_of_mem_splitChunkInHalf (shouldSplit_iff hmay) hpiece
          · simp at hpiece
      omega

theorem complete_embedded {path : ChunkPath} {planned : List StoredChunk}
    (hsplit : ∀ round input refusal, input.path = path → call.refusal round input = some refusal →
      client.shouldSplit input refusal = true)
    (hinput : input ∈ planned) (hpath : input.path = path) :
    Complete (client.embedded call planned) input := by
  refine complete_embedRounds hsplit (fun other hother _ ↦ Nat.lt_succ_of_le ?_) hinput hpath
  exact single_le_sum (fun _ _ ↦ Nat.zero_le _) _ (mem_map_of_mem hother)

theorem flatten_flushGroups (client : Client Id) (pending : List StoredChunk) (bytes : ℕ)
    (chunks : List StoredChunk) :
    (client.flushGroups pending bytes chunks).flatten = pending ++ chunks := by
  induction chunks generalizing pending bytes with
  | nil =>
    rw [flushGroups]
    split_ifs with hnil
    · rw [hnil, flatten_nil, nil_append]
    · simp
  | cons _ _ ih =>
    rw [flushGroups]
    split_ifs
    · rw [ih, append_assoc, singleton_append]
    · rw [flatten_cons, ih, nil_append, append_assoc, singleton_append]

end

/-! ### Planning -/

section

variable [DecidableEq Id] {rows : List (StoredRow Id)} {chunk : StoredChunk}
  {chunks : List StoredChunk}

/-- Only chunks without a stored row are planned. -/
theorem mem_planChunks {planned : List StoredChunk}
    (hchunk : chunk ∈ chunks.foldl (client.planChunk rows) planned) :
    chunk ∈ planned ∨ chunk ∈ chunks ∧ client.chunkID chunk ∉ rows.map StoredRow.id := by
  induction chunks generalizing planned with
  | nil => exact .inl hchunk
  | cons _ _ ih =>
    rcases ih hchunk with hplanned | ⟨hmem, hnew⟩
    · unfold planChunk at hplanned
      split_ifs at hplanned with hknown
      · exact .inl hplanned
      rcases mem_append.mp hplanned with hplanned | hfirst
      · exact .inl hplanned
      · obtain rfl := mem_singleton.mp hfirst
        exact .inr ⟨mem_cons_self, fun hrow ↦ hknown (.inr hrow)⟩
    · exact .inr ⟨mem_cons_of_mem _ hmem, hnew⟩

theorem subset_planChunks {planned : List StoredChunk}
    (hchunk : chunk ∈ planned) : chunk ∈ chunks.foldl (client.planChunk rows) planned := by
  induction chunks generalizing planned with
  | nil => exact hchunk
  | cons _ _ ih =>
    refine ih ?_
    unfold planChunk
    split_ifs
    · exact hchunk
    · exact mem_append_left _ hchunk

theorem planChunks_covers (planned : List StoredChunk) (hchunk : chunk ∈ chunks)
    (hnew : client.chunkID chunk ∉ rows.map StoredRow.id) :
    ∃ other ∈ chunks.foldl (client.planChunk rows) planned,
      client.chunkID other = client.chunkID chunk := by
  induction chunks generalizing planned with
  | nil => simp at hchunk
  | cons _ _ ih =>
    rcases mem_cons.mp hchunk with rfl | hchunk
    · by_cases hknown : client.chunkID chunk ∈ planned.map client.chunkID
      · obtain ⟨other, hother, hid⟩ := mem_map.mp hknown
        exact ⟨other, subset_planChunks hother, hid⟩
      refine ⟨chunk, ?_, rfl⟩
      rw [foldl_cons]
      refine subset_planChunks ?_
      rw [planChunk, if_neg (not_or.mpr ⟨hknown, hnew⟩)]
      exact mem_append_right _ (mem_singleton_self _)
    · exact ih _ hchunk

variable {documents : Documents} {store : List (StoredRow Id)}
  {family : FamilyKey × List StoredChunk}

theorem mem_groupFamilies (hfamily : family ∈ groupFamilies chunks) :
    family.2 = chunks.filter fun chunk ↦ chunk.path.family = family.1 := by
  obtain ⟨_, _, rfl⟩ := mem_map.mp hfamily
  rfl

theorem groupFamilies_of_mem (hchunk : chunk ∈ chunks) :
    (chunk.path.family, chunks.filter fun other ↦ other.path.family = chunk.path.family) ∈
      groupFamilies chunks := by
  refine mem_map.mpr ⟨chunk.path.family, ?_, rfl⟩
  exact mem_eraseDups.mpr (mem_map.mpr ⟨chunk, hchunk, rfl⟩)

theorem mem_planConversation (hinput : input ∈ client.planConversation documents store) :
    ∃ chunk ∈ generatedChunks client.parse documents, input ∈ expandChunk client.byteBudget chunk ∧
      client.chunkID input ∉ (stateRows store chunk.path.family).map StoredRow.id := by
  revert hinput
  refine List.foldlRecOn (motive := fun planned : List StoredChunk ↦ input ∈ planned →
    ∃ chunk ∈ generatedChunks client.parse documents, input ∈ expandChunk client.byteBudget chunk ∧
      client.chunkID input ∉ (stateRows store chunk.path.family).map StoredRow.id)
    _ _ (by simp) ?_
  intro _ hplanned _ hfamily hinput
  unfold planFamily at hinput
  dsimp only at hinput
  split_ifs at hinput
  · exact hplanned hinput
  rcases mem_planChunks hinput with hinput | ⟨hmem, _⟩
  · exact hplanned hinput
  obtain ⟨chunk, hchunk, hexpand⟩ := mem_flatMap.mp hmem
  rw [mem_groupFamilies hfamily, mem_filter, decide_eq_true_eq] at hchunk
  exact ⟨chunk, hchunk.1, hexpand, by rwa [hchunk.2]⟩

theorem subset_planFamily {planned : List StoredChunk} (hinput : input ∈ planned) :
    input ∈ client.planFamily store planned family := by
  unfold planFamily
  dsimp only
  split_ifs
  · exact hinput
  · exact subset_planChunks hinput

/-- Every new input of a family that differs is planned, under its id. -/
theorem planConversation_covers (hchunk : chunk ∈ generatedChunks client.parse documents)
    (hinput : input ∈ expandChunk client.byteBudget chunk)
    (hnew : client.chunkID input ∉ (stateRows store chunk.path.family).map StoredRow.id)
    (hdiffers : stateRows store chunk.path.family = [] ∨
      client.differs (stateRows store chunk.path.family)
        ((generatedChunks client.parse documents).filter
        fun other ↦ other.path.family = chunk.path.family) = true) :
    ∃ other ∈ client.planConversation documents store,
      client.chunkID other = client.chunkID input := by
  obtain ⟨before, after, hsplit⟩ := append_of_mem (groupFamilies_of_mem hchunk)
  rw [planConversation, hsplit, foldl_append]
  set planned := before.foldl (client.planFamily store) []
  have hexpand : input ∈ expandOverBudget ((generatedChunks client.parse documents).filter
      fun other ↦ other.path.family = chunk.path.family) client.byteBudget :=
    mem_flatMap.mpr ⟨chunk, mem_filter.mpr ⟨hchunk, decide_eq_true rfl⟩, hinput⟩
  obtain ⟨other, _, hid⟩ := planChunks_covers planned hexpand hnew
  refine ⟨other, ?_, hid⟩
  refine List.foldlRecOn (motive := fun last : List StoredChunk ↦ other ∈ last) after _ ?_
    fun _ hlast _ _ ↦ subset_planFamily hlast
  unfold planFamily
  rwa [if_neg]
  rintro ⟨hrows, hsame⟩
  rcases hdiffers with hnil | hdiffers
  · exact hrows hnil
  · rw [hdiffers] at hsame
    simp at hsame

end

/-! ### Histories -/

section

variable [DecidableEq Id] {documents : Documents} {store : List (StoredRow Id)} {call : Call}
  {chunk : StoredChunk}

/-- The chunk has stored rows already, the call stores nothing, it does not stop and refuses no
input of the chunk for good, or the chunk is one row. -/
def Call.KeepsChunk (call : Call) (client : Client Id) (store : List (StoredRow Id))
    (chunk : StoredChunk) : Prop :=
  (∃ row ∈ store, row.chunk.path = chunk.path) ∨ call.stopsAfter = some 0 ∨
    (call.stopsAfter = none ∧ ∀ round input refusal, input.path = chunk.path →
      call.refusal round input = some refusal → client.shouldSplit input refusal = true) ∨
    (WithinBudget client.byteBudget chunk ∧ call.refusal 0 chunk = none)

def Call.Kept (call : Call) (client : Client Id) (documents : Documents)
    (store : List (StoredRow Id)) : Prop :=
  ∀ chunk ∈ generatedChunks client.parse documents, call.KeepsChunk client store chunk

def Client.history (client : Client Id) (documents : Documents) (calls : List Call)
    (store : List (StoredRow Id)) : List (StoredRow Id) :=
  calls.foldl (fun stored call ↦ client.upsert call documents stored) store

def KeptAlong (client : Client Id) (documents : Documents) (store : List (StoredRow Id)) :
    List Call → Prop
  | [] => True
  | call :: calls =>
    call.Kept client documents store ∧
      KeptAlong client documents (client.upsert call documents store) calls

/-- A chunk of the documents has no stored rows, or is complete. -/
structure Sound (client : Client Id) (documents : Documents) (store : List (StoredRow Id)) :
    Prop where
  keys : ∀ row ∈ store, row.id = client.chunkID row.chunk
  whole : ∀ chunk ∈ generatedChunks client.parse documents, ∀ row ∈ store,
    row.chunk.path = chunk.path → row.chunk.splitPart = 0 →
      row.chunk = chunk ∧ WithinBudget client.byteBudget chunk
  complete : ∀ chunk ∈ generatedChunks client.parse documents,
    (∃ row ∈ store, row.chunk.path = chunk.path) → Complete (store.map StoredRow.chunk) chunk

variable {new : StoredChunk}

theorem mem_stored (hnew : new ∈ client.stored call documents store) :
    new ∈ client.embedded call (client.planConversation documents store) := by
  have hall := flatten_flushGroups client [] 0
    (client.embedded call (client.planConversation documents store))
  rw [nil_append] at hall
  rw [← hall]
  unfold stored at hnew
  split at hnew
  · obtain ⟨group, hgroup, hmem⟩ := mem_flatten.mp hnew
    exact mem_flatten.mpr ⟨group, mem_of_mem_take hgroup, hmem⟩
  · exact hnew

/-- A chunk within the budget that is not refused is stored as one row. -/
theorem stored_of_one_row (hchunk : chunk ∈ generatedChunks client.parse documents)
    (hwithin : WithinBudget client.byteBudget chunk) (hrefusal : call.refusal 0 chunk = none)
    (hnew : new ∈ client.stored call documents store)
    (hpath : new.path = chunk.path) : new = chunk := by
  obtain ⟨input, hinput, hinputPath, hcases⟩ := mem_embedRounds (mem_stored hnew)
  obtain ⟨origin, horigin, hexpand, _⟩ := mem_planConversation hinput
  obtain ⟨hexpandPath, hkind⟩ := mem_expandChunk hexpand
  obtain rfl := generatedChunks_path_injective horigin hchunk
    (hexpandPath.symm.trans (hinputPath.symm.trans hpath))
  rcases hkind with ⟨rfl, _⟩ | ⟨_, hover⟩
  · rcases hcases with ⟨rfl, _⟩ | ⟨_, hpart | hrefused⟩
    · rfl
    · rw [splitPart_of_mem_generatedChunks hchunk] at hpart
      exact absurd hpart (lt_irrefl 0)
    · exact absurd hrefusal hrefused
  · exact absurd hwithin hover

/-- Any other chunk is stored in pieces. -/
theorem stored_of_pieces (hchunk : chunk ∈ generatedChunks client.parse documents)
    (hpieces : ¬(WithinBudget client.byteBudget chunk ∧ call.refusal 0 chunk = none))
    (hnew : new ∈ client.stored call documents store)
    (hpath : new.path = chunk.path) : 0 < new.splitPart := by
  obtain ⟨input, hinput, hinputPath, hcases⟩ := mem_embedRounds (mem_stored hnew)
  obtain ⟨origin, horigin, hexpand, _⟩ := mem_planConversation hinput
  obtain ⟨hexpandPath, hkind⟩ := mem_expandChunk hexpand
  obtain rfl := generatedChunks_path_injective horigin hchunk
    (hexpandPath.symm.trans (hinputPath.symm.trans hpath))
  rcases hcases with ⟨rfl, hrefusal⟩ | ⟨hpart, _⟩
  · rcases hkind with ⟨rfl, hwithin⟩ | ⟨hpart, _⟩
    · exact absurd ⟨hwithin, hrefusal⟩ hpieces
    · exact hpart
  · exact hpart

theorem mem_upsert_of_mem (hdigest : Function.Injective client.digest)
    (hsound : Sound client documents store) {old : StoredChunk}
    (hold : old ∈ store.map StoredRow.chunk)
    (hsame : ∀ new ∈ client.stored call documents store, new.path = old.path →
      client.chunkID new = client.chunkID old → new = old) :
    old ∈ (client.upsert call documents store).map StoredRow.chunk := by
  obtain ⟨row, hrow, rfl⟩ := mem_map.mp hold
  refine mem_map.mpr ⟨row, mem_upsertAll_of_mem hrow ?_, rfl⟩
  intro _ hnew hid
  obtain ⟨chunk, hchunk, rfl⟩ := mem_map.mp hnew
  have hkey : client.chunkID chunk = client.chunkID row.chunk := hid.trans (hsound.keys row hrow)
  rw [hsame chunk hchunk (chunkID_inj hdigest hkey).1 hkey, chunkRow, ← hsound.keys row hrow]

theorem mem_upsert_of_stored (hdigest : Function.Injective client.digest)
    (hnew : new ∈ client.stored call documents store)
    (hsame : ∀ other ∈ client.stored call documents store, other.path = new.path →
      client.chunkID other = client.chunkID new → other = new) :
    new ∈ (client.upsert call documents store).map StoredRow.chunk := by
  refine mem_map.mpr ⟨client.chunkRow new, mem_upsertAll_of_new (mem_map_of_mem hnew) ?_, rfl⟩
  intro _ hrow hid
  obtain ⟨other, hother, rfl⟩ := mem_map.mp hrow
  rw [hsame other hother (chunkID_inj hdigest hid).1 hid]

theorem mem_upsert {row : StoredRow Id} (hrow : row ∈ client.upsert call documents store) :
    row ∈ store ∨ row.id = client.chunkID row.chunk ∧
      row.chunk ∈ client.stored call documents store := by
  rcases mem_of_mem_upsertAll hrow with hold | hnew
  · exact .inl hold
  · obtain ⟨_, hmem, rfl⟩ := mem_map.mp hnew
    exact .inr ⟨rfl, hmem⟩

theorem same_piece (hdigest : Function.Injective client.digest)
    (hchunk : chunk ∈ generatedChunks client.parse documents)
    (hpieces : ¬(WithinBudget client.byteBudget chunk ∧ call.refusal 0 chunk = none))
    {old : StoredChunk} (hpath : old.path = chunk.path) (hpart : 0 < old.splitPart) :
    ∀ new ∈ client.stored call documents store, new.path = old.path →
      client.chunkID new = client.chunkID old → new = old := by
  intro _ hnew hnewPath hid
  exact eq_of_chunkID_of_pos hdigest hid
    (stored_of_pieces hchunk hpieces hnew (hnewPath.trans hpath)) hpart

section

variable (hdigest : Function.Injective client.digest) (hsound : Sound client documents store)
  (hchunk : chunk ∈ generatedChunks client.parse documents)
include hdigest hsound hchunk

/-- A call keeps every chunk complete that is complete in the store. -/
theorem Sound.complete_upsert (hcomplete : Complete (store.map StoredRow.chunk) chunk) :
    Complete ((client.upsert call documents store).map StoredRow.chunk) chunk := by
  by_cases hone : WithinBudget client.byteBudget chunk ∧ call.refusal 0 chunk = none
  · by_cases hnew : ∃ new ∈ client.stored call documents store, new.path = chunk.path
    · obtain ⟨new, hnew, hpath⟩ := hnew
      obtain rfl := stored_of_one_row hchunk hone.1 hone.2 hnew hpath
      refine .inl (mem_upsert_of_stored hdigest hnew fun other hother hotherPath _ ↦ ?_)
      exact stored_of_one_row hchunk hone.1 hone.2 hother hotherPath
    · refine hcomplete.mono fun row hrow hpath ↦ mem_upsert_of_mem hdigest hsound hrow ?_
      intro new hmem hnewPath _
      exact absurd ⟨new, hmem, hnewPath.trans hpath⟩ hnew
  rcases hcomplete with hwhole | htiled
  · refine .inl (mem_upsert_of_mem hdigest hsound hwhole ?_)
    intro _ hnew hpath hid
    -- The whole chunk would be planned, and so not be among the rows that are compared.
    obtain ⟨row, hrow, hrowChunk⟩ := mem_map.mp hwhole
    have hpart := splitPart_of_mem_generatedChunks hchunk
    have hwithin :=
      (hsound.whole chunk hchunk row hrow (by rw [hrowChunk]) (by rw [hrowChunk, hpart])).2
    have hblank :=
      not_isBlank_of_chunkID hdigest hid.symm hpart (stored_of_pieces hchunk hone hnew hpath)
    obtain ⟨_, hinput, hinputPath, _⟩ := mem_embedRounds (mem_stored hnew)
    obtain ⟨_, horigin, hexpand, hmissing⟩ := mem_planConversation hinput
    obtain ⟨hexpandPath, hkind⟩ := mem_expandChunk hexpand
    obtain rfl := generatedChunks_path_injective horigin hchunk
      (hexpandPath.symm.trans (hinputPath.symm.trans hpath))
    rcases hkind with ⟨rfl, _⟩ | ⟨_, hover⟩
    · refine absurd (mem_map.mpr ⟨row, mem_filter.mpr ⟨hrow, ?_⟩, ?_⟩) hmissing
      · exact decide_eq_true ⟨by rw [hrowChunk], by rw [hrowChunk]; exact hblank⟩
      · rw [hsound.keys row hrow, hrowChunk]
    · exact absurd hwithin hover
  · refine .inr (htiled.mono fun row hrow hpath hpart ↦ mem_upsert_of_mem hdigest hsound hrow ?_)
    exact same_piece hdigest hchunk hone hpath hpart

variable (hnone : ¬∃ row ∈ store, row.chunk.path = chunk.path)
include hnone

/-- A call plans every input of a chunk of whose path the store has no row. -/
theorem Sound.planned (hinput : input ∈ expandChunk client.byteBudget chunk) :
    input ∈ client.planConversation documents store := by
  obtain ⟨hinputPath, hinputKind⟩ := mem_expandChunk hinput
  have hrows : ∀ row ∈ stateRows store chunk.path.family, row ∈ store :=
    fun row hrow ↦ (mem_filter.mp hrow).1
  have hnew : client.chunkID input ∉ (stateRows store chunk.path.family).map StoredRow.id := by
    intro hmem
    obtain ⟨row, hrow, hid⟩ := mem_map.mp hmem
    rw [hsound.keys row (hrows row hrow)] at hid
    exact hnone ⟨row, hrows row hrow, (chunkID_inj hdigest hid).1.trans hinputPath⟩
  have hdiffers : client.differs (stateRows store chunk.path.family)
      ((generatedChunks client.parse documents).filter
        fun other ↦ other.path.family = chunk.path.family) = true := by
    rw [differs, Bool.and_eq_true, all_eq_true, any_eq_true]
    refine ⟨fun row hrow ↦ decide_eq_true (hsound.keys row (hrows row hrow)), chunk,
      mem_filter.mpr ⟨hchunk, decide_eq_true rfl⟩, ?_⟩
    have hpathRows : ((stateRows store chunk.path.family).map StoredRow.chunk).filter
        (fun row ↦ row.path = chunk.path) = [] := by
      refine filter_eq_nil_iff.mpr fun row hrow hpath ↦ ?_
      obtain ⟨stored, hstored, rfl⟩ := mem_map.mp hrow
      exact hnone ⟨stored, hrows stored hstored, of_decide_eq_true hpath⟩
    simp [hpathRows]
  obtain ⟨other, hother, hid⟩ := planConversation_covers hchunk hinput hnew (.inr hdiffers)
  -- The planned input with the key belongs to the same chunk, and is the same input.
  obtain ⟨_, horigin, hexpand, _⟩ := mem_planConversation hother
  obtain ⟨hotherPath, hotherKind⟩ := mem_expandChunk hexpand
  obtain rfl := generatedChunks_path_injective horigin hchunk
    (hotherPath.symm.trans ((chunkID_inj hdigest hid).1.trans hinputPath))
  have hsame : other = input := by
    rcases hinputKind with ⟨rfl, hwithin⟩ | ⟨hpart, hover⟩
    · rcases hotherKind with ⟨rfl, _⟩ | ⟨_, hover⟩
      · rfl
      · exact absurd hwithin hover
    · rcases hotherKind with ⟨_, hwithin⟩ | ⟨hotherPart, _⟩
      · exact absurd hwithin hover
      · exact eq_of_chunkID_of_pos hdigest hid hotherPart hpart
  rwa [← hsame]

/-- A call that does not stop completes a chunk without stored rows, if it refuses no input of it
for good. -/
theorem Sound.complete_of_split (hstops : call.stopsAfter = none)
    (hsplit : ∀ round input refusal, input.path = chunk.path →
      call.refusal round input = some refusal → client.shouldSplit input refusal = true) :
    Complete ((client.upsert call documents store).map StoredRow.chunk) chunk := by
  have hstored : client.stored call documents store =
      client.embedded call (client.planConversation documents store) := by
    simp only [stored, hstops]
    exact (flatten_flushGroups client [] 0 _).trans (nil_append _)
  have hcomplete : Complete (client.stored call documents store) chunk := by
    rw [hstored]
    refine complete_of_expand fun input (hinput : input ∈ expandChunk client.byteBudget chunk) ↦ ?_
    exact complete_embedded hsplit (hsound.planned hdigest hchunk hnone hinput)
      (mem_expandChunk hinput).1
  refine hcomplete.mono fun row hrow hpath ↦ mem_upsert_of_stored hdigest hrow ?_
  by_cases hone : WithinBudget client.byteBudget chunk ∧ call.refusal 0 chunk = none
  · intro _ hother hotherPath _
    rw [stored_of_one_row hchunk hone.1 hone.2 hother (hotherPath.trans hpath),
      stored_of_one_row hchunk hone.1 hone.2 hrow hpath]
  · exact same_piece hdigest hchunk hone hpath (stored_of_pieces hchunk hone hrow hpath)

end

/-- One call keeps the store sound, also when it stops early. -/
theorem Sound.upsert (hdigest : Function.Injective client.digest)
    (hsound : Sound client documents store) (hkept : call.Kept client documents store) :
    Sound client documents (client.upsert call documents store) where
  keys row hrow := by
    rcases mem_upsert hrow with hold | ⟨hid, _⟩
    · exact hsound.keys row hold
    · exact hid
  whole chunk hchunk row hrow hpath hpart := by
    rcases mem_upsert hrow with hold | ⟨_, hnew⟩
    · exact hsound.whole chunk hchunk row hold hpath hpart
    by_cases hone : WithinBudget client.byteBudget chunk ∧ call.refusal 0 chunk = none
    · exact ⟨stored_of_one_row hchunk hone.1 hone.2 hnew hpath, hone.1⟩
    · have hpos := stored_of_pieces hchunk hone hnew hpath
      omega
  complete chunk hchunk hrows := by
    by_cases hold : ∃ row ∈ store, row.chunk.path = chunk.path
    · exact hsound.complete_upsert hdigest hchunk (hsound.complete chunk hchunk hold)
    obtain ⟨row, hrow, hpath⟩ := hrows
    have hnew : row.chunk ∈ client.stored call documents store := by
      rcases mem_upsert hrow with hmem | ⟨_, hnew⟩
      · exact absurd ⟨row, hmem, hpath⟩ hold
      · exact hnew
    rcases hkept chunk hchunk with hbefore | hnothing | ⟨hstops, hsplit⟩ | ⟨hwithin, hrefusal⟩
    · exact absurd hbefore hold
    · rw [stored, hnothing] at hnew
      simp at hnew
    · exact hsound.complete_of_split hdigest hchunk hold hstops hsplit
    · obtain rfl := stored_of_one_row hchunk hwithin hrefusal hnew hpath
      exact .inl (mem_map.mpr ⟨row, hrow, rfl⟩)

omit [DecidableEq Id] in
theorem sound_nil : Sound client documents [] where
  keys _ hrow := absurd hrow not_mem_nil
  whole _ _ _ hrow := absurd hrow not_mem_nil
  complete _ _ hrows := by
    obtain ⟨_, hrow, _⟩ := hrows
    simp at hrow

theorem Sound.history (hdigest : Function.Injective client.digest) {calls : List Call}
    (hsound : Sound client documents store) (hkept : KeptAlong client documents store calls) :
    Sound client documents (client.history documents calls store) := by
  induction calls generalizing store with
  | nil => exact hsound
  | cons _ _ ih => exact ih (hsound.upsert hdigest hkept.1) hkept.2

/-- After every history of kept calls, a call that returns no error and has no input refused leaves
every chunk of the documents complete in the store. -/
theorem complete_of_kept (client : Client Id) (hdigest : Function.Injective client.digest)
    (documents : Documents) (calls : List Call) (hkept : KeptAlong client documents [] calls)
    (last : Call) (hsucceeds : last.succeeds = true)
    (haccepted : ∀ round input, last.refusal round input = none) :
    ∀ chunk ∈ generatedChunks client.parse documents,
      Complete ((client.history documents (calls ++ [last]) []).map StoredRow.chunk) chunk := by
  intro chunk hchunk
  have hsound := sound_nil.history hdigest hkept
  rw [history, foldl_append, foldl_cons, foldl_nil]
  rw [Call.succeeds, Bool.and_eq_true, Option.isNone_iff_eq_none] at hsucceeds
  by_cases hold : ∃ row ∈ client.history documents calls [], row.chunk.path = chunk.path
  · exact hsound.complete_upsert hdigest hchunk (hsound.complete chunk hchunk hold)
  · refine hsound.complete_of_split hdigest hchunk hold hsucceeds.1
      fun round input refusal _ hrefusal ↦ ?_
    simp [haccepted] at hrefusal

end

/-! ### Two histories -/

/-- A client of an embedding model with the smallest token limit, whose vectors fill a batch each.
-/
def exampleClient : Client Bytes where
  conversationID := bytesOf "claude:1"
  parse := fun _ ↦ none
  digest := id
  byteBudget := embedByteBudget 512
  tokenLimit := 512
  dimension := 2 ^ 23
  metadataBytes := fun _ ↦ 0

/-- A call without refusals that stops after some batches, or is finished. -/
def plainCall (stopsAfter : Option ℕ) : Call where
  refusal := fun _ _ ↦ none
  stopsAfter := stopsAfter
  fillFails := false

/-- A call that has the inputs of a thousand bytes or more split in its first round, and fails at
its end. -/
def splittingCall : Call where
  refusal := fun round input ↦
    if round = 0 ∧ 1000 ≤ input.content.length ∧ 1 < (Utf8.runes input.content).length
    then some ⟨.contextLengthExceeded, 512, true⟩ else none
  stopsAfter := none
  fillFails := true

/-- A message of one row, and one that is a byte longer than the byte budget. -/
def mixedDocuments : Documents where
  docs := [⟨0, bytesOf "first", [], []⟩, ⟨1, List.replicate 1151 0x61, [], []⟩]
  distinct := by decide

/-- A call stops at once, and the next one splits the first of the two pieces of the long message
and fails at its end. After the last one both messages are complete. -/
theorem complete_after_stopped_call :
    (expandOverBudget (generatedChunks exampleClient.parse mixedDocuments)
        exampleClient.byteBudget).length = 3 ∧
      ∀ chunk ∈ generatedChunks exampleClient.parse mixedDocuments,
        Complete ((exampleClient.history mixedDocuments ([plainCall (some 0), splittingCall] ++
          [plainCall none]) []).map StoredRow.chunk) chunk := by
  refine ⟨by decide +kernel, complete_of_kept exampleClient Function.injective_id mixedDocuments
    [plainCall (some 0), splittingCall] ⟨fun _ _ ↦ .inr (.inl rfl), fun chunk _ ↦ ?_, trivial⟩ _ rfl
    fun _ _ ↦ rfl⟩
  refine .inr (.inr (.inl ⟨rfl, fun round input _ _ hrefusal ↦ ?_⟩))
  obtain ⟨⟨-, hlong, hrunes⟩, hgiven⟩ := Option.ite_none_right_eq_some.mp hrefusal
  obtain rfl := Option.some.inj hgiven
  have hfloor : 510 < input.content.length := by omega
  simp [Client.shouldSplit, Client.splitByteFloor, hrunes, hfloor]

/-- A message that is one byte longer than the byte budget. -/
def longDocuments : Documents where
  docs := [⟨0, List.replicate 1151 0x61, [], []⟩]
  distinct := by decide

def longChunk : StoredChunk := ⟨⟨⟨0, .text⟩, none⟩, List.replicate 1151 0x61, 0⟩

/-- A call stops after the first of the two pieces. The next one returns no error and has no input
refused, and the second piece is not in the store. -/
theorem pieces_lost_after_stopped_call :
    (plainCall none).succeeds = true ∧
      (∀ round input, (plainCall none).refusal round input = none) ∧
      longChunk ∈ generatedChunks exampleClient.parse longDocuments ∧
      ¬Complete ((exampleClient.history longDocuments ([plainCall (some 1)] ++ [plainCall none])
        []).map StoredRow.chunk) longChunk := by
  refine ⟨rfl, fun _ _ ↦ rfl, by decide +kernel, ?_⟩
  have hrows : (exampleClient.history longDocuments ([plainCall (some 1)] ++ [plainCall none])
      []).map StoredRow.chunk = [⟨⟨⟨0, .text⟩, none⟩, List.replicate 1150 0x61, 1⟩] := by
    decide +kernel
  rw [hrows]
  rintro (hwhole | htiled)
  · revert hwhole
    decide +kernel
  obtain ⟨_, rest, htext, hfirst, hrest⟩ := htiled.first (by decide +kernel)
  obtain ⟨_, rfl, _⟩ := StoredChunk.mk.inj (mem_singleton.mp hfirst)
  have hlength : rest.length = 1 := by
    have := congrArg List.length htext
    simp only [longChunk, length_append, length_replicate] at this
    omega
  obtain ⟨_, _, _, hsecond, _⟩ := hrest.first (by rintro rfl; simp at hlength)
  have hpart := (StoredChunk.mk.inj (mem_singleton.mp hsecond)).2.2
  rw [length_replicate] at hpart
  simp at hpart

end Clyde.VectorSearch
