import Mathlib.Data.List.Dedup
import Mathlib.Data.List.Sort
import Clyde.VectorSearch.Rows

/-!
# Reading the rows of a document back

`familyText` and `pathText` of `internal/conversation/vectorsearch/timestamp_repair_source.go` put
the text of a family of rows together again. The writer begins every part of a tool call after the
first with the name and a line break, and the reader takes the first line of the first part for that
name.

A tool call of several parts reads back exactly if the name is not empty, has no line break and fits
in the first part (`joinToolParts_eq_some_iff`). `families_read_back_iff` is the result for a
document.

Scope. A field budget that is not positive is zero. The rows are read in any order. No field is 2
GiB long. The tool call of a row is the one whose texts `documentChunks` cleaned.
-/

set_option autoImplicit false

namespace Clyde.VectorSearch

open Foundation ByteCodec Text List ChunkPath

/-! ### Rows of a document -/

def SemDoc.content (parse : ShellParser) (doc : SemDoc) : Field → Bytes
  | .text => doc.text
  | .thinking => doc.thinking
  | .tool index => (doc.tools[index]?.map fun tool ↦ toolContent parse tool.cleaned).getD []

variable (parse : ShellParser)

/-- A row that is kept or split at a budget. -/
def resplitRow (plan : StoredChunk → Option ℕ) (row : StoredChunk) : List StoredChunk :=
  match plan row with
  | none => [row]
  | some budget => splitChunkAtBudget row budget

/-- Rows that are split in rounds, each at budgets of its own. -/
def resplit (plans : List (StoredChunk → Option ℕ)) (rows : List StoredChunk) : List StoredChunk :=
  plans.foldl (fun rows plan ↦ rows.flatMap (resplitRow plan)) rows

/-! ### Reading -/

/-- `collection.StoredRow`. -/
structure FamilyRow where
  relativePath : Bytes
  content : Bytes
  splitPart : ℕ
  splitPartRecorded : Bool

def StoredChunk.familyRow (conversationID : Bytes) (chunk : StoredChunk) : FamilyRow :=
  ⟨chunk.path.render conversationID, chunk.content, chunk.splitPart, true⟩

/-- The key of a path below a directory: the first segments after it. -/
def familyKeyBelow (relativePath directory : Bytes) (segments : ℕ) : Option Bytes :=
  if directory.isPrefixOf relativePath then
    let parts := (relativePath.drop directory.length).splitOn 0x2F
    some (if parts.length ≤ segments then relativePath
      else directory ++ List.intercalate [0x2F] (parts.take segments))
  else none

def chunkFamilyKey (conversationID relativePath : Bytes) : Bytes :=
  (familyKeyBelow relativePath (Field.text.directory conversationID) 1 <|>
    familyKeyBelow relativePath ((Field.tool 0).directory conversationID) 2 <|>
    familyKeyBelow relativePath (Field.thinking.directory conversationID) 1).getD relativePath

def familyMembers (conversationID key : Bytes) (rows : List FamilyRow) : List FamilyRow :=
  rows.filter fun row ↦ chunkFamilyKey conversationID row.relativePath = key

/-- The loop of `pathText`. -/
def orderedText : (expected : ℕ) → List FamilyRow → Option Bytes
  | _, [] => some []
  | expected, row :: rows =>
    if ¬row.splitPartRecorded ∨ row.splitPart ≠ expected ∨ row.content = [] then none
    else (orderedText (expected + row.content.length) rows).map (row.content ++ ·)

def wholeRow : List FamilyRow → Option Bytes
  | [row] => if ¬row.splitPartRecorded ∨ row.splitPart = 0 then some row.content else none
  | _ => none

def pathText (rows : List FamilyRow) : Option Bytes :=
  match wholeRow rows with
  | some content => some content
  | none => orderedText 1 (rows.insertionSort fun left right ↦ left.splitPart ≤ right.splitPart)

/-- `strings.CutPrefix`. -/
def cutStart (start text : Bytes) : Option Bytes :=
  if start.isPrefixOf text then some (text.drop start.length) else none

/-- The parts of a tool call without the names that the later ones repeat. -/
def joinToolParts : List Bytes → Option Bytes
  | [] => none
  | first :: rest =>
    (rest.mapM (cutStart (first.takeWhile (· ≠ 0x0A) ++ [0x0A]))).map fun cut ↦ first ++ cut.flatten

def rowsAt (members : List FamilyRow) (path : Bytes) : List FamilyRow :=
  members.filter fun row ↦ row.relativePath = path

def familyText (key familyKind : Bytes) (members : List FamilyRow) : Option Bytes :=
  let paths := (members.map FamilyRow.relativePath).dedup
  if key ∈ paths then
    if paths.length ≠ 1 then none else pathText (rowsAt members key)
  else
    let parts := (List.range paths.length).mapM fun index ↦
      let rows := rowsAt members (key ++ bytesOf "/" ++ itoa index)
      if rows = [] then none else pathText rows
    match parts with
    | none => none
    | some parts =>
      if familyKind = bytesOf "convtool" then joinToolParts parts else some parts.flatten

/-- The first segment of a family's key. -/
def Field.kind : Field → Bytes
  | .text => bytesOf "conv"
  | .tool _ => bytesOf "convtool"
  | .thinking => bytesOf "convthink"

def familyPath (conversationID : Bytes) (family : FamilyKey) : Bytes :=
  (⟨family, none⟩ : ChunkPath).render conversationID

/-! ### Keys -/

theorem renderNumbers_eq (numbers : List ℕ) :
    renderNumbers numbers = List.intercalate [0x2F] (numbers.map itoa) := by
  induction numbers with
  | nil => rfl
  | cons _ numbers ih =>
    cases numbers with
    | nil => simp [renderNumbers, List.intercalate]
    | cons =>
      rw [renderNumbers_cons, ih, map_cons, map_cons, map_cons,
        intercalate_cons_cons, append_assoc, singleton_append]

theorem splitOn_renderNumbers {numbers : List ℕ} (hnumbers : numbers ≠ []) :
    (renderNumbers numbers).splitOn 0x2F = numbers.map itoa := by
  rw [renderNumbers_eq, splitOn_intercalate]
  · intro _ htext
    obtain ⟨number, _, rfl⟩ := mem_map.mp htext
    exact not_mem_itoa (by decide) number
  · simpa using hnumbers

theorem renderNumbers_concat {numbers : List ℕ} (hnumbers : numbers ≠ []) (number : ℕ) :
    renderNumbers (numbers ++ [number]) = renderNumbers numbers ++ bytesOf "/" ++ itoa number := by
  induction numbers with
  | nil => exact absurd rfl hnumbers
  | cons _ numbers ih =>
    cases numbers with
    | nil => simp [renderNumbers, bytesOf]
    | cons =>
      rw [cons_append, cons_append, renderNumbers_cons, ← cons_append,
        ih (cons_ne_nil _ _), renderNumbers_cons]
      simp

variable (path : ChunkPath)

theorem numbers_ne_nil : path.numbers ≠ [] := cons_ne_nil _ _

variable (family : FamilyKey)

theorem numbers_part (index : ℕ) :
    (⟨family, some index⟩ : ChunkPath).numbers =
      (⟨family, none⟩ : ChunkPath).numbers ++ [index] := by
  simp [numbers]

variable (conversationID : Bytes)

theorem render_part (index : ℕ) :
    (⟨family, some index⟩ : ChunkPath).render conversationID =
      familyPath conversationID family ++ bytesOf "/" ++ itoa index := by
  rw [familyPath, render, render, numbers_part, renderNumbers_concat (numbers_ne_nil _)]
  simp

theorem render_injective {conversationID : Bytes} {first second : ChunkPath}
    (hsame : first.render conversationID = second.render conversationID) : first = second := by
  have hhash : (⟨first, [], 0⟩ : StoredChunk).hashInput conversationID =
      (⟨second, [], 0⟩ : StoredChunk).hashInput conversationID := by
    unfold StoredChunk.hashInput
    rw [hsame]
    rfl
  exact (hashInput_inj hhash).1

theorem familyKeyBelow_render (conversationID : Bytes) (path : ChunkPath) {segments : ℕ}
    (hsegments : (⟨path.family, none⟩ : ChunkPath).numbers.length = segments) :
    familyKeyBelow (path.render conversationID)
      (path.family.field.directory conversationID) segments =
      some (familyPath conversationID path.family) := by
  have hinside : (path.family.field.directory conversationID).isPrefixOf
      (path.render conversationID) = true :=
    isPrefixOf_iff_prefix.mpr (prefix_append _ _)
  have hdrop : (path.render conversationID).drop
      (path.family.field.directory conversationID).length = renderNumbers path.numbers := by
    rw [render, drop_left]
  have hsplit : (renderNumbers path.numbers).splitOn 0x2F = path.numbers.map itoa :=
    splitOn_renderNumbers (numbers_ne_nil path)
  simp only [familyKeyBelow, hinside, if_true, hdrop, hsplit, length_map, Option.some.injEq]
  obtain ⟨_, part⟩ := path
  cases part with
  | none =>
    rw [if_pos (le_of_eq hsegments)]
    rfl
  | some =>
    rw [numbers_part, length_append, hsegments, if_neg (by simp), map_append,
      take_left' (by rw [length_map, hsegments]), ← renderNumbers_eq]
    rfl

theorem getElem?_append_of_some {first : Bytes} (rest : Bytes) {position : ℕ} {byte : UInt8}
    (hbyte : first[position]? = some byte) : (first ++ rest)[position]? = some byte := by
  rw [List.getElem?_append_left (List.getElem?_eq_some_iff.mp hbyte).1, hbyte]

theorem familyKeyBelow_eq_none {conversationID directory : Bytes} {path : ChunkPath} (segments : ℕ)
    {position : ℕ} {byte other : UInt8} (hdirectory : directory[position]? = some byte)
    (hpath : (path.family.field.directory conversationID)[position]? = some other)
    (hne : other ≠ byte) :
    familyKeyBelow (path.render conversationID) directory segments = none := by
  unfold familyKeyBelow
  rw [if_neg]
  intro hinside
  obtain ⟨rest, hrest⟩ := isPrefixOf_iff_prefix.mp hinside
  have hsame := getElem?_append_of_some rest hdirectory
  rw [hrest, render, getElem?_append_of_some _ hpath] at hsame
  exact hne (Option.some.inj hsame)

/-- The family of a stored path is read back from the path. -/
theorem chunkFamilyKey_render :
    chunkFamilyKey conversationID (path.render conversationID) =
      familyPath conversationID path.family := by
  have hown := @familyKeyBelow_render conversationID path
  unfold chunkFamilyKey
  cases hfield : path.family.field with
  | text =>
    rw [hfield] at hown
    rw [hown (by simp [numbers, hfield])]
    rfl
  | tool =>
    rw [hfield] at hown
    have hkey : familyKeyBelow (path.render conversationID)
      ((Field.tool 0).directory conversationID) 2 =
        some (familyPath conversationID path.family) := hown (by simp [numbers, hfield])
    rw [@familyKeyBelow_eq_none _ _ path 1 4 0x2F 0x74 rfl (hfield ▸ rfl) (by decide), hkey]
    rfl
  | thinking =>
    rw [hfield] at hown
    rw [@familyKeyBelow_eq_none _ _ path 1 4 0x2F 0x74 rfl (hfield ▸ rfl) (by decide),
      @familyKeyBelow_eq_none _ _ path 2 5 0x6F 0x68 rfl (hfield ▸ rfl) (by decide),
      hown (by simp [numbers, hfield])]
    rfl

/-! ### Rows that are split -/

def joined (rows : List StoredChunk) : Bytes := rows.flatMap StoredChunk.content

/-- Pieces of one path in order, each at the position where the one before it ends. -/
def Contiguous (path : ChunkPath) : (offset : ℕ) → List StoredChunk → Prop
  | _, [] => True
  | offset, row :: rows =>
    row.path = path ∧ row.splitPart = offset + 1 ∧ row.content ≠ [] ∧
      Contiguous path (offset + row.content.length) rows

variable {path : ChunkPath} {offset : ℕ}

theorem contiguous_append {first second : List StoredChunk} :
    Contiguous path offset (first ++ second) ↔
      Contiguous path offset first ∧ Contiguous path (offset + (joined first).length) second := by
  induction first generalizing offset with
  | nil => simp [Contiguous, joined]
  | cons _ _ ih =>
    simp only [cons_append, Contiguous, ih, joined, flatMap_cons, length_append,
      Nat.add_assoc, and_assoc]

theorem contiguous_childrenFrom {pieces : List Bytes} (hpieces : ∀ piece ∈ pieces, piece ≠ []) :
    Contiguous path offset (childrenFrom path offset pieces) := by
  induction pieces generalizing offset with
  | nil => exact trivial
  | cons piece _ ih =>
    exact ⟨rfl, rfl, hpieces piece mem_cons_self,
      ih fun other hother ↦ hpieces other (mem_cons_of_mem _ hother)⟩

theorem joined_childrenFrom (offset : ℕ) (pieces : List Bytes) :
    joined (childrenFrom path offset pieces) = pieces.flatten := by
  induction pieces generalizing offset with
  | nil => rfl
  | cons _ _ ih => rw [childrenFrom, joined, flatMap_cons, ← joined, ih, flatten_cons]

theorem ne_nil_of_mem_splitPieces {maxBytes count : ℕ} {text piece : Bytes}
    (hpiece : piece ∈ splitPieces maxBytes count text) : piece ≠ [] := by
  induction count generalizing text with
  | zero => exact absurd hpiece not_mem_nil
  | succ _ ih =>
    rw [splitPieces] at hpiece
    split_ifs at hpiece with hnil hshort
    · simp at hpiece
    · rwa [mem_singleton.mp hpiece]
    rcases mem_cons.mp hpiece with rfl | hpiece
    · have hpos := pieceSize_pos text maxBytes
      rw [ne_eq, take_eq_nil_iff, not_or]
      exact ⟨hpos.ne', hnil⟩
    · exact ih hpiece

theorem ne_nil_of_mem_splitTextByBytes {text piece : Bytes} (htext : text ≠ []) {maxBytes : ℕ}
    (hpiece : piece ∈ splitTextByBytes text maxBytes) : piece ≠ [] := by
  unfold splitTextByBytes at hpiece
  split_ifs at hpiece
  · rwa [mem_singleton.mp hpiece]
  · exact ne_nil_of_mem_splitPieces hpiece

/-- The pieces of a split row are numbered from the row's own part and join to its content. -/
theorem splitChunkAtBudget_spec {row : StoredChunk} (hcontent : row.content ≠ []) (budget : ℕ) :
    Contiguous row.path (row.splitPart - 1) (splitChunkAtBudget row budget) ∧
      joined (splitChunkAtBudget row budget) = row.content := by
  unfold splitChunkAtBudget
  refine ⟨contiguous_childrenFrom fun piece hpiece ↦
    ne_nil_of_mem_splitTextByBytes hcontent hpiece, ?_⟩
  rw [joined_childrenFrom, flatten_splitTextByBytes]

variable {rows : List StoredChunk}

/-- Splitting rows again keeps them contiguous and their content whole. -/
theorem Contiguous.resplit (hrows : Contiguous path offset rows) (plan : StoredChunk → Option ℕ) :
    Contiguous path offset (rows.flatMap (resplitRow plan)) ∧
      joined (rows.flatMap (resplitRow plan)) = joined rows := by
  induction rows generalizing offset with
  | nil => exact ⟨trivial, rfl⟩
  | cons row _ ih =>
    obtain ⟨hpath, hpart, hcontent, hrest⟩ := hrows
    have hfirst : Contiguous path offset (resplitRow plan row) ∧
        joined (resplitRow plan row) = row.content := by
      unfold resplitRow
      cases plan row with
      | none => exact ⟨⟨hpath, hpart, hcontent, trivial⟩, append_nil _⟩
      | some budget =>
        have hsplit := splitChunkAtBudget_spec hcontent budget
        rwa [hpath, hpart] at hsplit
    obtain ⟨hcontiguous, hjoined⟩ := ih hrest
    rw [flatMap_cons]
    refine ⟨contiguous_append.mpr ⟨hfirst.1, hfirst.2 ▸ hcontiguous⟩, ?_⟩
    rw [joined, flatMap_append, ← joined, ← joined, hfirst.2, hjoined]
    rfl

/-- The rows hold a chunk: the chunk itself, or pieces of it from its start to its end. -/
def HoldsChunk (chunk : StoredChunk) (rows : List StoredChunk) : Prop :=
  rows = [chunk] ∨ Contiguous chunk.path 0 rows ∧ joined rows = chunk.content

def StoredChunk.Whole (chunk : StoredChunk) : Prop := chunk.splitPart = 0 ∧ chunk.content ≠ []

variable {chunk : StoredChunk}

theorem HoldsChunk.resplit (hchunk : chunk.Whole) (hrows : HoldsChunk chunk rows)
    (plan : StoredChunk → Option ℕ) :
    HoldsChunk chunk (rows.flatMap (resplitRow plan)) := by
  rcases hrows with rfl | ⟨hcontiguous, hjoined⟩
  · rw [flatMap_singleton, resplitRow]
    cases plan chunk with
    | none => exact .inl rfl
    | some budget =>
      have hsplit := splitChunkAtBudget_spec hchunk.2 budget
      rw [hchunk.1] at hsplit
      exact .inr hsplit
  · obtain ⟨hnext, hsame⟩ := hcontiguous.resplit plan
    exact .inr ⟨hnext, hsame.trans hjoined⟩

theorem path_of_contiguous (hrows : Contiguous path offset rows) :
    ∀ row ∈ rows, row.path = path := by
  induction rows generalizing offset with
  | nil => simp
  | cons _ _ ih =>
    intro other hother
    rcases mem_cons.mp hother with rfl | hother
    · exact hrows.1
    · exact ih hrows.2.2.2 other hother

theorem HoldsChunk.path_eq (hrows : HoldsChunk chunk rows) :
    ∀ row ∈ rows, row.path = chunk.path := by
  rcases hrows with rfl | ⟨hcontiguous, _⟩
  · intro _ hrow
    rw [mem_singleton.mp hrow]
  · exact path_of_contiguous hcontiguous

theorem HoldsChunk.ne_nil (hchunk : chunk.Whole) (hrows : HoldsChunk chunk rows) : rows ≠ [] := by
  rcases hrows with rfl | ⟨_, hjoined⟩
  · simp
  · rintro rfl
    exact hchunk.2 hjoined.symm

inductive Stored : List StoredChunk → List StoredChunk → Prop
  | nil : Stored [] []
  | cons {chunk : StoredChunk} {chunks rows more : List StoredChunk} (hchunk : chunk.Whole)
    (hrows : HoldsChunk chunk rows) (hmore : Stored chunks more) :
      Stored (chunk :: chunks) (rows ++ more)

variable {chunks : List StoredChunk}

theorem Stored.refl (hchunks : ∀ chunk ∈ chunks, chunk.Whole) : Stored chunks chunks := by
  induction chunks with
  | nil => exact .nil
  | cons chunk _ ih =>
    exact .cons (hchunks chunk mem_cons_self) (.inl rfl)
      (ih fun other hother ↦ hchunks other (mem_cons_of_mem _ hother))

section

variable (hstored : Stored chunks rows)
include hstored

theorem Stored.flatMap_resplitRow
    (plan : StoredChunk → Option ℕ) : Stored chunks (rows.flatMap (resplitRow plan)) := by
  induction hstored with
  | nil => exact .nil
  | cons hchunk hrows _ ih =>
    rw [flatMap_append]
    exact .cons hchunk (hrows.resplit hchunk plan) ih

theorem Stored.resplit
    (plans : List (StoredChunk → Option ℕ)) : Stored chunks (VectorSearch.resplit plans rows) := by
  induction plans generalizing rows with
  | nil => exact hstored
  | cons plan _ ih => exact ih (hstored.flatMap_resplitRow plan)

/-- Rows of some paths hold the chunks of these paths. -/
theorem Stored.filter (wanted : ChunkPath → Bool) :
    Stored (chunks.filter fun chunk ↦ wanted chunk.path)
      (rows.filter fun row ↦ wanted row.path) := by
  induction hstored with
  | nil => exact .nil
  | @cons chunk _ rows _ hchunk hrows _ ih =>
    rw [filter_append, filter_cons]
    cases hwanted : wanted chunk.path with
    | true =>
      have hall : rows.filter (fun row ↦ wanted row.path) = rows :=
        filter_eq_self.mpr fun row hrow ↦ by rw [hrows.path_eq row hrow, hwanted]
      rw [hall]
      exact .cons hchunk hrows ih
    | false =>
      have hnone : rows.filter (fun row ↦ wanted row.path) = [] :=
        filter_eq_nil_iff.mpr fun row hrow ↦ by
          rw [hrows.path_eq row hrow, hwanted]
          exact Bool.false_ne_true
      rw [hnone]
      exact ih

theorem Stored.mem_path_iff
    (path : ChunkPath) : path ∈ rows.map StoredChunk.path ↔ path ∈ chunks.map StoredChunk.path := by
  induction hstored with
  | nil => rfl
  | @cons _ _ rows _ hchunk hrows _ ih =>
    rw [map_append, mem_append, map_cons, mem_cons, ih]
    refine or_congr_left ⟨fun hpath ↦ ?_, fun hpath ↦ ?_⟩
    · obtain ⟨row, hrow, rfl⟩ := mem_map.mp hpath
      exact hrows.path_eq row hrow
    · obtain ⟨row, hrow⟩ := exists_mem_of_ne_nil rows (hrows.ne_nil hchunk)
      exact mem_map.mpr ⟨row, hrow, (hrows.path_eq row hrow).trans hpath.symm⟩

end

theorem Stored.holds_singleton (hstored : Stored [chunk] rows) :
    chunk.Whole ∧ HoldsChunk chunk rows := by
  cases hstored with
  | cons hchunk hrows hmore =>
    cases hmore
    rw [append_nil]
    exact ⟨hchunk, hrows⟩

/-! ### One path -/

theorem orderedText_of_contiguous (hrows : Contiguous path offset rows) :
    orderedText (offset + 1) (rows.map (StoredChunk.familyRow conversationID)) =
      some (joined rows) := by
  induction rows generalizing offset with
  | nil => rfl
  | cons _ _ ih =>
    obtain ⟨_, hpart, hcontent, hrest⟩ := hrows
    have hnext := ih hrest
    rw [Nat.add_right_comm] at hnext
    simp only [map_cons, orderedText, StoredChunk.familyRow, not_true, hpart,
      ne_eq, hcontent, or_self, if_false, joined, flatMap_cons] at hnext ⊢
    rw [hnext]
    rfl

theorem splitPart_of_contiguous (hrows : Contiguous path offset rows) :
    rows.Pairwise (fun left right ↦ left.splitPart < right.splitPart) ∧
      ∀ row ∈ rows, offset < row.splitPart := by
  induction rows generalizing offset with
  | nil => exact ⟨.nil, by simp⟩
  | cons _ _ ih =>
    obtain ⟨_, _, hcontent, hrest⟩ := hrows
    obtain ⟨hpairwise, hlater⟩ := ih hrest
    have hlength := length_pos_of_ne_nil hcontent
    refine ⟨.cons (fun other hother ↦ ?_) hpairwise, fun other hother ↦ ?_⟩
    · have := hlater other hother
      omega
    rcases mem_cons.mp hother with rfl | hother
    · omega
    · have := hlater other hother
      omega

theorem insertionSort_eq {rows members : List FamilyRow}
    (hrows : rows.Pairwise fun left right ↦ left.splitPart < right.splitPart)
    (hmembers : members.Perm rows) :
    members.insertionSort (fun left right ↦ left.splitPart ≤ right.splitPart) = rows := by
  have hsorted :=
    perm_insertionSort (fun left right : FamilyRow ↦ left.splitPart ≤ right.splitPart) members
  have hnodup : (rows.map FamilyRow.splitPart).Nodup := (pairwise_map.mpr hrows).imp ne_of_lt
  refine Perm.eq_of_pairwise (fun first second hfirst hsecond hle hge ↦ ?_)
    (pairwise_insertionSort _ members) (hrows.imp fun hlt ↦ Nat.le_of_lt hlt)
      (hsorted.trans hmembers)
  exact inj_on_of_nodup_map hnodup ((hsorted.trans hmembers).mem_iff.mp hfirst) hsecond
    (Nat.le_antisymm hle hge)

variable {members : List FamilyRow}

theorem wholeRow_eq_none
    (hmembers : ∀ row ∈ members, row.splitPartRecorded = true ∧
    0 < row.splitPart) :
    wholeRow members = none := by
  unfold wholeRow
  split
  · next row =>
    obtain ⟨hrecorded, hpart⟩ := hmembers row (mem_singleton_self row)
    simp [hrecorded, hpart.ne']
  · rfl

/-- The rows of a path are read back as the chunk's content, in whatever order they come. -/
theorem pathText_of_holds (hchunk : chunk.Whole) (hrows : HoldsChunk chunk rows)
    (hmembers : members.Perm (rows.map (StoredChunk.familyRow conversationID))) :
    pathText members = some chunk.content := by
  rcases hrows with rfl | ⟨hcontiguous, hjoined⟩
  · rw [map_singleton, perm_singleton] at hmembers
    simp [hmembers, pathText, wholeRow, StoredChunk.familyRow, hchunk.1]
  obtain ⟨hpairwise, hpositive⟩ := splitPart_of_contiguous hcontiguous
  have hnone : wholeRow members = none := by
    refine wholeRow_eq_none fun row hrow ↦ ?_
    obtain ⟨piece, hpiece, rfl⟩ := mem_map.mp (hmembers.mem_iff.mp hrow)
    exact ⟨rfl, hpositive piece hpiece⟩
  have hordered := orderedText_of_contiguous conversationID hcontiguous
  rw [pathText, hnone, insertionSort_eq (pairwise_map.mpr hpairwise) hmembers, ← hjoined]
  exact hordered

/-! ### One family -/

def readParts (familyKind : Bytes) (parts : List Bytes) : Option Bytes :=
  if parts.length = 1 then some parts.flatten
  else if familyKind = bytesOf "convtool" then joinToolParts parts
  else some parts.flatten

theorem nodup_path_partChunks (parts : List Bytes) :
    ((partChunks family parts).map StoredChunk.path).Nodup := by
  rw [List.Nodup, pairwise_iff_getElem]
  intro _ second _ hsecond hlt hsame
  have hlength : second < parts.length := by simpa [partChunks] using hsecond
  have hseveral : 1 < parts.length := by omega
  simp only [partChunks, getElem_map, getElem_mapIdx, if_pos hseveral, ChunkPath.mk.injEq,
    Option.some.injEq, true_and] at hsame
  exact absurd hsame (ne_of_lt hlt)

theorem filter_path_eq (hnodup : (chunks.map StoredChunk.path).Nodup) (hchunk : chunk ∈ chunks) :
    chunks.filter (fun other ↦ other.path = chunk.path) = [chunk] := by
  induction chunks with
  | nil => simp at hchunk
  | cons _ _ ih =>
    rw [map_cons, nodup_cons] at hnodup
    rw [filter_cons]
    rcases mem_cons.mp hchunk with rfl | hchunk
    · rw [if_pos (by simp), filter_eq_nil_iff.mpr]
      intro other hother hsame
      exact hnodup.1 (mem_map.mpr ⟨other, hother, by simpa using hsame⟩)
    · rw [if_neg, ih hnodup.2 hchunk]
      intro hsame
      exact hnodup.1 (mem_map.mpr ⟨chunk, hchunk, by simpa using (of_decide_eq_true hsame).symm⟩)

theorem mapM_eq_some_iff {α β : Type} {f : α → Option β} {inputs : List α} {outputs : List β} :
    inputs.mapM f = some outputs ↔
      List.Forall₂ (fun input output ↦ f input = some output) inputs outputs := by
  induction inputs generalizing outputs with
  | nil => simp [eq_comm]
  | cons _ _ ih =>
    simp [mapM_cons, ih, forall₂_cons_left_iff, Option.bind_eq_some_iff, @eq_comm _ outputs]

section

variable {conversationID : Bytes} {chunks rows : List StoredChunk} (hstored : Stored chunks rows)
  (hnodup : (chunks.map StoredChunk.path).Nodup) {members : List FamilyRow}
  (hmembers : members.Perm (rows.map (StoredChunk.familyRow conversationID)))

include hstored hnodup hmembers

theorem dedup_paths_perm :
    ((members.map FamilyRow.relativePath).dedup).Perm
      (chunks.map fun chunk ↦ chunk.path.render conversationID) := by
  have hrendered : (chunks.map fun chunk ↦ chunk.path.render conversationID).Nodup := by
    have hmapped :=
      hnodup.map_on (f := render conversationID) fun _ _ _ _ hsame ↦ render_injective hsame
    rwa [map_map] at hmapped
  rw [perm_ext_iff_of_nodup (nodup_dedup _) hrendered]
  intro path
  have hpath : path ∈ members.map FamilyRow.relativePath ↔
      path ∈ (rows.map StoredChunk.path).map (render conversationID) := by
    rw [(hmembers.map FamilyRow.relativePath).mem_iff, map_map, map_map]
    rfl
  rw [mem_dedup, hpath, mem_map]
  simp only [hstored.mem_path_iff]
  rw [← mem_map, map_map]
  rfl

theorem pathText_rowsAt {chunk : StoredChunk} (hchunk : chunk ∈ chunks) :
    rowsAt members (chunk.path.render conversationID) ≠ [] ∧
      pathText (rowsAt members (chunk.path.render conversationID)) = some chunk.content := by
  have hfiltered := hstored.filter fun path ↦ path = chunk.path
  rw [filter_path_eq hnodup hchunk] at hfiltered
  obtain ⟨hwhole, hholds⟩ := hfiltered.holds_singleton
  have hrows : (rowsAt members (chunk.path.render conversationID)).Perm
      ((rows.filter fun row ↦ row.path = chunk.path).map
        (StoredChunk.familyRow conversationID)) := by
    refine (hmembers.filter _).trans (Perm.of_eq ?_)
    rw [filter_map]
    congr 1
    refine filter_congr fun row _ ↦ ?_
    exact decide_eq_decide.mpr ⟨render_injective, congrArg (render conversationID)⟩
  refine ⟨fun hempty ↦ ?_, pathText_of_holds conversationID hwhole hholds hrows⟩
  rw [hempty, nil_perm, map_eq_nil_iff] at hrows
  exact hholds.ne_nil hwhole hrows

end

/-- The rows of a family are read back as its parts. -/
theorem familyText_eq {conversationID : Bytes} {family : FamilyKey} {parts : List Bytes}
    (hparts : parts ≠ []) (hstored : Stored (partChunks family parts) rows)
    (hmembers : members.Perm (rows.map (StoredChunk.familyRow conversationID)))
    (familyKind : Bytes) :
    familyText (familyPath conversationID family) familyKind members =
      readParts familyKind parts := by
  have hnodup := nodup_path_partChunks family parts
  have hpaths := dedup_paths_perm hstored hnodup hmembers
  have hread {chunk : StoredChunk} :=
    @pathText_rowsAt conversationID _ _ hstored hnodup _ hmembers chunk
  have hcount : ((members.map FamilyRow.relativePath).dedup).length = parts.length := by
    rw [hpaths.length_eq]
    simp [partChunks]
  by_cases hseveral : 1 < parts.length
  · have hkey : familyPath conversationID family ∉ (members.map FamilyRow.relativePath).dedup := by
      rw [hpaths.mem_iff, mem_map]
      rintro ⟨_, hchunk, hsame⟩
      obtain ⟨index, piece, _, rfl⟩ := mem_partChunks.mp hchunk
      have hpath := render_injective hsame
      simp [hseveral] at hpath
    have hall : ((List.range parts.length).mapM fun index ↦
        if rowsAt members (familyPath conversationID family ++ bytesOf "/" ++ itoa index) = [] then
          none
        else pathText (rowsAt members
          (familyPath conversationID family ++ bytesOf "/" ++ itoa index))) =
        some parts := by
      refine mapM_eq_some_iff.mpr (forall₂_iff_get.mpr ⟨length_range, fun index hindex hpiece ↦ ?_⟩)
      have hchunk : (⟨⟨family, some index⟩, parts[index], 0⟩ : StoredChunk) ∈
          partChunks family parts :=
        mem_partChunks.mpr ⟨index, parts[index], getElem?_eq_getElem hpiece,
          by rw [if_pos hseveral]⟩
      obtain ⟨hne, htext⟩ := hread hchunk
      rw [render_part] at hne htext
      simp only [get_eq_getElem, getElem_range]
      rwa [if_neg hne]
    rw [familyText, if_neg hkey, hcount, hall, readParts, if_neg (by omega)]
  obtain ⟨piece, rfl⟩ : ∃ piece, parts = [piece] :=
    length_eq_one_iff.mp (by have := length_pos_of_ne_nil hparts; omega)
  have hchunk : (⟨⟨family, none⟩, piece, 0⟩ : StoredChunk) ∈ partChunks family [piece] :=
    mem_singleton_self _
  have hkey : familyPath conversationID family ∈ (members.map FamilyRow.relativePath).dedup := by
    rw [hpaths.mem_iff]
    exact mem_map.mpr ⟨_, hchunk, rfl⟩
  rw [familyText, if_pos hkey, hcount, readParts, flatten_singleton]
  exact (hread hchunk).2

/-! ### The parts of a tool call -/

/-- The budget of a field whose later parts begin with a line of their own. -/
def continuedBudget (budget : ℕ) (continuation : Bytes) : ℕ :=
  if continuation ≠ [] ∧ continuation.length + 1 < budget then
    budget - (continuation.length + 1) else budget

def toolPieces (parse : ShellParser) (budget : ℕ) (tool : SemToolCall) : List Bytes :=
  storableParts (toolContent parse tool.cleaned)
    (continuedBudget budget (trimSpace tool.cleaned.name))

/-- A tool call of several parts has a name of one line that is not cut by the first part. -/
def NameKept (parse : ShellParser) (budget : ℕ) (tool : SemToolCall) : Prop :=
  1 < (toolPieces parse budget tool).length → trimSpace tool.cleaned.name ≠ [] ∧
    0x0A ∉ trimSpace tool.cleaned.name ∧
    (trimSpace tool.cleaned.name).length ≤ ((toolPieces parse budget tool).headD []).length

/-- The parts after the first begin with a name, unless it is empty. -/
def continued (name : Bytes) (piece : Bytes) : Bytes :=
  if name ≠ [] then name ++ bytesOf "\n" ++ piece else piece

theorem continuedParts_eq (content : Bytes) (budget : ℕ) (name first : Bytes) (rest : List Bytes)
    (hpieces : storableParts content (continuedBudget budget name) = first :: rest) :
    continuedParts content budget name = first :: rest.map (continued name) := by
  rw [continuedParts, ← continuedBudget, hpieces, mapIdx_cons]
  simp only [lt_irrefl, false_and, if_false, List.cons.injEq, true_and]
  refine ext_getElem? fun index ↦ ?_
  simp only [getElem?_mapIdx, getElem?_map, Nat.succ_pos, true_and]
  rfl

theorem cutStart_eq_some_iff {start text rest : Bytes} :
    cutStart start text = some rest ↔ text = start ++ rest := by
  unfold cutStart
  constructor
  · intro hcut
    split_ifs at hcut with hstart
    obtain ⟨_, rfl⟩ := isPrefixOf_iff_prefix.mp hstart
    rw [drop_left, Option.some.injEq] at hcut
    rw [hcut]
  · rintro rfl
    have hstart := isPrefixOf_iff_prefix.mpr (prefix_append start rest)
    rw [if_pos hstart, drop_left]

theorem mapM_cutStart_eq_some_iff {start : Bytes} {parts cut : List Bytes} :
    parts.mapM (cutStart start) = some cut ↔ parts = cut.map (start ++ ·) := by
  simp only [mapM_eq_some_iff, cutStart_eq_some_iff]
  rw [← forall₂_map_right_iff, forall₂_eq_eq_eq]

theorem length_flatten_map_append (start : Bytes) (pieces : List Bytes) :
    (pieces.map (start ++ ·)).flatten.length = pieces.length * start.length +
      pieces.flatten.length := by
  induction pieces with
  | nil => simp
  | cons _ _ ih =>
    simp only [map_cons, flatten_cons, length_append, ih, length_cons, Nat.add_mul, Nat.one_mul]
    omega

theorem map_continued {name : Bytes} (hname : name ≠ []) (pieces : List Bytes) :
    pieces.map (continued name) = pieces.map (name ++ [0x0A] ++ ·) :=
  map_congr_left fun _ _ ↦ if_pos hname

theorem takeWhile_eq_name {name first rest tail : Bytes} (hname : 0x0A ∉ name)
    (hcontent : first ++ rest = name ++ tail) (htail : tail.head?.all (· = 0x0A))
    (hlength : name.length ≤ first.length) : first.takeWhile (· ≠ 0x0A) = name := by
  have hstart : name <+: first :=
    prefix_of_prefix_length_le (hcontent ▸ prefix_append name tail)
      (prefix_append first rest) hlength
  obtain ⟨more, rfl⟩ := hstart
  rw [append_assoc, append_cancel_left_eq] at hcontent
  have hmore : more.takeWhile (· ≠ 0x0A) = [] := by
    cases more with
    | nil => rfl
    | cons byte =>
      rw [← hcontent, cons_append, head?_cons, Option.all_some] at htail
      rw [takeWhile_cons_of_neg (by simp [htail])]
  rw [takeWhile_append_of_pos, hmore, append_nil]
  intro byte hbyte
  simpa using fun hsame : byte = 0x0A ↦ hname (hsame ▸ hbyte)

/-- The parts of a tool call read back the call exactly if its name is not empty, has one line and
is not cut. -/
theorem joinToolParts_eq_some_iff {name first : Bytes} {rest : List Bytes} (hrest : rest ≠ [])
    (hcontent : name ≠ [] → ∃ tail : Bytes, first ++ rest.flatten = name ++ tail ∧
      tail.head?.all (· = 0x0A)) :
    joinToolParts (first :: rest.map (continued name)) = some (first ++ rest.flatten) ↔
      name ≠ [] ∧ 0x0A ∉ name ∧ name.length ≤ first.length := by
  rw [joinToolParts, Option.map_eq_some_iff]
  constructor
  · rintro ⟨cut, hcut, hflatten⟩
    rw [mapM_cutStart_eq_some_iff] at hcut
    rw [append_cancel_left_eq] at hflatten
    have hcount := congrArg List.length hcut
    rw [length_map, length_map] at hcount
    have hpos := length_pos_of_ne_nil hrest
    -- Every cut takes the same number of bytes away, and together they take what the writer added.
    have hbytes := congrArg (fun parts : List Bytes ↦ parts.flatten.length) hcut
    rw [length_flatten_map_append, hflatten, ← hcount] at hbytes
    by_cases hname : name = []
    · have hsame : rest.map (continued name) = rest := by
        refine (map_congr_left fun piece _ ↦ ?_).trans (map_id' rest)
        rw [continued, if_neg (not_not.mpr hname)]
      rw [hsame, length_append, length_singleton] at hbytes
      have hadded := Nat.mul_pos hpos (Nat.succ_pos (first.takeWhile (· ≠ 0x0A)).length)
      rw [Nat.succ_eq_add_one] at hadded
      omega
    rw [map_continued hname, length_flatten_map_append, Nat.add_right_cancel_iff,
      Nat.mul_right_inj hpos.ne', length_append, length_append, Nat.add_right_cancel_iff]
      at hbytes
    obtain ⟨_, _, rfl⟩ := exists_cons_of_ne_nil hrest
    obtain ⟨_, _, rfl⟩ := exists_cons_of_ne_nil (ne_nil_of_length_pos (hcount ▸ hpos) : cut ≠ [])
    rw [map_continued hname, map_cons, map_cons, List.cons.injEq,
      append_assoc, append_assoc] at hcut
    have hsame := (append_inj hcut.1 hbytes).1
    refine ⟨hname, fun hbreak ↦ ?_, ?_⟩
    · rw [hsame] at hbreak
      have hline := all_eq_true.mp (all_takeWhile) _ hbreak
      simp at hline
    · rw [hsame]
      exact List.IsPrefix.length_le <| takeWhile_prefix _
  rintro ⟨hname, hbreak, hlength⟩
  obtain ⟨_, hwhole, htail⟩ := hcontent hname
  refine ⟨rest, ?_, rfl⟩
  rw [takeWhile_eq_name hbreak hwhole htail hlength, mapM_cutStart_eq_some_iff, map_continued hname]

/-! ### The content of a tool call -/

variable (tokens : List Bytes)

theorem prefix_appendToken (value : Bytes) : tokens <+: appendToken tokens value := by
  unfold appendToken
  split_ifs
  · exact prefix_rfl
  · exact prefix_append _ _

theorem prefix_appendShellTarget (target : ShellTarget) :
    tokens <+: appendShellTarget tokens target := by
  unfold appendShellTarget
  split_ifs
  · exact (prefix_appendToken _ _).trans (prefix_appendToken _ _)
  · exact prefix_appendToken _ _
  · exact prefix_appendToken _ _

theorem prefix_foldl {α : Type} {step : List Bytes → α → List Bytes}
    (hstep : ∀ tokens value, tokens <+: step tokens value) (values : List α) (tokens : List Bytes) :
    tokens <+: values.foldl step tokens := by
  induction values generalizing tokens with
  | nil => exact prefix_rfl
  | cons value _ ih => exact (hstep tokens value).trans (ih _)

theorem prefix_appendShellTokens (command : Bytes) :
    tokens <+: appendShellTokens parse tokens command := by
  unfold appendShellTokens
  split
  · exact prefix_appendToken _ _
  have hfound := (prefix_foldl prefix_appendToken (Decomposition.commands ‹_›) tokens).trans
    (prefix_foldl prefix_appendShellTarget
      (Decomposition.readTargets ‹_› ++ Decomposition.writeTargets ‹_›) _)
  dsimp only
  split_ifs
  · exact hfound.trans (prefix_appendToken _ _)
  · exact hfound

variable {tool : SemToolCall}

/-- The content of a named tool begins with a line of its name. -/
theorem toolContent_eq_append (hname : trimSpace tool.name ≠ []) :
    ∃ tail : Bytes, toolContent parse tool = trimSpace tool.name ++ tail ∧
      tail.head?.all (· = 0x0A) := by
  have hnamed : appendToken [] tool.name = [trimSpace tool.name] := by simp [appendToken, hname]
  obtain ⟨tokens, htokens, hstart⟩ : ∃ tokens : List Bytes,
      toolContent parse tool = List.intercalate (bytesOf "\n") tokens ∧
      [trimSpace tool.name] <+: tokens := by
    refine ⟨_, rfl, ?_⟩
    rw [hnamed]
    split_ifs
    · exact (prefix_appendShellTokens _ _ _).trans (prefix_appendToken _ _)
    · exact prefix_appendToken _ _
  obtain ⟨more, rfl⟩ := hstart
  rw [htokens]
  cases more with
  | nil => exact ⟨[], by simp [List.intercalate], rfl⟩
  | cons => exact ⟨_, rfl, rfl⟩

theorem validRunes_encodeRunes {characters : List Char} {count : ℕ}
    (hcount : (Utf8.encodeRunes characters).length ≤ count) :
    validRunes count (Utf8.encodeRunes characters) = Utf8.encodeRunes characters := by
  induction count generalizing characters with
  | zero => rw [length_eq_zero_iff.mp (Nat.le_zero.mp hcount), validRunes]
  | succ count ih =>
    cases characters with
    | nil =>
      have hnone := @ih [] (Nat.zero_le count)
      exact hnone
    | cons rune =>
      have hsize := Char.utf8Size_pos rune
      rw [Utf8.encodeRunes_cons, length_append, String.length_utf8EncodeChar] at hcount
      rw [Utf8.encodeRunes_cons, validRunes, Utf8.decodeRune_encode_append]
      dsimp only
      rw [drop_left' (String.length_utf8EncodeChar rune), ih (by omega)]

theorem toValidUTF8_eq_self {text : Bytes} (hvalid : Utf8.Valid text) :
    toValidUTF8 text = text := by
  obtain ⟨_, rfl⟩ := Utf8.valid_iff.mp hvalid
  exact validRunes_encodeRunes le_rfl

/-! ### One document -/

variable {content : Bytes}

theorem ne_nil_of_storable (hstorable : isBlank content = false) : content ≠ [] := by
  rintro rfl
  exact absurd hstorable (by decide)

theorem ne_nil_of_mem_storableParts {content piece : Bytes} {budget : ℕ}
    (hpiece : piece ∈ storableParts content budget) : piece ≠ [] := by
  unfold storableParts at hpiece
  split_ifs at hpiece with hblank
  · simp at hpiece
  · exact ne_nil_of_mem_splitTextByBytes (ne_nil_of_storable (by simpa using hblank)) hpiece

theorem flatten_storableParts (hstorable : isBlank content = false) (budget : ℕ) :
    storableParts content budget ≠ [] ∧ (storableParts content budget).flatten = content := by
  have hflatten : (storableParts content budget).flatten = content := by
    rw [storableParts, if_neg (by simp [hstorable]), flatten_splitTextByBytes]
  refine ⟨fun hempty ↦ ?_, hflatten⟩
  rw [hempty] at hflatten
  exact ne_nil_of_storable hstorable hflatten.symm

theorem ne_nil_of_mem_continuedParts {name piece : Bytes} {budget : ℕ}
    (hpiece : piece ∈ continuedParts content budget name) : piece ≠ [] := by
  have hpieces {other : Bytes} :=
    @ne_nil_of_mem_storableParts content other (continuedBudget budget name)
  cases hstorable : storableParts content (continuedBudget budget name) with
  | nil =>
    rw [continuedParts, ← continuedBudget, hstorable] at hpiece
    simp at hpiece
  | cons =>
    rw [hstorable] at hpieces
    rw [continuedParts_eq _ _ _ _ _ hstorable] at hpiece
    rcases mem_cons.mp hpiece with rfl | hpiece
    · exact hpieces mem_cons_self
    obtain ⟨_, hlater, rfl⟩ := mem_map.mp hpiece
    unfold continued
    split_ifs
    · exact append_ne_nil_of_right_ne_nil _ (hpieces (mem_cons_of_mem _ hlater))
    · exact hpieces (mem_cons_of_mem _ hlater)

variable {doc : SemDoc} {field : Field}

theorem ne_nil_of_mem_parts {parse : ShellParser} {budget : ℕ}
    {piece : Bytes} (hpiece : piece ∈ doc.parts parse budget field) : piece ≠ [] := by
  cases field with
  | text | thinking => exact ne_nil_of_mem_storableParts hpiece
  | tool index =>
    rw [SemDoc.parts] at hpiece
    cases htool : doc.tools[index]? with
    | none => simp [htool] at hpiece
    | some =>
      rw [htool] at hpiece
      exact ne_nil_of_mem_continuedParts hpiece

theorem whole_of_mem_documentChunks {parse : ShellParser} {doc : SemDoc} {budget : ℕ}
    {chunk : StoredChunk} (hchunk : chunk ∈ documentChunks parse doc budget) : chunk.Whole := by
  obtain ⟨_, _, hchunk⟩ := mem_flatMap.mp hchunk
  obtain ⟨_, _, hpiece, rfl⟩ := mem_partChunks.mp hchunk
  exact ⟨rfl, ne_nil_of_mem_parts (mem_of_getElem? hpiece)⟩

theorem nodup_fields (doc : SemDoc) : doc.fields.Nodup := by
  have htools : ((List.range doc.tools.length).map Field.tool).Nodup :=
    nodup_range.map fun _ _ hsame ↦ Field.tool.inj hsame
  unfold SemDoc.fields
  rw [nodup_cons, nodup_append]
  refine ⟨by simp, htools, nodup_singleton _, ?_⟩
  intro _ hfirst _ hsecond hsame
  rw [hsame, mem_singleton.mp hsecond] at hfirst
  simp at hfirst

theorem flatMap_eq_of_nodup {α β : Type} [DecidableEq α] {elements : List α}
    (hnodup : elements.Nodup) {element : α} (helement : element ∈ elements) {f : α → List β}
    (hothers : ∀ other, other ≠ element → f other = []) : elements.flatMap f = f element := by
  induction elements with
  | nil => simp at helement
  | cons first _ ih =>
    rw [nodup_cons] at hnodup
    rw [flatMap_cons]
    rcases mem_cons.mp helement with rfl | helement
    · rw [flatMap_eq_nil_iff.mpr, append_nil]
      intro other hother
      exact hothers other fun hsame ↦ hnodup.1 (hsame ▸ hother)
    · rw [hothers first fun hsame ↦ hnodup.1 (hsame ▸ helement), nil_append, ih hnodup.2 helement]

theorem filter_documentChunks (budget : ℕ) (hfield : field ∈ doc.fields) :
    (documentChunks parse doc budget).filter
      (fun chunk ↦ chunk.path.family = ⟨doc.messageIndex, field⟩) =
      partChunks ⟨doc.messageIndex, field⟩ (doc.parts parse budget field) := by
  rw [documentChunks, filter_flatMap, flatMap_eq_of_nodup (nodup_fields doc) hfield]
  · refine filter_eq_self.mpr fun chunk hchunk ↦ ?_
    obtain ⟨_, _, _, rfl⟩ := mem_partChunks.mp hchunk
    simp
  intro _ hother
  refine filter_eq_nil_iff.mpr fun chunk hchunk ↦ ?_
  obtain ⟨_, _, _, rfl⟩ := mem_partChunks.mp hchunk
  simpa using hother

/-- Every family of the rows is that of a storable field, and reads back the field. -/
structure FamiliesRead (conversationID : Bytes) (parse : ShellParser) (doc : SemDoc)
    (rows : List FamilyRow) : Prop where
  keys : ∀ row ∈ rows, ∃ field ∈ doc.fields, isBlank (doc.content parse field) = false ∧
    chunkFamilyKey conversationID row.relativePath = familyPath conversationID
      ⟨doc.messageIndex, field⟩
  texts : ∀ field ∈ doc.fields, isBlank (doc.content parse field) = false →
    familyText (familyPath conversationID ⟨doc.messageIndex, field⟩) field.kind
      (familyMembers conversationID (familyPath conversationID ⟨doc.messageIndex, field⟩) rows) =
        some (doc.content parse field)

section

variable {conversationID : Bytes} {parse : ShellParser} {doc : SemDoc} {budget : ℕ}
  {stored : List StoredChunk} (hstored : Stored (documentChunks parse doc budget) stored)
  {rows : List FamilyRow} (hrows : rows.Perm (stored.map (StoredChunk.familyRow conversationID)))

include hstored hrows

theorem familyText_of_document {field : Field} (hfield : field ∈ doc.fields)
    (hparts : doc.parts parse budget field ≠ []) :
    familyText (familyPath conversationID ⟨doc.messageIndex, field⟩) field.kind
      (familyMembers conversationID (familyPath conversationID ⟨doc.messageIndex, field⟩) rows) =
        readParts field.kind (doc.parts parse budget field) := by
  have hfamily := hstored.filter fun path ↦ path.family = ⟨doc.messageIndex, field⟩
  rw [filter_documentChunks parse budget hfield] at hfamily
  refine familyText_eq hparts hfamily ?_ field.kind
  refine (hrows.filter _).trans (Perm.of_eq ?_)
  rw [filter_map]
  congr 1
  refine filter_congr fun row _ ↦ decide_eq_decide.mpr ?_
  rw [StoredChunk.familyRow, chunkFamilyKey_render]
  constructor
  · intro hsame
    exact (ChunkPath.mk.inj (render_injective hsame)).1
  · exact congrArg _

/-- Every row of a document belongs to one of its fields that is not blank. -/
theorem keys_of_document (hthinking : Utf8.Valid doc.thinking) :
    ∀ row ∈ rows, ∃ field ∈ doc.fields, isBlank (doc.content parse field) = false ∧
      chunkFamilyKey conversationID row.relativePath =
        familyPath conversationID ⟨doc.messageIndex, field⟩ := by
  intro _ hrow
  obtain ⟨piece, hpiece, rfl⟩ := mem_map.mp (hrows.mem_iff.mp hrow)
  have hpath := (hstored.mem_path_iff piece.path).mp (mem_map_of_mem hpiece)
  obtain ⟨_, hchunk, hsame⟩ := mem_map.mp hpath
  obtain ⟨field, hfield, hchunk⟩ := mem_flatMap.mp hchunk
  obtain ⟨_, _, hpart, rfl⟩ := mem_partChunks.mp hchunk
  refine ⟨field, hfield, ?_, ?_⟩
  · by_contra hblank
    rw [Bool.not_eq_false] at hblank
    have hmem := mem_of_getElem? hpart
    cases field with
    | text => simp [SemDoc.parts, storableParts, show isBlank doc.text = true from hblank] at hmem
    | thinking =>
      rw [SemDoc.parts, toValidUTF8_eq_self hthinking, storableParts,
        if_pos (show isBlank doc.thinking = true from hblank)] at hmem
      simp at hmem
    | tool position =>
      unfold SemDoc.content at hblank
      unfold SemDoc.parts at hmem
      cases htool : doc.tools[position]? with
      | none => simp [htool] at hmem
      | some =>
        simp only [htool, Option.map_some, Option.getD_some] at hblank hmem
        simp [continuedParts, storableParts, hblank] at hmem
  · rw [StoredChunk.familyRow, chunkFamilyKey_render, ← hsame]

end

theorem readParts_of_ne {familyKind : Bytes} (hkind : familyKind ≠ bytesOf "convtool")
    (parts : List Bytes) :
    readParts familyKind parts = some parts.flatten := by
  rw [readParts, if_neg hkind, ite_self]

theorem content_tool {index : ℕ} (htool : doc.tools[index]? = some tool) :
    doc.content parse (.tool index) = toolContent parse tool.cleaned := by
  rw [SemDoc.content, htool, Option.map_some, Option.getD_some]

/-- A tool's parts are read back as its content exactly when its name is kept in the first one. -/
theorem readParts_tool_iff (budget : ℕ)
    (hstorable : isBlank (toolContent parse tool.cleaned) = false) :
    readParts (bytesOf "convtool") (continuedParts (toolContent parse tool.cleaned) budget
      (trimSpace tool.cleaned.name)) = some (toolContent parse tool.cleaned) ↔
        NameKept parse budget tool := by
  obtain ⟨hne, hflatten⟩ := flatten_storableParts hstorable _
  obtain ⟨first, rest, hpieces⟩ := exists_cons_of_ne_nil hne
  rw [hpieces, flatten_cons] at hflatten
  rw [continuedParts_eq _ _ _ _ _ hpieces, NameKept, toolPieces, hpieces]
  cases rest with
  | nil => simpa [readParts] using hflatten
  | cons second rest =>
    rw [readParts, if_neg (by simp), if_pos rfl]
    have hiff := @joinToolParts_eq_some_iff _ first (second :: rest)
      (cons_ne_nil _ _) fun hname ↦ hflatten ▸ toolContent_eq_append parse hname
    rw [hflatten] at hiff
    rw [hiff]
    simp

/-- The rows of a document, however they are split and in any order, read back the document exactly
if every tool call of several parts has a name of one line that is not cut by its first part. -/
theorem families_read_back_iff (conversationID : Bytes) (parse : ShellParser) {doc : SemDoc}
    (hthinking : Utf8.Valid doc.thinking) (budget : ℕ) (plans : List (StoredChunk → Option ℕ))
    {rows : List FamilyRow}
    (hrows : rows.Perm ((resplit plans (documentChunks parse doc budget)).map
      (StoredChunk.familyRow conversationID))) :
    FamiliesRead conversationID parse doc rows ↔ ∀ tool ∈ doc.tools,
      NameKept parse budget tool := by
  have hwhole := @whole_of_mem_documentChunks parse doc budget
  have hstored := (Stored.refl fun _ ↦ hwhole).resplit plans
  have htext {field : Field} :=
    @familyText_of_document conversationID parse doc budget _ hstored rows hrows field
  -- A tool call's family reads back the call exactly if its name is kept.
  have htool {index : ℕ} {tool : SemToolCall} (htool : doc.tools[index]? = some tool)
      (hstorable : isBlank (toolContent parse tool.cleaned) = false) :
      familyText (familyPath conversationID ⟨doc.messageIndex, .tool index⟩) (Field.tool index).kind
        (familyMembers conversationID
          (familyPath conversationID ⟨doc.messageIndex, .tool index⟩) rows) =
          some (toolContent parse tool.cleaned) ↔ NameKept parse budget tool := by
    have hindex := (List.getElem?_eq_some_iff.mp htool).1
    have hparts : doc.parts parse budget (.tool index) =
        continuedParts (toolContent parse tool.cleaned) budget (trimSpace tool.cleaned.name) := by
      rw [SemDoc.parts, htool]
    rw [htext (by simp [SemDoc.fields, hindex]), hparts]
    · exact readParts_tool_iff parse budget hstorable
    obtain ⟨_, _, hpieces⟩ := exists_cons_of_ne_nil (flatten_storableParts hstorable _).1
    rw [hparts, continuedParts_eq _ _ _ _ _ hpieces]
    exact cons_ne_nil _ _
  constructor
  · intro hread tool hmem
    obtain ⟨index, hindex⟩ := mem_iff_getElem?.mp hmem
    by_cases hblank : isBlank (toolContent parse tool.cleaned) = true
    · simp [NameKept, toolPieces, storableParts, hblank]
    have hcontent := content_tool parse hindex
    rw [Bool.not_eq_true] at hblank
    have hlt := (List.getElem?_eq_some_iff.mp hindex).1
    have hsame := hread.texts _ (by simp [SemDoc.fields, hlt]) (hcontent ▸ hblank)
    rw [hcontent] at hsame
    exact (htool hindex hblank).mp hsame
  intro hkept
  refine ⟨keys_of_document hstored hrows hthinking, fun field hfield hstorable ↦ ?_⟩
  cases field with
  | text =>
    obtain ⟨hne, hflatten⟩ := flatten_storableParts hstorable budget
    rw [htext hfield hne, readParts_of_ne (by decide)]
    exact congrArg some hflatten
  | thinking =>
    obtain ⟨hne, hflatten⟩ := flatten_storableParts hstorable budget
    have hparts : doc.parts parse budget .thinking = storableParts doc.thinking budget := by
      rw [SemDoc.parts, toValidUTF8_eq_self hthinking]
    rw [htext hfield (hparts ▸ hne), hparts, readParts_of_ne (by decide)]
    exact congrArg some hflatten
  | tool index =>
    have hindex : index < doc.tools.length := by simpa [SemDoc.fields] using hfield
    have hfound := getElem?_eq_getElem hindex
    rw [content_tool parse hfound] at hstorable ⊢
    exact (htool hfound hstorable).mpr (hkept _ (getElem_mem hindex))

/-- A message with a text of six bytes and a tool call. -/
def sampleToolDoc (name display : Bytes) : SemDoc :=
  { messageIndex := 5, text := bytesOf "abcdef", tools := [⟨name, display, []⟩], thinking := [] }

/-- A tool call whose name fits, in several parts of which each row is split again. -/
theorem families_read_back_sample :
    FamiliesRead (bytesOf "c") (fun _ ↦ none) (sampleToolDoc (bytesOf "go") (bytesOf "build all"))
      ((resplit [fun _ ↦ some 3] (documentChunks (fun _ ↦ none)
        (sampleToolDoc (bytesOf "go") (bytesOf "build all")) 8)).map
          (StoredChunk.familyRow (bytesOf "c"))) := by
  refine (families_read_back_iff _ (fun _ ↦ none) ?_ 8 [fun _ ↦ some 3] (.refl _)).mpr ?_
  · exact Utf8.valid_iff.mpr ⟨[], rfl⟩
  intro _ htool
  rw [mem_singleton.mp htool]
  unfold NameKept
  decide +kernel

/-- A long tool call without a name does not read back, and one whose name has two lines reads back
as another text. -/
theorem long_tool_calls_misread :
    familyText (familyPath (bytesOf "c") ⟨5, .tool 0⟩) (Field.tool 0).kind
        (familyMembers (bytesOf "c") (familyPath (bytesOf "c") ⟨5, .tool 0⟩)
          ((documentChunks (fun _ ↦ none) (sampleToolDoc [] (bytesOf "abcdef")) 4).map
            (StoredChunk.familyRow (bytesOf "c")))) = none ∧
      toolContent (fun _ ↦ none) ⟨[], bytesOf "abcdef", []⟩ = bytesOf "abcdef" ∧
      familyText (familyPath (bytesOf "c") ⟨5, .tool 0⟩) (Field.tool 0).kind
        (familyMembers (bytesOf "c") (familyPath (bytesOf "c") ⟨5, .tool 0⟩)
          ((documentChunks (fun _ ↦ none) (sampleToolDoc (bytesOf "a\nb") (bytesOf "cdefgh")) 8).map
            (StoredChunk.familyRow (bytesOf "c")))) = some (bytesOf "a\nb\nb\ncdefb\ngh") ∧
      toolContent (fun _ ↦ none) ⟨bytesOf "a\nb", bytesOf "cdefgh", []⟩ =
        bytesOf "a\nb\ncdefgh" := by
  decide +kernel

end Clyde.VectorSearch
